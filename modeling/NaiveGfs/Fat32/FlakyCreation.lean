import NaiveGfs.Dfs.InitConfig
import NaiveGfs.Fat32.DirectoryCut
import NaiveGfs.Fat32.Findable
import NaiveGfs.Fat32.FlakyCard

/-!
# Creating the config file on a card that fails

The creation makes five writes for the two clusters of the file and one or two for the
directory, whatever becomes of them. Afterwards the file is on the card if the sector with its
record got there, behind no end record, and one of the writes of the sector with its first FAT
entry (`creationReported_iff`).
-/

namespace NaiveGfs

open LinkTable

variable {vol : Volume} {f : Faults} {s : Fs FlakyCard} {ch : List UInt32} {sl : Slot}
  {c : UInt32}

/-! ## What is reported -/

/-- A walk of the clusters `ch` meets a record with the name of the config file and start
cluster `c`. -/
def ListedIn (vol : Volume) (disk : UInt32 → Sector) (ch : List UInt32) (c : UInt32) : Prop :=
  ∃ r ∈ liveRecords vol disk (dirSlots vol ch),
    r.dirName = fat32DfsCfgFilename ∧ r.startCluster = c

/-- The clusters with which the root directory begins on the card: each is followed by the one
that its entry of the FAT on the card names, unless that is an end mark. -/
structure CardDirectory (vol : Volume) (disk : UInt32 → Sector) (ch : List UInt32) : Prop where
  head : ch.head? = some vol.data.rootDirFirstCluster
  linked : ch.IsChain fun a b => fat32NextCluster (onDiskFat vol disk) a = b ∧ b < 0x0ffffff8

/-- The root directory on the card has a record with the name of the config file and start
cluster `c`. -/
def Listed (vol : Volume) (disk : UInt32 → Sector) (c : UInt32) : Prop :=
  ∃ ch, CardDirectory vol disk ch ∧ ListedIn vol disk ch c

/-- The card has the config file at cluster `c`. -/
structure Reported (vol : Volume) (disk : UInt32 → Sector) (c : UInt32) : Prop where
  listed : Listed vol disk c
  entry : onDiskFat vol disk c ≠ 0

/-- A disk after those of some writes that succeed, the first of them with number `w`. -/
def diskAfter (f : Faults) : ℕ → (UInt32 → Sector) → List (UInt32 × Sector) → UInt32 → Sector
  | _, disk, [] => disk
  | w, disk, (lba, sector) :: writes =>
    diskAfter f (w + 1) (if f.write w then disk else Function.update disk lba sector) writes

/-- The slots of a directory in the sectors in front of that of a slot. -/
def slotsInFront (vol : Volume) (ch : List UInt32) (sl : Slot) : List Slot :=
  (dirSlots vol ch).takeWhile fun x => slotLba vol x != slotLba vol sl

/-- A disk after the last write of a creation, to the sector behind that of the record, but
not the one before it. -/
def copyAlone (f : Faults) (vol : Volume) (w : ℕ) (disk : UInt32 → Sector) (sl : Slot)
    (records : Sector) : UInt32 → Sector :=
  if f.write (w + 6) = false ∧ sl.idx.val = 15 ∧
      sl.sectorNo + 1 ≠ vol.id.sectorsPerCluster.toNat then
    Function.update disk (sectorLba vol sl.cluster (sl.sectorNo + 1)) (records.clearRecord 0)
  else disk

/-- The record that is stored in slot `sl` of the buffer `records` gets onto the disk, with
writes from number `w` on, and nothing in front of it hides it; or the file was listed before. -/
def RecordArrives (f : Faults) (vol : Volume) (w : ℕ) (disk : UInt32 → Sector)
    (ch : List UInt32) (sl : Slot) (records : Sector) (c : UInt32) : Prop :=
  if sl.cluster ∈ ch then
    if f.write (w + 5) then ListedIn vol (copyAlone f vol w disk sl records) ch c
    else (∀ x ∈ slotsInFront vol ch sl, isEndRecord (slotRecord vol disk x) = false) ∨
      ListedIn vol disk ch c
  else ListedIn vol disk ch c

/-- One of the writes of the entry of `c` gets onto the disk; that of the entry of `d` counts
if the two share a sector. -/
def EntryArrives (f : Faults) (vol : Volume) (w : ℕ) (disk : UInt32 → Sector) (c d : UInt32) :
    Prop :=
  f.write w = false ∨ (f.write (w + 2) = false ∧ fatSectorLba vol d = fatSectorLba vol c) ∨
    f.write (w + 4) = false ∨ onDiskFat vol disk c ≠ 0

/-- The second cluster of a file that begins at the free cluster `c`. -/
def secondCluster (vol : Volume) (fat : UInt32 → UInt32) (c : UInt32) : UInt32 :=
  clusterNo (findFreeLocalCluster vol (Function.update fat c fat32TerminalClusterNo))

/-- The writes of a creation of the config file at the free cluster `c`: two clusters are
taken and linked, and the record is put into slot `sl` of what has been `seen` of its sector. -/
def creationWrites (vol : Volume) (fat : UInt32 → UInt32) (sl : Slot) (seen : Sector)
    (c : UInt32) : List (UInt32 × Sector) :=
  let d := secondCluster vol fat c
  let taken := Function.update fat c fat32TerminalClusterNo
  let both := Function.update taken d fat32TerminalClusterNo
  let records := seen.setRecord sl.idx (newRecord (seen.record sl.idx) fat32DfsCfgFilename c)
  [(fatSectorLba vol c, fatSector taken c), (clusterNoToLba vol c, blankSector),
    (fatSectorLba vol d, fatSector both d), (clusterNoToLba vol d, blankSector),
    (fatSectorLba vol c, fatSector (Function.update both c d) c),
    (slotLba vol sl, recordSector sl.idx records)] ++
  if sl.idx.val = 15 ∧ sl.sectorNo + 1 ≠ vol.id.sectorsPerCluster.toNat then
    [(sectorLba vol sl.cluster (sl.sectorNo + 1), records.clearRecord 0)]
  else []

/-- The card has the config file at cluster `c` after the writes of its creation that succeed. -/
def CreationReported (f : Faults) (vol : Volume) (s : Fs FlakyCard) (sl : Slot) (seen : Sector)
    (c : UInt32) : Prop :=
  Reported vol (diskAfter f s.dev.writes s.dev.disk (creationWrites vol s.fat sl seen c)) c

/-- The clusters `ch` are the whole root directory, in the table and on the card. -/
structure SameDirectory (vol : Volume) (fat : UInt32 → UInt32) (disk : UInt32 → Sector)
    (ch : List UInt32) : Prop where
  whole : Follows (fat32NextCluster fat) (fun c => 0x0ffffff8 ≤ fat32NextCluster fat c) ch
  numbers : ∀ c ∈ ch, c < 0x0ffffff8
  same : ∀ c ∈ ch, onDiskFat vol disk c = fat c

/-- What decides whether the creation of the config file at cluster `c` arrives: it starts with
write number `w` and puts the record into slot `sl`, where the walk has `seen` in its buffer. -/
structure CreationArrives (f : Faults) (vol : Volume) (s : Fs FlakyCard) (ch : List UInt32)
    (sl : Slot) (seen : Sector) (c : UInt32) : Prop where
  record : RecordArrives f vol s.dev.writes s.dev.disk ch sl
    (seen.setRecord sl.idx (newRecord (seen.record sl.idx) fat32DfsCfgFilename c)) c
  entry : EntryArrives f vol s.dev.writes s.dev.disk c (secondCluster vol s.fat c)

/-- The sectors that the directory writes name for a record in slot `sl`. -/
def DirWrite (vol : Volume) (sl : Slot) (lba : UInt32) : Prop :=
  lba = slotLba vol sl ∨
    sl.idx.val = 15 ∧ sl.sectorNo + 1 ≠ vol.id.sectorsPerCluster.toNat ∧
      lba = sectorLba vol sl.cluster (sl.sectorNo + 1)

/-- A sector that is neither in the directory nor in the FAT. -/
structure OutsideSector (vol : Volume) (ch : List UInt32) (lba : UInt32) : Prop where
  directory : ∀ c ∈ ch, ∀ j, j < vol.id.sectorsPerCluster.toNat → sectorLba vol c j ≠ lba
  fat : ∀ k, k < vol.fatEnd → fatSectorLba vol k ≠ lba

/-- What an allocation without space writes at cluster `0x0FFFFFFF` is neither in the directory
nor in the FAT. -/
structure StrayOutside (vol : Volume) (ch : List UInt32) : Prop where
  directory : StrayApart vol ch
  fat : ∀ k, k < vol.fatEnd → fatSectorLba vol k ≠ clusterNoToLba vol fat32TerminalClusterNo

/-! ## One write -/

section Writes

variable {k v lba : UInt32} {records : Sector}

@[simp] theorem setEntry_flaky_writes :
    (setEntry (flakyDriver f) vol k v s).dev.writes = s.dev.writes + 1 := rfl

@[simp] theorem zeroCluster_flaky_writes :
    (zeroCluster (flakyDriver f) vol k s).dev.writes = s.dev.writes + 1 := rfl

@[simp] theorem writeRecords_flaky_writes :
    (writeRecords (flakyDriver f) records lba s).dev.writes = s.dev.writes + 1 := rfl

theorem setEntry_flaky_disk :
    (setEntry (flakyDriver f) vol k v s).dev.disk =
      if f.write s.dev.writes then s.dev.disk
      else Function.update s.dev.disk (fatSectorLba vol k)
        (fatSector (Function.update s.fat k v) k) := rfl

theorem zeroCluster_flaky_disk :
    (zeroCluster (flakyDriver f) vol k s).dev.disk =
      if f.write s.dev.writes then s.dev.disk
      else Function.update s.dev.disk (clusterNoToLba vol k) blankSector := rfl

theorem writeRecords_flaky_disk :
    (writeRecords (flakyDriver f) records lba s).dev.disk =
      if f.write s.dev.writes then s.dev.disk
      else Function.update s.dev.disk lba records := rfl

theorem setEntry_flaky_disk_of_ne (h : lba ≠ fatSectorLba vol k) :
    (setEntry (flakyDriver f) vol k v s).dev.disk lba = s.dev.disk lba := by
  rw [setEntry_flaky_disk]
  split
  · rfl
  · rw [Function.update_of_ne h]

theorem zeroCluster_flaky_disk_of_ne (h : lba ≠ clusterNoToLba vol k) :
    (zeroCluster (flakyDriver f) vol k s).dev.disk lba = s.dev.disk lba := by
  rw [zeroCluster_flaky_disk]
  split
  · rfl
  · rw [Function.update_of_ne h]

/-- Writing back the sector of an entry makes the entry of `c` nonzero on the disk if it is in
that sector and nonzero in memory. -/
theorem setEntry_flaky_entry (h : Function.update s.fat k v c ≠ 0) :
    onDiskFat vol (setEntry (flakyDriver f) vol k v s).dev.disk c ≠ 0 ↔
      (f.write s.dev.writes = false ∧ fatSectorLba vol k = fatSectorLba vol c) ∨
        onDiskFat vol s.dev.disk c ≠ 0 := by
  rw [setEntry_flaky_disk]
  cases hw : f.write s.dev.writes with
  | true => simp
  | false =>
    by_cases hs : fatSectorLba vol k = fatSectorLba vol c
    · have hword : onDiskFat vol (Function.update s.dev.disk (fatSectorLba vol k)
          (fatSector (Function.update s.fat k v) k)) c = Function.update s.fat k v c := by
        rw [onDiskFat, ← hs, Function.update_self]
        exact word_fatSector _ (fatSectorLba_eq_iff.mp hs.symm)
      simp only [Bool.false_eq_true, if_false, hword]
      simp [h, hs]
    · have hkeep : onDiskFat vol (Function.update s.dev.disk (fatSectorLba vol k)
          (fatSector (Function.update s.fat k v) k)) c = onDiskFat vol s.dev.disk c := by
        rw [onDiskFat, Function.update_of_ne (Ne.symm hs)]
        rfl
      simp only [Bool.false_eq_true, if_false, hkeep]
      simp [hs]

theorem zeroCluster_flaky_entry (h : fatSectorLba vol c ≠ clusterNoToLba vol k) :
    onDiskFat vol (zeroCluster (flakyDriver f) vol k s).dev.disk c =
      onDiskFat vol s.dev.disk c := by
  rw [onDiskFat, zeroCluster_flaky_disk_of_ne h]
  rfl

/-- An entry that is the same on the disk as in the table stays so, unless it is the one that
is set. -/
theorem setEntry_flaky_same (hk : c ≠ k) (h : onDiskFat vol s.dev.disk c = s.fat c) :
    onDiskFat vol (setEntry (flakyDriver f) vol k v s).dev.disk c =
      (setEntry (flakyDriver f) vol k v s).fat c := by
  have hfat : (setEntry (flakyDriver f) vol k v s).fat c = s.fat c := by
    show Function.update s.fat k v c = s.fat c
    rw [Function.update_of_ne hk]
  rw [setEntry_flaky_disk]
  split
  · rw [hfat, h]
  · by_cases hs : fatSectorLba vol c = fatSectorLba vol k
    · rw [onDiskFat, hs, Function.update_self]
      exact word_fatSector _ (fatSectorLba_eq_iff.mp hs)
    · rw [onDiskFat, Function.update_of_ne hs, hfat, ← h]
      rfl

end Writes

/-! ## The allocation of two clusters -/

section Alloc

variable {κ : Type} {fat : UInt32 → UInt32} {d lba : UInt32} {rest : List UInt32}

/-- The writes of the allocation of a file of two clusters. -/
def allocTwo (drv : Driver κ) (vol : Volume) (c d : UInt32) (s : Fs κ) : Fs κ :=
  setEntry drv vol c d (zeroCluster drv vol d (setEntry drv vol d fat32TerminalClusterNo
    (zeroCluster drv vol c (setEntry drv vol c fat32TerminalClusterNo s))))

theorem allocLocalFileAt_two (drv : Driver κ) (hend : vol.fatEnd.toNat ≤ 2 ^ 28) {s : Fs κ}
    (hfree : freeClusters vol s.fat = c :: rest) (dr : DirRecord) (name : Fin 11 → UInt8) :
    allocLocalFileAt drv vol dr (2 : UInt32).toInt32.toInt name s =
      (c, newRecord dr name c, allocTwo drv vol c (secondCluster vol s.fat c) s) := by
  have hc := (first_of_freeClusters hfree).1
  have hlt : c.toNat < 2 ^ 28 := lt_of_lt_of_le hc.lt hend
  have hnum : ((2 : UInt32).toInt32.toInt - 1).toNat = 1 := by decide
  simp only [allocLocalFileAt, allocFreeLocalCluster_eq hend hfree, hnum, extendFile,
    clusterNo_of_lt hlt, fat32PointFat_eq hlt]
  rfl

/-- The two clusters are free, or the second is the end mark. -/
theorem twoClusters_named (hend : vol.fatEnd.toNat ≤ 2 ^ 28) (htwo : 2 ≤ vol.fatEnd)
    (hfree : freeClusters vol fat = c :: rest) :
    c ∈ namedClusters vol fat 2 ∧ secondCluster vol fat c ∈ namedClusters vol fat 2 := by
  have hrest : freeClusters vol (Function.update fat c fat32TerminalClusterNo) = rest :=
    freeClusters_update hfree (by decide)
  have htaken : clustersTaken 2 = 2 := by decide
  rw [namedClusters, htaken]
  cases rest with
  | nil =>
    rw [secondCluster, findFreeLocalCluster_full htwo hrest, if_neg (by simp [hfree]),
      spareClusters, hfree]
    simp [clusterNo_allOnes]
  | cons d ds =>
    have hd : d ∈ freeClusters vol fat := by simp [hfree]
    have hlt := (mem_freeClusters.mp hd).1.lt
    rw [secondCluster, findFreeLocalCluster_eq hrest, clusterNo_of_lt (by omega),
      if_pos (by simp [hfree]), fileClusters, hfree]
    simp

theorem allocTwo_disk_of_notAlloc {cs : List UInt32} (hc : c ∈ cs) (hd : d ∈ cs)
    (h : ¬ AllocSector vol cs lba) :
    (allocTwo (flakyDriver f) vol c d s).dev.disk lba = s.dev.disk lba := by
  have hfat : ∀ x ∈ cs, lba ≠ fatSectorLba vol x := fun x hx he => h ⟨x, hx, Or.inl he⟩
  have hdata : ∀ x ∈ cs, lba ≠ clusterNoToLba vol x := fun x hx he => h ⟨x, hx, Or.inr he⟩
  rw [allocTwo, setEntry_flaky_disk_of_ne (hfat c hc), zeroCluster_flaky_disk_of_ne (hdata d hd),
    setEntry_flaky_disk_of_ne (hfat d hd), zeroCluster_flaky_disk_of_ne (hdata c hc),
    setEntry_flaky_disk_of_ne (hfat c hc)]

/-- The entry of the first cluster on the disk, after whichever of the writes succeeded. -/
theorem allocTwo_entry (hdne : d ≠ 0) (hc : fatSectorLba vol c ≠ clusterNoToLba vol c)
    (hd : fatSectorLba vol c ≠ clusterNoToLba vol d) :
    onDiskFat vol (allocTwo (flakyDriver f) vol c d s).dev.disk c ≠ 0 ↔
      EntryArrives f vol s.dev.writes s.dev.disk c d := by
  have hmark : fat32TerminalClusterNo ≠ 0 := by decide
  have hmiddle : Function.update (Function.update s.fat c fat32TerminalClusterNo) d
      fat32TerminalClusterNo c ≠ 0 := by
    by_cases he : c = d
    · rw [he, Function.update_self]
      exact hmark
    · rw [Function.update_of_ne he, Function.update_self]
      exact hmark
  rw [allocTwo, setEntry_flaky_entry (by rwa [Function.update_self]),
    zeroCluster_flaky_entry hd, setEntry_flaky_entry hmiddle, zeroCluster_flaky_entry hc,
    setEntry_flaky_entry (by rwa [Function.update_self]), EntryArrives]
  simp only [setEntry_flaky_writes, zeroCluster_flaky_writes, and_true]
  constructor
  · rintro (hfifth | hthird | hfirst | hdisk)
    · exact Or.inr (Or.inr (Or.inl hfifth))
    · exact Or.inr (Or.inl hthird)
    · exact Or.inl hfirst
    · exact Or.inr (Or.inr (Or.inr hdisk))
  · rintro (hfirst | hthird | hfifth | hdisk)
    · exact Or.inr (Or.inr (Or.inl hfirst))
    · exact Or.inr (Or.inl hthird)
    · exact Or.inl hfifth
    · exact Or.inr (Or.inr (Or.inr hdisk))

/-- The other entries stay the same on the disk as in the table. -/
theorem allocTwo_same {k : UInt32} (hkc : k ≠ c) (hkd : k ≠ d)
    (hc : fatSectorLba vol k ≠ clusterNoToLba vol c)
    (hd : fatSectorLba vol k ≠ clusterNoToLba vol d) (h : onDiskFat vol s.dev.disk k = s.fat k) :
    onDiskFat vol (allocTwo (flakyDriver f) vol c d s).dev.disk k = s.fat k := by
  have hfat : (allocTwo (flakyDriver f) vol c d s).fat k = s.fat k := by
    show Function.update (Function.update (Function.update s.fat c _) d _) c d k = s.fat k
    rw [Function.update_of_ne hkc, Function.update_of_ne hkd, Function.update_of_ne hkc]
  rw [← hfat]
  refine setEntry_flaky_same hkc ?_
  rw [zeroCluster_flaky_entry hd]
  refine setEntry_flaky_same hkd ?_
  rw [zeroCluster_flaky_entry hc]
  exact setEntry_flaky_same hkc h

end Alloc

/-! ## The directory writes -/

section Store

variable {records : Sector} {lba : UInt32}

/-- The directory writes name sectors of one cluster. -/
theorem DirWrite.exists_sector (hj : sl.sectorNo < vol.id.sectorsPerCluster.toNat)
    (h : DirWrite vol sl lba) :
    ∃ j < vol.id.sectorsPerCluster.toNat, lba = sectorLba vol sl.cluster j := by
  cases h with
  | inl hself => exact ⟨sl.sectorNo, hj, hself⟩
  | inr hnext => exact ⟨sl.sectorNo + 1, Nat.lt_of_le_of_ne hj hnext.2.1, hnext.2.2⟩

/-- The other sectors. -/
theorem storeRecord_flaky_of_ne (h : ¬ DirWrite vol sl lba) :
    (storeRecord (flakyDriver f) vol sl.cluster sl.sectorNo sl.idx records s).dev.disk lba =
      s.dev.disk lba := by
  have hself : lba ≠ sectorLba vol sl.cluster sl.sectorNo := fun he => h (Or.inl he)
  have hfirst : (writeRecords (flakyDriver f) (recordSector sl.idx records)
      (sectorLba vol sl.cluster sl.sectorNo) s).dev.disk lba = s.dev.disk lba := by
    rw [writeRecords_flaky_disk]
    split
    · rfl
    · exact Function.update_of_ne hself _ _
  rw [storeRecord_eq]
  simp only
  split
  · rename_i hcond
    have hnext : lba ≠ sectorLba vol sl.cluster (sl.sectorNo + 1) :=
      fun he => h (Or.inr ⟨hcond.1, hcond.2, he⟩)
    rw [writeRecords_flaky_disk]
    split
    · exact hfirst
    · rw [Function.update_of_ne hnext, hfirst]
  · exact hfirst

/-- The sector with the record, when the write succeeds. -/
theorem storeRecord_flaky_self (hwrite : f.write s.dev.writes = false) :
    (storeRecord (flakyDriver f) vol sl.cluster sl.sectorNo sl.idx records s).dev.disk
      (slotLba vol sl) = recordSector sl.idx records := by
  have hfirst : (writeRecords (flakyDriver f) (recordSector sl.idx records)
      (sectorLba vol sl.cluster sl.sectorNo) s).dev.disk (slotLba vol sl) =
      recordSector sl.idx records := by
    rw [writeRecords_flaky_disk, hwrite]
    exact Function.update_self _ _ _
  have hne : slotLba vol sl ≠ sectorLba vol sl.cluster (sl.sectorNo + 1) := by
    rw [sectorLba_succ]
    exact (add_one_ne_self _).symm
  rw [storeRecord_eq]
  simp only
  split
  · rw [writeRecords_flaky_disk]
    split
    · exact hfirst
    · rw [Function.update_of_ne hne, hfirst]
  · exact hfirst

/-- When it fails, at most the copy behind it is written. -/
theorem storeRecord_flaky_failed {w : ℕ} (hw : s.dev.writes = w + 5)
    (hwrite : f.write (w + 5) = true) :
    (storeRecord (flakyDriver f) vol sl.cluster sl.sectorNo sl.idx records s).dev.disk =
      copyAlone f vol w s.dev.disk sl records := by
  rw [storeRecord_eq, copyAlone]
  simp only
  by_cases hcond : sl.idx.val = 15 ∧ sl.sectorNo + 1 ≠ vol.id.sectorsPerCluster.toNat
  · rw [if_pos hcond, writeRecords_flaky_disk, writeRecords_flaky_writes, hw,
      writeRecords_flaky_disk, hw, hwrite]
    cases f.write (w + 5 + 1) with
    | true => simp
    | false => simp [hcond]
  · have hnone : ¬ (f.write (w + 6) = false ∧ sl.idx.val = 15 ∧
        sl.sectorNo + 1 ≠ vol.id.sectorsPerCluster.toNat) := fun h => hcond h.2
    rw [if_neg hcond, if_neg hnone, writeRecords_flaky_disk, hw, hwrite]
    rfl

end Store

/-! ## What is listed afterwards -/

section Listing

variable {disk disk' : UInt32 → Sector} {ch₁ ch₂ : List UInt32}

theorem listed_congr (h : ∀ x ∈ dirSlots vol ch, disk' (slotLba vol x) = disk (slotLba vol x)) :
    ListedIn vol disk' ch c ↔ ListedIn vol disk ch c := by
  rw [ListedIn, ListedIn, liveRecords_congr]
  intro x hx
  rw [slotRecord, slotRecord, h x hx]

/-- A slot in front of another is in an earlier sector, or earlier in the same sector. -/
theorem slotsBefore_eq (vol : Volume) (ch₁ : List UInt32) (sl : Slot) :
    slotsBefore vol ch₁ sl = slotsBefore vol ch₁ { sl with idx := 0 } ++ sectorFront sl := by
  have hnone : sectorFront { sl with idx := 0 } = [] := rfl
  rw [slotsBefore, slotsBefore, hnone, List.append_nil]

/-- The slots in front of the sector of a slot. -/
theorem slotsInFront_eq (hnodup : (ch₁ ++ sl.cluster :: ch₂).Nodup)
    (hinj : ∀ x ∈ dirSlots vol (ch₁ ++ sl.cluster :: ch₂), slotLba vol x = slotLba vol sl →
      x.cluster = sl.cluster ∧ x.sectorNo = sl.sectorNo)
    (hj : sl.sectorNo < vol.id.sectorsPerCluster.toNat) :
    slotsInFront vol (ch₁ ++ sl.cluster :: ch₂) sl = slotsBefore vol ch₁ { sl with idx := 0 } := by
  have hsplit : dirSlots vol (ch₁ ++ sl.cluster :: ch₂) =
      slotsBefore vol ch₁ { sl with idx := 0 } ++
        { sl with idx := 0 } :: slotsAfter vol ch₂ { sl with idx := 0 } :=
    @dirSlots_split vol ch₁ ch₂ { sl with idx := 0 } hj
  have hfront : ∀ x ∈ slotsBefore vol ch₁ { sl with idx := 0 },
      (slotLba vol x != slotLba vol sl) = true := by
    intro x hx
    rw [bne_iff_ne]
    intro he
    have hin : x ∈ dirSlots vol (ch₁ ++ sl.cluster :: ch₂) := by
      rw [hsplit]
      exact List.mem_append_left _ hx
    obtain ⟨hc, hs⟩ := hinj x hin he
    cases @slotsBefore_of_cluster vol ch₁ ch₂ { sl with idx := 0 } x hnodup hx hc with
    | inl hlt => exact absurd hs (ne_of_lt hlt)
    | inr h => exact absurd h.2 (Nat.not_lt_zero _)
  rw [slotsInFront, hsplit, List.takeWhile_append_of_pos hfront, List.takeWhile_cons_of_neg,
    List.append_nil]
  simp [slotLba]

/-- Neither directory write names a sector in front of that of the record. -/
theorem storeRecord_flaky_inFront (hvol : vol.Sound) {fat : UInt32 → UInt32}
    (hroot : RootChain vol fat (ch₁ ++ sl.cluster :: ch₂))
    (hj : sl.sectorNo < vol.id.sectorsPerCluster.toNat) (records : Sector) {x : Slot}
    (hx : x ∈ slotsInFront vol (ch₁ ++ sl.cluster :: ch₂) sl) :
    (storeRecord (flakyDriver f) vol sl.cluster sl.sectorNo sl.idx records s).dev.disk
      (slotLba vol x) = s.dev.disk (slotLba vol x) := by
  have hmem : sl ∈ dirSlots vol (ch₁ ++ sl.cluster :: ch₂) := mem_dirSlots.mpr ⟨by simp, hj⟩
  have htake := List.mem_takeWhile_imp hx
  have hne : slotLba vol x ≠ slotLba vol sl := bne_iff_ne.mp htake
  have hin : x ∈ dirSlots vol (ch₁ ++ sl.cluster :: ch₂) :=
    (List.takeWhile_sublist _).subset hx
  apply storeRecord_flaky_of_ne
  rintro (hself | ⟨-, hmore, he⟩)
  · exact hne hself
  -- the sector behind that of the record is not in front of it
  · have hnext : (⟨sl.cluster, sl.sectorNo + 1, 0⟩ : Slot) ∈
        dirSlots vol (ch₁ ++ sl.cluster :: ch₂) :=
      mem_dirSlots.mpr ⟨by simp, Nat.lt_of_le_of_ne hj hmore⟩
    obtain ⟨hc, hs⟩ := hroot.slotLba_inj hvol hin hnext he
    rw [slotsInFront_eq hroot.nodup (fun x hx he => hroot.slotLba_inj hvol hx hmem he) hj] at hx
    have hlt := @slotsBefore_of_cluster vol ch₁ ch₂ { sl with idx := 0 } x hroot.nodup hx hc
    simp only at hs hlt
    omega

/-- A walk gets to a new record if no record of a sector in front of it is an end record and no
record of its sector in front of it. -/
theorem listed_of_inFront (hnodup : (ch₁ ++ sl.cluster :: ch₂).Nodup)
    (hinj : ∀ x ∈ dirSlots vol (ch₁ ++ sl.cluster :: ch₂), slotLba vol x = slotLba vol sl →
      x.cluster = sl.cluster ∧ x.sectorNo = sl.sectorNo)
    (hj : sl.sectorNo < vol.id.sectorsPerCluster.toNat)
    (hfront : ∀ x ∈ slotsInFront vol (ch₁ ++ sl.cluster :: ch₂) sl,
      isEndRecord (slotRecord vol disk x) = false)
    (hsector : ∀ i < sl.idx, isEndRecord ((disk (slotLba vol sl)).record i) = false)
    (hname : (slotRecord vol disk sl).dirName = fat32DfsCfgFilename)
    (hstart : (slotRecord vol disk sl).startCluster = c)
    (hlfn : (slotRecord vol disk sl).isLfn = false) :
    ListedIn vol disk (ch₁ ++ sl.cluster :: ch₂) c := by
  have hbefore : ∀ x ∈ slotsBefore vol ch₁ sl ++ [sl],
      isEndRecord (slotRecord vol disk x) = false := by
    intro x hx
    cases List.mem_append.mp hx with
    | inl hx =>
      rw [slotsBefore_eq] at hx
      cases List.mem_append.mp hx with
      | inl hx =>
        apply hfront
        rw [slotsInFront_eq hnodup hinj hj]
        exact hx
      | inr hx =>
        obtain ⟨hc, hs, hi⟩ := mem_sectorFront hx
        have hlba : slotLba vol x = slotLba vol sl := by rw [slotLba, slotLba, hc, hs]
        rw [slotRecord, hlba]
        exact hsector x.idx hi
    | inr hx =>
      rw [List.mem_singleton] at hx
      rw [hx, isEndRecord, DirRecord.isTerminal, hname, hlfn]
      rfl
  have hsplit : dirSlots vol (ch₁ ++ sl.cluster :: ch₂) =
      (slotsBefore vol ch₁ sl ++ [sl]) ++ slotsAfter vol ch₂ sl := by
    rw [dirSlots_split hj, List.append_assoc, List.singleton_append]
  refine ⟨slotRecord vol disk sl, ?_, hname, hstart⟩
  rw [hsplit]
  exact mem_liveRecords hbefore (List.mem_append_right _ List.mem_cons_self) hlfn

/-- What is listed depends on the sectors in front of a slot only, if one of their records is
an end record. -/
theorem listed_congr_of_end (hsame : ∀ x ∈ slotsInFront vol ch sl,
      slotRecord vol disk' x = slotRecord vol disk x)
    (hend : ∃ x ∈ slotsInFront vol ch sl, isEndRecord (slotRecord vol disk x) = true) :
    ListedIn vol disk' ch c ↔ ListedIn vol disk ch c := by
  have hend' : ∃ x ∈ slotsInFront vol ch sl, isEndRecord (slotRecord vol disk' x) = true := by
    obtain ⟨x, hx, he⟩ := hend
    exact ⟨x, hx, by rw [hsame x hx]; exact he⟩
  obtain ⟨behind, hsplit⟩ : ∃ behind, dirSlots vol ch = slotsInFront vol ch sl ++ behind :=
    ⟨_, List.takeWhile_append_dropWhile.symm⟩
  rw [ListedIn, ListedIn, hsplit, liveRecords_append_of_end hend', liveRecords_append_of_end hend,
    liveRecords_congr hsame]

/-- After the writes to a slot of the directory, as far as they succeeded, the file is listed
exactly when its record has arrived. The state `s` is that before them, `disk` the disk before
the call. -/
theorem listed_storeRecord_iff (hvol : vol.Sound) {fat : UInt32 → UInt32}
    (hroot : RootChain vol fat (ch₁ ++ sl.cluster :: ch₂))
    (hj : sl.sectorNo < vol.id.sectorsPerCluster.toNat)
    (hkeep : ∀ x ∈ dirSlots vol (ch₁ ++ sl.cluster :: ch₂),
      s.dev.disk (slotLba vol x) = disk (slotLba vol x)) {w : ℕ} (hw : s.dev.writes = w + 5)
    {seen : Sector} {new : DirRecord}
    (hseen : ∀ i < sl.idx, isEndRecord (seen.record i) = false)
    (hname : new.dirName = fat32DfsCfgFilename) (hstart : new.startCluster = c)
    (hlfn : new.isLfn = false) :
    ListedIn vol (storeRecord (flakyDriver f) vol sl.cluster sl.sectorNo sl.idx
        (seen.setRecord sl.idx new) s).dev.disk (ch₁ ++ sl.cluster :: ch₂) c ↔
      RecordArrives f vol w disk (ch₁ ++ sl.cluster :: ch₂) sl (seen.setRecord sl.idx new) c := by
  have hcl : sl.cluster ∈ ch₁ ++ sl.cluster :: ch₂ := by simp
  have hmem : sl ∈ dirSlots vol (ch₁ ++ sl.cluster :: ch₂) := mem_dirSlots.mpr ⟨hcl, hj⟩
  rw [RecordArrives, if_pos hcl]
  cases hwrite : f.write (w + 5) with
  | true =>
    rw [if_pos rfl, storeRecord_flaky_failed hw hwrite]
    apply listed_congr
    intro x hx
    rw [copyAlone, copyAlone]
    split
    · by_cases hnext : slotLba vol x = sectorLba vol sl.cluster (sl.sectorNo + 1)
      · rw [hnext, Function.update_self, Function.update_self]
      · rw [Function.update_of_ne hnext, Function.update_of_ne hnext, hkeep x hx]
    · exact hkeep x hx
  | false =>
    have hself : (storeRecord (flakyDriver f) vol sl.cluster sl.sectorNo sl.idx
        (seen.setRecord sl.idx new) s).dev.disk (slotLba vol sl) =
          recordSector sl.idx (seen.setRecord sl.idx new) :=
      storeRecord_flaky_self (by rw [hw]; exact hwrite)
    have hnew : slotRecord vol (storeRecord (flakyDriver f) vol sl.cluster sl.sectorNo sl.idx
        (seen.setRecord sl.idx new) s).dev.disk sl = new := by
      rw [slotRecord, hself, recordSector_record_self, Sector.record_setRecord_self]
    have hfront : ∀ x ∈ slotsInFront vol (ch₁ ++ sl.cluster :: ch₂) sl,
        slotRecord vol (storeRecord (flakyDriver f) vol sl.cluster sl.sectorNo sl.idx
          (seen.setRecord sl.idx new) s).dev.disk x = slotRecord vol disk x := by
      intro x hx
      rw [slotRecord, slotRecord, storeRecord_flaky_inFront hvol hroot hj _ hx,
        hkeep x ((List.takeWhile_sublist _).subset hx)]
    simp only [Bool.false_eq_true, if_false]
    by_cases hclear : ∀ x ∈ slotsInFront vol (ch₁ ++ sl.cluster :: ch₂) sl,
        isEndRecord (slotRecord vol disk x) = false
    · apply iff_of_true _ (Or.inl hclear)
      apply listed_of_inFront hroot.nodup (fun x hx he => hroot.slotLba_inj hvol hx hmem he) hj
      · intro x hx
        rw [hfront x hx]
        exact hclear x hx
      · intro i hi
        rw [hself, recordSector_record_of_lt hi, Sector.record_setRecord_of_ne _ (ne_of_lt hi)]
        exact hseen i hi
      · rw [hnew]
        exact hname
      · rw [hnew]
        exact hstart
      · rw [hnew]
        exact hlfn
    · rw [or_iff_right hclear]
      apply listed_congr_of_end hfront
      push Not at hclear
      obtain ⟨x, hx, hend⟩ := hclear
      exact ⟨x, hx, by simpa using hend⟩

end Listing

/-! ## The creation -/

/-- The directory writes outside of the directory miss it. -/
theorem DirWrite.outside (hvol : vol.Sound) {fat : UInt32 → UInt32} (hroot : RootChain vol fat ch)
    (hj : sl.sectorNo < vol.id.sectorsPerCluster.toNat)
    (hout : ¬ vol.InRange sl.cluster → ∀ lba, DirWrite vol sl lba → OutsideSector vol ch lba)
    (hnot : sl.cluster ∉ ch) {lba : UInt32} (h : DirWrite vol sl lba) :
    OutsideSector vol ch lba := by
  by_cases hin : vol.InRange sl.cluster
  · obtain ⟨j, hlt, rfl⟩ := h.exists_sector hj
    constructor
    · intro c hc i hi he
      have hsame := (hvol.sectorLba_inj (hvol.fits (hroot.inRange c hc)) (hvol.fits hin) hi hlt
        he).1
      exact hnot (hsame ▸ hc)
    · intro k hk
      exact (hvol.sectorLba_ne_fat hin hlt hk).symm
  · exact hout hin lba h

/-- They miss the FAT wherever the record goes. -/
theorem DirWrite.ne_fat (hvol : vol.Sound)
    (hj : sl.sectorNo < vol.id.sectorsPerCluster.toNat)
    (hout : ¬ vol.InRange sl.cluster → ∀ lba, DirWrite vol sl lba → OutsideSector vol ch lba)
    {lba k : UInt32} (h : DirWrite vol sl lba) (hk : k < vol.fatEnd) :
    lba ≠ fatSectorLba vol k := by
  by_cases hin : vol.InRange sl.cluster
  · obtain ⟨j, hlt, rfl⟩ := h.exists_sector hj
    exact hvol.sectorLba_ne_fat hin hlt hk
  · exact ((hout hin lba h).fat k hk).symm

/-- The clusters that an allocation names are no FAT sectors. -/
theorem namedClusters_ne_fat (hvol : vol.Sound)
    (hstray : (freeClusters vol s.fat).length < 2 → StrayOutside vol ch) (hc : vol.InRange c) :
    ∀ x ∈ namedClusters vol s.fat 2, x ≠ 0 ∧ fatSectorLba vol c ≠ clusterNoToLba vol x := by
  intro x hx
  cases mem_namedClusters hx with
  | inl hfree =>
    refine ⟨?_, (hvol.clusterNoToLba_ne_fat hfree.1 hc.2).symm⟩
    rintro rfl
    exact absurd hfree.1.two_le (by decide)
  | inr hmark =>
    obtain ⟨rfl, hfew⟩ := hmark
    exact ⟨by decide, (hstray hfew).fat c hc.2⟩

/-- The root directory on the card, where it is the one in the table. -/
theorem SameDirectory.listed_iff {fat : UInt32 → UInt32} {disk : UInt32 → Sector}
    (h : SameDirectory vol fat disk ch) (hhead : ch.head? = some vol.data.rootDirFirstCluster) :
    Listed vol disk c ↔ ListedIn vol disk ch c := by
  have hnext : ∀ x ∈ ch, fat32NextCluster (onDiskFat vol disk) x = fat32NextCluster fat x :=
    fun x hx => by rw [fat32NextCluster, fat32NextCluster, h.same x hx]
  have hwhole := h.whole.congr hnext fun x hx hend => (hnext x hx).symm ▸ hend
  constructor
  · rintro ⟨ds, hds, r, hr, hrec⟩
    have hprefix : ds <+: ch := by
      refine hwhole.prefix_of_isChain (hds.head.trans hhead.symm) (hds.linked.imp ?_)
      rintro a b ⟨rfl, hb⟩
      exact ⟨rfl, UInt32.not_le.mpr hb⟩
    refine ⟨r, mem_liveRecords_of_prefix ?_ hr, hrec⟩
    obtain ⟨es, rfl⟩ := hprefix
    rw [dirSlots, dirSlots, List.flatMap_append]
    exact List.prefix_append _ _
  · intro hin
    refine ⟨ch, ⟨hhead, ?_⟩, hin⟩
    refine hwhole.isChain.imp_of_mem_imp ?_
    rintro a b - hb rfl
    exact ⟨rfl, h.numbers _ hb⟩

/-- What the card holds when the config file has been created at the first free cluster. -/
theorem disk_insertAt (hend : vol.fatEnd.toNat ≤ 2 ^ 28) (seen : Sector) {rest : List UInt32}
    (hfree : freeClusters vol s.fat = c :: rest) (r : ℕ) :
    (insertAt (flakyDriver f) vol sl.cluster sl.sectorNo sl.idx seen (2 : UInt32).toInt32.toInt
        fat32DfsCfgFilename { s with dev := s.dev.atRead r }).2.dev.disk =
      diskAfter f s.dev.writes s.dev.disk (creationWrites vol s.fat sl seen c) := by
  have hfree' : freeClusters vol ({ s with dev := s.dev.atRead r } : Fs FlakyCard).fat =
      c :: rest := hfree
  simp only [insertAt, allocLocalFileAt_two _ hend hfree', storeRecord_eq, creationWrites]
  by_cases hcond : sl.idx.val = 15 ∧ sl.sectorNo + 1 ≠ vol.id.sectorsPerCluster.toNat
  · rw [if_pos hcond, if_pos hcond]
    rfl
  · rw [if_neg hcond, if_neg hcond]
    rfl

/-- Where the root directory on the card is the one in the table, the file is on the card after
the writes of its creation if its record and its entry arrive. -/
theorem creationReported_iff (hvol : vol.Sound) (hroot : RootChain vol s.fat ch)
    (hsame : SameDirectory vol s.fat s.dev.disk ch)
    (hstray : (freeClusters vol s.fat).length < 2 → StrayOutside vol ch) {seen : Sector}
    (hj : sl.sectorNo < vol.id.sectorsPerCluster.toNat)
    (hbefore : ∀ i < sl.idx, isEndRecord (seen.record i) = false)
    (hout : ¬ vol.InRange sl.cluster → ∀ lba, DirWrite vol sl lba → OutsideSector vol ch lba)
    {rest : List UInt32} (hfree : freeClusters vol s.fat = c :: rest) :
    CreationReported f vol s sl seen c ↔ CreationArrives f vol s ch sl seen c := by
  set d := secondCluster vol s.fat c with hd
  set new := newRecord (seen.record sl.idx) fat32DfsCfgFilename c with hnew
  set t₁ := allocTwo (flakyDriver f) vol c d s with ht₁
  have hinsert : diskAfter f s.dev.writes s.dev.disk (creationWrites vol s.fat sl seen c) =
      (storeRecord (flakyDriver f) vol sl.cluster sl.sectorNo sl.idx
        (seen.setRecord sl.idx new) t₁).dev.disk := by
    have hfree' : freeClusters vol ({ s with dev := s.dev.atRead s.dev.reads } : Fs FlakyCard).fat =
        c :: rest := hfree
    rw [← disk_insertAt hvol.fatEnd_le seen hfree s.dev.reads]
    simp only [insertAt, allocLocalFileAt_two _ hvol.fatEnd_le hfree']
    rfl
  obtain ⟨hcnamed, hdnamed⟩ := twoClusters_named hvol.fatEnd_le hroot.two_le_fatEnd hfree
  have hcrange := (first_of_freeClusters hfree).1
  have hfat : ∀ {k}, vol.InRange k → ∀ x ∈ namedClusters vol s.fat 2,
      x ≠ 0 ∧ fatSectorLba vol k ≠ clusterNoToLba vol x :=
    fun hk => namedClusters_ne_fat hvol hstray hk
  have hkeep : ∀ x ∈ dirSlots vol ch,
      t₁.dev.disk (slotLba vol x) = s.dev.disk (slotLba vol x) := by
    intro x hx
    obtain ⟨hxc, hxj⟩ := mem_dirSlots.mp hx
    exact allocTwo_disk_of_notAlloc hcnamed hdnamed (hroot.notAlloc_named (n := 2) hvol
      (fun hfew => (hstray hfew).directory) hxc hxj)
  have hlisted : ListedIn vol (storeRecord (flakyDriver f) vol sl.cluster sl.sectorNo sl.idx
      (seen.setRecord sl.idx new) t₁).dev.disk ch c ↔
      RecordArrives f vol s.dev.writes s.dev.disk ch sl (seen.setRecord sl.idx new) c := by
    by_cases hcl : sl.cluster ∈ ch
    · obtain ⟨ch₁, ch₂, rfl⟩ := List.append_of_mem hcl
      exact listed_storeRecord_iff hvol hroot hj hkeep rfl hbefore rfl
        (newRecord_startCluster _ _ _) rfl
    · rw [RecordArrives, if_neg hcl]
      apply listed_congr
      intro x hx
      rw [storeRecord_flaky_of_ne, hkeep x hx]
      intro hdir
      obtain ⟨hxc, hxj⟩ := mem_dirSlots.mp hx
      exact (hdir.outside hvol hroot hj hout hcl).directory _ hxc _ hxj rfl
  have hentry : onDiskFat vol t₁.dev.disk c ≠ 0 ↔
      EntryArrives f vol s.dev.writes s.dev.disk c d :=
    allocTwo_entry (hfat hcrange d hdnamed).1 (hfat hcrange c hcnamed).2
      (hfat hcrange d hdnamed).2
  -- the directory writes miss the FAT
  have hdir : ∀ {k}, vol.InRange k → onDiskFat vol (storeRecord (flakyDriver f) vol sl.cluster
      sl.sectorNo sl.idx (seen.setRecord sl.idx new) t₁).dev.disk k =
        onDiskFat vol t₁.dev.disk k := by
    intro k hk
    rw [onDiskFat, storeRecord_flaky_of_ne]
    · rfl
    · exact fun hdir => hdir.ne_fat hvol hj hout hk.2 rfl
  have hafter : SameDirectory vol s.fat (storeRecord (flakyDriver f) vol sl.cluster sl.sectorNo
      sl.idx (seen.setRecord sl.idx new) t₁).dev.disk ch := by
    refine ⟨hsame.whole, hsame.numbers, fun k hk => ?_⟩
    have hkrange := hroot.inRange k hk
    have hapart : ∀ x ∈ namedClusters vol s.fat 2, k ≠ x := by
      rintro x hx rfl
      cases mem_namedClusters hx with
      | inl hfree => exact hroot.used k hk hfree.2
      | inr hmark =>
        have hnumber := hsame.numbers k hk
        rw [hmark.1] at hnumber
        exact absurd hnumber (by decide)
    rw [hdir hkrange]
    exact allocTwo_same (hapart c hcnamed) (hapart d hdnamed) (hfat hkrange c hcnamed).2
      (hfat hkrange d hdnamed).2 (hsame.same k hk)
  rw [CreationReported, hinsert]
  constructor
  · intro h
    exact ⟨hlisted.mp ((hafter.listed_iff hroot.head).mp h.listed),
      hentry.mp (hdir hcrange ▸ h.entry)⟩
  · intro h
    exact ⟨(hafter.listed_iff hroot.head).mpr (hlisted.mpr h.record),
      by rw [hdir hcrange]; exact hentry.mpr h.entry⟩

end NaiveGfs
