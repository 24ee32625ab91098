import Mathlib.Data.Bool.AllAny
import NaiveGfs.Fat32.Alloc
import NaiveGfs.Fat32.ClusterIo

/-!
# The loops that print chains

`fat32_inspect_dir` follows the chain of a directory and reads its clusters into the memory
behind the FAT; for each record it then follows the chain of the file, and so does
`fat32_dump_dir_rec`. All three loops stop at `FAT32_TERMINAL_CLUSTER_NO`, which is one of the
eight values that end a chain. At another one they go on: the mark is taken for a cluster, and
for an index into the table.
-/

namespace NaiveGfs

open LittleEndian LinkTable

/-- The memory from `FAT_end` on, by byte, which is as large as the loops need it, and the
indexes of the FAT entries that have been read. -/
structure Listing where
  behind : ℕ → UInt8
  indexes : List UInt32

/-- `FAT[i]`: an entry of the table, or a word of the memory behind it. -/
def fatWord (vol : Volume) (fat : UInt32 → UInt32) (behind : ℕ → UInt8) (i : UInt32) : UInt32 :=
  if i < vol.fatEnd then fat i
  else
    let k := 4 * (i.toNat - vol.fatEnd.toNat)
    word32 (behind k) (behind (k + 1)) (behind (k + 2)) (behind (k + 3))

section Code

variable (vol : Volume) (fat : UInt32 → UInt32) (disk : UInt32 → Sector)

/-- `fat32_next_cluster`, with the index noted. -/
def nextCluster (l : Listing) (c : UInt32) : UInt32 × Listing :=
  (fat32NextCluster (fatWord vol fat l.behind) c, { l with indexes := l.indexes ++ [c] })

/-- `bytes_per_cluster`. -/
def bytesPerCluster : ℕ := vol.data.sectorsPerCluster.toNat * vol.id.bytesPerSector.toNat

/-- One round of the first loop of `fat32_inspect_dir`; `dst` is counted from `FAT_end`. -/
def inspectCluster (s : Listing × ℕ) (c : UInt32) : UInt32 × (Listing × ℕ) :=
  -- the cluster is stored before its link is read, so a link from behind the FAT changes
  let l := { s.1 with behind := readCluster vol disk c s.2 s.1.behind }
  let (next, l) := nextCluster vol fat l c
  (next, l, s.2 + bytesPerCluster vol)

/-- The first loop of `fat32_inspect_dir`: the clusters that are read. -/
def inspectDirClusters (c : UInt32) (l : Listing) (fuel : ℕ) : Option (List UInt32 × Listing) :=
  (walkFirst (inspectCluster vol fat disk) (fun c => c == fat32TerminalClusterNo) fuel c
    (l, 0)).map fun (cs, l, _) => (cs, l)

/-- Where the loops along the chain of a file stop. -/
def stopsPrinting (c : UInt32) : Bool := c == fat32TerminalClusterNo || decide (c ≤ 2)

/-- The loop of `fat32_inspect_dir` for a record: the clusters that are printed. -/
def inspectDirRec (r : DirRecord) (l : Listing) (fuel : ℕ) : Option (List UInt32 × Listing) :=
  if r.startCluster = 0 then some ([], l)
  else walkFirst (nextCluster vol fat) stopsPrinting fuel r.startCluster l

/-- The loop of `fat32_dump_dir_rec`: the clusters that are printed. -/
def dumpDirRecClusters (r : DirRecord) (l : Listing) (fuel : ℕ) :
    Option (List UInt32 × Listing) :=
  if r.isTerminal then some ([], l)
  else walk (nextCluster vol fat) stopsPrinting fuel r.startCluster l

end Code

/-! ## Chains with any end mark -/

/-- A value that ends a chain. -/
def IsEndMark (m : UInt32) : Prop := 0x0ffffff8 ≤ m ∧ m ≤ 0x0fffffff

/-- The clusters `ch` are linked in the table, and the last one holds an end mark. Such a
chain has no cycle. -/
structure EndsIn (vol : Volume) (fat : UInt32 → UInt32) (ch : List UInt32) (mark : UInt32) :
    Prop where
  linked : (ch ++ [mark]).IsChain fun a b => fat32NextCluster fat a = b
  above : ∀ c ∈ ch, 2 < c
  inTable : ∀ c ∈ ch, c < vol.fatEnd
  noMark : ∀ c ∈ ch, ¬ IsEndMark c
  mark : IsEndMark mark

/-- A loop visits exactly the clusters `ch`, returns, and reads entries of the table only. -/
def WalksChain (vol : Volume) (ch : List UInt32)
    (run : Listing → ℕ → Option (List UInt32 × Listing)) : Prop :=
  ∀ behind, ∃ fuel l, run ⟨behind, []⟩ fuel = some (ch, l) ∧ ∀ i ∈ l.indexes, i < vol.fatEnd

variable {vol : Volume} {fat : UInt32 → UInt32} {disk : UInt32 → Sector} {c mark : UInt32}
  {cs ch : List UInt32}

theorem fatWord_of_lt (h : c < vol.fatEnd) (behind : ℕ → UInt8) :
    fatWord vol fat behind c = fat c := if_pos h

theorem EndsIn.next (h : EndsIn vol fat ch mark) (l : Listing) (hc : c ∈ ch) :
    (nextCluster vol fat l c).1 = fat32NextCluster fat c := by
  rw [nextCluster, fat32NextCluster, fat32NextCluster, fatWord_of_lt (h.inTable c hc)]

/-- Of the end marks only one ends the loops. -/
theorem IsEndMark.stopsPrinting_iff (h : IsEndMark mark) :
    stopsPrinting mark = true ↔ mark = fat32TerminalClusterNo := by
  have htwo : ¬ mark ≤ 2 := by
    intro hle
    exact absurd (UInt32.le_trans h.1 hle) (by decide)
  simp [stopsPrinting, htwo]

theorem EndsIn.not_stopsPrinting (h : EndsIn vol fat ch mark) (hc : c ∈ ch) :
    stopsPrinting c = false := by
  have hne : c ≠ fat32TerminalClusterNo := by
    rintro rfl
    exact h.noMark _ hc ⟨by decide, by decide⟩
  have htwo : ¬ c ≤ 2 := UInt32.not_le.mpr (h.above c hc)
  simp [stopsPrinting, hne, htwo]

/-- The indexes read are the clusters visited. -/
theorem indexes_foldl (cs : List UInt32) (l : Listing) :
    (cs.foldl (fun l c => (nextCluster vol fat l c).2) l).indexes = l.indexes ++ cs := by
  induction cs generalizing l with
  | nil => simp
  | cons c cs ih =>
    rw [List.foldl_cons, ih, nextCluster, List.append_assoc]
    rfl

theorem indexes_foldl_inspect (cs : List UInt32) (s : Listing × ℕ) :
    (cs.foldl (fun s c => (inspectCluster vol fat disk s c).2) s).1.indexes =
      s.1.indexes ++ cs := by
  induction cs generalizing s with
  | nil => simp
  | cons c cs ih =>
    rw [List.foldl_cons, ih, inspectCluster, nextCluster, List.append_assoc]
    rfl

/-! ## The three loops -/

/-- A loop that notes the clusters it visits walks the chain if it visits it and returns. -/
theorem EndsIn.walksChain_iff (h : EndsIn vol fat ch mark) {P : Prop}
    {run : Listing → ℕ → Option (List UInt32 × Listing)}
    (hvisits : ∀ behind, (∃ fuel l, run ⟨behind, []⟩ fuel = some (ch, l)) ↔ P)
    (hnotes : ∀ behind fuel l, run ⟨behind, []⟩ fuel = some (ch, l) → l.indexes = ch) :
    WalksChain vol ch run ↔ P := by
  constructor
  · intro hwalks
    obtain ⟨fuel, l, hrun, -⟩ := hwalks fun _ => 0
    exact (hvisits _).mp ⟨fuel, l, hrun⟩
  · intro hP behind
    obtain ⟨fuel, l, hrun⟩ := (hvisits behind).mpr hP
    refine ⟨fuel, l, hrun, ?_⟩
    rw [hnotes behind fuel l hrun]
    exact h.inTable

section Loops

variable (h : EndsIn vol fat (c :: cs) mark)

include h

/-- The loop of `fat32_dump_dir_rec`. -/
theorem dumpDirRec_walksChain_iff {r : DirRecord} (hlive : r.isTerminal = false)
    (hstart : r.startCluster = c) :
    WalksChain vol (c :: cs) (dumpDirRecClusters vol fat r) ↔ mark = fat32TerminalClusterNo := by
  have hloop : ∀ l fuel, dumpDirRecClusters vol fat r l fuel =
      walk (nextCluster vol fat) stopsPrinting fuel c l := by
    intro l fuel
    rw [dumpDirRecClusters, hlive, hstart]
    rfl
  refine h.walksChain_iff (fun behind => ?_) fun behind fuel l hrun => ?_
  · simp only [hloop]
    rw [← h.mark.stopsPrinting_iff]
    exact walk_exact_iff rfl h.linked (fun l a ha => h.next l ha)
      (fun a ha => h.not_stopsPrinting ha) _
  · rw [hloop] at hrun
    rw [walk_state hrun, indexes_foldl, List.nil_append]

/-- The loop of `fat32_inspect_dir` for a record. -/
theorem inspectDirRec_walksChain_iff {r : DirRecord} (hstart : r.startCluster = c) :
    WalksChain vol (c :: cs) (inspectDirRec vol fat r) ↔ mark = fat32TerminalClusterNo := by
  have hzero : c ≠ 0 := by
    rintro rfl
    exact absurd (h.above 0 List.mem_cons_self) (by decide)
  have hloop : ∀ l fuel, inspectDirRec vol fat r l fuel =
      walkFirst (nextCluster vol fat) stopsPrinting fuel c l := by
    intro l fuel
    rw [inspectDirRec, hstart, if_neg hzero]
  refine h.walksChain_iff (fun behind => ?_) fun behind fuel l hrun => ?_
  · simp only [hloop]
    rw [← h.mark.stopsPrinting_iff]
    exact walkFirst_exact_iff h.linked (fun l a ha => h.next l ha)
      (fun a ha => h.not_stopsPrinting (List.mem_cons_of_mem c ha)) _
  · rw [hloop] at hrun
    rw [walkFirst_state hrun, indexes_foldl, List.nil_append]

/-- The loop of `fat32_inspect_dir` over the clusters of the directory. -/
theorem inspectDir_walksChain_iff :
    WalksChain vol (c :: cs) (inspectDirClusters vol fat disk c) ↔
      mark = fat32TerminalClusterNo := by
  refine h.walksChain_iff (fun behind => ?_) fun behind fuel l hrun => ?_
  · have hnext : ∀ s, ∀ a ∈ c :: cs,
        (inspectCluster vol fat disk s a).1 = fat32NextCluster fat a :=
      fun s a ha => h.next { s.1 with behind := _ } ha
    -- this loop does not look for numbers up to 2
    have hgo : ∀ a ∈ cs, (a == fat32TerminalClusterNo) = false := by
      intro a ha
      rw [beq_eq_false_iff_ne]
      rintro rfl
      exact h.noMark _ (List.mem_cons_of_mem c ha) ⟨by decide, by decide⟩
    have hexact : (∃ fuel s, walkFirst (inspectCluster vol fat disk)
        (fun a => a == fat32TerminalClusterNo) fuel c (⟨behind, []⟩, 0) = some (c :: cs, s)) ↔ _ :=
      walkFirst_exact_iff h.linked hnext hgo _
    rw [beq_iff_eq] at hexact
    rw [← hexact]
    constructor
    · rintro ⟨fuel, l, hrun⟩
      obtain ⟨⟨ds, s⟩, hwalk, he⟩ := Option.map_eq_some_iff.mp hrun
      obtain ⟨rfl, -⟩ := Prod.mk.inj he
      exact ⟨fuel, s, hwalk⟩
    · rintro ⟨fuel, s, hwalk⟩
      exact ⟨fuel, s.1, by rw [inspectDirClusters, hwalk]; rfl⟩
  · obtain ⟨⟨ds, s⟩, hwalk, he⟩ := Option.map_eq_some_iff.mp hrun
    obtain ⟨rfl, rfl⟩ := Prod.mk.inj he
    rw [walkFirst_state hwalk, indexes_foldl_inspect, List.nil_append]

end Loops

/-- The three loops walk a chain, whatever end mark it has, exactly when the mark is
`FAT32_TERMINAL_CLUSTER_NO`. -/
theorem chainWalks_exact_iff (h : EndsIn vol fat (c :: cs) mark) {r : DirRecord}
    (hlive : r.isTerminal = false) (hstart : r.startCluster = c) (disk : UInt32 → Sector) :
    (WalksChain vol (c :: cs) (inspectDirClusters vol fat disk c) ↔
      mark = fat32TerminalClusterNo) ∧
    (WalksChain vol (c :: cs) (inspectDirRec vol fat r) ↔ mark = fat32TerminalClusterNo) ∧
    (WalksChain vol (c :: cs) (dumpDirRecClusters vol fat r) ↔ mark = fat32TerminalClusterNo) :=
  ⟨inspectDir_walksChain_iff h, inspectDirRec_walksChain_iff h hstart,
    dumpDirRec_walksChain_iff h hlive hstart⟩

/-- A record of a file that starts at cluster 3. -/
def recordAtThree : DirRecord := newRecord (blankSector.record 0) (fun _ => 65) 3

/-- One cluster, and any end mark. -/
theorem endsIn_three (hmark : IsEndMark mark) (hlow : mark.toNat < 2 ^ 28) :
    EndsIn smallVolume (fun _ => mark) [3] mark where
  linked := List.isChain_pair.mpr (clusterNo_of_lt hlow)
  above := List.forall_mem_singleton.mpr (by decide)
  inTable := List.forall_mem_singleton.mpr (by decide)
  noMark := List.forall_mem_singleton.mpr fun h => absurd h.1 (by decide)
  mark := hmark

/-- A table in which clusters 3, 4 and 5 are a chain. -/
def threeClusters : UInt32 → UInt32 := fun k =>
  if k = 3 then 4 else if k = 4 then 5 else fat32TerminalClusterNo

theorem threeClusters_endsIn :
    EndsIn smallVolume threeClusters [3, 4, 5] fat32TerminalClusterNo where
  linked := by decide
  above := List.all_iff_forall_prop.mp (by decide)
  inTable := List.all_iff_forall_prop.mp (by decide)
  noMark := by
    unfold IsEndMark
    exact List.all_iff_forall_prop.mp (by decide)
  mark := ⟨by decide, by decide⟩

theorem chainWalks_exact_three :
    WalksChain smallVolume [3, 4, 5]
        (inspectDirClusters smallVolume threeClusters (fun _ => blankSector) 3) ∧
      WalksChain smallVolume [3, 4, 5] (inspectDirRec smallVolume threeClusters recordAtThree) ∧
      WalksChain smallVolume [3, 4, 5]
        (dumpDirRecClusters smallVolume threeClusters recordAtThree) := by
  have h := chainWalks_exact_iff threeClusters_endsIn (r := recordAtThree) rfl rfl
    fun _ => blankSector
  exact ⟨h.1.mpr rfl, h.2.1.mpr rfl, h.2.2.mpr rfl⟩

/-- At the mark `0x0FFFFFF8` none of the loops stops: it is printed, and taken for an index. -/
theorem otherMark_notWalked :
    EndsIn smallVolume (fun _ => 0x0ffffff8) [3] 0x0ffffff8 ∧
      (dumpDirRecClusters smallVolume (fun _ => 0x0ffffff8) recordAtThree ⟨fun _ => 0, []⟩
          3).map (fun p => (p.1, p.2.indexes)) =
        some ([3, 0x0ffffff8], [3, 0x0ffffff8]) ∧
      ¬ WalksChain smallVolume [3]
        (inspectDirClusters smallVolume (fun _ => 0x0ffffff8) (fun _ => blankSector) 3) ∧
      ¬ WalksChain smallVolume [3]
        (inspectDirRec smallVolume (fun _ => 0x0ffffff8) recordAtThree) ∧
      ¬ WalksChain smallVolume [3]
        (dumpDirRecClusters smallVolume (fun _ => 0x0ffffff8) recordAtThree) := by
  have hends : EndsIn smallVolume (fun _ => 0x0ffffff8) [3] 0x0ffffff8 :=
    endsIn_three ⟨by decide, by decide⟩ (by decide)
  have hother : (0x0ffffff8 : UInt32) ≠ fat32TerminalClusterNo := by decide
  exact ⟨hends, by decide, fun h => hother ((inspectDir_walksChain_iff hends).mp h),
    fun h => hother ((inspectDirRec_walksChain_iff hends rfl).mp h),
    fun h => hother ((dumpDirRec_walksChain_iff hends rfl rfl).mp h)⟩

end NaiveGfs
