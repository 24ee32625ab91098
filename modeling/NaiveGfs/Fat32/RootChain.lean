import Mathlib.Data.Bool.AllAny
import NaiveGfs.Fat32.FileChain
import NaiveGfs.Fat32.SlotOrder

/-!
# A well-formed root directory

On a root directory whose chain is well formed the two scans are searches through the
record slots of that chain. A call that creates a file reads the directory, allocates
clusters that were free, so none of the directory's, and writes one or two sectors of the
cluster in which it found the terminal: `sectorAfter` says what they become.
-/

namespace NaiveGfs

open BlockStore BlockStore.Store LinkTable

variable {vol : Volume} {s s' : Fs Card} {ch : List UInt32}

/-- The clusters `ch` at the head of the root directory: linked, in range and distinct. -/
structure DirChain (vol : Volume) (fat : UInt32 → UInt32) (ch : List UInt32) : Prop where
  head : ch.head? = some vol.data.rootDirFirstCluster
  linked : Linked fat ch
  inRange : ∀ c ∈ ch, vol.InRange c
  nodup : ch.Nodup

/-- The clusters of a directory whose entries are in use. -/
structure RootChain (vol : Volume) (fat : UInt32 → UInt32) (ch : List UInt32) : Prop
    extends DirChain vol fat ch where
  used : ∀ c ∈ ch, fat c ≠ 0

/-- The sectors of the clusters `ch` are pairwise distinct, and writing the FAT sectors and
the first sectors of the clusters `cs` reaches none of them. -/
structure DirLayout (vol : Volume) (cs ch : List UInt32) : Prop where
  inj : ∀ c ∈ ch, ∀ d ∈ ch, ∀ i j, i < vol.id.sectorsPerCluster.toNat →
    j < vol.id.sectorsPerCluster.toNat → sectorLba vol c i = sectorLba vol d j → c = d ∧ i = j
  apart : ∀ c ∈ ch, c ∉ cs
  notAlloc : ∀ c ∈ ch, ∀ j, j < vol.id.sectorsPerCluster.toNat →
    ¬ AllocSector vol cs (sectorLba vol c j)

/-- The chain depends on the entries of its clusters only. -/
theorem DirChain.congr {fat fat' : UInt32 → UInt32} (h : DirChain vol fat ch)
    (hfat : ∀ c ∈ ch, fat' c = fat c) : DirChain vol fat' ch where
  head := h.head
  linked := by
    refine h.linked.imp_of_mem_imp ?_
    intro a b ha _ hab
    rw [fat32NextCluster, hfat a ha]
    exact hab
  inRange := h.inRange
  nodup := h.nodup

theorem RootChain.congr {fat fat' : UInt32 → UInt32} (h : RootChain vol fat ch)
    (hfat : ∀ c ∈ ch, fat' c = fat c) : RootChain vol fat' ch where
  toDirChain := h.toDirChain.congr hfat
  used c hc := by
    rw [hfat c hc]
    exact h.used c hc

theorem DirLayout.mono {cs ds : List UInt32} (hsub : ∀ c ∈ cs, c ∈ ds)
    (h : DirLayout vol ds ch) : DirLayout vol cs ch where
  inj := h.inj
  apart c hc hin := h.apart c hc (hsub c hin)
  notAlloc c hc j hj halloc := by
    obtain ⟨x, hx, he⟩ := halloc
    exact h.notAlloc c hc j hj ⟨x, hsub x hx, he⟩

/-- On a sound volume the directory lies apart from the FAT and from the free clusters. -/
theorem RootChain.layout (hvol : vol.Sound) {fat : UInt32 → UInt32} (h : RootChain vol fat ch)
    {cs : List UInt32} (hcs : ∀ c ∈ cs, vol.InRange c ∧ fat c = 0) : DirLayout vol cs ch where
  inj c hc d hd _ _ hi hj he :=
    hvol.sectorLba_inj (hvol.fits (h.inRange c hc)) (hvol.fits (h.inRange d hd)) hi hj he
  apart c hc hin := h.used c hc (hcs c hin).2
  notAlloc c hc _ hj := not_allocSector hvol.toCountsFromTwo (hvol.fits (h.inRange c hc)) hj
    (fun x hx => hvol.fits (hcs x hx).1)
    (fun x hx => hvol.sectorLba_ne_fat (h.inRange c hc) hj (hcs x hx).1.2)
    (fun hin => h.used c hc (hcs c hin).2)

theorem Volume.InRange.ne_allOnes (hend : vol.fatEnd.toNat ≤ 2 ^ 28) {c : UInt32}
    (hc : vol.InRange c) : c ≠ 0xffffffff := by
  rintro rfl
  have hlt := lt_of_lt_of_le hc.lt hend
  exact absurd hlt (by decide)

/-! ## Scans -/

section Scan

variable {α : Type} {visit : DirRecord → Option α}

/-- A scan from the first cluster of the directory stops at its first hit. -/
theorem DirChain.scan (hend : vol.fatEnd.toNat ≤ 2 ^ 28) {fat : UInt32 → UInt32}
    (h : DirChain vol fat ch) (dev : Card) {sl : Slot} {a : α}
    (hhit : firstHit vol visit dev.current (dirSlots vol ch) = some (sl, a)) {fuel : ℕ}
    (hfuel : ch.length ≤ fuel) (prev : UInt32) (buf : Sector) :
    walkClusters sdDriver vol fat visit fuel vol.data.rootDirFirstCluster prev dev buf =
      some (.hit sl.cluster sl.sectorNo sl.idx a dev (dev.current (slotLba vol sl))) :=
  walkClusters_of_firstHit h.head h.linked (fun c hc => (h.inRange c hc).ne_allOnes hend) hhit
    hfuel prev buf

end Scan

/-- A lookup returns what its first hit says and changes nothing. -/
theorem fat32GetClusterNo_of_firstHit (hend : vol.fatEnd.toNat ≤ 2 ^ 28)
    (htwo : vol.data.rootDirFirstCluster = 2) (h : DirChain vol s.fat ch)
    {filename : Fin 11 → UInt8} {sl : Slot} {a : UInt32}
    (hhit : firstHit vol (lookupVisit filename) s.disk (dirSlots vol ch) = some (sl, a))
    {fuel : ℕ} (hfuel : ch.length ≤ fuel) (stack : Sector) :
    fat32GetClusterNo sdDriver vol filename stack fuel s = some (a, s) := by
  have hscan := h.scan hend s.dev hhit hfuel vol.data.rootDirFirstCluster stack
  rw [htwo] at hscan
  rw [fat32GetClusterNo, fat32RootClusterNo, hscan]

/-! ## Creating a file -/

/-- A call that creates a file at the terminal in slot `sl`: it allocates the first free
clusters and then stores the record; `s₁` is the state between the two. -/
theorem fat32AllocLocalFile_run (hend : vol.fatEnd.toNat ≤ 2 ^ 28) (h : DirChain vol s.fat ch)
    {sl : Slot} (hhit : firstHit vol insertVisit s.disk (dirSlots vol ch) = some (sl, ()))
    {n : UInt32} (hfree : clustersTaken n ≤ (freeClusters vol s.fat).length)
    (name : Fin 11 → UInt8) (stack : Sector) {fuel : ℕ} (hfuel : ch.length ≤ fuel) :
    ∃ c s₁, (fileClusters vol s.fat (clustersTaken n)).head? = some c ∧
      s₁.fat = writeChain fat32TerminalClusterNo (fileClusters vol s.fat (clustersTaken n))
        s.fat ∧
      FatWrites sdDriver vol (fileClusters vol s.fat (clustersTaken n)) s s₁ ∧
      (∀ x ∈ fileClusters vol s.fat (clustersTaken n), ZeroedOnTheWay sdDriver vol
        (fileClusters vol s.fat (clustersTaken n)) x s s₁) ∧
      fat32AllocLocalFile sdDriver vol n name stack fuel s = some (c,
        storeRecord sdDriver vol sl.cluster sl.sectorNo sl.idx
          ((s.disk (slotLba vol sl)).setRecord sl.idx
            (newRecord (slotRecord vol s.disk sl) name c)) s₁) := by
  have hscan := h.scan hend s.dev hhit hfuel vol.data.rootDirFirstCluster stack
  obtain ⟨c, s₁, hhead, hfat, hwrites, hzero, hinsert⟩ := insertAt_run sdDriver
    hend hfree name sl.cluster sl.sectorNo sl.idx (s.dev.current (slotLba vol sl))
  refine ⟨c, s₁, hhead, hfat, hwrites, hzero, ?_⟩
  rw [fat32AllocLocalFile_of_hit hscan, hinsert]
  rfl

/-- A sector of the directory after `new` has been stored in slot `sl`. -/
def sectorAfter (vol : Volume) (disk : UInt32 → Sector) (sl : Slot) (new : DirRecord)
    (c : UInt32) (j : ℕ) : Sector :=
  let records := (disk (slotLba vol sl)).setRecord sl.idx new
  if c = sl.cluster ∧ j = sl.sectorNo then recordSector sl.idx records
  else if sl.idx.val = 15 ∧ c = sl.cluster ∧ j = sl.sectorNo + 1 then records.clearRecord 0
  else disk (sectorLba vol c j)

/-- What a call that creates a file returns and leaves behind: a cluster that was free, the
directory's old entries of the FAT, and its sectors as `sectorAfter` has them. -/
theorem fat32AllocLocalFile_directory (hend : vol.fatEnd.toNat ≤ 2 ^ 28)
    (h : DirChain vol s.fat ch) {n : UInt32}
    (hlay : DirLayout vol (fileClusters vol s.fat (clustersTaken n)) ch) {sl : Slot}
    (hhit : firstHit vol insertVisit s.disk (dirSlots vol ch) = some (sl, ()))
    (hfree : clustersTaken n ≤ (freeClusters vol s.fat).length) (name : Fin 11 → UInt8)
    (stack : Sector) {fuel : ℕ} (hfuel : ch.length ≤ fuel) :
    ∃ c s', fat32AllocLocalFile sdDriver vol n name stack fuel s = some (c, s') ∧
      vol.InRange c ∧ (∀ d ∈ ch, s'.fat d = s.fat d) ∧
      ∀ d ∈ ch, ∀ j, j < vol.id.sectorsPerCluster.toNat → s'.disk (sectorLba vol d j) =
        sectorAfter vol s.disk sl (newRecord (slotRecord vol s.disk sl) name c) d j := by
  obtain ⟨c, s₁, hhead, hfat, hwrites, -, hcall⟩ :=
    fat32AllocLocalFile_run hend h hhit hfree name stack hfuel
  obtain ⟨hcl, hj⟩ := mem_dirSlots.mp (firstHit_some hhit).1
  refine ⟨c, _, hcall, (mem_fileClusters (List.mem_of_head? hhead)).1, fun d hd => ?_, ?_⟩
  · rw [fat_storeRecord]
    exact hwrites.fat_of_notMem (hlay.apart d hd)
  · intro d hd j hjd
    rw [sectorAfter]
    by_cases hself : d = sl.cluster ∧ j = sl.sectorNo
    · rw [if_pos hself, hself.1, hself.2]
      exact storeRecord_disk_self _ _ _ _ _
    by_cases hnext : sl.idx.val = 15 ∧ d = sl.cluster ∧ j = sl.sectorNo + 1
    · rw [if_neg hself, if_pos hnext, hnext.2.1, hnext.2.2]
      exact storeRecord_disk_next _ (by omega) hnext.1 _ _
    · rw [if_neg hself, if_neg hnext, storeRecord_disk_of_ne]
      · exact hwrites.disk_eq (hlay.notAlloc d hd j hjd)
      · intro he
        exact hself (hlay.inj d hd _ hcl j _ hjd hj he)
      · intro hi hne he
        obtain ⟨hc, hjj⟩ := hlay.inj d hd _ hcl j _ hjd (by omega) he
        exact hnext ⟨hi, hc, hjj⟩

section Records

variable {disk disk' : UInt32 → Sector} {sl : Slot} {new : DirRecord} {ch₁ ch₂ : List UInt32}

/-- Records of the sectors that are not written stay as they are. -/
theorem slotRecord_of_ne (hdisk : ∀ d ∈ ch, ∀ j, j < vol.id.sectorsPerCluster.toNat →
      disk' (sectorLba vol d j) = sectorAfter vol disk sl new d j) {x : Slot}
    (hx : x ∈ dirSlots vol ch) (hself : ¬ (x.cluster = sl.cluster ∧ x.sectorNo = sl.sectorNo))
    (hnext : ¬ (sl.idx.val = 15 ∧ x.cluster = sl.cluster ∧ x.sectorNo = sl.sectorNo + 1)) :
    slotRecord vol disk' x = slotRecord vol disk x := by
  obtain ⟨hc, hjx⟩ := mem_dirSlots.mp hx
  rw [slotRecord, slotLba, hdisk _ hc _ hjx, sectorAfter, if_neg hself, if_neg hnext]
  rfl

/-- The records of the sector that is written, and those of the copy made of it. -/
theorem slotRecord_sector (hdisk : disk' (slotLba vol sl) =
      sectorAfter vol disk sl new sl.cluster sl.sectorNo) (i : Fin 16) :
    slotRecord vol disk' { sl with idx := i } =
      (recordSector sl.idx ((disk (slotLba vol sl)).setRecord sl.idx new)).record i := by
  show (disk' (slotLba vol sl)).record i = _
  rw [hdisk, sectorAfter, if_pos ⟨rfl, rfl⟩]

theorem slotRecord_self (hdisk : disk' (slotLba vol sl) =
      sectorAfter vol disk sl new sl.cluster sl.sectorNo) : slotRecord vol disk' sl = new := by
  have h := slotRecord_sector hdisk sl.idx
  rw [recordSector_record_self, Sector.record_setRecord_self] at h
  exact h

/-- The records in front of the new one stay as they are. -/
theorem slotRecord_before (hnodup : (ch₁ ++ sl.cluster :: ch₂).Nodup)
    (hj : sl.sectorNo < vol.id.sectorsPerCluster.toNat)
    (hdisk : ∀ d ∈ ch₁ ++ sl.cluster :: ch₂, ∀ j, j < vol.id.sectorsPerCluster.toNat →
      disk' (sectorLba vol d j) = sectorAfter vol disk sl new d j) {x : Slot}
    (hx : x ∈ slotsBefore vol ch₁ sl) : slotRecord vol disk' x = slotRecord vol disk x := by
  have hin : x ∈ dirSlots vol (ch₁ ++ sl.cluster :: ch₂) := by
    rw [dirSlots_split hj]
    exact List.mem_append_left _ hx
  rcases mem_slotsBefore hx with hx | ⟨hcl, hlt | ⟨heq, hlt⟩⟩
  · -- an earlier cluster
    have hne : x.cluster ≠ sl.cluster := by
      intro he
      rw [List.nodup_append] at hnodup
      exact hnodup.2.2 _ hx _ (by simp) he
    exact slotRecord_of_ne hdisk hin (fun h => hne h.1) (fun h => hne h.2.1)
  · -- an earlier sector
    exact slotRecord_of_ne hdisk hin (by omega) (by omega)
  · -- an earlier record of the sector
    have hx : x = { sl with idx := x.idx } := Slot.ext hcl heq rfl
    rw [hx, slotRecord_sector (hdisk _ (by simp) _ hj), recordSector_record_of_lt hlt,
      Sector.record_setRecord_of_ne _ (ne_of_lt hlt)]
    rfl

end Records

theorem freshFs_rootChain : RootChain smallVolume freshFs.fat [2] where
  head := rfl
  linked := List.isChain_singleton 2
  inRange := List.all_iff_forall_prop.mp (by decide)
  nodup := by decide
  used := List.all_iff_forall_prop.mp (by decide)

theorem freshFs_firstHit :
    firstHit smallVolume insertVisit freshFs.disk (dirSlots smallVolume [2]) =
      some (⟨2, 0, 0⟩, ()) := rfl

theorem freshFs_free (n : ℕ) (hn : n ≤ 3) :
    n ≤ (freeClusters smallVolume freshFs.fat).length := by
  have hsub : [3, 4, 5].Subperm (freeClusters smallVolume freshFs.fat) := by
    refine List.subperm_of_subset (by decide) (fun c hc => mem_freeClusters.mpr ?_)
    revert c
    exact List.all_iff_forall_prop.mp (by decide)
  exact hn.trans hsub.length_le

end NaiveGfs
