import NaiveGfs.Fat32.Coherence
import NaiveGfs.Fat32.RootChain

/-!
# Power cuts during the creation of a file

A cut leaves a prefix of the single-sector writes that `fat32_alloc_local_file` issues. The
call allocates first, and at every cut through that part the directory is untouched and
the entries in use are what they were. By the time the record is written the chain it
names is complete, and the directory writes reach neither the FAT nor the chain.
-/

namespace NaiveGfs

open BlockStore BlockStore.Store LinkTable

variable {vol : Volume} {s s' : Fs Card} {ch : List UInt32}

/-- Every entry that was in use is as it was on a disk. -/
def KeepsUsed (vol : Volume) (fat : UInt32 → UInt32) (disk : UInt32 → Sector) : Prop :=
  ∀ k, k < vol.fatEnd → fat k ≠ 0 → onDiskFat vol disk k = fat k

/-- The disk gives from `c` on a chain of exactly `len` clusters that ends in `0x0FFFFFFF`,
with the first sector of each of them zeroed. -/
def CompleteChain (vol : Volume) (disk : UInt32 → Sector) (c : UInt32) (len : ℕ) : Prop :=
  ∃ chain : List UInt32, chain.head? = some c ∧ chain.length = len ∧ chain.Nodup ∧
    Follows (onDiskFat vol disk) (fun x => onDiskFat vol disk x = fat32TerminalClusterNo) chain ∧
    ∀ x ∈ chain, vol.InRange x ∧ disk (clusterNoToLba vol x) = blankSector

/-- The directory writes of `storeRecord`, in order. -/
def recordWrites (vol : Volume) (c : UInt32) (j : ℕ) (i : Fin 16) (records : Sector) :
    List (UInt32 × Sector) :=
  (sectorLba vol c j, recordSector i records) ::
    if i.val = 15 ∧ j + 1 ≠ vol.id.sectorsPerCluster.toNat then
      [(sectorLba vol c (j + 1), records.clearRecord 0)]
    else []

theorem storeRecord_issues (c : UInt32) (j : ℕ) (i : Fin 16) (records : Sector) (s : Fs Card) :
    Issues s.dev (storeRecord sdDriver vol c j i records s).dev
      (recordWrites vol c j i records) := by
  rw [storeRecord_eq, recordWrites]
  simp only
  split
  · exact (Issues.write s.dev _ _).trans (Issues.write _ _ _)
  · exact Issues.write s.dev _ _

/-- All directory writes stay in the cluster of the record. -/
theorem recordWrites_mem {c : UInt32} {j : ℕ} (hj : j < vol.id.sectorsPerCluster.toNat)
    {i : Fin 16} {records : Sector} {w : UInt32 × Sector}
    (hw : w ∈ recordWrites vol c j i records) :
    ∃ j' < vol.id.sectorsPerCluster.toNat, w.1 = sectorLba vol c j' := by
  rw [recordWrites] at hw
  split at hw
  · rename_i hcond
    rcases List.mem_pair.mp hw with rfl | rfl
    · exact ⟨j, hj, rfl⟩
    · exact ⟨j + 1, by omega, rfl⟩
  · rw [List.mem_singleton] at hw
    subst hw
    exact ⟨j, hj, rfl⟩

/-- The directory writes reach neither the FAT nor the clusters that are allocated. -/
theorem recordWrites_apart (hvol : vol.Sound) {fat : UInt32 → UInt32}
    (hroot : RootChain vol fat ch) {cs : List UInt32} (hlay : DirLayout vol cs ch) {c : UInt32}
    (hc : c ∈ ch) {j : ℕ} (hj : j < vol.id.sectorsPerCluster.toNat) {i : Fin 16}
    {records : Sector} {w : UInt32 × Sector} (hw : w ∈ recordWrites vol c j i records) :
    (∀ k, k < vol.fatEnd → w.1 ≠ fatSectorLba vol k) ∧ ∀ x ∈ cs, w.1 ≠ clusterNoToLba vol x := by
  obtain ⟨j', hj', he⟩ := recordWrites_mem hj hw
  rw [he]
  refine ⟨fun k hk => hvol.sectorLba_ne_fat (hroot.inRange c hc) hj' hk, fun x hx heq => ?_⟩
  exact hlay.notAlloc c hc j' hj' ⟨x, hx, Or.inr heq⟩

/-- At a cut after the first directory write the record is on the disk. -/
theorem replay_recordWrites {c : UInt32} {j : ℕ} {i : Fin 16} {records : Sector}
    {q : List (UInt32 × Sector)} (hq : q <+: recordWrites vol c j i records) (hne : q ≠ [])
    (disk : UInt32 → Sector) :
    (replay q disk (sectorLba vol c j)).record i = records.record i := by
  obtain ⟨w, q, rfl⟩ := List.exists_cons_of_ne_nil hne
  rw [recordWrites, List.cons_prefix_cons] at hq
  obtain ⟨rfl, hq⟩ := hq
  have hrest : ∀ w ∈ q, w.1 ≠ sectorLba vol c j := by
    intro w hw
    have hin := hq.subset hw
    split at hin
    · rw [List.mem_singleton] at hin
      subst hin
      rw [sectorLba_succ]
      exact add_one_ne_self _
    · simp at hin
  show (replay q (Function.update disk (sectorLba vol c j) _) _).record i = _
  rw [replay_of_notMem hrest, Function.update_self, recordSector_record_self]

/-- Writes behind the FAT do not change a word of it. -/
theorem onDiskFat_replay (disk : UInt32 → Sector) {q : List (UInt32 × Sector)} {k : UInt32}
    (hq : ∀ w ∈ q, w.1 ≠ fatSectorLba vol k) :
    onDiskFat vol (replay q disk) k = onDiskFat vol disk k := by
  rw [onDiskFat, onDiskFat, replay_of_notMem hq]

theorem KeepsUsed.replay {fat : UInt32 → UInt32} {disk : UInt32 → Sector}
    (h : KeepsUsed vol fat disk) {q : List (UInt32 × Sector)}
    (hq : ∀ w ∈ q, ∀ k, k < vol.fatEnd → w.1 ≠ fatSectorLba vol k) :
    KeepsUsed vol fat (replay q disk) := by
  intro k hk hused
  rw [onDiskFat_replay disk (fun w hw => hq w hw k hk)]
  exact h k hk hused

/-- The allocation leaves its chain complete on the disk. -/
theorem completeChain_of_alloc (hvol : vol.Sound) (hco : Coherent vol s) {n : ℕ} {c : UInt32}
    (hn : n ≤ (freeClusters vol s.fat).length)
    (hhead : (fileClusters vol s.fat n).head? = some c)
    (hfat : s'.fat = writeChain fat32TerminalClusterNo (fileClusters vol s.fat n) s.fat)
    (hwrites : FatWrites sdDriver vol (fileClusters vol s.fat n) s s')
    (hzero : ∀ x ∈ fileClusters vol s.fat n,
      ZeroedOnTheWay sdDriver vol (fileClusters vol s.fat n) x s s')
    {q : List (UInt32 × Sector)}
    (hqfat : ∀ w ∈ q, ∀ k, k < vol.fatEnd → w.1 ≠ fatSectorLba vol k)
    (hqdata : ∀ w ∈ q, ∀ x ∈ fileClusters vol s.fat n, w.1 ≠ clusterNoToLba vol x) :
    CompleteChain vol (replay q s'.disk) c n := by
  have hrange : ∀ x ∈ fileClusters vol s.fat n, vol.InRange x :=
    fun x hx => (mem_fileClusters hx).1
  have hne : fileClusters vol s.fat n ≠ [] := by
    intro he
    rw [he] at hhead
    simp at hhead
  have hdisk : ∀ x ∈ fileClusters vol s.fat n,
      onDiskFat vol (replay q s'.disk) x = s'.fat x := by
    intro x hx
    rw [onDiskFat_replay _ (fun w hw => hqfat w hw x (hrange x hx).2)]
    exact hwrites.coherent hvol hrange hco x (hrange x hx).2
  have hfollows := writeChain_follows fat32TerminalClusterNo hne
    (fileClusters_nodup vol s.fat n) s.fat
  rw [← hfat] at hfollows
  refine ⟨fileClusters vol s.fat n, hhead, ?_, fileClusters_nodup vol s.fat n, ?_, ?_⟩
  · rw [fileClusters, List.length_take]
    omega
  · refine hfollows.congr hdisk (fun x hx hend => ?_)
    rw [hdisk x hx]
    exact hend
  · intro x hx
    refine ⟨hrange x hx, ?_⟩
    rw [replay_of_notMem (fun w hw => hqdata w hw x hx)]
    exact (hzero x hx).blank hvol hrange (hrange x hx)

/-- At every cut through `fat32_alloc_local_file` the entries that were in use are as they
were on the disk, and if the sector with the new record has been written then the record is
there and the chain from its start cluster is complete. -/
theorem allocLocalFile_powerCut (hvol : vol.Sound) (hco : Coherent vol s)
    (hroot : RootChain vol s.fat ch) {sl : Slot}
    (hhit : firstHit vol insertVisit s.disk (dirSlots vol ch) = some (sl, ())) {n : UInt32}
    (hn : 1 ≤ n) (hfree : n.toNat ≤ (freeClusters vol s.fat).length) (name : Fin 11 → UInt8)
    (stack : Sector) {fuel : ℕ} (hfuel : ch.length ≤ fuel) :
    ∃ c s' ws, fat32AllocLocalFile sdDriver vol n name stack fuel s = some (c, s') ∧
      Issues s.dev s'.dev ws ∧
      ∀ p, p <+: ws →
        KeepsUsed vol s.fat (replay p s.disk) ∧
        ((∃ w ∈ p, w.1 = slotLba vol sl) →
          slotRecord vol (replay p s.disk) sl = newRecord (slotRecord vol s.disk sl) name c ∧
          CompleteChain vol (replay p s.disk)
            (slotRecord vol (replay p s.disk) sl).startCluster n.toNat) := by
  have htaken : clustersTaken n = n.toNat := clustersTaken_of_le hvol.fatEnd_le hn hfree
  obtain ⟨c, s₁, hhead, hfat, hwrites, hzero, hcall⟩ :=
    fat32AllocLocalFile_run hvol.fatEnd_le hroot.toDirChain hhit (by rw [htaken]; exact hfree)
      name stack hfuel
  rw [htaken] at hhead hfat hwrites hzero
  obtain ⟨hcl, hj⟩ := mem_dirSlots.mp (firstHit_some hhit).1
  have hcs : ∀ x ∈ fileClusters vol s.fat n.toNat, vol.InRange x ∧ s.fat x = 0 :=
    fun x hx => mem_fileClusters hx
  have hlay := hroot.layout hvol hcs
  obtain ⟨ws₁, hissued, hcut⟩ := hwrites.through_used hvol hcs hco
  obtain ⟨vs, hvs, hin⟩ := hwrites.touches
  obtain rfl := hvs.unique hissued
  set records := (s.disk (slotLba vol sl)).setRecord sl.idx
    (newRecord (slotRecord vol s.disk sl) name c) with hrecords
  refine ⟨c, _, vs ++ recordWrites vol sl.cluster sl.sectorNo sl.idx records, hcall,
    hissued.trans (storeRecord_issues _ _ _ _ _), fun p hp => ?_⟩
  rcases prefix_append_cases hp with hp | ⟨q, rfl, hq⟩
  · -- a cut through the allocation: the directory has not been written
    refine ⟨hcut p hp, ?_⟩
    rintro ⟨w, hw, he⟩
    have hsector := hin w (hp.subset hw)
    rw [he] at hsector
    exact absurd hsector (hlay.notAlloc _ hcl _ hj)
  · -- a cut through the directory writes: the allocation is complete
    have hapart : ∀ w ∈ q, _ := fun w hw =>
      recordWrites_apart hvol hroot hlay hcl hj (hq.subset hw)
    have hqfat := fun w hw => (hapart w hw).1
    have hqdata := fun w hw => (hapart w hw).2
    have hdisk : replay (vs ++ q) s.disk = replay q s₁.disk := by
      rw [replay_append]
      exact congrArg (replay q) hissued.current_eq.symm
    rw [hdisk]
    have hkeep : KeepsUsed vol s.fat s₁.disk := by
      have := hcut vs (List.prefix_refl vs)
      rw [← hissued.current_eq] at this
      exact this
    refine ⟨hkeep.replay hqfat, ?_⟩
    rintro ⟨w, hw, he⟩
    have hne : q ≠ [] := by
      rintro rfl
      rw [List.append_nil] at hw
      have hsector := hin w hw
      rw [he] at hsector
      exact hlay.notAlloc _ hcl _ hj hsector
    have hrecord : slotRecord vol (replay q s₁.disk) sl =
        newRecord (slotRecord vol s.disk sl) name c := by
      rw [slotRecord, slotLba, replay_recordWrites hq hne, hrecords,
        Sector.record_setRecord_self]
    rw [hrecord, newRecord_startCluster]
    exact ⟨rfl, completeChain_of_alloc hvol hco hfree hhead hfat hwrites hzero hqfat hqdata⟩

theorem allocLocalFile_powerCut_fresh :
    ∃ c s' ws, fat32AllocLocalFile sdDriver smallVolume 2 (fun _ => 65) blankSector 1 freshFs =
        some (c, s') ∧
      Issues freshFs.dev s'.dev ws ∧
      ∀ p, p <+: ws →
        KeepsUsed smallVolume freshFs.fat (replay p freshFs.disk) ∧
        ((∃ w ∈ p, w.1 = slotLba smallVolume ⟨2, 0, 0⟩) →
          slotRecord smallVolume (replay p freshFs.disk) ⟨2, 0, 0⟩ =
            newRecord (slotRecord smallVolume freshFs.disk ⟨2, 0, 0⟩) (fun _ => 65) c ∧
          CompleteChain smallVolume (replay p freshFs.disk)
            (slotRecord smallVolume (replay p freshFs.disk) ⟨2, 0, 0⟩).startCluster 2) :=
  allocLocalFile_powerCut smallVolume_sound freshFs_coherent freshFs_rootChain freshFs_firstHit
    (n := 2) (by decide) (freshFs_free 2 (by decide)) _ _ (le_refl 1)

end NaiveGfs
