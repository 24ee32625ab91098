import NaiveGfs.Fat32.Coherence

/-!
# Running out of space

When no entry is free `find_free_local_cluster` returns -1, and nobody looks: the number is
masked to `0x0FFFFFFF` and used as an index, as a link and as a cluster to be zeroed. So an
allocation that runs out of space writes on, at the entry and the cluster with that number
(`allocLocalFileAt_writes`), and a call of `fat32_alloc_local_file` that cannot be met does
not leave things as they were.
-/

namespace NaiveGfs

open BlockStore BlockStore.Store

variable {κ α : Type} {drv : Driver κ} {vol : Volume} {fat : UInt32 → UInt32}

/-! ## Allocation without space -/

/-- The search on a table without free entries. -/
theorem findFreeLocalCluster_full (htwo : 2 ≤ vol.fatEnd) (hfull : freeClusters vol fat = []) :
    findFreeLocalCluster vol fat = 0xffffffff := by
  rw [findFreeLocalCluster_eq_headD, freeEntries_eq htwo, hfull, List.headD_nil]

/-- The clusters that an allocation names when the free ones may not suffice. -/
def spareClusters (vol : Volume) (fat : UInt32 → UInt32) : List UInt32 :=
  fat32TerminalClusterNo :: freeClusters vol fat

theorem spareClusters_ne_zero {c : UInt32} (hc : c ∈ spareClusters vol fat) : c ≠ 0 := by
  rintro rfl
  cases List.mem_cons.mp hc with
  | inl hmark => exact absurd hmark (by decide)
  | inr hfree => exact absurd (mem_freeClusters.mp hfree).1.two_le (by decide)

/-- The number that the search returns is, masked, a free cluster or the end mark. -/
theorem clusterNo_findFree (hend : vol.fatEnd.toNat ≤ 2 ^ 28) (htwo : 2 ≤ vol.fatEnd) :
    clusterNo (findFreeLocalCluster vol fat) ∈ spareClusters vol fat := by
  cases hfree : freeClusters vol fat with
  | nil =>
    rw [findFreeLocalCluster_full htwo hfree, clusterNo_allOnes]
    exact List.mem_cons_self
  | cons c rest =>
    have hc : c ∈ freeClusters vol fat := by rw [hfree]; exact List.mem_cons_self
    have hlt := (mem_freeClusters.mp hc).1.lt
    rw [findFreeLocalCluster_eq hfree, clusterNo_of_lt (by omega)]
    exact List.mem_cons_of_mem _ hc

/-- Putting an entry to use frees no other. -/
theorem freeClusters_update_subset {c v : UInt32} (hv : v ≠ 0) :
    freeClusters vol (Function.update fat c v) ⊆ freeClusters vol fat := by
  intro x hx
  obtain ⟨hrange, hzero⟩ := mem_freeClusters.mp hx
  apply mem_freeClusters.mpr
  by_cases he : x = c
  · rw [he, Function.update_self] at hzero
    exact absurd hzero hv
  · rw [Function.update_of_ne he] at hzero
    exact ⟨hrange, hzero⟩

section Writes

variable {s : Fs κ} {cs : List UInt32}

/-- One allocation, whether or not there is a free entry. -/
theorem allocFreeLocalCluster_writes (drv : Driver κ) (hend : vol.fatEnd.toNat ≤ 2 ^ 28)
    (htwo : 2 ≤ vol.fatEnd) (hsub : spareClusters vol s.fat ⊆ cs) :
    let r := allocFreeLocalCluster drv vol s
    clusterNo r.1 ∈ spareClusters vol s.fat ∧ FatWrites drv vol cs s r.2 ∧
      spareClusters vol r.2.fat ⊆ cs := by
  intro r
  have hout : clusterNo r.1 ∈ spareClusters vol s.fat := clusterNo_findFree hend htwo
  have hset : FatWrite drv vol cs s (setEntry drv vol (clusterNo r.1) (clusterNo 0xffffffff) s) :=
    Or.inl ⟨_, hsub hout, _, rfl⟩
  refine ⟨hout, ?_, ?_⟩
  · exact (Relation.ReflTransGen.single hset).tail (Or.inr ⟨_, hsub hout, rfl⟩)
  · intro x hx
    cases List.mem_cons.mp hx with
    | inl hmark => exact hsub (List.mem_cons.mpr (Or.inl hmark))
    | inr hfree =>
      exact hsub (List.mem_cons_of_mem _ (freeClusters_update_subset (by decide) hfree))

/-- The loop of `alloc_local_file_at` names clusters that were free, and the end mark. -/
theorem extendFile_writes (hend : vol.fatEnd.toNat ≤ 2 ^ 28) (htwo : 2 ≤ vol.fatEnd) (k : ℕ)
    {prev : UInt32} (hprev : clusterNo prev ∈ cs) (hsub : spareClusters vol s.fat ⊆ cs) :
    FatWrites drv vol cs s (extendFile drv vol k prev s) := by
  induction k generalizing prev s with
  | zero => exact Relation.ReflTransGen.refl
  | succ k ih =>
    obtain ⟨hout, hwrites, hsub'⟩ := allocFreeLocalCluster_writes drv hend htwo hsub
    have hlt : (clusterNo prev).toNat < 2 ^ 28 := by
      rw [toNat_clusterNo]
      exact Nat.mod_lt _ (by decide)
    show FatWrites drv vol cs s (extendFile drv vol k (allocFreeLocalCluster drv vol s).1
      (fat32PointFat drv vol (clusterNo prev) (clusterNo (allocFreeLocalCluster drv vol s).1)
        (allocFreeLocalCluster drv vol s).2))
    rw [fat32PointFat_eq hlt]
    refine (hwrites.tail (Or.inl ⟨_, hprev, _, rfl⟩)).trans (ih (hsub hout) ?_)
    -- the link is not 0, so it frees nothing
    intro x hx
    cases List.mem_cons.mp hx with
    | inl hmark => exact hsub (List.mem_cons.mpr (Or.inl hmark))
    | inr hfree =>
      exact hsub' (List.mem_cons_of_mem _
        (freeClusters_update_subset (spareClusters_ne_zero hout) hfree))

/-- One call of `alloc_local_file_at`, whether or not there is enough space: it names only
clusters that were free, and the end mark. -/
theorem allocLocalFileAt_writes (drv : Driver κ) (hend : vol.fatEnd.toNat ≤ 2 ^ 28)
    (htwo : 2 ≤ vol.fatEnd) (dr : DirRecord) (num : ℤ) (name : Fin 11 → UInt8) (s : Fs κ) :
    ∃ c s', allocLocalFileAt drv vol dr num name s = (c, newRecord dr name c, s') ∧
      FatWrites drv vol (spareClusters vol s.fat) s s' := by
  obtain ⟨hout, hwrites, hsub⟩ := allocFreeLocalCluster_writes drv hend htwo
    (List.Subset.refl (spareClusters vol s.fat))
  exact ⟨_, _, rfl, hwrites.trans (extendFile_writes hend htwo _ hout hsub)⟩

/-- The clusters that the allocation of one file names: those of the file, if they are free. -/
def namedClusters (vol : Volume) (fat : UInt32 → UInt32) (n : UInt32) : List UInt32 :=
  if clustersTaken n ≤ (freeClusters vol fat).length then fileClusters vol fat (clustersTaken n)
  else spareClusters vol fat

/-- What an allocation names is free, or it is the end mark. -/
theorem mem_namedClusters {n x : UInt32}
    (hx : x ∈ namedClusters vol fat n) :
    vol.InRange x ∧ fat x = 0 ∨
      x = fat32TerminalClusterNo ∧ (freeClusters vol fat).length < clustersTaken n := by
  rw [namedClusters] at hx
  split at hx
  · exact Or.inl (mem_fileClusters hx)
  · rename_i hfew
    cases List.mem_cons.mp hx with
    | inl hmark => exact Or.inr ⟨hmark, by omega⟩
    | inr hfree => exact Or.inl (mem_freeClusters.mp hfree)

/-- An insertion, whether or not there is enough space. -/
theorem insertAt_named (drv : Driver κ) (hend : vol.fatEnd.toNat ≤ 2 ^ 28) (htwo : 2 ≤ vol.fatEnd)
    (n : UInt32) (name : Fin 11 → UInt8) (cur : UInt32) (j : ℕ) (i : Fin 16) (records : Sector)
    (s : Fs κ) :
    ∃ c s₁, FatWrites drv vol (namedClusters vol s.fat n) s s₁ ∧
      insertAt drv vol cur j i records n.toInt32.toInt name s = (c, storeRecord drv vol cur j i
        (records.setRecord i (newRecord (records.record i) name c)) s₁) := by
  rw [namedClusters]
  by_cases hfree : clustersTaken n ≤ (freeClusters vol s.fat).length
  · obtain ⟨c, s₁, -, -, hwrites, -, hinsert⟩ :=
      insertAt_run drv hend hfree name cur j i records
    rw [if_pos hfree]
    exact ⟨c, s₁, hwrites, hinsert⟩
  · obtain ⟨c, s₁, hcall, hwrites⟩ := allocLocalFileAt_writes drv hend htwo (records.record i)
      n.toInt32.toInt name s
    rw [if_neg hfree]
    refine ⟨c, s₁, hwrites, ?_⟩
    simp only [insertAt, hcall]

/-- The end mark is not the number of an entry. -/
theorem Volume.InRange.ne_mark (hend : vol.fatEnd.toNat < 2 ^ 28) {c : UInt32}
    (hc : vol.InRange c) : c ≠ fat32TerminalClusterNo := by
  rintro rfl
  have hlt : (2 ^ 28 - 1 : ℕ) < vol.fatEnd.toNat := hc.lt
  omega

/-- What is written to the entry with the number of the end mark frees nothing. -/
theorem freeClusters_update_mark (hend : vol.fatEnd.toNat < 2 ^ 28) (v : UInt32) :
    freeClusters vol (Function.update fat fat32TerminalClusterNo v) = freeClusters vol fat := by
  apply List.filter_congr
  intro x hx
  rw [Function.update_of_ne ((mem_candidates.mp hx).ne_mark hend)]

/-- On a full table the loop writes the end mark to the entry with that number. -/
theorem extendFile_full (hend : vol.fatEnd.toNat < 2 ^ 28) (htwo : 2 ≤ vol.fatEnd) (k : ℕ)
    (hfull : freeClusters vol s.fat = [])
    (hmark : s.fat fat32TerminalClusterNo = fat32TerminalClusterNo) :
    (extendFile drv vol k 0xffffffff s).fat fat32TerminalClusterNo = fat32TerminalClusterNo := by
  induction k generalizing s with
  | zero => exact hmark
  | succ k ih =>
    have hout : findFreeLocalCluster vol s.fat = 0xffffffff :=
      findFreeLocalCluster_full htwo hfull
    have hmask : fat32TerminalClusterNo.toNat < 2 ^ 28 := by decide
    simp only [extendFile, allocFreeLocalCluster, hout, clusterNo_allOnes,
      fat32PointFat_eq hmask]
    apply ih
    · show freeClusters vol (Function.update (Function.update s.fat _ _) _ _) = []
      rw [freeClusters_update_mark hend, freeClusters_update_mark hend]
      exact hfull
    · rw [setEntry_fat, Function.update_self]

/-- A file created on a full table is said to be at cluster -1, and its entry is written. -/
theorem insertAt_full (drv : Driver κ) (hend : vol.fatEnd.toNat < 2 ^ 28) (htwo : 2 ≤ vol.fatEnd)
    (hfull : freeClusters vol s.fat = []) (cur : UInt32) (j : ℕ) (i : Fin 16) (records : Sector)
    (num : ℤ) (name : Fin 11 → UInt8) :
    (insertAt drv vol cur j i records num name s).1 = 0xffffffff ∧
      (insertAt drv vol cur j i records num name s).2.fat fat32TerminalClusterNo =
        fat32TerminalClusterNo := by
  have hout : findFreeLocalCluster vol s.fat = 0xffffffff :=
    findFreeLocalCluster_full htwo hfull
  refine ⟨hout, ?_⟩
  simp only [insertAt, allocLocalFileAt, allocFreeLocalCluster, hout, clusterNo_allOnes,
    fat_storeRecord]
  apply extendFile_full hend htwo
  · show freeClusters vol (Function.update s.fat _ _) = []
    rw [freeClusters_update_mark hend]
    exact hfull
  · rw [zeroCluster_fat, setEntry_fat, Function.update_self]

/-- The record that an insertion leaves in its slot. -/
theorem slotRecord_insertAt (vol : Volume) (cur : UInt32) (j : ℕ) (i : Fin 16)
    (records : Sector) (num : ℤ) (name : Fin 11 → UInt8) (s : Fs Card) :
    slotRecord vol (insertAt sdDriver vol cur j i records num name s).2.disk ⟨cur, j, i⟩ =
      newRecord (records.record i) name
        (insertAt sdDriver vol cur j i records num name s).1 := by
  show ((storeRecord sdDriver vol cur j i _ _).disk (sectorLba vol cur j)).record i = _
  rw [storeRecord_disk_self, recordSector_record_self, Sector.record_setRecord_self]
  rfl

end Writes

/-! ## Walks that stop before the end mark -/

section Walk

variable {visit : DirRecord → Option α} {dev dev' : Card} {buf buf' : Sector}

/-- The walk stays in a cluster that is linked to itself and holds no hit. -/
theorem walkClusters_selfLink {x : UInt32} (hself : fat32NextCluster fat x = x)
    (hnone : firstHit vol visit dev.current (clusterSlots vol x) = none) {fuel : ℕ}
    {prev c : UInt32} {j : ℕ} {i : Fin 16} {a : α} :
    walkClusters sdDriver vol fat visit fuel x prev dev buf ≠ some (.hit c j i a dev' buf') := by
  intro h
  induction fuel generalizing prev buf with
  | zero =>
    obtain ⟨-, n, hn⟩ := walkClusters_hit_ne h
    exact absurd hn (by simp)
  | succ fuel ih =>
    obtain ⟨out, hrun⟩ := walkClusters_sd_succ vol fat visit fuel
      (walkClusters_hit_ne h).1 prev dev buf
    rw [hrun, hnone, hself] at h
    exact ih h

/-- A walk that hits has not followed the link of a cluster that is linked to itself. -/
theorem walkClusters_update_selfLink {x : UInt32} (hself : fat32NextCluster fat x = x)
    (v : UInt32) {fuel : ℕ} {cur prev c : UInt32} {j : ℕ} {i : Fin 16} {a : α}
    (h : walkClusters sdDriver vol fat visit fuel cur prev dev buf =
      some (.hit c j i a dev' buf')) :
    walkClusters sdDriver vol (Function.update fat x v) visit fuel cur prev dev buf =
      some (.hit c j i a dev' buf') := by
  induction fuel generalizing cur prev buf with
  | zero =>
    obtain ⟨-, n, hn⟩ := walkClusters_hit_ne h
    exact absurd hn (by simp)
  | succ fuel ih =>
    have hcur := (walkClusters_hit_ne h).1
    obtain ⟨out, hrun⟩ := walkClusters_sd_succ vol fat visit fuel hcur prev dev buf
    obtain ⟨out', hrun'⟩ := walkClusters_sd_succ vol (Function.update fat x v) visit fuel
      hcur prev dev buf
    rw [hrun] at h
    rw [hrun']
    cases hc : firstHit vol visit dev.current (clusterSlots vol cur) with
    | some p =>
      rw [hc] at h
      exact h
    | none =>
      rw [hc] at h
      simp only at h ⊢
      by_cases hx : cur = x
      · subst hx
        rw [hself] at h
        exact absurd h (walkClusters_selfLink hself hc)
      · have hnext : fat32NextCluster (Function.update fat x v) cur =
            fat32NextCluster fat cur := by
          rw [fat32NextCluster, Function.update_of_ne hx]
          rfl
        rw [hnext]
        exact ih (walkClusters_hit_of_hit h cur out')

/-- The walk ends without a hit only where it starts at -1. -/
theorem walkClusters_exhausted {drv : Driver κ} {visit : DirRecord → Option α} {fuel : ℕ}
    {cur prev c p : UInt32} {dev dev' : κ} {buf buf' : Sector}
    (h : walkClusters drv vol fat visit fuel cur prev dev buf =
      some (.exhausted c p dev' buf')) : cur = 0xffffffff := by
  induction fuel generalizing cur prev dev buf with
  | zero =>
    rw [walkClusters] at h
    split at h
    · assumption
    · simp at h
  | succ fuel ih =>
    rw [walkClusters] at h
    split at h
    · assumption
    · split at h
      · simp at h
      · exact absurd (ih h) (fat32NextCluster_ne_allOnes fat cur)

end Walk

/-! ## Calls that cannot be met -/

section Calls

variable {s : Fs Card} {n : UInt32} {name : Fin 11 → UInt8} {stack : Sector}

/-- Whatever the memory holds at entry `k`, a call leaves it there. -/
def LeavesEntry (vol : Volume) (n : UInt32) (name : Fin 11 → UInt8) (stack : Sector)
    (s : Fs Card) (k : UInt32) : Prop :=
  ∀ v fuel c s', fat32AllocLocalFile sdDriver vol n name stack fuel
    { s with fat := Function.update s.fat k v } = some (c, s') → s'.fat k = v

/-- The call `fat32_alloc_local_file(n, name)` reports failure and leaves the table and the
card as they were, and writes no entry behind the table. -/
structure Refused (vol : Volume) (n : UInt32) (name : Fin 11 → UInt8) (stack : Sector)
    (s : Fs Card) : Prop where
  returns : ∃ fuel s', fat32AllocLocalFile sdDriver vol n name stack fuel s =
    some (0xffffffff, s') ∧ s'.fat = s.fat ∧ s'.disk = s.disk
  inside : ∀ k, vol.fatEnd ≤ k → LeavesEntry vol n name stack s k

/-- A call that returns has inserted, or started at -1. -/
theorem fat32AllocLocalFile_cases {fuel : ℕ} {c : UInt32} {s' : Fs Card}
    (hroot : vol.data.rootDirFirstCluster ≠ 0xffffffff)
    (h : fat32AllocLocalFile sdDriver vol n name stack fuel s = some (c, s')) :
    ∃ cur j i records,
      walkClusters sdDriver vol s.fat insertVisit fuel vol.data.rootDirFirstCluster
        vol.data.rootDirFirstCluster s.dev stack = some (.hit cur j i () s.dev records) ∧
      insertAt sdDriver vol cur j i records n.toInt32.toInt name s = (c, s') := by
  cases hwalk : walkClusters sdDriver vol s.fat insertVisit fuel vol.data.rootDirFirstCluster
      vol.data.rootDirFirstCluster s.dev stack with
  | none =>
    rw [fat32AllocLocalFile, hwalk] at h
    simp at h
  | some e =>
    cases e with
    | hit cur j i a dev records =>
      obtain ⟨-, -, rfl, -, -⟩ := walkClusters_hit hwalk
      rw [fat32AllocLocalFile_of_hit hwalk] at h
      exact ⟨cur, j, i, records, rfl, Option.some.inj h⟩
    | exhausted cur p dev records => exact absurd (walkClusters_exhausted hwalk) hroot

/-- A call whose walk starts at -1 reports failure at once. -/
theorem fat32AllocLocalFile_allOnes (hroot : vol.data.rootDirFirstCluster = 0xffffffff)
    (fuel : ℕ) : fat32AllocLocalFile sdDriver vol n name stack fuel s =
      some (0xffffffff, s) := by
  have hwalk : walkClusters sdDriver vol s.fat insertVisit fuel 0xffffffff 0xffffffff s.dev
      stack = some (.exhausted 0xffffffff 0xffffffff s.dev stack) := by
    cases fuel <;> simp [walkClusters]
  rw [fat32AllocLocalFile, hroot, hwalk]
  rfl

/-- On a full table a call that writes no entry behind the table does not insert. -/
theorem not_refused_of_full (hend : vol.fatEnd.toNat < 2 ^ 28) (htwo : 2 ≤ vol.fatEnd)
    (hfull : freeClusters vol s.fat = []) (hroot : vol.data.rootDirFirstCluster ≠ 0xffffffff) :
    ¬ Refused vol n name stack s := by
  intro h
  obtain ⟨fuel, s', hcall, hfat, -⟩ := h.returns
  obtain ⟨cur, j, i, records, hwalk, hinsert⟩ := fat32AllocLocalFile_cases hroot hcall
  have hbehind : vol.fatEnd ≤ fat32TerminalClusterNo := by
    apply UInt32.le_iff_toNat_le.mpr
    show vol.fatEnd.toNat ≤ 2 ^ 28 - 1
    omega
  -- the entry behind the table held the end mark already
  have hself : fat32NextCluster s.fat fat32TerminalClusterNo = fat32TerminalClusterNo := by
    have hmark := (insertAt_full sdDriver hend htwo hfull cur j i records
      n.toInt32.toInt name).2
    rw [hinsert, hfat] at hmark
    rw [fat32NextCluster, hmark]
    rfl
  -- so the same call with anything else in it comes to the same terminal, and overwrites it
  have hwalk' := walkClusters_update_selfLink hself 0 hwalk
  have hfull' : freeClusters vol (Function.update s.fat fat32TerminalClusterNo 0) = [] := by
    rw [freeClusters_update_mark hend]
    exact hfull
  have hmark' := (insertAt_full sdDriver
    (s := { s with fat := Function.update s.fat fat32TerminalClusterNo 0 }) hend htwo hfull'
    cur j i records n.toInt32.toInt name).2
  have hzero := h.inside _ hbehind 0 fuel _ _ (fat32AllocLocalFile_of_hit hwalk')
  exact absurd (hmark'.symm.trans hzero) (by decide)

/-- With a free entry a call that inserts returns that entry, so not -1. -/
theorem not_refused_of_free (hend : vol.fatEnd.toNat < 2 ^ 28)
    (hfree : freeClusters vol s.fat ≠ []) (hroot : vol.data.rootDirFirstCluster ≠ 0xffffffff) :
    ¬ Refused vol n name stack s := by
  intro h
  obtain ⟨fuel, s', hcall, -, -⟩ := h.returns
  obtain ⟨cur, j, i, records, -, hinsert⟩ := fat32AllocLocalFile_cases hroot hcall
  obtain ⟨c, rest, hcons⟩ := List.exists_cons_of_ne_nil hfree
  have hfirst : (insertAt sdDriver vol cur j i records n.toInt32.toInt name s).1 = c :=
    findFreeLocalCluster_eq hcons
  rw [hinsert] at hfirst
  have hc : c ∈ freeClusters vol s.fat := by rw [hcons]; exact List.mem_cons_self
  have hlt := (mem_freeClusters.mp hc).1.lt
  rw [← hfirst] at hlt
  have hval : (2 ^ 32 - 1 : ℕ) < vol.fatEnd.toNat := hlt
  omega

/-- However few clusters are free, a call of `fat32_alloc_local_file` is refused if and only
if the root directory starts at cluster -1, so that there is nothing to scan. -/
theorem allocLocalFile_refused_iff (hend : vol.fatEnd.toNat < 2 ^ 28) (htwo : 2 ≤ vol.fatEnd) :
    Refused vol n name stack s ↔ vol.data.rootDirFirstCluster = 0xffffffff := by
  constructor
  · intro h
    by_contra hroot
    by_cases hfree : freeClusters vol s.fat = []
    · exact not_refused_of_full hend htwo hfree hroot h
    · exact not_refused_of_free hend hfree hroot h
  · intro hroot
    refine ⟨⟨0, s, fat32AllocLocalFile_allOnes hroot 0, rfl, rfl⟩, ?_⟩
    intro k _ v fuel c s' hcall
    rw [fat32AllocLocalFile_allOnes hroot] at hcall
    obtain ⟨-, rfl⟩ := Prod.mk.inj (Option.some.inj hcall)
    exact Function.update_self k v s.fat

end Calls

theorem allocLocalFile_refused_iff_fresh :
    Refused smallVolume 200 (fun _ => 65) blankSector freshFs ↔
      smallVolume.data.rootDirFirstCluster = 0xffffffff :=
  allocLocalFile_refused_iff (by decide) (by decide)

/-- The small volume with every entry of its table in use. -/
def fullFs : Fs Card where
  fat := fun k => if k < 128 then fat32TerminalClusterNo else 0
  dev := ⟨Function.update (fun _ => blankSector) 1
    (fatSector (fun k => if k < 128 then fat32TerminalClusterNo else 0) 0), []⟩

/-- A file of one cluster on the full volume: the call returns -1, but the entry with the
number `0x0FFFFFFF`, far behind the table, is written, and the file gets a directory record
that starts at cluster -1. -/
theorem fullFs_notRefused :
    smallVolume.Sound ∧ freeClusters smallVolume fullFs.fat = [] ∧
      (∃ s', fat32AllocLocalFile sdDriver smallVolume 1 (fun _ => 65) blankSector 1 fullFs =
          some (0xffffffff, s') ∧
        s'.fat fat32TerminalClusterNo ≠ fullFs.fat fat32TerminalClusterNo ∧
        (slotRecord smallVolume s'.disk ⟨2, 0, 0⟩).startCluster = 0xffffffff) ∧
      ¬ Refused smallVolume 1 (fun _ => 65) blankSector fullFs := by
  have hfull : freeClusters smallVolume fullFs.fat = [] := by
    apply List.eq_nil_iff_forall_not_mem.mpr
    intro c hc
    obtain ⟨hrange, hzero⟩ := mem_freeClusters.mp hc
    have hused : fullFs.fat c = fat32TerminalClusterNo := if_pos hrange.2
    rw [hused] at hzero
    exact absurd hzero (by decide)
  have hwalk : walkClusters sdDriver smallVolume fullFs.fat insertVisit 1 2 2 fullFs.dev
      blankSector = some (.hit 2 0 0 () fullFs.dev (fullFs.disk 2)) := rfl
  set num := (1 : UInt32).toInt32.toInt
  have hcall : fat32AllocLocalFile sdDriver smallVolume 1 (fun _ => 65) blankSector 1 fullFs =
      some (insertAt sdDriver smallVolume 2 0 0 (fullFs.disk 2) num (fun _ => 65) fullFs) :=
    fat32AllocLocalFile_of_hit hwalk
  obtain ⟨hfirst, hmark⟩ := insertAt_full sdDriver (s := fullFs) (by decide) (by decide)
    hfull 2 0 0 (fullFs.disk 2) num (fun _ => 65)
  have hrecord := slotRecord_insertAt smallVolume 2 0 0 (fullFs.disk 2) num (fun _ => 65) fullFs
  refine ⟨smallVolume_sound, hfull,
    ⟨(insertAt sdDriver smallVolume 2 0 0 (fullFs.disk 2) num (fun _ => 65) fullFs).2, ?_, ?_, ?_⟩,
    not_refused_of_full (by decide) (by decide) hfull (by decide)⟩
  · rw [hcall, ← hfirst]
  · rw [hmark]
    decide
  · rw [hrecord, newRecord_startCluster, hfirst]

end NaiveGfs
