import Mathlib.Logic.Relation
import NaiveGfs.Fat32.Volume
import NaiveGfs.Tables.LinkTable

/-!
# Cluster allocation

The part of `fat32.c` that searches and changes the local FAT: first-fit search, marking a
cluster as the end of its chain, pointing an entry at the next cluster, and building the
chain of a new file. Every change of an entry writes the FAT sector around it back to disk.

All of it is made of two elementary steps, setting an entry with its write-back and zeroing
the first sector of a cluster (`FatWrite`). `allocLocalFileAt_run` says which clusters the
steps of one call name and what table they leave.
-/

namespace NaiveGfs

open LittleEndian LinkTable

variable {κ : Type}

/-- `fat32_next_cluster`. -/
def fat32NextCluster (fat : UInt32 → UInt32) (curClusterNo : UInt32) : UInt32 :=
  clusterNo (fat curClusterNo)

/-- A link has 28 bits, so it is not -1. -/
theorem fat32NextCluster_ne_allOnes (fat : UInt32 → UInt32) (c : UInt32) :
    fat32NextCluster fat c ≠ 0xffffffff := by
  intro h
  have hlink := congrArg UInt32.toNat h
  rw [fat32NextCluster, toNat_clusterNo] at hlink
  have hlt := Nat.mod_lt (fat c).toNat (show 2 ^ 28 > 0 by decide)
  rw [hlink] at hlt
  exact absurd hlt (by decide)

/-- The loop of `find_free_local_cluster` from entry `p`, `left` entries before `FAT_end`. -/
def findFreeFrom (fat : UInt32 → UInt32) : UInt32 → ℕ → UInt32
  | _, 0 => 0xffffffff
  | p, left + 1 => if fat p = 0 then p else findFreeFrom fat (p + 1) left

/-- The number of words from entry 2 to `FAT_end`, modulo the size of the address space. -/
def entriesAhead (vol : Volume) : ℕ := (vol.fatEnd - 2).toNat % 2 ^ 30

/-- `find_free_local_cluster`. The loop compares with `!=`, so it runs for as many entries
as there are, modulo the size of the address space, from entry 2 to `FAT_end`. -/
def findFreeLocalCluster (vol : Volume) (fat : UInt32 → UInt32) : UInt32 :=
  findFreeFrom fat 2 (entriesAhead vol)

/-- The 128 entries of the FAT sector that contains a given entry. -/
def fatSector (fat : UInt32 → UInt32) (index : UInt32) : Sector :=
  Sector.ofWords fun j => fat (index / 128 * 128 + UInt32.ofNat j.val)

section Code

variable (drv : Driver κ) (vol : Volume)

/-- Write the dirty FAT sector around an entry back to disk. -/
def writeFatSector (index : UInt32) (s : Fs κ) : Fs κ :=
  { s with dev := drv.writesector s.dev (fatSector s.fat index) (fatSectorLba vol index) }

/-- Set one entry and write its sector back. -/
def setEntry (index value : UInt32) (s : Fs κ) : Fs κ :=
  writeFatSector drv vol index { s with fat := Function.update s.fat index value }

/-- Write zeros to the first sector of a cluster. -/
def zeroCluster (c : UInt32) (s : Fs κ) : Fs κ :=
  { s with dev := drv.writesector s.dev blankSector (clusterNoToLba vol c) }

/-- `alloc_free_local_cluster`. -/
def allocFreeLocalCluster (s : Fs κ) : UInt32 × Fs κ :=
  let out := findFreeLocalCluster vol s.fat
  let s := setEntry drv vol (clusterNo out) (clusterNo 0xffffffff) s
  (out, zeroCluster drv vol (clusterNo out) s)

/-- `fat32_point_fat`: the entry is addressed by `prev` itself, the sector by its low 28
bits. -/
def fat32PointFat (prev next : UInt32) (s : Fs κ) : Fs κ :=
  writeFatSector drv vol (clusterNo prev) { s with fat := Function.update s.fat prev next }

/-- The loop of `alloc_local_file_at` over the clusters after the first. -/
def extendFile : ℕ → UInt32 → Fs κ → Fs κ
  | 0, _, s => s
  | k + 1, prevCluster, s =>
    let (allocd, s) := allocFreeLocalCluster drv vol s
    let s := fat32PointFat drv vol (clusterNo prevCluster) (clusterNo allocd) s
    extendFile k allocd s

/-- What `alloc_local_file_at` makes of the record it is given. -/
def newRecord (dr : DirRecord) (name : Fin 11 → UInt8) (c : UInt32) : DirRecord :=
  { dr with
    dirName := name
    dirFirstClusterLow := lowHalf c
    dirFirstClusterHigh := highHalf c
    dirAttr := 0 }

/-- `alloc_local_file_at`, with the record it fills in returned beside the cluster. The decrement
of the smallest `int` is undefined in C; here it leaves nothing to extend. -/
def allocLocalFileAt (dr : DirRecord) (numClusters : ℤ) (name : Fin 11 → UInt8) (s : Fs κ) :
    UInt32 × DirRecord × Fs κ :=
  let (allocd, s) := allocFreeLocalCluster drv vol s
  let s := extendFile drv vol (numClusters - 1).toNat allocd s
  (allocd, newRecord dr name allocd, s)

end Code

@[simp] theorem newRecord_startCluster (dr : DirRecord) (name : Fin 11 → UInt8) (c : UInt32) :
    (newRecord dr name c).startCluster = c :=
  ofHalves_halves c

@[simp] theorem newRecord_isLfn (dr : DirRecord) (name : Fin 11 → UInt8) (c : UInt32) :
    (newRecord dr name c).isLfn = false := rfl

@[simp] theorem newRecord_isTerminal (dr : DirRecord) (name : Fin 11 → UInt8) (c : UInt32) :
    (newRecord dr name c).isTerminal = (name 0 == 0) := rfl

/-! ## Free clusters -/

/-- The entries that the search looks at, in order. -/
def candidates (vol : Volume) : List UInt32 :=
  (List.range (vol.fatEnd.toNat - 2)).map fun i => UInt32.ofNat (2 + i)

/-- The free clusters in the order in which the search meets them. -/
def freeClusters (vol : Volume) (fat : UInt32 → UInt32) : List UInt32 :=
  (candidates vol).filter fun c => fat c == 0

variable {vol : Volume} {fat : UInt32 → UInt32}

/-- `FAT_end` is a byte address, divided by four. -/
theorem fatEnd_lt (vol : Volume) : vol.fatEnd.toNat < 2 ^ 30 := by
  have hbytes := (vol.id.bytesPerSector.toUInt32 * vol.id.sectorsPerFat).toNat_lt
  rw [Volume.fatEnd, UInt32.toNat_div]
  show _ / 4 < _
  omega

theorem entriesAhead_of_le (h : 2 ≤ vol.fatEnd) : entriesAhead vol = vol.fatEnd.toNat - 2 := by
  have hlt := fatEnd_lt vol
  have hleft : (vol.fatEnd - 2).toNat = vol.fatEnd.toNat - 2 := UInt32.toNat_sub_of_le _ _ h
  rw [entriesAhead, hleft, Nat.mod_eq_of_lt (by omega)]

theorem toNat_candidate {i : ℕ} (hi : i < vol.fatEnd.toNat - 2) :
    (UInt32.ofNat (2 + i)).toNat = 2 + i := by
  have hend : vol.fatEnd.toNat < 2 ^ 32 := vol.fatEnd.toNat_lt
  rw [UInt32.toNat_ofNat', Nat.mod_eq_of_lt (by omega)]

theorem mem_candidates {c : UInt32} : c ∈ candidates vol ↔ vol.InRange c := by
  rw [candidates, List.mem_map]
  constructor
  · rintro ⟨i, hi, rfl⟩
    rw [List.mem_range] at hi
    rw [Volume.InRange, UInt32.le_iff_toNat_le, UInt32.lt_iff_toNat_lt, toNat_candidate hi]
    show 2 ≤ 2 + i ∧ _
    omega
  · intro hc
    have htwo := hc.two_le
    have hlt := hc.lt
    refine ⟨c.toNat - 2, List.mem_range.mpr (by omega), ?_⟩
    rw [Nat.add_sub_cancel' htwo, UInt32.ofNat_toNat]

theorem candidates_nodup (vol : Volume) : (candidates vol).Nodup := by
  rw [candidates, List.nodup_map_iff_inj_on List.nodup_range]
  intro i hi j hj he
  rw [List.mem_range] at hi hj
  have hval := congrArg UInt32.toNat he
  rw [toNat_candidate hi, toNat_candidate hj] at hval
  omega

theorem mem_freeClusters {c : UInt32} :
    c ∈ freeClusters vol fat ↔ vol.InRange c ∧ fat c = 0 := by
  rw [freeClusters, List.mem_filter, mem_candidates, beq_iff_eq]

/-- The first free cluster is a cluster of the volume, and free. -/
theorem first_of_freeClusters {c : UInt32} {rest : List UInt32}
    (h : freeClusters vol fat = c :: rest) : vol.InRange c ∧ fat c = 0 :=
  mem_freeClusters.mp (by rw [h]; exact List.mem_cons_self)

theorem freeClusters_nodup (vol : Volume) (fat : UInt32 → UInt32) :
    (freeClusters vol fat).Nodup :=
  (candidates_nodup vol).filter _

theorem candidates_sorted (vol : Volume) : (candidates vol).Pairwise (· < ·) := by
  rw [candidates, List.pairwise_map]
  refine List.pairwise_lt_range.imp_of_mem fun hi hj hij => ?_
  rw [List.mem_range] at hi hj
  rw [UInt32.lt_iff_toNat_lt, toNat_candidate hi, toNat_candidate hj]
  omega

theorem freeClusters_sorted (vol : Volume) (fat : UInt32 → UInt32) :
    (freeClusters vol fat).Pairwise (· < ·) :=
  (candidates_sorted vol).filter _

/-- A free cluster without free clusters in front of it is the first one. -/
theorem freeClusters_eq_cons {c : UInt32} (hc : c ∈ freeClusters vol fat)
    (hlow : ∀ x, x < c → x ∉ freeClusters vol fat) :
    ∃ rest, freeClusters vol fat = c :: rest := by
  have hsorted := freeClusters_sorted vol fat
  obtain ⟨x, rest, hcons⟩ := List.exists_cons_of_ne_nil (List.ne_nil_of_mem hc)
  rw [hcons] at hc hsorted hlow
  rcases List.mem_cons.mp hc with rfl | hin
  · exact ⟨rest, hcons⟩
  · exact absurd List.mem_cons_self (hlow x ((List.pairwise_cons.mp hsorted).1 c hin))

/-- Using up the first free cluster leaves the others in order. -/
theorem freeClusters_update {c v : UInt32} {rest : List UInt32}
    (hfree : freeClusters vol fat = c :: rest) (hv : v ≠ 0) :
    freeClusters vol (Function.update fat c v) = rest := by
  refine filter_and_ne_eq_tail (candidates_nodup vol) hfree ?_
  intro x _
  by_cases hx : x = c
  · subst hx
    simp [hv]
  · simp [hx]

/-- Changing an entry that is in use to another nonzero value frees nothing. -/
theorem freeClusters_update_of_used {c v : UInt32} (hc : fat c ≠ 0) (hv : v ≠ 0) :
    freeClusters vol (Function.update fat c v) = freeClusters vol fat := by
  apply List.filter_congr
  intro x _
  by_cases hx : x = c
  · subst hx
    simp [hc, hv]
  · rw [Function.update_of_ne hx]

theorem findFreeFrom_eq (fat : UInt32 → UInt32) (i n : ℕ) :
    findFreeFrom fat (UInt32.ofNat (2 + i)) n =
      (((List.range' i n).map fun j => UInt32.ofNat (2 + j)).filter
        fun c => fat c == 0).headD 0xffffffff := by
  induction n generalizing i with
  | zero => rfl
  | succ n ih =>
    have hnext : UInt32.ofNat (2 + i) + 1 = UInt32.ofNat (2 + (i + 1)) :=
      (UInt32.ofNat_add (2 + i) 1).symm
    rw [findFreeFrom, List.range'_succ, List.map_cons]
    by_cases hz : fat (UInt32.ofNat (2 + i)) = 0
    · rw [if_pos hz, List.filter_cons_of_pos (by simpa using hz)]
      rfl
    · rw [if_neg hz, List.filter_cons_of_neg (by simpa using hz), hnext, ih]

/-- The entries with zeros that the search looks at when nothing stops it, also when `FAT_end`
is not behind them. -/
def freeEntries (vol : Volume) (fat : UInt32 → UInt32) : List UInt32 :=
  ((List.range (entriesAhead vol)).map fun i => UInt32.ofNat (2 + i)).filter fun c => fat c == 0

theorem freeEntries_eq (h : 2 ≤ vol.fatEnd) (fat : UInt32 → UInt32) :
    freeEntries vol fat = freeClusters vol fat := by
  rw [freeEntries, entriesAhead_of_le h]
  rfl

/-- The search returns the first of them, or -1. -/
theorem findFreeLocalCluster_eq_headD (vol : Volume) (fat : UInt32 → UInt32) :
    findFreeLocalCluster vol fat = (freeEntries vol fat).headD 0xffffffff := by
  have hscan := findFreeFrom_eq fat 0 (entriesAhead vol)
  rw [← List.range_eq_range'] at hscan
  exact hscan

/-- The search returns the first free cluster. -/
theorem findFreeLocalCluster_eq {c : UInt32} {rest : List UInt32}
    (hfree : freeClusters vol fat = c :: rest) : findFreeLocalCluster vol fat = c := by
  have hrange := (first_of_freeClusters hfree).1
  have hend : 2 ≤ vol.fatEnd := by
    have htwo := hrange.two_le
    have hlt := hrange.lt
    rw [UInt32.le_iff_toNat_le]
    show 2 ≤ _
    omega
  rw [findFreeLocalCluster_eq_headD, freeEntries_eq hend, hfree, List.headD_cons]

/-! ## What one call does -/

section Run

variable {drv : Driver κ} {s s' s'' : Fs κ}

/-- One elementary step of an allocation: an entry of a cluster in `cs` is set and written
back, or the first sector of a cluster in `cs` is zeroed. -/
def FatWrite (drv : Driver κ) (vol : Volume) (cs : List UInt32) (s s' : Fs κ) : Prop :=
  (∃ k ∈ cs, ∃ v, s' = setEntry drv vol k v s) ∨ ∃ c ∈ cs, s' = zeroCluster drv vol c s

theorem FatWrite.mono {cs ds : List UInt32} (hsub : ∀ c ∈ cs, c ∈ ds)
    (h : FatWrite drv vol cs s s') : FatWrite drv vol ds s s' := by
  rcases h with ⟨k, hk, v, rfl⟩ | ⟨c, hc, rfl⟩
  · exact Or.inl ⟨k, hsub k hk, v, rfl⟩
  · exact Or.inr ⟨c, hsub c hc, rfl⟩

/-- Any number of elementary steps. -/
abbrev FatWrites (drv : Driver κ) (vol : Volume) (cs : List UInt32) : Fs κ → Fs κ → Prop :=
  Relation.ReflTransGen (FatWrite drv vol cs)

theorem FatWrites.mono {cs ds : List UInt32} (hsub : ∀ c ∈ cs, c ∈ ds)
    (h : FatWrites drv vol cs s s') : FatWrites drv vol ds s s' :=
  Relation.ReflTransGen.mono (fun _ _ => FatWrite.mono hsub) _ _ h

@[simp] theorem setEntry_fat (drv : Driver κ) (vol : Volume) (k v : UInt32) (s : Fs κ) :
    (setEntry drv vol k v s).fat = Function.update s.fat k v := rfl

@[simp] theorem zeroCluster_fat (drv : Driver κ) (vol : Volume) (c : UInt32) (s : Fs κ) :
    (zeroCluster drv vol c s).fat = s.fat := rfl

theorem clusterNo_allOnes : clusterNo 0xffffffff = fat32TerminalClusterNo := rfl

theorem fat32PointFat_eq {prev : UInt32} (hprev : prev.toNat < 2 ^ 28) (next : UInt32) :
    fat32PointFat drv vol prev next s = setEntry drv vol prev next s := by
  rw [fat32PointFat, clusterNo_of_lt hprev]
  rfl

/-- An allocation takes the first free cluster, marks it and zeroes its first sector. -/
theorem allocFreeLocalCluster_eq (hend : vol.fatEnd.toNat ≤ 2 ^ 28) {c : UInt32}
    {rest : List UInt32} (hfree : freeClusters vol s.fat = c :: rest) :
    allocFreeLocalCluster drv vol s =
      (c, zeroCluster drv vol c (setEntry drv vol c fat32TerminalClusterNo s)) := by
  have hc := first_of_freeClusters hfree
  have hmask : clusterNo c = c := clusterNo_of_lt (by have := hc.1.lt; omega)
  simp only [allocFreeLocalCluster, findFreeLocalCluster_eq hfree, hmask, clusterNo_allOnes]

/-- One round of the loop of `alloc_local_file_at` puts the first free cluster behind the
last one. -/
theorem extendFile_succ (hend : vol.fatEnd.toNat ≤ 2 ^ 28) {p c : UInt32}
    (hp : p.toNat < 2 ^ 28) {rest : List UInt32} (hfree : freeClusters vol s.fat = c :: rest)
    (k : ℕ) :
    extendFile drv vol (k + 1) p s =
      extendFile drv vol k c (setEntry drv vol p c
        (zeroCluster drv vol c (setEntry drv vol c fat32TerminalClusterNo s))) := by
  have hc := first_of_freeClusters hfree
  have hmask : clusterNo c = c := clusterNo_of_lt (by have := hc.1.lt; omega)
  rw [extendFile, allocFreeLocalCluster_eq hend hfree]
  simp only [hmask, clusterNo_of_lt hp, fat32PointFat_eq hp]

/-- Somewhere on the way from `s` to `s'` the first sector of `x` is zeroed. -/
def ZeroedOnTheWay (drv : Driver κ) (vol : Volume) (cs : List UInt32) (x : UInt32)
    (s s' : Fs κ) : Prop :=
  ∃ m, FatWrites drv vol cs s (zeroCluster drv vol x m) ∧
    FatWrites drv vol cs (zeroCluster drv vol x m) s'

/-- The loop of `alloc_local_file_at`, started on a table in which the chain `ds ++ [p]`
has been entered: it takes the next free clusters in order and enters the longer chain. -/
theorem extendFile_run (drv : Driver κ) (hend : vol.fatEnd.toNat ≤ 2 ^ 28) {t : UInt32 → UInt32}
    {es rest : List UInt32} (ds : List UInt32) (p : UInt32) (hp : vol.InRange p)
    (hnodup : (ds ++ p :: es).Nodup)
    (hfat : s.fat = writeChain fat32TerminalClusterNo (ds ++ [p]) t)
    (hfree : freeClusters vol s.fat = es ++ rest) :
    let s' := extendFile drv vol es.length p s
    s'.fat = writeChain fat32TerminalClusterNo (ds ++ p :: es) t ∧
      freeClusters vol s'.fat = rest ∧
      FatWrites drv vol (p :: es) s s' ∧
      ∀ x ∈ es, ZeroedOnTheWay drv vol (p :: es) x s s' := by
  induction es generalizing s ds p with
  | nil => exact ⟨hfat, hfree, Relation.ReflTransGen.refl, by simp⟩
  | cons c es ih =>
    have hc := first_of_freeClusters hfree
    have hcne : c ≠ 0 := by
      intro he
      have := hc.1.two_le
      rw [he] at this
      exact absurd this (by decide)
    have hp28 : p.toNat < 2 ^ 28 := lt_of_lt_of_le hp.lt hend
    have hpc : p ≠ c := by
      intro he
      subst he
      exact absurd hnodup (by simp [List.nodup_append])
    have hpds : p ∉ ds := by
      intro hin
      rw [List.nodup_append] at hnodup
      exact hnodup.2.2 p hin p (by simp) rfl
    let s₁ := setEntry drv vol c fat32TerminalClusterNo s
    let s₂ := zeroCluster drv vol c s₁
    let s₃ := setEntry drv vol p c s₂
    have hstep : extendFile drv vol (c :: es).length p s = extendFile drv vol es.length c s₃ :=
      extendFile_succ hend hp28 hfree es.length
    -- the table after the round holds the chain that is one cluster longer
    have hnodup' : ((ds ++ [p]) ++ c :: es).Nodup := by simpa using hnodup
    have hfat₃ : s₃.fat = writeChain fat32TerminalClusterNo ((ds ++ [p]) ++ [c]) t := by
      have hshort : (ds ++ [p, c]).Nodup := hnodup.sublist (by simp)
      show Function.update (Function.update s.fat c fat32TerminalClusterNo) p c = _
      rw [hfat, writeChain_concat fat32TerminalClusterNo ds hshort t, List.append_assoc]
      rfl
    -- and its free clusters are the remaining ones
    have hpused : Function.update s.fat c fat32TerminalClusterNo p ≠ 0 := by
      rw [Function.update_of_ne hpc, hfat, writeChain_last _ hpds]
      decide
    have hfree₃ : freeClusters vol s₃.fat = es ++ rest := by
      show freeClusters vol (Function.update (Function.update s.fat c _) p c) = _
      rw [freeClusters_update_of_used hpused hcne]
      exact freeClusters_update hfree (by decide)
    obtain ⟨hfat', hfree', hrun, hzero⟩ := ih (ds ++ [p]) c hc.1 hnodup' hfat₃ hfree₃
    have hsub : ∀ x ∈ c :: es, x ∈ p :: c :: es := fun x hx => List.mem_cons_of_mem _ hx
    have h₁ : FatWrite drv vol (p :: c :: es) s s₁ := Or.inl ⟨c, by simp, _, rfl⟩
    have h₂ : FatWrite drv vol (p :: c :: es) s₁ s₂ := Or.inr ⟨c, by simp, rfl⟩
    have h₃ : FatWrite drv vol (p :: c :: es) s₂ s₃ := Or.inl ⟨p, by simp, _, rfl⟩
    have hto₂ : FatWrites drv vol (p :: c :: es) s s₂ := (Relation.ReflTransGen.single h₁).tail h₂
    have hfrom₂ : FatWrites drv vol (p :: c :: es) s₂ (extendFile drv vol es.length c s₃) :=
      Relation.ReflTransGen.head h₃ (hrun.mono hsub)
    simp only [hstep]
    refine ⟨by simpa using hfat', hfree', hto₂.trans hfrom₂, fun x hx => ?_⟩
    rcases List.mem_cons.mp hx with rfl | hx
    · exact ⟨s₁, hto₂, hfrom₂⟩
    · obtain ⟨m, hbefore, hafter⟩ := hzero x hx
      exact ⟨m, (hto₂.tail h₃).trans (hbefore.mono hsub), hafter.mono hsub⟩

/-- One call of `alloc_local_file_at`, when the first free clusters are `c :: es`: it
returns `c`, fills the record in with it, enters exactly the chain `c :: es` into the table,
leaves the remaining clusters free, and on the way names no other cluster and zeroes the
first sector of each of these. -/
theorem allocLocalFileAt_run (drv : Driver κ) (hend : vol.fatEnd.toNat ≤ 2 ^ 28) {c : UInt32}
    {es rest : List UInt32} (hfree : freeClusters vol s.fat = c :: (es ++ rest)) {num : ℤ}
    (hnum : (num - 1).toNat = es.length) (dr : DirRecord) (name : Fin 11 → UInt8) :
    ∃ s', allocLocalFileAt drv vol dr num name s = (c, newRecord dr name c, s') ∧
      s'.fat = writeChain fat32TerminalClusterNo (c :: es) s.fat ∧
      freeClusters vol s'.fat = rest ∧
      FatWrites drv vol (c :: es) s s' ∧
      ∀ x ∈ c :: es, ZeroedOnTheWay drv vol (c :: es) x s s' := by
  have hc := first_of_freeClusters hfree
  have hnodup : (c :: es).Nodup := by
    have h := freeClusters_nodup vol s.fat
    rw [hfree, ← List.cons_append] at h
    exact (List.nodup_append.mp h).1
  let s₁ := setEntry drv vol c fat32TerminalClusterNo s
  let s₂ := zeroCluster drv vol c s₁
  have hfree₂ : freeClusters vol s₂.fat = es ++ rest :=
    freeClusters_update hfree (by decide)
  obtain ⟨hfat', hfree', hrun, hzero⟩ :=
    extendFile_run drv (s := s₂) hend [] c hc.1 hnodup rfl hfree₂
  have h₁ : FatWrite drv vol (c :: es) s s₁ := Or.inl ⟨c, by simp, _, rfl⟩
  have h₂ : FatWrite drv vol (c :: es) s₁ s₂ := Or.inr ⟨c, by simp, rfl⟩
  have hto₂ : FatWrites drv vol (c :: es) s s₂ := (Relation.ReflTransGen.single h₁).tail h₂
  refine ⟨extendFile drv vol es.length c s₂, ?_, hfat', hfree', hto₂.trans hrun, ?_⟩
  · simp only [allocLocalFileAt, allocFreeLocalCluster_eq hend hfree, hnum]
    rfl
  · intro x hx
    rcases List.mem_cons.mp hx with rfl | hx
    · exact ⟨s₁, hto₂, hrun⟩
    · obtain ⟨m, hbefore, hafter⟩ := hzero x hx
      exact ⟨m, hto₂.trans hbefore, hafter⟩

end Run

end NaiveGfs
