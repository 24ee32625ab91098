import Mathlib.Data.List.Iterate
import NaiveGfs.Fat32.Directory

/-!
# A card that fails

`sd_readblock` and `sd_writeblock` return 0 when they fail, and nothing in `fat32.c` looks.
`Faults` says which reads and which writes of a run fail, by their numbers; a read that fails
leaves the buffer as it was, and a write that fails the card. So a walk of the directory goes
by what it sees: a sector that cannot be read looks like the one read before it. Where a walk
stops is a function of the table, the card and the faults (`firstStop`).
-/

namespace NaiveGfs

/-- Which reads and which writes of a run fail, by their numbers. -/
structure Faults where
  read : ℕ → Bool
  write : ℕ → Bool

/-- A card with the numbers of reads and writes that have been tried on it. -/
structure FlakyCard where
  disk : UInt32 → Sector
  reads : ℕ
  writes : ℕ

/-- The card when the next read has number `r`. -/
def FlakyCard.atRead (t : FlakyCard) (r : ℕ) : FlakyCard := { t with reads := r }

/-- `sd_readblock` and `sd_writeblock` on a card that fails as `f` says. -/
def flakyDriver (f : Faults) : Driver FlakyCard where
  readsector t lba buf :=
    (t.atRead (t.reads + 1), if f.read t.reads then buf else t.disk lba)
  writesector t buf lba :=
    { t with
      disk := if f.write t.writes then t.disk else Function.update t.disk lba buf
      writes := t.writes + 1 }

@[simp] theorem FlakyCard.atRead_disk (t : FlakyCard) (r : ℕ) : (t.atRead r).disk = t.disk := rfl

@[simp] theorem FlakyCard.atRead_reads (t : FlakyCard) (r : ℕ) : (t.atRead r).reads = r := rfl

@[simp] theorem FlakyCard.atRead_atRead (t : FlakyCard) (r r' : ℕ) :
    (t.atRead r).atRead r' = t.atRead r' := rfl

/-! ## What a walk sees -/

/-- A record at which a walk stops and why, with what is in the buffer then and the number of
the next read. -/
structure Stop (α : Type) where
  slot : Slot
  val : α
  seen : Sector
  reads : ℕ

variable {α : Type} {vol : Volume} {f : Faults} {visit : DirRecord → Option α}
  {disk : UInt32 → Sector} {fat : UInt32 → UInt32} {r : ℕ} {buf : Sector}

/-- The buffer after reading some sectors into it, given by cluster and number, the first of
them with read number `r`. -/
def bufferAfter (f : Faults) (vol : Volume) (disk : UInt32 → Sector) :
    ℕ → Sector → List (UInt32 × ℕ) → Sector
  | _, buf, [] => buf
  | r, buf, (c, j) :: ps =>
    bufferAfter f vol disk (r + 1) (if f.read r then buf else disk (sectorLba vol c j)) ps

/-- The first stop in sectors that are read into a buffer one after the other. -/
def firstStop (f : Faults) (vol : Volume) (disk : UInt32 → Sector) (visit : DirRecord → Option α) :
    ℕ → Sector → List (UInt32 × ℕ) → Option (Stop α)
  | _, _, [] => none
  | r, buf, (c, j) :: ps =>
    let seen := if f.read r then buf else disk (sectorLba vol c j)
    match walkRecords visit seen with
    | some (i, a) => some ⟨⟨c, j, i⟩, a, seen, r + 1⟩
    | none => firstStop f vol disk visit (r + 1) seen ps

/-- What the buffer holds behind the read of the sector with index `i`: the last of the sectors
up to it that could be read, or what it held before. -/
def seenSector (f : Faults) (vol : Volume) (disk : UInt32 → Sector) (r : ℕ) (buf : Sector)
    (ps : List (UInt32 × ℕ)) (i : ℕ) : Sector :=
  bufferAfter f vol disk r buf (ps.take (i + 1))

/-- Where some sectors are read into a buffer one after the other, a record with `stop` is seen
in slot `sl`, of the sector with index `i`, and none in front of it. -/
structure SeesFirst (f : Faults) (vol : Volume) (disk : UInt32 → Sector) (stop : DirRecord → Prop)
    (r : ℕ) (buf : Sector) (ps : List (UInt32 × ℕ)) (i : ℕ) (sl : Slot) : Prop where
  place : ps[i]? = some (sl.cluster, sl.sectorNo)
  stops : stop ((seenSector f vol disk r buf ps i).record sl.idx)
  front : ∀ k < sl.idx, ¬ stop ((seenSector f vol disk r buf ps i).record k)
  before : ∀ j < i, ∀ k, ¬ stop ((seenSector f vol disk r buf ps j).record k)

/-- The sectors of the first `n` clusters on the way from `start` through the links. -/
def walkSectorsFrom (vol : Volume) (fat : UInt32 → UInt32) (start : UInt32) (n : ℕ) :
    List (UInt32 × ℕ) :=
  (List.iterate (fat32NextCluster fat) start n).flatMap fun c =>
    (List.range vol.id.sectorsPerCluster.toNat).map (Prod.mk c)

theorem walkSectorsFrom_succ (vol : Volume) (fat : UInt32 → UInt32) (start : UInt32) (n : ℕ) :
    walkSectorsFrom vol fat start (n + 1) =
      (List.range vol.id.sectorsPerCluster.toNat).map (Prod.mk start) ++
        walkSectorsFrom vol fat (fat32NextCluster fat start) n := by
  rw [walkSectorsFrom, List.iterate, List.flatMap_cons]
  rfl

theorem firstStop_append (xs ys : List (UInt32 × ℕ)) :
    firstStop f vol disk visit r buf (xs ++ ys) =
      (firstStop f vol disk visit r buf xs).or
        (firstStop f vol disk visit (r + xs.length) (bufferAfter f vol disk r buf xs) ys) := by
  induction xs generalizing r buf with
  | nil => rfl
  | cons p xs ih =>
    obtain ⟨c, j⟩ := p
    rw [List.cons_append, firstStop, firstStop, bufferAfter, List.length_cons]
    cases walkRecords visit (if f.read r then buf else disk (sectorLba vol c j)) with
    | some q => rfl
    | none =>
      simp only
      rw [ih, Nat.add_assoc, Nat.add_comm 1]

/-- A walk stops in a sector on its way, at the first record of the buffer for which there is
a reason. -/
theorem firstStop_some {ps : List (UInt32 × ℕ)} {st : Stop α}
    (h : firstStop f vol disk visit r buf ps = some st) :
    (st.slot.cluster, st.slot.sectorNo) ∈ ps ∧
      walkRecords visit st.seen = some (st.slot.idx, st.val) := by
  induction ps generalizing r buf with
  | nil => simp [firstStop] at h
  | cons p ps ih =>
    obtain ⟨c, j⟩ := p
    rw [firstStop] at h
    cases hw : walkRecords visit (if f.read r then buf else disk (sectorLba vol c j)) with
    | some q =>
      simp only [hw, Option.some.injEq] at h
      subst h
      exact ⟨List.mem_cons_self, hw⟩
    | none =>
      simp only [hw] at h
      obtain ⟨hin, hstop⟩ := ih h
      exact ⟨List.mem_cons_of_mem _ hin, hstop⟩

theorem seenSector_cons_zero (c : UInt32) (j : ℕ) (ps : List (UInt32 × ℕ)) :
    seenSector f vol disk r buf ((c, j) :: ps) 0 =
      if f.read r then buf else disk (sectorLba vol c j) := rfl

theorem seenSector_cons_succ (c : UInt32) (j : ℕ) (ps : List (UInt32 × ℕ)) (i : ℕ) :
    seenSector f vol disk r buf ((c, j) :: ps) (i + 1) =
      seenSector f vol disk (r + 1) (if f.read r then buf else disk (sectorLba vol c j)) ps i :=
  rfl

/-- Behind a read that succeeds the buffer holds the sector. -/
theorem seenSector_of_read {ps : List (UInt32 × ℕ)} {i : ℕ} {c : UInt32} {j : ℕ}
    (hplace : ps[i]? = some (c, j)) (hread : f.read (r + i) = false) :
    seenSector f vol disk r buf ps i = disk (sectorLba vol c j) := by
  induction ps generalizing r buf i with
  | nil => simp at hplace
  | cons p ps ih =>
    obtain ⟨d, k⟩ := p
    cases i with
    | zero =>
      obtain ⟨rfl, rfl⟩ : d = c ∧ k = j := by simpa using hplace
      rw [seenSector_cons_zero, if_neg (by simpa using hread)]
    | succ i =>
      have hread' : f.read (r + 1 + i) = false := by rwa [Nat.add_assoc, Nat.add_comm 1]
      rw [seenSector_cons_succ]
      exact ih hplace hread'

/-- A walk stops at the first record that is seen for which there is a reason. -/
theorem firstStop_of_seesFirst {stop : DirRecord → Prop}
    (hstop : ∀ d, stop d ↔ visit d ≠ none) {ps : List (UInt32 × ℕ)} {i : ℕ} {sl : Slot}
    (h : SeesFirst f vol disk stop r buf ps i sl) {a : α}
    (ha : visit ((seenSector f vol disk r buf ps i).record sl.idx) = some a) :
    firstStop f vol disk visit r buf ps =
      some ⟨sl, a, seenSector f vol disk r buf ps i, r + i + 1⟩ := by
  have hnone {d : DirRecord} (hd : ¬ stop d) : visit d = none :=
    not_not.mp fun hne => hd ((hstop d).mpr hne)
  induction ps generalizing r buf i with
  | nil =>
    have hplace := h.place
    simp at hplace
  | cons p ps ih =>
    obtain ⟨c, j⟩ := p
    rw [firstStop]
    cases i with
    | zero =>
      obtain ⟨rfl, rfl⟩ : c = sl.cluster ∧ j = sl.sectorNo := by simpa using h.place
      have hhere := walkRecords_eq_some ha fun k hk => hnone (h.front k hk)
      rw [seenSector_cons_zero] at hhere ⊢
      rw [hhere]
    | succ i =>
      have hnot := walkRecords_eq_none fun k => hnone (h.before 0 (Nat.zero_lt_succ i) k)
      rw [seenSector_cons_zero] at hnot
      have hrest : SeesFirst f vol disk stop (r + 1)
          (if f.read r then buf else disk (sectorLba vol c j)) ps i sl :=
        ⟨h.place, h.stops, h.front, fun j hj => h.before (j + 1) (Nat.succ_lt_succ hj)⟩
      have hreads : r + (i + 1) + 1 = r + 1 + i + 1 := by omega
      rw [hnot, seenSector_cons_succ, hreads]
      exact ih hrest ha

/-- Where a walk stops a record for which there is a reason is seen for the first time. -/
theorem seesFirst_of_firstStop {stop : DirRecord → Prop}
    (hstop : ∀ d, stop d ↔ visit d ≠ none) {ps : List (UInt32 × ℕ)} {st : Stop α}
    (h : firstStop f vol disk visit r buf ps = some st) :
    ∃ i, SeesFirst f vol disk stop r buf ps i st.slot ∧
      st.seen = seenSector f vol disk r buf ps i ∧ st.reads = r + i + 1 := by
  have hnot {d : DirRecord} (hd : visit d = none) : ¬ stop d := fun hs => (hstop d).mp hs hd
  induction ps generalizing r buf with
  | nil => simp [firstStop] at h
  | cons p ps ih =>
    obtain ⟨c, j⟩ := p
    rw [firstStop] at h
    cases hw : walkRecords visit (if f.read r then buf else disk (sectorLba vol c j)) with
    | some q =>
      obtain ⟨k, a⟩ := q
      simp only [hw, Option.some.injEq] at h
      subst h
      obtain ⟨ha, hfront⟩ := walkRecords_some hw
      refine ⟨0, ⟨rfl, (hstop _).mpr ?_, fun m hm => hnot (hfront m hm), ?_⟩, rfl, rfl⟩
      · rw [seenSector_cons_zero, ha]
        exact Option.some_ne_none a
      · exact fun j hj => absurd hj (Nat.not_lt_zero j)
    | none =>
      simp only [hw] at h
      obtain ⟨i, hsees, hseen, hreads⟩ := ih h
      refine ⟨i + 1, ⟨hsees.place, hsees.stops, hsees.front, fun m hm k => ?_⟩, hseen, by omega⟩
      cases m with
      | zero => exact hnot (walkRecords_none hw k)
      | succ m => exact hsees.before m (Nat.lt_of_succ_lt_succ hm) k

/-- The number of a sector on the way of a walk is one inside its cluster. -/
theorem mem_walkSectorsFrom {start c : UInt32} {n j : ℕ}
    (h : (c, j) ∈ walkSectorsFrom vol fat start n) : j < vol.id.sectorsPerCluster.toNat := by
  obtain ⟨d, -, hin⟩ := List.mem_flatMap.mp h
  obtain ⟨k, hk, he⟩ := List.mem_map.mp hin
  obtain ⟨-, rfl⟩ := Prod.mk.inj he
  exact List.mem_range.mp hk

/-- The sectors of the clusters in front, and those of its own cluster, are in front of a
sector on the way of a walk. -/
theorem walkSectorsFrom_place {start c : UInt32} {n i j : ℕ}
    (h : (walkSectorsFrom vol fat start n)[i]? = some (c, j)) :
    ∃ k, i = k * vol.id.sectorsPerCluster.toNat + j ∧ c = (fat32NextCluster fat)^[k] start ∧
      (walkSectorsFrom vol fat start n).take i =
        walkSectorsFrom vol fat start k ++ (List.range j).map (Prod.mk c) := by
  induction n generalizing start i with
  | zero => simp [walkSectorsFrom] at h
  | succ n ih =>
    rw [walkSectorsFrom_succ] at h ⊢
    have hlength : ((List.range vol.id.sectorsPerCluster.toNat).map (Prod.mk start)).length =
        vol.id.sectorsPerCluster.toNat := by rw [List.length_map, List.length_range]
    by_cases hi : i < vol.id.sectorsPerCluster.toNat
    · rw [List.getElem?_append_left (by rwa [hlength]), List.getElem?_map,
        List.getElem?_range hi] at h
      obtain ⟨rfl, rfl⟩ := Prod.mk.inj (Option.some.inj h)
      refine ⟨0, by omega, rfl, ?_⟩
      rw [List.take_append_of_le_length (by rw [hlength]; exact hi.le), ← List.map_take,
        List.take_range, Nat.min_eq_left hi.le]
      rfl
    · rw [List.getElem?_append_right (by rw [hlength]; omega), hlength] at h
      obtain ⟨k, hk, hc, htake⟩ := ih h
      refine ⟨k + 1, ?_, hc, ?_⟩
      · rw [Nat.add_mul]
        omega
      · rw [List.take_append, hlength, List.take_of_length_le (by rw [hlength]; omega), htake,
          walkSectorsFrom_succ, List.append_assoc]
/-! ## The walk -/

/-- The loop over the sectors of a cluster. -/
theorem walkSectors_flaky (vol : Volume) (visit : DirRecord → Option α) (c : UInt32)
    (j left : ℕ) (t : FlakyCard) (buf : Sector) :
    walkSectors (flakyDriver f) vol visit c j left t buf =
      match firstStop f vol t.disk visit t.reads buf ((List.range' j left).map (Prod.mk c)) with
      | some st => (t.atRead st.reads, st.seen, some (st.slot.sectorNo, st.slot.idx, st.val))
      | none => (t.atRead (t.reads + left),
          bufferAfter f vol t.disk t.reads buf ((List.range' j left).map (Prod.mk c)), none) := by
  induction left generalizing j t buf with
  | zero => rfl
  | succ left ih =>
    rw [List.range'_succ, List.map_cons, firstStop, bufferAfter]
    simp only [walkSectors, flakyDriver]
    cases walkRecords visit (if f.read t.reads then buf else t.disk (sectorLba vol c j)) with
    | some p => rfl
    | none =>
      have hrun := ih (j + 1) (t.atRead (t.reads + 1))
        (if f.read t.reads then buf else t.disk (sectorLba vol c j))
      simp only [flakyDriver, FlakyCard.atRead_disk, FlakyCard.atRead_reads,
        FlakyCard.atRead_atRead] at hrun
      simp only [hrun]
      rw [Nat.add_assoc, Nat.add_comm 1]

/-- The walk along the links stops at the first stop on its way. -/
theorem walkClusters_flaky (fuel : ℕ) {cur : UInt32} (hcur : cur ≠ 0xffffffff) (prev : UInt32)
    (t : FlakyCard) (buf : Sector) :
    walkClusters (flakyDriver f) vol fat visit fuel cur prev t buf =
      (firstStop f vol t.disk visit t.reads buf (walkSectorsFrom vol fat cur fuel)).map
        fun st => .hit st.slot.cluster st.slot.sectorNo st.slot.idx st.val (t.atRead st.reads)
          st.seen := by
  induction fuel generalizing cur prev t buf with
  | zero =>
    rw [walkClusters, if_neg hcur]
    rfl
  | succ fuel ih =>
    have hrun := walkSectors_flaky (f := f) vol visit cur 0 vol.id.sectorsPerCluster.toNat t buf
    rw [← List.range_eq_range'] at hrun
    rw [walkClusters, if_neg hcur, hrun, walkSectorsFrom_succ, firstStop_append]
    cases hstop : firstStop f vol t.disk visit t.reads buf
        ((List.range vol.id.sectorsPerCluster.toNat).map (Prod.mk cur)) with
    | some st =>
      obtain ⟨k, -, he⟩ := List.mem_map.mp (firstStop_some hstop).1
      rw [Option.some_or, Option.map_some, ← (Prod.mk.inj he).1]
    | none =>
      rw [Option.none_or, List.length_map, List.length_range]
      exact ih (fat32NextCluster_ne_allOnes fat cur) cur _ _

end NaiveGfs
