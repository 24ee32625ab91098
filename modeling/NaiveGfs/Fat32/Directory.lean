import Mathlib.Data.List.Chain
import NaiveGfs.Fat32.Alloc
import NaiveGfs.Words.CString

/-!
# The root directory

`fat32_get_cluster_no`, `fat32_alloc_local_file` and `dump_root_content` share one triple
loop over the clusters of the root directory, the sectors of a cluster and the records of a
sector, and differ in what they do at a record. The loop is written once (`walkClusters`),
with the test at a record as a parameter and fuel for the unbounded `while`. On a card that
does not fail it is a search through the list of record slots of the root chain
(`walkClusters_of_firstHit`).
-/

namespace NaiveGfs

variable {κ α : Type}

/-! ## The triple loop -/

/-- The loop over the records of one sector: the first one at which `visit` stops. -/
def walkRecords (visit : DirRecord → Option α) (buf : Sector) : Option (Fin 16 × α) :=
  (List.finRange 16).findSome? fun i => (visit (buf.record i)).map fun a => (i, a)

/-- The loop stops at a record if there is a reason to, and there is none at those in front. -/
theorem walkRecords_some {visit : DirRecord → Option α} {buf : Sector} {i : Fin 16} {a : α}
    (h : walkRecords visit buf = some (i, a)) :
    visit (buf.record i) = some a ∧ ∀ k < i, visit (buf.record k) = none := by
  obtain ⟨pre, k, post, hsplit, hk, hpre⟩ := List.findSome?_eq_some_iff.mp h
  obtain ⟨b, hb, he⟩ := Option.map_eq_some_iff.mp hk
  obtain ⟨rfl, rfl⟩ := Prod.mk.inj he
  refine ⟨hb, fun j hj => ?_⟩
  exact Option.map_eq_none_iff.mp (hpre j ((finRange_split hsplit j).mpr hj))

theorem walkRecords_none {visit : DirRecord → Option α} {buf : Sector}
    (h : walkRecords visit buf = none) (k : Fin 16) : visit (buf.record k) = none :=
  Option.map_eq_none_iff.mp (List.findSome?_eq_none_iff.mp h k (List.mem_finRange k))

theorem walkRecords_eq_none {visit : DirRecord → Option α} {buf : Sector}
    (h : ∀ k, visit (buf.record k) = none) : walkRecords visit buf = none :=
  List.findSome?_eq_none_iff.mpr fun k _ => Option.map_eq_none_iff.mpr (h k)

theorem walkRecords_eq_some {visit : DirRecord → Option α} {buf : Sector} {i : Fin 16} {a : α}
    (ha : visit (buf.record i) = some a) (hfront : ∀ k < i, visit (buf.record k) = none) :
    walkRecords visit buf = some (i, a) := by
  obtain ⟨pre, post, hsplit⟩ := List.append_of_mem (List.mem_finRange i)
  refine List.findSome?_eq_some_iff.mpr ⟨pre, i, post, hsplit, by rw [ha]; rfl, fun j hj => ?_⟩
  exact Option.map_eq_none_iff.mpr (hfront j ((finRange_split hsplit j).mp hj))

/-- The loop over the sectors of one cluster, from `sectorNo` on with `left` to go. The
buffer is the `records` array, which keeps its old contents when a read fails. -/
def walkSectors (drv : Driver κ) (vol : Volume) (visit : DirRecord → Option α)
    (cur : UInt32) : ℕ → ℕ → κ → Sector → κ × Sector × Option (ℕ × Fin 16 × α)
  | _, 0, dev, buf => (dev, buf, none)
  | sectorNo, left + 1, dev, buf =>
    let (dev, buf) := drv.readsector dev (sectorLba vol cur sectorNo) buf
    match walkRecords visit buf with
    | some (i, a) => (dev, buf, some (sectorNo, i, a))
    | none => walkSectors drv vol visit cur (sectorNo + 1) left dev buf

/-- How the loop over the clusters ends: at a record, or because `cur` has become -1. -/
inductive WalkEnd (κ α : Type)
  | hit (cur : UInt32) (sectorNo : ℕ) (i : Fin 16) (a : α) (dev : κ) (buf : Sector)
  | exhausted (cur prev : UInt32) (dev : κ) (buf : Sector)

/-- `while(cur != -1)` over the clusters. The link read from the table has only 28 bits, so
-1 can only be the start. -/
def walkClusters (drv : Driver κ) (vol : Volume) (fat : UInt32 → UInt32)
    (visit : DirRecord → Option α) :
    ℕ → UInt32 → UInt32 → κ → Sector → Option (WalkEnd κ α)
  | 0, cur, prev, dev, buf =>
    if cur = 0xffffffff then some (.exhausted cur prev dev buf) else none
  | fuel + 1, cur, prev, dev, buf =>
    if cur = 0xffffffff then some (.exhausted cur prev dev buf)
    else
      match walkSectors drv vol visit cur 0 vol.id.sectorsPerCluster.toNat dev buf with
      | (dev, buf, some (sectorNo, i, a)) => some (.hit cur sectorNo i a dev buf)
      | (dev, buf, none) =>
        walkClusters drv vol fat visit fuel (fat32NextCluster fat cur) cur dev buf

/-! ## The functions of `fat32.c` -/

/-- What `fat32_get_cluster_no` does at a record: -1 at a terminal, the start cluster at a
match, and on to the next record otherwise. -/
def lookupVisit (filename : Fin 11 → UInt8) (r : DirRecord) : Option UInt32 :=
  if r.isLfn then none
  else if r.isTerminal then some 0xffffffff
  else if strncmp r.dirName filename = 0 then some r.startCluster
  else none

/-- `fat32_get_cluster_no`; `stack` is what the uninitialised record buffer holds. -/
def fat32GetClusterNo (drv : Driver κ) (vol : Volume) (filename : Fin 11 → UInt8)
    (stack : Sector) (fuel : ℕ) (s : Fs κ) : Option (UInt32 × Fs κ) :=
  match walkClusters drv vol s.fat (lookupVisit filename) fuel fat32RootClusterNo
      fat32RootClusterNo s.dev stack with
  | none => none
  | some (.hit _ _ _ c dev _) => some (c, { s with dev := dev })
  | some (.exhausted _ _ dev _) => some (0xffffffff, { s with dev := dev })

/-- A record at which `fat32_alloc_local_file` inserts. -/
def isEndRecord (r : DirRecord) : Bool := !r.isLfn && r.isTerminal

/-- What `fat32_alloc_local_file` does at a record: stop at the first terminal. -/
def insertVisit (r : DirRecord) : Option Unit := if isEndRecord r then some () else none

section Insert

variable (drv : Driver κ) (vol : Volume)

/-- Write the record buffer to a sector. -/
def writeRecords (records : Sector) (lba : UInt32) (s : Fs κ) : Fs κ :=
  { s with dev := drv.writesector s.dev records lba }

/-- The writes of `fat32_alloc_local_file` once `records[i]` is filled in: the sector with the
new record, and the new terminal, in the same sector or the next one of the cluster. -/
def storeRecord (cur : UInt32) (sectorNo : ℕ) (i : Fin 16) (records : Sector) (s : Fs κ) :
    Fs κ :=
  if h : i.val = 15 then
    if sectorNo + 1 = vol.id.sectorsPerCluster.toNat then
      -- at a cluster boundary no terminal is written
      writeRecords drv records (sectorLba vol cur sectorNo) s
    else
      let s := writeRecords drv records (sectorLba vol cur sectorNo) s
      -- the next sector becomes a copy of this one with its first byte cleared
      writeRecords drv (records.clearRecord 0) (sectorLba vol cur sectorNo + 1) s
  else
    writeRecords drv (records.clearRecord ⟨i.val + 1, by omega⟩) (sectorLba vol cur sectorNo) s

/-- The body of `fat32_alloc_local_file` at the terminal `records[i]` of a sector. -/
def insertAt (cur : UInt32) (sectorNo : ℕ) (i : Fin 16) (records : Sector) (numClusters : ℤ)
    (name : Fin 11 → UInt8) (s : Fs κ) : UInt32 × Fs κ :=
  let (first, dr, s) := allocLocalFileAt drv vol (records.record i) numClusters name s
  (first, storeRecord drv vol cur sectorNo i (records.setRecord i dr) s)

/-- The part of `fat32_alloc_local_file` behind its loop, for a chain that was left. -/
def extendRoot (prev : UInt32) (records : Sector) (numClusters : ℤ) (name : Fin 11 → UInt8)
    (s : Fs κ) : UInt32 × Fs κ :=
  let (allocd, s) := allocFreeLocalCluster drv vol s
  let s := fat32PointFat drv vol (clusterNo prev) (clusterNo allocd) s
  let (first, dr, s) := allocLocalFileAt drv vol (records.record 0) numClusters name s
  let records := (records.setRecord 0 dr).clearRecord 1
  (first, writeRecords drv records (clusterNoToLba vol (clusterNo allocd)) s)

/-- `fat32_alloc_local_file`. The number of clusters arrives as `uint32_t` and is passed on
as `int`. -/
def fat32AllocLocalFile (numClusters : UInt32) (name : Fin 11 → UInt8) (stack : Sector)
    (fuel : ℕ) (s : Fs κ) : Option (UInt32 × Fs κ) :=
  let root := vol.data.rootDirFirstCluster
  match walkClusters drv vol s.fat insertVisit fuel root root s.dev stack with
  | none => none
  | some (.hit cur sectorNo i _ dev records) =>
    some (insertAt drv vol cur sectorNo i records numClusters.toInt32.toInt name
      { s with dev := dev })
  | some (.exhausted cur prev dev records) =>
    if cur = clusterNo 0xffffffff then
      some (extendRoot drv vol prev records numClusters.toInt32.toInt name
        { s with dev := dev })
    else some (0xffffffff, { s with dev := dev })

end Insert

/-! ## Record slots -/

/-- The place of one directory record. -/
@[ext]
structure Slot where
  cluster : UInt32
  sectorNo : ℕ
  idx : Fin 16
deriving DecidableEq

/-- The record slots of one sector. -/
def sectorSlots (c : UInt32) (j : ℕ) : List Slot :=
  (List.finRange 16).map fun i => ⟨c, j, i⟩

/-- The record slots of one cluster. -/
def clusterSlots (vol : Volume) (c : UInt32) : List Slot :=
  (List.range vol.id.sectorsPerCluster.toNat).flatMap (sectorSlots c)

/-- The record slots of a list of clusters, in the order of the walk. -/
def dirSlots (vol : Volume) (ch : List UInt32) : List Slot := ch.flatMap (clusterSlots vol)

/-- The sector that holds a slot. -/
def slotLba (vol : Volume) (sl : Slot) : UInt32 := sectorLba vol sl.cluster sl.sectorNo

/-- The record in a slot. -/
def slotRecord (vol : Volume) (disk : UInt32 → Sector) (sl : Slot) : DirRecord :=
  (disk (slotLba vol sl)).record sl.idx

/-- The first slot at which `visit` stops. -/
def firstHit (vol : Volume) (visit : DirRecord → Option α) (disk : UInt32 → Sector)
    (slots : List Slot) : Option (Slot × α) :=
  slots.findSome? fun sl => (visit (slotRecord vol disk sl)).map fun a => (sl, a)

variable {vol : Volume} {visit : DirRecord → Option α}

theorem mem_clusterSlots {c : UInt32} {sl : Slot} :
    sl ∈ clusterSlots vol c ↔
      sl.cluster = c ∧ sl.sectorNo < vol.id.sectorsPerCluster.toNat := by
  simp only [clusterSlots, sectorSlots, List.mem_flatMap, List.mem_range, List.mem_map,
    List.mem_finRange, true_and]
  constructor
  · rintro ⟨j, hj, i, rfl⟩
    exact ⟨rfl, hj⟩
  · rintro ⟨rfl, hj⟩
    exact ⟨sl.sectorNo, hj, sl.idx, rfl⟩

theorem mem_dirSlots {ch : List UInt32} {sl : Slot} :
    sl ∈ dirSlots vol ch ↔
      sl.cluster ∈ ch ∧ sl.sectorNo < vol.id.sectorsPerCluster.toNat := by
  rw [dirSlots, List.mem_flatMap]
  constructor
  · rintro ⟨c, hc, hsl⟩
    obtain ⟨rfl, hj⟩ := mem_clusterSlots.mp hsl
    exact ⟨hc, hj⟩
  · rintro ⟨hc, hj⟩
    exact ⟨sl.cluster, hc, mem_clusterSlots.mpr ⟨rfl, hj⟩⟩

theorem firstHit_some {disk : UInt32 → Sector} {slots : List Slot} {sl : Slot} {a : α}
    (h : firstHit vol visit disk slots = some (sl, a)) :
    sl ∈ slots ∧ visit (slotRecord vol disk sl) = some a := by
  obtain ⟨x, hx, he⟩ := List.exists_of_findSome?_eq_some h
  obtain ⟨b, hb, hxb⟩ := Option.map_eq_some_iff.mp he
  obtain ⟨rfl, rfl⟩ := Prod.mk.inj hxb
  exact ⟨hx, hb⟩

theorem firstHit_append (disk : UInt32 → Sector) (xs ys : List Slot) :
    firstHit vol visit disk (xs ++ ys) =
      (firstHit vol visit disk xs).or (firstHit vol visit disk ys) :=
  List.findSome?_append

/-! ## The walk on a card that does not fail -/

/-- The loop over the records of a sector searches the slots of that sector. -/
theorem firstHit_sectorSlots (disk : UInt32 → Sector) (c : UInt32) (j : ℕ) :
    firstHit vol visit disk (sectorSlots c j) =
      (walkRecords visit (disk (sectorLba vol c j))).map fun p => (⟨c, j, p.1⟩, p.2) := by
  rw [firstHit, sectorSlots, walkRecords]
  induction List.finRange 16 with
  | nil => rfl
  | cons i is ih =>
    simp only [List.map_cons, List.findSome?_cons]
    cases hv : visit ((disk (sectorLba vol c j)).record i) with
    | some a => simp [slotRecord, slotLba, hv]
    | none => simpa [slotRecord, slotLba, hv] using ih

/-- The loop over the sectors of a cluster searches the slots of those sectors, and the
buffer it leaves behind at a hit is the sector of the hit. -/
theorem walkSectors_sd (vol : Volume) (visit : DirRecord → Option α) (c : UInt32) (j left : ℕ)
    (dev : Card) (buf : Sector) :
    ∃ buf', walkSectors sdDriver vol visit c j left dev buf = (dev, buf',
        (firstHit vol visit dev.current ((List.range' j left).flatMap (sectorSlots c))).map
          fun p => (p.1.sectorNo, p.1.idx, p.2)) ∧
      ∀ sl a, firstHit vol visit dev.current ((List.range' j left).flatMap (sectorSlots c)) =
        some (sl, a) → buf' = dev.current (slotLba vol sl) := by
  induction left generalizing j buf with
  | zero =>
    refine ⟨buf, rfl, fun sl a h => ?_⟩
    simp [firstHit] at h
  | succ left ih =>
    rw [List.range'_succ, List.flatMap_cons, firstHit_append, firstHit_sectorSlots]
    simp only [walkSectors, sdDriver]
    cases hw : walkRecords visit (dev.current (sectorLba vol c j)) with
    | some p =>
      refine ⟨dev.current (sectorLba vol c j), by simp, fun sl a h => ?_⟩
      simp only [Option.map_some, Option.some_or, Option.some.injEq, Prod.mk.injEq] at h
      rw [← h.1]
      rfl
    | none =>
      obtain ⟨buf', hrun, hbuf⟩ := ih (j + 1) (dev.current (sectorLba vol c j))
      refine ⟨buf', ?_, ?_⟩
      · simpa [sdDriver] using hrun
      · simpa using hbuf

/-- Consecutive clusters of `ch` are linked in the table. -/
def Linked (fat : UInt32 → UInt32) (ch : List UInt32) : Prop :=
  ch.IsChain fun a b => fat32NextCluster fat a = b

/-- One round of the loop over the clusters searches the slots of one cluster. -/
theorem walkClusters_sd_succ (vol : Volume) (fat : UInt32 → UInt32)
    (visit : DirRecord → Option α) (fuel : ℕ) {cur : UInt32} (hcur : cur ≠ 0xffffffff)
    (prev : UInt32) (dev : Card) (buf : Sector) :
    ∃ buf', walkClusters sdDriver vol fat visit (fuel + 1) cur prev dev buf =
      match firstHit vol visit dev.current (clusterSlots vol cur) with
      | some (sl, a) => some (.hit cur sl.sectorNo sl.idx a dev (dev.current (slotLba vol sl)))
      | none => walkClusters sdDriver vol fat visit fuel (fat32NextCluster fat cur) cur dev
          buf' := by
  obtain ⟨buf', hrun, hbuf⟩ := walkSectors_sd vol visit cur 0
    vol.id.sectorsPerCluster.toNat dev buf
  rw [← List.range_eq_range'] at hrun hbuf
  refine ⟨buf', ?_⟩
  rw [walkClusters, if_neg hcur, hrun, clusterSlots]
  cases hc : firstHit vol visit dev.current
      ((List.range vol.id.sectorsPerCluster.toNat).flatMap (sectorSlots cur)) with
  | some p =>
    simp only [Option.map_some]
    rw [hbuf p.1 p.2 hc]
  | none => rfl

/-- A walk that begins at -1 makes no hit. -/
theorem walkClusters_hit_ne {drv : Driver κ} {fat : UInt32 → UInt32} {fuel : ℕ}
    {cur prev c : UInt32} {j : ℕ} {i : Fin 16} {a : α} {dev dev' : κ} {buf buf' : Sector}
    (h : walkClusters drv vol fat visit fuel cur prev dev buf = some (.hit c j i a dev' buf')) :
    cur ≠ 0xffffffff ∧ ∃ n, fuel = n + 1 := by
  cases fuel with
  | zero =>
    rw [walkClusters] at h
    split at h <;> simp at h
  | succ fuel =>
    refine ⟨?_, fuel, rfl⟩
    rintro rfl
    rw [walkClusters, if_pos rfl] at h
    simp at h

/-- The walk along a linked list of clusters finds the first hit among its slots. -/
theorem walkClusters_of_firstHit {fat : UInt32 → UInt32} {ch : List UInt32} {cur : UInt32}
    (hhead : ch.head? = some cur) (hlinked : Linked fat ch)
    (hreal : ∀ c ∈ ch, c ≠ 0xffffffff) {dev : Card} {sl : Slot} {a : α}
    (hhit : firstHit vol visit dev.current (dirSlots vol ch) = some (sl, a))
    {fuel : ℕ} (hfuel : ch.length ≤ fuel) (prev : UInt32) (buf : Sector) :
    walkClusters sdDriver vol fat visit fuel cur prev dev buf =
      some (.hit sl.cluster sl.sectorNo sl.idx a dev (dev.current (slotLba vol sl))) := by
  induction ch generalizing cur prev buf fuel with
  | nil => simp at hhead
  | cons c ch ih =>
    rw [List.head?_cons, Option.some.injEq] at hhead
    subst hhead
    obtain ⟨fuel, rfl⟩ : ∃ n, fuel = n + 1 :=
      ⟨fuel - 1, by simp only [List.length_cons] at hfuel; omega⟩
    rw [dirSlots, List.flatMap_cons, firstHit_append] at hhit
    obtain ⟨buf', hrun⟩ := walkClusters_sd_succ vol fat visit fuel (hreal c (by simp))
      prev dev buf
    rw [hrun]
    cases hc : firstHit vol visit dev.current (clusterSlots vol c) with
    | some p =>
      rw [hc, Option.some_or, Option.some.injEq] at hhit
      obtain rfl : p = (sl, a) := hhit
      rw [(mem_clusterSlots.mp (firstHit_some hc).1).1]
    | none =>
      rw [hc, Option.none_or] at hhit
      cases ch with
      | nil => simp [firstHit] at hhit
      | cons d ds =>
        rw [Linked, List.isChain_cons_cons] at hlinked
        simp only
        rw [hlinked.1]
        exact ih rfl hlinked.2 (fun x hx => hreal x (List.mem_cons_of_mem _ hx)) hhit
          (by simpa using hfuel) c buf'

/-- Every hit of the walk is in a cluster reached from the start through the links of the
table, in a sector of that cluster, and leaves that sector in the buffer. -/
theorem walkClusters_hit {fat : UInt32 → UInt32} {fuel : ℕ} {cur prev c : UInt32} {j : ℕ}
    {i : Fin 16} {a : α} {dev dev' : Card} {buf buf' : Sector}
    (h : walkClusters sdDriver vol fat visit fuel cur prev dev buf =
      some (.hit c j i a dev' buf')) :
    Relation.ReflTransGen (fun x y => fat32NextCluster fat x = y) cur c ∧
      j < vol.id.sectorsPerCluster.toNat ∧ dev' = dev ∧
      buf' = dev.current (sectorLba vol c j) ∧ visit (buf'.record i) = some a := by
  induction fuel generalizing cur prev buf with
  | zero =>
    obtain ⟨-, n, hn⟩ := walkClusters_hit_ne h
    exact absurd hn (by simp)
  | succ fuel ih =>
    obtain ⟨buf₁, hrun⟩ := walkClusters_sd_succ vol fat visit fuel
      (walkClusters_hit_ne h).1 prev dev buf
    rw [hrun] at h
    cases hc : firstHit vol visit dev.current (clusterSlots vol cur) with
    | some p =>
      obtain ⟨sl, a₁⟩ := p
      obtain ⟨hin, hvisit⟩ := firstHit_some hc
      obtain ⟨hcl, hj⟩ := mem_clusterSlots.mp hin
      simp only [hc, Option.some.injEq, WalkEnd.hit.injEq] at h
      obtain ⟨rfl, rfl, rfl, rfl, rfl, rfl⟩ := h
      exact ⟨Relation.ReflTransGen.refl, hj, rfl, by rw [slotLba, hcl], hvisit⟩
    | none =>
      rw [hc] at h
      obtain ⟨hreach, hrest⟩ := ih h
      exact ⟨Relation.ReflTransGen.head rfl hreach, hrest⟩

/-- A hit does not depend on what the buffer held, nor on the previous cluster. -/
theorem walkClusters_hit_of_hit {fat : UInt32 → UInt32} {fuel : ℕ} {cur prev c : UInt32} {j : ℕ}
    {i : Fin 16} {a : α} {dev dev' : Card} {buf buf' : Sector}
    (h : walkClusters sdDriver vol fat visit fuel cur prev dev buf =
      some (.hit c j i a dev' buf')) (prev₁ : UInt32) (buf₁ : Sector) :
    walkClusters sdDriver vol fat visit fuel cur prev₁ dev buf₁ =
      some (.hit c j i a dev' buf') := by
  induction fuel generalizing cur prev prev₁ buf buf₁ with
  | zero =>
    obtain ⟨-, n, hn⟩ := walkClusters_hit_ne h
    exact absurd hn (by simp)
  | succ fuel ih =>
    have hcur := (walkClusters_hit_ne h).1
    obtain ⟨out, hrun⟩ := walkClusters_sd_succ vol fat visit fuel hcur prev dev buf
    obtain ⟨out₁, hrun₁⟩ := walkClusters_sd_succ vol fat visit fuel hcur prev₁ dev buf₁
    rw [hrun] at h
    rw [hrun₁]
    cases hc : firstHit vol visit dev.current (clusterSlots vol cur) with
    | some p =>
      rw [hc] at h
      exact h
    | none =>
      rw [hc] at h
      exact ih h cur out₁

/-- More fuel does not change the result of a walk that ends. -/
theorem walkClusters_mono {drv : Driver κ} {fat : UInt32 → UInt32} {fuel fuel' : ℕ}
    (hle : fuel ≤ fuel') {cur prev : UInt32} {dev : κ} {buf : Sector} {e : WalkEnd κ α}
    (h : walkClusters drv vol fat visit fuel cur prev dev buf = some e) :
    walkClusters drv vol fat visit fuel' cur prev dev buf = some e := by
  induction fuel generalizing fuel' cur prev dev buf with
  | zero =>
    rw [walkClusters] at h
    split at h
    · cases fuel' <;> simpa [walkClusters, *] using h
    · simp at h
  | succ fuel ih =>
    obtain ⟨fuel', rfl⟩ : ∃ n, fuel' = n + 1 := ⟨fuel' - 1, by omega⟩
    rw [walkClusters] at h ⊢
    split at h
    · rename_i hcur
      rw [if_pos hcur]
      exact h
    · rename_i hcur
      rw [if_neg hcur]
      rcases hs : walkSectors drv vol visit cur 0 vol.id.sectorsPerCluster.toNat dev buf with
        ⟨dev₁, buf₁, _ | hit⟩
      · rw [hs] at h
        exact ih (by omega) h
      · rw [hs] at h
        exact h

end NaiveGfs
