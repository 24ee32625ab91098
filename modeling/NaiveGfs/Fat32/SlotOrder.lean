import Mathlib.Data.List.TakeWhile
import NaiveGfs.Fat32.Directory

/-!
# The order of record slots

A scan that stops at a slot has passed every slot before it. The slots of a directory fall
into those before a given slot, the slot and those after it, and the records that lookups
consider, up to the first terminal, are put together accordingly.
-/

namespace NaiveGfs

variable {α : Type} {vol : Volume} {visit : DirRecord → Option α} {disk disk' : UInt32 → Sector}

/-! ## Before and after a slot -/

/-- The slots of the same sector in front of a slot. -/
def sectorFront (sl : Slot) : List Slot :=
  ((List.finRange 16).take sl.idx.val).map fun i => ⟨sl.cluster, sl.sectorNo, i⟩

/-- The slots of the same sector behind a slot. -/
def sectorRest (sl : Slot) : List Slot :=
  ((List.finRange 16).drop (sl.idx.val + 1)).map fun i => ⟨sl.cluster, sl.sectorNo, i⟩

/-- The slots of the later sectors of the same cluster. -/
def clusterRest (vol : Volume) (sl : Slot) : List Slot :=
  (List.range' (sl.sectorNo + 1) (vol.id.sectorsPerCluster.toNat - (sl.sectorNo + 1))).flatMap
    (sectorSlots sl.cluster)

/-- The slots before `sl` in a directory in which the clusters `ch` precede its cluster. -/
def slotsBefore (vol : Volume) (ch : List UInt32) (sl : Slot) : List Slot :=
  dirSlots vol ch ++ (List.range sl.sectorNo).flatMap (sectorSlots sl.cluster) ++ sectorFront sl

/-- The slots after `sl` in a directory in which the clusters `ch` follow its cluster. -/
def slotsAfter (vol : Volume) (ch : List UInt32) (sl : Slot) : List Slot :=
  sectorRest sl ++ clusterRest vol sl ++ dirSlots vol ch

theorem mem_sectorSlots {c : UInt32} {j : ℕ} {sl : Slot} :
    sl ∈ sectorSlots c j ↔ sl.cluster = c ∧ sl.sectorNo = j := by
  rw [sectorSlots, List.mem_map]
  constructor
  · rintro ⟨i, -, rfl⟩
    exact ⟨rfl, rfl⟩
  · rintro ⟨rfl, rfl⟩
    exact ⟨sl.idx, List.mem_finRange _, rfl⟩

theorem mem_sectorFront {sl x : Slot} (hx : x ∈ sectorFront sl) :
    x.cluster = sl.cluster ∧ x.sectorNo = sl.sectorNo ∧ x.idx < sl.idx := by
  have hlt : ∀ k i : Fin 16, i ∈ (List.finRange 16).take k.val → i < k := by decide
  obtain ⟨i, hi, rfl⟩ := List.mem_map.mp hx
  exact ⟨rfl, rfl, hlt _ _ hi⟩

theorem mem_sectorFront_of_lt (sl : Slot) {i : Fin 16} (hi : i < sl.idx) :
    { sl with idx := i } ∈ sectorFront sl := by
  have hmem : ∀ k i : Fin 16, i < k → i ∈ (List.finRange 16).take k.val := by decide
  exact List.mem_map.mpr ⟨i, hmem _ _ hi, rfl⟩

theorem mem_sectorRest {sl x : Slot} (hx : x ∈ sectorRest sl) :
    x.cluster = sl.cluster ∧ x.sectorNo = sl.sectorNo ∧ sl.idx < x.idx := by
  have hlt : ∀ k i : Fin 16, i ∈ (List.finRange 16).drop (k.val + 1) → k < i := by decide
  obtain ⟨i, hi, rfl⟩ := List.mem_map.mp hx
  exact ⟨rfl, rfl, hlt _ _ hi⟩

theorem mem_clusterRest {sl x : Slot} (hx : x ∈ clusterRest vol sl) :
    x.cluster = sl.cluster ∧ sl.sectorNo < x.sectorNo := by
  obtain ⟨j, hj, hin⟩ := List.mem_flatMap.mp hx
  obtain ⟨hc, rfl⟩ := mem_sectorSlots.mp hin
  have := (List.mem_range'_1.mp hj).1
  exact ⟨hc, by omega⟩

/-- A slot in front of `sl` is in an earlier cluster, an earlier sector or an earlier place. -/
theorem mem_slotsBefore {ch : List UInt32} {sl x : Slot} (hx : x ∈ slotsBefore vol ch sl) :
    x.cluster ∈ ch ∨ x.cluster = sl.cluster ∧
      (x.sectorNo < sl.sectorNo ∨ x.sectorNo = sl.sectorNo ∧ x.idx < sl.idx) := by
  rw [slotsBefore, List.mem_append, List.mem_append] at hx
  rcases hx with (hx | hx) | hx
  · exact Or.inl (mem_dirSlots.mp hx).1
  · obtain ⟨j, hj, hin⟩ := List.mem_flatMap.mp hx
    obtain ⟨hc, rfl⟩ := mem_sectorSlots.mp hin
    exact Or.inr ⟨hc, Or.inl (List.mem_range.mp hj)⟩
  · obtain ⟨hc, hj, hi⟩ := mem_sectorFront hx
    exact Or.inr ⟨hc, Or.inr ⟨hj, hi⟩⟩

/-- A slot behind `sl` is in a later cluster, a later sector or a later place. -/
theorem mem_slotsAfter {ch : List UInt32} {sl x : Slot} (hx : x ∈ slotsAfter vol ch sl) :
    x.cluster ∈ ch ∨ x.cluster = sl.cluster ∧
      (sl.sectorNo < x.sectorNo ∨ x.sectorNo = sl.sectorNo ∧ sl.idx < x.idx) := by
  rw [slotsAfter, List.mem_append, List.mem_append] at hx
  rcases hx with (hx | hx) | hx
  · obtain ⟨hc, hj, hi⟩ := mem_sectorRest hx
    exact Or.inr ⟨hc, Or.inr ⟨hj, hi⟩⟩
  · obtain ⟨hc, hj⟩ := mem_clusterRest hx
    exact Or.inr ⟨hc, Or.inl hj⟩
  · exact Or.inl (mem_dirSlots.mp hx).1

theorem sectorSlots_split (sl : Slot) :
    sectorSlots sl.cluster sl.sectorNo = sectorFront sl ++ sl :: sectorRest sl := by
  have hsplit : ∀ k : Fin 16, List.finRange 16 =
      (List.finRange 16).take k.val ++ k :: (List.finRange 16).drop (k.val + 1) := by decide
  rw [sectorSlots, sectorFront, sectorRest]
  conv_lhs => rw [hsplit sl.idx]
  rw [List.map_append, List.map_cons]

theorem clusterSlots_split {sl : Slot} (hj : sl.sectorNo < vol.id.sectorsPerCluster.toNat) :
    clusterSlots vol sl.cluster = (List.range sl.sectorNo).flatMap (sectorSlots sl.cluster) ++
      sectorFront sl ++ sl :: (sectorRest sl ++ clusterRest vol sl) := by
  have hrange : List.range vol.id.sectorsPerCluster.toNat = List.range sl.sectorNo ++
      sl.sectorNo :: List.range' (sl.sectorNo + 1)
        (vol.id.sectorsPerCluster.toNat - (sl.sectorNo + 1)) := by
    rw [← List.range'_succ, List.range_eq_range', List.range_eq_range']
    have happ := List.range'_append_1 (s := 0) (m := sl.sectorNo)
      (n := vol.id.sectorsPerCluster.toNat - (sl.sectorNo + 1) + 1)
    rw [Nat.zero_add] at happ
    rw [happ]
    congr 1
    omega
  rw [clusterSlots, hrange, List.flatMap_append, List.flatMap_cons, sectorSlots_split,
    clusterRest]
  simp only [List.append_assoc, List.cons_append]

theorem dirSlots_split {ch₁ ch₂ : List UInt32} {sl : Slot}
    (hj : sl.sectorNo < vol.id.sectorsPerCluster.toNat) :
    dirSlots vol (ch₁ ++ sl.cluster :: ch₂) =
      slotsBefore vol ch₁ sl ++ sl :: slotsAfter vol ch₂ sl := by
  rw [dirSlots, List.flatMap_append, List.flatMap_cons, clusterSlots_split hj, slotsBefore,
    slotsAfter, dirSlots, dirSlots]
  simp only [List.append_assoc, List.cons_append]

/-- Inside a sector the next slot is the next record. -/
theorem slotsAfter_of_lt (vol : Volume) (ch : List UInt32) {sl : Slot}
    (hi : sl.idx.val + 1 < 16) :
    slotsAfter vol ch sl = { sl with idx := ⟨sl.idx.val + 1, hi⟩ } ::
      slotsAfter vol ch { sl with idx := ⟨sl.idx.val + 1, hi⟩ } := by
  have hdrop : ∀ (k : Fin 16) (hk : k.val + 1 < 16), (List.finRange 16).drop (k.val + 1) =
      ⟨k.val + 1, hk⟩ :: (List.finRange 16).drop (k.val + 1 + 1) := by decide
  rw [slotsAfter, slotsAfter, sectorRest, hdrop sl.idx hi, List.map_cons]
  rfl

/-- Behind the last record of a sector comes the next sector of the cluster. -/
theorem slotsAfter_of_last (vol : Volume) (ch : List UInt32) {sl : Slot} (hi : sl.idx.val = 15)
    (hmore : sl.sectorNo + 1 < vol.id.sectorsPerCluster.toNat) :
    ∃ more, slotsAfter vol ch sl = sectorSlots sl.cluster (sl.sectorNo + 1) ++ more := by
  obtain ⟨k, hk⟩ : ∃ k, vol.id.sectorsPerCluster.toNat - (sl.sectorNo + 1) = k + 1 :=
    ⟨_, (Nat.sub_add_cancel (by omega : 1 ≤ _)).symm⟩
  have hrest : sectorRest sl = [] := by
    have hidx : sl.idx = 15 := Fin.ext hi
    simp [sectorRest, hidx]
  rw [slotsAfter, hrest, clusterRest, hk, List.range'_succ, List.flatMap_cons, List.nil_append,
    List.append_assoc]
  exact ⟨_, rfl⟩

/-- Behind the last record of a cluster come the clusters that follow. -/
theorem slotsAfter_of_boundary (vol : Volume) (ch : List UInt32) {sl : Slot}
    (hi : sl.idx.val = 15) (hlast : sl.sectorNo + 1 = vol.id.sectorsPerCluster.toNat) :
    slotsAfter vol ch sl = dirSlots vol ch := by
  simp [slotsAfter, sectorRest, clusterRest, hi, hlast]

section Nodup

variable {ch₁ ch₂ : List UInt32} {sl x : Slot} (hnodup : (ch₁ ++ sl.cluster :: ch₂).Nodup)

include hnodup

/-- The slots in front of `sl` in its cluster are in an earlier sector or an earlier place. -/
theorem slotsBefore_of_cluster (hx : x ∈ slotsBefore vol ch₁ sl) (hc : x.cluster = sl.cluster) :
    x.sectorNo < sl.sectorNo ∨ x.sectorNo = sl.sectorNo ∧ x.idx < sl.idx := by
  rw [List.nodup_append] at hnodup
  cases mem_slotsBefore hx with
  | inl hin => exact absurd hc (hnodup.2.2 _ hin _ List.mem_cons_self)
  | inr hlt => exact hlt.2

/-- The slots behind `sl` in its cluster are in a later sector or a later place. -/
theorem slotsAfter_of_cluster (hx : x ∈ slotsAfter vol ch₂ sl) (hc : x.cluster = sl.cluster) :
    sl.sectorNo < x.sectorNo ∨ x.sectorNo = sl.sectorNo ∧ sl.idx < x.idx := by
  rw [List.nodup_append, List.nodup_cons] at hnodup
  cases mem_slotsAfter hx with
  | inl hin => exact absurd (hc ▸ hin) hnodup.2.1.1
  | inr hlt => exact hlt.2

theorem notMem_slotsBefore : sl ∉ slotsBefore vol ch₁ sl := by
  intro hin
  cases slotsBefore_of_cluster hnodup hin rfl with
  | inl hlt => exact absurd hlt (lt_irrefl _)
  | inr hlt => exact absurd hlt.2 (lt_irrefl _)

theorem notMem_slotsAfter : sl ∉ slotsAfter vol ch₂ sl := by
  intro hin
  cases slotsAfter_of_cluster hnodup hin rfl with
  | inl hlt => exact absurd hlt (lt_irrefl _)
  | inr hlt => exact absurd hlt.2 (lt_irrefl _)

end Nodup

/-! ## Where a scan stops -/

/-- A scan that stops at `sl` passed every slot before it. -/
theorem firstHit_split {ch : List UInt32} (hnodup : ch.Nodup) {sl : Slot} {a : α}
    (h : firstHit vol visit disk (dirSlots vol ch) = some (sl, a)) :
    ∃ ch₁ ch₂, ch = ch₁ ++ sl.cluster :: ch₂ ∧
      dirSlots vol ch = slotsBefore vol ch₁ sl ++ sl :: slotsAfter vol ch₂ sl ∧
      ∀ x ∈ slotsBefore vol ch₁ sl, visit (slotRecord vol disk x) = none := by
  obtain ⟨hc, hj⟩ := mem_dirSlots.mp (firstHit_some h).1
  obtain ⟨ch₁, ch₂, rfl⟩ := List.append_of_mem hc
  have hsplit : dirSlots vol (ch₁ ++ sl.cluster :: ch₂) =
      slotsBefore vol ch₁ sl ++ sl :: slotsAfter vol ch₂ sl := dirSlots_split hj
  refine ⟨ch₁, ch₂, rfl, hsplit, ?_⟩
  obtain ⟨xs, x, ys, hlist, hx, hxs⟩ := List.findSome?_eq_some_iff.mp h
  obtain ⟨b, -, hxb⟩ := Option.map_eq_some_iff.mp hx
  obtain ⟨rfl, rfl⟩ := Prod.mk.inj hxb
  rw [hsplit, List.append_cons_inj_of_notMem (notMem_slotsBefore hnodup)
    (notMem_slotsAfter hnodup)] at hlist
  intro y hy
  rw [hlist.1] at hy
  simpa using hxs y hy

theorem firstHit_of_split {before after : List Slot} {sl : Slot} {a : α}
    (hbefore : ∀ x ∈ before, visit (slotRecord vol disk x) = none)
    (hsl : visit (slotRecord vol disk sl) = some a) :
    firstHit vol visit disk (before ++ sl :: after) = some (sl, a) := by
  rw [firstHit, List.findSome?_eq_some_iff]
  exact ⟨before, sl, after, rfl, by rw [hsl]; rfl, fun x hx => by rw [hbefore x hx]; rfl⟩

/-- Slots with the same records are scanned alike. -/
theorem firstHit_congr {slots : List Slot}
    (h : ∀ x ∈ slots, slotRecord vol disk' x = slotRecord vol disk x) :
    firstHit vol visit disk' slots = firstHit vol visit disk slots := by
  induction slots with
  | nil => rfl
  | cons x xs ih =>
    have hrest := ih fun y hy => h y (List.mem_cons_of_mem _ hy)
    rw [firstHit, firstHit] at hrest ⊢
    rw [List.findSome?_cons, List.findSome?_cons, hrest, h x (by simp)]

/-! ## The records before the first terminal -/

/-- The non-LFN records of some slots up to the first terminal among them. -/
def liveRecords (vol : Volume) (disk : UInt32 → Sector) (slots : List Slot) : List DirRecord :=
  ((slots.map (slotRecord vol disk)).filter fun r => !r.isLfn).takeWhile fun r => !r.isTerminal

theorem liveRecords_congr {slots : List Slot}
    (h : ∀ x ∈ slots, slotRecord vol disk' x = slotRecord vol disk x) :
    liveRecords vol disk' slots = liveRecords vol disk slots := by
  rw [liveRecords, liveRecords, List.map_congr_left h]

theorem liveRecords_cons (sl : Slot) (slots : List Slot) :
    liveRecords vol disk (sl :: slots) =
      if (slotRecord vol disk sl).isLfn then liveRecords vol disk slots
      else if (slotRecord vol disk sl).isTerminal then []
      else slotRecord vol disk sl :: liveRecords vol disk slots := by
  rw [liveRecords, List.map_cons]
  cases hl : (slotRecord vol disk sl).isLfn with
  | true => simp [hl, liveRecords]
  | false =>
    cases ht : (slotRecord vol disk sl).isTerminal with
    | true => simp [hl, ht]
    | false => simp [hl, ht, liveRecords]

/-- Without a terminal among them the first slots contribute all they have. -/
theorem liveRecords_append {xs ys : List Slot}
    (h : ∀ x ∈ xs, isEndRecord (slotRecord vol disk x) = false) :
    liveRecords vol disk (xs ++ ys) = liveRecords vol disk xs ++ liveRecords vol disk ys := by
  induction xs with
  | nil => rfl
  | cons x xs ih =>
    have hrest := ih fun y hy => h y (List.mem_cons_of_mem _ hy)
    have hx := h x (by simp)
    rw [List.cons_append, liveRecords_cons, liveRecords_cons, hrest]
    cases hl : (slotRecord vol disk x).isLfn with
    | true => rfl
    | false =>
      cases ht : (slotRecord vol disk x).isTerminal with
      | true =>
        rw [isEndRecord, hl, ht] at hx
        simp at hx
      | false => rfl

/-- With a terminal among them the first slots are all that counts. -/
theorem liveRecords_append_of_end {xs : List Slot}
    (h : ∃ x ∈ xs, isEndRecord (slotRecord vol disk x) = true) (ys : List Slot) :
    liveRecords vol disk (xs ++ ys) = liveRecords vol disk xs := by
  induction xs with
  | nil => simp at h
  | cons x xs ih =>
    rw [List.cons_append, liveRecords_cons, liveRecords_cons]
    by_cases hx : isEndRecord (slotRecord vol disk x) = true
    · rw [isEndRecord, Bool.and_eq_true, Bool.not_eq_true'] at hx
      rw [hx.1, hx.2]
      rfl
    · have hrest : ∃ y ∈ xs, isEndRecord (slotRecord vol disk y) = true := by
        obtain ⟨y, hy, hend⟩ := h
        cases List.mem_cons.mp hy with
        | inl he => exact absurd (he ▸ hend) hx
        | inr hin => exact ⟨y, hin, hend⟩
      rw [ih hrest]

/-- The records of a part of the directory from its beginning on are records of all of it. -/
theorem mem_liveRecords_of_prefix {xs zs : List Slot} (h : xs <+: zs) {r : DirRecord}
    (hr : r ∈ liveRecords vol disk xs) : r ∈ liveRecords vol disk zs := by
  obtain ⟨ys, rfl⟩ := h
  by_cases hend : ∃ x ∈ xs, isEndRecord (slotRecord vol disk x) = true
  · rwa [liveRecords_append_of_end hend]
  · rw [liveRecords_append fun x hx => by simpa using fun he => hend ⟨x, hx, he⟩]
    exact List.mem_append_left _ hr

theorem liveRecords_eq_filter {slots : List Slot}
    (h : ∀ x ∈ slots, isEndRecord (slotRecord vol disk x) = false) :
    liveRecords vol disk slots = (slots.map (slotRecord vol disk)).filter fun r => !r.isLfn := by
  rw [liveRecords, List.takeWhile_eq_self_iff]
  intro r hr
  obtain ⟨hmem, hr⟩ := List.mem_filter.mp hr
  obtain ⟨x, hx, rfl⟩ := List.mem_map.mp hmem
  have hend := h x hx
  rw [isEndRecord] at hend
  simpa [hr] using hend

theorem liveRecords_cons_of_end {sl : Slot} (h : isEndRecord (slotRecord vol disk sl) = true)
    (slots : List Slot) : liveRecords vol disk (sl :: slots) = [] := by
  rw [isEndRecord, Bool.and_eq_true, Bool.not_eq_true'] at h
  rw [liveRecords_cons, h.1, h.2]
  rfl

@[simp] theorem insertVisit_eq_none {r : DirRecord} :
    insertVisit r = none ↔ isEndRecord r = false := by
  simp [insertVisit]

@[simp] theorem insertVisit_eq_some {r : DirRecord} :
    insertVisit r = some () ↔ isEndRecord r = true := by
  simp [insertVisit]

/-- What a lookup does at the record at which files are created. -/
theorem lookupVisit_of_isEndRecord (name : Fin 11 → UInt8) {r : DirRecord}
    (h : isEndRecord r = true) :
    lookupVisit name r = some 0xffffffff := by
  rw [isEndRecord, Bool.and_eq_true, Bool.not_eq_true'] at h
  simp [lookupVisit, h.1, h.2]

/-- Where the scan for an end stops, a lookup stops too. -/
theorem firstHit_lookup_of_end (name : Fin 11 → UInt8) {slots : List Slot} {sl : Slot}
    (h : firstHit vol insertVisit disk slots = some (sl, ())) :
    ∃ x a, firstHit vol (lookupVisit name) disk slots = some (x, a) := by
  obtain ⟨hmem, hvisit⟩ := firstHit_some h
  have hend := lookupVisit_of_isEndRecord name (insertVisit_eq_some.mp hvisit)
  by_contra hnone
  push Not at hnone
  have hall : firstHit vol (lookupVisit name) disk slots = none := by
    by_contra hne
    obtain ⟨⟨x, a⟩, hx⟩ := Option.ne_none_iff_exists'.mp hne
    exact hnone x a hx
  have hsl := List.findSome?_eq_none_iff.mp hall sl hmem
  rw [hend] at hsl
  simp at hsl

end NaiveGfs
