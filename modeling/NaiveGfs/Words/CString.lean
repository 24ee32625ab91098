import Mathlib.Data.List.FinRange
import Mathlib.Data.List.TakeWhile
import Mathlib.Logic.Function.Basic
import Mathlib.Data.Fin.Basic

/-!
# The string functions of `string.c`

The project brings its own `strncpy` and `strncmp`. Both treat `0x00` and `0xff` as the end
of a string, and `strncmp` takes two strings for equal as soon as either of them ends. The
arrays they work on have the length that is passed as `n`.
-/

namespace NaiveGfs

variable {n : ℕ}

/-- A byte at which the functions of `string.c` stop. -/
def IsEnd (b : UInt8) : Prop := b = 0 ∨ b = 0xff

instance (b : UInt8) : Decidable (IsEnd b) := inferInstanceAs (Decidable (_ ∨ _))

/-- The loop of `strncmp` over the remaining indices. -/
def strncmpFrom (str1 str2 : Fin n → UInt8) : List (Fin n) → ℤ
  | [] => 0
  | i :: is =>
    if IsEnd (str1 i) ∨ IsEnd (str2 i) then 0
    else if str1 i ≠ str2 i then -1
    else strncmpFrom str1 str2 is

/-- `strncmp`. -/
def strncmp (str1 str2 : Fin n → UInt8) : ℤ := strncmpFrom str1 str2 (List.finRange n)

/-- The loop of `strncpy` over the remaining indices: the buffer, and the index at which the
source ended, if it did. -/
def strncpyFrom (src : Fin n → UInt8) : List (Fin n) → (Fin n → UInt8) →
    (Fin n → UInt8) × Option (Fin n)
  | [], dst => (dst, none)
  | i :: is, dst =>
    if IsEnd (src i) then (dst, some i)
    else strncpyFrom src is (Function.update dst i (src i))

/-- `strncpy`. The terminator goes to the index at which the source ended, and over the last
byte when it did not. -/
def strncpy (dst src : Fin n → UInt8) : Fin n → UInt8 :=
  match strncpyFrom src (List.finRange n) dst with
  | (dst, some i) => Function.update dst i 0
  | (dst, none) => if h : 0 < n then Function.update dst ⟨n - 1, by omega⟩ 0 else dst

/-! ## `strncmp` -/

theorem strncmpFrom_eq_zero {str1 str2 : Fin n → UInt8} {is : List (Fin n)}
    (h : ∀ i ∈ is, str1 i = str2 i ∨ IsEnd (str1 i) ∨ IsEnd (str2 i)) :
    strncmpFrom str1 str2 is = 0 := by
  induction is with
  | nil => rfl
  | cons i is ih =>
    rw [strncmpFrom]
    cases h i (by simp) with
    | inl he =>
      rw [ih (fun j hj => h j (by simp [hj]))]
      simp [he]
    | inr he => exact if_pos he

/-- What lies behind the first end is not compared. -/
theorem strncmpFrom_of_end {str1 str2 : Fin n → UInt8} {pre post : List (Fin n)} {i : Fin n}
    (h : ∀ j ∈ pre, str1 j = str2 j) (hi : IsEnd (str1 i) ∨ IsEnd (str2 i)) :
    strncmpFrom str1 str2 (pre ++ i :: post) = 0 := by
  induction pre with
  | nil => exact if_pos hi
  | cons j pre ih =>
    rw [List.cons_append, strncmpFrom, ih (fun k hk => h k (by simp [hk]))]
    simp [h j (by simp)]

@[simp] theorem strncmp_self (str : Fin n → UInt8) : strncmp str str = 0 :=
  strncmpFrom_eq_zero fun _ _ => Or.inl rfl

/-! ## `strncpy` -/

theorem strncpyFrom_of_notMem (src : Fin n → UInt8) {is : List (Fin n)} {j : Fin n}
    (h : j ∉ is) (dst : Fin n → UInt8) : (strncpyFrom src is dst).1 j = dst j := by
  induction is generalizing dst with
  | nil => rfl
  | cons i is ih =>
    rw [List.mem_cons, not_or] at h
    rw [strncpyFrom]
    by_cases he : IsEnd (src i)
    · rw [if_pos he]
    · rw [if_neg he, ih h.2, Function.update_of_ne h.1]

/-- The copy runs to an end of the source, or over all the indices. -/
theorem strncpyFrom_cases (src : Fin n → UInt8) {is : List (Fin n)} (hnd : is.Nodup)
    (dst : Fin n → UInt8) :
    (∃ out, strncpyFrom src is dst = (out, none) ∧ ∀ j ∈ is, out j = src j) ∨
      ∃ out pre i post, is = pre ++ i :: post ∧ IsEnd (src i) ∧
        strncpyFrom src is dst = (out, some i) ∧ ∀ j ∈ pre, out j = src j := by
  induction is generalizing dst with
  | nil => exact Or.inl ⟨dst, rfl, by simp⟩
  | cons i is ih =>
    obtain ⟨hi, hnd⟩ := List.nodup_cons.mp hnd
    by_cases he : IsEnd (src i)
    · exact Or.inr ⟨dst, [], i, is, rfl, he, if_pos he, by simp⟩
    · have hstep : strncpyFrom src (i :: is) dst =
          strncpyFrom src is (Function.update dst i (src i)) := if_neg he
      have hcopied := strncpyFrom_of_notMem src hi (Function.update dst i (src i))
      rw [Function.update_self] at hcopied
      rcases ih hnd (Function.update dst i (src i)) with
        ⟨out, hout, hall⟩ | ⟨out, pre, k, post, rfl, hk, hout, hpre⟩
      · rw [hout] at hcopied
        refine Or.inl ⟨out, hstep.trans hout, fun j hj => ?_⟩
        rcases List.mem_cons.mp hj with rfl | hj
        · exact hcopied
        · exact hall j hj
      · rw [hout] at hcopied
        refine Or.inr ⟨out, i :: pre, k, post, rfl, hk, hstep.trans hout, fun j hj => ?_⟩
        rcases List.mem_cons.mp hj with rfl | hj
        · exact hcopied
        · exact hpre j hj

/-- A copy compares equal to its source. -/
theorem strncmp_strncpy (dst src : Fin n → UInt8) : strncmp (strncpy dst src) src = 0 := by
  rcases strncpyFrom_cases src (List.nodup_finRange n) dst with
    ⟨out, hout, hall⟩ | ⟨out, pre, i, post, hsplit, hi, hout, hpre⟩
  · refine strncmpFrom_eq_zero fun j hj => ?_
    have hn : 0 < n := j.pos
    simp only [strncpy, hout, dif_pos hn]
    by_cases hlast : j = ⟨n - 1, by omega⟩
    · rw [hlast, Function.update_self]
      exact Or.inr (Or.inl (Or.inl rfl))
    · rw [Function.update_of_ne hlast]
      exact Or.inl (hall j hj)
  · have hnotMem : i ∉ pre := by
      have hnd := hsplit ▸ List.nodup_finRange n
      exact fun hmem => (List.nodup_append.mp hnd).2.2 i hmem i (by simp) rfl
    rw [strncmp, hsplit]
    refine strncmpFrom_of_end (fun j hj => ?_) (Or.inr hi)
    simp only [strncpy, hout]
    rw [Function.update_of_ne (fun he : j = i => hnotMem (he ▸ hj))]
    exact hpre j hj

/-- A copy into a buffer of two bytes or more keeps the first byte of a source that is not
empty. -/
theorem strncpy_zero (dst src : Fin (n + 2) → UInt8) (h : ¬ IsEnd (src 0)) :
    strncpy dst src 0 = src 0 := by
  rcases strncpyFrom_cases src (List.nodup_finRange (n + 2)) dst with
    ⟨out, hout, hall⟩ | ⟨out, pre, i, post, hsplit, hi, hout, hpre⟩
  · simp only [strncpy, hout, Nat.succ_pos, dif_pos]
    rw [Function.update_of_ne (by simp [Fin.ext_iff])]
    exact hall 0 (List.mem_finRange 0)
  · have hne : (0 : Fin (n + 2)) ≠ i := fun he => h (he ▸ hi)
    have hmem : (0 : Fin (n + 2)) ∈ pre := by
      rw [List.finRange_succ] at hsplit
      cases pre with
      | nil => exact absurd (List.cons.inj hsplit).1 hne
      | cons j pre => exact (List.cons.inj hsplit).1 ▸ List.mem_cons_self
    simp only [strncpy, hout]
    rw [Function.update_of_ne hne]
    exact hpre 0 hmem

/-! ## Strings in buffers -/

/-- The string in an array: the bytes before the first end. -/
def stringOf (buf : Fin n → UInt8) : List UInt8 :=
  ((List.finRange n).map buf).takeWhile fun b => !decide (IsEnd b)

/-- A string stops at an end, whatever is behind it. -/
theorem takeWhile_of_end {b : UInt8} (hb : IsEnd b) (xs ys : List UInt8) :
    (xs ++ b :: ys).takeWhile (fun b => !decide (IsEnd b)) =
      xs.takeWhile fun b => !decide (IsEnd b) := by
  induction xs with
  | nil => simp [hb]
  | cons x xs ih =>
    rw [List.cons_append]
    by_cases hx : IsEnd x
    · simp [hx]
    · simp [hx, ih]

/-- The first byte of an array whose string is not empty is no end. -/
theorem not_isEnd_of_stringOf {buf : Fin (n + 1) → UInt8} (h : stringOf buf ≠ []) :
    ¬ IsEnd (buf 0) := by
  intro hend
  rw [stringOf, List.finRange_succ, List.map_cons, List.takeWhile_cons_of_neg (by simp [hend])] at h
  exact h rfl

/-- The loop of `strncmp` finds no difference when one string is the beginning of the other. -/
theorem strncmpFrom_eq_zero_iff {str1 str2 : Fin n → UInt8} {is : List (Fin n)} :
    let text := fun str : Fin n → UInt8 => (is.map str).takeWhile fun b => !decide (IsEnd b)
    strncmpFrom str1 str2 is = 0 ↔ text str1 <+: text str2 ∨ text str2 <+: text str1 := by
  induction is with
  | nil => simp [strncmpFrom]
  | cons i is ih =>
    simp only [List.map_cons] at ih ⊢
    by_cases h1 : IsEnd (str1 i)
    · simp [strncmpFrom, h1]
    · by_cases h2 : IsEnd (str2 i)
      · simp [strncmpFrom, h2]
      · rw [strncmpFrom, if_neg (by simp [h1, h2]), List.takeWhile_cons_of_pos (by simp [h1]),
          List.takeWhile_cons_of_pos (by simp [h2]), List.cons_prefix_cons, List.cons_prefix_cons]
        by_cases he : str1 i = str2 i
        · rw [if_neg (not_not_intro he), ih]
          simp [he]
        · simp [he, Ne.symm he]

/-- `strncmp` takes two strings for equal exactly when one is the beginning of the other. -/
theorem strncmp_eq_zero_iff {str1 str2 : Fin n → UInt8} :
    strncmp str1 str2 = 0 ↔
      stringOf str1 <+: stringOf str2 ∨ stringOf str2 <+: stringOf str1 :=
  strncmpFrom_eq_zero_iff

/-- The copy runs over all the indices only when there is no end among them. -/
theorem not_isEnd_of_strncpyFrom {src : Fin n → UInt8} {is : List (Fin n)} {dst : Fin n → UInt8}
    (h : (strncpyFrom src is dst).2 = none) : ∀ j ∈ is, ¬ IsEnd (src j) := by
  induction is generalizing dst with
  | nil => simp
  | cons i is ih =>
    rw [strncpyFrom] at h
    split at h
    · simp at h
    · rename_i hi
      intro j hj
      rcases List.mem_cons.mp hj with rfl | hj
      · exact hi
      · exact ih h j hj

/-- `strncpy` copies a string that fits with its terminator. -/
theorem stringOf_strncpy (dst : Fin n → UInt8) {src : Fin n → UInt8}
    (h : (stringOf src).length < n) : stringOf (strncpy dst src) = stringOf src := by
  rcases strncpyFrom_cases src (List.nodup_finRange n) dst with
    ⟨out, hout, -⟩ | ⟨out, pre, i, post, hsplit, hi, hout, hpre⟩
  · have hnone := not_isEnd_of_strncpyFrom (by rw [hout])
    have hall : ∀ b ∈ (List.finRange n).map src, (!decide (IsEnd b)) = true := by
      intro b hb
      obtain ⟨j, hj, rfl⟩ := List.mem_map.mp hb
      simpa using hnone j hj
    rw [stringOf, List.takeWhile_eq_self_iff.mpr hall] at h
    simp at h
  · have hnotMem : i ∉ pre := by
      have hnd := hsplit ▸ List.nodup_finRange n
      exact fun hmem => (List.nodup_append.mp hnd).2.2 i hmem i (by simp) rfl
    have hcopy : strncpy dst src = Function.update out i 0 := by
      simp only [strncpy, hout]
    have hmap : pre.map (Function.update out i 0) = pre.map src := by
      apply List.map_congr_left
      intro j hj
      rw [Function.update_of_ne (fun he : j = i => hnotMem (he ▸ hj))]
      exact hpre j hj
    have hzero : IsEnd (Function.update out i 0 i) := by
      rw [Function.update_self]
      exact Or.inl rfl
    rw [stringOf, stringOf, hcopy, hsplit, List.map_append, List.map_append, List.map_cons,
      List.map_cons, takeWhile_of_end hzero, takeWhile_of_end hi, hmap]

end NaiveGfs
