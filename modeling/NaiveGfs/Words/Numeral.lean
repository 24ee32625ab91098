import Mathlib.Data.List.Basic
import Mathlib.Data.List.Induction
import Mathlib.Tactic.Ring

/-!
# Numerals

Numbers written with ASCII digits, most significant digit first, in a base of at most 16. A
numeral is specified by how it is read: `Reads` says that the characters denote a number, and
`IsNumeral` that they do so without a leading zero.
-/

namespace Numeral

variable {b n m : ℕ} {c : UInt8} {text text' : List UInt8}

/-- The digit that a character stands for, `0` to `9` and `a` to `f`. -/
def digit (c : UInt8) : Option ℕ :=
  if 0x30 ≤ c.toNat ∧ c.toNat ≤ 0x39 then some (c.toNat - 0x30)
  else if 0x61 ≤ c.toNat ∧ c.toNat ≤ 0x66 then some (c.toNat - 0x57)
  else none

/-- Read one more digit of a number. -/
def readDigit (b n : ℕ) (c : UInt8) : Option ℕ :=
  (digit c).bind fun d => if d < b then some (n * b + d) else none

/-- Read a number, most significant digit first. -/
def read (b : ℕ) (text : List UInt8) : Option ℕ := text.foldlM (readDigit b) 0

/-- The numeral of a number: it is read as the number, and begins with a zero only when it is
the zero. -/
structure IsNumeral (b n : ℕ) (text : List UInt8) : Prop where
  reads : read b text = some n
  nonempty : text ≠ []
  leading : text.head? = some 0x30 → text = [0x30]

/-! ## Reading -/

theorem digit_eq_zero_iff : digit c = some 0 ↔ c = 0x30 := by
  constructor
  · intro h
    apply UInt8.toNat_inj.mp
    show c.toNat = 48
    rw [digit] at h
    split at h
    · rw [Option.some.injEq] at h
      omega
    · split at h
      · rw [Option.some.injEq] at h
        omega
      · simp at h
  · rintro rfl
    rfl

theorem readDigit_eq_some_iff {k : ℕ} :
    readDigit b n c = some k ↔ ∃ d, digit c = some d ∧ d < b ∧ k = n * b + d := by
  rw [readDigit, Option.bind_eq_some_iff]
  refine exists_congr fun d => and_congr_right fun _ => ?_
  constructor
  · intro h
    split at h
    · rename_i hd
      exact ⟨hd, (Option.some.inj h).symm⟩
    · simp at h
  · rintro ⟨hd, rfl⟩
    exact if_pos hd

theorem read_concat (b : ℕ) (text : List UInt8) (c : UInt8) :
    read b (text ++ [c]) = (read b text).bind fun n => readDigit b n c := by
  rw [read, List.foldlM_append]
  show (read b text).bind _ = _
  congr 1
  funext n
  rw [List.foldlM_cons]
  exact bind_pure _

theorem read_singleton (b : ℕ) (c : UInt8) : read b [c] = readDigit b 0 c := by
  rw [read, List.foldlM_cons]
  exact bind_pure _

/-- Digits that are read behind others add the number they are read as on their own. -/
theorem read_append (hleft : read b text = some n) (hright : read b text' = some m) :
    read b (text ++ text') = some (n * b ^ text'.length + m) := by
  induction text' using List.reverseRecOn generalizing m with
  | nil =>
    obtain rfl : 0 = m := Option.some.inj hright
    simpa using hleft
  | append_singleton text' c ih =>
    rw [read_concat, Option.bind_eq_some_iff] at hright
    obtain ⟨k, hk, hc⟩ := hright
    obtain ⟨d, hdigit, hd, rfl⟩ := readDigit_eq_some_iff.mp hc
    rw [← List.append_assoc, read_concat, ih hk]
    show readDigit b _ c = _
    rw [readDigit_eq_some_iff]
    refine ⟨d, hdigit, hd, ?_⟩
    rw [List.length_append, List.length_singleton, pow_succ]
    ring

/-- A number is smaller than the power of the base with as many digits. -/
theorem lt_of_read (h : read b text = some n) : n < b ^ text.length := by
  induction text using List.reverseRecOn generalizing n with
  | nil =>
    obtain rfl : 0 = n := Option.some.inj h
    simp
  | append_singleton text c ih =>
    rw [read_concat, Option.bind_eq_some_iff] at h
    obtain ⟨k, hk, hc⟩ := h
    obtain ⟨d, -, hd, rfl⟩ := readDigit_eq_some_iff.mp hc
    have hlt := ih hk
    rw [List.length_append, List.length_singleton, pow_succ]
    calc k * b + d < k * b + b := by omega
      _ = (k + 1) * b := by ring
      _ ≤ b ^ text.length * b := Nat.mul_le_mul_right b hlt

/-- Without a leading zero a number is at least the power of the base with one digit less. -/
theorem pow_le_of_read (h : read b text = some n) (hne : text ≠ [])
    (hhead : text.head? ≠ some 0x30) : b ^ (text.length - 1) ≤ n := by
  induction text using List.reverseRecOn generalizing n with
  | nil => exact absurd rfl hne
  | append_singleton text c ih =>
    rw [read_concat, Option.bind_eq_some_iff] at h
    obtain ⟨k, hk, hc⟩ := h
    obtain ⟨d, hdigit, -, rfl⟩ := readDigit_eq_some_iff.mp hc
    rw [List.length_append, List.length_singleton, Nat.add_sub_cancel]
    by_cases hnil : text = []
    · subst hnil
      have hd : d ≠ 0 := by
        rintro rfl
        exact hhead (congrArg some (digit_eq_zero_iff.mp hdigit))
      show 1 ≤ _
      omega
    · rw [List.head?_append_of_ne_nil _ hnil] at hhead
      have hle := ih hk hnil hhead
      obtain ⟨l, hl⟩ : ∃ l, text.length = l + 1 :=
        ⟨_, (Nat.sub_add_cancel (List.length_pos_of_ne_nil hnil)).symm⟩
      rw [hl, Nat.add_sub_cancel] at hle
      rw [hl, pow_succ]
      exact (Nat.mul_le_mul_right b hle).trans (Nat.le_add_right _ d)

/-! ## Numerals -/

/-- A single digit is a numeral. -/
theorem IsNumeral.single {d : ℕ} (hdigit : digit c = some d) (hd : d < b) :
    IsNumeral b d [c] where
  reads := by
    rw [read_singleton, readDigit_eq_some_iff]
    exact ⟨d, hdigit, hd, by omega⟩
  nonempty := List.cons_ne_nil c []
  leading h := by rw [Option.some.inj h]

/-- Only the numeral of zero begins with a zero. -/
theorem IsNumeral.head_ne (h : IsNumeral b n text) (hn : n ≠ 0) : text.head? ≠ some 0x30 := by
  intro hhead
  have hreads := h.reads
  rw [h.leading hhead, read_singleton, readDigit_eq_some_iff] at hreads
  obtain ⟨d, hdigit, -, rfl⟩ := hreads
  rw [digit_eq_zero_iff.mpr rfl, Option.some.injEq] at hdigit
  omega

/-- Digits behind the numeral of a number that is not zero. -/
theorem IsNumeral.append (h : IsNumeral b n text) (hn : n ≠ 0) (hright : read b text' = some m) :
    IsNumeral b (n * b ^ text'.length + m) (text ++ text') where
  reads := read_append h.reads hright
  nonempty := List.append_ne_nil_of_left_ne_nil h.nonempty text'
  leading hhead := by
    rw [List.head?_append_of_ne_nil _ h.nonempty] at hhead
    exact absurd hhead (h.head_ne hn)

/-- One more digit behind the numeral of a number that is not zero. -/
theorem IsNumeral.concat {d : ℕ} (h : IsNumeral b n text) (hn : n ≠ 0) (hdigit : digit c = some d)
    (hd : d < b) : IsNumeral b (n * b + d) (text ++ [c]) := by
  have hone := h.append hn (IsNumeral.single hdigit hd).reads
  rwa [List.length_singleton, pow_one] at hone

/-- A numeral of several digits begins with another one than zero. -/
theorem IsNumeral.head_ne_of_length (h : IsNumeral b n text) (hlen : text.length ≠ 1) :
    text.head? ≠ some 0x30 := by
  intro hhead
  rw [h.leading hhead] at hlen
  exact hlen rfl

/-- The number of digits, for numbers of more than one. -/
theorem IsNumeral.length_iff {k : ℕ} (h : IsNumeral b n text) (hb : 1 < b) (hk : k ≠ 0) :
    text.length = k + 1 ↔ b ^ k ≤ n ∧ n < b ^ (k + 1) := by
  have hhigh := lt_of_read h.reads
  constructor
  · intro hlen
    have hlow := pow_le_of_read h.reads h.nonempty (h.head_ne_of_length (by omega))
    rw [hlen, Nat.add_sub_cancel] at hlow
    rw [hlen] at hhigh
    exact ⟨hlow, hhigh⟩
  · rintro ⟨hle, hlt⟩
    have hn : n ≠ 0 := (lt_of_lt_of_le (Nat.pow_pos (by omega)) hle).ne'
    have hlow := pow_le_of_read h.reads h.nonempty (h.head_ne hn)
    have hpos := List.length_pos_of_ne_nil h.nonempty
    have hk := (Nat.pow_lt_pow_iff_right hb).mp (lt_of_le_of_lt hle hhigh)
    have hl := (Nat.pow_lt_pow_iff_right hb).mp (lt_of_le_of_lt hlow hlt)
    omega

end Numeral
