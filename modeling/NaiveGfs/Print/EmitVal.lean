import NaiveGfs.Words.Numeral
import Mathlib.Data.UInt

/-!
# `emit_val`

`emit_val` prints a 32-bit number in base 2, 10 or 16. A first loop stores the digits in `num`,
last digit first, and a second one empties `num` from behind. `printk.c` and `sprintk.c` hold
the same text of it and differ in `putchar`, the primitive that emits a byte, so that `putchar`
and the state it works on are parameters here.
-/

namespace NaiveGfs

open Numeral

variable {σ : Type*} {digits : List UInt8} {base u : UInt32}

/-- The characters that `emit_val` takes its digits from, in the bases that it knows. -/
def digitTable (base : UInt32) : Option (List UInt8) :=
  if base = 2 then some [0x30, 0x31]
  else if base = 10 then some [0x30, 0x31, 0x32, 0x33, 0x34, 0x35, 0x36, 0x37, 0x38, 0x39]
  else if base = 16 then
    some [0x30, 0x31, 0x32, 0x33, 0x34, 0x35, 0x36, 0x37, 0x38, 0x39, 0x61, 0x62, 0x63, 0x64,
      0x65, 0x66]
  else none

/-- The size of `num`. -/
def numSize : ℕ := 33

/-- The loop that stores the digits behind those in `num`. A store for which `num` has no room
any more is an overflow. -/
def storeDigits (digits : List UInt8) (base : UInt32) :
    ℕ → UInt32 → List UInt8 → Option (List UInt8)
  | 0, _, _ => none
  | room + 1, u, num =>
    let num := num ++ [digits.getD (u % base).toNat 0]
    if u / base = 0 then some num else storeDigits digits base room (u / base) num

/-- The loop that emits the first `p` bytes of `num` backwards. -/
def emitBackwards (putchar : σ → UInt8 → σ) (num : List UInt8) : ℕ → σ → σ
  | 0, s => s
  | p + 1, s => emitBackwards putchar num p (putchar s (num.getD p 0))

/-- `putchar` of `printk.c`: one more byte is sent behind those that were sent so far. -/
def uartPutchar (sent : List UInt8) (c : UInt8) : List UInt8 := sent ++ [c]

/-- `emit_val`. -/
def emitVal (putchar : σ → UInt8 → σ) (base u : UInt32) (s : σ) : Option σ :=
  match digitTable base with
  | none => some s
  | some digits =>
    (storeDigits digits base numSize u []).map fun num =>
      emitBackwards putchar num num.length s

/-! ## The two loops -/

theorem emitBackwards_eq (putchar : σ → UInt8 → σ) (num : List UInt8) {p : ℕ}
    (h : p ≤ num.length) (s : σ) :
    emitBackwards putchar num p s = (num.take p).reverse.foldl putchar s := by
  induction p generalizing s with
  | zero => rfl
  | succ p ih =>
    have htake : num.take (p + 1) = num.take p ++ [num.getD p 0] := by
      rw [List.take_succ_eq_append_getElem h, List.getD_eq_getElem?_getD,
        List.getElem?_eq_getElem h]
      rfl
    rw [emitBackwards, ih (by omega), htake, List.reverse_append]
    rfl

/-- The characters of a base stand for its digits. -/
structure IsDigitTable (digits : List UInt8) (base : UInt32) : Prop where
  one_lt : 1 < base.toNat
  digit_getD : ∀ d < base.toNat, digit (digits.getD d 0) = some d

theorem isDigitTable (h : digitTable base = some digits) : IsDigitTable digits base := by
  rw [digitTable] at h
  split_ifs at h with h₂ h₁₀ h₁₆ <;> obtain rfl := Option.some.inj h <;> subst base
  all_goals exact ⟨by decide, by decide⟩

/-- The loop stores the numeral of the number, backwards. There is room for it when `num` has
room for as many digits as the largest number has. -/
theorem storeDigits_eq (h : IsDigitTable digits base) {k room : ℕ}
    (hu : u.toNat < base.toNat ^ (k + 1)) (hroom : k < room) (num : List UInt8) :
    ∃ ds, storeDigits digits base room u num = some (num ++ ds) ∧ ds.length ≤ k + 1 ∧
      IsNumeral base.toNat u.toNat ds.reverse := by
  have hbase := h.one_lt
  induction room generalizing u k num with
  | zero => exact absurd hroom (Nat.not_lt_zero k)
  | succ room ih =>
    have hdiv : (u / base).toNat = u.toNat / base.toNat := UInt32.toNat_div u base
    have hlt : u.toNat % base.toNat < base.toNat := Nat.mod_lt _ (by omega)
    have hdigit := h.digit_getD _ hlt
    rw [storeDigits, UInt32.toNat_mod]
    by_cases hq : u / base = 0
    · have hsmall : u.toNat % base.toNat = u.toNat := by
        rw [hq] at hdiv
        exact Nat.mod_eq_of_lt ((Nat.div_eq_zero_iff_lt (by omega)).mp hdiv.symm)
      rw [hsmall] at hdigit hlt ⊢
      exact ⟨[_], if_pos hq, by simp, IsNumeral.single hdigit hlt⟩
    · have hne : (u / base).toNat ≠ 0 := fun h0 => hq (UInt32.toNat_inj.mp h0)
      obtain ⟨k, rfl⟩ : ∃ j, k = j + 1 := by
        apply Nat.exists_eq_succ_of_ne_zero
        rintro rfl
        rw [hdiv, Nat.div_eq_of_lt (by simpa using hu)] at hne
        exact hne rfl
      have hquot : (u / base).toNat < base.toNat ^ (k + 1) := by
        rw [hdiv]
        exact Nat.div_lt_of_lt_mul (by rwa [pow_succ'] at hu)
      obtain ⟨ds, hds, hlen, hnumeral⟩ := ih hquot (by omega)
        (num ++ [digits.getD (u.toNat % base.toNat) 0])
      refine ⟨digits.getD (u.toNat % base.toNat) 0 :: ds, ?_, by simpa using hlen, ?_⟩
      · rw [if_neg hq, hds, List.append_assoc]
        rfl
      · have hconcat := hnumeral.concat hne hdigit hlt
        rwa [hdiv, Nat.div_add_mod', ← List.reverse_cons] at hconcat

/-! ## What is emitted -/

@[simp] theorem foldl_uartPutchar (text sent : List UInt8) :
    text.foldl uartPutchar sent = sent ++ text := by
  induction text generalizing sent with
  | nil => exact (List.append_nil sent).symm
  | cons c text ih =>
    rw [List.foldl_cons, ih, uartPutchar, List.append_assoc, List.singleton_append]

/-- The digits that `emit_val` stores in one base fit `num`, and their reverse, the numeral of
the number, is what it sends. -/
structure SendsNumeral (digits : List UInt8) (base u : UInt32) (num : List UInt8) : Prop where
  table : digitTable base = some digits
  stored : storeDigits digits base numSize u [] = some num
  length_le : num.length ≤ 32
  isNumeral : IsNumeral base.toNat u.toNat num.reverse
  emitted : ∀ sent, emitVal uartPutchar base u sent = some (sent ++ num.reverse)

theorem emitVal_spec (h : digitTable base = some digits) (u : UInt32) :
    ∃ num, SendsNumeral digits base u num := by
  have htable := isDigitTable h
  have hu : u.toNat < base.toNat ^ (31 + 1) :=
    lt_of_lt_of_le u.toNat_lt (Nat.pow_le_pow_left htable.one_lt 32)
  obtain ⟨num, hnum, hlen, hnumeral⟩ := storeDigits_eq htable hu (by decide : 31 < numSize) []
  rw [List.nil_append] at hnum
  refine ⟨num, h, hnum, hlen, hnumeral, fun sent => ?_⟩
  rw [emitVal, h]
  show (storeDigits digits base numSize u []).map _ = _
  rw [hnum, Option.map_some, emitBackwards_eq _ num le_rfl, List.take_length, foldl_uartPutchar]

/-! ## Another primitive -/

section Hom

variable {τ : Type*} {put : σ → UInt8 → σ} {put' : τ → UInt8 → τ} {h : σ → τ}

theorem emitBackwards_hom (hput : ∀ s c, h (put s c) = put' (h s) c) (num : List UInt8) (p : ℕ)
    (s : σ) : emitBackwards put' num p (h s) = h (emitBackwards put num p s) := by
  induction p generalizing s with
  | zero => rfl
  | succ p ih => rw [emitBackwards, emitBackwards, ← hput, ih]

/-- A map that carries one primitive over to another carries `emit_val` over. -/
theorem emitVal_hom (hput : ∀ s c, h (put s c) = put' (h s) c) (base u : UInt32) (s : σ) :
    emitVal put' base u (h s) = (emitVal put base u s).map h := by
  rw [emitVal, emitVal]
  cases digitTable base with
  | none => rfl
  | some digits =>
    show Option.map _ _ = Option.map _ (Option.map _ _)
    rw [Option.map_map]
    congr 1
    funext num
    exact emitBackwards_hom hput num num.length s

end Hom

end NaiveGfs
