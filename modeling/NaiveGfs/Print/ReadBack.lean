import NaiveGfs.Print.Vprintk

/-!
# Reading numbers back

`emit_val` sends the numeral of every 32-bit number, and `%d` the numeral of every `int` with its
sign. `%llx` sends one numeral for each half of a number, so that the digits behind `0x` are those
of the number exactly when the low half takes all of its eight digits, or the high half is zero
and left out.
-/

namespace NaiveGfs

open Numeral

variable {conv : Conversion} {arg : Arg} {text : List UInt8} {base u : UInt32} {x : UInt64}

/-- A format that begins with a conversion. -/
def Conversion.before (conv : Conversion) (fmt : CString) : CString where
  bytes := 0x25 :: (conv.letters ++ fmt.bytes)
  noNul := by
    cases conv <;> simp [Conversion.letters, fmt.noNul]

/-- The text that `vprintk` sends for a conversion, wherever in a format it stands. -/
def Emits (conv : Conversion) (arg : Arg) (text : List UInt8) : Prop :=
  ∀ fmt args sent, vprintk (conv.before fmt) (arg :: args) sent = vprintk fmt args (sent ++ text)

theorem emits_of_convert (h : convert uartPutchar conv arg [] = some text) :
    Emits conv arg text := by
  intro fmt args sent
  rw [vprintk, Conversion.before, vformat_conversion, takeArg, convert_append, h]
  rfl

theorem Emits.unique {text' : List UInt8} (h : Emits conv arg text) (h' : Emits conv arg text') :
    text = text' := by
  have heq := (h ⟨[], by simp⟩ [] []).symm.trans (h' ⟨[], by simp⟩ [] [])
  simpa [vprintk, vformat] using heq

/-! ## `emit_val` and `%d` -/

/-- In a base that it knows `emit_val` sends the numeral of a number, from the at most 32 digits
that it stores. -/
def Exact (base u : UInt32) : Prop := ∃ digits num, SendsNumeral digits base u num

/-- The decimal numeral of a number with its sign. -/
def IsDecimal (v : ℤ) (text : List UInt8) : Prop :=
  ∃ num, IsNumeral 10 v.natAbs num ∧ text = if v < 0 then 0x2d :: num else num

theorem exact_two (u : UInt32) : Exact 2 u := ⟨_, emitVal_spec rfl u⟩

theorem exact_ten (u : UInt32) : Exact 10 u := ⟨_, emitVal_spec rfl u⟩

theorem exact_sixteen (u : UInt32) : Exact 16 u := ⟨_, emitVal_spec rfl u⟩

/-- An `int` and the word that holds it. -/
theorem toInt_eq_toUInt32 (v : Int32) :
    v.toInt = if 2 * v.toUInt32.toNat < 2 ^ 32 then (v.toUInt32.toNat : ℤ)
      else v.toUInt32.toNat - 2 ^ 32 := by
  rw [← Int32.toInt_toBitVec, BitVec.toInt_eq_toNat_cond]
  rfl

theorem toNat_toUInt32 {v : Int32} (h : ¬ v < 0) : v.toUInt32.toNat = v.toInt.natAbs := by
  have hv := toInt_eq_toUInt32 v
  have hlt := v.toUInt32.toNat_lt
  rw [Int32.lt_iff_toInt_lt, Int32.toInt_zero] at h
  split_ifs at hv <;> omega

/-- What `v = -v` leaves of a negative number, the most negative one included. -/
theorem toNat_toUInt32_neg {v : Int32} (h : v < 0) : (-v).toUInt32.toNat = v.toInt.natAbs := by
  have hv := toInt_eq_toUInt32 v
  have hlt := v.toUInt32.toNat_lt
  rw [Int32.lt_iff_toInt_lt, Int32.toInt_zero] at h
  rw [Int32.toUInt32_neg, UInt32.toNat_neg]
  have hsize : UInt32.size = 2 ^ 32 := rfl
  split_ifs at hv with hsmall
  · omega
  · rw [hsize, Nat.mod_eq_of_lt (by omega)]
    omega

theorem emits_d (v : Int32) :
    ∃ text, Emits .d (.word v.toUInt32) text ∧ IsDecimal v.toInt text := by
  have hd : convert uartPutchar .d (.word v.toUInt32) [] =
      if v < 0 then emitVal uartPutchar 10 (-v).toUInt32 [0x2d]
      else emitVal uartPutchar 10 v.toUInt32 [] := by
    rw [convert, Int32.toInt32_toUInt32]
    rfl
  by_cases hneg : v < 0
  · obtain ⟨digits, num, hnum⟩ := exact_ten (-v).toUInt32
    have hnumeral := hnum.isNumeral
    rw [toNat_toUInt32_neg hneg] at hnumeral
    refine ⟨0x2d :: num.reverse, emits_of_convert ?_, num.reverse, hnumeral, ?_⟩
    · rw [hd, if_pos hneg, hnum.emitted]
      rfl
    · exact (if_pos (Int32.lt_iff_toInt_lt.mp hneg)).symm
  · obtain ⟨digits, num, hnum⟩ := exact_ten v.toUInt32
    have hnumeral := hnum.isNumeral
    rw [toNat_toUInt32 hneg] at hnumeral
    refine ⟨num.reverse, emits_of_convert ?_, num.reverse, hnumeral, ?_⟩
    · rw [hd, if_neg hneg, hnum.emitted, List.nil_append]
    · exact (if_neg (mt Int32.lt_iff_toInt_lt.mpr hneg)).symm

/-- `emit_val` sends the numeral of every number in each of its bases, from at most 32 digits in
`num`, and `%d` the numeral of every `int` with its sign. -/
theorem emitVal_exact :
    (∀ u, Exact 2 u ∧ Exact 10 u ∧ Exact 16 u) ∧
      ∀ v : Int32, ∃ text, Emits .d (.word v.toUInt32) text ∧ IsDecimal v.toInt text :=
  ⟨fun u => ⟨exact_two u, exact_ten u, exact_sixteen u⟩, emits_d⟩

/-! ## `%llx` -/

/-- The text of `%llx` is `0x` and the hexadecimal numeral of the number. -/
def PrintsExactly (x : UInt64) : Prop :=
  ∃ digits, Emits .llx (.wide x) (0x30 :: 0x78 :: digits) ∧ IsNumeral 16 x.toNat digits

/-- The low half of a number takes all of its eight digits, or it is all that is printed. -/
def FullLowHalf (x : UInt64) : Prop := x.toNat < 2 ^ 32 ∨ 2 ^ 28 ≤ x.toNat % 2 ^ 32

/-- The high half of a number. -/
theorem toNat_hi (x : UInt64) : (x >>> 32).toUInt32.toNat = x.toNat / 2 ^ 32 := by
  have hlt := x.toNat_lt
  rw [UInt64.toNat_toUInt32, UInt64.toNat_shiftRight, Nat.shiftRight_eq_div_pow]
  exact Nat.mod_eq_of_lt (by show x.toNat / 2 ^ 32 < _; omega)

/-- A number with nothing in its high half is printed as its low half. -/
theorem printsExactly_of_lt (h : x.toNat < 2 ^ 32) : PrintsExactly x := by
  have hhi : (x >>> 32).toUInt32 = 0 := by
    apply UInt32.toNat_inj.mp
    rw [toNat_hi]
    exact Nat.div_eq_of_lt h
  obtain ⟨_, lo, hlo⟩ := exact_sixteen x.toUInt32
  have hnumeral := hlo.isNumeral
  rw [UInt64.toNat_toUInt32, Nat.mod_eq_of_lt h] at hnumeral
  refine ⟨lo.reverse, emits_of_convert ?_, hnumeral⟩
  rw [convert, if_pos hhi, Option.bind_some, hlo.emitted]
  rfl

/-- The text of a number with something in its high half. -/
theorem emits_llx (h : 2 ^ 32 ≤ x.toNat) :
    ∃ hi lo, Emits .llx (.wide x) (0x30 :: 0x78 :: (hi ++ lo)) ∧
      IsNumeral 16 (x.toNat / 2 ^ 32) hi ∧ IsNumeral 16 (x.toNat % 2 ^ 32) lo := by
  have hhi : (x >>> 32).toUInt32 ≠ 0 := by
    intro h0
    have hdiv := toNat_hi x
    rw [h0, eq_comm] at hdiv
    exact absurd ((Nat.div_eq_zero_iff_lt (by decide)).mp hdiv) (by omega)
  obtain ⟨_, hi, hhinum⟩ := exact_sixteen (x >>> 32).toUInt32
  obtain ⟨_, lo, hlonum⟩ := exact_sixteen x.toUInt32
  have hhiread := hhinum.isNumeral
  have hloread := hlonum.isNumeral
  rw [toNat_hi] at hhiread
  rw [UInt64.toNat_toUInt32] at hloread
  refine ⟨hi.reverse, lo.reverse, emits_of_convert ?_, hhiread, hloread⟩
  rw [convert, if_neg hhi, hhinum.emitted, Option.bind_some, hlonum.emitted, List.append_assoc]
  rfl

/-- Behind a high half that is not zero the low half has to take eight digits. -/
theorem numeral_halves_iff {hi lo : List UInt8} (h : 2 ^ 32 ≤ x.toNat)
    (hhi : IsNumeral 16 (x.toNat / 2 ^ 32) hi) (hlo : IsNumeral 16 (x.toNat % 2 ^ 32) lo) :
    IsNumeral 16 x.toNat (hi ++ lo) ↔ 2 ^ 28 ≤ x.toNat % 2 ^ 32 := by
  have hne : x.toNat / 2 ^ 32 ≠ 0 := by omega
  have happend := hhi.append hne hlo.reads
  have hsplit : x.toNat / 2 ^ 32 * 16 ^ 8 + x.toNat % 2 ^ 32 = x.toNat :=
    Nat.div_add_mod' x.toNat (2 ^ 32)
  have height := hlo.length_iff (k := 7) (by decide) (by decide)
  constructor
  · intro hwhole
    have hvalue : x.toNat = x.toNat / 2 ^ 32 * 16 ^ lo.length + x.toNat % 2 ^ 32 :=
      Option.some.inj (hwhole.reads.symm.trans happend.reads)
    have hpow : 16 ^ lo.length = 16 ^ 8 :=
      Nat.eq_of_mul_eq_mul_left (Nat.pos_of_ne_zero hne) (by omega)
    exact (height.mp (Nat.pow_right_injective (by decide) hpow)).1
  · intro hle
    rw [height.mpr ⟨hle, Nat.mod_lt _ (by decide)⟩, hsplit] at happend
    exact happend

theorem printsExactly_iff (x : UInt64) : PrintsExactly x ↔ FullLowHalf x := by
  by_cases h : x.toNat < 2 ^ 32
  · exact iff_of_true (printsExactly_of_lt h) (Or.inl h)
  · obtain ⟨hi, lo, htext, hhi, hlo⟩ := emits_llx (Nat.not_lt.mp h)
    have hiff := numeral_halves_iff (Nat.not_lt.mp h) hhi hlo
    constructor
    · rintro ⟨digits, hdigits, hnumeral⟩
      have heq := hdigits.unique htext
      injection heq with _ heq
      injection heq with _ heq
      subst heq
      exact Or.inr (hiff.mp hnumeral)
    · intro hfull
      exact ⟨hi ++ lo, htext, hiff.mpr (hfull.resolve_left h)⟩

/-- Two numbers that are printed exactly and alike are the same. -/
theorem PrintsExactly.injective {y : UInt64} (hx : PrintsExactly x) (hy : PrintsExactly y)
    (htext : Emits .llx (.wide x) text) (htext' : Emits .llx (.wide y) text) : x = y := by
  obtain ⟨digits, hdigits, hnumeral⟩ := hx
  obtain ⟨digits', hdigits', hnumeral'⟩ := hy
  have heq := (hdigits.unique htext).trans (htext'.unique hdigits')
  injection heq with _ heq
  injection heq with _ heq
  subst heq
  exact UInt64.toNat_inj.mp (Option.some.inj (hnumeral.reads.symm.trans hnumeral'.reads))

/-- The text of `%llx` is read back as the number exactly when the low half of the number takes
all of its digits, or the high half is left out, and such numbers have texts of their own. -/
theorem llx_readBack (x : UInt64) :
    (PrintsExactly x ↔ FullLowHalf x) ∧
      ∀ y text text', FullLowHalf x → FullLowHalf y → Emits .llx (.wide x) text →
        Emits .llx (.wide y) text' → x ≠ y → text ≠ text' := by
  refine ⟨printsExactly_iff x, ?_⟩
  rintro y text _ hx hy htext htext' hne rfl
  exact hne (((printsExactly_iff x).mpr hx).injective ((printsExactly_iff y).mpr hy) htext htext')

theorem llx_readBack_wide :
    PrintsExactly 0x110000000 ∧ ∀ text text', Emits .llx (.wide 0x110000000) text →
      Emits .llx (.wide 0x120000000) text' → text ≠ text' := by
  have hfull : FullLowHalf 0x110000000 := Or.inr (by decide)
  have hfull' : FullLowHalf 0x120000000 := Or.inr (by decide)
  refine ⟨(llx_readBack 0x110000000).1.mpr hfull, fun text text' htext htext' => ?_⟩
  exact (llx_readBack 0x110000000).2 _ _ _ hfull hfull' htext htext' (by decide)

/-- 0x100000001 is printed as 0x11, which is also the text of 0x11. -/
theorem llx_collision :
    ¬ PrintsExactly 0x100000001 ∧
      Emits .llx (.wide 0x100000001) [0x30, 0x78, 0x31, 0x31] ∧
      Emits .llx (.wide 0x11) [0x30, 0x78, 0x31, 0x31] := by
  refine ⟨?_, emits_of_convert (by decide), emits_of_convert (by decide)⟩
  rw [printsExactly_iff, FullLowHalf]
  decide

end NaiveGfs
