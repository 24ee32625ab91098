import Mathlib.Algebra.CharP.Two
import Mathlib.Algebra.Field.ZMod
import Mathlib.Algebra.Polynomial.Div
import Mathlib.RingTheory.Polynomial.Basic

/-!
# Cyclic redundancy checks

A register of `w` bits takes in a message bit by bit. Each bit is added to the lowest place,
the register is shifted to the right, and when a one falls out the generator is added. Read
as a polynomial over the field with two elements, lowest place first, the register then holds
the remainder of the message (`toPoly_run`), and messages that differ in a few neighbouring
bits only have different remainders (`run_ne_of_burst`).
-/

namespace Crc

open Polynomial

variable {w : ℕ}

/-- One shift of the register. -/
def shift (gen r : BitVec w) : BitVec w :=
  if r.getLsbD 0 then (r >>> 1) ^^^ gen else r >>> 1

/-- A register with nothing but its lowest place set, or with nothing at all. -/
def lowBit (b : Bool) : BitVec w := (BitVec.ofBool b).setWidth w

/-- Take in one bit of a message. -/
def feed (gen r : BitVec w) (b : Bool) : BitVec w := shift gen (r ^^^ lowBit b)

/-- Take in a message, first bit first. -/
def run (gen r : BitVec w) (bits : List Bool) : BitVec w := bits.foldl (feed gen) r

theorem run_append (gen r : BitVec w) (xs ys : List Bool) :
    run gen r (xs ++ ys) = run gen (run gen r xs) ys :=
  List.foldl_append

/-! ## Registers as polynomials -/

/-- A bit as an element of the field with two elements. -/
def bit (b : Bool) : ZMod 2 := if b then 1 else 0

/-- Place `i` of the register is the coefficient of `X ^ (w - 1 - i)`. -/
noncomputable def toPoly (r : BitVec w) : (ZMod 2)[X] :=
  ∑ i ∈ Finset.range w, C (bit (r.getLsbD i)) * X ^ (w - 1 - i)

/-- The generator with its leading term, which no register has room for. -/
noncomputable def genPoly (gen : BitVec w) : (ZMod 2)[X] := X ^ w + toPoly gen

/-- A message, first bit first. -/
noncomputable def ofBits (bits : List Bool) : (ZMod 2)[X] :=
  bits.foldl (fun p b => p * X + C (bit b)) 0

@[simp] theorem bit_false : bit false = 0 := rfl

@[simp] theorem bit_true : bit true = 1 := rfl

theorem bit_xor (a b : Bool) : bit (a ^^ b) = bit a + bit b := by
  cases a <;> cases b <;> decide

theorem bit_injective {a b : Bool} (h : bit a = bit b) : a = b := by
  revert a b
  decide

theorem degree_toPoly_lt (r : BitVec w) : (toPoly r).degree < w := by
  rw [← mem_degreeLT]
  refine Submodule.sum_mem _ fun i hi => ?_
  rw [mem_degreeLT]
  have hlt := Finset.mem_range.mp hi
  refine lt_of_le_of_lt (degree_C_mul_X_pow_le _ _) ?_
  exact_mod_cast (by omega : w - 1 - i < w)

theorem coeff_toPoly (r : BitVec w) {i : ℕ} (hi : i < w) :
    (toPoly r).coeff (w - 1 - i) = bit (r.getLsbD i) := by
  rw [toPoly, finsetSum_coeff, Finset.sum_eq_single_of_mem i (Finset.mem_range.mpr hi)]
  · rw [coeff_C_mul_X_pow, if_pos rfl]
  · intro j hj hne
    have hlt := Finset.mem_range.mp hj
    rw [coeff_C_mul_X_pow, if_neg (by omega)]

/-- Different registers are different polynomials. -/
theorem toPoly_injective {r s : BitVec w} (h : toPoly r = toPoly s) : r = s := by
  apply BitVec.eq_of_getLsbD_eq
  intro i hi
  have hcoeff := congrArg (fun p => p.coeff (w - 1 - i)) h
  simp only [coeff_toPoly _ hi] at hcoeff
  exact bit_injective hcoeff

theorem toPoly_xor (r s : BitVec w) : toPoly (r ^^^ s) = toPoly r + toPoly s := by
  simp only [toPoly, BitVec.getLsbD_xor, bit_xor, C_add, add_mul, Finset.sum_add_distrib]

/-- What a shift to the right does, apart from the place that falls out. -/
theorem X_mul_toPoly (r : BitVec w) :
    X * toPoly r = toPoly (r >>> 1) + C (bit (r.getLsbD 0)) * X ^ w := by
  cases w with
  | zero => simp [toPoly]
  | succ n =>
    have hout : r.getLsbD (1 + n) = false := BitVec.getLsbD_of_ge r (1 + n) (by omega)
    rw [toPoly, Finset.sum_range_succ', toPoly, Finset.sum_range_succ]
    simp only [BitVec.getLsbD_ushiftRight, hout, bit_false, C_0, zero_mul, add_zero,
      Nat.add_sub_cancel, Nat.sub_zero]
    rw [mul_add, Finset.mul_sum]
    congr 1
    · refine Finset.sum_congr rfl fun i hi => ?_
      have hlt := Finset.mem_range.mp hi
      rw [Nat.add_comm 1 i, show n - i = n - (i + 1) + 1 by omega, pow_succ]
      ring
    · rw [pow_succ]
      ring

/-- A shift multiplies by `X` and takes off the generator when a one falls out. -/
theorem toPoly_shift (gen r : BitVec w) :
    toPoly (shift gen r) = X * toPoly r + C (bit (r.getLsbD 0)) * genPoly gen := by
  have htwo : ∀ p : (ZMod 2)[X], p + p = 0 := CharTwo.add_self_eq_zero
  rw [X_mul_toPoly, shift, genPoly]
  cases r.getLsbD 0 with
  | false => simp
  | true =>
    simp only [if_true, bit_true, C_1, one_mul]
    rw [toPoly_xor, ← add_assoc, add_assoc (toPoly (r >>> 1)), htwo, add_zero]

theorem X_mul_toPoly_lowBit (hw : 0 < w) (b : Bool) :
    X * toPoly (lowBit b : BitVec w) = C (bit b) * X ^ w := by
  have hgone : (lowBit b : BitVec w) >>> 1 = 0 := by
    apply BitVec.eq_of_getLsbD_eq
    intro i _
    simp [lowBit]
  have hlow : (lowBit b : BitVec w).getLsbD 0 = b := by
    cases b <;> simp [lowBit, hw]
  have hzero : toPoly (0 : BitVec w) = 0 := by simp [toPoly]
  rw [X_mul_toPoly, hgone, hlow, hzero, zero_add]

/-! ## The remainder -/

theorem monic_genPoly (gen : BitVec w) : (genPoly gen).Monic :=
  monic_X_pow_add (degree_toPoly_lt gen)

theorem degree_genPoly (gen : BitVec w) : (genPoly gen).degree = w := by
  rw [genPoly, degree_add_eq_left_of_degree_lt]
  · exact degree_X_pow w
  · rw [degree_X_pow]
    exact degree_toPoly_lt gen

theorem ofBits_concat (xs : List Bool) (b : Bool) :
    ofBits (xs ++ [b]) = ofBits xs * X + C (bit b) := by
  rw [ofBits, List.foldl_append]
  rfl

theorem ofBits_append (xs ys : List Bool) :
    ofBits (xs ++ ys) = ofBits xs * X ^ ys.length + ofBits ys := by
  induction ys using List.reverseRecOn with
  | nil => simp [ofBits]
  | append_singleton ys b ih =>
    rw [← List.append_assoc, ofBits_concat, ofBits_concat, ih, List.length_append,
      List.length_singleton, pow_succ]
    ring

/-- The register and the message taken in are congruent modulo the generator. -/
theorem genPoly_dvd_run (hw : 0 < w) (gen r : BitVec w) (bits : List Bool) :
    genPoly gen ∣ X ^ bits.length * toPoly r + X ^ w * ofBits bits - toPoly (run gen r bits) := by
  induction bits using List.reverseRecOn with
  | nil => simp [run, ofBits]
  | append_singleton bits b ih =>
    obtain ⟨q, hq⟩ := ih
    let t := run gen r bits
    have hrun : run gen r (bits ++ [b]) = shift gen (t ^^^ lowBit b) := by
      rw [run_append]
      rfl
    have hstep : toPoly (run gen r (bits ++ [b])) = X * toPoly t + C (bit b) * X ^ w +
        C (bit ((t ^^^ lowBit b).getLsbD 0)) * genPoly gen := by
      rw [hrun, toPoly_shift, toPoly_xor, mul_add, X_mul_toPoly_lowBit hw]
    refine ⟨X * q - C (bit ((t ^^^ lowBit b).getLsbD 0)), ?_⟩
    rw [hstep, ofBits_concat, List.length_append, List.length_singleton, pow_succ, mul_sub,
      mul_left_comm, ← hq]
    ring

/-- The register holds the remainder of what was in it before, moved up, and of the message
with `w` zeros behind it. -/
theorem toPoly_run (hw : 0 < w) (gen r : BitVec w) (bits : List Bool) :
    toPoly (run gen r bits) =
      (X ^ bits.length * toPoly r + X ^ w * ofBits bits) %ₘ genPoly gen := by
  obtain ⟨q, hq⟩ := genPoly_dvd_run hw gen r bits
  have hsplit : toPoly (run gen r bits) + genPoly gen * q =
      X ^ bits.length * toPoly r + X ^ w * ofBits bits := by
    rw [← hq]
    ring
  refine (div_modByMonic_unique q _ (monic_genPoly gen) ⟨hsplit, ?_⟩).2.symm
  rw [degree_genPoly]
  exact degree_toPoly_lt _

/-! ## Several bits at once -/

/-- A place that is not the lowest only moves. -/
theorem shift_xor_high (gen a : BitVec w) {y : BitVec w} (hy : y.getLsbD 0 = false) :
    shift gen (a ^^^ y) = shift gen a ^^^ (y >>> 1) := by
  have hlow : (a ^^^ y).getLsbD 0 = a.getLsbD 0 := by
    rw [BitVec.getLsbD_xor, hy, Bool.xor_false]
  rw [shift, shift, hlow, BitVec.ushiftRight_xor_distrib]
  split
  · ac_rfl
  · rfl

theorem feed_false (gen r : BitVec w) : feed gen r false = shift gen r := by
  have hzero : (lowBit false : BitVec w) = 0 := by simp [lowBit]
  rw [feed, hzero]
  exact congrArg (shift gen) (BitVec.xor_zero (x := r))

/-- What lies above the lowest `n` places only moves while `n` zeros are taken in. -/
theorem run_zeros_xor_high (gen : BitVec w) {n : ℕ} (a y : BitVec w)
    (hy : ∀ i < n, y.getLsbD i = false) :
    run gen (a ^^^ y) (List.replicate n false) =
      run gen a (List.replicate n false) ^^^ (y >>> n) := by
  induction n generalizing a y with
  | zero => simp [run]
  | succ n ih =>
    have hnext : ∀ i < n, (y >>> 1).getLsbD i = false := by
      intro i hi
      rw [BitVec.getLsbD_ushiftRight]
      exact hy (1 + i) (by omega)
    have hstep : ∀ r : BitVec w, run gen r (List.replicate (n + 1) false) =
        run gen (shift gen r) (List.replicate n false) := by
      intro r
      rw [List.replicate_succ, run, List.foldl_cons, feed_false]
      rfl
    rw [hstep, hstep, shift_xor_high gen a (hy 0 (by omega)), ih _ _ hnext,
      ← BitVec.shiftRight_add, Nat.add_comm 1 n]

/-- The lowest `n` places of a register, lowest first. -/
def lowBits (n : ℕ) (y : BitVec w) : List Bool := (List.range n).map y.getLsbD

theorem lowBits_succ (n : ℕ) (y : BitVec w) :
    lowBits (n + 1) y = y.getLsbD 0 :: lowBits n (y >>> 1) := by
  simp only [lowBits, List.range_succ_eq_map, List.map_cons, List.map_map]
  congr 1
  apply List.map_congr_left
  intro i _
  rw [Function.comp_apply, BitVec.getLsbD_ushiftRight, Nat.add_comm 1 i]

/-- A few bits may be added to the register at once before as many zeros are taken in. -/
theorem run_lowBits (gen : BitVec w) {n : ℕ} (r y : BitVec w)
    (hy : ∀ i, n ≤ i → y.getLsbD i = false) :
    run gen r (lowBits n y) = run gen (r ^^^ y) (List.replicate n false) := by
  induction n generalizing r y with
  | zero =>
    have hzero : y = 0 := BitVec.eq_of_getLsbD_eq fun i _ => by
      rw [hy i (Nat.zero_le i)]
      simp
    subst hzero
    exact BitVec.xor_zero.symm
  | succ n ih =>
    let low : BitVec w := lowBit (y.getLsbD 0)
    have hnext : ∀ i, n ≤ i → (y >>> 1).getLsbD i = false := by
      intro i hi
      rw [BitVec.getLsbD_ushiftRight]
      exact hy (1 + i) (by omega)
    have hlow : (y ^^^ low).getLsbD 0 = false := by
      by_cases hw : 0 < w
      · simp [low, lowBit, hw]
      · rw [BitVec.getLsbD_of_ge _ _ (by omega)]
    have hgone : (y ^^^ low) >>> 1 = y >>> 1 := by
      apply BitVec.eq_of_getLsbD_eq
      intro i _
      simp [low, lowBit]
    have hshift : shift gen (r ^^^ y) = shift gen (r ^^^ low) ^^^ (y >>> 1) := by
      rw [← hgone, ← shift_xor_high gen (r ^^^ low) hlow]
      congr 1
      rw [BitVec.xor_assoc, ← BitVec.xor_assoc low, BitVec.xor_comm low y, BitVec.xor_assoc y,
        BitVec.xor_self, BitVec.xor_zero]
    rw [lowBits_succ, List.replicate_succ]
    show run gen (shift gen (r ^^^ low)) (lowBits n (y >>> 1)) =
      run gen (feed gen (r ^^^ y) false) (List.replicate n false)
    rw [feed_false, hshift, ih _ _ hnext]

/-! ## Error bursts -/

theorem ofBits_singleton (b : Bool) : ofBits [b] = C (bit b) := by
  simp [ofBits]

theorem degree_ofBits_lt (bits : List Bool) : (ofBits bits).degree < bits.length := by
  rw [← mem_degreeLT]
  induction bits with
  | nil => simp [ofBits]
  | cons b bits ih =>
    rw [← List.singleton_append, ofBits_append, ofBits_singleton]
    refine Submodule.add_mem _ ?_ (degreeLT_mono (by simp) ih)
    rw [mem_degreeLT]
    refine lt_of_le_of_lt (degree_C_mul_X_pow_le _ _) ?_
    exact_mod_cast (by simp : bits.length < ([b] ++ bits).length)

/-- Messages of one length are told apart by their polynomials. -/
theorem ofBits_injective {xs ys : List Bool} (hlen : xs.length = ys.length)
    (h : ofBits xs = ofBits ys) : xs = ys := by
  induction xs generalizing ys with
  | nil => exact (List.length_eq_zero_iff.mp hlen.symm).symm
  | cons a xs ih =>
    cases ys with
    | nil => simp at hlen
    | cons b ys =>
      have hlen' : xs.length = ys.length := by simpa using hlen
      have htop : ∀ (c : Bool) (zs : List Bool), (ofBits (c :: zs)).coeff zs.length = bit c := by
        intro c zs
        rw [← List.singleton_append, ofBits_append, ofBits_singleton, coeff_add,
          coeff_C_mul_X_pow, if_pos rfl, coeff_eq_zero_of_degree_lt (degree_ofBits_lt zs),
          add_zero]
      have hab : a = b := bit_injective (by rw [← htop a xs, ← htop b ys, h, hlen'])
      subst hab
      refine congrArg (a :: ·) (ih hlen' ?_)
      rw [← List.singleton_append, ← List.singleton_append (l := ys), ofBits_append,
        ofBits_append, hlen'] at h
      exact add_left_cancel h

section Burst

variable {gen : BitVec w} (hw : 0 < w) (hgen : IsCoprime (genPoly gen) X)

include hw hgen

/-- What is taken in later does not make different registers equal. -/
theorem run_injective {r s : BitVec w} (bits : List Bool) (h : run gen r bits = run gen s bits) :
    r = s := by
  have hr := genPoly_dvd_run hw gen r bits
  have hs := genPoly_dvd_run hw gen s bits
  rw [h] at hr
  have hdiff : genPoly gen ∣ X ^ bits.length * (toPoly r - toPoly s) := by
    have := dvd_sub hr hs
    rwa [show X ^ bits.length * toPoly r + X ^ w * ofBits bits - toPoly (run gen s bits) -
      (X ^ bits.length * toPoly s + X ^ w * ofBits bits - toPoly (run gen s bits)) =
      X ^ bits.length * (toPoly r - toPoly s) by ring] at this
  have hdvd := (hgen.pow_right).dvd_of_dvd_mul_left hdiff
  by_contra hne
  refine (monic_genPoly gen).not_dvd_of_degree_lt (sub_ne_zero.mpr fun he => hne ?_) ?_ hdvd
  · exact toPoly_injective he
  · rw [degree_genPoly]
    exact lt_of_le_of_lt (degree_sub_le _ _)
      (max_lt (degree_toPoly_lt r) (degree_toPoly_lt s))

/-- A register tells messages of at most its own length apart. -/
theorem run_injective_of_le {r : BitVec w} {xs ys : List Bool} (hlen : xs.length = ys.length)
    (hle : xs.length ≤ w) (h : run gen r xs = run gen r ys) : xs = ys := by
  have hx := genPoly_dvd_run hw gen r xs
  have hy := genPoly_dvd_run hw gen r ys
  rw [h, hlen] at hx
  have hdiff : genPoly gen ∣ X ^ w * (ofBits xs - ofBits ys) := by
    have := dvd_sub hx hy
    rwa [show X ^ ys.length * toPoly r + X ^ w * ofBits xs - toPoly (run gen r ys) -
      (X ^ ys.length * toPoly r + X ^ w * ofBits ys - toPoly (run gen r ys)) =
      X ^ w * (ofBits xs - ofBits ys) by ring] at this
  have hdvd := (hgen.pow_right).dvd_of_dvd_mul_left hdiff
  have hdeg : ∀ zs : List Bool, zs.length ≤ w → (ofBits zs).degree < w := fun zs hzs =>
    lt_of_lt_of_le (degree_ofBits_lt zs) (by exact_mod_cast hzs)
  by_contra hne
  refine (monic_genPoly gen).not_dvd_of_degree_lt (sub_ne_zero.mpr fun he => hne ?_) ?_ hdvd
  · exact ofBits_injective hlen he
  · rw [degree_genPoly]
    exact lt_of_le_of_lt (degree_sub_le _ _)
      (max_lt (hdeg xs hle) (hdeg ys (hlen ▸ hle)))

/-- Messages that differ only within as many neighbouring bits as the register has places
leave different registers behind. -/
theorem run_ne_of_burst {r : BitVec w} {xs ys : List Bool} (front back : List Bool)
    (hlen : xs.length = ys.length) (hle : xs.length ≤ w) (hne : xs ≠ ys) :
    run gen r (front ++ xs ++ back) ≠ run gen r (front ++ ys ++ back) := by
  intro h
  rw [run_append, run_append, run_append, run_append] at h
  exact hne (run_injective_of_le hw hgen hlen hle (run_injective hw hgen back h))

end Burst

/-- A generator with a constant term, which is the highest place of the register, has no
factor `X`. -/
theorem isCoprime_genPoly {gen : BitVec w} (hw : 0 < w) (hgen : gen.getLsbD (w - 1) = true) :
    IsCoprime (genPoly gen) X := by
  have hconst : (genPoly gen).coeff 0 = 1 := by
    have hcoeff := coeff_toPoly gen (show w - 1 < w by omega)
    rw [Nat.sub_self, hgen] at hcoeff
    rw [genPoly, coeff_add, hcoeff, coeff_X_pow, if_neg (by omega), zero_add, bit_true]
  obtain ⟨q, hq⟩ := X_dvd_sub_C (p := genPoly gen)
  rw [hconst, C_1] at hq
  refine ⟨1, -q, ?_⟩
  rw [neg_mul, mul_comm q, ← hq]
  ring

end Crc
