import Mathlib.Data.List.Induction
import Mathlib.Data.UInt
import Mathlib.Tactic.Ring

/-!
# Little-endian words

Byte strings read as numbers, least significant byte first, together with the two ways in
which programs assemble a 32-bit word from four bytes: all at once, and by shifting one
byte at a time into the top of a sliding window.
-/

namespace LittleEndian

/-- The number that a byte string denotes, least significant byte first. -/
def value : List UInt8 → ℕ
  | [] => 0
  | b :: bs => b.toNat + 256 * value bs

/-- The lowest `n` bytes of a number, least significant byte first. -/
def bytes : ℕ → ℕ → List UInt8
  | 0, _ => []
  | n + 1, v => UInt8.ofNat v :: bytes n (v / 256)

theorem value_lt (bs : List UInt8) : value bs < 256 ^ bs.length := by
  induction bs with
  | nil => simp [value]
  | cons b bs ih =>
    have hb : b.toNat < 256 := b.toNat_lt
    rw [value, List.length_cons, pow_succ]
    omega

theorem value_bytes (n v : ℕ) : value (bytes n v) = v % 256 ^ n := by
  induction n generalizing v with
  | zero => simp [bytes, value, Nat.mod_one]
  | succ n ih =>
    rw [bytes, value, ih, pow_succ, Nat.mul_comm (256 ^ n), Nat.mod_mul]
    simp

theorem bytes_value (bs : List UInt8) : bytes bs.length (value bs) = bs := by
  induction bs with
  | nil => rfl
  | cons b bs ih =>
    have hb : b.toNat < 256 := b.toNat_lt
    have hdiv : (b.toNat + 256 * value bs) / 256 = value bs := by omega
    have hhead : UInt8.ofNat (b.toNat + 256 * value bs) = b := by
      apply UInt8.toNat_inj.mp
      rw [UInt8.toNat_ofNat']
      omega
    rw [List.length_cons, value, bytes, hdiv, hhead, ih]

theorem value_append (bs cs : List UInt8) :
    value (bs ++ cs) = value bs + 256 ^ bs.length * value cs := by
  induction bs with
  | nil => simp [value]
  | cons b bs ih =>
    rw [List.cons_append, value, value, ih, List.length_cons, pow_succ]
    ring

/-! ## Words of fixed width -/

/-- The 16-bit word with the given bytes. -/
def word16 (b0 b1 : UInt8) : UInt16 := UInt16.ofNat (value [b0, b1])

/-- The 32-bit word with the given bytes. -/
def word32 (b0 b1 b2 b3 : UInt8) : UInt32 := UInt32.ofNat (value [b0, b1, b2, b3])

/-- Byte `k` of a 16-bit word. -/
def byte16 (w : UInt16) (k : ℕ) : UInt8 := UInt8.ofNat (w.toNat / 256 ^ k)

/-- Byte `k` of a 32-bit word. -/
def byte32 (w : UInt32) (k : ℕ) : UInt8 := UInt8.ofNat (w.toNat / 256 ^ k)

/-- The four bytes of a 32-bit word in the order in which they are stored and sent. -/
def bytes32 (w : UInt32) : List UInt8 := [byte32 w 0, byte32 w 1, byte32 w 2, byte32 w 3]

theorem bytes32_eq_bytes (w : UInt32) : bytes32 w = bytes 4 w.toNat := by
  simp [bytes32, byte32, bytes, Nat.div_div_eq_div_mul]

@[simp] theorem word16_byte16 (w : UInt16) : word16 (byte16 w 0) (byte16 w 1) = w := by
  apply UInt16.toNat_inj.mp
  have hw : w.toNat < 65536 := w.toNat_lt
  simp only [word16, byte16, value, UInt8.toNat_ofNat', UInt16.toNat_ofNat']
  omega

@[simp] theorem word32_byte32 (w : UInt32) :
    word32 (byte32 w 0) (byte32 w 1) (byte32 w 2) (byte32 w 3) = w := by
  have hval : value (bytes32 w) = w.toNat := by
    rw [bytes32_eq_bytes, value_bytes]
    exact Nat.mod_eq_of_lt w.toNat_lt
  rw [word32]
  show UInt32.ofNat (value (bytes32 w)) = w
  rw [hval, UInt32.ofNat_toNat]

theorem toNat_word32 (b0 b1 b2 b3 : UInt8) :
    (word32 b0 b1 b2 b3).toNat = value [b0, b1, b2, b3] := by
  have hlt : value [b0, b1, b2, b3] < 2 ^ 32 := by
    simpa using value_lt [b0, b1, b2, b3]
  rw [word32, UInt32.toNat_ofNat']
  exact Nat.mod_eq_of_lt hlt

@[simp] theorem bytes32_word32 (b0 b1 b2 b3 : UInt8) :
    bytes32 (word32 b0 b1 b2 b3) = [b0, b1, b2, b3] := by
  rw [bytes32_eq_bytes, toNat_word32]
  exact bytes_value [b0, b1, b2, b3]

/-! ## Halves of a 32-bit word -/

/-- The low 16 bits, which are stored first. -/
def lowHalf (w : UInt32) : UInt16 := UInt16.ofNat w.toNat

/-- The high 16 bits, which are stored second. -/
def highHalf (w : UInt32) : UInt16 := UInt16.ofNat (w.toNat / 65536)

/-- The 32-bit word with the given halves. -/
def ofHalves (low high : UInt16) : UInt32 := UInt32.ofNat (low.toNat + 65536 * high.toNat)

@[simp] theorem ofHalves_halves (w : UInt32) : ofHalves (lowHalf w) (highHalf w) = w := by
  apply UInt32.toNat_inj.mp
  have hw : w.toNat < 2 ^ 32 := w.toNat_lt
  simp only [ofHalves, lowHalf, highHalf, UInt16.toNat_ofNat', UInt32.toNat_ofNat']
  omega

/-! ## The sliding window -/

/-- Shift one more byte into a 32-bit window: the oldest byte falls out at the bottom. -/
def shiftIn (op : UInt32) (b : UInt8) : UInt32 := op >>> 8 ||| b.toUInt32 <<< 24

/-- A disjoint `or` of a low part and a shifted high part is their sum. -/
theorem or_shiftLeft_eq_add {lo k : ℕ} (hi : ℕ) (h : lo < 2 ^ k) :
    lo ||| hi <<< k = lo + hi * 2 ^ k := by
  rw [Nat.or_comm, ← Nat.shiftLeft_add_eq_or_of_lt h, Nat.shiftLeft_eq]
  omega

theorem toNat_shiftIn (op : UInt32) (b : UInt8) :
    (shiftIn op b).toNat = op.toNat / 256 + b.toNat * 2 ^ 24 := by
  have hop : op.toNat < 2 ^ 32 := op.toNat_lt
  have hb : b.toNat < 256 := b.toNat_lt
  have hhigh : (b.toUInt32 <<< 24).toNat = b.toNat <<< 24 := by
    rw [UInt32.toNat_shiftLeft]
    have hlt : b.toNat <<< 24 < 2 ^ 32 := by rw [Nat.shiftLeft_eq]; omega
    simpa using Nat.mod_eq_of_lt hlt
  have hlow : (op >>> 8).toNat = op.toNat / 256 := by
    rw [UInt32.toNat_shiftRight]
    simp [Nat.shiftRight_eq_div_pow]
  rw [shiftIn, UInt32.toNat_or, hhigh, hlow]
  exact or_shiftLeft_eq_add _ (by omega)

/-- Four bytes shifted in replace whatever the window held before. -/
theorem shiftIn_four (op : UInt32) (b0 b1 b2 b3 : UInt8) :
    shiftIn (shiftIn (shiftIn (shiftIn op b0) b1) b2) b3 = word32 b0 b1 b2 b3 := by
  apply UInt32.toNat_inj.mp
  have hop : op.toNat < 2 ^ 32 := op.toNat_lt
  have h0 : b0.toNat < 256 := b0.toNat_lt
  have h1 : b1.toNat < 256 := b1.toNat_lt
  have h2 : b2.toNat < 256 := b2.toNat_lt
  simp only [toNat_shiftIn, toNat_word32, value]
  omega

/-- What a window that held `op` shows after the first `k` bytes of `w`. -/
def window (op w : UInt32) (k : ℕ) : UInt32 := ((bytes32 w).take k).foldl shiftIn op

theorem window_succ (op w : UInt32) {k : ℕ} (hk : k < 4) :
    window op w (k + 1) = shiftIn (window op w k) (byte32 w k) := by
  match k, hk with
  | 0, _ | 1, _ | 2, _ | 3, _ => rfl

@[simp] theorem window_four (op w : UInt32) : window op w 4 = w :=
  (shiftIn_four op _ _ _ _).trans (word32_byte32 w)

/-- What a window that held `op` shows after up to four more bytes. -/
theorem toNat_foldl_shiftIn (op : UInt32) {bs : List UInt8} {k : ℕ} (h : bs.length + k = 4) :
    (bs.foldl shiftIn op).toNat = op.toNat / 256 ^ bs.length + value bs * 256 ^ k := by
  induction bs using List.reverseRecOn generalizing k with
  | nil => simp [value]
  | append_singleton bs b ih =>
    rw [List.length_append, List.length_singleton] at h
    have hpow : (256 : ℕ) ^ (k + 1) = 256 ^ k * 256 := pow_succ 256 k
    have htop : 256 ^ bs.length * 256 ^ k = 2 ^ 24 := by
      rw [← pow_add, show bs.length + k = 3 by omega]
      rfl
    have hone : value [b] = b.toNat := by simp [value]
    rw [List.foldl_append, List.foldl_cons, List.foldl_nil, toNat_shiftIn,
      ih (k := k + 1) (by omega), hpow, ← mul_assoc, Nat.add_mul_div_right _ _ (by decide),
      Nat.div_div_eq_div_mul, List.length_append, List.length_singleton, pow_succ 256 bs.length,
      value_append, hone, ← htop]
    ring

/-- A window that holds `op` does not show `w` before four more bytes have come: what is left of
`op` is never the low end of `w`. -/
def StartsAfresh (op w : UInt32) : Prop := ∀ k < 4, op.toNat / 256 ^ k ≠ w.toNat % 256 ^ (4 - k)

instance (op w : UInt32) : Decidable (StartsAfresh op w) :=
  inferInstanceAs (Decidable (∀ k < 4, _))

/-- Started on a fresh window, the window shows a word exactly behind the bytes of the word. -/
theorem foldl_shiftIn_eq_iff {op w : UInt32} (h : StartsAfresh op w) (bs : List UInt8) :
    bs.foldl shiftIn op = w ↔ bytes32 w <:+ bs := by
  have hfour : (bytes32 w).length = 4 := rfl
  by_cases hlen : bs.length < 4
  · refine iff_of_false (fun hw => ?_) fun hs => ?_
    · have hshow := toNat_foldl_shiftIn op (Nat.add_sub_of_le hlen.le)
      have hlow : op.toNat / 256 ^ bs.length < 256 ^ (4 - bs.length) := by
        apply Nat.div_lt_of_lt_mul
        rw [← pow_add, Nat.add_sub_of_le hlen.le]
        exact op.toNat_lt
      apply h bs.length hlen
      rw [← hw, hshow, Nat.add_mul_mod_self_right, Nat.mod_eq_of_lt hlow]
    · have hle := hs.length_le
      omega
  · -- the last four bytes replace whatever was in the window
    obtain ⟨pre, last, rfl, hlast⟩ : ∃ pre last, bs = pre ++ last ∧ last.length = 4 :=
      ⟨_, _, (List.take_append_drop (bs.length - 4) bs).symm, by rw [List.length_drop]; omega⟩
    obtain ⟨b0, b1, b2, b3, rfl⟩ := List.length_eq_four.mp hlast
    have hshow : (pre ++ [b0, b1, b2, b3]).foldl shiftIn op = word32 b0 b1 b2 b3 := by
      rw [List.foldl_append]
      exact shiftIn_four _ b0 b1 b2 b3
    rw [hshow]
    constructor
    · rintro rfl
      rw [bytes32_word32]
      exact List.suffix_append pre _
    · intro hs
      have hlast4 := List.suffix_of_suffix_length_le hs (List.suffix_append pre _) hlast.ge
      have hbytes : bytes32 w = [b0, b1, b2, b3] := hlast4.eq_of_length hlast.symm
      simp only [bytes32, List.cons.injEq, and_true] at hbytes
      obtain ⟨rfl, rfl, rfl, rfl⟩ := hbytes
      exact word32_byte32 w

/-- The word assembled by or-ing four bytes into place. -/
def orBytes (b0 b1 b2 b3 : UInt8) : UInt32 :=
  b0.toUInt32 ||| b1.toUInt32 <<< 8 ||| b2.toUInt32 <<< 16 ||| b3.toUInt32 <<< 24

theorem orBytes_eq_word32 (b0 b1 b2 b3 : UInt8) :
    orBytes b0 b1 b2 b3 = word32 b0 b1 b2 b3 := by
  apply UInt32.toNat_inj.mp
  have h0 : b0.toNat < 256 := b0.toNat_lt
  have h1 : b1.toNat < 256 := b1.toNat_lt
  have h2 : b2.toNat < 256 := b2.toNat_lt
  have h3 : b3.toNat < 256 := b3.toNat_lt
  have hshift : ∀ (b : UInt8) (k : UInt32), k.toNat ≤ 24 →
      (b.toUInt32 <<< k).toNat = b.toNat <<< k.toNat := by
    intro b k hk
    have hb : b.toNat < 256 := b.toNat_lt
    have hlt : b.toNat <<< k.toNat < 2 ^ 32 := by
      rw [Nat.shiftLeft_eq]
      calc b.toNat * 2 ^ k.toNat ≤ b.toNat * 2 ^ 24 :=
            Nat.mul_le_mul_left _ (Nat.pow_le_pow_right (by decide) hk)
        _ < 2 ^ 32 := by omega
    rw [UInt32.toNat_shiftLeft, Nat.mod_eq_of_lt (show k.toNat < 32 by omega)]
    simpa using Nat.mod_eq_of_lt hlt
  simp only [orBytes, UInt32.toNat_or, toNat_word32, value]
  rw [hshift b1 8 (by decide), hshift b2 16 (by decide), hshift b3 24 (by decide)]
  simp only [UInt8.toNat_toUInt32]
  show b0.toNat ||| b1.toNat <<< 8 ||| b2.toNat <<< 16 ||| b3.toNat <<< 24 = _
  have hlow : b0.toNat ||| b1.toNat <<< 8 = b0.toNat + b1.toNat * 2 ^ 8 :=
    or_shiftLeft_eq_add _ (by omega)
  rw [hlow, or_shiftLeft_eq_add _ (show _ < 2 ^ 16 by omega),
    or_shiftLeft_eq_add _ (show _ < 2 ^ 24 by omega)]
  omega

/-- The low byte of a word. -/
theorem word32_and_ff (b0 b1 b2 b3 : UInt8) : word32 b0 b1 b2 b3 &&& 0xff = b0.toUInt32 := by
  apply UInt32.toNat_inj.mp
  have h0 : b0.toNat < 256 := b0.toNat_lt
  have hand := Nat.and_two_pow_sub_one_eq_mod (value [b0, b1, b2, b3]) 8
  rw [UInt32.toNat_and, toNat_word32, UInt8.toNat_toUInt32]
  refine hand.trans ?_
  simp only [value]
  omega

end LittleEndian
