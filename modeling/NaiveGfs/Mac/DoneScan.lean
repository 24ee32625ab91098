import NaiveGfs.Mac.ExitString

/-!
# `pi_done_scan` as a matcher

Fed byte by byte, `pi_done_scan` follows the exit string through the text, also past a match:
behind the last letter it starts over. Only when the byte behind a match is 0x00, the
terminating zero of the array, does it take this byte for one more letter, and `idx` leaves
the array.
-/

namespace NaiveGfs

open PrefixMatcher

variable {behind : ℕ → UInt8} {text bytes : List UInt8} {idx : ℕ}

/-- `idx` after some calls. -/
def scanIdx (behind : ℕ → UInt8) (bytes : List UInt8) : ℕ :=
  bytes.foldl (fun idx c => (piDoneScan behind idx c).1) 0

@[simp] theorem scanIdx_concat (behind : ℕ → UInt8) (bytes : List UInt8) (c : UInt8) :
    scanIdx behind (bytes ++ [c]) = (piDoneScan behind (scanIdx behind bytes) c).1 := by
  rw [scanIdx, List.foldl_append]
  rfl

/-- Before every call `idx` is an index into the array, and the call returns true exactly when
the last eight bytes so far are the exit string. -/
def ExactMatcher (behind : ℕ → UInt8) (bytes : List UInt8) : Prop :=
  ∀ before c after, bytes = before ++ c :: after →
    scanIdx behind before ≤ exitString.length ∧
      ((piDoneScan behind (scanIdx behind before) c).2 = true ↔ exitString <:+ before ++ [c])

/-- What a call returns is that `idx` has come to the end of the string. -/
theorem piDoneScan_snd_iff (behind : ℕ → UInt8) (idx : ℕ) (c : UInt8) :
    (piDoneScan behind idx c).2 = true ↔ (piDoneScan behind idx c).1 = exitString.length := by
  simp [piDoneScan]

/-- A zero behind the string is taken for a letter of it. -/
theorem piDoneScan_zero (behind : ℕ → UInt8) :
    piDoneScan behind exitString.length 0 = (exitString.length + 1, false) := by
  have hend : exitByte behind exitString.length = 0 := by simp [exitByte]
  simp [piDoneScan, hend]

/-- A call keeps track of the string, unless it reads a zero behind the string. -/
theorem tracks_piDoneScan (h : Tracks exitString text idx) {c : UInt8}
    (hc : idx = exitString.length → c ≠ 0) :
    Tracks exitString (text ++ [c]) (piDoneScan behind idx c).1 := by
  rw [piDoneScan_eq_advance behind h.le hc]
  exact h.advance exitString_first c

/-- While no zero is read behind the string, `idx` keeps track of it. -/
theorem tracks_scanIdx (h : ¬ exitString ++ [0] <:+: bytes) :
    Tracks exitString bytes (scanIdx behind bytes) := by
  induction bytes using List.reverseRecOn with
  | nil => exact Tracks.nil exitString
  | append_singleton bytes c ih =>
    have hbefore : ¬ exitString ++ [0] <:+: bytes := fun hin =>
      h (hin.trans (List.prefix_append bytes [c]).isInfix)
    have htracks := ih hbefore
    rw [scanIdx_concat]
    apply tracks_piDoneScan htracks
    rintro hfull rfl
    obtain ⟨t, ht⟩ := htracks.eq_length_iff.mp hfull
    exact h ⟨t, [], by rw [← ht]; simp⟩

/-- What a call returns says whether the string ends the text. -/
theorem piDoneScan_true_iff (h : Tracks exitString text idx) (c : UInt8) :
    (piDoneScan behind idx c).2 = true ↔ exitString <:+ text ++ [c] := by
  by_cases hc : idx = exitString.length → c ≠ 0
  · rw [piDoneScan_snd_iff]
    exact (tracks_piDoneScan h hc).eq_length_iff
  · -- a zero is no letter of the string, and `idx` is not at its end any more
    push Not at hc
    obtain ⟨rfl, rfl⟩ := hc
    have hlast : ¬ exitString <:+ text ++ [0] := by
      intro hs
      have hletter := hs.getLast (by decide)
      simp [exitString] at hletter
    simp [piDoneScan_zero, hlast]

/-- `pi_done_scan` is an exact matcher exactly when the exit string is nowhere followed by a
zero that is followed by a further byte. -/
theorem piDoneScan_exact_iff (behind : ℕ → UInt8) (bytes : List UInt8) :
    ExactMatcher behind bytes ↔ ¬ exitString ++ [0] <:+: bytes.dropLast := by
  constructor
  · rintro hexact ⟨s, t, hst⟩
    have hne : bytes ≠ [] := by
      rintro rfl
      simp at hst
    obtain ⟨x, after, hx⟩ := List.exists_cons_of_ne_nil
      (List.append_ne_nil_of_right_ne_nil t (List.cons_ne_nil (bytes.getLast hne) []))
    have hbytes : bytes = s ++ exitString ++ [0] ++ x :: after := by
      rw [← hx, ← List.append_assoc, List.append_assoc s, hst, List.dropLast_append_getLast]
    have hletters : exitString = exitString.dropLast ++ [0x0a] := by decide
    -- the call that completes the string is right, so `idx` is at its end
    have hfull : scanIdx behind (s ++ exitString) = exitString.length := by
      have hcall := hexact (s ++ exitString.dropLast) 0x0a (0 :: x :: after)
        (by rw [hbytes, hletters]; simp)
      rw [piDoneScan_snd_iff, ← scanIdx_concat, List.append_assoc, ← hletters] at hcall
      exact hcall.2.mpr (List.suffix_append s exitString)
    -- the call for the zero behind it goes on to the place behind the array
    have hidx := (hexact (s ++ exitString ++ [0]) x after hbytes).1
    rw [scanIdx_concat, hfull, piDoneScan_zero] at hidx
    omega
  · intro h before c after hbytes
    have hprefix : before <+: bytes.dropLast := by
      rw [hbytes, List.dropLast_append_of_ne_nil (List.cons_ne_nil c after)]
      exact List.prefix_append _ _
    have htracks : Tracks exitString before (scanIdx behind before) :=
      tracks_scanIdx fun hin => h (hin.trans hprefix.isInfix)
    exact ⟨htracks.le, piDoneScan_true_iff htracks c⟩

/-- Behind the exit string and a zero `idx` is 9, and the next call compares with the memory
behind the array. -/
theorem scanIdx_doneZero :
    scanIdx (fun _ => 0) (exitString ++ [0]) = 9 ∧
      ¬ ExactMatcher (fun _ => 0) (exitString ++ [0] ++ [0]) := by
  have hidx : scanIdx (fun _ => 0) (exitString ++ [0]) = exitString.length + 1 := by
    have hnot : ¬ exitString ++ [0] <:+: exitString := by decide
    have hfull : scanIdx (fun _ => 0) exitString = exitString.length :=
      (tracks_scanIdx hnot).eq_length_iff.mpr List.suffix_rfl
    rw [scanIdx_concat, hfull, piDoneScan_zero]
  constructor
  · exact hidx
  · intro hexact
    have hle := (hexact _ 0 [] rfl).1
    rw [hidx] at hle
    omega

end NaiveGfs
