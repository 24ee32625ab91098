import Mathlib.Tactic.IntervalCases
import NaiveGfs.Words.LittleEndian

/-!
# The strings that come before the request for the program

A pi that has just started may print strings before it asks for its program. `boot` reads one
word and then slides a window of four bytes over what arrives. It looks for `PRINT_STRING`
only when a byte has been shifted in, so a frame that comes first is not seen as one. Nor
does the window that is left behind a frame help: every string that is printed, and the
request, takes four bytes of its own (`Stale`). The strings of a list of frames therefore
need four bytes more than are there.
-/

namespace NaiveGfs

open LittleEndian

variable {op : UInt32} {input rest : List UInt8} {printed frames : List (List UInt8)} {j : ℕ}

/-- `GET_PROG_INFO`. -/
def getProgInfo : UInt32 := 0x11112222

/-- `PRINT_STRING`. -/
def printString : UInt32 := 0xDDDDEEEE

/-- `while(op != GET_PROG_INFO)` in `boot`: the strings that are printed and what is left of the
bytes that arrive, or nothing if they run out. -/
def drain : ℕ → UInt32 → List UInt8 → Option (List (List UInt8) × List UInt8)
  | 0, _, _ => none
  | fuel + 1, op, input =>
    if op = getProgInfo then some ([], input)
    else
      match input with
      | [] => none
      | b :: input =>
        let op := shiftIn op b
        if op = printString then
          match input with
          | b0 :: b1 :: b2 :: b3 :: input =>
            -- the length and the string do not pass through the window
            let len := (orBytes b0 b1 b2 b3).toNat
            if input.length < len then none
            else
              (drain fuel op (input.drop len)).map fun (printed, rest) =>
                (input.take len :: printed, rest)
          | _ => none
        else drain fuel op input

/-- `boot` up to the end of this loop. -/
def bootDrain (fuel : ℕ) : List UInt8 → Option (List (List UInt8) × List UInt8)
  | b0 :: b1 :: b2 :: b3 :: input => drain fuel (orBytes b0 b1 b2 b3) input
  | _ => none

/-- The bytes of a frame: `PRINT_STRING`, the length of the string, and the string. -/
def frameBytes (payload : List UInt8) : List UInt8 :=
  bytes32 printString ++ bytes32 (UInt32.ofNat payload.length) ++ payload

/-- The bytes of some frames and of the request behind them. -/
def bootStream (frames : List (List UInt8)) : List UInt8 :=
  frames.flatMap frameBytes ++ bytes32 getProgInfo

/-! ## What is left in the window -/

/-- Of the four bytes in the window all but the last `j` are the end of `PRINT_STRING`. -/
def Stale (j : ℕ) (op : UInt32) : Prop :=
  op.toNat % 2 ^ (32 - 8 * j) = printString.toNat / 2 ^ (8 * j)

theorem stale_printString : Stale 0 printString := rfl

/-- With four fresh bytes nothing is left. -/
theorem stale_four (op : UInt32) : Stale 4 op := by
  rw [Stale, Nat.sub_self, pow_zero, Nat.mod_one]
  rfl

/-- One more fresh byte. -/
theorem Stale.shiftIn (h : Stale j op) (hj : j < 4) (b : UInt8) :
    Stale (j + 1) (shiftIn op b) := by
  have hop : op.toNat < 2 ^ 32 := op.toNat_lt
  have hword : printString.toNat = 0xDDDDEEEE := rfl
  rw [Stale, hword] at h ⊢
  rw [toNat_shiftIn]
  interval_cases j <;> simp only [Nat.reduceMul, Nat.reduceSub, Nat.reduceAdd, Nat.reducePow,
    Nat.reduceDiv] at h ⊢ <;> omega

/-- With fewer than four fresh bytes the window does not show the request. -/
theorem Stale.ne_getProgInfo (h : Stale j op) (hj : j < 4) : op ≠ getProgInfo := by
  rintro rfl
  rw [Stale] at h
  revert h
  interval_cases j <;> decide

/-- Nor does it show another frame. -/
theorem Stale.ne_printString (h : Stale j op) (hpos : 0 < j) (hj : j < 4) :
    op ≠ printString := by
  rintro rfl
  rw [Stale] at h
  revert h
  interval_cases j <;> decide

/-- After the next byte at most one byte more is fresh, and another frame can only show after
three fresh bytes. -/
theorem Stale.next (h : Stale j op) (b : UInt8) :
    ∃ i ≤ 4, i ≤ j + 1 ∧ Stale i (LittleEndian.shiftIn op b) ∧
      (LittleEndian.shiftIn op b = printString → 3 ≤ j) := by
  by_cases hlt : j < 4
  · refine ⟨j + 1, hlt, le_refl _, h.shiftIn hlt b, fun hprint => ?_⟩
    by_contra hless
    exact (h.shiftIn hlt b).ne_printString (by omega) (by omega) hprint
  · exact ⟨4, le_refl _, by omega, stale_four _, fun _ => by omega⟩

/-! ## How much is read -/

/-- The bytes that some strings and the request take when they are read one after the other. -/
def drainCost (printed : List (List UInt8)) : ℕ :=
  (printed.map fun payload => 8 + payload.length).sum + 4

theorem drainCost_cons (payload : List UInt8) (printed : List (List UInt8)) :
    drainCost (payload :: printed) = 8 + payload.length + drainCost printed := by
  simp [drainCost, Nat.add_assoc]

theorem length_bootStream (frames : List (List UInt8)) :
    (bootStream frames).length = drainCost frames := by
  have hframe : ∀ payload : List UInt8, (frameBytes payload).length = 8 + payload.length := by
    intro payload
    simp [frameBytes, bytes32]
    omega
  simp [bootStream, drainCost, List.length_flatMap, hframe, bytes32]

/-- The loop reads the bytes of everything that it prints, and of the request, and takes for
them only fresh bytes of the window. -/
theorem drainCost_le {fuel : ℕ} (h : drain fuel op input = some (printed, rest))
    (hstale : Stale j op) (hj : j ≤ 4) : rest.length + drainCost printed ≤ input.length + j := by
  induction fuel generalizing op input printed j with
  | zero => simp [drain] at h
  | succ fuel ih =>
    unfold drain at h
    by_cases hget : op = getProgInfo
    · rw [if_pos hget, Option.some.injEq, Prod.mk.injEq] at h
      obtain ⟨rfl, rfl⟩ := h
      -- the request is in the window only when all four bytes are fresh
      have hfour : ¬ j < 4 := fun hlt => hstale.ne_getProgInfo hlt hget
      simp only [drainCost, List.map_nil, List.sum_nil]
      omega
    rw [if_neg hget] at h
    cases input with
    | nil => simp at h
    | cons b input =>
      obtain ⟨i, hi, hij, hnext, hfresh⟩ := hstale.next b
      simp only at h
      rw [List.length_cons]
      split at h
      · rename_i hprint
        have hthree := hfresh hprint
        split at h
        · rename_i b0 b1 b2 b3 input
          split at h
          · simp at h
          · rename_i hlen
            obtain ⟨⟨strings, rest⟩, hrest, he⟩ := Option.map_eq_some_iff.mp h
            simp only [Prod.mk.injEq] at he
            obtain ⟨rfl, rfl⟩ := he
            -- behind a string the window still holds `PRINT_STRING`, and nothing fresh
            rw [hprint] at hrest
            have hcost := ih hrest stale_printString (Nat.zero_le 4)
            rw [List.length_drop] at hcost
            rw [drainCost_cons, List.length_take]
            simp only [List.length_cons]
            omega
        · simp at h
      · have hcost := ih h hnext hi
        omega

/-- Of a stream that begins with a frame the loop does not print all strings. -/
theorem bootDrain_ne_of_cons (fuel : ℕ) (payload : List UInt8) (frames : List (List UInt8))
    (rest : List UInt8) :
    bootDrain fuel (bootStream (payload :: frames) ++ rest) ≠ some (payload :: frames, rest) := by
  intro h
  obtain ⟨input, hinput⟩ : ∃ input, bootStream (payload :: frames) ++ rest =
      0xEE :: 0xEE :: 0xDD :: 0xDD :: input := ⟨_, rfl⟩
  have hlen := congrArg List.length hinput
  rw [List.length_append, length_bootStream] at hlen
  simp only [List.length_cons] at hlen
  -- the word that is read first is not looked at as a frame
  have hword : orBytes 0xEE 0xEE 0xDD 0xDD = printString := by decide
  rw [hinput, bootDrain, hword] at h
  have hcost := drainCost_le h stale_printString (Nat.zero_le 4)
  omega

/-- The loop prints the strings of the frames in order and ends right behind the request exactly
when there are no frames. -/
theorem bootDrain_exact_iff (frames : List (List UInt8)) (rest : List UInt8) :
    (∃ fuel, bootDrain fuel (bootStream frames ++ rest) = some (frames, rest)) ↔ frames = [] := by
  cases frames with
  | nil => exact iff_of_true ⟨1, rfl⟩ rfl
  | cons payload frames =>
    have hne := fun fuel => bootDrain_ne_of_cons fuel payload frames rest
    simp [hne]

/-- The string "A" is not printed, and in a string that contains the request the loop ends. -/
theorem bootDrain_skipsFirst :
    bootDrain 10 (bootStream [[0x41]]) = some ([], []) ∧
      bootDrain 9 (bootStream [[0x22, 0x22, 0x11, 0x11, 0x41]]) =
        some ([], 0x41 :: bytes32 getProgInfo) ∧
      ¬ ∃ fuel, bootDrain fuel (bootStream [[0x41]]) = some ([[0x41]], []) := by
  refine ⟨by decide, by decide, ?_⟩
  rintro ⟨fuel, h⟩
  exact bootDrain_ne_of_cons fuel [0x41] [] [] h

end NaiveGfs
