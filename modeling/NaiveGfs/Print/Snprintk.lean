import NaiveGfs.Print.ReadBack

/-!
# The buffer of `vsnprintk`

`putchar` of `sprintk.c` returns when `buf_ptr` is before `buf_end`, instead of when it is not.
So a buffer with room stays as it is up to the terminator, which goes to its first byte, and the
buffer agrees with the text on the UART only when nothing of the text is due.
-/

namespace NaiveGfs

variable {fmt : List UInt8} {args : List Arg} {conv : Conversion} {arg : Arg}
  {text : List UInt8}

/-- What the buffer of `n` bytes is to hold in the end, whatever it held before: what fits of the
text before a terminator, the terminator, and no byte behind the buffer is written. -/
def Agrees (n : UInt32) (fmt : CString) (args : List Arg) (text : List UInt8) : Prop :=
  ∀ mem, ∃ mem', vsnprintk n fmt args mem = some (0, mem') ∧
    (∀ i < min (n.toNat - 1) text.length, text[i]? = some (mem' i)) ∧
    mem' (min (n.toNat - 1) text.length) = 0 ∧ ∀ i, n.toNat ≤ i → mem' i = mem i

/-- A format of which nothing is printed: it asks for empty strings only. -/
inductive PrintsNothing : List UInt8 → List Arg → Prop where
  | nil (args : List Arg) : PrintsNothing [] args
  | empty {str : CString} (h : str.bytes = []) {fmt : List UInt8} {args : List Arg}
      (rest : PrintsNothing fmt args) : PrintsNothing (0x25 :: 0x73 :: fmt) (.str str :: args)

/-! ## Formats that print nothing -/

theorem Exact.ne_nil {base u : UInt32} (h : Exact base u) (sent : List UInt8) :
    emitVal uartPutchar base u sent ≠ some [] := by
  obtain ⟨digits, num, hnum⟩ := h
  rw [hnum.emitted, Ne, Option.some.injEq, List.append_eq_nil_iff]
  exact fun hnil => hnum.isNumeral.nonempty hnil.2

/-- The only conversion that may send nothing is that of a string. -/
theorem eq_nil_of_convert {sent : List UInt8} (h : convert uartPutchar conv arg sent = some []) :
    conv = .s ∧ ∃ str : CString, str.bytes = [] ∧ arg = .str str := by
  fun_cases convert uartPutchar conv arg sent with
  | case1 u sent => exact absurd h ((exact_two u).ne_nil sent)
  | case2 u sent => exact absurd h ((exact_ten u).ne_nil sent)
  | case3 c sent =>
    rw [convert, uartPutchar] at h
    simp at h
  | case4 x sent hi lo sent' =>
    rw [convert, Option.bind_eq_some_iff] at h
    obtain ⟨sent'', -, hlo⟩ := h
    exact absurd hlo ((exact_sixteen lo).ne_nil sent'')
  | case5 u sent | case6 u sent => exact absurd h ((exact_sixteen u).ne_nil _)
  | case7 w sent v hv =>
    rw [convert, if_pos hv] at h
    exact absurd h ((exact_ten (-v).toUInt32).ne_nil _)
  | case8 w sent v hv =>
    rw [convert, if_neg hv] at h
    exact absurd h ((exact_ten v.toUInt32).ne_nil sent)
  | case9 str sent =>
    rw [convert, foldl_uartPutchar, Option.some.injEq, List.append_eq_nil_iff] at h
    exact ⟨rfl, str, h.2, rfl⟩
  | case10 =>
    rw [convert] at h
    · simp at h
    all_goals assumption

theorem eq_nil_iff_printsNothing (h : vformat uartPutchar fmt args [] = some (0, text)) :
    text = [] ↔ PrintsNothing fmt args := by
  induction formatShape fmt generalizing args text with
  | nil =>
    obtain rfl : [] = text := congrArg Prod.snd (Option.some.inj h)
    exact iff_of_true rfl (.nil args)
  | @char c fmt hc rest ih =>
    rw [vformat_char hc, vformat_append] at h
    obtain ⟨⟨ret, text'⟩, -, htext⟩ := Option.map_eq_some_iff.mp h
    obtain rfl : c :: text' = text := congrArg Prod.snd htext
    refine iff_of_false (List.cons_ne_nil c text') fun hnothing => ?_
    cases hnothing
    exact hc rfl
  | @conversion conv fmt rest ih =>
    rw [vformat_conversion, Option.bind_eq_some_iff] at h
    obtain ⟨⟨args', sent⟩, harg, hrest⟩ := h
    rw [vformat_append] at hrest
    obtain ⟨⟨ret, text'⟩, hrest, htext⟩ := Option.map_eq_some_iff.mp hrest
    obtain ⟨arg, rfl, hsent⟩ := takeArg_eq_some_iff.mp harg
    injection htext with hret htext
    obtain rfl : ret = 0 := hret
    rw [← htext, List.append_eq_nil_iff, ih hrest]
    constructor
    · rintro ⟨rfl, hnothing⟩
      obtain ⟨rfl, str, hstr, rfl⟩ := eq_nil_of_convert hsent
      exact .empty hstr hnothing
    · intro hnothing
      generalize hformat : 0x25 :: (conv.letters ++ fmt) = format at hnothing
      cases hnothing with
      | nil => simp at hformat
      | empty hstr hnothing =>
        cases conv with
        | s =>
          injection hformat with _ hformat
          injection hformat with _ hformat
          subst hformat
          rw [convert, hstr] at hsent
          exact ⟨(Option.some.inj hsent).symm, hnothing⟩
        | _ => simp [Conversion.letters] at hformat
  | bogus hbogus =>
    rw [vformat_bogus hbogus] at h
    simp at h

/-! ## The buffer -/

variable {n : UInt32} {format : CString}

/-- A buffer with room is left as it is. -/
theorem vsnprintk_eq (hn : 0 < n.toNat) (h : vprintk format args [] = some (0, text))
    (mem : ℕ → UInt8) :
    vsnprintk n format args mem = some (0, Function.update mem 0 0) := by
  set s : Buffer := ⟨mem, 0, n.toNat⟩ with hs
  have hput (sent : List UInt8) (c : UInt8) :
      Function.const (List UInt8) s (uartPutchar sent c) =
        bufPutchar (Function.const (List UInt8) s sent) c :=
    (if_pos hn).symm
  have hformat : vformat bufPutchar format.bytes args s = _ :=
    vformat_hom hput format.bytes args []
  rw [vprintk] at h
  rw [vsnprintk, ← hs, hformat, h]
  rfl

/-- The buffer is right when all that it is to hold is the terminator. -/
theorem agrees_iff_min (hn : 0 < n.toNat) (h : vprintk format args [] = some (0, text)) :
    Agrees n format args text ↔ min (n.toNat - 1) text.length = 0 := by
  constructor
  · intro hagrees
    obtain ⟨mem', hmem, -, hnul, -⟩ := hagrees fun _ => 1
    rw [vsnprintk_eq hn h] at hmem
    have hbuf : Function.update _ 0 0 = mem' := congrArg Prod.snd (Option.some.inj hmem)
    by_contra hne
    rw [← hbuf, Function.update_of_ne hne] at hnul
    exact absurd hnul (by decide)
  · intro hzero mem
    refine ⟨Function.update mem 0 0, vsnprintk_eq hn h mem, ?_, ?_, fun i hi => ?_⟩
    · rw [hzero]
      intro i hi
      exact absurd hi (Nat.not_lt_zero i)
    · rw [hzero, Function.update_self]
    · exact Function.update_of_ne (by omega) _ _

/-- The buffer agrees with the text exactly when it has room for the terminator only, or nothing
is printed. -/
theorem vsnprintk_agrees_iff (hn : 0 < n.toNat) (h : vprintk format args [] = some (0, text)) :
    Agrees n format args text ↔ n.toNat = 1 ∨ PrintsNothing format.bytes args := by
  rw [agrees_iff_min hn h, ← eq_nil_iff_printsNothing h, ← List.length_eq_zero_iff]
  omega

theorem vsnprintk_agrees_one : Agrees 1 ⟨[0x41], by decide⟩ [] [0x41] :=
  (vsnprintk_agrees_iff (by decide) rfl).mpr (Or.inl rfl)

/-- A buffer with room for a letter and the terminator does not receive the letter. -/
theorem vsnprintk_drops_letter :
    vprintk ⟨[0x41], by decide⟩ [] [] = some (0, [0x41]) ∧
      ¬ Agrees 2 ⟨[0x41], by decide⟩ [] [0x41] := by
  refine ⟨rfl, ?_⟩
  rw [agrees_iff_min (by decide) rfl]
  decide

end NaiveGfs
