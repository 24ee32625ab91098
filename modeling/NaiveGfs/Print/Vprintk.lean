import NaiveGfs.Print.EmitVal

/-!
# `vprintk` and `vsnprintk`

The interpreter of format strings, in two copies: `vprintk` sends its text to the UART and
`vsnprintk` writes it into a buffer. The copies have the same text. Each is the interpreter with
the `putchar` of its file, and `vsnprintk` adds a terminator.
-/

namespace NaiveGfs

variable {σ : Type*}

/-- A string: the bytes before the zero that ends it. -/
structure CString where
  bytes : List UInt8
  noNul : 0 ∉ bytes

/-- What stands for one argument in the argument list: a word of 32 bits for a number or a
pointer, one of 64 bits, or a string. -/
inductive Arg where
  | word (w : UInt32)
  | wide (x : UInt64)
  | str (text : CString)

/-- The conversions, under the letters that ask for them. -/
inductive Conversion where
  | b | u | c | llx | x | p | d | s
  deriving DecidableEq

/-- The switch over the letter behind a `%`, its case for `l` apart. -/
def conversionOf (k : UInt8) : Option Conversion :=
  if k = 0x62 then some .b
  else if k = 0x75 then some .u
  else if k = 0x63 then some .c
  else if k = 0x78 then some .x
  else if k = 0x70 then some .p
  else if k = 0x64 then some .d
  else if k = 0x73 then some .s
  else none

/-- What a conversion does with its argument. An argument of another type is outside of what the
interpreter promises anything for. -/
def convert (putchar : σ → UInt8 → σ) : Conversion → Arg → σ → Option σ
  | .b, .word u, s => emitVal putchar 2 u s
  | .u, .word u, s => emitVal putchar 10 u s
  | .c, .word c, s => some (putchar s c.toUInt8)
  | .llx, .wide x, s =>
    let hi := (x >>> 32).toUInt32
    let lo := x.toUInt32
    let s := putchar (putchar s 0x30) 0x78
    (if hi = 0 then some s else emitVal putchar 16 hi s).bind (emitVal putchar 16 lo)
  | .x, .word u, s => emitVal putchar 16 u (putchar (putchar s 0x30) 0x78)
  | .p, .word u, s => emitVal putchar 16 u (putchar (putchar s 0x30) 0x78)
  | .d, .word w, s =>
    let v := w.toInt32
    if v < 0 then emitVal putchar 10 (-v).toUInt32 (putchar s 0x2d)
    else emitVal putchar 10 v.toUInt32 s
  | .s, .str text, s => some (text.bytes.foldl putchar s)
  | _, _, _ => none

/-- A conversion takes the next argument. -/
def takeArg (putchar : σ → UInt8 → σ) (conv : Conversion) : List Arg → σ → Option (List Arg × σ)
  | [], _ => none
  | arg :: args, s => (convert putchar conv arg s).map (Prod.mk args)

/-- The loop over the format: what it returns, and the state that it leaves. It returns -1 at a
letter that is no conversion, at an `l` other than that of `%llx`, and at a `%` that ends the
format. -/
def vformat (putchar : σ → UInt8 → σ) : List UInt8 → List Arg → σ → Option (ℤ × σ)
  | [], _, s => some (0, s)
  | c :: fmt, args, s =>
    if c ≠ 0x25 then vformat putchar fmt args (putchar s c)
    else match fmt with
      | [] => some (-1, s)
      | k :: fmt =>
        if k = 0x6c then
          match fmt with
          | k₁ :: k₂ :: fmt =>
            if k₁ = 0x6c ∧ k₂ = 0x78 then
              (takeArg putchar .llx args s).bind fun rest => vformat putchar fmt rest.1 rest.2
            else some (-1, s)
          | _ => some (-1, s)
        else
          match conversionOf k with
          | some conv =>
            (takeArg putchar conv args s).bind fun rest => vformat putchar fmt rest.1 rest.2
          | none => some (-1, s)

/-- `vprintk`, after the bytes that were sent before: what it returns, and the bytes that have
been sent. -/
def vprintk (fmt : CString) (args : List Arg) (sent : List UInt8) : Option (ℤ × List UInt8) :=
  vformat uartPutchar fmt.bytes args sent

/-- The static variables of `sprintk.c`, as offsets from `buf`, and the memory from `buf` on. -/
structure Buffer where
  mem : ℕ → UInt8
  bufPtr : ℕ
  bufEnd : ℕ

/-- `putchar` of `sprintk.c`. -/
def bufPutchar (s : Buffer) (c : UInt8) : Buffer :=
  if s.bufPtr < s.bufEnd then s
  else { s with mem := Function.update s.mem s.bufPtr c, bufPtr := s.bufPtr + 1 }

/-- `vsnprintk`: what it returns, and the memory from `buf` on. The terminator is written when
the loop has come to the end of the format. -/
def vsnprintk (n : UInt32) (fmt : CString) (args : List Arg) (mem : ℕ → UInt8) :
    Option (ℤ × (ℕ → UInt8)) :=
  (vformat bufPutchar fmt.bytes args ⟨mem, 0, n.toNat⟩).map fun (ret, s) =>
    (ret, if ret = 0 then Function.update s.mem s.bufPtr 0 else s.mem)

/-! ## Formats -/

/-- The letters that ask for a conversion. -/
def Conversion.letters : Conversion → List UInt8
  | .b => [0x62]
  | .u => [0x75]
  | .c => [0x63]
  | .llx => [0x6c, 0x6c, 0x78]
  | .x => [0x78]
  | .p => [0x70]
  | .d => [0x64]
  | .s => [0x73]

/-- What a format begins with: a character that is printed, a conversion, or a `%` behind which
there is none. -/
inductive FormatShape : List UInt8 → Prop where
  | nil : FormatShape []
  | char {c : UInt8} {fmt : List UInt8} (hc : c ≠ 0x25) (rest : FormatShape fmt) :
      FormatShape (c :: fmt)
  | conversion (conv : Conversion) {fmt : List UInt8} (rest : FormatShape fmt) :
      FormatShape (0x25 :: (conv.letters ++ fmt))
  | bogus {fmt : List UInt8} (h : ∀ conv : Conversion, ¬ conv.letters <+: fmt) :
      FormatShape (0x25 :: fmt)

variable {putchar : σ → UInt8 → σ} {c : UInt8} {fmt : List UInt8} {args : List Arg} {s : σ}

theorem vformat_char (hc : c ≠ 0x25) :
    vformat putchar (c :: fmt) args s = vformat putchar fmt args (putchar s c) := by
  rw [vformat.eq_def]
  exact if_pos hc

theorem vformat_conversion (conv : Conversion) :
    vformat putchar (0x25 :: (conv.letters ++ fmt)) args s =
      (takeArg putchar conv args s).bind fun rest => vformat putchar fmt rest.1 rest.2 := by
  cases conv with
  | llx => rfl
  | _ =>
    rw [vformat.eq_def]
    rfl

theorem takeArg_eq_some_iff {conv : Conversion} {args' : List Arg} {s' : σ} :
    takeArg putchar conv args s = some (args', s') ↔
      ∃ arg, args = arg :: args' ∧ convert putchar conv arg s = some s' := by
  cases args with
  | nil => simp [takeArg]
  | cons arg args => simp [takeArg, and_comm, eq_comm]

/-- The letter of a conversion, or the `l` of `%llx`. -/
theorem letters_of_conversionOf {k : UInt8} {conv : Conversion} (h : conversionOf k = some conv) :
    conv.letters = [k] := by
  rw [conversionOf] at h
  split_ifs at h <;> obtain rfl := Option.some.inj h <;> subst k <;> rfl

/-- What the letters behind a `%` are when they begin with those of a conversion. -/
theorem letters_prefix_cons {k : UInt8} {conv : Conversion} (h : conv.letters <+: k :: fmt) :
    conversionOf k = some conv ∨ k = 0x6c ∧ ∃ rest, fmt = 0x6c :: 0x78 :: rest := by
  obtain ⟨rest, hrest⟩ := h
  cases conv with
  | llx =>
    injection hrest with hk hfmt
    exact Or.inr ⟨hk.symm, rest, hfmt.symm⟩
  | _ =>
    injection hrest with hk
    subst hk
    exact Or.inl rfl

theorem vformat_bogus (h : ∀ conv : Conversion, ¬ conv.letters <+: fmt) :
    vformat putchar (0x25 :: fmt) args s = some (-1, s) := by
  rw [vformat.eq_def]
  dsimp only
  rw [if_neg (not_not_intro rfl)]
  match fmt with
  | [] => rfl
  | k :: fmt =>
    dsimp only
    split
    · rename_i hk
      split
      · rename_i k₁ k₂ fmt
        rw [if_neg]
        rintro ⟨rfl, rfl⟩
        exact h .llx ⟨fmt, by rw [hk]; rfl⟩
      · rfl
    · split
      · rename_i conv hconv
        exact absurd ⟨fmt, by rw [letters_of_conversionOf hconv]; rfl⟩ (h conv)
      · rfl

theorem formatShape (fmt : List UInt8) : FormatShape fmt := by
  fun_induction vformat uartPutchar fmt [] [] with
  | case1 => exact .nil
  | case2 c fmt args s hc ih => exact .char hc ih
  | case3 c args s hc =>
    obtain rfl := not_not.mp hc
    exact .bogus fun conv => by cases conv <;> simp [Conversion.letters]
  | case4 c args s hc k₁ k₂ fmt hk ih =>
    obtain rfl := not_not.mp hc
    obtain ⟨rfl, rfl⟩ := hk
    exact .conversion .llx (ih ([], []))
  | case5 c args s hc k₁ k₂ fmt hk =>
    obtain rfl := not_not.mp hc
    refine .bogus fun conv hprefix => ?_
    rcases letters_prefix_cons hprefix with hconv | ⟨-, rest, hrest⟩
    · exact absurd hconv (by simp [conversionOf])
    · injection hrest with h₁ h₂
      injection h₂ with h₂
      exact hk ⟨h₁, h₂⟩
  | case6 c args s hc fmt hfmt =>
    obtain rfl := not_not.mp hc
    refine .bogus fun conv hprefix => ?_
    rcases letters_prefix_cons hprefix with hconv | ⟨-, rest, hrest⟩
    · exact absurd hconv (by simp [conversionOf])
    · exact hfmt _ _ _ hrest
  | case7 c args s hc k fmt hk conv hconv ih =>
    obtain rfl := not_not.mp hc
    have hletters := letters_of_conversionOf hconv
    have hshape := FormatShape.conversion conv (ih ([], []))
    rwa [hletters] at hshape
  | case8 c args s hc k fmt hk hconv =>
    obtain rfl := not_not.mp hc
    refine .bogus fun conv hprefix => ?_
    rcases letters_prefix_cons hprefix with hsome | ⟨hl, -⟩
    · simp [hconv] at hsome
    · exact hk hl

/-! ## Another primitive -/

section Hom

variable {τ : Type*} {put : σ → UInt8 → σ} {put' : τ → UInt8 → τ} {h : σ → τ}

theorem convert_hom (hput : ∀ s c, h (put s c) = put' (h s) c) (conv : Conversion) (arg : Arg)
    (s : σ) : convert put' conv arg (h s) = (convert put conv arg s).map h := by
  have hfold (text : List UInt8) (s : σ) : text.foldl put' (h s) = h (text.foldl put s) :=
    List.foldl_hom h fun s c => (hput s c).symm
  fun_cases convert put conv arg s with
  | case1 u s | case2 u s => rw [convert, emitVal_hom hput]
  | case3 c s => rw [convert, ← hput, Option.map_some]
  | case4 x s hi lo s₁ =>
    have hhalf : (if hi = 0 then some (h s₁) else emitVal put' 16 hi (h s₁)) =
        (if hi = 0 then some s₁ else emitVal put 16 hi s₁).map h := by
      rw [emitVal_hom hput]
      split_ifs <;> rfl
    rw [convert, ← hput, ← hput]
    show Option.bind (if hi = 0 then some (h s₁) else _) _ = _
    rw [hhalf, Option.bind_map, Option.map_bind]
    congr 1
    funext s
    exact emitVal_hom hput 16 lo s
  | case5 u s | case6 u s => rw [convert, ← hput, ← hput, emitVal_hom hput]
  | case7 w s v hv => rw [convert, if_pos hv, ← hput, emitVal_hom hput]
  | case8 w s v hv => rw [convert, if_neg hv, emitVal_hom hput]
  | case9 text s => rw [convert, hfold, Option.map_some]
  | case10 =>
    rw [convert]
    · rfl
    all_goals assumption

theorem takeArg_hom (hput : ∀ s c, h (put s c) = put' (h s) c) (conv : Conversion)
    (args : List Arg) (s : σ) :
    takeArg put' conv args (h s) = (takeArg put conv args s).map (Prod.map id h) := by
  cases args with
  | nil => rfl
  | cons arg args =>
    rw [takeArg, takeArg, convert_hom hput, Option.map_map, Option.map_map]
    rfl

/-- A map that carries one primitive over to another carries the interpreter over. -/
theorem vformat_hom (hput : ∀ s c, h (put s c) = put' (h s) c) (fmt : List UInt8)
    (args : List Arg) (s : σ) :
    vformat put' fmt args (h s) = (vformat put fmt args s).map (Prod.map id h) := by
  induction formatShape fmt generalizing args s with
  | nil => rfl
  | char hc rest ih => rw [vformat_char hc, vformat_char hc, ← hput, ih]
  | conversion conv rest ih =>
    rw [vformat_conversion, vformat_conversion, takeArg_hom hput]
    cases takeArg put conv args s with
    | none => rfl
    | some next => exact ih next.1 next.2
  | bogus hbogus =>
    rw [vformat_bogus hbogus, vformat_bogus hbogus]
    rfl

end Hom

theorem append_uartPutchar (sent text : List UInt8) (c : UInt8) :
    sent ++ uartPutchar text c = uartPutchar (sent ++ text) c :=
  (List.append_assoc sent text [c]).symm

/-- What a conversion sends does not depend on what was sent before. -/
theorem convert_append (conv : Conversion) (arg : Arg) (sent : List UInt8) :
    convert uartPutchar conv arg sent = (convert uartPutchar conv arg []).map (sent ++ ·) := by
  rw [← convert_hom (append_uartPutchar sent), List.append_nil]

/-- The text does not depend on what was sent before. -/
theorem vformat_append (fmt : List UInt8) (args : List Arg) (sent : List UInt8) :
    vformat uartPutchar fmt args sent =
      (vformat uartPutchar fmt args []).map (Prod.map id (sent ++ ·)) := by
  rw [← vformat_hom (append_uartPutchar sent), List.append_nil]

end NaiveGfs
