import NaiveGfs.Sd.Writing

/-!
# The card as a store

What can be relied on after a sequence of calls, some of which may have failed, is a partial
store: a sector that was written with success holds what was written, one whose last write
failed holds anything. A read that succeeds returns what the store says.
-/

namespace NaiveGfs

open Programs

variable {σ : Type}

/-- A call of the driver and what it returned. -/
inductive SdDone
  | read (lba num r : UInt32) (words : ℕ → UInt32)
  | write (buffer : ℕ → UInt32) (lba num r : UInt32)

/-- The number of blocks that was asked for. -/
def SdDone.num : SdDone → UInt32
  | .read _ num _ _ => num
  | .write _ _ num _ => num

/-- What the call returned. -/
def SdDone.result : SdDone → UInt32
  | .read _ _ r _ => r
  | .write _ _ _ r => r

/-- Calls of `sd_readblock` and `sd_writeblock`, one after the other. -/
inductive SdRun (ctl : Controller σ) (sd₀ : Sd σ) : List SdDone → Sd σ → Prop
  | nil : SdRun ctl sd₀ [] sd₀
  | read {done : List SdDone} {sd : Sd σ} (h : SdRun ctl sd₀ done sd) (lba num : UInt32)
      (buffer : ℕ → UInt32) :
      SdRun ctl sd₀ (done ++ [.read lba num (sdReadblock ctl lba buffer num sd).1.1
        (sdReadblock ctl lba buffer num sd).1.2]) (sdReadblock ctl lba buffer num sd).2
  | write {done : List SdDone} {sd : Sd σ} (h : SdRun ctl sd₀ done sd) (buffer : ℕ → UInt32)
      (lba num : UInt32) :
      SdRun ctl sd₀ (done ++ [.write buffer lba num (sdWriteblock ctl buffer lba num sd).1])
        (sdWriteblock ctl buffer lba num sd).2

/-- The arguments of the call can be counted by the controller. -/
def SdDone.Countable (ccs : Bool) (scr0 : UInt32) (d : SdDone) : Prop :=
  NaiveGfs.Countable ccs scr0 d.num

/-- What is known of a sector after a call. -/
def SdDone.apply (ccs : Bool) (held : UInt32 → Option Sector) : SdDone → UInt32 → Option Sector
  | .read _ _ _ _ => held
  | .write buffer lba num r => fun a =>
    if InBlocks (firstSector ccs lba) (max num.toNat 1) a then
      if r ≠ 0 then some (blockOf buffer (a - firstSector ccs lba).toNat) else none
    else held a

/-- What is known of the sectors after calls on a card that held `card`. -/
def heldAfter (ccs : Bool) (card : UInt32 → Sector) (done : List SdDone) :
    UInt32 → Option Sector :=
  done.foldl (SdDone.apply ccs) fun a => some (card a)

/-- The card has what is known of it, and no write under way will change that. -/
def Knows (held : UInt32 → Option Sector) (v : View) : Prop :=
  ∀ a x, held a = some x → v.card a = x ∧ ¬ v.Unsettled a

theorem heldAfter_concat {ccs : Bool} {card : UInt32 → Sector} {done : List SdDone} {d : SdDone} :
    heldAfter ccs card (done ++ [d]) = d.apply ccs (heldAfter ccs card done) := by
  rw [heldAfter, List.foldl_append]
  rfl

variable {ctl : Controller σ} {ccs : Bool} (law : Lawful ctl ccs)

theorem Knows.read {held : UInt32 → Option Sector} {sd : Sd σ} {lba num : UInt32}
    (h : Knows held (law.view sd.dev)) (hc : Countable ccs sd.scr0 num) (buffer : ℕ → UInt32) :
    Knows held (law.view (sdReadblock ctl lba buffer num sd).2.dev) := by
  intro a x hx
  obtain ⟨-, hwithin, -⟩ := sdReadblock_lawful law hc lba buffer
  obtain ⟨hcard, hsettled⟩ := h a x hx
  exact ⟨(hwithin.holds a hsettled).trans hcard, fun ha => hsettled (hwithin.unsettled a ha)⟩

theorem Knows.write {held : UInt32 → Option Sector} {sd : Sd σ} {lba num : UInt32}
    (h : Knows held (law.view sd.dev)) (hc : Countable ccs sd.scr0 num) (buffer : ℕ → UInt32) :
    Knows ((SdDone.write buffer lba num (sdWriteblock ctl buffer lba num sd).1).apply ccs held)
      (law.view (sdWriteblock ctl buffer lba num sd).2.dev) := by
  intro a x hx
  obtain ⟨-, hwithin, hdone⟩ := sdWriteblock_lawful law hc lba buffer
  simp only [SdDone.apply] at hx
  by_cases hin : InBlocks (firstSector ccs lba) (max num.toNat 1) a
  · rw [if_pos hin] at hx
    split at hx
    · rename_i hok
      obtain ⟨hidle, hholds⟩ := hdone hok
      cases hx
      exact ⟨hholds a hin, quiescent_idle.settled _ hidle a⟩
    · cases hx
  · rw [if_neg hin] at hx
    obtain ⟨hcard, hsettled⟩ := h a x hx
    have hout : ¬ ((law.view sd.dev).Unsettled a ∨
        InBlocks (firstSector ccs lba) (max num.toNat 1) a) := not_or.mpr ⟨hsettled, hin⟩
    exact ⟨(hwithin.holds a hout).trans hcard, fun ha => hout (hwithin.unsettled a ha)⟩

/-- The card has what is known of it after any calls. -/
theorem SdRun.knows {sd₀ sd : Sd σ} {done : List SdDone} (h : SdRun ctl sd₀ done sd)
    (hidle : (law.view sd₀.dev).Idle) (hc : ∀ d ∈ done, d.Countable ccs sd₀.scr0) :
    sd.scr0 = sd₀.scr0 ∧ Knows (heldAfter ccs (law.view sd₀.dev).card done) (law.view sd.dev) := by
  induction h with
  | nil =>
    refine ⟨rfl, fun a x hx => ⟨Option.some.inj hx, quiescent_idle.settled _ hidle a⟩⟩
  | @read done sd h lba num buffer ih =>
    obtain ⟨hscr, hknows⟩ := ih fun d hd => hc d (List.mem_append_left _ hd)
    have hcall : Countable ccs sd.scr0 num := hscr ▸ hc _ List.mem_concat_self
    refine ⟨(sdReadblock_lawful law hcall lba buffer).1.trans hscr, ?_⟩
    rw [heldAfter_concat]
    exact hknows.read law hcall buffer
  | @write done sd h buffer lba num ih =>
    obtain ⟨hscr, hknows⟩ := ih fun d hd => hc d (List.mem_append_left _ hd)
    have hcall : Countable ccs sd.scr0 num := hscr ▸ hc _ List.mem_concat_self
    refine ⟨(sdWriteblock_lawful law hcall lba buffer).1.trans hscr, ?_⟩
    rw [heldAfter_concat]
    exact hknows.write law hcall buffer

/-- After any calls, successful or not, a read that succeeds returns what is known of its
sectors: what the last write left there, unless that write failed. -/
theorem sdRun_readsBack {sd₀ sd : Sd σ} {done : List SdDone} (h : SdRun ctl sd₀ done sd)
    (hidle : (law.view sd₀.dev).Idle) (hc : ∀ d ∈ done, d.Countable ccs sd₀.scr0)
    {lba num : UInt32} (hnum : Countable ccs sd₀.scr0 num) (buffer : ℕ → UInt32)
    (hok : (sdReadblock ctl lba buffer num sd).1.1 ≠ 0) {i : ℕ} (hi : i < 128 * max num.toNat 1)
    {x : Sector}
    (hx : heldAfter ccs (law.view sd₀.dev).card done
      (firstSector ccs lba + UInt32.ofNat (i / 128)) = some x) :
    (sdReadblock ctl lba buffer num sd).1.2 i = x.wordAt i := by
  obtain ⟨hscr, hknows⟩ := h.knows law hidle hc
  have hcall : Countable ccs sd.scr0 num := hscr ▸ hnum
  obtain ⟨-, -, htaken⟩ := sdReadblock_lawful law hcall lba buffer
  rw [(htaken hok).2 i hi, ((hknows.read law hcall buffer) _ x hx).1]

/-! ## A prompt card -/

/-- What a controller that is never late has done when it is looked at. -/
def View.settle (v : View) : View :=
  match v.transfer with
  | .readWait sector left =>
    { v with transfer := .readReady sector left 0, pending := v.pending ||| intReadRdy }
  | .readEnd => { v with transfer := .idle, pending := v.pending ||| intDataDone }
  | .writeWait sector count given =>
    if given.length < 128 * count then
      { v with transfer := .writeReady sector count given, pending := v.pending ||| intWriteRdy }
    else if given.length = 128 * count then
      { v with
        card := storeBlocks v.card sector count fun k => given.getD k 0
        transfer := .idle
        pending := v.pending ||| intDataDone }
    else v
  | _ => v

/-- The status bit of the data line. -/
def Transfer.inhibit : Transfer → UInt32
  | .idle => 0
  | _ => srDatInhibit

/-- A controller that does at once what it can, with a card addressed by sectors. -/
def promptCard : Controller View where
  read r v :=
    match r with
    | .interrupt =>
      let v := View.settle { v with pending := v.pending ||| intCmdDone }
      (v.pending, v)
    | .status =>
      let v := v.settle
      (v.transfer.inhibit, v)
    | .data =>
      match v.transfer with
      | .readReady sector left taken =>
        ((v.card sector).wordAt taken, v.taken sector left taken)
      | _ => (0, v)
    | _ => (0, v)
  write r x v :=
    match r with
    | .interrupt => ((), { v with pending := v.pending &&& ~~~x })
    | .arg1 => ((), { v with arg := x })
    | .blksizecnt => ((), { v with blocks := (x >>> 16).toNat })
    | .cmdtm => ((), if x ∈ dataCommands then v.commanded true x else v)
    | .data =>
      match v.transfer with
      | .writeReady sector count given => ((), v.given sector count (given ++ [x]))
      | _ => ((), v)
    | _ => ((), v)
  waitMsec _ v := ((), v)
  waitCycles _ v := ((), v)

theorem View.drifts_settle (v : View) : v.Drifts v.settle := by
  unfold View.settle
  split
  · rename_i ht
    exact .single (.readReady ht)
  · rename_i ht
    exact .single (.readEnds ht)
  · rename_i ht
    split
    · rename_i hlen
      exact .single (.writeReady ht hlen)
    · split
      · rename_i hlen
        exact .single (.written ht hlen)
      · exact .refl
  · exact .refl

theorem toNat_blockCount (n : UInt32) :
    ((n <<< 16 ||| 512 : UInt32) >>> 16).toNat = n.toNat % 2 ^ 16 := by
  have hn : n.toNat < 2 ^ 32 := n.toNat_lt
  have hshift : (n <<< 16 : UInt32).toNat = n.toNat * 2 ^ 16 % 2 ^ 32 := by
    rw [UInt32.toNat_shiftLeft, Nat.shiftLeft_eq]
    rfl
  rw [UInt32.toNat_shiftRight, UInt32.toNat_or, hshift]
  change (n.toNat * 2 ^ 16 % 2 ^ 32 ||| 512) >>> 16 = _
  rw [Nat.shiftRight_or_distrib, Nat.shiftRight_eq_div_pow]
  change n.toNat * 2 ^ 16 % 2 ^ 32 / 2 ^ 16 ||| 0 = _
  rw [Nat.or_zero]
  omega

/-- The prompt card does what the driver relies on. -/
def promptCardLawful : Lawful promptCard true where
  view v := v
  waitMsec _ _ := .refl
  read r hr v := by
    cases r with
    | interrupt => exact .head (.raises intCmdDone (by decide)) (View.drifts_settle _)
    | status => exact View.drifts_settle v
    | data => exact absurd rfl hr
    | _ => exact .refl
  interrupt _ := rfl
  status v hv := by
    change v.settle.transfer.inhibit &&& srDatInhibit = 0 at hv
    change v.settle.transfer = .idle
    generalize v.settle.transfer = t at hv ⊢
    have hbusy : srDatInhibit &&& srDatInhibit ≠ 0 := by decide
    cases t with
    | idle => rfl
    | _ => exact absurd hv hbusy
  data v sector left taken ht := by
    refine ⟨v, .refl, ?_⟩
    simp [promptCard, ht]
  clear x v := ⟨v, .refl, rfl⟩
  setArg x v := ⟨v, .refl, rfl⟩
  setBlocks n v := ⟨v, .refl, by rw [← toNat_blockCount]; rfl⟩
  sendData code hcode v _ := ⟨v, .refl, if_pos hcode⟩
  sendOther code hcode v _ := by
    have hother : code ∉ dataCommands := by
      simp only [List.mem_cons, List.not_mem_nil, or_false] at hcode
      rcases hcode with rfl | rfl
      · decide
      · decide
    rw [show (promptCard.write .cmdtm code v).2 = v from if_neg hother]
  give w v sector count words ht := by
    refine ⟨v, .refl, ?_⟩
    simp [promptCard, ht]

/-- The driver of a card addressed by sectors, with nothing under way and every byte 7. -/
def promptSd : Sd View :=
  { scr0 := scrSuppCcs, scr1 := 0, err := 0, hv := 0, rca := 0
    dev := ⟨fun _ _ => 7, 0, 0, 0, .idle⟩ }

/-- A sector is written and read back. -/
theorem sdRun_readsBack_prompt :
    (sdReadblock promptCard 5 (fun _ => 0) 1
      (sdWriteblock promptCard UInt32.ofNat 5 1 promptSd).2).1.2 3 = 3 := by
  have hwritten : (sdWriteblock promptCard UInt32.ofNat 5 1 promptSd).1 ≠ 0 := by decide +kernel
  have hread : (sdReadblock promptCard 5 (fun _ => 0) 1
      (sdWriteblock promptCard UInt32.ofNat 5 1 promptSd).2).1.1 ≠ 0 := by decide +kernel
  have hrun : SdRun promptCard promptSd
      [.write UInt32.ofNat 5 1 (sdWriteblock promptCard UInt32.ofNat 5 1 promptSd).1]
      (sdWriteblock promptCard UInt32.ofNat 5 1 promptSd).2 := SdRun.nil.write UInt32.ofNat 5 1
  generalize sdWriteblock promptCard UInt32.ofNat 5 1 promptSd = out at hwritten hread hrun ⊢
  have hcount : Countable true promptSd.scr0 1 := ⟨by decide, by decide, Or.inl rfl⟩
  have hheld : heldAfter true promptSd.dev.card [.write UInt32.ofNat 5 1 out.1]
      (firstSector true 5 + UInt32.ofNat (3 / 128)) = some (blockOf UInt32.ofNat 0) := by
    have hin : InBlocks (firstSector true 5) (max (1 : UInt32).toNat 1)
        (firstSector true 5 + UInt32.ofNat (3 / 128)) := by decide
    simp only [heldAfter, List.foldl_cons, List.foldl_nil, SdDone.apply]
    rw [if_pos hin, if_pos hwritten]
    rfl
  have hcalls : ∀ d ∈ [SdDone.write UInt32.ofNat 5 1 out.1],
      d.Countable true promptSd.scr0 := by
    intro d hd
    rw [List.mem_singleton.mp hd]
    exact hcount
  have hword := sdRun_readsBack promptCardLawful hrun rfl hcalls hcount (fun _ => 0) hread
    (i := 3) (by decide) hheld
  rw [hword, blockOf, Sector.wordAt, Sector.word_ofWords]
  rfl

end NaiveGfs
