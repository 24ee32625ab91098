import Mathlib.Logic.Relation
import NaiveGfs.Sd.Block
import NaiveGfs.Sd.Sector

/-!
# What the driver relies on

The controller and the card behind it are hardware. A `View` is what the driver may know of
their state: the contents of the card, the argument and the block count that were set, the
interrupts that are pending and the transfer under way. Between two accesses the view moves
by itself (`View.Moves`): blocks become ready, interrupts and errors are raised, a transfer
comes to its end or is given up. `Lawful` says what each access does to the view.
-/

namespace NaiveGfs

open Programs

variable {σ : Type}

/-- The transfer under way. A block that is awaited is `wait`, one whose words can be taken
or given is `ready`; `readEnd` is a read whose last word was taken. -/
inductive Transfer
  | idle
  | readWait (sector : UInt32) (left : ℕ)
  | readReady (sector : UInt32) (left taken : ℕ)
  | readEnd
  | writeWait (sector : UInt32) (count : ℕ) (given : List UInt32)
  | writeReady (sector : UInt32) (count : ℕ) (given : List UInt32)

/-- What the driver may know of the controller and the card. -/
structure View where
  card : UInt32 → Sector
  arg : UInt32
  blocks : ℕ
  pending : UInt32
  transfer : Transfer

/-- The interrupts that belong to a transfer of data. -/
def dataInterrupts : UInt32 := intReadRdy ||| intWriteRdy ||| intDataDone

/-- Sector `a` is one of `count` from `first` on. -/
def InBlocks (first : UInt32) (count : ℕ) (a : UInt32) : Prop := (a - first).toNat < count

instance (first : UInt32) (count : ℕ) (a : UInt32) : Decidable (InBlocks first count a) :=
  inferInstanceAs (Decidable (_ < _))

/-- Block `c` of a buffer, as a sector. -/
def blockOf (words : ℕ → UInt32) (c : ℕ) : Sector :=
  Sector.ofWords fun k => words (128 * c + k.val)

/-- The card after `count` blocks were stored from `first` on. -/
def storeBlocks (card : UInt32 → Sector) (first : UInt32) (count : ℕ) (words : ℕ → UInt32) :
    UInt32 → Sector := fun a =>
  if InBlocks first count a then blockOf words (a - first).toNat else card a

/-- The sectors that a write under way may have changed already, or may still change. -/
def View.Unsettled (v : View) (a : UInt32) : Prop :=
  match v.transfer with
  | .writeWait first count _ => InBlocks first count a
  | .writeReady first count _ => InBlocks first count a
  | _ => False

/-- What the controller and the card do by themselves. -/
inductive View.Moves (v : View) : View → Prop
  /-- An interrupt that says nothing of the data: a command is done, or something failed. -/
  | raises (e : UInt32) (h : e &&& dataInterrupts = 0) :
      Moves v { v with pending := v.pending ||| e }
  | readReady {sector : UInt32} {left : ℕ} (h : v.transfer = .readWait sector left) :
      Moves v { v with
        transfer := .readReady sector left 0
        pending := v.pending ||| intReadRdy }
  | readEnds (h : v.transfer = .readEnd) :
      Moves v { v with transfer := .idle, pending := v.pending ||| intDataDone }
  | writeReady {sector : UInt32} {count : ℕ} {given : List UInt32}
      (h : v.transfer = .writeWait sector count given) (hlen : given.length < 128 * count) :
      Moves v { v with
        transfer := .writeReady sector count given
        pending := v.pending ||| intWriteRdy }
  /-- Until a write has ended its sectors hold anything. -/
  | programs (card : UInt32 → Sector) (h : ∀ a, ¬ v.Unsettled a → card a = v.card a) :
      Moves v { v with card := card }
  | written {sector : UInt32} {count : ℕ} {given : List UInt32}
      (h : v.transfer = .writeWait sector count given) (hlen : given.length = 128 * count) :
      Moves v { v with
        card := storeBlocks v.card sector count fun k => given.getD k 0
        transfer := .idle
        pending := v.pending ||| intDataDone }
  /-- A transfer that waits is given up. -/
  | readAborts {sector : UInt32} {left : ℕ} (h : v.transfer = .readWait sector left) :
      Moves v { v with transfer := .idle }
  | writeAborts {sector : UInt32} {count : ℕ} {given : List UInt32}
      (h : v.transfer = .writeWait sector count given) : Moves v { v with transfer := .idle }

/-- Any number of moves. -/
abbrev View.Drifts : View → View → Prop := Relation.ReflTransGen View.Moves

/-- The sector that a data command addresses: a card is addressed by sectors or by bytes. -/
def addressed (ccs : Bool) (arg : UInt32) : UInt32 := if ccs then arg else arg / 512

/-- The view after a data command. -/
def View.commanded (ccs : Bool) (v : View) (code : UInt32) : View :=
  let sector := addressed ccs v.arg
  { v with transfer :=
      if code = cmdReadSingle then .readWait sector 1
      else if code = cmdReadMulti then .readWait sector v.blocks
      else if code = cmdWriteSingle then .writeWait sector 1 []
      else .writeWait sector v.blocks [] }

/-- The view after a word of the block at hand was taken. -/
def View.taken (v : View) (sector : UInt32) (left taken : ℕ) : View :=
  { v with transfer :=
      if taken + 1 < 128 then .readReady sector left (taken + 1)
      else if left ≤ 1 then .readEnd
      else .readWait (sector + 1) (left - 1) }

/-- The view after a word was given to the block at hand. -/
def View.given (v : View) (sector : UInt32) (count : ℕ) (words : List UInt32) : View :=
  { v with transfer :=
      if words.length % 128 = 0 then .writeWait sector count words
      else .writeReady sector count words }

/-- The commands that start a transfer of data. -/
def dataCommands : List UInt32 := [cmdReadSingle, cmdReadMulti, cmdWriteSingle, cmdWriteMulti]

/-- What each access does to the view, behind what the view does by itself. Nothing is said of
accesses that the transfers never make, such as a data command while a transfer is under way. -/
structure Lawful (ctl : Controller σ) (ccs : Bool) where
  view : σ → View
  waitMsec : ∀ n s, (view s).Drifts (view (ctl.waitMsec n s).2)
  read : ∀ r ≠ .data, ∀ s, (view s).Drifts (view (ctl.read r s).2)
  interrupt : ∀ s, (ctl.read .interrupt s).1 = (view (ctl.read .interrupt s).2).pending
  status : ∀ s, (ctl.read .status s).1 &&& srDatInhibit = 0 →
    (view (ctl.read .status s).2).transfer = .idle
  data : ∀ s sector left taken, (view s).transfer = .readReady sector left taken →
    ∃ v, (view s).Drifts v ∧
      (ctl.read .data s).1 = (v.card sector).wordAt taken ∧
      view (ctl.read .data s).2 = v.taken sector left taken
  clear : ∀ x s, ∃ v, (view s).Drifts v ∧
    view (ctl.write .interrupt x s).2 = { v with pending := v.pending &&& ~~~x }
  setArg : ∀ x s, ∃ v, (view s).Drifts v ∧ view (ctl.write .arg1 x s).2 = { v with arg := x }
  setBlocks : ∀ (n : UInt32) s, ∃ v, (view s).Drifts v ∧
    view (ctl.write .blksizecnt (n <<< 16 ||| 512) s).2 = { v with blocks := n.toNat % 2 ^ 16 }
  sendData : ∀ code ∈ dataCommands, ∀ s,
    (view s).transfer = .idle → ∃ v, (view s).Drifts v ∧
      view (ctl.write .cmdtm code s).2 = v.commanded ccs code
  sendOther : ∀ code ∈ [cmdSetBlockcnt, cmdStopTrans], ∀ s,
    (view s).transfer = .idle ∨ (view s).transfer = .readEnd →
      (view s).Drifts (view (ctl.write .cmdtm code s).2)
  give : ∀ w s sector count words, (view s).transfer = .writeReady sector count words →
    ∃ v, (view s).Drifts v ∧
      view (ctl.write .data w s).2 = v.given sector count (words ++ [w])

/-! ## Masks -/

section Masks

variable {x e m a b : UInt32}

theorem and_or_eq_zero : x &&& (a ||| b) = 0 ↔ x &&& a = 0 ∧ x &&& b = 0 := by
  rw [← UInt32.toBitVec_inj, ← UInt32.toBitVec_inj, ← UInt32.toBitVec_inj]
  simp only [UInt32.toBitVec_and, UInt32.toBitVec_or, BitVec.and_or_distrib_left]
  exact BitVec.or_eq_zero_iff

theorem or_and_eq_zero : (x ||| e) &&& m = 0 ↔ x &&& m = 0 ∧ e &&& m = 0 := by
  rw [UInt32.and_comm, and_or_eq_zero, UInt32.and_comm m x, UInt32.and_comm m e]

theorem and_eq_zero_of_part (h : a &&& m = m) (hx : x &&& a = 0) : x &&& m = 0 := by
  rw [← h, ← UInt32.and_assoc, hx, UInt32.zero_and]

theorem clear_and_eq_zero (h : x &&& m = 0) : x &&& ~~~e &&& m = 0 := by
  rw [UInt32.and_assoc, UInt32.and_comm (~~~e), ← UInt32.and_assoc, h, UInt32.zero_and]

theorem clear_and_self : x &&& ~~~m &&& m = 0 := by
  rw [UInt32.and_assoc, UInt32.not_and_self, UInt32.and_zero]

/-- An interrupt that was not raised was pending before. -/
theorem pending_of_raised (he : e &&& m = 0) (h : (x ||| e) &&& m ≠ 0) : x &&& m ≠ 0 :=
  fun hx => h (or_and_eq_zero.mpr ⟨hx, he⟩)

theorem pending_of_cleared (h : x &&& ~~~e &&& m ≠ 0) : x &&& m ≠ 0 :=
  fun hx => h (clear_and_eq_zero hx)

end Masks

/-! ## What moves keep -/

/-- A property that the view keeps by itself and when interrupts are cleared. -/
structure Stable (p : View → Prop) : Prop where
  moves : ∀ {v v'}, v.Moves v' → p v → p v'
  clears : ∀ {v} x, p v → p { v with pending := v.pending &&& ~~~x }

theorem Stable.drifts {p : View → Prop} (h : Stable p) {v v' : View} (hv : v.Drifts v')
    (hp : p v) : p v' := by
  induction hv with
  | refl => exact hp
  | tail _ hmove ih => exact h.moves hmove ih

theorem Stable.and {p q : View → Prop} (hp : Stable p) (hq : Stable q) :
    Stable fun v => p v ∧ q v where
  moves hmove h := ⟨hp.moves hmove h.1, hq.moves hmove h.2⟩
  clears x h := ⟨hp.clears x h.1, hq.clears x h.2⟩

/-- No transfer is under way. -/
def View.Idle (v : View) : Prop := v.transfer = .idle

/-- What a move makes of the transfer, and the interrupts that it raises. -/
inductive Transfer.Steps : Transfer → UInt32 → Transfer → Prop
  | stays (t : Transfer) (e : UInt32) (h : e &&& dataInterrupts = 0) : Steps t e t
  | readReady (sector : UInt32) (left : ℕ) :
      Steps (.readWait sector left) intReadRdy (.readReady sector left 0)
  | readAborts (sector : UInt32) (left : ℕ) : Steps (.readWait sector left) 0 .idle
  | readEnds : Steps .readEnd intDataDone .idle
  | writeReady (sector : UInt32) (count : ℕ) (given : List UInt32)
      (hlen : given.length < 128 * count) :
      Steps (.writeWait sector count given) intWriteRdy (.writeReady sector count given)
  | written (sector : UInt32) (count : ℕ) (given : List UInt32)
      (hlen : given.length = 128 * count) : Steps (.writeWait sector count given) intDataDone .idle
  | writeAborts (sector : UInt32) (count : ℕ) (given : List UInt32) :
      Steps (.writeWait sector count given) 0 .idle

theorem View.Moves.steps {v v' : View} (h : v.Moves v') :
    ∃ e, v.transfer.Steps e v'.transfer ∧ v'.pending = v.pending ||| e := by
  cases h with
  | raises e he => exact ⟨e, .stays _ e he, rfl⟩
  | programs _ _ => exact ⟨0, .stays _ 0 rfl, (UInt32.or_zero).symm⟩
  | readReady ht =>
    rw [ht]
    exact ⟨_, .readReady _ _, rfl⟩
  | readEnds ht =>
    rw [ht]
    exact ⟨_, .readEnds, rfl⟩
  | writeReady ht hlen =>
    rw [ht]
    exact ⟨_, .writeReady _ _ _ hlen, rfl⟩
  | written ht hlen =>
    rw [ht]
    exact ⟨_, .written _ _ _ hlen, rfl⟩
  | readAborts ht =>
    rw [ht]
    exact ⟨0, .readAborts _ _, (UInt32.or_zero).symm⟩
  | writeAborts ht =>
    rw [ht]
    exact ⟨0, .writeAborts _ _ _, (UInt32.or_zero).symm⟩

theorem stable_idle : Stable View.Idle where
  moves {v v'} hmove h := by
    obtain ⟨e, hstep, -⟩ := hmove.steps
    rw [show v.transfer = .idle from h] at hstep
    generalize ht : v'.transfer = t at hstep
    cases hstep with
    | stays _ _ _ => exact ht
  clears _ h := h

theorem stable_arg (arg : UInt32) : Stable fun v => v.arg = arg where
  moves hmove h := by
    cases hmove <;> exact h
  clears _ h := h

theorem stable_blocks (n : ℕ) : Stable fun v => v.blocks = n where
  moves hmove h := by
    cases hmove <;> exact h
  clears _ h := h

/-- The card holds `card` outside the sectors in `loose`, and only those are being written. -/
structure View.Within (card : UInt32 → Sector) (loose : UInt32 → Prop) (v : View) : Prop where
  holds : ∀ a, ¬ loose a → v.card a = card a
  unsettled : ∀ a, v.Unsettled a → loose a

theorem stable_within (card : UInt32 → Sector) (loose : UInt32 → Prop) :
    Stable (View.Within card loose) where
  moves {v v'} hmove h := by
    cases hmove with
    | raises e he => exact ⟨h.holds, h.unsettled⟩
    | readReady ht => exact ⟨h.holds, fun a ha => ha.elim⟩
    | readEnds ht => exact ⟨h.holds, fun a ha => ha.elim⟩
    | writeReady ht =>
      refine ⟨h.holds, fun a ha => h.unsettled a ?_⟩
      rw [View.Unsettled, ht]
      exact ha
    | programs card' hcard =>
      refine ⟨fun a ha => ?_, h.unsettled⟩
      exact (hcard a fun hun => ha (h.unsettled a hun)).trans (h.holds a ha)
    | written ht =>
      refine ⟨fun a ha => ?_, fun a ha => ha.elim⟩
      have hout : ¬ InBlocks _ _ a := fun hin =>
        ha (h.unsettled a (by rw [View.Unsettled, ht]; exact hin))
      exact (if_neg hout).trans (h.holds a ha)
    | readAborts ht => exact ⟨h.holds, fun a ha => ha.elim⟩
    | writeAborts ht => exact ⟨h.holds, fun a ha => ha.elim⟩
  clears x h := ⟨h.holds, h.unsettled⟩

/-- While nothing is being written the card stays as it is. -/
theorem Stable.on_card {p : View → Prop} (h : Stable p) (hsettled : ∀ v, p v → ∀ a, ¬ v.Unsettled a)
    (q : (UInt32 → Sector) → Prop) : Stable fun v => p v ∧ q v.card where
  moves {v v'} hmove hv := by
    refine ⟨h.moves hmove hv.1, ?_⟩
    have hout : ∀ a, ¬ v.Unsettled a := hsettled v hv.1
    cases hmove with
    | programs card hcard =>
      have heq : card = v.card := funext fun a => hcard a (hout a)
      rw [heq]
      exact hv.2
    | @written first count given ht hlen =>
      have heq : storeBlocks v.card first count (fun k => given.getD k 0) = v.card := by
        funext a
        refine if_neg fun hin => hout a ?_
        rw [View.Unsettled, ht]
        exact hin
      rw [heq]
      exact hv.2
    | raises _ _ => exact hv.2
    | readReady _ => exact hv.2
    | readEnds _ => exact hv.2
    | writeReady _ _ => exact hv.2
    | readAborts _ => exact hv.2
    | writeAborts _ => exact hv.2
  clears x hv := ⟨h.clears x hv.1, hv.2⟩

/-! ## The waits -/

namespace Lawful

variable {ctl : Controller σ} {ccs : Bool} (law : Lawful ctl ccs) {g : SdGlobals}
  {p q : View → Prop}

/-- A property of the view, of the controller. -/
def has (p : View → Prop) (s : σ) : Prop := p (law.view s)

theorem quiet (h : Stable p) : Quiet ctl (law.has p) where
  read r hr s hs := h.drifts (law.read r hr s) hs
  clear x s hs := by
    obtain ⟨v, hv, heq⟩ := law.clear x s
    rw [has, heq]
    exact h.clears x (h.drifts hv hs)
  waitMsec n s hs := h.drifts (law.waitMsec n s) hs

/-- An error is pending. -/
def Failing (v : View) : Prop := v.pending &&& intErrorMask ≠ 0

theorem failing_moves {v v' : View} (h : v.Moves v') (hv : Failing v) : Failing v' := by
  obtain ⟨e, -, hp⟩ := h.steps
  rw [Failing, hp]
  exact fun hzero => hv (or_and_eq_zero.mp hzero).1

theorem failing_drifts {v v' : View} (h : v.Drifts v') (hv : Failing v) : Failing v' := by
  induction h with
  | refl => exact hv
  | tail _ hmove ih => exact failing_moves hmove ih

/-- `sd_status` finds no data under way. -/
theorem sdStatus_idle (hp : Stable p) {mask : UInt32}
    (hmask : mask &&& srDatInhibit = srDatInhibit) :
    Contract (At g (law.has p)) (sdStatus ctl mask)
      (fun r => At g (law.has fun v => p v ∧ (r = sdOk → v.Idle))) := by
  have hboth : Stable fun v => p v ∧ v.Idle := hp.and stable_idle
  have hirq : ∀ q : View → Prop, (∀ {v v'}, v.Drifts v' → q v → q v') →
      Contract (At g (law.has q)) (ctl.readReg .interrupt)
        (fun x => At g (law.has fun v => q v ∧ x = v.pending)) := fun q hq =>
    readReg_contract fun s hs => ⟨hq (law.read .interrupt (by decide) s) hs, law.interrupt s⟩
  refine Contract.bind (m := fun cnt => At g (law.has fun v =>
    p v ∧ (0 ≤ cnt → v.Idle ∨ Failing v))) ?_ fun cnt => Contract.ite (fun _ => ?_) fun hcnt => ?_
  · refine (Contract.poll (d := fun sd => (law.view sd.dev).Idle ∨ Failing (law.view sd.dev))
      ?_ ((law.quiet hp).delayMsec 1) _).strengthen_post fun cnt sd hs => ⟨hs.1.1, hs.1.2, hs.2⟩
    refine Contract.bind (m := fun x => At g (law.has fun v =>
      p v ∧ (x &&& srDatInhibit = 0 → v.Idle))) ?_ fun status =>
        Contract.ite (fun hst => ?_) fun _ => ?_
    · exact readReg_contract fun s hs =>
        ⟨hp.drifts (law.read .status (by decide) s) hs, law.status s⟩
    · have hzero : status &&& srDatInhibit = 0 := and_eq_zero_of_part hmask hst
      exact Contract.pure fun sd hs => ⟨⟨hs.1, hs.2.1⟩, fun _ => Or.inl (hs.2.2 hzero)⟩
    · refine Contract.bind ((hirq p hp.drifts).weaken_pre fun sd hs => ⟨hs.1, hs.2.1⟩) fun irq => ?_
      refine Contract.pure fun sd hs => ⟨⟨hs.1, hs.2.1⟩, fun hfail => Or.inr ?_⟩
      rw [Failing, ← hs.2.2]
      simpa using hfail
  · exact Contract.pure fun sd hs => ⟨hs.1, hs.2.1, fun h => absurd h (by decide)⟩
  · refine Contract.bind (hirq (fun v => p v ∧ (0 ≤ cnt → v.Idle ∨ Failing v)) ?_) fun irq => ?_
    · exact fun hd hv => ⟨hp.drifts hd hv.1, fun hc => (hv.2 hc).imp (stable_idle.drifts hd)
        (failing_drifts hd)⟩
    · refine Contract.pure fun sd hs => ⟨hs.1, hs.2.1.1, fun hok => ?_⟩
      rcases hs.2.1.2 (not_le.mp hcnt).le with hidle | hfail
      · exact hidle
      · rw [Failing, ← hs.2.2] at hfail
        rw [if_pos hfail] at hok
        exact absurd hok (by decide)

/-- `sd_int` returns 0 only when its interrupt has come, and clears it. -/
theorem sdInt_comes (mask : UInt32) (hp : Stable p) (hq : Stable q)
    (hseen : ∀ v, p v → v.pending &&& mask ≠ 0 → q v) :
    Contract (At g (law.has p)) (sdInt ctl mask) (fun r => At g (law.has fun v =>
      p v ∧ (r = 0 → q v ∧ v.pending &&& mask = 0))) := by
  have hirq : ∀ q : View → Prop, (∀ {v v'}, v.Drifts v' → q v → q v') →
      Contract (At g (law.has q)) (ctl.readReg .interrupt)
        (fun x => At g (law.has fun v => q v ∧ x = v.pending)) := fun q hq =>
    readReg_contract fun s hs => ⟨hq (law.read .interrupt (by decide) s) hs, law.interrupt s⟩
  let seen := fun (cnt : ℤ) v => p v ∧ (0 ≤ cnt → q v ∨ Failing v)
  refine Contract.bind (m := fun cnt => At g (law.has (seen cnt))) ?_ fun cnt => ?_
  · refine (Contract.poll (d := fun sd => q (law.view sd.dev) ∨ Failing (law.view sd.dev))
      ?_ ((law.quiet hp).delayMsec 1) _).strengthen_post fun cnt sd hs => ⟨hs.1.1, hs.1.2, hs.2⟩
    refine Contract.bind (hirq p hp.drifts) fun irq => Contract.pure fun sd hs => ?_
    refine ⟨⟨hs.1, hs.2.1⟩, fun hsome => ?_⟩
    have hne : ¬ irq &&& (mask ||| intErrorMask) = 0 := by simpa using hsome
    rw [and_or_eq_zero, not_and_or] at hne
    rw [Failing, ← hs.2.2]
    exact hne.imp_left fun hmask => hseen _ hs.2.1 (hs.2.2 ▸ hmask)
  · refine Contract.bind (hirq (seen cnt) fun hd hv => ⟨hp.drifts hd hv.1, fun hc =>
      (hv.2 hc).imp (hq.drifts hd) (failing_drifts hd)⟩) fun r => ?_
    have hfailed : ∀ res : UInt32, res ≠ 0 → Contract
        (At g (law.has fun v => seen cnt v ∧ r = v.pending))
        (do ctl.writeReg .interrupt r; pure res : StateM (Sd σ) UInt32)
        (fun r => At g (law.has fun v => p v ∧ (r = 0 → q v ∧ v.pending &&& mask = 0))) := by
      intro res hres
      refine Contract.bind (((law.quiet hp).writeInterrupt r).weaken_pre
        fun sd hs => ⟨hs.1, hs.2.1.1⟩) fun _ => ?_
      exact Contract.pure fun sd hs => ⟨hs.1, hs.2, fun h => absurd h hres⟩
    refine Contract.ite (fun _ => hfailed _ (by decide)) fun hcnt =>
      Contract.ite (fun _ => hfailed _ (by decide)) fun herr => ?_
    have hcame : ∀ sd, At g (law.has fun v => seen cnt v ∧ r = v.pending) sd →
        At g (law.has fun v => p v ∧ q v) sd := by
      rintro sd ⟨hg, ⟨hpv, hsome⟩, hr⟩
      have hpos : 0 ≤ cnt := (not_le.mp (not_or.mp hcnt).1).le
      refine ⟨hg, hpv, (hsome hpos).resolve_right fun hfail => ?_⟩
      rw [Failing, ← hr] at hfail
      exact herr hfail
    refine Contract.bind (m := fun _ => At g (law.has fun v =>
      (p v ∧ q v) ∧ v.pending &&& mask = 0)) ?_ fun _ => Contract.pure fun sd hs =>
        ⟨hs.1, hs.2.1.1, fun _ => ⟨hs.2.1.2, hs.2.2⟩⟩
    refine (writeReg_contract fun s hs => ?_).weaken_pre hcame
    obtain ⟨v, hv, heq⟩ := law.clear mask s
    rw [has, heq]
    exact ⟨(hp.and hq).clears mask ((hp.and hq).drifts hv hs), clear_and_self⟩

/-! ## Issuing a command -/

/-- A property that does not depend on the argument that was set. -/
def AnyArg (p : View → Prop) : Prop := ∀ v x, p v → p { v with arg := x }

/-- While no data are under way nothing is raised that belongs to data. -/
theorem stable_noData {m : UInt32} (hm : dataInterrupts &&& m = m) :
    Stable fun v => v.Idle ∧ v.pending &&& m = 0 where
  moves {v v'} hmove h := by
    refine ⟨stable_idle.moves hmove h.1, ?_⟩
    obtain ⟨e, hstep, hp⟩ := hmove.steps
    rw [show v.transfer = .idle from h.1] at hstep
    generalize v'.transfer = t at hstep
    cases hstep with
    | stays _ _ he =>
      rw [hp]
      exact or_and_eq_zero.mpr ⟨h.2, and_eq_zero_of_part hm he⟩
  clears x h := ⟨h.1, clear_and_eq_zero h.2⟩

/-- What is cleared just before a command leaves no interrupt of data pending. -/
theorem issue_clears (hp : Stable p) {s : σ} (hs : law.has (fun v => p v ∧ v.Idle) s) :
    let irq := ctl.read .interrupt s
    law.has (fun v => p v ∧ v.Idle ∧ v.pending &&& dataInterrupts = 0)
      (ctl.write .interrupt irq.1 irq.2).2 := by
  intro irq
  have hread : p (law.view irq.2) ∧ (law.view irq.2).Idle :=
    (hp.and stable_idle).drifts (law.read .interrupt (by decide) s) hs
  obtain ⟨v, hd, heq⟩ := law.clear irq.1 irq.2
  -- what is pending by now and was not seen belongs to no data
  have hseen : v.Idle ∧ v.pending &&& (~~~irq.1 &&& dataInterrupts) = 0 := by
    have hpart : dataInterrupts &&& (~~~irq.1 &&& dataInterrupts) =
        ~~~irq.1 &&& dataInterrupts := by
      rw [UInt32.and_comm, UInt32.and_assoc, UInt32.and_self]
    refine (stable_noData hpart).drifts hd ⟨hread.2, ?_⟩
    have hx : irq.1 = (law.view irq.2).pending := law.interrupt s
    rw [← hx, ← UInt32.and_assoc, UInt32.and_not_self, UInt32.zero_and]
  rw [has, heq]
  refine ⟨hp.clears _ (hp.drifts hd hread.1), hseen.1, ?_⟩
  change v.pending &&& ~~~irq.1 &&& dataInterrupts = 0
  rw [UInt32.and_assoc]
  exact hseen.2

/-- A data command is given to an idle controller with no interrupt of data pending. -/
theorem issue_data (hp : Stable p) (harg : AnyArg p) {code arg : UInt32}
    (hcode : code ∈ dataCommands) {s : σ}
    (hs : law.has (fun v => p v ∧ v.Idle) s) :
    ∃ v, p v ∧ v.arg = arg ∧ v.pending &&& dataInterrupts = 0 ∧
      law.view (ctl.issue code arg s) = v.commanded ccs code := by
  have hcleared := law.issue_clears hp hs
  have hstable := hp.and (stable_noData (UInt32.and_self))
  obtain ⟨v₁, hd₁, heq₁⟩ := law.setArg arg (ctl.write .interrupt (ctl.read .interrupt s).1
    (ctl.read .interrupt s).2).2
  have hset : law.has (fun v => (p v ∧ v.Idle ∧ v.pending &&& dataInterrupts = 0) ∧ v.arg = arg)
      (ctl.write .arg1 arg (ctl.write .interrupt (ctl.read .interrupt s).1
        (ctl.read .interrupt s).2).2).2 := by
    rw [has, heq₁]
    have hv₁ := hstable.drifts hd₁ hcleared
    exact ⟨⟨harg v₁ arg hv₁.1, hv₁.2⟩, rfl⟩
  obtain ⟨v₂, hd₂, heq₂⟩ := law.sendData code hcode _ hset.1.2.1
  have hv₂ := (hstable.and (stable_arg arg)).drifts hd₂ hset
  exact ⟨v₂, hv₂.1.1, hv₂.2, hv₂.1.2.2, heq₂⟩

/-- The other commands of a transfer leave the view alone. -/
theorem issue_other (hp : Stable p) (harg : AnyArg p)
    (hover : ∀ v, p v → v.transfer = .idle ∨ v.transfer = .readEnd) {code arg : UInt32}
    (hcode : code ∈ [cmdSetBlockcnt, cmdStopTrans]) {s : σ} (hs : law.has p s) :
    law.has p (ctl.issue code arg s) := by
  have hcleared : law.has p (ctl.write .interrupt (ctl.read .interrupt s).1
      (ctl.read .interrupt s).2).2 :=
    (law.quiet hp).clear _ _ ((law.quiet hp).read .interrupt (by decide) s hs)
  obtain ⟨v, hd, heq⟩ := law.setArg arg (ctl.write .interrupt (ctl.read .interrupt s).1
    (ctl.read .interrupt s).2).2
  have hset : law.has p (ctl.write .arg1 arg (ctl.write .interrupt (ctl.read .interrupt s).1
      (ctl.read .interrupt s).2).2).2 := by
    rw [has, heq]
    exact harg v arg (hp.drifts hd hcleared)
  exact hp.drifts (law.sendOther code hcode _ (hover _ hset)) hset

/-- The number of blocks is set. -/
theorem setBlocks_contract (hp : Stable p) (hblocks : ∀ v n, p v → p { v with blocks := n })
    (n : UInt32) :
    Contract (At g (law.has p)) (ctl.writeReg .blksizecnt (n <<< 16 ||| 512))
      (fun _ => At g (law.has fun v => p v ∧ v.blocks = n.toNat % 2 ^ 16)) := by
  refine writeReg_contract fun s hs => ?_
  obtain ⟨v, hd, heq⟩ := law.setBlocks n s
  rw [has, heq]
  exact ⟨hblocks v _ (hp.drifts hd hs), rfl⟩

/-! ## The commands in front of the blocks -/

theorem plain_of_mem {code : UInt32} (h : code ∈ dataCommands) : code &&& cmdNeedApp = 0 := by
  simp only [dataCommands, List.mem_cons, List.not_mem_nil, or_false] at h
  rcases h with rfl | rfl | rfl | rfl
  · decide
  · decide
  · decide
  · decide

section Starts

variable {β : Type} (dir : Direction σ β) (lba : UInt32)

/-- A data command that an idle controller is given. -/
theorem dataCommand_contract (hp : Stable p) (harg : AnyArg p) (hq : Stable q)
    {code arg : UInt32} (hcode : code ∈ dataCommands)
    (hcommand : ∀ v, p v → v.arg = arg → v.pending &&& dataInterrupts = 0 →
      q (v.commanded ccs code)) :
    Contract (Amid g (law.has fun v => p v ∧ v.Idle)) (command ctl code arg)
      (fun goes => GoesOn g (law.has q) (law.has fun v => p v ∧ v.Idle ∨ q v) (goes = true)) := by
  refine command_contract (plain_of_mem hcode) (law.quiet (hp.and stable_idle)) (law.quiet hq)
    fun s hs => ?_
  obtain ⟨v, hv, ha, hpend, heq⟩ := law.issue_data hp harg hcode hs
  rw [has, heq]
  exact hcommand v hv ha hpend

/-- The commands in front of the loop: a card addressed by sectors has its data command. -/
theorem startTransfer_contract (num : UInt32)
    (hccs : ccs = true ↔ g.scr0 &&& scrSuppCcs ≠ 0) (hp : Stable p) (harg : AnyArg p)
    (hblocks : ∀ v n, p v → p { v with blocks := n }) (hq : Stable q)
    (hsingle : dir.single ∈ dataCommands) (hmulti : dir.multi ∈ dataCommands)
    (hcommand : ccs = true → ∀ v, p v → v.arg = lba → v.blocks = num.toNat % 2 ^ 16 →
      v.pending &&& dataInterrupts = 0 →
      q (v.commanded ccs (if num = 1 then dir.single else dir.multi))) :
    Contract (Amid g (law.has fun v => p v ∧ v.Idle)) (startTransfer ctl dir lba num)
      (fun goes => GoesOn g (law.has fun v => if ccs then q v else p v ∧ v.Idle)
        (law.has fun v => p v ∧ v.Idle ∨ q v) (goes = true)) := by
  have hidle : Stable fun v => p v ∧ v.Idle := hp.and stable_idle
  have hset : ∀ n : UInt32, Contract (Amid g (law.has fun v => p v ∧ v.Idle))
      (ctl.writeReg .blksizecnt (n <<< 16 ||| 512))
      (fun _ => Amid g (law.has fun v => (p v ∧ v.blocks = n.toNat % 2 ^ 16) ∧ v.Idle)) := by
    refine fun n => amid_contract fun e => (law.setBlocks_contract hidle
      (fun v m hv => ⟨hblocks v m hv.1, hv.2⟩) n).strengthen_post fun _ sd hs => ?_
    exact ⟨e, hs.1, ⟨hs.2.1.1, hs.2.2⟩, hs.2.1.2⟩
  refine withGlobals_contract fun sd hscr => ?_
  rw [hscr]
  refine Contract.ite (fun hbyte => ?_) fun hsector => ?_
  · have hno : ccs = false := by
      cases ccs with
      | false => rfl
      | true => exact absurd hbyte (hccs.mp rfl)
    refine Contract.bind (hset 1) fun _ => Contract.pure fun sd hs => ?_
    refine GoesOn.of_amid hs (fun s hv => ?_) fun s hv => Or.inl ⟨hv.1.1, hv.2⟩
    simp only [has, hno]
    exact ⟨hv.1.1, hv.2⟩
  have hyes : ccs = true := hccs.mpr hsector
  refine Contract.bind (m := fun goes : Bool => GoesOn g (law.has fun v => p v ∧ v.Idle)
    (law.has fun v => p v ∧ v.Idle) (goes = true)) ?_ fun announced =>
      Contract.ite (fun hgo => ?_) fun hstop => ?_
  · refine Contract.ite (fun _ => ?_) fun _ => Contract.pure fun sd hs => ⟨fun _ => hs, by simp⟩
    refine (command_contract (by decide) (law.quiet hidle) (law.quiet hidle) fun s hs =>
      law.issue_other hidle (fun v x hv => ⟨harg v x hv.1, hv.2⟩) (fun v hv => Or.inl hv.2)
        (by decide) hs).strengthen_post fun goes sd h => h.mono (fun _ hv => hv) fun s hv => ?_
    exact hv.elim id id
  · refine Contract.bind ((hset num).weaken_pre fun sd hs => hs.1 hgo) fun _ => ?_
    have hcode : (if num = 1 then dir.single else dir.multi) ∈ dataCommands := by
      split
      · exact hsingle
      · exact hmulti
    refine (law.dataCommand_contract (hp.and (stable_blocks _))
      (fun v x hv => ⟨harg v x hv.1, hv.2⟩) hq hcode fun v hv ha hpend =>
        hcommand hyes v hv.1 ha hv.2 hpend).strengthen_post
        fun goes sd h => h.mono (fun s hv => ?_) fun s hv => ?_
    · simp only [has, hyes, if_true]
      exact hv
    · exact hv.imp_left fun hv => ⟨hv.1.1, hv.2⟩
  · exact Contract.pure fun sd hs => ⟨by simp, fun _ => (hs.2 hstop).mono fun _ hv => Or.inl hv⟩

/-- The command of a block: a card addressed by bytes has its data command. -/
theorem startBlock_contract (c : ℕ) (hccs : ccs = true ↔ g.scr0 &&& scrSuppCcs ≠ 0)
    (hp : Stable p) (harg : AnyArg p) (hq : Stable q) (hsingle : dir.single ∈ dataCommands)
    (hcommand : ccs = false → ∀ v, p v → v.arg = (lba + UInt32.ofNat c) * 512 →
      v.pending &&& dataInterrupts = 0 → q (v.commanded ccs dir.single)) :
    Contract (Amid g (law.has fun v => if ccs then q v else p v ∧ v.Idle))
      (startBlock ctl dir lba c)
      (fun goes => GoesOn g (law.has q) (law.has fun v => p v ∧ v.Idle ∨ q v) (goes = true)) := by
  refine withGlobals_contract fun sd hscr => ?_
  rw [hscr]
  refine Contract.ite (fun hbyte => ?_) fun hsector => ?_
  · have hno : ccs = false := by
      cases ccs with
      | false => rfl
      | true => exact absurd hbyte (hccs.mp rfl)
    refine (law.dataCommand_contract hp harg hq hsingle (hcommand hno)).weaken_pre fun sd hs => ?_
    exact hs.mono fun s hv => by simpa [has, hno] using hv
  · have hyes : ccs = true := hccs.mpr hsector
    refine Contract.pure fun sd hs => ⟨fun _ => hs.mono fun s hv => ?_, by simp⟩
    simpa [has, hyes] using hv

end Starts

end Lawful

end NaiveGfs
