import NaiveGfs.Sd.Store

/-!
# The prompt card never fails

A controller that has no error pending and does at once what it can answers every call for a
single sector with success, whatever the card holds and whatever is written.
-/

namespace NaiveGfs

open Programs

variable {g : SdGlobals} {t t' : Transfer} {m mask : UInt32}

/-- The interrupts that make a call fail. -/
def failures : UInt32 := intErrorMask ||| intCmdTimeout ||| intDataTimeout

/-- The transfer is in state `t`, the interrupts `m` are pending and no failure is. -/
structure Calm (t : Transfer) (m : UInt32) (v : View) : Prop where
  transfer : v.transfer = t
  failing : v.pending &&& failures = 0
  shown : v.pending &&& m = m

/-- What the prompt card has become when its interrupts are looked at. -/
def View.seen (v : View) : View := View.settle { v with pending := v.pending ||| intCmdDone }

/-! ## Masks -/

theorem shown_or {x e m : UInt32} (h : x &&& m = m) : (x ||| e) &&& m = m := by
  rw [← UInt32.toBitVec_inj] at h ⊢
  simp only [UInt32.toBitVec_and, UInt32.toBitVec_or] at h ⊢
  rw [BitVec.and_comm, BitVec.and_or_distrib_left, BitVec.and_comm, h]
  ext i hi
  simp only [BitVec.getElem_or, BitVec.getElem_and]
  cases m.toBitVec[i] <;> simp

theorem shown_raised (x e : UInt32) : (x ||| e) &&& e = e := by
  rw [UInt32.or_comm]
  exact shown_or (UInt32.and_self)

theorem shown_cleared {x e m : UInt32} (hdisj : m &&& e = 0) (h : x &&& m = m) :
    x &&& ~~~e &&& m = m := by
  rw [← UInt32.toBitVec_inj] at h hdisj ⊢
  simp only [UInt32.toBitVec_and, UInt32.toBitVec_not] at h hdisj ⊢
  ext i hi
  have hbit := congrArg (fun b : BitVec 32 => b[i]) h
  have hout := congrArg (fun b : BitVec 32 => b[i]) hdisj
  simp only [BitVec.getElem_and, BitVec.getElem_not] at hbit hout ⊢
  revert hbit hout
  cases m.toBitVec[i] <;> cases e.toBitVec[i] <;> simp

/-- What is pending for sure is pending after more was raised. -/
theorem shown_of_part {x e m k : UInt32} (hx : x &&& m = m) (hk : (m ||| e) &&& k = k) :
    (x ||| e) &&& k = k := by
  have hall : (x ||| e) &&& (m ||| e) = m ||| e := by
    rw [← UInt32.toBitVec_inj] at hx ⊢
    simp only [UInt32.toBitVec_and, UInt32.toBitVec_or] at hx ⊢
    ext i hi
    have hbit := congrArg (fun b : BitVec 32 => b[i]) hx
    simp only [BitVec.getElem_and, BitVec.getElem_or] at hbit ⊢
    revert hbit
    cases m.toBitVec[i] <;> cases e.toBitVec[i] <;> simp
  rw [← hk, ← UInt32.and_assoc, hall]

/-! ## Looking at the controller -/

/-- What the prompt card makes of a transfer that it is looked at in, and what it raises. -/
def Transfer.promptly : Transfer → Transfer × UInt32
  | .readWait sector left => (.readReady sector left 0, intReadRdy)
  | .readEnd => (.idle, intDataDone)
  | .writeWait sector count given =>
    if given.length < 128 * count then (.writeReady sector count given, intWriteRdy)
    else if given.length = 128 * count then (.idle, intDataDone)
    else (.writeWait sector count given, 0)
  | t => (t, 0)

theorem View.settle_eq (v : View) : v.settle.transfer = v.transfer.promptly.1 ∧
    v.settle.pending = v.pending ||| v.transfer.promptly.2 := by
  obtain ⟨card, arg, blocks, pending, transfer⟩ := v
  cases transfer with
  | readWait sector left => exact ⟨rfl, rfl⟩
  | readEnd => exact ⟨rfl, rfl⟩
  | writeWait sector count given =>
    simp only [View.settle, Transfer.promptly]
    split
    · exact ⟨rfl, rfl⟩
    · split
      · exact ⟨rfl, rfl⟩
      · exact ⟨rfl, UInt32.or_zero.symm⟩
  | _ => exact ⟨rfl, UInt32.or_zero.symm⟩

/-- Being looked at raises no failure. -/
theorem Transfer.promptly_failing (t : Transfer) : t.promptly.2 &&& failures = 0 := by
  have hread : intReadRdy &&& failures = 0 := by decide
  have hwrite : intWriteRdy &&& failures = 0 := by decide
  have hdone : intDataDone &&& failures = 0 := by decide
  have hzero : 0 &&& failures = 0 := by decide
  cases t with
  | readWait sector left => exact hread
  | readEnd => exact hdone
  | writeWait sector count given =>
    simp only [Transfer.promptly]
    split
    · exact hwrite
    · split
      · exact hdone
      · exact hzero
  | _ => exact hzero

theorem Calm.settle {v : View} {k : UInt32} (h : Calm t m v) (hk : (m ||| t.promptly.2) &&& k = k) :
    Calm t.promptly.1 k v.settle := by
  obtain ⟨ht, hp⟩ := v.settle_eq
  rw [h.transfer] at ht hp
  refine ⟨ht, ?_, ?_⟩
  · rw [hp]
    exact or_and_eq_zero.mpr ⟨h.failing, t.promptly_failing⟩
  · rw [hp]
    exact shown_of_part h.shown hk

theorem Calm.seen {v : View} {k : UInt32} (h : Calm t m v)
    (hk : (m ||| intCmdDone ||| t.promptly.2) &&& k = k) : Calm t.promptly.1 k v.seen := by
  have hdone : Calm t (m ||| intCmdDone) { v with pending := v.pending ||| intCmdDone } := by
    refine ⟨h.transfer, or_and_eq_zero.mpr ⟨h.failing, by decide⟩, ?_⟩
    refine shown_of_part h.shown ?_
    rw [UInt32.and_self]
  exact hdone.settle hk

theorem Calm.clear {v : View} (h : Calm t m v) (hm : m &&& mask = 0) :
    Calm t m { v with pending := v.pending &&& ~~~mask } :=
  ⟨h.transfer, clear_and_eq_zero h.failing, shown_cleared hm h.shown⟩

theorem Calm.weaken {v : View} {k : UInt32} (h : Calm t m v) (hk : m &&& k = k) : Calm t k v := by
  refine ⟨h.transfer, h.failing, ?_⟩
  rw [← hk, ← UInt32.and_assoc, h.shown]

/-- No error is pending. -/
theorem Calm.no_error {v : View} (h : Calm t m v) : v.pending &&& intErrorMask = 0 ∧
    v.pending &&& intCmdTimeout = 0 ∧ v.pending &&& intDataTimeout = 0 :=
  ⟨and_eq_zero_of_part (by decide) h.failing, and_eq_zero_of_part (by decide) h.failing,
    and_eq_zero_of_part (by decide) h.failing⟩

/-! ## The waits -/

theorem readInterrupt_prompt {k : UInt32} (hk : (m ||| intCmdDone ||| t.promptly.2) &&& k = k) :
    Contract (At g (Calm t m)) (promptCard.readReg .interrupt)
      (fun x => At g fun v => x = v.pending ∧ Calm t.promptly.1 k v) :=
  readReg_contract fun _ hv => ⟨rfl, hv.seen hk⟩

/-- `sd_status` finds the data line free. -/
theorem sdStatus_prompt (mask : UInt32) (ht : t.promptly.1 = .idle) :
    Contract (At g (Calm t m)) (sdStatus promptCard mask)
      (fun r => At g fun v => r = sdOk ∧ Calm .idle m v) := by
  have hkeep : (m ||| intCmdDone ||| Transfer.idle.promptly.2) &&& m = m := by
    rw [UInt32.or_assoc]
    exact shown_or UInt32.and_self
  have hcond : Contract (At g (Calm t m)) (do
      let status ← promptCard.readReg .status
      if status &&& mask = 0 then pure false
      else do
        let irq ← promptCard.readReg .interrupt
        pure (decide (irq &&& intErrorMask = 0)) : StateM (Sd View) Bool)
      (fun again sd => again = false ∧ At g (Calm .idle m) sd) := by
    have hread : Contract (At g (Calm t m)) (promptCard.readReg .status)
        (fun x => At g fun v => x = 0 ∧ Calm .idle m v) := by
      refine readReg_contract fun v hv => ?_
      have hidle : Calm t.promptly.1 m v.settle := hv.settle (shown_or UInt32.and_self)
      rw [ht] at hidle
      refine ⟨?_, hidle⟩
      change v.settle.transfer.inhibit = 0
      rw [hidle.transfer]
      rfl
    refine Contract.bind hread fun status => Contract.ite (fun _ => ?_) fun hbusy => ?_
    · exact Contract.pure fun sd hs => ⟨rfl, hs.1, hs.2.2⟩
    · intro sd hs
      rw [hs.2.1, UInt32.zero_and] at hbusy
      exact absurd rfl hbusy
  refine Contract.bind (Contract.poll_atOnce hcond _) fun cnt =>
    Contract.ite (fun hcnt => ?_) fun _ => ?_
  · rintro sd ⟨rfl, -⟩
    exact absurd hcnt (by decide)
  refine Contract.bind ((readInterrupt_prompt hkeep).weaken_pre fun sd hs => hs.2) fun irq => ?_
  refine Contract.pure fun sd hs => ⟨hs.1, ?_, hs.2.2⟩
  rw [hs.2.1, if_neg (not_not.mpr hs.2.2.no_error.1)]

/-- `sd_int` finds its interrupt at once. -/
theorem sdInt_prompt {t' : Transfer} {e k : UInt32} (ht : t.promptly = (t', e))
    (ht' : t'.promptly = (t', 0)) (hmask : mask ≠ 0)
    (hcomes : (m ||| intCmdDone ||| e) &&& (k ||| mask) = k ||| mask) (hk : k &&& mask = 0) :
    Contract (At g (Calm t m)) (sdInt promptCard mask)
      (fun r => At g fun v => r = 0 ∧ Calm t' k v) := by
  have hfirst : (m ||| intCmdDone ||| t.promptly.2) &&& (k ||| mask) = k ||| mask := by rwa [ht]
  have hagain : (k ||| mask ||| intCmdDone ||| t'.promptly.2) &&& (k ||| mask) = k ||| mask := by
    rw [UInt32.or_assoc]
    exact shown_or UInt32.and_self
  have hone : ∀ x : UInt32, x &&& (k ||| mask) = k ||| mask → x &&& mask = mask := by
    intro x hx
    have hpart : (k ||| mask) &&& mask = mask := shown_raised k mask
    rw [← hpart, ← UInt32.and_assoc, hx]
  have hcond : Contract (At g (Calm t m)) (do
      let irq ← promptCard.readReg .interrupt
      pure (decide (irq &&& (mask ||| intErrorMask) = 0)) : StateM (Sd View) Bool)
      (fun again sd => again = false ∧ At g (Calm t' (k ||| mask)) sd) := by
    refine Contract.bind (readInterrupt_prompt hfirst) fun irq => Contract.pure fun sd hs => ?_
    have hcalm : Calm t' (k ||| mask) sd.dev := by
      have hv := hs.2.2
      rwa [ht] at hv
    refine ⟨decide_eq_false fun hzero => ?_, hs.1, hcalm⟩
    rw [hs.2.1, and_or_eq_zero] at hzero
    exact hmask ((hone _ hcalm.shown).symm.trans hzero.1)
  have hdone : Contract (At g (Calm t' (k ||| mask))) (do
      promptCard.writeReg .interrupt mask
      pure 0 : StateM (Sd View) UInt32) (fun r => At g fun v => r = 0 ∧ Calm t' k v) := by
    refine Contract.bind (m := fun _ => At g (Calm t' k)) (writeReg_contract fun v hv => ?_)
      fun _ => Contract.pure fun sd hs => ⟨hs.1, rfl, hs.2⟩
    exact (hv.weaken (by rw [UInt32.or_comm]; exact shown_raised mask k)).clear hk
  refine Contract.bind (Contract.poll_atOnce hcond _) fun cnt => Contract.of_fact fun hcnt => ?_
  refine Contract.bind (readInterrupt_prompt hagain) fun r => ?_
  have hcalm : ∀ sd : Sd View,
      At g (fun v => r = v.pending ∧ Calm t'.promptly.1 (k ||| mask) v) sd →
        Calm t' (k ||| mask) sd.dev := by
    intro sd hs
    have hv := hs.2.2
    rwa [ht'] at hv
  refine Contract.ite (fun hlate => ?_) fun _ => Contract.ite (fun herr => ?_) fun _ => ?_
  · intro sd hs
    obtain ⟨-, hcmd, hdata⟩ := (hcalm sd hs).no_error
    rw [hs.2.1, hcmd, hdata, hcnt] at hlate
    exact absurd hlate (by decide)
  · intro sd hs
    rw [hs.2.1] at herr
    exact absurd (hcalm sd hs).no_error.1 herr
  · exact hdone.weaken_pre fun sd hs => ⟨hs.1, hcalm sd hs⟩

/-! ## The commands and the words -/

/-- A command that starts a transfer of one block. -/
theorem command_prompt {code arg : UInt32} {t t' : Transfer} {k : UInt32}
    (hcode : code = cmdReadSingle ∧ t = .readWait arg 1 ∧ k = intReadRdy ∨
      code = cmdWriteSingle ∧ t = .writeWait arg 1 [] ∧ k = intWriteRdy)
    (ht : t.promptly = (t', k)) (ht' : t'.promptly = (t', 0)) (e : UInt32) :
    Contract (At { g with err := e } (Calm .idle m)) (command promptCard code arg)
      (fun goes => At { g with err := sdOk } fun v => goes = true ∧ Calm t' k v) := by
  have hplain : code &&& cmdNeedApp = 0 := by
    rcases hcode with ⟨rfl, -⟩ | ⟨rfl, -⟩
    · decide
    · decide
  have hmem : code ∈ dataCommands := by
    rcases hcode with ⟨rfl, -⟩ | ⟨rfl, -⟩
    · decide
    · decide
  have hfour : Contract (At { g with err := sdOk } (Calm .idle m)) (do
      let irq ← promptCard.readReg .interrupt
      promptCard.writeReg .interrupt irq
      promptCard.writeReg .arg1 arg
      promptCard.writeReg .cmdtm code : StateM (Sd View) Unit)
      (fun _ => At { g with err := sdOk } (Calm t 0)) := by
    rintro sd ⟨hglobals, hv⟩
    refine ⟨hglobals, ?_⟩
    have hseen : Calm .idle 0 sd.dev.seen := hv.seen UInt32.and_zero
    change Calm t 0 (if code ∈ dataCommands then View.commanded true
      { sd.dev.seen with
        pending := sd.dev.seen.pending &&& ~~~sd.dev.seen.pending
        arg := arg } code else _)
    rw [if_pos hmem]
    refine ⟨?_, ?_, UInt32.and_zero⟩
    · rcases hcode with ⟨rfl, rfl, -⟩ | ⟨rfl, rfl, -⟩
      · rfl
      · rfl
    · exact clear_and_eq_zero hseen.failing
  have hdelay : (cmdDelay promptCard code : StateM (Sd View) Unit) = pure () := by
    rcases hcode with ⟨rfl, -⟩ | ⟨rfl, -⟩
    · rfl
    · rfl
  have hresult : ∀ r, (cmdResult promptCard code arg r : StateM (Sd View) UInt32) =
      pure (r &&& cmdErrorsMask) := by
    rcases hcode with ⟨rfl, -⟩ | ⟨rfl, -⟩
    · exact fun _ => rfl
    · exact fun _ => rfl
  have hrest : Contract (At { g with err := sdOk } (Calm t 0)) (do
      cmdDelay promptCard code
      let r ← sdInt promptCard intCmdDone
      if r ≠ 0 then do
        setErr r
        pure 0
      else do
        let r ← promptCard.readReg .resp0
        cmdResult promptCard code arg r : StateM (Sd View) UInt32)
      (fun _ => At { g with err := sdOk } (Calm t' k)) := by
    rw [hdelay]
    have hint : Contract (At { g with err := sdOk } (Calm t 0)) (sdInt promptCard intCmdDone)
        (fun r => At { g with err := sdOk } fun v => r = 0 ∧ Calm t' k v) := by
      refine sdInt_prompt ht ht' (by decide) ?_ ?_
      · rcases hcode with ⟨-, -, rfl⟩ | ⟨-, -, rfl⟩
        · decide
        · decide
      · rcases hcode with ⟨-, -, rfl⟩ | ⟨-, -, rfl⟩
        · decide
        · decide
    refine Contract.bind (m := fun _ => At { g with err := sdOk } (Calm t 0))
      (Contract.pure fun _ hs => hs) fun _ => ?_
    refine Contract.bind hint fun r => Contract.ite (fun hr sd hs => absurd hs.2.1 hr) fun _ => ?_
    refine Contract.bind (m := fun _ => At { g with err := sdOk } (Calm t' k))
      (readReg_contract fun v hv => hv.2) fun r => ?_
    rw [hresult]
    exact Contract.pure fun _ hs => hs
  refine Contract.bind (m := fun _ => At { g with err := sdOk } (Calm t' k)) ?_ fun _ sd hs => ?_
  · refine Contract.bind setErr_contract fun _ => ?_
    rw [if_pos hplain]
    refine Contract.bind (sdStatus_prompt _ rfl) fun busy =>
      Contract.ite (fun hbusy sd hs => absurd hs.2.1 hbusy) fun _ => ?_
    exact fun sd hs => hrest _ (hfour sd ⟨hs.1, hs.2.2⟩)
  · have herr : sd.err = sdOk := congrArg SdGlobals.err hs.1
    exact ⟨hs.1, beq_iff_eq.mpr herr, hs.2⟩

/-- The globals that are read. -/
theorem get_prompt {α : Type} {rest : Sd View → StateM (Sd View) α} {p : View → Prop}
    {post : α → Sd View → Prop}
    (h : ∀ sd : Sd View, sd.toSdGlobals = g → Contract (At g p) (rest sd) post) :
    Contract (At g p) (MonadState.get >>= rest) post :=
  fun sd hs => h sd hs.1 sd hs

/-- A call for one block, from what its parts do. -/
theorem transfer_prompt {β : Type} (dir : Direction View β) (lba : UInt32) {b : β}
    {p₁ p₂ p₃ p₄ : View → Prop} (haddr : g.scr0 &&& scrSuppCcs ≠ 0) (ht : t.promptly.1 = .idle)
    (hsingle : ∀ e, Contract (At { g with err := e } (Calm .idle m))
      (command promptCard dir.single lba)
      (fun goes => At { g with err := sdOk } fun v => goes = true ∧ p₁ v))
    (hready : Contract (At { g with err := sdOk } p₁) (sdInt promptCard dir.ready)
      (fun r => At { g with err := sdOk } fun v => r = 0 ∧ p₂ v))
    (hblock : Contract (At { g with err := sdOk } p₂) (dir.block 0 b)
      (fun _ => At { g with err := sdOk } p₃))
    (hfinish : Contract (At { g with err := sdOk } p₃) dir.finish
      (fun r => At { g with err := sdOk } fun v => r = 0 ∧ p₄ v)) (e : UInt32) :
    Contract (At { g with err := e } (Calm t m)) (transfer promptCard dir lba 1 b)
      (fun out => At { g with err := sdOk } fun v => out.1 = 512 ∧ p₄ v) := by
  have hstart : Contract (At { g with err := e } (Calm .idle m))
      (startTransfer promptCard dir lba 1)
      (fun goes => At { g with err := sdOk } fun v => goes = true ∧ p₁ v) := by
    refine get_prompt fun sd hsd => ?_
    rw [hsd, if_neg haddr]
    refine Contract.bind
      (m := fun goes sd => goes = true ∧ At { g with err := e } (Calm .idle m) sd)
      (Contract.pure fun sd hs => ⟨rfl, hs⟩) fun goes => Contract.of_fact fun hgo => ?_
    rw [if_pos hgo]
    refine Contract.bind (m := fun _ => At { g with err := e } (Calm .idle m))
      (writeReg_contract fun v hv => ⟨hv.transfer, hv.failing, hv.shown⟩) fun _ => hsingle e
  have hloop : Contract (At { g with err := sdOk } p₁) (transferFrom promptCard dir lba 1 0 b)
      (fun out => At { g with err := sdOk } fun v => out.1 = true ∧ p₃ v) := by
    refine Contract.bind (m := fun goes sd => goes = true ∧ At { g with err := sdOk } p₁ sd) ?_
      fun goes => Contract.of_fact fun hgo => ?_
    · refine get_prompt fun sd hsd => ?_
      rw [hsd, if_neg haddr]
      exact Contract.pure fun sd hs => ⟨rfl, hs⟩
    rw [if_pos hgo]
    refine Contract.bind hready fun r => ?_
    refine Contract.bind (m := fun goes sd => goes = true ∧ At { g with err := sdOk } p₂ sd)
      (Contract.ite (fun hr sd hs => absurd hs.2.1 hr) fun _ =>
        Contract.pure fun sd hs => ⟨rfl, hs.1, hs.2.2⟩) fun goes => Contract.of_fact fun hgo => ?_
    rw [if_pos hgo]
    refine Contract.bind hblock fun b => ?_
    exact Contract.pure fun sd hs => ⟨hs.1, rfl, hs.2⟩
  refine Contract.bind (sdStatus_prompt _ ht) fun busy =>
    Contract.ite (fun hbusy sd hs => absurd hs.2.1 hbusy) fun _ => ?_
  refine Contract.bind (hstart.weaken_pre fun sd hs => ⟨hs.1, hs.2.2⟩) fun started =>
    Contract.ite (fun _ => ?_) fun hstop sd hs => absurd hs.2.1 hstop
  refine Contract.bind (hloop.weaken_pre fun sd hs => ⟨hs.1, hs.2.2⟩) fun out =>
    Contract.ite (fun _ => ?_) fun hstop sd hs => absurd hs.2.1 hstop
  refine Contract.bind (hfinish.weaken_pre fun sd hs => ⟨hs.1, hs.2.2⟩) fun r => ?_
  refine Contract.bind (m := fun goes sd => goes = true ∧ At { g with err := sdOk } p₄ sd)
    (Contract.ite (fun hr sd hs => absurd hs.2.1 hr) fun _ =>
      Contract.pure fun sd hs => ⟨rfl, hs.1, hs.2.2⟩) fun goes => Contract.of_fact fun hgo => ?_
  rw [if_pos hgo]
  refine Contract.bind (m := fun n sd => n = 512 ∧ At { g with err := sdOk } p₄ sd) ?_
    fun n => Contract.pure fun sd hs => ⟨hs.2.1, hs.1, hs.2.2⟩
  refine get_prompt fun sd hsd => ?_
  refine Contract.bind (m := fun _ => At { g with err := sdOk } p₄)
    (Contract.pure fun sd hs => hs) fun _ => get_prompt fun sd hsd => ?_
  rw [hsd]
  exact Contract.pure fun sd hs => ⟨rfl, hs⟩

/-! ## The two calls -/

/-- The words of a block that is read. -/
theorem takeBlock_prompt (lba : UInt32) (b : ℕ → UInt32) :
    Contract (At g (Calm (.readReady lba 1 0) 0)) ((readDirection promptCard).block 0 b)
      (fun _ => At g (Calm .readEnd 0)) := by
  have hloop := Contract.countUp (σ := Sd View) (n := 128) (b := b)
    (p := fun d _ => At g (Calm (if d < 128 then .readReady lba 1 d else .readEnd) 0))
    (f := fun d buf => (do
      let w ← promptCard.readReg .data
      pure (Function.update buf (128 * 0 + d) w) : StateM (Sd View) (ℕ → UInt32))) ?_
  · exact hloop
  · rintro d hd b sd ⟨hglobals, hv⟩
    rw [if_pos hd] at hv
    have hread : (promptCard.read .data sd.dev).2 = sd.dev.taken lba 1 d := by
      simp [promptCard, hv.transfer]
    refine ⟨hglobals, ?_⟩
    change Calm _ 0 (promptCard.read .data sd.dev).2
    rw [hread]
    refine ⟨?_, hv.failing, hv.shown⟩
    simp only [View.taken, le_refl, if_true]

/-- The words of a block that is written. -/
theorem giveBlock_prompt (lba : UInt32) (buffer : ℕ → UInt32) (b : Unit) :
    Contract (At g (Calm (.writeReady lba 1 []) 0)) ((writeDirection promptCard buffer).block 0 b)
      (fun _ => At g fun v => ∃ ws, ws.length = 128 ∧ Calm (.writeWait lba 1 ws) 0 v) := by
  have hloop := Contract.countUp (σ := Sd View) (n := 128) (b := b)
    (p := fun d _ => At g fun v => ∃ ws, ws.length = d ∧
      Calm (if d < 128 then .writeReady lba 1 ws else .writeWait lba 1 ws) 0 v)
    (f := fun d _ => promptCard.writeReg .data (buffer (128 * 0 + d))) ?_
  · exact hloop.weaken_pre fun sd hs => ⟨hs.1, [], rfl, hs.2⟩
  · rintro d hd b sd ⟨hglobals, ws, hlen, hv⟩
    rw [if_pos hd] at hv
    have hwrite : (promptCard.write .data (buffer (128 * 0 + d)) sd.dev).2 =
        sd.dev.given lba 1 (ws ++ [buffer (128 * 0 + d)]) := by
      simp [promptCard, hv.transfer]
    refine ⟨hglobals, ws ++ [buffer (128 * 0 + d)], by rw [List.length_append, hlen]; rfl, ?_⟩
    change Calm _ 0 (promptCard.write .data (buffer (128 * 0 + d)) sd.dev).2
    rw [hwrite]
    refine ⟨?_, hv.failing, hv.shown⟩
    have hnext : (ws ++ [buffer (128 * 0 + d)]).length % 128 = 0 ↔ ¬ d + 1 < 128 := by
      rw [List.length_append, hlen, List.length_singleton]
      omega
    simp only [View.given, hnext]
    by_cases hlast : d + 1 < 128
    · rw [if_pos hlast, if_neg (not_not.mpr hlast)]
    · rw [if_neg hlast, if_pos hlast]

/-- A read of one sector succeeds. -/
theorem sdReadblock_prompt (haddr : g.scr0 &&& scrSuppCcs ≠ 0) (ht : t.promptly.1 = .idle)
    (lba : UInt32) (buffer : ℕ → UInt32) (e : UInt32) :
    Contract (At { g with err := e } (Calm t 0)) (sdReadblock promptCard lba buffer 1)
      (fun out => At { g with err := sdOk } fun v => out.1 = 512 ∧ Calm .readEnd 0 v) := by
  have hsingle : ∀ e, Contract (At { g with err := e } (Calm .idle 0))
      (command promptCard cmdReadSingle lba) (fun goes => At { g with err := sdOk } fun v =>
        goes = true ∧ Calm (.readReady lba 1 0) intReadRdy v) :=
    command_prompt (Or.inl ⟨rfl, rfl, rfl⟩) rfl rfl
  have hready : Contract (At { g with err := sdOk } (Calm (.readReady lba 1 0) intReadRdy))
      (sdInt promptCard intReadRdy)
      (fun r => At { g with err := sdOk } fun v => r = 0 ∧ Calm (.readReady lba 1 0) 0 v) :=
    sdInt_prompt rfl rfl (by decide) (by decide) (by decide)
  have hfinish : Contract (At { g with err := sdOk } (Calm .readEnd 0))
      (readDirection promptCard).finish
      (fun r => At { g with err := sdOk } fun v => r = 0 ∧ Calm .readEnd 0 v) :=
    Contract.pure fun sd hs => ⟨hs.1, rfl, hs.2⟩
  rw [sdReadblock]
  exact transfer_prompt (readDirection promptCard) lba haddr ht hsingle hready
    (takeBlock_prompt lba buffer) hfinish e

/-- A write of one sector succeeds. -/
theorem sdWriteblock_prompt (haddr : g.scr0 &&& scrSuppCcs ≠ 0) (ht : t.promptly.1 = .idle)
    (buffer : ℕ → UInt32) (lba : UInt32) (e : UInt32) :
    Contract (At { g with err := e } (Calm t 0)) (sdWriteblock promptCard buffer lba 1)
      (fun r => At { g with err := sdOk } fun v => r = 512 ∧ Calm .idle 0 v) := by
  have hsingle : ∀ e, Contract (At { g with err := e } (Calm .idle 0))
      (command promptCard cmdWriteSingle lba) (fun goes => At { g with err := sdOk } fun v =>
        goes = true ∧ Calm (.writeReady lba 1 []) intWriteRdy v) :=
    command_prompt (Or.inr ⟨rfl, rfl, rfl⟩) rfl rfl
  have hready : Contract (At { g with err := sdOk } (Calm (.writeReady lba 1 []) intWriteRdy))
      (sdInt promptCard intWriteRdy)
      (fun r => At { g with err := sdOk } fun v => r = 0 ∧ Calm (.writeReady lba 1 []) 0 v) :=
    sdInt_prompt rfl rfl (by decide) (by decide) (by decide)
  have hfinish : Contract (At { g with err := sdOk } fun v =>
      ∃ ws, ws.length = 128 ∧ Calm (.writeWait lba 1 ws) 0 v) (sdInt promptCard intDataDone)
      (fun r => At { g with err := sdOk } fun v => r = 0 ∧ Calm .idle 0 v) := by
    rintro sd ⟨hglobals, ws, hlen, hv⟩
    have hfull : (Transfer.writeWait lba 1 ws).promptly = (.idle, intDataDone) := by
      simp [Transfer.promptly, hlen]
    exact sdInt_prompt hfull rfl (by decide) (by decide) (by decide) sd ⟨hglobals, hv⟩
  rw [sdWriteblock]
  exact Contract.bind (transfer_prompt (writeDirection promptCard buffer) lba haddr ht hsingle
    hready (giveBlock_prompt lba buffer ()) hfinish e) fun out => Contract.pure fun sd hs => hs

/-- Calls for single sectors never fail on the prompt card. -/
theorem promptCard_answers {sd₀ sd : Sd View} {done : List SdDone}
    (h : SdRun promptCard sd₀ done sd) (haddr : sd₀.scr0 &&& scrSuppCcs ≠ 0)
    (ht : ∃ t, t.promptly.1 = .idle ∧ Calm t 0 sd₀.dev)
    (hsingles : ∀ d ∈ done, d.num = 1) :
    (∀ d ∈ done, d.result = 512) ∧ sd.scr0 = sd₀.scr0 ∧
      ∃ t, t.promptly.1 = .idle ∧ Calm t 0 sd.dev := by
  induction h with
  | nil => exact ⟨fun d hd => by simp at hd, rfl, ht⟩
  | @read done sd h lba num buffer ih =>
    obtain ⟨hold, hscr, t, ht, hcalm⟩ := ih fun d hd => hsingles d (List.mem_append_left _ hd)
    have hnum : num = 1 := hsingles _ List.mem_concat_self
    subst hnum
    have hcall := sdReadblock_prompt (g := sd.toSdGlobals) (hscr ▸ haddr) ht lba buffer sd.err sd
      ⟨rfl, hcalm⟩
    generalize sdReadblock promptCard lba buffer 1 sd = out at hcall ⊢
    refine ⟨fun d hd => ?_, ?_, .readEnd, rfl, hcall.2.2⟩
    · rcases List.mem_append.mp hd with hd | hd
      · exact hold d hd
      · rw [List.mem_singleton.mp hd]
        exact hcall.2.1
    · exact (congrArg SdGlobals.scr0 hcall.1).trans hscr
  | @write done sd h buffer lba num ih =>
    obtain ⟨hold, hscr, t, ht, hcalm⟩ := ih fun d hd => hsingles d (List.mem_append_left _ hd)
    have hnum : num = 1 := hsingles _ List.mem_concat_self
    subst hnum
    have hcall := sdWriteblock_prompt (g := sd.toSdGlobals) (hscr ▸ haddr) ht buffer lba sd.err sd
      ⟨rfl, hcalm⟩
    generalize sdWriteblock promptCard buffer lba 1 sd = out at hcall ⊢
    refine ⟨fun d hd => ?_, ?_, .idle, rfl, hcall.2.2⟩
    · rcases List.mem_append.mp hd with hd | hd
      · exact hold d hd
      · rw [List.mem_singleton.mp hd]
        exact hcall.2.1
    · exact (congrArg SdGlobals.scr0 hcall.1).trans hscr

end NaiveGfs
