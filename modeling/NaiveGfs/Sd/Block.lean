import NaiveGfs.Sd.Emmc

/-!
# Reading and writing blocks

`sd_readblock` and `sd_writeblock` are one transfer with different commands and a different
direction of the data. A buffer is the words from its address on, as the code casts it.
-/

namespace NaiveGfs

open Programs

variable {σ β : Type}

/-- What `sd_readblock` and `sd_writeblock` differ in: the status bits waited for, the two
commands, the interrupt in front of a block, the loop over the words of a block and what
follows the last block. -/
structure Direction (σ β : Type) where
  inhibit : UInt32
  single : UInt32
  multi : UInt32
  ready : UInt32
  block : ℕ → β → StateM (Sd σ) β
  finish : StateM (Sd σ) UInt32

variable (ctl : Controller σ)

/-- `sd_cmd(code, arg); if(sd_err) return 0;`, and whether the code goes on. -/
def command (code arg : UInt32) : StateM (Sd σ) Bool := do
  let _ ← sdCmd ctl code arg
  let sd ← get
  pure (sd.err == sdOk)

/-- A result that is stored in `sd_err` and ends the call when it is not zero. -/
def unlessFailed (r : UInt32) : StateM (Sd σ) Bool :=
  if r ≠ 0 then do
    setErr r
    pure false
  else pure true

/-- The number of blocks, announced to a card that supports it. -/
def announceBlocks (scr0 num : UInt32) : StateM (Sd σ) Bool :=
  if num > 1 ∧ scr0 &&& scrSuppSetBlkcnt ≠ 0 then command ctl cmdSetBlockcnt num
  else pure true

/-- The commands in front of the loop. -/
def startTransfer (dir : Direction σ β) (lba num : UInt32) : StateM (Sd σ) Bool := do
  let sd ← get
  if sd.scr0 &&& scrSuppCcs = 0 then do
    ctl.writeReg .blksizecnt ((1 : UInt32) <<< 16 ||| 512)
    pure true
  else do
    let announced ← announceBlocks ctl sd.scr0 num
    if announced then do
      ctl.writeReg .blksizecnt (num <<< 16 ||| 512)
      command ctl (if num = 1 then dir.single else dir.multi) lba
    else pure false

/-- The command that a byte-addressed card gets for each block. -/
def startBlock (dir : Direction σ β) (lba : UInt32) (c : ℕ) : StateM (Sd σ) Bool := do
  let sd ← get
  if sd.scr0 &&& scrSuppCcs = 0 then command ctl dir.single ((lba + UInt32.ofNat c) * 512)
  else pure true

/-- `while( c < num )`, with the number of blocks that are left. -/
def transferFrom (dir : Direction σ β) (lba : UInt32) : ℕ → ℕ → β → StateM (Sd σ) (Bool × β)
  | 0, _, b => pure (true, b)
  | left + 1, c, b => do
    let started ← startBlock ctl dir lba c
    if started then do
      let r ← sdInt ctl dir.ready
      let ready ← unlessFailed r
      if ready then do
        let b ← dir.block c b
        transferFrom dir lba left (c + 1) b
      else pure (false, b)
    else pure (false, b)

/-- `CMD_STOP_TRANS`, for a card that was not told the number of blocks. -/
def stopBlocks (scr0 num : UInt32) : StateM (Sd σ) Unit :=
  if num > 1 ∧ scr0 &&& scrSuppSetBlkcnt = 0 ∧ scr0 &&& scrSuppCcs ≠ 0 then do
    let _ ← sdCmd ctl cmdStopTrans 0
    pure ()
  else pure ()

/-- The end of the call. When the loop has ended `c` is `num`. -/
def stopTransfer (num : UInt32) : StateM (Sd σ) UInt32 := do
  let sd ← get
  stopBlocks ctl sd.scr0 num
  let sd ← get
  pure (if sd.err ≠ sdOk then 0 else num * 512)

/-- The transfer of `num` blocks, at least one. -/
def transfer (dir : Direction σ β) (lba num : UInt32) (b : β) : StateM (Sd σ) (UInt32 × β) := do
  let num := if num < 1 then 1 else num
  let busy ← sdStatus ctl dir.inhibit
  if busy ≠ sdOk then do
    setErr sdTimeout
    pure (0, b)
  else do
    let started ← startTransfer ctl dir lba num
    if started then do
      let out ← transferFrom ctl dir lba num.toNat 0 b
      if out.1 then do
        let r ← dir.finish
        let finished ← unlessFailed r
        if finished then do
          let n ← stopTransfer ctl num
          pure (n, out.2)
        else pure (0, out.2)
      else pure (0, out.2)
    else pure (0, b)

/-- The direction of `sd_readblock`: `for(d=0;d<128;d++) buf[d] = *EMMC_DATA;`. -/
def readDirection : Direction σ (ℕ → UInt32) where
  inhibit := srDatInhibit
  single := cmdReadSingle
  multi := cmdReadMulti
  ready := intReadRdy
  block c := countUp (fun d buf => do
    let w ← ctl.readReg .data
    pure (Function.update buf (128 * c + d) w)) 128
  finish := pure 0

/-- The direction of `sd_writeblock`: `for(d=0;d<128;d++) *EMMC_DATA = buf[d];`. -/
def writeDirection (buffer : ℕ → UInt32) : Direction σ Unit where
  inhibit := srDatInhibit ||| srWriteAvailable
  single := cmdWriteSingle
  multi := cmdWriteMulti
  ready := intWriteRdy
  block c := countUp (fun d _ => ctl.writeReg .data (buffer (128 * c + d))) 128
  finish := sdInt ctl intDataDone

/-- `sd_readblock`, with the buffer after the call. -/
def sdReadblock (lba : UInt32) (buffer : ℕ → UInt32) (num : UInt32) :
    StateM (Sd σ) (UInt32 × (ℕ → UInt32)) :=
  transfer ctl (readDirection ctl) lba num buffer

/-- `sd_writeblock`. -/
def sdWriteblock (buffer : ℕ → UInt32) (lba num : UInt32) : StateM (Sd σ) UInt32 := do
  let out ← transfer ctl (writeDirection ctl buffer) lba num ()
  pure out.1

/-! ## The phases of a transfer -/

/-- The globals are `g` but for `sd_err`, and the controller is in a state with `P`. -/
def Amid (g : SdGlobals) (P : σ → Prop) (sd : Sd σ) : Prop := ∃ e, At { g with err := e } P sd

/-- What holds when the code goes on and what when the call ends. -/
def GoesOn (g : SdGlobals) (P Q : σ → Prop) (goes : Prop) (sd : Sd σ) : Prop :=
  (goes → Amid g P sd) ∧ (¬ goes → Amid g Q sd)

/-- What holds in each phase of a transfer: before block `c`, when its interrupt is awaited,
when its words are taken, and where the call ends early. -/
structure PhaseStates (σ β : Type) where
  idle : σ → Prop
  block : ℕ → β → σ → Prop
  armed : ℕ → β → σ → Prop
  ready : ℕ → β → σ → Prop
  done : β → σ → Prop
  finished : β → σ → Prop
  failed : β → σ → Prop

/-- The parts of a transfer of `num` blocks lead from each phase to the next. -/
structure Phases (dir : Direction σ β) (g : SdGlobals) (lba num : UInt32)
    (start : σ → Prop) (b₀ : β) (ph : PhaseStates σ β) : Prop where
  waits : Contract (Amid g start) (sdStatus ctl dir.inhibit)
    (fun r => GoesOn g ph.idle (ph.failed b₀) (r = sdOk))
  starts : Contract (Amid g ph.idle) (startTransfer ctl dir lba num)
    (fun goes => GoesOn g (ph.block 0 b₀) (ph.failed b₀) (goes = true))
  arms : ∀ c < num.toNat, ∀ b, Contract (Amid g (ph.block c b)) (startBlock ctl dir lba c)
    (fun goes => GoesOn g (ph.armed c b) (ph.failed b) (goes = true))
  awaits : ∀ c < num.toNat, ∀ b, Contract (Amid g (ph.armed c b)) (sdInt ctl dir.ready)
    (fun r => GoesOn g (ph.ready c b) (ph.failed b) (r = 0))
  moves : ∀ c < num.toNat, ∀ b, Contract (Amid g (ph.ready c b)) (dir.block c b)
    (fun b => Amid g (ph.block (c + 1) b))
  finishes : ∀ b, Contract (Amid g (ph.block num.toNat b)) dir.finish
    (fun r => GoesOn g (ph.done b) (ph.failed b) (r = 0))
  stops : ∀ b, Contract (Amid g (ph.done b)) (stopTransfer ctl num)
    (fun r sd => r = 0 ∧ Amid g (ph.failed b) sd ∨ r = num * 512 ∧ Amid g (ph.finished b) sd)

variable {ctl} {g : SdGlobals} {P Q : σ → Prop}

theorem Amid.mono {sd : Sd σ} (h : Amid g P sd) (himp : ∀ s, P s → Q s) : Amid g Q sd :=
  h.imp fun _ hat => ⟨hat.1, himp _ hat.2⟩

theorem Amid.scr0 {sd : Sd σ} (h : Amid g P sd) : sd.scr0 = g.scr0 := by
  obtain ⟨e, hglobals, -⟩ := h
  rw [hglobals]

theorem GoesOn.mono {P' Q' : σ → Prop} {goes : Prop} {sd : Sd σ} (h : GoesOn g P Q goes sd)
    (hP : ∀ s, P s → P' s) (hQ : ∀ s, Q s → Q' s) : GoesOn g P' Q' goes sd :=
  ⟨fun hgo => (h.1 hgo).mono hP, fun hstop => (h.2 hstop).mono hQ⟩

theorem GoesOn.of_amid {R : σ → Prop} {goes : Prop} {sd : Sd σ} (h : Amid g R sd)
    (hP : ∀ s, R s → P s) (hQ : ∀ s, R s → Q s) : GoesOn g P Q goes sd :=
  ⟨fun _ => h.mono hP, fun _ => h.mono hQ⟩

theorem amid_contract {α : Type} {program : StateM (Sd σ) α} {post : α → Sd σ → Prop}
    (h : ∀ e, Contract (At { g with err := e } P) program post) :
    Contract (Amid g P) program post :=
  fun sd ⟨e, hat⟩ => h e sd hat

theorem Amid.setErr (e : UInt32) : Contract (Amid g P) (setErr e) (fun _ => Amid g P) :=
  amid_contract fun _ => setErr_contract.strengthen_post fun _ _ hat => ⟨e, hat⟩

theorem unlessFailed_contract (r : UInt32) :
    Contract (GoesOn g P Q (r = 0)) (unlessFailed r : StateM (Sd σ) Bool)
      (fun goes => GoesOn g P Q (goes = true)) := by
  refine Contract.ite (fun hr => ?_) fun hr => ?_
  · refine Contract.bind ((Amid.setErr r).weaken_pre fun _ hs => hs.2 hr) fun _ => ?_
    exact Contract.pure fun _ hs => ⟨by simp, fun _ => hs⟩
  · exact Contract.pure fun _ hs => ⟨fun _ => hs.1 (not_not.mp hr), by simp⟩

namespace Phases

variable {dir : Direction σ β} {lba num : UInt32} {start : σ → Prop} {b₀ : β}
  {ph : PhaseStates σ β}

theorem transferFrom (h : Phases ctl dir g lba num start b₀ ph) {left c : ℕ}
    (hleft : c + left = num.toNat) (b : β) :
    Contract (Amid g (ph.block c b)) (transferFrom ctl dir lba left c b)
      (fun out => GoesOn g (ph.block num.toNat out.2) (ph.failed out.2) (out.1 = true)) := by
  induction left generalizing c b with
  | zero =>
    have hc : c = num.toNat := by omega
    subst hc
    exact Contract.pure fun _ hs => ⟨fun _ => hs, by simp⟩
  | succ left ih =>
    have hc : c < num.toNat := by omega
    have hfail : ∀ b, Contract (Amid g (ph.failed b)) (pure (false, b) : StateM (Sd σ) (Bool × β))
        (fun out => GoesOn g (ph.block num.toNat out.2) (ph.failed out.2) (out.1 = true)) :=
      fun b => Contract.pure fun _ hs => ⟨by simp, fun _ => hs⟩
    refine Contract.bind (h.arms c hc b) fun started => Contract.ite (fun hgo => ?_) fun hstop => ?_
    · refine Contract.bind ((h.awaits c hc b).weaken_pre fun _ hs => hs.1 hgo) fun r => ?_
      refine Contract.bind (unlessFailed_contract r) fun ready =>
        Contract.ite (fun hgo => ?_) fun hstop => ?_
      · refine Contract.bind ((h.moves c hc b).weaken_pre fun _ hs => hs.1 hgo) fun b => ?_
        exact ih (by omega) b
      · exact (hfail b).weaken_pre fun _ hs => hs.2 hstop
    · exact (hfail b).weaken_pre fun _ hs => hs.2 hstop

/-- A call ends with 0 in the phase it has failed in, or with the number of bytes. -/
theorem transfer {n : UInt32}
    (h : Phases ctl dir g lba (if n < 1 then 1 else n) start b₀ ph) :
    Contract (Amid g start) (transfer ctl dir lba n b₀) (fun out sd =>
      out.1 = 0 ∧ Amid g (ph.failed out.2) sd ∨
        out.1 = (if n < 1 then 1 else n) * 512 ∧ Amid g (ph.finished out.2) sd) := by
  have hfail : ∀ b, Contract (Amid g (ph.failed b)) (pure (0, b) : StateM (Sd σ) (UInt32 × β))
      (fun out sd => out.1 = 0 ∧ Amid g (ph.failed out.2) sd ∨
        out.1 = (if n < 1 then 1 else n) * 512 ∧ Amid g (ph.finished out.2) sd) :=
    fun b => Contract.pure fun _ hs => Or.inl ⟨rfl, hs⟩
  refine Contract.bind h.waits fun busy => Contract.ite (fun hbusy => ?_) fun hidle => ?_
  · refine Contract.bind ((Amid.setErr _).weaken_pre fun _ hs => hs.2 hbusy) fun _ => hfail _
  refine Contract.bind (h.starts.weaken_pre fun _ hs => hs.1 (not_not.mp hidle)) fun started =>
    Contract.ite (fun hgo => ?_) fun hstop => (hfail _).weaken_pre fun _ hs => hs.2 hstop
  refine Contract.bind ((h.transferFrom (Nat.zero_add _) _).weaken_pre fun _ hs => hs.1 hgo)
    fun out => Contract.ite (fun hgo => ?_) fun hstop => (hfail _).weaken_pre fun _ hs => hs.2 hstop
  refine Contract.bind ((h.finishes out.2).weaken_pre fun _ hs => hs.1 hgo) fun r => ?_
  refine Contract.bind (unlessFailed_contract r) fun finished =>
    Contract.ite (fun hgo => ?_) fun hstop => (hfail _).weaken_pre fun _ hs => hs.2 hstop
  refine Contract.bind ((h.stops out.2).weaken_pre fun _ hs => hs.1 hgo) fun r => ?_
  exact Contract.pure fun _ hs => hs

end Phases

/-! ## The commands of a transfer -/

theorem command_contract {code arg : UInt32} (hcode : code &&& cmdNeedApp = 0)
    (hP : Quiet ctl P) (hQ : Quiet ctl Q) (hissue : ∀ s, P s → Q (ctl.issue code arg s)) :
    Contract (Amid g P) (command ctl code arg)
      (fun goes => GoesOn g Q (fun s => P s ∨ Q s) (goes = true)) := by
  refine amid_contract fun e => Contract.bind (sdCmd_contract hcode hP hQ hissue) fun _ => ?_
  intro sd ⟨e', hglobals, hdev⟩
  have herr : sd.err = e' := congrArg SdGlobals.err hglobals
  constructor
  · intro hgo
    have hok : e' = sdOk := herr ▸ beq_iff_eq.mp hgo
    exact ⟨e', hglobals, hdev.resolve_left fun h => h.1 hok⟩
  · exact fun _ => ⟨e', hglobals, hdev.imp_left And.right⟩

/-- The code that depends on what the card supports. -/
theorem withGlobals_contract {α : Type} {rest : Sd σ → StateM (Sd σ) α} {post : α → Sd σ → Prop}
    (h : ∀ sd : Sd σ, sd.scr0 = g.scr0 → Contract (Amid g P) (rest sd) post) :
    Contract (Amid g P) (MonadState.get >>= rest) post := by
  refine Contract.bind (m := fun sd sd' => sd.scr0 = g.scr0 ∧ Amid g P sd') ?_ fun sd => ?_
  · exact fun sd hs => ⟨hs.scr0, hs⟩
  · exact Contract.of_fact fun hscr => h sd hscr

theorem startBlock_contract {dir : Direction σ β} {lba : UInt32} {c : ℕ}
    (hsingle : dir.single &&& cmdNeedApp = 0) (hP : Quiet ctl P) (hQ : Quiet ctl Q)
    (hissue : g.scr0 &&& scrSuppCcs = 0 → ∀ s, P s →
      Q (ctl.issue dir.single ((lba + UInt32.ofNat c) * 512) s))
    (hskip : g.scr0 &&& scrSuppCcs ≠ 0 → ∀ s, P s → Q s) :
    Contract (Amid g P) (startBlock ctl dir lba c)
      (fun goes => GoesOn g Q (fun s => P s ∨ Q s) (goes = true)) := by
  refine withGlobals_contract fun sd hscr => ?_
  rw [hscr]
  refine Contract.ite (fun hbyte => command_contract hsingle hP hQ (hissue hbyte)) fun hccs => ?_
  exact Contract.pure fun _ hs => ⟨fun _ => hs.mono (hskip hccs), by simp⟩

theorem stopTransfer_contract {num : UInt32} (hP : Quiet ctl P) (hQ : Quiet ctl Q)
    (hissue : num > 1 ∧ g.scr0 &&& scrSuppSetBlkcnt = 0 ∧ g.scr0 &&& scrSuppCcs ≠ 0 →
      ∀ s, P s → Q (ctl.issue cmdStopTrans 0 s))
    (hskip : ¬ (num > 1 ∧ g.scr0 &&& scrSuppSetBlkcnt = 0 ∧ g.scr0 &&& scrSuppCcs ≠ 0) →
      ∀ s, P s → Q s) :
    Contract (Amid g P) (stopTransfer ctl num) (fun r sd =>
      r = 0 ∧ Amid g (fun s => P s ∨ Q s) sd ∨ r = num * 512 ∧ Amid g Q sd) := by
  refine withGlobals_contract fun sd hscr => ?_
  rw [hscr]
  have hstop : Contract (Amid g P) (stopBlocks ctl g.scr0 num) (fun _ => Sent g P Q) := by
    refine amid_contract fun e => Contract.ite (fun hmulti => ?_) fun hsingle => ?_
    · refine Contract.bind (sdCmd_contract (by decide) hP hQ (hissue hmulti)) fun _ => ?_
      exact Contract.pure fun _ hs => hs
    · exact Contract.pure fun sd hs => ⟨e, hs.1, Or.inr (hskip hsingle _ hs.2)⟩
  refine Contract.bind hstop fun _ => ?_
  rintro sd ⟨e, hglobals, hdev⟩
  have herr : sd.err = e := by rw [hglobals]
  change (if sd.err ≠ sdOk then 0 else num * 512) = 0 ∧ _ ∨
    (if sd.err ≠ sdOk then 0 else num * 512) = num * 512 ∧ _
  by_cases hok : e = sdOk
  · rw [herr, if_neg (not_not.mpr hok)]
    exact Or.inr ⟨rfl, e, hglobals, hdev.resolve_left fun h => h.1 hok⟩
  · rw [herr, if_pos hok]
    exact Or.inl ⟨rfl, e, hglobals, hdev.imp_left And.right⟩

end NaiveGfs
