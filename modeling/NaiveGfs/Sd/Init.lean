import NaiveGfs.Programs.Returns
import NaiveGfs.Sd.Monitor
import NaiveGfs.Sd.Store

/-!
# Starting the card

`sd_init` resets the controller, brings the card from its idle state to the transfer state and
reads its configuration register. What it leaves in `sd_scr` decides how every later transfer
addresses its blocks. The answer of the card to `CMD_SEND_OP_COND` is what counts there, and
not the register.
-/

namespace NaiveGfs

open Programs

variable {σ : Type}

def c0HctlDwitdh : UInt32 := 0x00000002
def c1SrstHc : UInt32 := 0x01000000
def c1TounitMax : UInt32 := 0x000e0000
def c1ClkEn : UInt32 := 0x00000004
def c1ClkStable : UInt32 := 0x00000002
def c1ClkIntlen : UInt32 := 0x00000001
def hostSpecNum : UInt32 := 0x00ff0000
def hostSpecV2 : UInt32 := 1
def acmd41Voltage : UInt32 := 0x00ff8000
def acmd41CmdComplete : UInt32 := 0x80000000
def acmd41CmdCcs : UInt32 := 0x40000000
def acmd41ArgHc : UInt32 := 0x51ff8000

/-! ## The clock -/

/-- `if(!(x & mask)) { x <<= n; s -= n; }` -/
def narrow (mask n : UInt32) (p : UInt32 × UInt32) : UInt32 × UInt32 :=
  if p.1 &&& mask = 0 then (p.1 <<< n, p.2 - n) else p

/-- The shift that the older controllers divide the clock by. -/
def clkShift (c : UInt32) : UInt32 :=
  if c - 1 = 0 then 0
  else
    let wide := narrow 0xf0000000 4 (narrow 0xff000000 8 (narrow 0xffff0000 16 (c - 1, 32)))
    let s := (narrow 0x80000000 1 (narrow 0xc0000000 2 wide)).2
    let s := if s > 0 then s - 1 else s
    if s > 7 then 7 else s

/-- The divisor as it stands in the control register. -/
def clkDivisor (hv c : UInt32) : UInt32 :=
  let d := if hv > hostSpecV2 then c else (1 : UInt32) <<< clkShift c
  let d := if d ≤ 2 then 2 else d
  let h := if hv > hostSpecV2 then (d &&& 0x300) >>> 2 else 0
  (d &&& 0x0ff) <<< 8 ||| h

variable (ctl : Controller σ)

/-- `*reg = f(*reg)`. -/
def updateReg (reg : Reg) (f : UInt32 → UInt32) : StateM (Sd σ) Unit := do
  let v ← ctl.readReg reg
  ctl.writeReg reg (f v)

/-- `sd_clk`. -/
def sdClk (f : UInt32) : StateM (Sd σ) UInt32 := do
  let cnt ← poll (do
    let status ← ctl.readReg .status
    pure (decide (status &&& (srCmdInhibit ||| srDatInhibit) ≠ 0))) (ctl.delayMsec 1) 100000
  if cnt ≤ 0 then pure sdError
  else do
    updateReg ctl .control1 fun v => v &&& ~~~c1ClkEn
    ctl.delayMsec 10
    let sd ← get
    updateReg ctl .control1 fun v => v &&& 0xffff003f ||| clkDivisor sd.hv (41666666 / f)
    ctl.delayMsec 10
    updateReg ctl .control1 fun v => v ||| c1ClkEn
    ctl.delayMsec 10
    let cnt ← poll (do
      let v ← ctl.readReg .control1
      pure (decide (v &&& c1ClkStable = 0))) (ctl.delayMsec 10) 10000
    pure (if cnt ≤ 0 then sdError else sdOk)

/-! ## The phases of `sd_init` -/

/-- A part of `sd_init`. The exception is what it returns early, `none` when the fuel for the
loop over the configuration register has run out. -/
abbrev SdInit (σ α : Type) := ExceptT (Option UInt32) (StateM (Sd σ)) α

/-- `if(cond) return r;` -/
def returnIf (cond : Prop) [Decidable cond] (r : UInt32) : SdInit σ Unit :=
  if cond then throw (some r) else pure ()

/-- `sd_cmd(code, arg); if(sd_err) return sd_err;` -/
def checkedCmd (code arg : UInt32) : SdInit σ Unit := do
  let _ ← ExceptT.lift (sdCmd ctl code arg)
  let sd ← ExceptT.lift get
  returnIf (sd.err ≠ sdOk) sd.err

/-- `if((r=sd_clk(f))) return r;` -/
def checkedClk (f : UInt32) : SdInit σ Unit := do
  let r ← ExceptT.lift (sdClk ctl f)
  returnIf (r ≠ 0) r

/-- `*GPPUD=2; wait_cycles(150); *GPPUDCLK1=pins; wait_cycles(150); *GPPUD=0; *GPPUDCLK1=0;` -/
def pullUp (pins : UInt32) : StateM (Sd σ) Unit := do
  ctl.writeReg .gppud 2
  ctl.delayCycles 150
  ctl.writeReg .gppudclk1 pins
  ctl.delayCycles 150
  ctl.writeReg .gppud 0
  ctl.writeReg .gppudclk1 0

/-- The pins of the card and the version of the controller. -/
def setUpPins : StateM (Sd σ) Unit := do
  updateReg ctl .gpfsel4 fun r => r &&& ~~~((7 : UInt32) <<< 21)
  pullUp ctl ((1 : UInt32) <<< 15)
  updateReg ctl .gphen1 fun r => r ||| (1 : UInt32) <<< 15
  updateReg ctl .gpfsel4 fun r => r ||| ((7 : UInt32) <<< 24 ||| (7 : UInt32) <<< 27)
  pullUp ctl ((1 : UInt32) <<< 16 ||| (1 : UInt32) <<< 17)
  updateReg ctl .gpfsel5 fun r =>
    r ||| ((7 : UInt32) ||| (7 : UInt32) <<< 3 ||| (7 : UInt32) <<< 6 ||| (7 : UInt32) <<< 9)
  pullUp ctl ((1 : UInt32) <<< 18 ||| (1 : UInt32) <<< 19 ||| (1 : UInt32) <<< 20 |||
    (1 : UInt32) <<< 21)
  let ver ← ctl.readReg .slotisrVer
  modify fun sd => { sd with hv := (ver &&& hostSpecNum) >>> 16 }

/-- The reset of the controller, and the `cnt` that its wait leaves. It is a `uint64_t`, so a
wait that has run out leaves its largest value. -/
def awaitReset : StateM (Sd σ) UInt64 := do
  ctl.writeReg .control0 0
  updateReg ctl .control1 fun v => v ||| c1SrstHc
  ctl.delayMsec 10
  let cnt ← poll (do
    let v ← ctl.readReg .control1
    pure (decide (v &&& c1SrstHc ≠ 0))) (ctl.delayMsec 10) 10000
  pure (UInt64.ofInt cnt)

/-- The controller from its pins to its interrupts, and the globals cleared. -/
def startController : SdInit σ Unit := do
  ExceptT.lift (setUpPins ctl)
  let cnt ← ExceptT.lift (awaitReset ctl)
  returnIf (cnt ≤ 0) sdError
  ExceptT.lift (updateReg ctl .control1 fun v => v ||| (c1ClkIntlen ||| c1TounitMax))
  ExceptT.lift (ctl.delayMsec 10)
  checkedClk ctl 400000
  ExceptT.lift (ctl.writeReg .intEn 0xffffffff)
  ExceptT.lift (ctl.writeReg .intMask 0xffffffff)
  ExceptT.lift (modify fun sd => { sd with scr0 := 0, scr1 := 0, rca := 0, err := 0 })

/-- `while(!(r&ACMD41_CMD_COMPLETE) && cnt--)`, with the answer and the `cnt` that it leaves. -/
def sendOpCond : ℕ → UInt32 → SdInit σ (UInt32 × ℤ)
  | 0, r => pure (r, if r &&& acmd41CmdComplete = 0 then -1 else 0)
  | cnt + 1, r =>
    if r &&& acmd41CmdComplete = 0 then do
      ExceptT.lift (ctl.delayCycles 400)
      let r ← ExceptT.lift (sdCmd ctl cmdSendOpCond acmd41ArgHc)
      let sd ← ExceptT.lift get
      returnIf (sd.err ≠ sdTimeout ∧ sd.err ≠ sdOk) sd.err
      sendOpCond cnt r
    else pure (r, cnt + 1)

/-- `sd_init` up to the answer of the card to `CMD_SEND_OP_COND`. What the card returns to
`CMD_SEND_IF_COND` is not looked at. -/
def findCard : SdInit σ (UInt32 × ℤ) := do
  startController ctl
  checkedCmd ctl cmdGoIdle 0
  checkedCmd ctl cmdSendIfCond 0x000001aa
  sendOpCond ctl 6 0

/-- The card is given its address and selected. -/
def selectCard : SdInit σ Unit := do
  let _ ← ExceptT.lift (sdCmd ctl cmdAllSendCid 0)
  let rca ← ExceptT.lift (sdCmd ctl cmdSendRelAddr 0)
  -- an `int` that is stored in a `uint64_t`
  ExceptT.lift (modify fun sd => { sd with rca := rca.toInt32.toInt64.toUInt64 })
  let sd ← ExceptT.lift get
  returnIf (sd.err ≠ sdOk) sd.err
  checkedClk ctl 25000000
  checkedCmd ctl cmdCardSelect sd.rca.toUInt32

/-- `sd_scr[r] = w`. -/
def setScr (r : ℕ) (w : UInt32) : StateM (Sd σ) Unit :=
  modify fun sd => if r = 0 then { sd with scr0 := w } else { sd with scr1 := w }

/-- `while(r<2 && cnt)`. Nothing counts `cnt` down, so that it stays 100000. -/
def readScr : ℕ → ℕ → SdInit σ ℕ
  | 0, r => if r < 2 then throw none else pure r
  | fuel + 1, r =>
    if r < 2 then do
      let status ← ExceptT.lift (ctl.readReg .status)
      if status &&& srReadAvailable ≠ 0 then do
        let w ← ExceptT.lift (ctl.readReg .data)
        ExceptT.lift (setScr r w)
        readScr fuel (r + 1)
      else do
        ExceptT.lift (ctl.delayMsec 1)
        readScr fuel r
    else pure r

/-- The configuration register is asked for and read. -/
def askScr (fuel : ℕ) : SdInit σ Unit := do
  let busy ← ExceptT.lift (sdStatus ctl srDatInhibit)
  returnIf (busy ≠ sdOk) sdTimeout
  ExceptT.lift (ctl.writeReg .blksizecnt ((1 : UInt32) <<< 16 ||| 8))
  checkedCmd ctl cmdSendScr 0
  let ready ← ExceptT.lift (sdInt ctl intReadRdy)
  returnIf (ready ≠ 0) sdTimeout
  let r ← readScr ctl fuel 0
  returnIf (r ≠ 2) sdTimeout

/-- The card is told to use four data lines if it can. -/
def setBusWidth : SdInit σ Unit := do
  let sd ← ExceptT.lift get
  if sd.scr0 &&& scrSdBusWidth4 ≠ 0 then do
    checkedCmd ctl cmdSetBusWidth (sd.rca ||| 2).toUInt32
    ExceptT.lift (updateReg ctl .control0 fun v => v ||| c0HctlDwitdh)
  else pure ()

/-- `sd_scr[0]&=~SCR_SUPP_CCS; sd_scr[0]|=ccs;` -/
def setAddressing (r : UInt32) : StateM (Sd σ) Unit :=
  modify fun sd =>
    { sd with scr0 := sd.scr0 &&& ~~~scrSuppCcs |||
                if r &&& acmd41CmdCcs ≠ 0 then scrSuppCcs else 0 }

/-- `sd_init` from the answer to `CMD_SEND_OP_COND` on. -/
def useCard (fuel : ℕ) (answer : UInt32 × ℤ) : SdInit σ Unit := do
  returnIf (answer.1 &&& acmd41CmdComplete = 0 ∨ UInt64.ofInt answer.2 = 0) sdTimeout
  returnIf (answer.1 &&& acmd41Voltage = 0) sdError
  selectCard ctl
  askScr ctl fuel
  setBusWidth ctl
  ExceptT.lift (setAddressing answer.1)

/-- What a function returns that ends with `return SD_OK;`. -/
def returned (body : SdInit σ Unit) : StateM (Sd σ) (Option UInt32) := do
  let out ← body.run
  match out with
  | .ok () => pure (some sdOk)
  | .error r => pure r

/-- `sd_init`, or `none` when it waits for the configuration register for longer than `fuel`. -/
def sdInit (fuel : ℕ) : StateM (Sd σ) (Option UInt32) :=
  returned (findCard ctl >>= useCard ctl fuel)

/-- What the card has answered to `CMD_SEND_OP_COND` in the end: what `RESP0` has held then, with
`CMD_ERRORS_MASK` (`opCondAnswer_resp0`). -/
def opCondAnswer (sd : Sd σ) : Option UInt32 :=
  ((findCard ctl).run sd).1.toOption.map Prod.fst

/-! ## Early returns -/

/-- An early return is never `SD_OK`. -/
def NotOk (e : Option UInt32) (_ : Sd σ) : Prop := e ≠ some sdOk

variable {ctl} {pre : Sd σ → Prop}

/-- A statement of which only the early returns matter. -/
theorem anyLift {α β : Type} {program : StateM (Sd σ) α} {rest : α → SdInit σ β}
    {post : β → Sd σ → Prop} (h : ∀ a, Continues (fun _ => True) (rest a) post NotOk) :
    Continues pre (ExceptT.lift program >>= rest) post NotOk :=
  Continues.bind (m := fun _ _ => True) (Continues.lift fun _ _ => trivial) h

theorem returnIf_continues {cond : Prop} [Decidable cond] {r : UInt32}
    (hr : cond → r ≠ sdOk) :
    Continues pre (returnIf cond r) (fun _ sd => ¬ cond ∧ pre sd) NotOk := by
  refine Continues.ite (fun hcond => ?_) fun hcond => ?_
  · exact Continues.throw fun _ _ he => hr hcond (Option.some.inj he)
  · exact Continues.pure fun _ hs => ⟨hcond, hs⟩

/-- Behind the test of a result only its negation is known. -/
theorem returnIf_any {cond : Prop} [Decidable cond] {r : UInt32} (hr : cond → r ≠ sdOk) :
    Continues pre (returnIf cond r) (fun _ _ => True) NotOk :=
  (returnIf_continues hr).strengthen_post fun _ _ _ => trivial

theorem checkedCmd_any (code arg : UInt32) :
    Continues pre (checkedCmd ctl code arg) (fun _ _ => True) NotOk :=
  anyLift fun _ => anyLift fun _ => returnIf_any id

theorem checkedClk_any (f : UInt32) :
    Continues pre (checkedClk ctl f) (fun _ _ => True) NotOk :=
  anyLift fun _ => returnIf_any id

theorem startController_any : Continues pre (startController ctl) (fun _ _ => True) NotOk := by
  refine anyLift fun _ => anyLift fun cnt => ?_
  refine Continues.bind (returnIf_any fun _ => by decide) fun _ => ?_
  refine anyLift fun _ => anyLift fun _ => ?_
  refine Continues.bind (checkedClk_any _) fun _ => ?_
  exact anyLift fun _ => anyLift fun _ => Continues.lift fun _ _ => trivial

theorem sendOpCond_any (cnt : ℕ) (r : UInt32) :
    Continues pre (sendOpCond ctl cnt r) (fun _ _ => True) NotOk := by
  induction cnt generalizing r pre with
  | zero => exact Continues.pure fun _ _ => trivial
  | succ cnt ih =>
    refine Continues.ite (fun _ => ?_) fun _ => Continues.pure fun _ _ => trivial
    refine anyLift fun _ => anyLift fun r => anyLift fun sd => ?_
    exact Continues.bind (returnIf_any And.right) fun _ => ih r

theorem findCard_any : Continues pre (findCard ctl) (fun _ _ => True) NotOk := by
  refine Continues.bind startController_any fun _ => ?_
  refine Continues.bind (checkedCmd_any _ _) fun _ => ?_
  refine Continues.bind (checkedCmd_any _ _) fun _ => ?_
  exact sendOpCond_any _ _

theorem selectCard_any : Continues pre (selectCard ctl) (fun _ _ => True) NotOk := by
  refine anyLift fun _ => anyLift fun _ => anyLift fun _ => anyLift fun sd => ?_
  refine Continues.bind (returnIf_any id) fun _ => ?_
  refine Continues.bind (checkedClk_any _) fun _ => ?_
  exact checkedCmd_any _ _

/-- The loop over the configuration register ends with both words. -/
theorem readScr_continues {fuel r : ℕ} (hr : r ≤ 2) :
    Continues pre (readScr ctl fuel r) (fun r _ => r = 2) NotOk := by
  induction fuel generalizing r pre with
  | zero =>
    refine Continues.ite (fun _ => ?_) fun hdone => ?_
    · exact Continues.throw fun _ _ he => by cases he
    · exact Continues.pure fun _ _ => by omega
  | succ fuel ih =>
    refine Continues.ite (fun hmore => ?_) fun hdone => Continues.pure fun _ _ => by omega
    refine anyLift fun status => Continues.ite (fun _ => ?_) fun _ => ?_
    · exact anyLift fun w => anyLift fun _ => ih (by omega)
    · exact anyLift fun _ => ih hr

theorem askScr_any (fuel : ℕ) : Continues pre (askScr ctl fuel) (fun _ _ => True) NotOk := by
  refine anyLift fun busy => Continues.bind (returnIf_any fun _ => by decide) fun _ => ?_
  refine anyLift fun _ => Continues.bind (checkedCmd_any _ _) fun _ => ?_
  refine anyLift fun ready => Continues.bind (returnIf_any fun _ => by decide) fun _ => ?_
  refine Continues.bind (readScr_continues (by omega)) fun r => ?_
  exact returnIf_any fun _ => by decide

theorem setBusWidth_any : Continues pre (setBusWidth ctl) (fun _ _ => True) NotOk := by
  refine anyLift fun sd => Continues.ite (fun _ => ?_) fun _ => Continues.pure fun _ _ => trivial
  refine Continues.bind (checkedCmd_any _ _) fun _ => ?_
  exact Continues.lift fun _ _ => trivial

/-! ## What the card answers -/

/-- What holds where a part of `sd_init` has gone on with an answer. -/
theorem answered_ok {body : SdInit σ (UInt32 × ℤ)} {post : UInt32 × ℤ → Sd σ → Prop}
    (h : Continues (fun _ => True) body post NotOk) {sd₀ : Sd σ} {r : UInt32}
    (hr : (body.run sd₀).1.toOption.map Prod.fst = some r) :
    ∃ answer, answer.1 = r ∧ post answer (body.run sd₀).2 := by
  have hend := h.contract sd₀ trivial
  generalize body.run sd₀ = out at hr hend ⊢
  obtain ⟨e | answer, sd⟩ := out
  · cases hr
  · exact ⟨answer, Option.some.inj hr, hend⟩

section Answer

variable {Q : σ → Prop} (hquiet : Quiet ctl Q)

/-- A word is what `RESP0` held, with the bits that are no errors masked out, in a state with
`Q`, and nothing has happened since it was read. -/
def ReadFromResp0 (ctl : Controller σ) (Q : σ → Prop) (x : UInt32) (sd : Sd σ) : Prop :=
  ∃ s, Q s ∧ x = (ctl.read .resp0 s).1 &&& cmdErrorsMask ∧ sd.dev = (ctl.read .resp0 s).2

/-- The code that is compared there is not the one that `sd_cmd` was given. -/
theorem cmdResult_opCond (arg r : UInt32) :
    cmdResult ctl (cmdSendOpCond &&& ~~~cmdNeedApp) arg r = pure (r &&& cmdErrorsMask) := by
  have hcode : cmdSendOpCond &&& ~~~cmdNeedApp = 0x29020000 := by decide
  rw [hcode, cmdResult, if_neg (by decide), if_neg (by decide), if_neg (by decide),
    if_neg (by decide), if_neg (by decide), if_neg (by decide)]

include hquiet

/-- A command of which the answer is only masked gives 0, or the word that is read behind it. -/
theorem sendCmd_resp0 {code arg : UInt32} (hcode : ∀ r, cmdResult ctl code arg r =
      pure (r &&& cmdErrorsMask)) (hissued : ∀ s, Q (ctl.write .cmdtm code s).2) :
    Contract pre (sendCmd ctl code arg) (fun x sd => x ≠ 0 → ReadFromResp0 ctl Q x sd) := by
  have hfailed : ∀ e, Contract (fun _ : Sd σ => True)
      (do setErr e; pure 0 : StateM (Sd σ) UInt32)
      (fun x sd => x ≠ 0 → ReadFromResp0 ctl Q x sd) := fun e _ _ h => absurd rfl h
  have hrest : ∀ g, Contract (At g Q) (do
      cmdDelay ctl code
      let r ← sdInt ctl intCmdDone
      if r ≠ 0 then do
        setErr r
        pure 0
      else do
        let r ← ctl.readReg .resp0
        cmdResult ctl code arg r : StateM (Sd σ) UInt32)
      (fun x sd => x ≠ 0 → ReadFromResp0 ctl Q x sd) := by
    intro g
    refine Contract.bind (m := fun _ => At g Q) ?_ fun _ => ?_
    · exact Contract.ite (fun _ => hquiet.delayMsec _) fun _ =>
        Contract.ite (fun _ => hquiet.delayMsec _) fun _ => Contract.pure fun _ hs => hs
    refine Contract.bind (hquiet.sdInt _) fun e => Contract.ite (fun _ => ?_) fun _ => ?_
    · exact (hfailed e).weaken_pre fun _ _ => trivial
    refine Contract.bind (m := fun x sd => ReadFromResp0 ctl Q (x &&& cmdErrorsMask) sd)
      (fun sd hs => ⟨sd.dev, hs.2, rfl, rfl⟩) fun x => ?_
    rw [hcode]
    exact Contract.pure fun _ hs _ => hs
  refine Contract.bind (m := fun _ _ => True) (fun _ _ => trivial) fun busy =>
    Contract.ite (fun _ => hfailed sdTimeout) fun _ => ?_
  exact fun sd _ => hrest _ _ ⟨rfl, hissued _⟩

/-- With `CMD_APP_CMD` in front. -/
theorem sdCmd_resp0 {code arg : UInt32} (happ : code &&& cmdNeedApp ≠ 0)
    (hcode : ∀ r, cmdResult ctl (code &&& ~~~cmdNeedApp) arg r = pure (r &&& cmdErrorsMask))
    (hissued : ∀ s, Q (ctl.write .cmdtm (code &&& ~~~cmdNeedApp) s).2) :
    Contract pre (sdCmd ctl code arg) (fun x sd => x ≠ 0 → ReadFromResp0 ctl Q x sd) := by
  refine Contract.bind (m := fun _ _ => True) (fun _ _ => trivial) fun _ => ?_
  rw [if_neg happ]
  refine Contract.bind (m := fun _ _ => True) (fun _ _ => trivial) fun sd => ?_
  refine Contract.bind (m := fun _ _ => True) (fun _ _ => trivial) fun app =>
    Contract.ite (fun _ _ _ h => absurd rfl h) fun _ => ?_
  exact sendCmd_resp0 hquiet hcode hissued

/-- The loop of `CMD_SEND_OP_COND` ends with 0 or with what was read behind its last command. -/
theorem sendOpCond_resp0
    (hissued : ∀ s, Q (ctl.write .cmdtm (cmdSendOpCond &&& ~~~cmdNeedApp) s).2) (cnt : ℕ)
    (r : UInt32) :
    Continues (fun sd => r ≠ 0 → ReadFromResp0 ctl Q r sd) (sendOpCond ctl cnt r)
      (fun answer sd => answer.1 ≠ 0 → ReadFromResp0 ctl Q answer.1 sd) NotOk := by
  have hcmd : Contract (fun _ => True) (sdCmd ctl cmdSendOpCond acmd41ArgHc)
      (fun x sd => x ≠ 0 → ReadFromResp0 ctl Q x sd) :=
    sdCmd_resp0 hquiet (by decide) (cmdResult_opCond _) hissued
  induction cnt generalizing r with
  | zero => exact Continues.pure fun _ hs => hs
  | succ cnt ih =>
    refine Continues.ite (fun _ => ?_) fun _ => Continues.pure fun _ hs => hs
    refine anyLift fun _ => Continues.bind (Continues.lift hcmd) fun x => ?_
    refine Continues.bind (m := fun _ sd => x ≠ 0 → ReadFromResp0 ctl Q x sd)
      (Continues.lift fun _ hs => hs) fun sd => ?_
    refine Continues.bind (returnIf_continues And.right) fun _ => ?_
    exact Continues.of_fact fun _ => ih x

/-- The answer that counts is 0, or the word that `RESP0` has held behind the last
`CMD_SEND_OP_COND`: in a state with whatever is true behind that command, whatever is polled. -/
theorem opCondAnswer_resp0
    (hissued : ∀ s, Q (ctl.write .cmdtm (cmdSendOpCond &&& ~~~cmdNeedApp) s).2) {sd₀ : Sd σ}
    {r : UInt32} (hr : opCondAnswer ctl sd₀ = some r) (hne : r ≠ 0) :
    ReadFromResp0 ctl Q r ((findCard ctl).run sd₀).2 := by
  have hfound : Continues (fun _ => True) (findCard ctl)
      (fun answer sd => answer.1 ≠ 0 → ReadFromResp0 ctl Q answer.1 sd) NotOk := by
    refine Continues.bind startController_any fun _ => ?_
    refine Continues.bind (checkedCmd_any _ _) fun _ => ?_
    have hzero : ∀ sd : Sd σ, (0 : UInt32) ≠ 0 → ReadFromResp0 ctl Q 0 sd :=
      fun _ h => absurd rfl h
    exact Continues.bind ((checkedCmd_any _ _).strengthen_post fun _ sd _ => hzero sd)
      fun _ => sendOpCond_resp0 hquiet hissued 6 0
  obtain ⟨answer, rfl, hanswer⟩ := answered_ok hfound hr
  exact hanswer hne

end Answer

/-! ## The addressing of the card -/

/-- The driver addresses blocks as the answer to `CMD_SEND_OP_COND` says. -/
def AddressesBy (r : UInt32) (sd : Sd σ) : Prop :=
  sd.scr0 &&& scrSuppCcs ≠ 0 ↔ r &&& acmd41CmdCcs ≠ 0

theorem setAddressing_contract (r : UInt32) :
    Contract pre (setAddressing r) (fun _ sd => AddressesBy r sd) := by
  intro sd _
  have hcleared : sd.scr0 &&& ~~~scrSuppCcs &&& scrSuppCcs = 0 := clear_and_self
  change (sd.scr0 &&& ~~~scrSuppCcs ||| if r &&& acmd41CmdCcs ≠ 0 then scrSuppCcs else 0) &&&
    scrSuppCcs ≠ 0 ↔ _
  rw [ne_eq, or_and_eq_zero, not_and]
  split
  · rename_i hccs
    exact ⟨fun _ => hccs, fun _ _ => by decide⟩
  · rename_i hccs
    exact ⟨fun h => absurd (by decide) (h hcleared), fun h => absurd h hccs⟩

/-- Behind the answer to `CMD_SEND_OP_COND` the call ends with `SD_OK` only where the card has
said that it is ready and takes the voltage. -/
theorem useCard_continues (fuel : ℕ) (answer : UInt32 × ℤ) :
    Continues pre (useCard ctl fuel answer) (fun _ sd =>
      (answer.1 &&& acmd41CmdComplete ≠ 0 ∧ answer.1 &&& acmd41Voltage ≠ 0) ∧
        AddressesBy answer.1 sd) NotOk := by
  refine Continues.bind (returnIf_continues fun _ => by decide) fun _ =>
    Continues.of_fact fun hready => ?_
  refine Continues.bind (returnIf_continues fun _ => by decide) fun _ =>
    Continues.of_fact fun hvoltage => ?_
  refine Continues.bind selectCard_any fun _ => ?_
  refine Continues.bind (askScr_any fuel) fun _ => ?_
  refine Continues.bind setBusWidth_any fun _ => Continues.lift ?_
  exact (setAddressing_contract answer.1).strengthen_post fun _ _ hsd =>
    ⟨⟨fun h => hready (Or.inl h), hvoltage⟩, hsd⟩

/-- A reset that does not end is not noticed: the wait that has run out leaves a `cnt` that
passes the test behind it. -/
theorem awaitReset_stuck {P : σ → Prop}
    (hbusy : ∀ s, P s → (ctl.read .control1 s).1 &&& c1SrstHc ≠ 0 ∧ P (ctl.read .control1 s).2)
    (hstart : ∀ s, P (ctl.write .control1 ((ctl.read .control1 s).1 ||| c1SrstHc)
      (ctl.read .control1 s).2).2)
    (hwait : ∀ s, P s → P (ctl.waitMsec 10 s).2) :
    Contract pre (awaitReset ctl) (fun cnt _ => ¬ cnt ≤ 0) := by
  refine Contract.bind (m := fun _ _ => True) (fun _ _ => trivial) fun _ => ?_
  refine Contract.bind (m := fun _ sd => P (Sd.dev sd)) (fun sd _ => hstart sd.dev) fun _ => ?_
  refine Contract.bind (m := fun _ sd => P (Sd.dev sd)) (fun sd hs => hwait sd.dev hs) fun _ => ?_
  refine Contract.bind (Contract.poll_never (p := fun sd => P (Sd.dev sd)) ?_ ?_ _) fun cnt => ?_
  · exact fun sd hs => ⟨decide_eq_true (hbusy sd.dev hs).1, (hbusy sd.dev hs).2⟩
  · exact fun sd hs => hwait sd.dev hs
  · refine Contract.pure fun sd hs => ?_
    rw [hs.1]
    decide

/-! ## The calls behind `sd_init` -/

/-- No transfer changes what the driver knows of the card. -/
theorem sdReadblock_scr0 (lba num : UInt32) (buffer : ℕ → UInt32) (sd : Sd σ) :
    (sdReadblock ctl lba buffer num sd).2.scr0 = sd.scr0 := by
  have hstart : Amid sd.toSdGlobals (Asks []) sd.watched := ⟨sd.err, rfl, rfl⟩
  have hread := (readAsking ctl sd.toSdGlobals lba (if num < 1 then 1 else num) buffer
    []).transfer sd.watched hstart
  have hsame : (sdReadblock ctl.monitored lba buffer num sd.watched).2.unmonitored =
      (sdReadblock ctl lba buffer num sd).2 :=
    (transfer_alike readDirections_alike buffer sd.watched sd rfl).2
  rw [← hsame]
  exact hread.elim (fun h => h.2.scr0) fun h => h.2.scr0

theorem sdWriteblock_scr0 (buffer : ℕ → UInt32) (lba num : UInt32) (sd : Sd σ) :
    (sdWriteblock ctl buffer lba num sd).2.scr0 = sd.scr0 := by
  have hstart : Amid sd.toSdGlobals (Asks []) sd.watched := ⟨sd.err, rfl, rfl⟩
  have hwrite := (writeAsking ctl sd.toSdGlobals lba (if num < 1 then 1 else num) buffer
    []).transfer sd.watched hstart
  have hsame : (sdWriteblock ctl.monitored buffer lba num sd.watched).2.unmonitored =
      (sdWriteblock ctl buffer lba num sd).2 :=
    (transfer_alike (writeDirections_alike buffer) () sd.watched sd rfl).2
  rw [← hsame]
  exact hwrite.elim (fun h => h.2.scr0) fun h => h.2.scr0

theorem SdRun.scr0 {sd₀ sd : Sd σ} {done : List SdDone} (h : SdRun ctl sd₀ done sd) :
    sd.scr0 = sd₀.scr0 := by
  induction h with
  | nil => rfl
  | read _ lba num buffer ih => rw [sdReadblock_scr0, ih]
  | write _ buffer lba num ih => rw [sdWriteblock_scr0, ih]

theorem findCard_answer (sd₀ : Sd σ) :
    Continues (fun sd => sd = sd₀) (findCard ctl)
      (fun answer _ => opCondAnswer ctl sd₀ = some answer.1 ∧ True) NotOk := by
  have hfound : Continues (fun _ => True) (findCard ctl) (fun _ _ => True) NotOk := findCard_any
  refine (hfound.result trivial).strengthen_post fun answer _ hs => ?_
  rw [opCondAnswer, hs.1]
  exact ⟨rfl, trivial⟩

/-- What holds where the parts of `sd_init` have all gone on. -/
theorem returned_ok {body : SdInit σ Unit} {post : Unit → Sd σ → Prop}
    (h : Continues pre body post NotOk) {sd₀ sd₁ : Sd σ} (hpre : pre sd₀)
    (hreturned : returned body sd₀ = (some sdOk, sd₁)) : post () sd₁ := by
  have hend := h.contract sd₀ hpre
  change (match (body.run sd₀).1 with
    | .ok () => (pure (some sdOk) : StateM (Sd σ) (Option UInt32))
    | .error r => pure r) (body.run sd₀).2 = _ at hreturned
  generalize body.run sd₀ = out at hend hreturned
  obtain ⟨e | ⟨⟩, sd⟩ := out
  · exact absurd (congrArg Prod.fst hreturned) hend
  · have hsd : sd = sd₁ := congrArg Prod.snd hreturned
    exact hsd ▸ hend

/-- What `sd_init` leaves when it returns `SD_OK`. -/
theorem sdInit_ok {fuel : ℕ} {sd₀ sd₁ : Sd σ} (hinit : sdInit ctl fuel sd₀ = (some sdOk, sd₁)) :
    ∃ r, opCondAnswer ctl sd₀ = some r ∧ (r &&& acmd41CmdComplete ≠ 0 ∧
      r &&& acmd41Voltage ≠ 0) ∧ AddressesBy r sd₁ := by
  have hall : Continues (fun sd => sd = sd₀) (findCard ctl >>= useCard ctl fuel)
      (fun _ sd => ∃ r, opCondAnswer ctl sd₀ = some r ∧ (r &&& acmd41CmdComplete ≠ 0 ∧
        r &&& acmd41Voltage ≠ 0) ∧ AddressesBy r sd) NotOk := by
    refine Continues.bind (findCard_answer sd₀) fun answer => Continues.of_fact fun hanswer => ?_
    exact (useCard_continues fuel answer).strengthen_post fun _ sd hsd =>
      ⟨answer.1, hanswer, hsd⟩
  exact returned_ok hall rfl hinit

/-- Whatever the controller answers, `sd_init` ends with `SD_OK` only behind an answer to
`CMD_SEND_OP_COND` that says that the card is ready and takes the voltage. After any calls,
successful or not, the next transfer addresses its blocks as this answer has said. -/
theorem sdInit_addressing {fuel : ℕ} {sd₀ sd₁ sd : Sd σ} {done : List SdDone}
    (hinit : sdInit ctl fuel sd₀ = (some sdOk, sd₁)) (hrun : SdRun ctl sd₁ done sd) :
    ∃ r, opCondAnswer ctl sd₀ = some r ∧ r &&& acmd41CmdComplete ≠ 0 ∧
      r &&& acmd41Voltage ≠ 0 ∧ AddressesBy r sd := by
  obtain ⟨r, hanswer, ⟨hready, hvoltage⟩, haddr⟩ := sdInit_ok hinit
  refine ⟨r, hanswer, hready, hvoltage, ?_⟩
  rw [AddressesBy, hrun.scr0]
  exact haddr

/-- A controller that gives the same answers all the time. -/
def steadyController : Controller Unit where
  read reg := pure (match reg with
    | .status => srReadAvailable
    | .interrupt => intCmdDone ||| intReadRdy
    | .control1 => c1ClkStable
    | .resp0 => acmd41CmdComplete ||| acmd41CmdCcs ||| 0x00100000 ||| srAppCmd
    | _ => 0)
  write _ _ := pure ()
  waitMsec _ := pure ()
  waitCycles _ := pure ()

/-- The globals when the program starts. -/
def steadySd : Sd Unit := { scr0 := 0, scr1 := 0, err := 0, hv := 0, rca := 0, dev := () }

theorem sdInit_addressing_steady : ∃ sd₁ r,
    sdInit steadyController 2 steadySd = (some sdOk, sd₁) ∧
      opCondAnswer steadyController steadySd = some r ∧
      AddressesBy r (sdReadblock steadyController 5 (fun _ => 0) 1 sd₁).2 := by
  have hok : (sdInit steadyController 2 steadySd).1 = some sdOk := by decide +kernel
  obtain ⟨sd₁, hinit⟩ : ∃ sd₁, sdInit steadyController 2 steadySd = (some sdOk, sd₁) := by
    generalize sdInit steadyController 2 steadySd = out at hok ⊢
    exact ⟨out.2, Prod.ext hok rfl⟩
  obtain ⟨r, hanswer, -, -, haddr⟩ := sdInit_addressing hinit (SdRun.nil.read 5 1 fun _ => 0)
  exact ⟨sd₁, r, hinit, hanswer, haddr⟩

end NaiveGfs
