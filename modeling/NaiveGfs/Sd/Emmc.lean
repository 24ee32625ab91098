import NaiveGfs.Programs.Contract

/-!
# The controller of the card and its commands

`bzt-sd.c` drives the controller through its registers. The controller is whatever answers
the accesses: every read and write of a register, and every wait, may change it. Over it
stand the two polling functions and `sd_cmd`; the globals `sd_scr`, `sd_rca`, `sd_err` and
`sd_hv` are the state of the driver.

An `int` that is returned is the word that holds it. `uart_puts` and `uart_hex` are `ignore`
in this build and do not appear.
-/

namespace NaiveGfs

open Programs

/-- The registers that the driver names. -/
inductive Reg
  | blksizecnt | arg1 | cmdtm | resp0 | resp1 | resp2 | resp3 | data | status
  | control0 | control1 | interrupt | intMask | intEn | slotisrVer
  | gpfsel4 | gpfsel5 | gppud | gppudclk1 | gphen1
deriving DecidableEq

/-- What answers the accesses of the driver. -/
structure Controller (σ : Type) where
  read : Reg → StateM σ UInt32
  write : Reg → UInt32 → StateM σ Unit
  waitMsec : UInt32 → StateM σ Unit
  waitCycles : UInt32 → StateM σ Unit

/-- The globals of `bzt-sd.c`. -/
structure SdGlobals where
  scr0 : UInt32
  scr1 : UInt32
  err : UInt32
  hv : UInt32
  rca : UInt64

/-- The globals and the controller. -/
structure Sd (σ : Type) extends SdGlobals where
  dev : σ

/-! ## Constants -/

def sdOk : UInt32 := 0
def sdTimeout : UInt32 := -1
def sdError : UInt32 := -2

def cmdNeedApp : UInt32 := 0x80000000
def cmdRspns48 : UInt32 := 0x00020000
def cmdErrorsMask : UInt32 := 0xfff9c004
def cmdRcaMask : UInt32 := 0xffff0000

def cmdGoIdle : UInt32 := 0x00000000
def cmdAllSendCid : UInt32 := 0x02010000
def cmdSendRelAddr : UInt32 := 0x03020000
def cmdCardSelect : UInt32 := 0x07030000
def cmdSendIfCond : UInt32 := 0x08020000
def cmdStopTrans : UInt32 := 0x0c030000
def cmdReadSingle : UInt32 := 0x11220010
def cmdReadMulti : UInt32 := 0x12220032
def cmdSetBlockcnt : UInt32 := 0x17020000
def cmdWriteSingle : UInt32 := 0x18220000
def cmdWriteMulti : UInt32 := 0x19220022
def cmdAppCmd : UInt32 := 0x37000000
def cmdSetBusWidth : UInt32 := 0x06020000 ||| cmdNeedApp
def cmdSendOpCond : UInt32 := 0x29020000 ||| cmdNeedApp
def cmdSendScr : UInt32 := 0x33220010 ||| cmdNeedApp

def srReadAvailable : UInt32 := 0x00000800
def srWriteAvailable : UInt32 := 0x00000400
def srDatInhibit : UInt32 := 0x00000002
def srCmdInhibit : UInt32 := 0x00000001
def srAppCmd : UInt32 := 0x00000020

def intDataTimeout : UInt32 := 0x00100000
def intCmdTimeout : UInt32 := 0x00010000
def intReadRdy : UInt32 := 0x00000020
def intWriteRdy : UInt32 := 0x00000010
def intDataDone : UInt32 := 0x00000002
def intCmdDone : UInt32 := 0x00000001
def intErrorMask : UInt32 := 0x017e8000

def scrSdBusWidth4 : UInt32 := 0x00000400
def scrSuppSetBlkcnt : UInt32 := 0x02000000
def scrSuppCcs : UInt32 := 0x00000001

variable {σ : Type}

/-! ## Accesses -/

namespace Controller

variable (ctl : Controller σ)

def readReg (r : Reg) : StateM (Sd σ) UInt32 := fun sd =>
  let answer := ctl.read r sd.dev
  (answer.1, { sd with dev := answer.2 })

def writeReg (r : Reg) (v : UInt32) : StateM (Sd σ) Unit := fun sd =>
  ((), { sd with dev := (ctl.write r v sd.dev).2 })

def delayMsec (n : UInt32) : StateM (Sd σ) Unit := fun sd =>
  ((), { sd with dev := (ctl.waitMsec n sd.dev).2 })

def delayCycles (n : UInt32) : StateM (Sd σ) Unit := fun sd =>
  ((), { sd with dev := (ctl.waitCycles n sd.dev).2 })

end Controller

/-- `sd_err = e`. -/
def setErr (e : UInt32) : StateM (Sd σ) Unit := fun sd => ((), { sd with err := e })

variable (ctl : Controller σ)

/-! ## The two waits -/

/-- `sd_status`. -/
def sdStatus (mask : UInt32) : StateM (Sd σ) UInt32 := do
  let cnt ← poll (do
    let status ← ctl.readReg .status
    if status &&& mask = 0 then pure false
    else do
      let irq ← ctl.readReg .interrupt
      pure (decide (irq &&& intErrorMask = 0))) (ctl.delayMsec 1) 1000000
  if cnt ≤ 0 then pure sdError
  else do
    let irq ← ctl.readReg .interrupt
    pure (if irq &&& intErrorMask ≠ 0 then sdError else sdOk)

/-- `sd_int`. -/
def sdInt (mask : UInt32) : StateM (Sd σ) UInt32 := do
  let cnt ← poll (do
    let irq ← ctl.readReg .interrupt
    pure (decide (irq &&& (mask ||| intErrorMask) = 0))) (ctl.delayMsec 1) 1000000
  let r ← ctl.readReg .interrupt
  if cnt ≤ 0 ∨ r &&& intCmdTimeout ≠ 0 ∨ r &&& intDataTimeout ≠ 0 then do
    ctl.writeReg .interrupt r
    pure sdTimeout
  else if r &&& intErrorMask ≠ 0 then do
    ctl.writeReg .interrupt r
    pure sdError
  else do
    ctl.writeReg .interrupt mask
    pure 0

/-! ## Commands -/

/-- The wait that some commands are given. -/
def cmdDelay (code : UInt32) : StateM (Sd σ) Unit :=
  if code = cmdSendOpCond then ctl.delayMsec 1000
  else if code = cmdSendIfCond ∨ code = cmdAppCmd then ctl.delayMsec 100
  else pure ()

/-- The error bits of the answer to `CMD_SEND_REL_ADDR`, where the other commands have them. -/
def relAddrErrors (r : UInt32) : UInt32 :=
  let low : UInt32 := r &&& 0x1fff
  let bit13 : UInt32 := r &&& 0x2000
  let bit14 : UInt32 := r &&& 0x4000
  let bit15 : UInt32 := r &&& 0x8000
  (low ||| bit13 <<< 6 ||| bit14 <<< 8 ||| bit15 <<< 8) &&& cmdErrorsMask

/-- What `sd_cmd` makes of the first response word. -/
def cmdResult (code arg r : UInt32) : StateM (Sd σ) UInt32 :=
  if code = cmdGoIdle ∨ code = cmdAppCmd then pure 0
  else if code = cmdAppCmd ||| cmdRspns48 then pure (r &&& srAppCmd)
  else if code = cmdSendOpCond then pure r
  else if code = cmdSendIfCond then pure (if r = arg then sdOk else sdError)
  else if code = cmdAllSendCid then do
    let r3 ← ctl.readReg .resp3
    let r2 ← ctl.readReg .resp2
    let r1 ← ctl.readReg .resp1
    pure (r ||| r3 ||| r2 ||| r1)
  else if code = cmdSendRelAddr then do
    setErr (relAddrErrors r)
    pure (r &&& cmdRcaMask)
  else pure (r &&& cmdErrorsMask)

/-- `sd_cmd` from the wait for the command line on. -/
def sendCmd (code arg : UInt32) : StateM (Sd σ) UInt32 := do
  let busy ← sdStatus ctl srCmdInhibit
  if busy ≠ sdOk then do
    setErr sdTimeout
    pure 0
  else do
    let irq ← ctl.readReg .interrupt
    ctl.writeReg .interrupt irq
    ctl.writeReg .arg1 arg
    ctl.writeReg .cmdtm code
    cmdDelay ctl code
    let r ← sdInt ctl intCmdDone
    if r ≠ 0 then do
      setErr r
      pure 0
    else do
      let r ← ctl.readReg .resp0
      cmdResult ctl code arg r

/-- `sd_cmd` for a code that needs no `CMD_APP_CMD` in front. -/
def plainCmd (code arg : UInt32) : StateM (Sd σ) UInt32 := do
  setErr sdOk
  sendCmd ctl code arg

/-- `sd_cmd`. The command in front is a call of `sd_cmd` itself, for a code without
`CMD_NEED_APP`. -/
def sdCmd (code arg : UInt32) : StateM (Sd σ) UInt32 := do
  setErr sdOk
  if code &&& cmdNeedApp = 0 then sendCmd ctl code arg
  else do
    let sd ← get
    let r ← plainCmd ctl (cmdAppCmd ||| if sd.rca = 0 then 0 else cmdRspns48) sd.rca.toUInt32
    if sd.rca ≠ 0 ∧ r = 0 then do
      setErr sdError
      pure 0
    else sendCmd ctl (code &&& ~~~cmdNeedApp) arg

/-! ## What the waits and the commands keep -/

/-- The globals are `g`, and the controller is in a state with `P`. -/
def At (g : SdGlobals) (P : σ → Prop) (sd : Sd σ) : Prop := sd.toSdGlobals = g ∧ P sd.dev

variable {ctl} {g : SdGlobals} {P Q : σ → Prop}

theorem readReg_contract {r : Reg} {post : UInt32 → σ → Prop}
    (h : ∀ s, P s → post (ctl.read r s).1 (ctl.read r s).2) :
    Contract (At g P) (ctl.readReg r) (fun x => At g (post x)) :=
  fun sd hsd => ⟨hsd.1, h sd.dev hsd.2⟩

theorem writeReg_contract {r : Reg} {v : UInt32} (h : ∀ s, P s → Q (ctl.write r v s).2) :
    Contract (At g P) (ctl.writeReg r v) (fun _ => At g Q) :=
  fun sd hsd => ⟨hsd.1, h sd.dev hsd.2⟩

theorem delayMsec_contract {n : UInt32} (h : ∀ s, P s → Q (ctl.waitMsec n s).2) :
    Contract (At g P) (ctl.delayMsec n) (fun _ => At g Q) :=
  fun sd hsd => ⟨hsd.1, h sd.dev hsd.2⟩

theorem setErr_contract {e : UInt32} :
    Contract (At g P) (setErr e) (fun _ => At { g with err := e } P) :=
  fun _ hsd => ⟨congrArg (fun g : SdGlobals => { g with err := e }) hsd.1, hsd.2⟩

/-- A property that only the data register, the command registers and the block registers
can end. -/
structure Quiet (ctl : Controller σ) (P : σ → Prop) : Prop where
  read : ∀ r ≠ .data, ∀ s, P s → P (ctl.read r s).2
  clear : ∀ v s, P s → P (ctl.write .interrupt v s).2
  waitMsec : ∀ n s, P s → P (ctl.waitMsec n s).2

namespace Quiet

theorem readReg (h : Quiet ctl P) {r : Reg} (hr : r ≠ .data) :
    Contract (At g P) (ctl.readReg r) (fun _ => At g P) :=
  readReg_contract (h.read r hr)

theorem writeInterrupt (h : Quiet ctl P) (v : UInt32) :
    Contract (At g P) (ctl.writeReg .interrupt v) (fun _ => At g P) :=
  writeReg_contract (h.clear v)

theorem delayMsec (h : Quiet ctl P) (n : UInt32) :
    Contract (At g P) (ctl.delayMsec n) (fun _ => At g P) :=
  delayMsec_contract (h.waitMsec n)

theorem sdStatus (h : Quiet ctl P) (mask : UInt32) :
    Contract (At g P) (sdStatus ctl mask) (fun _ => At g P) := by
  refine Contract.bind (m := fun _ => At g P) ?_ fun cnt => Contract.ite (fun _ => ?_) fun _ => ?_
  · refine (Contract.poll (d := fun _ => True) ?_ (h.delayMsec 1) _).strengthen_post
      fun _ _ hs => hs.1
    refine Contract.bind (h.readReg (by decide)) fun status =>
      Contract.ite (fun _ => ?_) fun _ => ?_
    · exact Contract.pure fun _ hs => ⟨hs, fun _ => trivial⟩
    · refine Contract.bind (h.readReg (by decide)) fun irq => ?_
      exact Contract.pure fun _ hs => ⟨hs, fun _ => trivial⟩
  · exact Contract.pure fun _ hs => hs
  · exact Contract.bind (h.readReg (by decide)) fun irq => Contract.pure fun _ hs => hs

theorem sdInt (h : Quiet ctl P) (mask : UInt32) :
    Contract (At g P) (sdInt ctl mask) (fun _ => At g P) := by
  refine Contract.bind (m := fun _ => At g P) ?_ fun cnt => ?_
  · refine (Contract.poll (d := fun _ => True) ?_ (h.delayMsec 1) _).strengthen_post
      fun _ _ hs => hs.1
    refine Contract.bind (h.readReg (by decide)) fun irq => ?_
    exact Contract.pure fun _ hs => ⟨hs, fun _ => trivial⟩
  · refine Contract.bind (h.readReg (by decide)) fun r => ?_
    have hclear : ∀ v res, Contract (At g P)
        (do ctl.writeReg .interrupt v; pure res : StateM (Sd σ) UInt32) (fun _ => At g P) :=
      fun v res => Contract.bind (h.writeInterrupt v) fun _ => Contract.pure fun _ hs => hs
    exact Contract.ite (fun _ => hclear _ _) fun _ =>
      Contract.ite (fun _ => hclear _ _) fun _ => hclear _ _

end Quiet

/-- The four accesses that issue a command. -/
def Controller.issue (ctl : Controller σ) (code arg : UInt32) (s : σ) : σ :=
  let irq := ctl.read .interrupt s
  let s := (ctl.write .interrupt irq.1 irq.2).2
  let s := (ctl.write .arg1 arg s).2
  (ctl.write .cmdtm code s).2

/-- What a command leaves: with `sd_err` set it may not have been issued. -/
def Sent (g : SdGlobals) (P Q : σ → Prop) (sd : Sd σ) : Prop :=
  ∃ e, At { g with err := e } (fun s => e ≠ sdOk ∧ P s ∨ Q s) sd

theorem cmdResult_contract (hQ : Quiet ctl Q) (code arg r : UInt32) :
    Contract (At g Q) (cmdResult ctl code arg r) (fun _ => Sent g P Q) := by
  have hkept : ∀ sd : Sd σ, At g Q sd → Sent g P Q sd :=
    fun sd hsd => ⟨g.err, hsd.1, Or.inr hsd.2⟩
  have hpure : ∀ x : UInt32, Contract (At g Q) (pure x) (fun _ => Sent g P Q) :=
    fun _ => Contract.pure hkept
  refine Contract.ite (fun _ => hpure _) fun _ => Contract.ite (fun _ => hpure _) fun _ =>
    Contract.ite (fun _ => hpure _) fun _ => Contract.ite (fun _ => hpure _) fun _ =>
      Contract.ite (fun _ => ?_) fun _ => Contract.ite (fun _ => ?_) fun _ => hpure _
  · refine Contract.bind (hQ.readReg (by decide)) fun _ => ?_
    refine Contract.bind (hQ.readReg (by decide)) fun _ => ?_
    refine Contract.bind (hQ.readReg (by decide)) fun _ => hpure _
  · refine Contract.bind setErr_contract fun _ => Contract.pure fun sd hsd => ?_
    exact ⟨_, hsd.1, Or.inr hsd.2⟩

theorem sendCmd_contract {code arg : UInt32} (hP : Quiet ctl P) (hQ : Quiet ctl Q)
    (hissue : ∀ s, P s → Q (ctl.issue code arg s)) :
    Contract (At g P) (sendCmd ctl code arg) (fun _ => Sent g P Q) := by
  refine Contract.bind (hP.sdStatus _) fun busy => Contract.ite (fun _ => ?_) fun _ => ?_
  · refine Contract.bind setErr_contract fun _ => Contract.pure fun sd hsd => ?_
    exact ⟨sdTimeout, hsd.1, Or.inl ⟨by decide, hsd.2⟩⟩
  have hfour : Contract (At g P) (do
      let irq ← ctl.readReg .interrupt
      ctl.writeReg .interrupt irq
      ctl.writeReg .arg1 arg
      ctl.writeReg .cmdtm code : StateM (Sd σ) Unit) (fun _ => At g Q) :=
    fun sd hsd => ⟨hsd.1, hissue sd.dev hsd.2⟩
  have hrest : Contract (At g Q) (do
      cmdDelay ctl code
      let r ← sdInt ctl intCmdDone
      if r ≠ 0 then do
        setErr r
        pure 0
      else do
        let r ← ctl.readReg .resp0
        cmdResult ctl code arg r : StateM (Sd σ) UInt32) (fun _ => Sent g P Q) := by
    refine Contract.bind (m := fun _ => At g Q) ?_ fun _ => ?_
    · exact Contract.ite (fun _ => hQ.delayMsec _) fun _ =>
        Contract.ite (fun _ => hQ.delayMsec _) fun _ => Contract.pure fun _ hs => hs
    refine Contract.bind (hQ.sdInt _) fun r => Contract.ite (fun _ => ?_) fun _ => ?_
    · refine Contract.bind setErr_contract fun _ => Contract.pure fun sd hsd => ?_
      exact ⟨r, hsd.1, Or.inr hsd.2⟩
    · exact Contract.bind (hQ.readReg (by decide)) fun r => cmdResult_contract hQ _ _ _
  exact fun sd hsd => hrest _ (hfour sd hsd)

/-- A command that needs no `CMD_APP_CMD` in front. -/
theorem sdCmd_contract {code arg : UInt32} (hcode : code &&& cmdNeedApp = 0) (hP : Quiet ctl P)
    (hQ : Quiet ctl Q) (hissue : ∀ s, P s → Q (ctl.issue code arg s)) :
    Contract (At g P) (sdCmd ctl code arg) (fun _ => Sent g P Q) := by
  refine Contract.bind setErr_contract fun _ => ?_
  rw [if_pos hcode]
  exact sendCmd_contract hP hQ hissue

end NaiveGfs
