import NaiveGfs.Channels.TwoParty
import NaiveGfs.Dfs.ConfigSector
import NaiveGfs.Dfs.NameFraming

/-!
# The dfs boot protocol

`dfs_boot` on the mac and `entry` on the pi as two programs joined by the serial line. Every
read of a byte, every write and every exit of a loop is a step of its own. `put32` writes
its four bytes at once, `uart_put8` a byte at a time. The mac reads aligned words until one
is `DUMMY`; the pi shifts single bytes into a window until it shows the word waited for.

The operands of the `|` in `get32` are taken in the order of the text. `select` is modelled
without its timeout.
-/

namespace NaiveGfs

open LittleEndian TwoParty

variable {κ : Type}

/-! ## The mac -/

/-- Where `dfs_boot` is: `put` for a `put32`, `ack` for a loop that waits for `DUMMY`. -/
inductive MacPc
  | putFsIdStart
  | ackFsIdStart
  | putName (i : ℕ)
  | ackName (i : ℕ)
  | putConfigInit
  | selectReady
  | ackConfigInit
  | putRequestId
  | ackRequestId
  | putId
  | readAnswer
  | readClaimed
  | returned
deriving DecidableEq

/-- The variables of `dfs_boot`; `got` are the bytes that the current `get32` has read. -/
structure Mac where
  pc : MacPc
  got : List UInt8
  op : UInt32
  assignableId : UInt32

/-- `get32`, and what is done with the word. -/
def get32 (m : Mac) (next : UInt32 → Mac → Mac) : Act Mac UInt8 UInt8 :=
  .recv fun b =>
    match m.got with
    | [b0, b1, b2] =>
      next (orBytes b0 b1 b2 b) { m with got := [], op := orBytes b0 b1 b2 b }
    | got => { m with got := got ++ [b] }

/-- `while((op = get32(p->fd)) != DUMMY)`. -/
def ackLoop (m : Mac) (pc : MacPc) : Act Mac UInt8 UInt8 :=
  get32 m fun op m => if op = dummy then { m with pc := pc } else m

/-- `put32`. -/
def put32 (m : Mac) (w : UInt32) (pc : MacPc) : Act Mac UInt8 UInt8 :=
  .send (bytes32 w) { m with pc := pc }

/-- Where the loop of `send_string` is in front of word `i`. -/
def sendStringPc (words : List UInt32) (i : ℕ) : MacPc :=
  if i < words.length then .putName i else .putConfigInit

/-- The loop that waits for `DUMMY` or `DUMMY2`, and the increment behind it. -/
def takeAnswer (op : UInt32) (m : Mac) : Mac :=
  if op = dummy ∨ op = dummy2 then
    { m with
      pc := .readClaimed
      assignableId := if op = dummy2 then m.assignableId + 1 else m.assignableId }
  else m

/-- `dfs_boot` for the words of a name. -/
def macAct (words : List UInt32) (m : Mac) : Act Mac UInt8 UInt8 :=
  match m.pc with
  | .putFsIdStart => put32 m fsIdStart .ackFsIdStart
  | .ackFsIdStart => ackLoop m (sendStringPc words 0)
  | .putName i => put32 m (words.getD i 0) (.ackName i)
  | .ackName i => ackLoop m (sendStringPc words (i + 1))
  | .putConfigInit => put32 m configInit .selectReady
  | .selectReady => .await { m with pc := .ackConfigInit }
  | .ackConfigInit => ackLoop m .putRequestId
  | .putRequestId => put32 m requestId .ackRequestId
  | .ackRequestId => ackLoop m .putId
  | .putId => put32 m (0xffffff00 ||| m.assignableId) .readAnswer
  | .readAnswer => get32 m takeAnswer
  | .readClaimed => get32 m fun _ m => { m with pc := .returned }
  | .returned => .halt

/-- The id that `dfs_boot` prints when it returns. -/
def Mac.claimedId (m : Mac) : UInt32 := m.op &&& 0xff

/-- `dfs_boot` before its first statement. -/
def Mac.start (assignableId : UInt32) : Mac := ⟨.putFsIdStart, [], 0, assignableId⟩

/-! ## The pi -/

/-- Where `entry` is. `getString i` and `ackWord i` are round `i` of `get_string`. -/
inductive PiPc
  | waitFsIdStart
  | ackFsIdStart
  | getString (i : ℕ)
  | ackWord (i : ℕ)
  | waitConfigInit
  | setup
  | ackConfigInit
  | waitRequestId
  | ackRequestId
  | getId
  | assign
  | putAnswer
  | putClaimed
  | putDone
  | returned
  | halted
deriving DecidableEq

/-- The variables of `entry`; `out` are the bytes that the calls of `uart_put8` at the
current place have still to send, `word` and `count` are `op` and `j` of `get_string`. -/
structure Pi (κ : Type) where
  pc : PiPc
  out : List UInt8
  op : UInt32
  word : UInt32
  count : ℕ
  dfsName : Fin 30 → UInt8
  vol : Volume
  cfgClusterNo : UInt32
  id : ℤ
  dev : κ

/-- What `entry` runs on: the driver, `fat32_init` and `dfs_init_config` (the mounted volume
and the cluster of the config file), and the uninitialised sector buffer of `id_for_dfs`. -/
structure PiEnv (κ : Type) where
  drv : Driver κ
  setup : κ → Volume × UInt32 × κ
  stack : Sector

/-- `while(op != cmd) op = op >> 8 | (uint32_t)uart_get8() << 24`. -/
def waitFor (p : Pi κ) (cmd : UInt32) (next : Pi κ) : Act (Pi κ) UInt8 UInt8 :=
  if p.op = cmd then .tau next else .recv fun b => { p with op := shiftIn p.op b }

/-- The word that answers the id, after `id_for_dfs` has returned `id`. -/
def answerBytes (id : ℤ) : List UInt8 := if id = -1 then uartPutDummy2 else uartPutDummy

/-- The byte sent as the id of the pi. -/
def claimedByte (op : UInt32) (id : ℤ) : UInt8 :=
  if id = -1 then op.toUInt8 else UInt8.ofInt id

/-- The characters of `DONE!!!\n`. -/
def doneBytes : List UInt8 := [0x44, 0x4f, 0x4e, 0x45, 0x21, 0x21, 0x21, 0x0a]

/-- `entry`. -/
def piAct (env : PiEnv κ) (p : Pi κ) : Act (Pi κ) UInt8 UInt8 :=
  match p.out with
  | b :: out => .send [b] { p with out := out }
  | [] =>
    match p.pc with
    | .waitFsIdStart => waitFor p fsIdStart { p with pc := .ackFsIdStart, out := uartPutDummy }
    | .ackFsIdStart => .tau { p with pc := .getString 0, word := 0, count := 0 }
    | .getString i =>
      if p.count < 4 then
        .recv fun b => { p with word := shiftIn p.word b, count := p.count + 1 }
      else
        .tau { p with
          pc := .ackWord i
          dfsName := putWord p.dfsName i p.word
          out := uartPutDummy }
    | .ackWord i =>
      if p.word = 0xffffffff then .tau { p with pc := .waitConfigInit }
      else if i + 1 < maxDfsNameLen / 4 then .tau { p with pc := .getString (i + 1), count := 0 }
      else .tau { p with pc := .waitConfigInit }
    | .waitConfigInit => waitFor p configInit { p with pc := .setup }
    | .setup =>
      let (vol, cfgClusterNo, dev) := env.setup p.dev
      .tau { p with
        pc := .ackConfigInit
        vol := vol
        cfgClusterNo := cfgClusterNo
        dev := dev
        out := uartPutDummy }
    | .ackConfigInit => .tau { p with pc := .waitRequestId, op := 0 }
    | .waitRequestId => waitFor p requestId { p with pc := .ackRequestId, out := uartPutDummy }
    | .ackRequestId => .tau { p with pc := .getId, count := 0 }
    | .getId =>
      if p.count < 4 then .recv fun b => { p with op := shiftIn p.op b, count := p.count + 1 }
      else .tau { p with pc := .assign, op := p.op &&& 0xff }
    | .assign =>
      match idForDfs env.drv p.vol p.cfgClusterNo p.dfsName p.op.toNat env.stack p.dev with
      | none => .tau { p with pc := .halted }
      | some (id, dev) =>
        .tau { p with pc := .putAnswer, id := id, dev := dev, out := answerBytes id }
    | .putAnswer =>
      .tau { p with pc := .putClaimed, out := List.replicate 4 (claimedByte p.op p.id) }
    | .putClaimed => .tau { p with pc := .putDone, out := doneBytes }
    | .putDone => .tau { p with pc := .returned }
    | .returned => .halt
    | .halted => .halt

/-- `entry` before its first statement. The name buffer is uninitialised. -/
def Pi.start (dfsName : Fin 30 → UInt8) (vol : Volume) (dev : κ) : Pi κ :=
  { pc := .waitFsIdStart, out := [], op := 0, word := 0, count := 0, dfsName := dfsName,
    vol := vol, cfgClusterNo := 0, id := 0, dev := dev }

end NaiveGfs
