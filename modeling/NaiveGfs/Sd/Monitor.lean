import Mathlib.Data.List.Range
import NaiveGfs.Sd.Block

/-!
# What a transfer asks of the controller

The accesses of a call are written down by a monitor in front of the controller. Whatever
the controller answers, they are a beginning of the one sequence that the arguments and the
supported features determine, and the whole of it when the call reports success.
-/

namespace NaiveGfs

open Programs

variable {σ β : Type}

/-- An access that the controller or the card acts on: a command with its argument, a word
of data, or a register that is set. -/
inductive Access
  | command (code arg : UInt32)
  | dataIn
  | dataOut (w : UInt32)
  | set (r : Reg) (v : UInt32)
deriving DecidableEq

/-- A controller, the argument it has been given and what has been asked of it. -/
structure Monitor (σ : Type) where
  dev : σ
  arg : UInt32
  accesses : List Access

/-- What a write of a register adds. The interrupts that are cleared are not written down. -/
def Monitor.written (m : Monitor σ) (r : Reg) (v : UInt32) : List Access :=
  match r with
  | .interrupt => m.accesses
  | .arg1 => m.accesses
  | .cmdtm => m.accesses ++ [.command v m.arg]
  | .data => m.accesses ++ [.dataOut v]
  | r => m.accesses ++ [.set r v]

/-- The controller with a monitor in front. -/
def Controller.monitored (ctl : Controller σ) : Controller (Monitor σ) where
  read r m :=
    let answer := ctl.read r m.dev
    (answer.1, { m with
      dev := answer.2
      accesses := if r = .data then m.accesses ++ [.dataIn] else m.accesses })
  write r v m := ((), {
    dev := (ctl.write r v m.dev).2
    arg := if r = .arg1 then v else m.arg
    accesses := m.written r v })
  waitMsec n m := ((), { m with dev := (ctl.waitMsec n m.dev).2 })
  waitCycles n m := ((), { m with dev := (ctl.waitCycles n m.dev).2 })

/-! ## The plan of a transfer -/

/-- The accesses in front of the first block. -/
def startPlan (scr0 single multi lba num : UInt32) : List Access :=
  if scr0 &&& scrSuppCcs = 0 then [.set .blksizecnt ((1 : UInt32) <<< 16 ||| 512)]
  else
    (if num > 1 ∧ scr0 &&& scrSuppSetBlkcnt ≠ 0 then [.command cmdSetBlockcnt num] else []) ++
      [.set .blksizecnt (num <<< 16 ||| 512), .command (if num = 1 then single else multi) lba]

/-- The command of block `c`, for a byte-addressed card. -/
def addressPlan (scr0 single lba : UInt32) (c : ℕ) : List Access :=
  if scr0 &&& scrSuppCcs = 0 then [.command single ((lba + UInt32.ofNat c) * 512)] else []

/-- The accesses of block `c`. -/
def blockPlan (scr0 single lba : UInt32) (words : ℕ → List Access) (c : ℕ) : List Access :=
  addressPlan scr0 single lba c ++ words c

/-- The accesses behind the last block. -/
def stopPlan (scr0 num : UInt32) : List Access :=
  if num > 1 ∧ scr0 &&& scrSuppSetBlkcnt = 0 ∧ scr0 &&& scrSuppCcs ≠ 0 then
    [.command cmdStopTrans 0]
  else []

/-- The accesses up to block `c`. -/
def planUpTo (scr0 single multi : UInt32) (words : ℕ → List Access) (lba num : UInt32) (c : ℕ) :
    List Access :=
  startPlan scr0 single multi lba num ++
    (List.range c).flatMap (blockPlan scr0 single lba words)

/-- All accesses of a transfer. -/
def transferPlan (scr0 single multi : UInt32) (words : ℕ → List Access) (lba num : UInt32) :
    List Access :=
  planUpTo scr0 single multi words lba num num.toNat ++ stopPlan scr0 num

/-- The plan of `sd_readblock`. -/
def readPlan (scr0 lba num : UInt32) : List Access :=
  transferPlan scr0 cmdReadSingle cmdReadMulti (fun _ => List.replicate 128 .dataIn) lba
    (if num < 1 then 1 else num)

/-- The plan of `sd_writeblock`. -/
def writePlan (scr0 : UInt32) (buffer : ℕ → UInt32) (lba num : UInt32) : List Access :=
  transferPlan scr0 cmdWriteSingle cmdWriteMulti
    (fun c => (List.range 128).map fun d => .dataOut (buffer (128 * c + d))) lba
    (if num < 1 then 1 else num)

section Plan

variable {scr0 single multi lba num : UInt32} {words : ℕ → List Access} {c n : ℕ}

theorem planUpTo_zero :
    planUpTo scr0 single multi words lba num 0 = startPlan scr0 single multi lba num := by
  rw [planUpTo, List.range_zero, List.flatMap_nil, List.append_nil]

theorem planUpTo_succ :
    planUpTo scr0 single multi words lba num (c + 1) =
      planUpTo scr0 single multi words lba num c ++ addressPlan scr0 single lba c ++ words c := by
  rw [planUpTo, planUpTo, List.range_succ, List.flatMap_append, List.flatMap_singleton, blockPlan,
    ← List.append_assoc, ← List.append_assoc]

theorem planUpTo_mono (h : c ≤ n) : planUpTo scr0 single multi words lba num c <+:
    planUpTo scr0 single multi words lba num n := by
  induction n, h using Nat.le_induction with
  | base => exact List.prefix_refl _
  | succ n _ ih =>
    rw [planUpTo_succ, List.append_assoc]
    exact ih.trans (List.prefix_append _ _)

/-- What has been asked up to a block is a beginning of the plan. -/
theorem planUpTo_isPrefix (h : c ≤ num.toNat) : planUpTo scr0 single multi words lba num c <+:
    transferPlan scr0 single multi words lba num :=
  (planUpTo_mono h).trans (List.prefix_append _ _)

theorem addressPlan_isPrefix (h : c < num.toNat) :
    planUpTo scr0 single multi words lba num c ++ addressPlan scr0 single lba c <+:
      transferPlan scr0 single multi words lba num := by
  have hnext : planUpTo scr0 single multi words lba num (c + 1) <+:
      transferPlan scr0 single multi words lba num := planUpTo_isPrefix h
  rw [planUpTo_succ] at hnext
  exact (List.prefix_append _ _).trans hnext

end Plan

/-! ## The monitor and the functions of the driver -/

variable {ctl : Controller σ} {g : SdGlobals}

/-- What has been asked of the controller. -/
def Asks (l : List Access) (m : Monitor σ) : Prop := m.accesses = l

/-- What has been asked does not change by looking and waiting. -/
theorem quiet_accesses (p : List Access → Prop) :
    Quiet ctl.monitored (fun m => p m.accesses) where
  read r hr m hm := by
    simpa only [Controller.monitored, if_neg hr] using hm
  clear v m hm := hm
  waitMsec n m hm := hm

theorem quiet_asks (l : List Access) : Quiet ctl.monitored (Asks l) := quiet_accesses (· = l)

theorem quiet_asked (l : List Access) (c : Prop) :
    Quiet ctl.monitored (fun m => Asks l m ∧ c) := quiet_accesses fun l' => l' = l ∧ c

theorem issue_accesses (code arg : UInt32) (m : Monitor σ) :
    (ctl.monitored.issue code arg m).accesses = m.accesses ++ [.command code arg] := rfl

/-- What has been asked since `l` is a beginning of the plan. -/
def Began (l plan : List Access) (m : Monitor σ) : Prop := ∃ d, d <+: plan ∧ m.accesses = l ++ d

theorem Began.of_asks {l d plan : List Access} {m : Monitor σ} (h : Asks (l ++ d) m)
    (hd : d <+: plan) : Began l plan m :=
  ⟨d, hd, h⟩

theorem Began.mono {l plan plan' : List Access} {m : Monitor σ} (h : Began l plan m)
    (hle : plan <+: plan') : Began l plan' m :=
  h.imp fun _ hd => ⟨hd.1.trans hle, hd.2⟩

/-- A command that belongs to the plan behind what has been asked. -/
theorem command_asks (ctl : Controller σ) (g : SdGlobals) {code : UInt32}
    (hcode : code &&& cmdNeedApp = 0) (arg : UInt32) (l : List Access) {d plan : List Access}
    (hd : d ++ [.command code arg] <+: plan) :
    Contract (Amid g (Asks (l ++ d))) (command ctl.monitored code arg)
      (fun goes => GoesOn g (Asks (l ++ (d ++ [.command code arg]))) (Began l plan)
        (goes = true)) := by
  have hissue : ∀ m : Monitor σ, Asks (l ++ d) m →
      Asks (l ++ (d ++ [.command code arg])) (ctl.monitored.issue code arg m) := by
    intro m hm
    rw [Asks, issue_accesses, show m.accesses = l ++ d from hm, List.append_assoc]
  refine (command_contract hcode (quiet_asks _) (quiet_asks _) hissue).strengthen_post
    fun goes sd h => h.mono (fun _ hm => hm) fun m hm => ?_
  exact hm.elim (fun hm => Began.of_asks hm ((List.prefix_append _ _).trans hd))
    fun hm => Began.of_asks hm hd

section Transfer

variable {dir : Direction (Monitor σ) β} {lba num : UInt32} {l : List Access}

theorem startTransfer_asks (hsingle : dir.single &&& cmdNeedApp = 0)
    (hmulti : dir.multi &&& cmdNeedApp = 0) :
    Contract (Amid g (Asks l)) (startTransfer ctl.monitored dir lba num)
      (fun goes => GoesOn g (Asks (l ++ startPlan g.scr0 dir.single dir.multi lba num))
        (Began l (startPlan g.scr0 dir.single dir.multi lba num)) (goes = true)) := by
  refine withGlobals_contract fun sd hscr => ?_
  rw [hscr, startPlan]
  have hset : ∀ v (l : List Access), Contract (Amid g (Asks l))
      (ctl.monitored.writeReg .blksizecnt v)
      (fun _ => Amid g (Asks (l ++ [.set .blksizecnt v]))) := by
    intro v l sd ⟨e, hglobals, hasks⟩
    exact ⟨e, hglobals, congrArg (· ++ [Access.set .blksizecnt v]) hasks⟩
  refine Contract.ite (fun hbyte => ?_) fun hccs => ?_
  · rw [if_pos hbyte]
    exact Contract.bind (hset _ l) fun _ => Contract.pure fun _ hs => ⟨fun _ => hs, by simp⟩
  rw [if_neg hccs]
  generalize hpre : (if num > 1 ∧ g.scr0 &&& scrSuppSetBlkcnt ≠ 0 then
    [Access.command cmdSetBlockcnt num] else []) = pre
  generalize hcode : (if num = 1 then dir.single else dir.multi) = code
  have happ : code &&& cmdNeedApp = 0 := by
    rw [← hcode]
    split
    · exact hsingle
    · exact hmulti
  refine Contract.bind (m := fun goes : Bool => GoesOn g (Asks (l ++ pre))
    (Began l (pre ++ [.set .blksizecnt (num <<< 16 ||| 512), .command code lba]))
    (goes = true)) ?_ fun announced => Contract.ite (fun hgo => ?_) fun hstop => ?_
  · refine Contract.ite (fun hcount => ?_) fun hcount => ?_
    · rw [if_pos hcount] at hpre
      have hplain : cmdSetBlockcnt &&& cmdNeedApp = 0 := by decide
      have hcommand := command_asks ctl g hplain num l (d := []) (List.prefix_append _
        [Access.set .blksizecnt (num <<< 16 ||| 512), .command code lba])
      simpa only [hpre, List.nil_append, List.append_nil] using hcommand
    · rw [if_neg hcount] at hpre
      subst hpre
      refine Contract.pure fun _ hs => ⟨fun _ => ?_, by simp⟩
      rwa [List.append_nil]
  · refine Contract.bind ((hset _ _).weaken_pre fun _ hs => hs.1 hgo) fun _ => ?_
    have hd : pre ++ [Access.set .blksizecnt (num <<< 16 ||| 512)] ++ [.command code lba] =
        pre ++ [.set .blksizecnt (num <<< 16 ||| 512), .command code lba] := by
      rw [List.append_assoc, List.singleton_append]
    have hcommand := command_asks ctl g happ lba l ⟨[], by rw [List.append_nil, hd]⟩
    rwa [hd, ← List.append_assoc] at hcommand
  · exact Contract.pure fun _ hs => ⟨by simp, fun _ => hs.2 hstop⟩

/-- The loop over the words of a block asks for `words` and keeps `frame`. -/
def AsksFor (g : SdGlobals) (body : β → StateM (Sd (Monitor σ)) β) (words : List Access)
    (frame frame' : β → Prop) : Prop :=
  ∀ l b, frame b →
    Contract (Amid g (Asks l)) (body b) (fun b sd => Amid g (Asks (l ++ words)) sd ∧ frame' b)

/-- The phases of a monitored transfer. -/
def askingStates (dir : Direction (Monitor σ) β) (g : SdGlobals) (lba num : UInt32)
    (words : ℕ → List Access) (frame : ℕ → β → Prop) (l : List Access) :
    PhaseStates (Monitor σ) β :=
  let upTo := planUpTo g.scr0 dir.single dir.multi words lba num
  let plan := transferPlan g.scr0 dir.single dir.multi words lba num
  let address := addressPlan g.scr0 dir.single lba
  { idle := Asks l
    block := fun c b m => Asks (l ++ upTo c) m ∧ frame c b
    armed := fun c b m => Asks (l ++ (upTo c ++ address c)) m ∧ frame c b
    ready := fun c b m => Asks (l ++ (upTo c ++ address c)) m ∧ frame c b
    done := fun b m => Asks (l ++ upTo num.toNat) m ∧ frame num.toNat b
    finished := fun b m => Asks (l ++ plan) m ∧ frame num.toNat b
    failed := fun b m => Began l plan m ∧ ∃ c ≤ num.toNat, frame c b }

theorem askingPhases (hsingle : dir.single &&& cmdNeedApp = 0)
    (hmulti : dir.multi &&& cmdNeedApp = 0) {words : ℕ → List Access} {frame : ℕ → β → Prop}
    {b₀ : β} (hframe : frame 0 b₀)
    (hblock : ∀ c, AsksFor g (dir.block c) (words c) (frame c) (frame (c + 1)))
    (hfinish : ∀ l, Contract (Amid g (Asks l)) dir.finish (fun _ => Amid g (Asks l))) :
    Phases ctl.monitored dir g lba num (Asks l) b₀ (askingStates dir g lba num words frame l) :=
  let upTo := planUpTo g.scr0 dir.single dir.multi words lba num
  let plan := transferPlan g.scr0 dir.single dir.multi words lba num
  let address := addressPlan g.scr0 dir.single lba
  { waits := by
      refine amid_contract fun e => ((quiet_asks l).sdStatus _).strengthen_post fun r sd hat => ?_
      refine GoesOn.of_amid ⟨e, hat⟩ (fun _ hm => hm) fun m hm => ⟨?_, 0, Nat.zero_le _, hframe⟩
      exact Began.of_asks (d := []) (by rwa [List.append_nil]) List.nil_prefix
    starts := by
      refine (startTransfer_asks hsingle hmulti).strengthen_post fun goes sd h => ?_
      refine h.mono (fun m hm => ⟨?_, hframe⟩) fun m hm => ⟨?_, 0, Nat.zero_le _, hframe⟩
      · rwa [planUpTo_zero]
      · exact hm.mono (planUpTo_zero ▸ planUpTo_isPrefix (Nat.zero_le _))
    arms := by
      intro c hc b
      refine (startBlock_contract hsingle (quiet_asked _ _) (quiet_asked _ _) ?_ ?_).strengthen_post
        fun goes sd h => h.mono (fun _ hm => hm) fun m hm => ?_
      · rintro hbyte m ⟨hm, hb⟩
        refine ⟨?_, hb⟩
        rw [Asks, issue_accesses, show m.accesses = l ++ upTo c from hm, List.append_assoc]
        simp only [addressPlan, if_pos hbyte, upTo]
      · rintro hccs m ⟨hm, hb⟩
        refine ⟨?_, hb⟩
        simpa only [address, addressPlan, if_neg hccs, List.append_nil] using hm
      · rcases hm with ⟨hm, hb⟩ | ⟨hm, hb⟩
        · exact ⟨Began.of_asks hm (planUpTo_isPrefix hc.le), c, hc.le, hb⟩
        · exact ⟨Began.of_asks hm (addressPlan_isPrefix hc), c, hc.le, hb⟩
    awaits := by
      intro c hc b
      refine amid_contract fun e => ((quiet_asked _ _).sdInt _).strengthen_post fun r sd hat => ?_
      refine GoesOn.of_amid ⟨e, hat⟩ (fun _ hm => hm) fun m hm => ?_
      exact ⟨Began.of_asks hm.1 (addressPlan_isPrefix hc), c, hc.le, hm.2⟩
    moves := by
      rintro c hc b sd ⟨e, hglobals, hasks, hb⟩
      obtain ⟨hamid, hnext⟩ := hblock c _ b hb sd ⟨e, hglobals, hasks⟩
      refine hamid.mono fun m hm => ⟨?_, hnext⟩
      rw [Asks, show m.accesses = _ from hm, List.append_assoc, ← planUpTo_succ]
    finishes := by
      rintro b sd ⟨e, hglobals, hasks, hb⟩
      have hamid := hfinish _ sd ⟨e, hglobals, hasks⟩
      refine GoesOn.of_amid hamid (fun m hm => ⟨hm, hb⟩) fun m hm => ?_
      exact ⟨Began.of_asks hm (planUpTo_isPrefix le_rfl), num.toNat, le_rfl, hb⟩
    stops := by
      intro b
      refine (stopTransfer_contract (quiet_asked _ _) (quiet_asked (l ++ plan) (frame num.toNat b))
        ?_ ?_).strengthen_post fun r sd h => h.imp_left fun h => ⟨h.1, h.2.mono fun m hm => ?_⟩
      · rintro hmulti m ⟨hm, hb⟩
        refine ⟨?_, hb⟩
        rw [Asks, issue_accesses, show m.accesses = l ++ upTo num.toNat from hm, List.append_assoc]
        simp only [plan, transferPlan, stopPlan, if_pos hmulti, upTo]
      · rintro hsingle m ⟨hm, hb⟩
        refine ⟨?_, hb⟩
        simpa only [plan, transferPlan, stopPlan, if_neg hsingle, List.append_nil] using hm
      · rcases hm with ⟨hm, hb⟩ | ⟨hm, hb⟩
        · exact ⟨Began.of_asks hm (planUpTo_isPrefix le_rfl), num.toNat, le_rfl, hb⟩
        · exact ⟨Began.of_asks hm (List.prefix_refl _), num.toNat, le_rfl, hb⟩ }

end Transfer

/-! ## The two directions -/

theorem readBlock_asksFor (buffer : ℕ → UInt32) (c : ℕ) :
    AsksFor g ((readDirection ctl.monitored).block c) (List.replicate 128 .dataIn)
      (fun b => ∀ k, 128 * c ≤ k → b k = buffer k)
      (fun b => ∀ k, 128 * (c + 1) ≤ k → b k = buffer k) := by
  intro l b hb
  have hloop := Contract.countUp (n := 128) (b := b)
    (f := fun d buf => (do
      let w ← ctl.monitored.readReg .data
      pure (Function.update buf (128 * c + d) w) : StateM (Sd (Monitor σ)) (ℕ → UInt32)))
    (p := fun d b sd => Amid g (Asks (l ++ List.replicate d .dataIn)) sd ∧
      ∀ k, 128 * c + d ≤ k → b k = buffer k) ?_
  · refine hloop.consequence (fun sd hs => ⟨?_, hb⟩) fun b sd hs => ⟨hs.1, fun k hk => ?_⟩
    · simpa only [List.replicate_zero, List.append_nil] using hs
    · exact hs.2 k (by omega)
  · rintro d - b sd ⟨⟨e, hglobals, hasks⟩, hb⟩
    refine ⟨⟨e, hglobals, ?_⟩, fun k hk => ?_⟩
    · rw [List.replicate_succ', ← List.append_assoc]
      exact congrArg (· ++ [Access.dataIn]) hasks
    · exact (Function.update_of_ne (by omega) _ _).trans (hb k (by omega))

theorem writeBlock_asksFor (buffer : ℕ → UInt32) (c : ℕ) :
    AsksFor g ((writeDirection ctl.monitored buffer).block c)
      ((List.range 128).map fun d => .dataOut (buffer (128 * c + d)))
      (fun _ => True) (fun _ => True) := by
  intro l b _
  have hloop := Contract.countUp (n := 128) (b := b)
    (f := fun d (_ : Unit) => ctl.monitored.writeReg .data (buffer (128 * c + d)))
    (p := fun d _ sd => Amid g (Asks (l ++
      (List.range d).map fun d => Access.dataOut (buffer (128 * c + d)))) sd) ?_
  · refine hloop.consequence (fun sd hs => ?_) fun b sd hs => ⟨hs, trivial⟩
    simpa only [List.range_zero, List.map_nil, List.append_nil] using hs
  · rintro d - b sd ⟨e, hglobals, hasks⟩
    refine ⟨e, hglobals, ?_⟩
    rw [List.range_succ, List.map_append, ← List.append_assoc]
    exact congrArg (· ++ [Access.dataOut (buffer (128 * c + d))]) hasks

/-- A monitored `sd_readblock`. -/
theorem readAsking (ctl : Controller σ) (g : SdGlobals) (lba num : UInt32) (buffer : ℕ → UInt32)
    (l : List Access) :
    Phases ctl.monitored (readDirection ctl.monitored) g lba num (Asks l) buffer
      (askingStates (readDirection ctl.monitored) g lba num
        (fun _ => List.replicate 128 .dataIn) (fun c b => ∀ k, 128 * c ≤ k → b k = buffer k) l) :=
  askingPhases (show cmdReadSingle &&& cmdNeedApp = 0 by decide)
    (show cmdReadMulti &&& cmdNeedApp = 0 by decide) (fun _ _ => rfl) (readBlock_asksFor buffer)
    fun _ => Contract.pure fun _ hs => hs

/-- A monitored `sd_writeblock`. -/
theorem writeAsking (ctl : Controller σ) (g : SdGlobals) (lba num : UInt32) (buffer : ℕ → UInt32)
    (l : List Access) :
    Phases ctl.monitored (writeDirection ctl.monitored buffer) g lba num (Asks l) ()
      (askingStates (writeDirection ctl.monitored buffer) g lba num
        (fun c => (List.range 128).map fun d => .dataOut (buffer (128 * c + d)))
        (fun _ _ => True) l) :=
  askingPhases (show cmdWriteSingle &&& cmdNeedApp = 0 by decide)
    (show cmdWriteMulti &&& cmdNeedApp = 0 by decide) trivial (writeBlock_asksFor buffer)
    fun l => amid_contract fun e =>
      ((quiet_asks l).sdInt _).strengthen_post fun _ _ hat => ⟨e, hat⟩

/-! ## The monitor changes nothing -/

/-- The driver without its monitor. -/
def Sd.unmonitored (sd : Sd (Monitor σ)) : Sd σ := { sd.toSdGlobals with dev := sd.dev.dev }

/-- The state of the driver is that of the monitored one. -/
def Unmonitored (sd : Sd (Monitor σ)) (sd' : Sd σ) : Prop := sd.unmonitored = sd'

theorem readReg_alike (r : Reg) : Alike Unmonitored (ctl.monitored.readReg r) (ctl.readReg r) := by
  rintro sd _ rfl
  exact ⟨rfl, rfl⟩

theorem writeReg_alike (r : Reg) (v : UInt32) :
    Alike Unmonitored (ctl.monitored.writeReg r v) (ctl.writeReg r v) := by
  rintro sd _ rfl
  exact ⟨rfl, rfl⟩

theorem delayMsec_alike (n : UInt32) :
    Alike Unmonitored (ctl.monitored.delayMsec n) (ctl.delayMsec n) := by
  rintro sd _ rfl
  exact ⟨rfl, rfl⟩

theorem setErr_alike (e : UInt32) :
    Alike Unmonitored (setErr e : StateM (Sd (Monitor σ)) Unit) (setErr e) := by
  rintro sd _ rfl
  exact ⟨rfl, rfl⟩

theorem sdStatus_alike (mask : UInt32) :
    Alike Unmonitored (sdStatus ctl.monitored mask) (sdStatus ctl mask) := by
  refine Alike.bind (Alike.poll ?_ (delayMsec_alike _) _) fun cnt => Alike.ite (Alike.pure _) ?_
  · refine Alike.bind (readReg_alike _) fun status => Alike.ite (Alike.pure _) ?_
    exact Alike.bind (readReg_alike _) fun irq => Alike.pure _
  · exact Alike.bind (readReg_alike _) fun irq => Alike.pure _

theorem sdInt_alike (mask : UInt32) :
    Alike Unmonitored (sdInt ctl.monitored mask) (sdInt ctl mask) := by
  have hclear : ∀ v res, Alike Unmonitored
      (do ctl.monitored.writeReg .interrupt v; pure res : StateM (Sd (Monitor σ)) UInt32)
      (do ctl.writeReg .interrupt v; pure res) :=
    fun v res => Alike.bind (writeReg_alike _ _) fun _ => Alike.pure _
  refine Alike.bind (Alike.poll ?_ (delayMsec_alike _) _) fun cnt => ?_
  · exact Alike.bind (readReg_alike _) fun irq => Alike.pure _
  · exact Alike.bind (readReg_alike _) fun r =>
      Alike.ite (hclear _ _) (Alike.ite (hclear _ _) (hclear _ _))

theorem cmdResult_alike (code arg r : UInt32) :
    Alike Unmonitored (cmdResult ctl.monitored code arg r) (cmdResult ctl code arg r) := by
  refine Alike.ite (Alike.pure _) (Alike.ite (Alike.pure _) (Alike.ite (Alike.pure _)
    (Alike.ite (Alike.pure _) (Alike.ite ?_ (Alike.ite ?_ (Alike.pure _))))))
  · exact Alike.bind (readReg_alike _) fun _ => Alike.bind (readReg_alike _) fun _ =>
      Alike.bind (readReg_alike _) fun _ => Alike.pure _
  · exact Alike.bind (setErr_alike _) fun _ => Alike.pure _

theorem sendCmd_alike (code arg : UInt32) :
    Alike Unmonitored (sendCmd ctl.monitored code arg) (sendCmd ctl code arg) := by
  refine Alike.bind (sdStatus_alike _) fun busy => Alike.ite ?_ ?_
  · exact Alike.bind (setErr_alike _) fun _ => Alike.pure _
  refine Alike.bind (readReg_alike _) fun irq => Alike.bind (writeReg_alike _ _) fun _ =>
    Alike.bind (writeReg_alike _ _) fun _ => Alike.bind (writeReg_alike _ _) fun _ => ?_
  refine Alike.bind ?_ fun _ => Alike.bind (sdInt_alike _) fun r => Alike.ite ?_ ?_
  · exact Alike.ite (delayMsec_alike _) (Alike.ite (delayMsec_alike _) (Alike.pure _))
  · exact Alike.bind (setErr_alike _) fun _ => Alike.pure _
  · exact Alike.bind (readReg_alike _) fun r => cmdResult_alike _ _ _

/-- The code that looks at the globals. -/
theorem get_alike {α : Type} {rest : Sd (Monitor σ) → StateM (Sd (Monitor σ)) α}
    {rest' : Sd σ → StateM (Sd σ) α}
    (h : ∀ sd, Alike Unmonitored (rest sd) (rest' sd.unmonitored)) :
    Alike Unmonitored (MonadState.get >>= rest) (MonadState.get >>= rest') := by
  rintro sd _ rfl
  exact h sd sd _ rfl

theorem sdCmd_alike (code arg : UInt32) :
    Alike Unmonitored (sdCmd ctl.monitored code arg) (sdCmd ctl code arg) := by
  refine Alike.bind (setErr_alike _) fun _ => Alike.ite (sendCmd_alike _ _) ?_
  refine get_alike fun sd => Alike.bind ?_ fun r => Alike.ite ?_ (sendCmd_alike _ _)
  · exact Alike.bind (setErr_alike _) fun _ => sendCmd_alike _ _
  · exact Alike.bind (setErr_alike _) fun _ => Alike.pure _

theorem command_alike (code arg : UInt32) :
    Alike Unmonitored (command ctl.monitored code arg) (command ctl code arg) :=
  Alike.bind (sdCmd_alike _ _) fun _ => get_alike fun _ => Alike.pure _

theorem unlessFailed_alike (r : UInt32) :
    Alike Unmonitored (unlessFailed r : StateM (Sd (Monitor σ)) Bool) (unlessFailed r) :=
  Alike.ite (Alike.bind (setErr_alike _) fun _ => Alike.pure _) (Alike.pure _)

section Directions

variable {dir : Direction (Monitor σ) β} {dir' : Direction σ β} {lba num : UInt32}

/-- The two directions differ only in the monitor. -/
structure AlikeDirections (dir : Direction (Monitor σ) β) (dir' : Direction σ β) : Prop where
  inhibit : dir.inhibit = dir'.inhibit
  single : dir.single = dir'.single
  multi : dir.multi = dir'.multi
  ready : dir.ready = dir'.ready
  block : ∀ c b, Alike Unmonitored (dir.block c b) (dir'.block c b)
  finish : Alike Unmonitored dir.finish dir'.finish

theorem startTransfer_alike (h : AlikeDirections dir dir') :
    Alike Unmonitored (startTransfer ctl.monitored dir lba num)
      (startTransfer ctl dir' lba num) := by
  refine get_alike fun sd => Alike.ite ?_ (Alike.bind ?_ fun announced => Alike.ite ?_ ?_)
  · exact Alike.bind (writeReg_alike _ _) fun _ => Alike.pure _
  · exact Alike.ite (command_alike _ _) (Alike.pure _)
  · rw [h.single, h.multi]
    exact Alike.bind (writeReg_alike _ _) fun _ => command_alike _ _
  · exact Alike.pure _

theorem transferFrom_alike (h : AlikeDirections dir dir') (left c : ℕ) (b : β) :
    Alike Unmonitored (transferFrom ctl.monitored dir lba left c b)
      (transferFrom ctl dir' lba left c b) := by
  induction left generalizing c b with
  | zero => exact Alike.pure _
  | succ left ih =>
    refine Alike.bind (get_alike fun sd => Alike.ite ?_ (Alike.pure _)) fun started =>
      Alike.ite ?_ (Alike.pure _)
    · rw [h.single]
      exact command_alike _ _
    refine Alike.bind ?_ fun r => Alike.bind (unlessFailed_alike r) fun ready =>
      Alike.ite (Alike.bind (h.block c b) fun b => ih (c + 1) b) (Alike.pure _)
    rw [h.ready]
    exact sdInt_alike _

/-- A monitored transfer does what it does without the monitor. -/
theorem transfer_alike (h : AlikeDirections dir dir') (b : β) :
    Alike Unmonitored (transfer ctl.monitored dir lba num b) (transfer ctl dir' lba num b) := by
  refine Alike.bind ?_ fun busy => Alike.ite ?_ ?_
  · rw [h.inhibit]
    exact sdStatus_alike _
  · exact Alike.bind (setErr_alike _) fun _ => Alike.pure _
  refine Alike.bind (startTransfer_alike h) fun started => Alike.ite ?_ (Alike.pure _)
  refine Alike.bind (transferFrom_alike h _ _ _) fun out => Alike.ite ?_ (Alike.pure _)
  refine Alike.bind h.finish fun r => Alike.bind (unlessFailed_alike r) fun finished =>
    Alike.ite (Alike.bind (get_alike fun sd => Alike.bind ?_ fun _ => ?_) fun n => Alike.pure _)
      (Alike.pure _)
  · exact Alike.ite (Alike.bind (sdCmd_alike _ _) fun _ => Alike.pure _) (Alike.pure _)
  · exact get_alike fun sd => Alike.pure _

end Directions

theorem readDirections_alike :
    AlikeDirections (readDirection ctl.monitored) (readDirection ctl) where
  inhibit := rfl
  single := rfl
  multi := rfl
  ready := rfl
  block _ _ := Alike.countUp (fun _ _ => Alike.bind (readReg_alike _) fun _ => Alike.pure _) _ _
  finish := Alike.pure _

theorem writeDirections_alike (buffer : ℕ → UInt32) :
    AlikeDirections (writeDirection ctl.monitored buffer) (writeDirection ctl buffer) where
  inhibit := rfl
  single := rfl
  multi := rfl
  ready := rfl
  block _ _ := Alike.countUp (fun _ _ => writeReg_alike _ _) _ _
  finish := sdInt_alike _

/-! ## What a call asks -/

/-- The driver with a monitor that has seen nothing. -/
def Sd.watched (sd : Sd σ) : Sd (Monitor σ) := { sd.toSdGlobals with dev := ⟨sd.dev, 0, []⟩ }

/-- What a call of `sd_readblock` asks of the controller. -/
def readAccesses (ctl : Controller σ) (lba : UInt32) (buffer : ℕ → UInt32) (num : UInt32)
    (sd : Sd σ) : List Access :=
  (sdReadblock ctl.monitored lba buffer num sd.watched).2.dev.accesses

/-- What a call of `sd_writeblock` asks of the controller. -/
def writeAccesses (ctl : Controller σ) (buffer : ℕ → UInt32) (lba num : UInt32) (sd : Sd σ) :
    List Access :=
  (sdWriteblock ctl.monitored buffer lba num sd.watched).2.dev.accesses

/-- A call that has returned `r` has asked for a beginning of its plan, and for all of it when
it reports the bytes of the blocks. -/
def KeepsTo (plan : List Access) (bytes : UInt32) (accesses : List Access) (r : UInt32) : Prop :=
  accesses <+: plan ∧ (r = 0 ∨ r = bytes ∧ accesses = plan)

/-- Whatever the controller answers, a transfer keeps to its plan: it asks for the commands and
the words of the plan in their order, for all of them unless it returns 0, and for nothing
else. A read stores nothing behind the blocks asked for. -/
theorem sdBlock_keepsTo (ctl : Controller σ) (lba num : UInt32) (buffer : ℕ → UInt32)
    (sd : Sd σ) :
    KeepsTo (readPlan sd.scr0 lba num) ((if num < 1 then 1 else num) * 512)
        (readAccesses ctl lba buffer num sd) (sdReadblock ctl lba buffer num sd).1.1 ∧
      (∀ k, 128 * (if num < 1 then 1 else num).toNat ≤ k →
        (sdReadblock ctl lba buffer num sd).1.2 k = buffer k) ∧
      KeepsTo (writePlan sd.scr0 buffer lba num) ((if num < 1 then 1 else num) * 512)
        (writeAccesses ctl buffer lba num sd) (sdWriteblock ctl buffer lba num sd).1 := by
  have hstart : Amid sd.toSdGlobals (Asks []) sd.watched := ⟨sd.err, rfl, rfl⟩
  have hread := (readAsking ctl sd.toSdGlobals lba (if num < 1 then 1 else num) buffer
    []).transfer sd.watched hstart
  have hwrite := (writeAsking ctl sd.toSdGlobals lba (if num < 1 then 1 else num) buffer
    []).transfer sd.watched hstart
  have hreadSame : (sdReadblock ctl.monitored lba buffer num sd.watched).1 =
      (sdReadblock ctl lba buffer num sd).1 :=
    (transfer_alike readDirections_alike buffer sd.watched sd rfl).1
  have hwriteSame : (sdWriteblock ctl.monitored buffer lba num sd.watched).1 =
      (sdWriteblock ctl buffer lba num sd).1 :=
    congrArg Prod.fst (transfer_alike (writeDirections_alike buffer) () sd.watched sd rfl).1
  rw [← hreadSame, ← hwriteSame]
  refine ⟨?_, fun k hk => ?_, ?_⟩
  · rcases hread with ⟨hzero, e, -, ⟨d, hd, hevents⟩, -⟩ | ⟨hn, e, -, hevents, -⟩
    · exact ⟨(show readAccesses ctl lba buffer num sd = d from hevents) ▸ hd, Or.inl hzero⟩
    · have hall : readAccesses ctl lba buffer num sd = readPlan sd.scr0 lba num := hevents
      exact ⟨hall ▸ List.prefix_refl _, Or.inr ⟨hn, hall⟩⟩
  · rcases hread with ⟨-, e, -, -, c, hc, hkept⟩ | ⟨-, e, -, -, hkept⟩
    · exact hkept k ((Nat.mul_le_mul_left 128 hc).trans hk)
    · exact hkept k hk
  · rcases hwrite with ⟨hzero, e, -, ⟨d, hd, hevents⟩, -⟩ | ⟨hn, e, -, hevents, -⟩
    · exact ⟨(show writeAccesses ctl buffer lba num sd = d from hevents) ▸ hd, Or.inl hzero⟩
    · have hall : writeAccesses ctl buffer lba num sd = writePlan sd.scr0 buffer lba num := hevents
      exact ⟨hall ▸ List.prefix_refl _, Or.inr ⟨hn, hall⟩⟩

end NaiveGfs
