import NaiveGfs.Dfs.IdExchange

/-!
# The wait loops of `entry`

The pi waits for a command by shifting bytes into `op` until it shows the command. Two of the
three loops begin with zeros in `op` and one with the command of the loop before it. Neither can
be completed to the command by fewer than four bytes, so each loop reads the shortest beginning of
what it receives that ends in the bytes of its command.
-/

namespace NaiveGfs

open LittleEndian TwoParty

variable {κ χ : Type} {env : PiEnv κ} {p : Pi κ} {cmd op : UInt32}

/-- The command that is waited for at a place. -/
def PiPc.waitsFor : PiPc → Option UInt32
  | .waitFsIdStart => some fsIdStart
  | .waitConfigInit => some configInit
  | .waitRequestId => some requestId
  | _ => none

/-- What `op` holds when a wait loop is entered. -/
def PiPc.entryOp : PiPc → UInt32
  | .waitConfigInit => fsIdStart
  | _ => 0

/-- The shortest of its beginnings that ends in a word. -/
structure ShortestEnding (w bs : List UInt8) : Prop where
  ends : w <:+ bs
  first : ∀ pre, pre <+: bs → w <:+ pre → pre = bs

/-- The pi alone, with the bytes tagged by their sender. -/
abbrev TracedPi (κ χ : Type) := Traced (Pi κ) PiPc (χ × UInt8)

/-- Runs of the pi alone on a stream of bytes. -/
abbrev PiRuns (env : PiEnv κ) : TracedPi κ χ → List (χ × UInt8) → TracedPi κ χ →
    List (χ × UInt8) → List (PiPc × UInt8) → Prop :=
  Runs (traceAct (piAct env) Pi.pc)

variable {t t' : TracedPi κ χ} {stream rest : List (χ × UInt8)}
  {sent : List (PiPc × UInt8)}

/-- On a stream the place of `t` is left after exactly the bytes `pre`. -/
def ExitsAfter (env : PiEnv κ) (t : TracedPi κ χ) (stream pre : List (χ × UInt8)) : Prop :=
  ∃ p rest, stream = pre ++ rest ∧
    PiRuns env t stream ⟨p, [], t.history ++ [(t.state.pc, pre)]⟩ rest []

/-! ## What `op` holds -/

/-- What `op` holds at the places up to the last wait loop: at the entry of a wait loop what is
expected there, and between the first two loops the command that was waited for. -/
def OpHolds (t : TracedPi κ χ) : Prop :=
  match t.state.pc with
  | .waitFsIdStart | .waitConfigInit | .waitRequestId =>
    t.state.out = [] ∧ (t.reading = [] → t.state.op = t.state.pc.entryOp)
  | .ackFsIdStart | .getString _ | .ackWord _ => t.state.op = fsIdStart
  | _ => True

/-- A silent step to another place. -/
theorem opHolds_leave {s s' : Pi κ} {got : List (χ × UInt8)}
    (htakes : (Act.tau s' : Act (Pi κ) UInt8 UInt8).Takes (got.map Prod.snd) s)
    (hne : s'.pc ≠ t.state.pc)
    (h : OpHolds (⟨s', [], t.history ++ [(t.state.pc, t.reading)]⟩ : TracedPi κ χ)) :
    OpHolds (t.move Pi.pc got s) := by
  rw [Act.takes_tau_iff, List.map_eq_nil_iff] at htakes
  obtain ⟨rfl, rfl⟩ := htakes
  rw [Traced.move, if_neg hne, List.append_nil]
  exact h

/-- A byte that is read at a place. -/
theorem opHolds_stay {next : UInt8 → Pi κ} {s : Pi κ} {got : List (χ × UInt8)}
    (htakes : (Act.recv next : Act (Pi κ) UInt8 UInt8).Takes (got.map Prod.snd) s)
    (hpc : ∀ b, (next b).pc = t.state.pc)
    (h : ∀ b : χ × UInt8, OpHolds ⟨next b.2, t.reading ++ [b], t.history⟩) :
    OpHolds (t.move Pi.pc got s) := by
  obtain ⟨b, hgot, rfl⟩ := Act.takes_recv_iff.mp htakes
  obtain ⟨b, rfl, rfl⟩ := List.map_eq_singleton_iff.mp hgot
  rw [Traced.move, if_pos (hpc b.2)]
  exact h b

theorem opHolds_step {inbox inbox' : List (χ × UInt8)} (h : OpHolds t)
    (hstep : (traceAct (piAct env) Pi.pc t).perform inbox = some (t', inbox', sent)) :
    OpHolds t' := by
  obtain ⟨got, s, htakes, -, rfl⟩ := traceAct_takes hstep
  obtain ⟨⟨pc, out, op, word, count, dfsName, vol, cfgClusterNo, id, dev⟩, reading, history⟩ := t
  cases out with
  | cons b out =>
    -- a byte is sent, which never happens at a wait loop
    obtain ⟨hgot, rfl⟩ := Act.takes_send_iff.mp htakes
    obtain rfl := List.map_eq_nil_iff.mp hgot
    rw [Traced.move, if_pos rfl, List.append_nil]
    cases pc
    case waitFsIdStart | waitConfigInit | waitRequestId => exact absurd h.1 (by simp)
    all_goals exact h
  | nil =>
    rw [piAct] at htakes
    cases pc <;> dsimp only [waitFor] at htakes
    case waitFsIdStart =>
      split at htakes
      · exact opHolds_leave htakes (by simp) ‹op = fsIdStart›
      · exact opHolds_stay htakes (fun _ => rfl) fun b => ⟨rfl, fun hnil => absurd hnil (by simp)⟩
    case waitConfigInit =>
      split at htakes
      · exact opHolds_leave htakes (by simp) trivial
      · exact opHolds_stay htakes (fun _ => rfl) fun b => ⟨rfl, fun hnil => absurd hnil (by simp)⟩
    case waitRequestId =>
      split at htakes
      · exact opHolds_leave htakes (by simp) trivial
      · exact opHolds_stay htakes (fun _ => rfl) fun b => ⟨rfl, fun hnil => absurd hnil (by simp)⟩
    case ackFsIdStart => exact opHolds_leave htakes (by simp) h
    case getString i =>
      split at htakes
      · exact opHolds_stay htakes (fun _ => rfl) fun _ => h
      · exact opHolds_leave htakes (by simp) h
    case ackWord i =>
      split_ifs at htakes
      · exact opHolds_leave htakes (by simp) ⟨rfl, fun _ => h⟩
      · exact opHolds_leave htakes (by simp) h
      · exact opHolds_leave htakes (by simp) ⟨rfl, fun _ => h⟩
    case ackConfigInit => exact opHolds_leave htakes (by simp) ⟨rfl, fun _ => rfl⟩
    case getId =>
      split at htakes
      · exact opHolds_stay htakes (fun _ => rfl) fun _ => trivial
      · exact opHolds_leave htakes (by simp) trivial
    case assign => split at htakes <;> exact opHolds_leave htakes (by simp) trivial
    case returned | halted => exact absurd htakes Act.not_takes_halt
    all_goals exact opHolds_leave htakes (by simp) trivial

theorem opHolds_run (h : OpHolds t) (hrun : PiRuns env t stream t' rest sent) : OpHolds t' := by
  induction hrun with
  | refl => exact h
  | head hstep _ ih => exact ih (opHolds_step h hstep)

theorem opHolds_start (dfsName : Fin 30 → UInt8) (vol : Volume) (dev : κ) :
    OpHolds (⟨Pi.start dfsName vol dev, [], []⟩ : TracedPi κ χ) :=
  ⟨rfl, fun _ => rfl⟩

/-- The entry of a wait loop: nothing has been read at its place, and `op` holds what is
expected. -/
structure AtEntry (t : TracedPi κ χ) (cmd : UInt32) : Prop where
  waits : t.state.pc.waitsFor = some cmd
  reading : t.reading = []
  out : t.state.out = []
  op : t.state.op = t.state.pc.entryOp

theorem OpHolds.atEntry (h : OpHolds t) (hwait : t.state.pc.waitsFor = some cmd)
    (hentry : t.reading = []) : AtEntry t cmd := by
  cases hpc : t.state.pc
  case waitFsIdStart | waitConfigInit | waitRequestId =>
    rw [OpHolds, hpc] at h
    refine ⟨hwait, hentry, h.1, ?_⟩
    rw [hpc]
    exact h.2 hentry
  all_goals simp [hpc, PiPc.waitsFor] at hwait

/-! ## The loops -/

theorem piAct_waitsFor (env : PiEnv κ) (hwait : p.pc.waitsFor = some cmd) (hout : p.out = []) :
    ∃ next, piAct env p = waitFor p cmd next ∧ next.pc ≠ p.pc := by
  rw [piAct, hout]
  cases hpc : p.pc
  case waitFsIdStart | waitConfigInit | waitRequestId =>
    rw [hpc, PiPc.waitsFor, Option.some.injEq] at hwait
    subst hwait
    exact ⟨_, rfl, by simp⟩
  all_goals simp [hpc, PiPc.waitsFor] at hwait

/-- What `op` holds at the entry of a loop does not help to complete the command. -/
theorem startsAfresh_entryOp {pc : PiPc} (hwait : pc.waitsFor = some cmd) :
    StartsAfresh pc.entryOp cmd := by
  cases pc
  case waitFsIdStart | waitConfigInit | waitRequestId =>
    rw [PiPc.waitsFor, Option.some.injEq] at hwait
    subst hwait
    decide
  all_goals simp [PiPc.waitsFor] at hwait

/-- Inside the loop that was entered in `t₀`: `op` is the window over what has been read, and the
bytes of the command have not come before the end of it. -/
structure Waiting (t₀ : TracedPi κ χ) (cmd : UInt32) (t : TracedPi κ χ) : Prop where
  pc : t.state.pc = t₀.state.pc
  out : t.state.out = []
  op : t.state.op = (t.reading.map Prod.snd).foldl shiftIn t₀.state.pc.entryOp
  history : t.history = t₀.history
  first : ∀ pre, pre <+: t.reading.map Prod.snd → bytes32 cmd <:+ pre →
    pre = t.reading.map Prod.snd

variable {t₀ : TracedPi κ χ}

theorem AtEntry.waiting (h : AtEntry t cmd) : Waiting t cmd t where
  pc := rfl
  out := h.out
  op := by rw [h.reading, h.op]; rfl
  history := rfl
  first pre hpre _ := by
    rw [h.reading] at hpre ⊢
    exact List.prefix_nil.mp hpre

/-- The loop ends when the bytes of the command have been read. -/
theorem Waiting.op_eq_iff (h : Waiting t₀ cmd t) (h₀ : AtEntry t₀ cmd) :
    t.state.op = cmd ↔ bytes32 cmd <:+ t.reading.map Prod.snd := by
  rw [h.op]
  exact foldl_shiftIn_eq_iff (startsAfresh_entryOp h₀.waits) _

/-- One more byte that does not complete the command. -/
theorem Waiting.read (h : Waiting t₀ cmd t) (h₀ : AtEntry t₀ cmd) (hop : t.state.op ≠ cmd)
    (b : χ × UInt8) :
    Waiting t₀ cmd
      ⟨{ t.state with op := shiftIn t.state.op b.2 }, t.reading ++ [b], t.history⟩ where
  pc := h.pc
  out := h.out
  op := by
    show shiftIn t.state.op b.2 = _
    rw [List.map_append, List.foldl_append, ← h.op]
    rfl
  history := h.history
  first pre hpre hends := by
    rw [List.map_append] at hpre ⊢
    rcases List.prefix_concat_iff.mp hpre with heq | hpre
    · exact heq
    · rw [h.first pre hpre hends] at hends
      exact absurd ((h.op_eq_iff h₀).mpr hends) hop

theorem Waiting.step (h : Waiting t₀ cmd t) (h₀ : AtEntry t₀ cmd) {inbox inbox' : List (χ × UInt8)}
    (hstep : (traceAct (piAct env) Pi.pc t).perform inbox = some (t', inbox', sent)) :
    Waiting t₀ cmd t' ∨ ShortestEnding (bytes32 cmd) (t.reading.map Prod.snd) ∧
      t'.history = t₀.history ++ [(t₀.state.pc, t.reading)] := by
  obtain ⟨got, s, htakes, -, rfl⟩ := traceAct_takes hstep
  obtain ⟨next, hact, hnext⟩ := piAct_waitsFor env (h.pc ▸ h₀.waits) h.out
  rw [hact, waitFor] at htakes
  by_cases hop : t.state.op = cmd
  · rw [if_pos hop, Act.takes_tau_iff, List.map_eq_nil_iff] at htakes
    obtain ⟨rfl, rfl⟩ := htakes
    refine Or.inr ⟨⟨(h.op_eq_iff h₀).mp hop, h.first⟩, ?_⟩
    rw [Traced.move, if_neg hnext, h.history, h.pc, List.append_nil]
  · rw [if_neg hop, Act.takes_recv_iff] at htakes
    obtain ⟨b, hgot, rfl⟩ := htakes
    obtain ⟨b, rfl, rfl⟩ := List.map_eq_singleton_iff.mp hgot
    rw [Traced.move, if_pos rfl]
    exact Or.inl (h.read h₀ hop b)

/-- A run either stays in the loop or has left it behind the first bytes of the command. -/
theorem Waiting.run (h : Waiting t₀ cmd t) (h₀ : AtEntry t₀ cmd)
    (hrun : PiRuns env t stream t' rest sent) :
    Waiting t₀ cmd t' ∨ ∃ pre, ShortestEnding (bytes32 cmd) (pre.map Prod.snd) ∧
      t₀.history ++ [(t₀.state.pc, pre)] <+: t'.history := by
  induction hrun with
  | refl => exact Or.inl h
  | head hstep hrun ih =>
    rcases h.step h₀ hstep with hwaiting | ⟨hshortest, hhistory⟩
    · exact ih hwaiting
    · exact Or.inr ⟨_, hshortest, hhistory ▸ hrun.history_prefix⟩

/-- The loop reads on until the bytes of the command have come, and is left behind them. -/
theorem Waiting.exits (env : PiEnv κ) (h : Waiting t₀ cmd t) (h₀ : AtEntry t₀ cmd)
    (more rest : List (χ × UInt8))
    (hshortest : ShortestEnding (bytes32 cmd) ((t.reading ++ more).map Prod.snd)) :
    ∃ p, PiRuns env t (more ++ rest)
      ⟨p, [], t₀.history ++ [(t₀.state.pc, t.reading ++ more)]⟩ rest [] := by
  induction more generalizing t with
  | nil =>
    obtain ⟨next, hact, hnext⟩ := piAct_waitsFor env (h.pc ▸ h₀.waits) h.out
    rw [List.append_nil] at hshortest
    rw [waitFor, if_pos ((h.op_eq_iff h₀).mpr hshortest.ends)] at hact
    rw [List.append_nil, ← h.pc, ← h.history]
    exact ⟨next, Runs.tau_leave hact hnext (Runs.refl _ _)⟩
  | cons b more ih =>
    obtain ⟨next, hact, -⟩ := piAct_waitsFor env (h.pc ▸ h₀.waits) h.out
    have hop : t.state.op ≠ cmd := by
      intro hop
      have heq := hshortest.first _ ((List.prefix_append t.reading (b :: more)).map Prod.snd)
        ((h.op_eq_iff h₀).mp hop)
      simp at heq
    rw [waitFor, if_neg hop] at hact
    have hassoc : t.reading ++ b :: more = t.reading ++ [b] ++ more := by simp
    rw [hassoc] at hshortest ⊢
    obtain ⟨p, hrun⟩ := ih (h.read h₀ hop b) hshortest
    exact ⟨p, Runs.recv_stay hact rfl hrun⟩

/-- Whatever the pi has received, each of its wait loops reads the shortest beginning of what
comes that ends in the bytes of its command, and is then left. -/
theorem waits_exact {dfsName : Fin 30 → UInt8} {vol : Volume} {dev : κ}
    {received : List (χ × UInt8)}
    (hrun : PiRuns env ⟨Pi.start dfsName vol dev, [], []⟩ received t rest sent)
    (hwait : t.state.pc.waitsFor = some cmd) (hentry : t.reading = [])
    (stream pre : List (χ × UInt8)) :
    ExitsAfter env t stream pre ↔
      pre <+: stream ∧ ShortestEnding (bytes32 cmd) (pre.map Prod.snd) := by
  have h₀ := (opHolds_run (opHolds_start dfsName vol dev) hrun).atEntry hwait hentry
  constructor
  · rintro ⟨p, left, rfl, hexit⟩
    refine ⟨List.prefix_append pre left, ?_⟩
    rcases h₀.waiting.run h₀ hexit with hwaiting | ⟨first, hshortest, hhistory⟩
    · have hlen := congrArg List.length hwaiting.history
      simp at hlen
    · have heq := hhistory.eq_of_length (by simp)
      obtain ⟨-, hlast⟩ := List.append_inj' heq rfl
      simp only [List.cons.injEq, Prod.mk.injEq, true_and, and_true] at hlast
      exact hlast ▸ hshortest
  · rintro ⟨⟨left, rfl⟩, hshortest⟩
    have hnil : t.reading ++ pre = pre := by rw [hentry, List.nil_append]
    obtain ⟨p, hexit⟩ := h₀.waiting.exits env h₀ pre left (by rwa [hnil])
    rw [hnil] at hexit
    exact ⟨p, left, rfl, hexit⟩

/-- A byte that looks like the first one of the command is passed over in the first loop; and the
second one, which begins with the command of the first in `op`, is left behind its own command. -/
theorem waits_exact_fsIdStart :
    ExitsAfter sampleEnv ⟨Pi.start sampleName smallVolume ⟨fun _ => blankSector, []⟩, [], []⟩
        (tagged () [0xff, 0xff, 0xff, 0, 0, 0x70]) (tagged () [0xff, 0xff, 0xff, 0, 0]) ∧
      ∃ t rest sent, PiRuns sampleEnv
          ⟨Pi.start sampleName smallVolume ⟨fun _ => blankSector, []⟩, [], []⟩
          (tagged () [0xff, 0xff, 0, 0, 0xff, 0xff, 0xff, 0xff]) t rest sent ∧
        t.state.pc = .waitConfigInit ∧ t.state.op = fsIdStart ∧
        ExitsAfter sampleEnv t (tagged () [0, 0, 0xee, 0xee, 0, 0, 0x70])
          (tagged () [0, 0, 0xee, 0xee, 0, 0]) := by
  constructor
  · refine (waits_exact (Runs.refl _ []) rfl rfl _ _).mpr
      ⟨by decide, by decide, fun pre hpre => ?_⟩
    have hall : ∀ pre ∈ ([0xff, 0xff, 0xff, 0, 0] : List UInt8).inits,
        bytes32 fsIdStart <:+ pre → pre = [0xff, 0xff, 0xff, 0, 0] := by decide
    exact hall pre ((List.mem_inits pre _).mpr hpre)
  · have hsteps : (performs (traceAct (piAct sampleEnv) Pi.pc) 20
        ⟨Pi.start sampleName smallVolume ⟨fun _ => blankSector, []⟩, [], []⟩
        (tagged () [0xff, 0xff, 0, 0, 0xff, 0xff, 0xff, 0xff])).map
          (fun r => (r.1.state.pc, r.1.state.op, r.1.reading)) =
        some (.waitConfigInit, fsIdStart, []) := by decide
    obtain ⟨⟨t, rest, sent⟩, hperforms, he⟩ := Option.map_eq_some_iff.mp hsteps
    simp only [Prod.mk.injEq] at he
    obtain ⟨hpc, hop, hentry⟩ := he
    have hrun := Runs.of_performs hperforms
    have hwait : t.state.pc.waitsFor = some configInit := by
      rw [hpc]
      rfl
    refine ⟨t, rest, sent, hrun, hpc, hop, (waits_exact hrun hwait hentry _ _).mpr
      ⟨by decide, by decide, fun pre hpre => ?_⟩⟩
    have hall : ∀ pre ∈ ([0, 0, 0xee, 0xee, 0, 0] : List UInt8).inits,
        bytes32 configInit <:+ pre → pre = [0, 0, 0xee, 0xee, 0, 0] := by decide
    exact hall pre ((List.mem_inits pre _).mpr hpre)

end NaiveGfs
