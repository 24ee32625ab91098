import Mathlib.Logic.Relation

/-!
# Two programs joined by two queues

Two sequential programs, each with a next action determined by its state, run side by side
and talk over two lossless first-in first-out channels. Steps of the two programs commute,
so all interleavings are one run as far as a final configuration is concerned: whatever has
been reached can still reach it (`Reaches.of_final`). What holds at the end of a single
schedule and is inherited backwards therefore holds in every interleaving.

A program can be traced: each byte then carries the phase its sender was in, and each
program keeps the history of the phases it has left with the bytes it read in them.
-/

namespace TwoParty

open Relation

variable {σ τ ι ο φ χ : Type*}

/-- What a program does next: send bytes, receive one, wait until one is there without
taking it, compute, or nothing at all. -/
inductive Act (σ ι ο : Type*)
  | send (out : List ο) (next : σ)
  | recv (next : ι → σ)
  | await (next : σ)
  | tau (next : σ)
  | halt

/-- Perform an action with the given bytes waiting: the next state, the bytes that still
wait, and the bytes sent. There is none when the program has to wait or has halted. -/
def Act.perform : Act σ ι ο → List ι → Option (σ × List ι × List ο)
  | send out s, inbox => some (s, inbox, out)
  | recv next, b :: inbox => some (next b, inbox, [])
  | recv _, [] => none
  | await s, b :: inbox => some (s, b :: inbox, [])
  | await _, [] => none
  | tau s, inbox => some (s, inbox, [])
  | halt, _ => none

/-- Bytes that arrive behind those waiting do not change what an action does. -/
theorem Act.perform_append {a : Act σ ι ο} {inbox inbox' : List ι} {s : σ} {out : List ο}
    (h : a.perform inbox = some (s, inbox', out)) (more : List ι) :
    a.perform (inbox ++ more) = some (s, inbox' ++ more, out) := by
  cases a with
  | send out s =>
    simp only [perform, Option.some.injEq, Prod.mk.injEq] at h ⊢
    exact ⟨h.1, by rw [h.2.1], h.2.2⟩
  | recv next =>
    cases inbox with
    | nil => simp [perform] at h
    | cons b inbox =>
      simp only [List.cons_append, perform, Option.some.injEq, Prod.mk.injEq] at h ⊢
      exact ⟨h.1, by rw [h.2.1], h.2.2⟩
  | await s =>
    cases inbox with
    | nil => simp [perform] at h
    | cons b inbox =>
      simp only [List.cons_append, perform, Option.some.injEq, Prod.mk.injEq] at h ⊢
      exact ⟨h.1, by rw [← h.2.1, List.cons_append], h.2.2⟩
  | tau s =>
    simp only [perform, Option.some.injEq, Prod.mk.injEq] at h ⊢
    exact ⟨h.1, by rw [h.2.1], h.2.2⟩
  | halt => simp [perform] at h

/-- The action takes the bytes `got` and goes on to a state. -/
inductive Act.Takes : Act σ ι ο → List ι → σ → Prop
  | send (out : List ο) (s : σ) : Takes (.send out s) [] s
  | recv (next : ι → σ) (b : ι) : Takes (.recv next) [b] (next b)
  | await (s : σ) : Takes (.await s) [] s
  | tau (s : σ) : Takes (.tau s) [] s

namespace Act

variable {got : List ι} {s s' : σ}

@[simp] theorem takes_send_iff {out : List ο} :
    (send out s' : Act σ ι ο).Takes got s ↔ got = [] ∧ s = s' := by
  constructor
  · rintro ⟨⟩
    exact ⟨rfl, rfl⟩
  · rintro ⟨rfl, rfl⟩
    exact .send out s

@[simp] theorem takes_recv_iff {next : ι → σ} :
    (recv next : Act σ ι ο).Takes got s ↔ ∃ b, got = [b] ∧ s = next b := by
  constructor
  · rintro ⟨⟩
    exact ⟨_, rfl, rfl⟩
  · rintro ⟨b, rfl, rfl⟩
    exact .recv next b

@[simp] theorem takes_tau_iff : (tau s' : Act σ ι ο).Takes got s ↔ got = [] ∧ s = s' := by
  constructor
  · rintro ⟨⟩
    exact ⟨rfl, rfl⟩
  · rintro ⟨rfl, rfl⟩
    exact .tau s

@[simp] theorem not_takes_halt : ¬ (halt : Act σ ι ο).Takes got s := by
  rintro ⟨⟩

end Act

/-! ## One program on its own -/

/-- The program gets from `s` to `s'` on the bytes that wait, and sends `out`. -/
inductive Runs (act : σ → Act σ ι ο) : σ → List ι → σ → List ι → List ο → Prop
  | refl (s : σ) (inbox : List ι) : Runs act s inbox s inbox []
  | head {s s₁ s₂ : σ} {inbox inbox₁ inbox₂ : List ι} {out out' : List ο}
      (h : (act s).perform inbox = some (s₁, inbox₁, out))
      (h' : Runs act s₁ inbox₁ s₂ inbox₂ out') : Runs act s inbox s₂ inbox₂ (out ++ out')

/-- A first step that sends nothing. -/
theorem Runs.head_silent {act : σ → Act σ ι ο} {s s₁ s₂ : σ} {inbox inbox₁ inbox₂ : List ι}
    {out : List ο} (h : (act s).perform inbox = some (s₁, inbox₁, []))
    (h' : Runs act s₁ inbox₁ s₂ inbox₂ out) : Runs act s inbox s₂ inbox₂ out :=
  Runs.head h h'

theorem Runs.trans {act : σ → Act σ ι ο} {s s₁ s₂ : σ} {inbox inbox₁ inbox₂ : List ι}
    {out out' : List ο} (h : Runs act s inbox s₁ inbox₁ out)
    (h' : Runs act s₁ inbox₁ s₂ inbox₂ out') : Runs act s inbox s₂ inbox₂ (out ++ out') := by
  induction h with
  | refl s inbox => exact h'
  | head hstep _ ih =>
    rw [List.append_assoc]
    exact Runs.head hstep (ih h')

/-- What the program does in `n` steps, if it can take them. -/
def performs (act : σ → Act σ ι ο) : Nat → σ → List ι → Option (σ × List ι × List ο)
  | 0, s, inbox => some (s, inbox, [])
  | n + 1, s, inbox =>
    match (act s).perform inbox with
    | none => none
    | some (s₁, inbox₁, out) =>
      (performs act n s₁ inbox₁).map fun r => (r.1, r.2.1, out ++ r.2.2)

theorem Runs.of_performs {act : σ → Act σ ι ο} {n : Nat} {s s' : σ} {inbox inbox' : List ι}
    {out : List ο} (h : performs act n s inbox = some (s', inbox', out)) :
    Runs act s inbox s' inbox' out := by
  induction n generalizing s inbox out with
  | zero =>
    obtain ⟨rfl, rfl, rfl⟩ : s = s' ∧ inbox = inbox' ∧ [] = out := by simpa [performs] using h
    exact Runs.refl s inbox
  | succ n ih =>
    rw [performs] at h
    cases hstep : (act s).perform inbox with
    | none => simp [hstep] at h
    | some q =>
      obtain ⟨s₁, inbox₁, out₁⟩ := q
      rw [hstep] at h
      obtain ⟨⟨s₂, inbox₂, out₂⟩, hrest, he⟩ := Option.map_eq_some_iff.mp h
      obtain ⟨rfl, rfl, rfl⟩ : s₂ = s' ∧ inbox₂ = inbox' ∧ out₁ ++ out₂ = out := by
        simpa using he
      exact Runs.head hstep (ih hrest)

/-- Bytes that arrive behind those waiting do not change what a run does. -/
theorem Runs.append {act : σ → Act σ ι ο} {s s' : σ} {inbox inbox' : List ι} {out : List ο}
    (h : Runs act s inbox s' inbox' out) (more : List ι) :
    Runs act s (inbox ++ more) s' (inbox' ++ more) out := by
  induction h with
  | refl s inbox => exact Runs.refl s _
  | head hstep _ ih => exact Runs.head (Act.perform_append hstep more) ih

/-- Two runs that take all there is, one behind the other. -/
theorem Runs.chain {act : σ → Act σ ι ο} {s s₁ s₂ : σ} {taken taken' : List ι}
    {out out' : List ο} (h : Runs act s taken s₁ [] out) (h' : Runs act s₁ taken' s₂ [] out') :
    Runs act s (taken ++ taken') s₂ [] (out ++ out') :=
  (h.append taken').trans h'

/-- The action takes the bytes `got`, sends the bytes `out` and goes on to a state. -/
inductive Act.Does : Act σ ι ο → List ι → List ο → σ → Prop
  | send (out : List ο) (s : σ) : Does (.send out s) [] out s
  | recv (next : ι → σ) (b : ι) : Does (.recv next) [b] [] (next b)
  | await (s : σ) : Does (.await s) [] [] s
  | tau (s : σ) : Does (.tau s) [] [] s

theorem Act.does_of_perform {a : Act σ ι ο} {inbox inbox' : List ι} {s : σ} {out : List ο}
    (h : a.perform inbox = some (s, inbox', out)) : ∃ got, inbox = got ++ inbox' ∧
      a.Does got out s := by
  cases a with
  | send out s =>
    simp only [perform, Option.some.injEq, Prod.mk.injEq] at h
    obtain ⟨rfl, rfl, rfl⟩ := h
    exact ⟨[], rfl, .send _ _⟩
  | recv next =>
    cases inbox with
    | nil => simp [perform] at h
    | cons b inbox =>
      simp only [perform, Option.some.injEq, Prod.mk.injEq] at h
      obtain ⟨rfl, rfl, rfl⟩ := h
      exact ⟨[b], rfl, .recv next b⟩
  | await s =>
    cases inbox with
    | nil => simp [perform] at h
    | cons b inbox =>
      simp only [perform, Option.some.injEq, Prod.mk.injEq] at h
      obtain ⟨rfl, rfl, rfl⟩ := h
      exact ⟨[], rfl, .await _⟩
  | tau s =>
    simp only [perform, Option.some.injEq, Prod.mk.injEq] at h
    obtain ⟨rfl, rfl, rfl⟩ := h
    exact ⟨[], rfl, .tau _⟩
  | halt => simp [perform] at h

/-- What every action preserves, of the bytes read and sent so far and the state, holds after
every run. -/
theorem Runs.invariant {act : σ → Act σ ι ο} {P : List ι → List ο → σ → Prop}
    (hstep : ∀ {pre out s got sent s'}, P pre out s → (act s).Does got sent s' →
      P (pre ++ got) (out ++ sent) s')
    {s s' : σ} {inbox inbox' : List ι} {out : List ο} (h : Runs act s inbox s' inbox' out)
    {pre : List ι} {before : List ο} (hs : P pre before s) :
    ∃ taken, inbox = taken ++ inbox' ∧ P (pre ++ taken) (before ++ out) s' := by
  induction h generalizing pre before with
  | refl s inbox => exact ⟨[], rfl, by simpa using hs⟩
  | head hfirst _ ih =>
    obtain ⟨got, rfl, hdoes⟩ := Act.does_of_perform hfirst
    obtain ⟨taken, rfl, hP⟩ := ih (hstep hs hdoes)
    exact ⟨got ++ taken, by simp, by simpa using hP⟩

/-! ## Both programs -/

/-- The states of the two programs and the bytes on the way between them, oldest first. -/
structure Config (σ τ ι ο : Type*) where
  left : σ
  right : τ
  toRight : List ο
  toLeft : List ι

section System

variable (actL : σ → Act σ ι ο) (actR : τ → Act τ ο ι)

/-- One of the two programs makes a step. -/
inductive Step : Config σ τ ι ο → Config σ τ ι ο → Prop
  | left {s s' : σ} {r : τ} {toRight : List ο} {toLeft toLeft' : List ι} {out : List ο}
      (h : (actL s).perform toLeft = some (s', toLeft', out)) :
      Step ⟨s, r, toRight, toLeft⟩ ⟨s', r, toRight ++ out, toLeft'⟩
  | right {s : σ} {r r' : τ} {toRight toRight' : List ο} {toLeft : List ι} {out : List ι}
      (h : (actR r).perform toRight = some (r', toRight', out)) :
      Step ⟨s, r, toRight, toLeft⟩ ⟨s, r', toRight', toLeft ++ out⟩

/-- Any number of steps in any order. -/
abbrev Reaches : Config σ τ ι ο → Config σ τ ι ο → Prop := ReflTransGen (Step actL actR)

/-- Neither program can move. -/
def Stuck (c : Config σ τ ι ο) : Prop :=
  (actL c.left).perform c.toLeft = none ∧ (actR c.right).perform c.toRight = none

variable {actL actR} {c a b d : Config σ τ ι ο}

theorem Stuck.not_step (h : Stuck actL actR c) : ¬ Step actL actR c d := by
  intro hstep
  cases hstep with
  | left hl => exact absurd (hl.symm.trans h.1) (by simp)
  | right hr => exact absurd (hr.symm.trans h.2) (by simp)

/-- Two different steps are steps of different programs, and commute. -/
theorem step_diamond (ha : Step actL actR c a) (hb : Step actL actR c b) :
    a = b ∨ ∃ d, Step actL actR a d ∧ Step actL actR b d := by
  cases ha with
  | left hl =>
    cases hb with
    | left hl' =>
      have he := Option.some.inj (hl.symm.trans hl')
      simp only [Prod.mk.injEq] at he
      obtain ⟨rfl, rfl, rfl⟩ := he
      exact Or.inl rfl
    | right hr' =>
      exact Or.inr ⟨_, Step.right (Act.perform_append hr' _), Step.left (Act.perform_append hl _)⟩
  | right hr =>
    cases hb with
    | left hl' =>
      exact Or.inr ⟨_, Step.left (Act.perform_append hl' _), Step.right (Act.perform_append hr _)⟩
    | right hr' =>
      have he := Option.some.inj (hr.symm.trans hr')
      simp only [Prod.mk.injEq] at he
      obtain ⟨rfl, rfl, rfl⟩ := he
      exact Or.inl rfl

/-- Once one schedule ends in a stuck configuration, every other schedule can still end
there. -/
theorem Reaches.of_final (hd : Reaches actL actR c d) (hstuck : Stuck actL actR d)
    (ha : Reaches actL actR c a) : Reaches actL actR a d := by
  have hdiamond : ∀ x y z, Step actL actR x y → Step actL actR x z →
      ∃ w, ReflGen (Step actL actR) y w ∧ ReflTransGen (Step actL actR) z w := by
    intro x y z hy hz
    rcases step_diamond hy hz with rfl | ⟨w, hyw, hzw⟩
    · exact ⟨y, ReflGen.refl, ReflTransGen.refl⟩
    · exact ⟨w, ReflGen.single hyw, ReflTransGen.single hzw⟩
  obtain ⟨w, hw, hw'⟩ := church_rosser hdiamond ha hd
  have hwd : w = d := by
    rcases ReflTransGen.cases_head hw' with he | ⟨e, he, _⟩
    · exact he.symm
    · exact absurd he hstuck.not_step
  exact hwd ▸ hw

/-- A stuck configuration is the only one that its origin can get stuck in. -/
theorem Reaches.eq_of_stuck (hd : Reaches actL actR c d) (hstuck : Stuck actL actR d)
    (ha : Reaches actL actR c a) (hstuck' : Stuck actL actR a) : a = d := by
  rcases ReflTransGen.cases_head (hd.of_final hstuck ha) with he | ⟨e, he, _⟩
  · exact he
  · exact absurd he hstuck'.not_step

theorem Runs.left {s s' : σ} {inbox inbox' : List ι} {out : List ο}
    (h : Runs actL s inbox s' inbox' out) (r : τ) (toRight : List ο) :
    Reaches actL actR ⟨s, r, toRight, inbox⟩ ⟨s', r, toRight ++ out, inbox'⟩ := by
  induction h generalizing toRight with
  | refl s inbox => simpa using ReflTransGen.refl
  | head hstep _ ih =>
    rw [← List.append_assoc]
    exact ReflTransGen.head (Step.left hstep) (ih _)

theorem Runs.right {r r' : τ} {inbox inbox' : List ο} {out : List ι}
    (h : Runs actR r inbox r' inbox' out) (s : σ) (toLeft : List ι) :
    Reaches actL actR ⟨s, r, inbox, toLeft⟩ ⟨s, r', inbox', toLeft ++ out⟩ := by
  induction h generalizing toLeft with
  | refl s inbox => simpa using ReflTransGen.refl
  | head hstep _ ih =>
    rw [← List.append_assoc]
    exact ReflTransGen.head (Step.right hstep) (ih _)

/-- A program that has halted stays as it is. -/
theorem Reaches.left_eq_of_halt (h : Reaches actL actR c d) (hhalt : actL c.left = .halt) :
    d.left = c.left := by
  induction h with
  | refl => rfl
  | tail _ hstep ih =>
    cases hstep with
    | left hl =>
      simp only at ih
      rw [ih, hhalt] at hl
      exact absurd hl (by simp [Act.perform])
    | right hr => exact ih

/-- The left program asks, the right one answers, and the left one takes the answer up to
some rest. -/
theorem Runs.roundTrip {s s₁ s₂ : σ} {r r₁ : τ} {ask : List ο} {answer rest : List ι}
    (hask : Runs actL s [] s₁ [] ask) (hanswer : Runs actR r ask r₁ [] answer)
    (htake : Runs actL s₁ answer s₂ rest []) :
    Reaches actL actR ⟨s, r, [], []⟩ ⟨s₂, r₁, [], rest⟩ := by
  have h₁ : Reaches actL actR ⟨s, r, [], []⟩ ⟨s₁, r, ask, []⟩ := hask.left r []
  have h₂ : Reaches actL actR ⟨s₁, r, ask, []⟩ ⟨s₁, r₁, [], answer⟩ := hanswer.right s₁ []
  have h₃ : Reaches actL actR ⟨s₁, r₁, [], answer⟩ ⟨s₂, r₁, [], rest⟩ := htake.left r₁ []
  exact (h₁.trans h₂).trans h₃

end System

/-! ## Tracing -/

/-- A program state with what has been read in the current phase, and the history of the
phases left. -/
structure Traced (σ φ ι : Type*) where
  state : σ
  reading : List ι
  history : List (φ × List ι)

section Trace

variable [DecidableEq φ]

/-- Record a step to the state `s` in which the bytes `got` were read. -/
def Traced.move (phase : σ → φ) (t : Traced σ φ ι) (got : List ι) (s : σ) : Traced σ φ ι :=
  if phase s = phase t.state then ⟨s, t.reading ++ got, t.history⟩
  else ⟨s, [], t.history ++ [(phase t.state, t.reading ++ got)]⟩

/-- The traced program: bytes carry the phase of their sender, which the program itself does
not look at. -/
def traceAct (act : σ → Act σ ι ο) (phase : σ → φ) (t : Traced σ φ (χ × ι)) :
    Act (Traced σ φ (χ × ι)) (χ × ι) (φ × ο) :=
  match act t.state with
  | .send out s => .send (out.map fun b => (phase t.state, b)) (t.move phase [] s)
  | .recv next => .recv fun b => t.move phase [b] (next b.2)
  | .await s => .await (t.move phase [] s)
  | .tau s => .tau (t.move phase [] s)
  | .halt => .halt

theorem traceAct_of_halt {act : σ → Act σ ι ο} {phase : σ → φ} {t : Traced σ φ (χ × ι)}
    (h : act t.state = .halt) : traceAct act phase t = .halt := by
  rw [traceAct, h]

@[simp] theorem Traced.state_move (phase : σ → φ) (t : Traced σ φ ι) (got : List ι) (s : σ) :
    (t.move phase got s).state = s := by
  rw [move]
  split <;> rfl

theorem Traced.history_prefix_move (phase : σ → φ) (t : Traced σ φ ι) (got : List ι) (s : σ) :
    t.history <+: (t.move phase got s).history := by
  rw [move]
  split
  · exact List.prefix_refl _
  · exact List.prefix_append _ _

variable {act : σ → Act σ ι ο} {phase : σ → φ} {t : Traced σ φ (χ × ι)}
  {inbox : List (χ × ι)} {t' : Traced σ φ (χ × ι)} {inbox' : List (χ × ι)} {out : List (φ × ο)}

/-- What a step of the traced program is. -/
theorem traceAct_takes (h : (traceAct act phase t).perform inbox = some (t', inbox', out)) :
    ∃ got s, (act t.state).Takes (got.map Prod.snd) s ∧ inbox = got ++ inbox' ∧
      t' = t.move phase got s := by
  rw [traceAct] at h
  cases hact : act t.state with
  | send out s =>
    simp only [hact, Act.perform, Option.some.injEq, Prod.mk.injEq] at h
    obtain ⟨rfl, rfl, -⟩ := h
    exact ⟨[], s, .send out s, rfl, rfl⟩
  | recv next =>
    cases inbox with
    | nil => simp [hact, Act.perform] at h
    | cons b inbox =>
      simp only [hact, Act.perform, Option.some.injEq, Prod.mk.injEq] at h
      obtain ⟨rfl, rfl, -⟩ := h
      exact ⟨[b], next b.2, .recv next b.2, rfl, rfl⟩
  | await s =>
    cases inbox with
    | nil => simp [hact, Act.perform] at h
    | cons b inbox =>
      simp only [hact, Act.perform, Option.some.injEq, Prod.mk.injEq] at h
      obtain ⟨rfl, rfl, -⟩ := h
      exact ⟨[], s, .await s, rfl, rfl⟩
  | tau s =>
    simp only [hact, Act.perform, Option.some.injEq, Prod.mk.injEq] at h
    obtain ⟨rfl, rfl, -⟩ := h
    exact ⟨[], s, .tau s, rfl, rfl⟩
  | halt => simp [hact, Act.perform] at h

theorem traceAct_history (h : (traceAct act phase t).perform inbox = some (t', inbox', out)) :
    t.history <+: t'.history := by
  obtain ⟨got, s, -, -, rfl⟩ := traceAct_takes h
  exact t.history_prefix_move phase got s

theorem Runs.history_prefix (h : Runs (traceAct act phase) t inbox t' inbox' out) :
    t.history <+: t'.history := by
  induction h with
  | refl t inbox => exact List.prefix_refl _
  | head hstep _ ih => exact (traceAct_history hstep).trans ih

/-- Tracing changes nothing else: the step without the tags is a step of the program. -/
theorem traceAct_erase (h : (traceAct act phase t).perform inbox = some (t', inbox', out)) :
    (act t.state).perform (inbox.map Prod.snd) =
      some (t'.state, inbox'.map Prod.snd, out.map Prod.snd) := by
  rw [traceAct] at h
  cases hact : act t.state with
  | send out s =>
    simp only [hact, Act.perform, Option.some.injEq, Prod.mk.injEq] at h ⊢
    obtain ⟨rfl, rfl, rfl⟩ := h
    simp [Function.comp_def]
  | recv next =>
    cases inbox with
    | nil => simp [hact, Act.perform] at h
    | cons b inbox =>
      simp only [hact, Act.perform, Option.some.injEq, Prod.mk.injEq] at h
      obtain ⟨rfl, rfl, rfl⟩ := h
      simp [Act.perform]
  | await s =>
    cases inbox with
    | nil => simp [hact, Act.perform] at h
    | cons b inbox =>
      simp only [hact, Act.perform, Option.some.injEq, Prod.mk.injEq] at h
      obtain ⟨rfl, rfl, rfl⟩ := h
      simp [Act.perform]
  | tau s =>
    simp only [hact, Act.perform, Option.some.injEq, Prod.mk.injEq] at h ⊢
    obtain ⟨rfl, rfl, rfl⟩ := h
    simp
  | halt => simp [hact, Act.perform] at h

/-- A step of the program on the bytes without their tags is a step of the traced one. -/
theorem exists_traceAct (phase : σ → φ) {s : σ} {inbox₁ : List ι} {out₁ : List ο}
    (h : (act t.state).perform (inbox.map Prod.snd) = some (s, inbox₁, out₁)) :
    ∃ t' inbox' out, (traceAct act phase t).perform inbox = some (t', inbox', out) := by
  rw [traceAct]
  cases hact : act t.state with
  | send out s => exact ⟨_, _, _, rfl⟩
  | recv next =>
    cases inbox with
    | nil => simp [hact, Act.perform] at h
    | cons b inbox => exact ⟨_, _, _, rfl⟩
  | await s =>
    cases inbox with
    | nil => simp [hact, Act.perform] at h
    | cons b inbox => exact ⟨_, _, _, rfl⟩
  | tau s => exact ⟨_, _, _, rfl⟩
  | halt => simp [hact, Act.perform] at h

/-! ### Single steps -/

section Single

variable {s s' : σ} {reading : List (χ × ι)} {history : List (φ × List (χ × ι))}

theorem Runs.send_stay {o : List ο} (ha : act s = .send o s') (hp : phase s' = phase s)
    (h : Runs (traceAct act phase) ⟨s', reading, history⟩ inbox t' inbox' out) :
    Runs (traceAct act phase) ⟨s, reading, history⟩ inbox t' inbox'
      (o.map (fun b => (phase s, b)) ++ out) := by
  refine Runs.head ?_ h
  simp [traceAct, ha, Act.perform, Traced.move, hp]

theorem Runs.send_leave {o : List ο} (ha : act s = .send o s') (hp : phase s' ≠ phase s)
    (h : Runs (traceAct act phase) ⟨s', [], history ++ [(phase s, reading)]⟩ inbox t' inbox' out) :
    Runs (traceAct act phase) ⟨s, reading, history⟩ inbox t' inbox'
      (o.map (fun b => (phase s, b)) ++ out) := by
  refine Runs.head ?_ h
  simp [traceAct, ha, Act.perform, Traced.move, hp]

theorem Runs.recv_stay {next : ι → σ} {b : χ × ι} (ha : act s = .recv next)
    (hp : phase (next b.2) = phase s)
    (h : Runs (traceAct act phase) ⟨next b.2, reading ++ [b], history⟩ inbox t' inbox' out) :
    Runs (traceAct act phase) ⟨s, reading, history⟩ (b :: inbox) t' inbox' out := by
  refine Runs.head_silent ?_ h
  simp [traceAct, ha, Act.perform, Traced.move, hp]

theorem Runs.recv_leave {next : ι → σ} {b : χ × ι} (ha : act s = .recv next)
    (hp : phase (next b.2) ≠ phase s)
    (h : Runs (traceAct act phase) ⟨next b.2, [], history ++ [(phase s, reading ++ [b])]⟩ inbox
      t' inbox' out) :
    Runs (traceAct act phase) ⟨s, reading, history⟩ (b :: inbox) t' inbox' out := by
  refine Runs.head_silent ?_ h
  simp [traceAct, ha, Act.perform, Traced.move, hp]

theorem Runs.await_leave {b : χ × ι} (ha : act s = .await s') (hp : phase s' ≠ phase s)
    (h : Runs (traceAct act phase) ⟨s', [], history ++ [(phase s, reading)]⟩ (b :: inbox)
      t' inbox' out) :
    Runs (traceAct act phase) ⟨s, reading, history⟩ (b :: inbox) t' inbox' out := by
  refine Runs.head_silent ?_ h
  simp [traceAct, ha, Act.perform, Traced.move, hp]

theorem Runs.tau_leave (ha : act s = .tau s') (hp : phase s' ≠ phase s)
    (h : Runs (traceAct act phase) ⟨s', [], history ++ [(phase s, reading)]⟩ inbox
      t' inbox' out) :
    Runs (traceAct act phase) ⟨s, reading, history⟩ inbox t' inbox' out := by
  refine Runs.head_silent ?_ h
  simp [traceAct, ha, Act.perform, Traced.move, hp]

end Single

/-! ### Phases that read what they should -/

/-- In every phase of the history exactly the expected bytes were read. -/
def Reads (expected : φ → List (χ × ι)) (history : List (φ × List (χ × ι))) : Prop :=
  ∀ e ∈ history, e.2 = expected e.1

/-- The traced program gets from the beginning of a phase to the beginning of another, and
reads what is expected in the phases that it leaves. -/
def Conforms (act : σ → Act σ ι ο) (phase : σ → φ) (expected : φ → List (χ × ι)) (s : σ)
    (inbox : List (χ × ι)) (s' : σ) (inbox' : List (χ × ι)) (out : List (φ × ο)) : Prop :=
  ∀ history, Reads expected history → ∃ history', Reads expected history' ∧
    Runs (traceAct act phase) ⟨s, [], history⟩ inbox ⟨s', [], history'⟩ inbox' out

variable {expected : φ → List (χ × ι)} {s s₁ s₂ : σ}

/-- A single phase that reads what is expected. -/
theorem Conforms.of_leave (h : ∀ history, Runs (traceAct act phase) ⟨s, [], history⟩ inbox
    ⟨s₁, [], history ++ [(phase s, expected (phase s))]⟩ inbox' out) :
    Conforms act phase expected s inbox s₁ inbox' out := by
  intro history hreads
  refine ⟨_, ?_, h history⟩
  intro e he
  cases List.mem_append.mp he with
  | inl he => exact hreads e he
  | inr he =>
    rw [List.mem_singleton.mp he]

theorem Conforms.trans {inbox₁ inbox₂ : List (χ × ι)} {out' : List (φ × ο)}
    (h : Conforms act phase expected s inbox s₁ inbox₁ out)
    (h' : Conforms act phase expected s₁ inbox₁ s₂ inbox₂ out') :
    Conforms act phase expected s inbox s₂ inbox₂ (out ++ out') := by
  intro history hreads
  obtain ⟨history₁, hreads₁, hruns₁⟩ := h history hreads
  obtain ⟨history₂, hreads₂, hruns₂⟩ := h' history₁ hreads₁
  exact ⟨history₂, hreads₂, hruns₁.trans hruns₂⟩

end Trace

/-! ### Both programs traced -/

section TracedSystem

variable [DecidableEq φ] [DecidableEq χ] {actL : σ → Act σ ι ο} {actR : τ → Act τ ο ι}
  {phaseL : σ → φ} {phaseR : τ → χ}

/-- A configuration of the two traced programs. -/
abbrev TracedConfig (σ τ ι ο φ χ : Type*) :=
  Config (Traced σ φ (χ × ι)) (Traced τ χ (φ × ο)) (χ × ι) (φ × ο)

/-- The configuration without tags and histories. -/
def TracedConfig.erase (c : TracedConfig σ τ ι ο φ χ) : Config σ τ ι ο :=
  ⟨c.left.state, c.right.state, c.toRight.map Prod.snd, c.toLeft.map Prod.snd⟩

/-- Both programs at the beginning of their first phase, and nothing on the way. -/
def TracedConfig.start (s : σ) (r : τ) : TracedConfig σ τ ι ο φ χ :=
  ⟨⟨s, [], []⟩, ⟨r, [], []⟩, [], []⟩

variable {c d : TracedConfig σ τ ι ο φ χ}

theorem Step.erase (h : Step (traceAct actL phaseL) (traceAct actR phaseR) c d) :
    Step actL actR (TracedConfig.erase c) (TracedConfig.erase d) := by
  cases h with
  | left h =>
    simp only [TracedConfig.erase, List.map_append]
    exact Step.left (traceAct_erase h)
  | right h =>
    simp only [TracedConfig.erase, List.map_append]
    exact Step.right (traceAct_erase h)

theorem Reaches.erase (h : Reaches (traceAct actL phaseL) (traceAct actR phaseR) c d) :
    Reaches actL actR (TracedConfig.erase c) (TracedConfig.erase d) :=
  ReflTransGen.lift TracedConfig.erase (fun _ _ hstep => Step.erase hstep) _ _ h

/-- Every step of the two programs is a step of the traced ones. -/
theorem Step.exists_traced (phaseL : σ → φ) (phaseR : τ → χ) {e : Config σ τ ι ο}
    (h : Step actL actR (TracedConfig.erase c) e) :
    ∃ d, Step (traceAct actL phaseL) (traceAct actR phaseR) c d ∧
      TracedConfig.erase d = e := by
  obtain ⟨l, r, toRight, toLeft⟩ := c
  cases h with
  | left h =>
    obtain ⟨l', toLeft', out, ht⟩ := exists_traceAct phaseL h
    have he := Option.some.inj ((traceAct_erase ht).symm.trans h)
    simp only [Prod.mk.injEq] at he
    obtain ⟨rfl, rfl, rfl⟩ := he
    exact ⟨_, Step.left ht, by simp [TracedConfig.erase]⟩
  | right h =>
    obtain ⟨r', toRight', out, ht⟩ := exists_traceAct phaseR h
    have he := Option.some.inj ((traceAct_erase ht).symm.trans h)
    simp only [Prod.mk.injEq] at he
    obtain ⟨rfl, rfl, rfl⟩ := he
    exact ⟨_, Step.right ht, by simp [TracedConfig.erase]⟩

/-- Every run of the two programs is a run of the traced ones. -/
theorem Reaches.exists_traced (phaseL : σ → φ) (phaseR : τ → χ) {e : Config σ τ ι ο}
    (h : Reaches actL actR (TracedConfig.erase c) e) :
    ∃ d, Reaches (traceAct actL phaseL) (traceAct actR phaseR) c d ∧
      TracedConfig.erase d = e := by
  induction h with
  | refl => exact ⟨c, ReflTransGen.refl, rfl⟩
  | tail _ hstep ih =>
    obtain ⟨d, hd, rfl⟩ := ih
    obtain ⟨d', hd', he⟩ := hstep.exists_traced phaseL phaseR
    exact ⟨d', hd.tail hd', he⟩

theorem Reaches.history_prefix
    (h : Reaches (traceAct actL phaseL) (traceAct actR phaseR) c d) :
    c.left.history <+: d.left.history ∧ c.right.history <+: d.right.history := by
  induction h with
  | refl => exact ⟨List.prefix_refl _, List.prefix_refl _⟩
  | tail _ hstep ih =>
    cases hstep with
    | left h => exact ⟨ih.1.trans (traceAct_history h), ih.2⟩
    | right h => exact ⟨ih.1, ih.2.trans (traceAct_history h)⟩

variable {expectedL : φ → List (χ × ι)} {expectedR : χ → List (φ × ο)}

/-- Both programs are at the beginning of a phase, with nothing on the way to the right and
`rest` on the way to the left, and have read what is expected in all earlier phases. -/
structure Meets (expectedL : φ → List (χ × ι)) (expectedR : χ → List (φ × ο)) (s : σ) (r : τ)
    (rest : List (χ × ι)) (c : TracedConfig σ τ ι ο φ χ) : Prop where
  left_state : c.left.state = s
  left_reading : c.left.reading = []
  left_reads : Reads expectedL c.left.history
  right_state : c.right.state = r
  right_reading : c.right.reading = []
  right_reads : Reads expectedR c.right.history
  toRight : c.toRight = []
  toLeft : c.toLeft = rest

omit [DecidableEq φ] [DecidableEq χ] in
theorem Meets.start (s : σ) (r : τ) :
    Meets expectedL expectedR s r [] (TracedConfig.start s r) :=
  ⟨rfl, rfl, fun _ he => absurd he (by simp [TracedConfig.start]), rfl, rfl,
    fun _ he => absurd he (by simp [TracedConfig.start]), rfl, rfl⟩

/-- A round trip of conforming programs leads from one meeting to the next. -/
theorem Conforms.roundTrip {s s₁ s₂ : σ} {r r₁ : τ} {ask : List (φ × ο)}
    {answer rest : List (χ × ι)}
    (hask : Conforms actL phaseL expectedL s [] s₁ [] ask)
    (hanswer : Conforms actR phaseR expectedR r ask r₁ [] answer)
    (htake : Conforms actL phaseL expectedL s₁ answer s₂ rest [])
    (hc : Meets expectedL expectedR s r [] c) :
    ∃ d, Reaches (traceAct actL phaseL) (traceAct actR phaseR) c d ∧
      Meets expectedL expectedR s₂ r₁ rest d := by
  obtain ⟨⟨_, _, historyL⟩, ⟨_, _, historyR⟩, _, _⟩ := c
  obtain ⟨rfl, rfl, hreadsL, rfl, rfl, hreadsR, rfl, rfl⟩ := hc
  obtain ⟨historyL₁, hreadsL₁, hrunsL₁⟩ := hask historyL hreadsL
  obtain ⟨historyR₁, hreadsR₁, hrunsR₁⟩ := hanswer historyR hreadsR
  obtain ⟨historyL₂, hreadsL₂, hrunsL₂⟩ := htake historyL₁ hreadsL₁
  exact ⟨_, hrunsL₁.roundTrip hrunsR₁ hrunsL₂,
    ⟨rfl, rfl, hreadsL₂, rfl, rfl, hreadsR₁, rfl, rfl⟩⟩

end TracedSystem

end TwoParty
