import NaiveGfs.Programs.Contract

/-!
# Programs that return early

A C function with a `return` in its middle is a program over `ExceptT`: the exception is what
the function returns before its end. A contract of such a program has one postcondition for
the statement behind it and one for the early returns.
-/

namespace Programs

variable {σ ε α β : Type}

/-- From a state with `pre`, the program goes on with a result and in a state with `post`, or
the function has returned with `early`. -/
structure Continues (pre : σ → Prop) (program : ExceptT ε (StateM σ) α) (post : α → σ → Prop)
    (early : ε → σ → Prop) : Prop where
  contract : Contract pre program.run fun out s =>
    match out with
    | .ok a => post a s
    | .error e => early e s

namespace Continues

variable {pre : σ → Prop} {post post' : α → σ → Prop} {early : ε → σ → Prop}
  {program : ExceptT ε (StateM σ) α}

theorem strengthen_post (h : Continues pre program post early)
    (hpost : ∀ a s, post a s → post' a s) : Continues pre program post' early := by
  refine ⟨h.contract.strengthen_post fun out s hs => ?_⟩
  cases out with
  | ok a => exact hpost a s hs
  | error e => exact hs

theorem pure {a : α} (h : ∀ s, pre s → post a s) :
    Continues pre (Pure.pure a : ExceptT ε (StateM σ) α) post early :=
  ⟨h⟩

theorem throw {e : ε} (h : ∀ s, pre s → early e s) :
    Continues pre (throw e : ExceptT ε (StateM σ) α) post early :=
  ⟨h⟩

/-- A statement that does not return. -/
theorem lift {program : StateM σ α} (h : Contract pre program post) :
    Continues pre (ExceptT.lift program : ExceptT ε (StateM σ) α) post early :=
  ⟨h⟩

theorem bind {m : α → σ → Prop} {rest : α → ExceptT ε (StateM σ) β} {last : β → σ → Prop}
    (h : Continues pre program m early) (hrest : ∀ a, Continues (m a) (rest a) last early) :
    Continues pre (program >>= rest) last early := by
  constructor
  change Contract pre (program.run >>= ExceptT.bindCont rest) _
  refine Contract.bind h.contract fun out => ?_
  cases out with
  | ok a => exact (hrest a).contract
  | error e => exact Contract.pure fun _ hs => hs

/-- From one state, what the program has gone on with is known. -/
theorem result (h : Continues pre program post early) {s₀ : σ} (hpre : pre s₀) :
    Continues (fun s => s = s₀) program
      (fun a s => (program.run s₀).1 = .ok a ∧ post a s) early := by
  constructor
  rintro s rfl
  have hout := h.contract s hpre
  cases hrun : (program.run s).1 with
  | ok a =>
    rw [hrun] at hout
    exact ⟨rfl, hout⟩
  | error e =>
    rw [hrun] at hout
    exact hout

/-- What the precondition says apart from the state can be assumed. -/
theorem of_fact {c : Prop} (h : c → Continues pre program post early) :
    Continues (fun s => c ∧ pre s) program post early :=
  ⟨Contract.of_fact fun hc => (h hc).contract⟩

theorem ite {c : Prop} [Decidable c] {other : ExceptT ε (StateM σ) α}
    (hthen : c → Continues pre program post early)
    (helse : ¬ c → Continues pre other post early) :
    Continues pre (if c then program else other) post early := by
  by_cases hc : c
  · rw [if_pos hc]
    exact hthen hc
  · rw [if_neg hc]
    exact helse hc

end Continues

end Programs
