import Mathlib.Algebra.Order.Ring.Int
import Mathlib.Tactic.Common

/-!
# Contracts of programs over a state

A program is a value of `StateM σ α`. A contract says what its result and the state after
it satisfy when the state before it satisfies the precondition; the rules follow the way
programs are put together, with one rule for each of the two loops defined here: a bounded
wait and a loop that counts upwards.

## Main definitions

- `Contract` : `{pre} program {post}`
- `poll` : `while (cond && cnt--) wait;`
- `countUp` : `for (d = 0; d < n; d++) body`
- `Alike` : two programs that do the same on related states
-/

namespace Programs

variable {σ τ α β : Type}

/-! ## Loops -/

/-- `while (cond && cnt--) wait;`, with the `cnt` that it leaves: `-1` when the loop was
left because `cnt` had run out. -/
def poll (cond : StateM σ Bool) (wait : StateM σ Unit) : ℕ → StateM σ ℤ
  | 0 => do
    let again ← cond
    pure (if again then -1 else 0)
  | cnt + 1 => do
    let again ← cond
    if again then do
      wait
      poll cond wait cnt
    else pure (cnt + 1)

/-- `for (d = 0; d < n; d++) body`, over the value the body works on. -/
def countUp (body : ℕ → β → StateM σ β) : ℕ → β → StateM σ β
  | 0, b => pure b
  | n + 1, b => do
    let b ← countUp body n b
    body n b

/-! ## Contracts -/

/-- From a state with `pre`, the program ends with a result and in a state with `post`. -/
def Contract (pre : σ → Prop) (program : StateM σ α) (post : α → σ → Prop) : Prop :=
  ∀ s, pre s → post (program s).1 (program s).2

namespace Contract

variable {pre pre' : σ → Prop} {post post' : α → σ → Prop} {program : StateM σ α}

theorem consequence (h : Contract pre program post) (hpre : ∀ s, pre' s → pre s)
    (hpost : ∀ a s, post a s → post' a s) : Contract pre' program post' :=
  fun s hs => hpost _ _ (h s (hpre s hs))

theorem weaken_pre (h : Contract pre program post) (hpre : ∀ s, pre' s → pre s) :
    Contract pre' program post :=
  h.consequence hpre fun _ _ hpost => hpost

theorem strengthen_post (h : Contract pre program post) (hpost : ∀ a s, post a s → post' a s) :
    Contract pre program post' :=
  h.consequence (fun _ hpre => hpre) hpost

theorem pure {a : α} (h : ∀ s, pre s → post a s) :
    Contract pre (Pure.pure a : StateM σ α) post :=
  h

theorem bind {m : α → σ → Prop} {rest : α → StateM σ β} {last : β → σ → Prop}
    (h : Contract pre program m) (hrest : ∀ a, Contract (m a) (rest a) last) :
    Contract pre (program >>= rest) last :=
  fun s hs => hrest _ _ (h s hs)

theorem ite {c : Prop} [Decidable c] {other : StateM σ α}
    (hthen : c → Contract pre program post) (helse : ¬ c → Contract pre other post) :
    Contract pre (if c then program else other) post := by
  by_cases hc : c
  · rw [if_pos hc]
    exact hthen hc
  · rw [if_neg hc]
    exact helse hc

/-- What the precondition says apart from the state can be assumed. -/
theorem of_fact {c : Prop} (h : c → Contract pre program post) :
    Contract (fun s => c ∧ pre s) program post :=
  fun s hs => h hs.1 s hs.2

/-- A bounded wait: what the condition keeps, and what it shows when it fails. -/
theorem poll {p d : σ → Prop} {cond : StateM σ Bool} {wait : StateM σ Unit}
    (hcond : Contract p cond (fun again s => p s ∧ (again = false → d s)))
    (hwait : Contract p wait (fun _ s => p s)) (cnt : ℕ) :
    Contract p (poll cond wait cnt) (fun left s => p s ∧ (0 ≤ left → d s)) := by
  induction cnt with
  | zero =>
    refine bind hcond fun again => pure fun s hs => ⟨hs.1, fun hleft => hs.2 ?_⟩
    cases again with
    | false => rfl
    | true => simp at hleft
  | succ cnt ih =>
    refine bind hcond fun again => ite (fun _ => ?_) (fun hagain => ?_)
    · refine bind (hwait.weaken_pre fun _ hs => hs.1) fun _ => ?_
      exact ih
    · exact pure fun s hs => ⟨hs.1, fun _ => hs.2 (by simpa using hagain)⟩

/-- A wait that ends when it begins. -/
theorem poll_atOnce {d : σ → Prop} {cond : StateM σ Bool} {wait : StateM σ Unit}
    (hcond : Contract pre cond (fun again s => again = false ∧ d s)) (cnt : ℕ) :
    Contract pre (Programs.poll cond wait cnt) (fun left s => left = cnt ∧ d s) := by
  intro s hs
  obtain ⟨hagain, hd⟩ := hcond s hs
  cases cnt with
  | zero =>
    change (if (cond s).1 then -1 else 0 : ℤ) = 0 ∧ d (cond s).2
    rw [hagain]
    exact ⟨rfl, hd⟩
  | succ cnt =>
    change ((if (cond s).1 then _ else Pure.pure (cnt + 1 : ℤ) : StateM σ ℤ) (cond s).2).1 = _ ∧
      d ((if (cond s).1 then _ else Pure.pure (cnt + 1 : ℤ) : StateM σ ℤ) (cond s).2).2
    rw [hagain]
    exact ⟨rfl, hd⟩

/-- A wait whose condition always holds runs out. -/
theorem poll_never {p : σ → Prop} {cond : StateM σ Bool} {wait : StateM σ Unit}
    (hcond : Contract p cond (fun again s => again = true ∧ p s))
    (hwait : Contract p wait (fun _ s => p s)) (cnt : ℕ) :
    Contract p (Programs.poll cond wait cnt) (fun left s => left = -1 ∧ p s) := by
  induction cnt with
  | zero =>
    refine bind hcond fun again => of_fact fun hagain => pure fun s hs => ?_
    rw [hagain]
    exact ⟨rfl, hs⟩
  | succ cnt ih =>
    refine bind hcond fun again => of_fact fun hagain => ite (fun _ => ?_) fun hnot => ?_
    · exact bind hwait fun _ => ih
    · exact absurd hagain hnot

/-- A loop that counts upwards: what one round makes of the invariant. -/
theorem countUp {p : ℕ → β → σ → Prop} {f : ℕ → β → StateM σ β} {n : ℕ}
    (hf : ∀ d < n, ∀ b, Contract (p d b) (f d b) (p (d + 1))) {b : β} :
    Contract (p 0 b) (countUp f n b) (p n) := by
  induction n with
  | zero => exact pure fun _ hs => hs
  | succ n ih => exact bind (ih fun d hd => hf d (by omega)) fun b => hf n (by omega) b

end Contract

/-! ## Programs that do the same -/

/-- On related states the programs have the same result and leave related states. -/
def Alike (rel : σ → τ → Prop) (program : StateM σ α) (other : StateM τ α) : Prop :=
  ∀ s t, rel s t → (program s).1 = (other t).1 ∧ rel (program s).2 (other t).2

namespace Alike

variable {rel : σ → τ → Prop}

theorem pure (a : α) : Alike rel (Pure.pure a : StateM σ α) (Pure.pure a : StateM τ α) :=
  fun _ _ h => ⟨rfl, h⟩

theorem bind {program : StateM σ α} {other : StateM τ α} {rest : α → StateM σ β}
    {rest' : α → StateM τ β} (h : Alike rel program other)
    (hrest : ∀ a, Alike rel (rest a) (rest' a)) :
    Alike rel (program >>= rest) (other >>= rest') := by
  intro s t hst
  obtain ⟨he, hrel⟩ := h s t hst
  have hnext := hrest (other t).1 (program s).2 (other t).2 hrel
  change (rest (program s).1 (program s).2).1 = _ ∧ rel (rest (program s).1 (program s).2).2 _
  rw [he]
  exact hnext

theorem ite {c : Prop} [Decidable c] {program program₂ : StateM σ α}
    {other other₂ : StateM τ α} (hthen : Alike rel program other)
    (helse : Alike rel program₂ other₂) :
    Alike rel (if c then program else program₂) (if c then other else other₂) := by
  by_cases hc : c
  · rw [if_pos hc, if_pos hc]
    exact hthen
  · rw [if_neg hc, if_neg hc]
    exact helse

theorem poll {cond : StateM σ Bool} {cond' : StateM τ Bool} {wait : StateM σ Unit}
    {wait' : StateM τ Unit} (hcond : Alike rel cond cond') (hwait : Alike rel wait wait')
    (cnt : ℕ) : Alike rel (poll cond wait cnt) (Programs.poll cond' wait' cnt) := by
  induction cnt with
  | zero => exact bind hcond fun _ => pure _
  | succ cnt ih => exact bind hcond fun _ => ite (bind hwait fun _ => ih) (pure _)

theorem countUp {body : ℕ → β → StateM σ β} {body' : ℕ → β → StateM τ β}
    (hbody : ∀ d b, Alike rel (body d b) (body' d b)) (n : ℕ) (b : β) :
    Alike rel (countUp body n b) (Programs.countUp body' n b) := by
  induction n with
  | zero => exact pure _
  | succ n ih => exact bind ih fun b => hbody n b

end Alike

end Programs
