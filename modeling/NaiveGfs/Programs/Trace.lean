import Mathlib.Data.List.Induction

/-!
# Traces of a labelled step relation

The events of a run in their order. A simulation is proved for one step and holds of whole
traces; where the step needs a guard, the guard has to hold wherever the abstract system can
be after the events so far.
-/

namespace Transitions

variable {σ τ ε ω : Type*}

/-- A run with its events, oldest first. -/
inductive Trace (step : σ → ε → σ → Prop) (s : σ) : List ε → σ → Prop
  | nil : Trace step s [] s
  | snoc {es : List ε} {s₁ s₂ : σ} {e : ε} (hrun : Trace step s es s₁) (hstep : step s₁ e s₂) :
      Trace step s (es ++ [e]) s₂

variable {step : σ → ε → σ → Prop} {s s' m : σ} {es xs ys : List ε} {e : ε}

theorem Trace.nil_iff : Trace step s [] s' ↔ s' = s := by
  refine ⟨fun h => ?_, fun h => h ▸ .nil⟩
  generalize hes : ([] : List ε) = es at h
  cases h with
  | nil => rfl
  | snoc _ _ => simp at hes

theorem Trace.snoc_iff :
    Trace step s (es ++ [e]) s' ↔ ∃ m, Trace step s es m ∧ step m e s' := by
  refine ⟨fun h => ?_, fun ⟨m, hrun, hstep⟩ => .snoc hrun hstep⟩
  generalize hes : es ++ [e] = fs at h
  cases h with
  | nil => simp at hes
  | snoc hrun hstep =>
    obtain ⟨rfl, he⟩ := List.append_inj' hes rfl
    obtain rfl : e = _ := List.singleton_inj.mp he
    exact ⟨_, hrun, hstep⟩

/-- A trace may be cut anywhere. -/
theorem Trace.append_iff :
    Trace step s (xs ++ ys) s' ↔ ∃ m, Trace step s xs m ∧ Trace step m ys s' := by
  induction ys using List.reverseRecOn generalizing s' with
  | nil =>
    rw [List.append_nil]
    constructor
    · exact fun h => ⟨s', h, .nil⟩
    · rintro ⟨m, hxs, hnil⟩
      exact Trace.nil_iff.mp hnil ▸ hxs
  | append_singleton ys y ih =>
    rw [← List.append_assoc, Trace.snoc_iff]
    constructor
    · rintro ⟨m₂, hrun, hstep⟩
      obtain ⟨m₁, hxs, hys⟩ := ih.mp hrun
      exact ⟨m₁, hxs, .snoc hys hstep⟩
    · rintro ⟨m₁, hxs, hrun⟩
      obtain ⟨m₂, hys, hstep⟩ := Trace.snoc_iff.mp hrun
      exact ⟨m₂, ih.mpr ⟨m₁, hxs, hys⟩, hstep⟩

/-- The state in front of an event and the state behind it. -/
theorem Trace.at_event (h : Trace step s (xs ++ e :: ys) s') :
    ∃ m m', Trace step s xs m ∧ step m e m' ∧ Trace step m' ys s' := by
  rw [List.append_cons] at h
  obtain ⟨m', hxs, hys⟩ := Trace.append_iff.mp h
  obtain ⟨m, hxs, hstep⟩ := Trace.snoc_iff.mp hxs
  exact ⟨m, m', hxs, hstep, hys⟩

/-- Forward simulation: where each step is matched by an abstract step, a trace is an abstract
trace. The guard of an event may use what the events in front of it have done. -/
theorem Trace.simulate {step' : τ → ω → τ → Prop} {op : ε → ω} {rel : σ → τ → Prop}
    {guard : τ → ε → Prop}
    (hstep : ∀ s e s' t, rel s t → guard t e → step s e s' → ∃ t', step' t (op e) t' ∧ rel s' t')
    {t : τ} (hrel : rel s t) (h : Trace step s es s')
    (hguard : ∀ pre e post t', es = pre ++ e :: post → Trace step' t (pre.map op) t' →
      guard t' e) : ∃ t', Trace step' t (es.map op) t' ∧ rel s' t' := by
  induction h with
  | nil => exact ⟨t, .nil, hrel⟩
  | @snoc es s₁ s₂ e _ hlast ih =>
    obtain ⟨t₁, hrun, hrel₁⟩ := ih fun pre e' post t' hes hpre =>
      hguard pre e' (post ++ [e]) t' (by rw [hes, List.append_assoc, List.cons_append]) hpre
    obtain ⟨t₂, hnext, hrel₂⟩ := hstep _ _ _ _ hrel₁ (hguard es e [] t₁ rfl hrun) hlast
    refine ⟨t₂, ?_, hrel₂⟩
    rw [List.map_append, List.map_singleton]
    exact .snoc hrun hnext

end Transitions
