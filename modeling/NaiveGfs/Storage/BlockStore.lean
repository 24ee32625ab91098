import Mathlib.Logic.Function.Basic
import Mathlib.Data.List.Basic
import Mathlib.Data.List.Induction

/-!
# Block stores and the writes issued to them

A store is a base image together with the log of block writes issued since. Its current
contents are the replay of the log, and the contents after a cut are the replay of a
prefix of it. Two relations between an earlier and a later state of a store carry the
reasoning: `Touches T`, every write issued in between lies in `T`, and `Through P`, every
disk that a cut in between can leave satisfies `P`. Both hold of a sequence of operations
as soon as they hold of each operation.
-/

namespace BlockStore

variable {ι β : Type*}

section Replay

variable [DecidableEq ι]

/-- Apply a list of block writes, oldest first. -/
def replay (ws : List (ι × β)) (d : ι → β) : ι → β :=
  ws.foldl (fun d w => Function.update d w.1 w.2) d

theorem replay_append (ws vs : List (ι × β)) (d : ι → β) :
    replay (ws ++ vs) d = replay vs (replay ws d) :=
  List.foldl_append

theorem replay_concat (ws : List (ι × β)) (w : ι × β) (d : ι → β) :
    replay (ws ++ [w]) d = Function.update (replay ws d) w.1 w.2 := by
  rw [replay_append]
  rfl

/-- A block that no write names keeps its contents. -/
theorem replay_of_notMem {ws : List (ι × β)} {i : ι} (h : ∀ w ∈ ws, w.1 ≠ i) (d : ι → β) :
    replay ws d i = d i := by
  induction ws generalizing d with
  | nil => rfl
  | cons w ws ih =>
    have hw : i ≠ w.1 := fun he => h w (by simp) he.symm
    have hrest := ih (fun v hv => h v (by simp [hv])) (Function.update d w.1 w.2)
    rw [Function.update_of_ne hw] at hrest
    exact hrest

/-- A block holds what the last write to it brought. -/
theorem replay_last {vs : List (ι × β)} {i : ι} (h : ∀ w ∈ vs, w.1 ≠ i) (ws : List (ι × β))
    (b : β) (d : ι → β) : replay (ws ++ (i, b) :: vs) d i = b := by
  rw [← List.singleton_append, ← List.append_assoc, replay_append, replay_of_notMem h,
    replay_concat, Function.update_self]

/-- One write for each of some items, to blocks that are told apart by the items. -/
theorem replay_map_of_mem {α : Type*} {f : α → ι} {g : α → β} {xs : List α} {x : α}
    (hinj : ∀ y ∈ xs, f y = f x → y = x) (hx : x ∈ xs) (d : ι → β) :
    replay (xs.map fun y => (f y, g y)) d (f x) = g x := by
  induction xs using List.reverseRecOn with
  | nil => simp at hx
  | append_singleton xs y ih =>
    rw [List.map_append, List.map_singleton, replay_concat]
    by_cases hy : f y = f x
    · rw [hinj y (by simp) hy, Function.update_self]
    · rw [Function.update_of_ne (Ne.symm hy)]
      refine ih (fun z hz => hinj z (List.mem_append_left [y] hz)) ?_
      rcases List.mem_append.mp hx with hx | hx
      · exact hx
      · exact absurd (congrArg f (List.mem_singleton.mp hx)).symm hy

end Replay

/-- A prefix of `xs ++ ys` is a prefix of `xs`, or all of `xs` and a prefix of `ys`. -/
theorem prefix_append_cases {α : Type*} {p xs ys : List α} (h : p <+: xs ++ ys) :
    p <+: xs ∨ ∃ q, p = xs ++ q ∧ q <+: ys := by
  rcases List.prefix_or_prefix_of_prefix h (List.prefix_append xs ys) with hp | ⟨q, rfl⟩
  · exact Or.inl hp
  · exact Or.inr ⟨q, rfl, (List.prefix_append_right_inj xs).mp h⟩

/-- A base image and the log of writes issued to it, oldest first. -/
structure Store (ι β : Type*) where
  image : ι → β
  log : List (ι × β)

namespace Store

/-- Issue one write. -/
def write (s : Store ι β) (i : ι) (b : β) : Store ι β := { s with log := s.log ++ [(i, b)] }

/-- `s'` is `s` after exactly the writes `ws`. -/
structure Issues (s s' : Store ι β) (ws : List (ι × β)) : Prop where
  image_eq : s'.image = s.image
  log_eq : s'.log = s.log ++ ws

theorem Issues.refl (s : Store ι β) : Issues s s [] := ⟨rfl, by simp⟩

theorem Issues.write (s : Store ι β) (i : ι) (b : β) : Issues s (s.write i b) [(i, b)] :=
  ⟨rfl, rfl⟩

theorem Issues.trans {s₁ s₂ s₃ : Store ι β} {ws vs : List (ι × β)} (h : Issues s₁ s₂ ws)
    (h' : Issues s₂ s₃ vs) : Issues s₁ s₃ (ws ++ vs) :=
  ⟨h'.image_eq.trans h.image_eq, by rw [h'.log_eq, h.log_eq, List.append_assoc]⟩

/-- The writes between two states of a store are determined by the states. -/
theorem Issues.unique {s s' : Store ι β} {ws vs : List (ι × β)} (h : Issues s s' ws)
    (h' : Issues s s' vs) : ws = vs :=
  List.append_cancel_left (h.log_eq.symm.trans h'.log_eq)

/-! ### Writes confined to a set of blocks -/

/-- Every write issued from `s` to `s'` names a block in `T`. -/
def Touches (T : ι → Prop) (s s' : Store ι β) : Prop :=
  ∃ ws, Issues s s' ws ∧ ∀ w ∈ ws, T w.1

variable {T T' : ι → Prop} {s s₁ s₂ s₃ : Store ι β}

theorem Touches.refl : Touches T s s := ⟨[], Issues.refl s, by simp⟩

theorem Touches.write {i : ι} (h : T i) (b : β) : Touches T s (s.write i b) :=
  ⟨_, Issues.write s i b, by simpa using h⟩

theorem Touches.trans (h : Touches T s₁ s₂) (h' : Touches T s₂ s₃) : Touches T s₁ s₃ := by
  obtain ⟨ws, hws, hin⟩ := h
  obtain ⟨vs, hvs, hin'⟩ := h'
  refine ⟨ws ++ vs, hws.trans hvs, fun w hw => ?_⟩
  cases List.mem_append.mp hw with
  | inl hw => exact hin w hw
  | inr hw => exact hin' w hw

theorem Touches.mono (hsub : ∀ i, T i → T' i) (h : Touches T s₁ s₂) : Touches T' s₁ s₂ := by
  obtain ⟨ws, hissues, hws⟩ := h
  exact ⟨ws, hissues, fun w hw => hsub _ (hws w hw)⟩

/-! ### Current contents -/

variable [DecidableEq ι]

/-- What the blocks hold now. -/
def current (s : Store ι β) : ι → β := replay s.log s.image

@[simp] theorem current_write (s : Store ι β) (i : ι) (b : β) :
    (s.write i b).current = Function.update s.current i b :=
  replay_concat s.log (i, b) s.image

theorem Issues.current_eq {ws : List (ι × β)} (h : Issues s₁ s₂ ws) :
    s₂.current = replay ws s₁.current := by
  rw [current, h.image_eq, h.log_eq, replay_append]
  rfl

/-- The contents after a loop that writes one block in each round. -/
theorem current_foldl_write {α : Type*} (f : α → ι) (g : α → β) (xs : List α) (s : Store ι β) :
    (xs.foldl (fun s x => s.write (f x) (g x)) s).current =
      replay (xs.map fun x => (f x, g x)) s.current := by
  induction xs generalizing s with
  | nil => rfl
  | cons x xs ih =>
    rw [List.foldl_cons, ih, current_write]
    rfl

/-- The frame rule: a block outside `T` keeps its contents. -/
theorem Touches.current_eq (h : Touches T s₁ s₂) {i : ι} (hi : ¬ T i) :
    s₂.current i = s₁.current i := by
  obtain ⟨ws, hws, hin⟩ := h
  rw [hws.current_eq]
  refine replay_of_notMem (fun w hw he => hi ?_) s₁.current
  rw [← he]
  exact hin w hw

/-! ### Properties that hold at every cut -/

/-- Every disk that a cut between `s` and `s'` can leave satisfies `P`. -/
def Through (P : (ι → β) → Prop) (s s' : Store ι β) : Prop :=
  ∃ ws, Issues s s' ws ∧ ∀ p, p <+: ws → P (replay p s.current)

variable {P P' : (ι → β) → Prop}

theorem Through.refl (h : P s.current) : Through P s s := by
  refine ⟨[], Issues.refl s, fun p hp => ?_⟩
  rw [List.prefix_nil.mp hp]
  exact h

/-- A cut around a single write leaves either the old or the new contents. -/
theorem Through.write {i : ι} {b : β} (h : P s.current)
    (h' : P (Function.update s.current i b)) : Through P s (s.write i b) := by
  refine ⟨[(i, b)], Issues.write s i b, fun p hp => ?_⟩
  rcases List.prefix_cons_iff.mp hp with rfl | ⟨q, rfl, hq⟩
  · exact h
  · rw [List.prefix_nil.mp hq]
    exact h'

theorem Through.trans (h : Through P s₁ s₂) (h' : Through P s₂ s₃) : Through P s₁ s₃ := by
  obtain ⟨ws, hws, hP⟩ := h
  obtain ⟨vs, hvs, hP'⟩ := h'
  refine ⟨ws ++ vs, hws.trans hvs, fun p hp => ?_⟩
  rcases prefix_append_cases hp with hp | ⟨q, rfl, hq⟩
  · exact hP p hp
  · rw [replay_append, ← hws.current_eq]
    exact hP' q hq

end Store

end BlockStore
