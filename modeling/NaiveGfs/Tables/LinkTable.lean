import Mathlib.Logic.Function.Basic
import Mathlib.Data.List.Nodup
import Mathlib.Data.List.Infix
import Mathlib.Data.List.Chain

/-!
# Chains in a table of links

A table gives each cell the cell that follows it, or a mark that ends the chain. The
module relates three views of a chain: the cells met by following the links (`Follows`),
the table obtained by entering a list of cells as a chain (`writeChain`), and the growth
of that table by one cell at a time (`writeChain_concat`), which is what an allocator does
that marks a free cell as the end and then points the previous cell at it. A loop that
goes along a chain (`walk`) visits exactly its cells when its test stops at what ends it.
-/

namespace LinkTable

variable {α : Type*}

/-- Following `next` from the head of the list meets exactly the cells of the list, and
the last one satisfies `ends`. -/
def Follows (next : α → α) (ends : α → Prop) : List α → Prop
  | [] => False
  | [c] => ends c
  | c :: d :: cs => next c = d ∧ Follows next ends (d :: cs)

instance Follows.decidable [DecidableEq α] (next : α → α) (ends : α → Prop) [DecidablePred ends] :
    ∀ cs, Decidable (Follows next ends cs)
  | [] => isFalse id
  | [c] => inferInstanceAs (Decidable (ends c))
  | c :: d :: cs =>
    have := Follows.decidable next ends (d :: cs)
    inferInstanceAs (Decidable (next c = d ∧ Follows next ends (d :: cs)))

/-- Every cell of a chain is linked to a cell of the chain or ends it. -/
theorem Follows.next_mem_or_ends {next : α → α} {ends : α → Prop} {cs : List α}
    (h : Follows next ends cs) {c : α} (hc : c ∈ cs) : next c ∈ cs ∨ ends c := by
  induction cs with
  | nil => exact h.elim
  | cons d cs ih =>
    cases cs with
    | nil =>
      rw [List.mem_singleton] at hc
      subst hc
      exact Or.inr h
    | cons e es =>
      obtain ⟨hnext, hrest⟩ := h
      rcases List.mem_cons.mp hc with rfl | hc
      · left
        rw [hnext]
        simp
      · cases ih hrest hc with
        | inl hin => exact Or.inl (List.mem_cons_of_mem _ hin)
        | inr hend => exact Or.inr hend

/-- Consecutive cells of a chain are linked. -/
theorem Follows.isChain {next : α → α} {ends : α → Prop} {cs : List α}
    (h : Follows next ends cs) : cs.IsChain fun a b => next a = b := by
  induction cs with
  | nil => exact List.isChain_nil
  | cons a cs ih =>
    cases cs with
    | nil => exact List.isChain_singleton a
    | cons b cs => exact List.isChain_cons_cons.mpr ⟨h.1, ih h.2⟩

/-- A cell of a chain that does not end it has its successor behind it. -/
theorem Follows.getElem?_succ {next : α → α} {ends : α → Prop} {cs : List α}
    (h : Follows next ends cs) {i : ℕ} {c : α} (hc : cs[i]? = some c) (hgo : ¬ ends c) :
    cs[i + 1]? = some (next c) := by
  induction cs generalizing i with
  | nil => exact absurd h id
  | cons a cs ih =>
    cases cs with
    | nil =>
      cases i with
      | zero =>
        obtain rfl : a = c := by simpa using hc
        exact absurd h hgo
      | succ i => simp at hc
    | cons b cs =>
      cases i with
      | zero =>
        obtain rfl : a = c := by simpa using hc
        simp [h.1]
      | succ i => exact ih h.2 hc

/-- Following the links from the head of a chain, as far as no cell ends it, stays on the
chain. -/
theorem Follows.prefix_of_isChain {next : α → α} {ends : α → Prop} {cs ds : List α}
    (h : Follows next ends cs) (hhead : ds.head? = cs.head?)
    (hds : ds.IsChain fun a b => next a = b ∧ ¬ ends a) : ds <+: cs := by
  induction cs generalizing ds with
  | nil => exact h.elim
  | cons c cs ih =>
    obtain ⟨es, rfl⟩ : ∃ es, ds = c :: es := List.head?_eq_some_iff.mp hhead
    rw [List.cons_prefix_cons]
    refine ⟨rfl, ?_⟩
    cases es with
    | nil => exact List.nil_prefix
    | cons e es =>
      rw [List.isChain_cons_cons] at hds
      obtain ⟨⟨rfl, hgo⟩, hrest⟩ := hds
      cases cs with
      | nil => exact absurd h hgo
      | cons d cs => exact ih h.2 (by simp [h.1]) hrest

/-- Being linked depends on the cells in front of the last one only. -/
theorem isChain_imp_dropLast {R S : α → α → Prop} {l : List α} (h : l.IsChain R)
    (hRS : ∀ a ∈ l.dropLast, ∀ b, R a b → S a b) : l.IsChain S := by
  induction l with
  | nil => exact List.isChain_nil
  | cons a l ih =>
    cases l with
    | nil => exact List.isChain_singleton a
    | cons b l =>
      rw [List.isChain_cons_cons] at h ⊢
      rw [List.dropLast_cons_cons] at hRS
      exact ⟨hRS a (by simp) b h.1, ih h.2 fun x hx => hRS x (List.mem_cons_of_mem _ hx)⟩

theorem Follows.congr {next next' : α → α} {ends ends' : α → Prop} {cs : List α}
    (h : Follows next ends cs) (hnext : ∀ c ∈ cs, next' c = next c)
    (hends : ∀ c ∈ cs, ends c → ends' c) : Follows next' ends' cs := by
  induction cs with
  | nil => exact h
  | cons d cs ih =>
    cases cs with
    | nil => exact hends d (by simp) h
    | cons e es =>
      refine ⟨(hnext d (by simp)).trans h.1, ?_⟩
      exact ih h.2 (fun c hc => hnext c (List.mem_cons_of_mem _ hc))
        (fun c hc => hends c (List.mem_cons_of_mem _ hc))

variable [DecidableEq α]

/-- Enter a list of cells into a table as a chain that ends in `stop`. -/
def writeChain (stop : α) : List α → (α → α) → α → α
  | [], t => t
  | [c], t => Function.update t c stop
  | c :: d :: cs, t => Function.update (writeChain stop (d :: cs) t) c d

theorem writeChain_of_notMem {stop : α} {cs : List α} {k : α} (hk : k ∉ cs) (t : α → α) :
    writeChain stop cs t k = t k := by
  induction cs with
  | nil => rfl
  | cons c cs ih =>
    rw [List.mem_cons, not_or] at hk
    cases cs with
    | nil => exact Function.update_of_ne hk.1 _ _
    | cons d cs =>
      rw [writeChain, Function.update_of_ne hk.1]
      exact ih hk.2

/-- The last cell of an entered chain holds the end mark. -/
theorem writeChain_last (stop : α) {cs : List α} {p : α} (hp : p ∉ cs) (t : α → α) :
    writeChain stop (cs ++ [p]) t p = stop := by
  induction cs with
  | nil => exact Function.update_self _ _ _
  | cons c cs ih =>
    rw [List.mem_cons, not_or] at hp
    obtain ⟨d, ds, hd⟩ := List.exists_cons_of_ne_nil (List.append_ne_nil_of_right_ne_nil cs
      (List.cons_ne_nil p []))
    rw [List.cons_append, hd, writeChain, Function.update_of_ne hp.1, ← hd]
    exact ih hp.2

/-- The table entered for a list without repetitions is followed along that list. -/
theorem writeChain_follows (stop : α) {cs : List α} (hne : cs ≠ []) (hnodup : cs.Nodup)
    (t : α → α) :
    Follows (writeChain stop cs t) (fun c => writeChain stop cs t c = stop) cs := by
  induction cs with
  | nil => exact absurd rfl hne
  | cons c cs ih =>
    cases cs with
    | nil => exact Function.update_self _ _ _
    | cons d cs =>
      rw [List.nodup_cons] at hnodup
      have hkeep : ∀ k ∈ d :: cs,
          writeChain stop (c :: d :: cs) t k = writeChain stop (d :: cs) t k := by
        intro k hk
        have hkc : k ≠ c := fun he => hnodup.1 (he ▸ hk)
        exact Function.update_of_ne hkc _ _
      refine ⟨Function.update_self _ _ _, ?_⟩
      refine (ih (List.cons_ne_nil d cs) hnodup.2).congr hkeep ?_
      intro k hk hstop
      rw [hkeep k hk]
      exact hstop

/-- Marking a new cell as the end and then pointing the old last cell at it enters the
chain that is one cell longer. -/
theorem writeChain_concat (stop : α) (cs : List α) {p c : α} (hnodup : (cs ++ [p, c]).Nodup)
    (t : α → α) :
    Function.update (Function.update (writeChain stop (cs ++ [p]) t) c stop) p c =
      writeChain stop (cs ++ [p, c]) t := by
  induction cs with
  | nil =>
    have hpc : p ≠ c := by simpa using hnodup
    funext k
    by_cases hkp : k = p
    · subst hkp
      simp [writeChain]
    · by_cases hkc : k = c
      · subst hkc
        simp [writeChain, hkp]
      · simp [writeChain, hkp, hkc]
  | cons d cs ih =>
    rw [List.cons_append, List.nodup_cons] at hnodup
    obtain ⟨hd, hrest⟩ := hnodup
    have hdc : d ≠ c := fun he => hd (by simp [he])
    have hdp : d ≠ p := fun he => hd (by simp [he])
    -- the entry of `d` is written last, so it commutes with the two new updates
    obtain ⟨e, es, he, he'⟩ : ∃ e es, cs ++ [p] = e :: es ∧ cs ++ [p, c] = e :: (es ++ [c]) := by
      cases cs with
      | nil => exact ⟨p, [], rfl, rfl⟩
      | cons e es => exact ⟨e, es ++ [p], rfl, by simp⟩
    have hleft : writeChain stop (d :: cs ++ [p]) t =
        Function.update (writeChain stop (cs ++ [p]) t) d e := by
      rw [List.cons_append, he]
      rfl
    have hright : writeChain stop (d :: cs ++ [p, c]) t =
        Function.update (writeChain stop (cs ++ [p, c]) t) d e := by
      rw [List.cons_append, he']
      rfl
    rw [hleft, hright, ← ih hrest, Function.update_comm hdc, Function.update_comm hdp]

/-! ## First fit -/

omit [DecidableEq α] in
/-- Taking the first element that passes a test out of a list without repetitions leaves
the remaining ones in order. -/
theorem filter_and_ne_eq_tail {l rest : List α} {c : α} {p q : α → Bool} (hnodup : l.Nodup)
    (h : l.filter p = c :: rest) (hq : ∀ x ∈ l, q x = true ↔ p x = true ∧ x ≠ c) :
    l.filter q = rest := by
  induction l with
  | nil => simp at h
  | cons a l ih =>
    rw [List.nodup_cons] at hnodup
    by_cases hpa : p a = true
    · rw [List.filter_cons_of_pos hpa, List.cons.injEq] at h
      obtain ⟨rfl, rfl⟩ := h
      have hqa : ¬ q a = true := fun hqa => ((hq a (by simp)).mp hqa).2 rfl
      rw [List.filter_cons_of_neg hqa]
      apply List.filter_congr
      intro x hx
      have hxa : x ≠ a := fun he => hnodup.1 (he ▸ hx)
      have hiff := hq x (List.mem_cons_of_mem _ hx)
      simp only [hxa, ne_eq, not_false_eq_true, and_true] at hiff
      exact Bool.eq_iff_iff.mpr hiff
    · rw [List.filter_cons_of_neg hpa] at h
      have hqa : ¬ q a = true := fun hqa => hpa ((hq a (by simp)).mp hqa).1
      rw [List.filter_cons_of_neg hqa]
      exact ih hnodup.2 h (fun x hx => hq x (List.mem_cons_of_mem _ hx))

/-! ## Loops along a chain -/

section Walk

variable {α σ : Type*}

/-- A loop that tests a cell and, unless it stops there, visits it and goes on to what
`advance` says: the cells that are visited. -/
def walk (advance : σ → α → α × σ) (stop : α → Bool) : ℕ → α → σ → Option (List α × σ)
  | 0, _, _ => none
  | fuel + 1, c, s =>
    if stop c then some ([], s)
    else
      let (d, s) := advance s c
      (walk advance stop fuel d s).map fun (cs, s) => (c :: cs, s)

/-- The loop with the test at its end. -/
def walkFirst (advance : σ → α → α × σ) (stop : α → Bool) (fuel : ℕ) (c : α) (s : σ) :
    Option (List α × σ) :=
  let (d, s) := advance s c
  (walk advance stop fuel d s).map fun (cs, s) => (c :: cs, s)

variable {advance : σ → α → α × σ} {stop : α → Bool} {link : α → α}

theorem walk_succ (fuel : ℕ) (c : α) (s : σ) :
    walk advance stop (fuel + 1) c s =
      if stop c then some ([], s) else walkFirst advance stop fuel c s := rfl

/-- The state behind a loop is what the cells visited make of the state before. -/
theorem walk_state {fuel : ℕ} {c : α} {s s' : σ} {cs : List α}
    (h : walk advance stop fuel c s = some (cs, s')) :
    s' = cs.foldl (fun s c => (advance s c).2) s := by
  induction fuel generalizing c s cs with
  | zero => simp [walk] at h
  | succ fuel ih =>
    rw [walk] at h
    split at h
    · obtain ⟨rfl, rfl⟩ := Prod.mk.inj (Option.some.inj h)
      rfl
    · obtain ⟨⟨ds, t⟩, hrest, he⟩ := Option.map_eq_some_iff.mp h
      obtain ⟨rfl, rfl⟩ := Prod.mk.inj he
      rw [List.foldl_cons]
      exact ih hrest

theorem walkFirst_state {fuel : ℕ} {c : α} {s s' : σ} {cs : List α}
    (h : walkFirst advance stop fuel c s = some (cs, s')) :
    s' = cs.foldl (fun s c => (advance s c).2) s := by
  obtain ⟨⟨ds, t⟩, hrest, he⟩ := Option.map_eq_some_iff.mp h
  obtain ⟨rfl, rfl⟩ := Prod.mk.inj he
  rw [List.foldl_cons]
  exact walk_state hrest

/-- A loop that has visited its first cell goes on at the cell behind it. -/
theorem walkFirst_iff {c : α} {cs : List α} {s : σ} (hnext : (advance s c).1 = link c) :
    (∃ fuel s', walkFirst advance stop fuel c s = some (c :: cs, s')) ↔
      ∃ fuel s', walk advance stop fuel (link c) (advance s c).2 = some (cs, s') := by
  constructor
  · rintro ⟨fuel, s', h⟩
    obtain ⟨⟨ds, t⟩, hwalk, he⟩ := Option.map_eq_some_iff.mp h
    obtain ⟨hcs, -⟩ := Prod.mk.inj he
    obtain ⟨-, rfl⟩ := List.cons.inj hcs
    rw [hnext] at hwalk
    exact ⟨fuel, t, hwalk⟩
  · rintro ⟨fuel, s', h⟩
    refine ⟨fuel, s', ?_⟩
    show (walk advance stop fuel (advance s c).1 (advance s c).2).map _ = _
    rw [hnext, h]
    rfl

/-- The first cell behind `c` in a linked list. -/
theorem head_of_linked {c e : α} {cs : List α}
    (hlinked : (c :: cs ++ [e]).IsChain fun a b => link a = b) :
    (cs ++ [e]).head? = some (link c) := by
  rw [List.cons_append] at hlinked
  obtain ⟨d, ds, hd⟩ := List.exists_cons_of_ne_nil
    (List.append_ne_nil_of_right_ne_nil cs (List.cons_ne_nil e []))
  rw [hd] at hlinked ⊢
  rw [(List.isChain_cons_cons.mp hlinked).1]
  rfl

/-- A loop that stops at no cell of a chain visits exactly these cells, and returns, if and
only if it stops at what follows the chain. -/
theorem walk_exact_iff {cs : List α} {c e : α} (hhead : (cs ++ [e]).head? = some c)
    (hlinked : (cs ++ [e]).IsChain fun a b => link a = b)
    (hnext : ∀ s, ∀ a ∈ cs, (advance s a).1 = link a) (hgo : ∀ a ∈ cs, stop a = false) (s : σ) :
    (∃ fuel s', walk advance stop fuel c s = some (cs, s')) ↔ stop e = true := by
  induction cs generalizing c s with
  | nil =>
    obtain rfl := Option.some.inj hhead
    constructor
    · rintro ⟨fuel, s', h⟩
      cases fuel with
      | zero => simp [walk] at h
      | succ fuel =>
        by_contra hstop
        rw [walk, if_neg hstop] at h
        simp at h
    · intro hstop
      exact ⟨1, s, by rw [walk, if_pos hstop]⟩
  | cons a cs ih =>
    obtain rfl := Option.some.inj hhead
    have hstop : ¬ stop a = true := by simp [hgo a (by simp)]
    -- the loop does not stop at the first cell, so it begins like the one with the test last
    have henter : (∃ fuel s', walk advance stop fuel a s = some (a :: cs, s')) ↔
        ∃ fuel s', walkFirst advance stop fuel a s = some (a :: cs, s') := by
      constructor
      · rintro ⟨fuel, s', h⟩
        cases fuel with
        | zero => simp [walk] at h
        | succ fuel => exact ⟨fuel, s', by rwa [walk_succ, if_neg hstop] at h⟩
      · rintro ⟨fuel, s', h⟩
        exact ⟨fuel + 1, s', by rwa [walk_succ, if_neg hstop]⟩
    rw [henter, walkFirst_iff (hnext s a (by simp))]
    exact ih (head_of_linked hlinked) hlinked.tail
      (fun s b hb => hnext s b (List.mem_cons_of_mem _ hb))
      (fun b hb => hgo b (List.mem_cons_of_mem _ hb)) _

/-- The same for a loop with the test at its end, which is not made at the first cell. -/
theorem walkFirst_exact_iff {cs : List α} {c e : α}
    (hlinked : (c :: cs ++ [e]).IsChain fun a b => link a = b)
    (hnext : ∀ s, ∀ a ∈ c :: cs, (advance s a).1 = link a) (hgo : ∀ a ∈ cs, stop a = false)
    (s : σ) :
    (∃ fuel s', walkFirst advance stop fuel c s = some (c :: cs, s')) ↔ stop e = true := by
  rw [walkFirst_iff (hnext s c (by simp))]
  exact walk_exact_iff (head_of_linked hlinked) hlinked.tail
    (fun s a ha => hnext s a (List.mem_cons_of_mem _ ha)) hgo _

end Walk

end LinkTable
