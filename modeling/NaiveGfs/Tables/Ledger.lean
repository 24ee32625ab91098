import Mathlib.Data.List.Nodup
import Mathlib.Logic.Function.Basic

/-!
# Ids handed out in order

Holders get ids from a sequence, each the next one that has not been handed out. The ledger
is the list of the holders in the order in which they were served.
-/

namespace Ledger

variable {ι γ : Type*} {idOf : ℕ → γ} {l : List ι} {holds : ι → Option γ} {i j : ι} {a : γ}

/-- The `k`-th holder served holds the `k`-th id, and nobody else holds one. -/
structure Issued (idOf : ℕ → γ) (l : List ι) (holds : ι → Option γ) : Prop where
  nodup : l.Nodup
  held : ∀ k (hk : k < l.length), holds (l.get ⟨k, hk⟩) = some (idOf k)
  free : ∀ i, i ∉ l → holds i = none

theorem Issued.nil (h : ∀ i, holds i = none) : Issued idOf [] holds :=
  ⟨List.nodup_nil, fun _ hk => absurd hk (Nat.not_lt_zero _), fun i _ => h i⟩

theorem Issued.exists_index (h : Issued idOf l holds) (ha : holds i = some a) :
    ∃ k, ∃ hk : k < l.length, l.get ⟨k, hk⟩ = i ∧ idOf k = a := by
  have hmem : i ∈ l := by
    by_contra hi
    rw [h.free i hi] at ha
    exact absurd ha (by simp)
  obtain ⟨⟨k, hk⟩, rfl⟩ := List.get_of_mem hmem
  refine ⟨k, hk, rfl, ?_⟩
  rw [h.held k hk] at ha
  exact Option.some.inj ha

/-- Where the sequence does not repeat, an id has one holder. -/
theorem Issued.eq_of_held (h : Issued idOf l holds)
    (hinj : ∀ j < l.length, ∀ k < l.length, idOf j = idOf k → j = k) (hi : holds i = some a)
    (hj : holds j = some a) : i = j := by
  obtain ⟨m, hm, rfl, hma⟩ := h.exists_index hi
  obtain ⟨n, hn, rfl, hna⟩ := h.exists_index hj
  have hmn : m = n := hinj m hm n hn (hma.trans hna.symm)
  subst hmn
  rfl

/-- The next holder is served. -/
theorem Issued.concat [DecidableEq ι] (h : Issued idOf l holds) (hi : i ∉ l) :
    Issued idOf (l ++ [i]) (Function.update holds i (some (idOf l.length))) := by
  refine ⟨?_, fun k hk => ?_, fun j hj => ?_⟩
  · exact List.nodup_append.mpr ⟨h.nodup, List.nodup_singleton i,
      fun x hx y hy => fun he => hi (List.mem_singleton.mp hy ▸ he ▸ hx)⟩
  · rw [List.length_append, List.length_singleton] at hk
    rcases Nat.lt_or_eq_of_le (Nat.le_of_lt_succ hk) with hlt | rfl
    · have hget : (l ++ [i]).get ⟨k, by simpa using hk⟩ = l.get ⟨k, hlt⟩ := by
        simp [List.getElem_append_left hlt]
      rw [hget, Function.update_of_ne (fun he : l.get ⟨k, hlt⟩ = i => hi (he ▸ List.get_mem l _))]
      exact h.held k hlt
    · simp
  · rw [List.mem_append, List.mem_singleton, not_or] at hj
    rw [Function.update_of_ne hj.2]
    exact h.free j hj.1

end Ledger
