import Mathlib.Data.List.Infix

/-!
# Matching a word whose first letter occurs once

A matcher reads a text letter by letter and remembers how many letters of the word it has
just seen. When the next letter is not the one it waits for, it starts over, at the second
letter if the one it read is the first. For a word whose first letter does not occur again
that loses nothing: the number it remembers is the length of the longest prefix of the word
that ends the text (`Tracks`), so it reports the word exactly when the word has occurred.
-/

namespace PrefixMatcher

variable {α : Type*}

/-- `k` is the length of the longest prefix of `w` that ends `text`. -/
structure Tracks (w text : List α) (k : ℕ) : Prop where
  le : k ≤ w.length
  suffix : w.take k <:+ text
  longest : ∀ m ≤ w.length, w.take m <:+ text → m ≤ k

theorem Tracks.nil (w : List α) : Tracks w [] 0 where
  le := Nat.zero_le _
  suffix := by simp
  longest := by
    intro m hm hs
    have hlen := hs.length_le
    rw [List.length_take_of_le hm, List.length_nil] at hlen
    exact hlen

/-- A prefix that ends the text after one more letter: one letter shorter it ended the text
before, and the letter is the next one. -/
theorem take_succ_suffix_concat_iff {w text : List α} {k : ℕ} (hk : k < w.length) (c : α) :
    w.take (k + 1) <:+ text ++ [c] ↔ w.take k <:+ text ∧ w[k] = c := by
  rw [← List.take_append_getElem hk]
  constructor
  · rintro ⟨t, ht⟩
    rw [← List.append_assoc] at ht
    obtain ⟨htext, hc⟩ := List.append_inj' ht rfl
    exact ⟨⟨t, htext⟩, List.singleton_inj.mp hc⟩
  · rintro ⟨⟨t, rfl⟩, rfl⟩
    exact ⟨t, by rw [List.append_assoc]⟩

/-- The word ends the text exactly when all of its letters have been seen. -/
theorem Tracks.eq_length_iff {w text : List α} {k : ℕ} (h : Tracks w text k) :
    k = w.length ↔ w <:+ text := by
  constructor
  · intro hk
    have hs := h.suffix
    rwa [hk, List.take_length] at hs
  · intro hs
    apply Nat.le_antisymm h.le
    apply h.longest _ (le_refl _)
    rwa [List.take_length]

section Matcher

variable [DecidableEq α]

/-- The number of letters seen after one more letter. -/
def advance (w : List α) (k : ℕ) (c : α) : ℕ :=
  if w[k]? = some c then k + 1 else if w[0]? = some c then 1 else 0

/-- Read letters until the word is complete. -/
def scan (w : List α) : ℕ → List α → ℕ × Bool
  | k, [] => (k, false)
  | k, c :: cs =>
    if advance w k c = w.length then (w.length, true) else scan w (advance w k c) cs

section Unique

variable {d : α} {ws : List α} (hd : d ∉ ws)

include hd

omit [DecidableEq α] in
/-- Of the prefixes that end a text only the longest is not empty. -/
theorem Tracks.eq_of_suffix {text : List α} {k m : ℕ} (h : Tracks (d :: ws) text k)
    (hm : m ≤ (d :: ws).length) (hpos : 0 < m) (hs : (d :: ws).take m <:+ text) : m = k := by
  by_contra hne
  have hlt : m < k := lt_of_le_of_ne (h.longest m hm hs) hne
  have hk := h.le
  -- the shorter one ends the longer one, so its first letter occurs in the word again
  obtain ⟨t, ht⟩ : (d :: ws).take m <:+ (d :: ws).take k := by
    apply List.suffix_of_suffix_length_le hs h.suffix
    rw [List.length_take_of_le hm, List.length_take_of_le hk]
    exact hlt.le
  obtain ⟨m, rfl⟩ : ∃ m', m = m' + 1 := ⟨m - 1, by omega⟩
  obtain ⟨k, rfl⟩ : ∃ k', k = k' + 1 := ⟨k - 1, by omega⟩
  rw [List.take_succ_cons, List.take_succ_cons] at ht
  cases t with
  | nil =>
    have hlen := congrArg List.length (List.cons.inj ht).2
    rw [List.length_take_of_le (by simpa using hm), List.length_take_of_le (by simpa using hk)]
      at hlen
    omega
  | cons x t =>
    have hmem : d ∈ ws.take k := by
      rw [← (List.cons.inj ht).2]
      simp
    exact hd (List.mem_of_mem_take hmem)

/-- One letter. Behind the end of the word the matcher starts over. -/
theorem Tracks.advance {text : List α} {k : ℕ} (h : Tracks (d :: ws) text k) (c : α) :
    Tracks (d :: ws) (text ++ [c]) (advance (d :: ws) k c) := by
  have hzero : (0 : ℕ) < (d :: ws).length := by simp
  rw [PrefixMatcher.advance, List.getElem?_eq_getElem hzero]
  -- a prefix of the word that ends the new text ended the old one, so it was 0 or `k` long
  have hcases : ∀ m ≤ (d :: ws).length, (d :: ws).take m <:+ text ++ [c] →
      m = 0 ∨ (m = 1 ∧ d = c) ∨ (m = k + 1 ∧ (d :: ws)[k]? = some c) := by
    intro m hm hs
    cases m with
    | zero => exact Or.inl rfl
    | succ m =>
      obtain ⟨hprev, hc⟩ := (take_succ_suffix_concat_iff hm c).mp hs
      by_cases hpos : m = 0
      · subst hpos
        exact Or.inr (Or.inl ⟨rfl, hc⟩)
      · have hmk := h.eq_of_suffix hd (by omega) (by omega) hprev
        subst hmk
        exact Or.inr (Or.inr ⟨rfl, List.getElem?_eq_some_iff.mpr ⟨hm, hc⟩⟩)
  by_cases hnext : (d :: ws)[k]? = some c
  · rw [if_pos hnext]
    obtain ⟨hk, hget⟩ := List.getElem?_eq_some_iff.mp hnext
    refine ⟨hk, (take_succ_suffix_concat_iff hk c).mpr ⟨h.suffix, hget⟩, ?_⟩
    intro m hm hs
    rcases hcases m hm hs with rfl | ⟨rfl, -⟩ | ⟨rfl, -⟩ <;> omega
  · rw [if_neg hnext]
    by_cases hfirst : d = c
    · rw [if_pos (by simpa using hfirst)]
      refine ⟨by simp, (take_succ_suffix_concat_iff hzero c).mpr ⟨by simp, hfirst⟩, ?_⟩
      intro m hm hs
      rcases hcases m hm hs with rfl | ⟨rfl, -⟩ | ⟨rfl, hc⟩
      · omega
      · omega
      · exact absurd hc hnext
    · rw [if_neg (by simpa using hfirst)]
      refine ⟨by simp, by simp, ?_⟩
      intro m hm hs
      rcases hcases m hm hs with rfl | ⟨rfl, hc⟩ | ⟨rfl, hc⟩
      · omega
      · exact absurd hc hfirst
      · exact absurd hc hnext

/-- The matcher, started on a text without the word, reports the word exactly when the text
has come to contain it, and otherwise still keeps track. -/
theorem Tracks.scan {text : List α} {k : ℕ} (h : Tracks (d :: ws) text k)
    (hk : k < (d :: ws).length) (hnot : ¬ (d :: ws) <:+: text) (cs : List α) :
    (scan (d :: ws) k cs = ((d :: ws).length, true) ∧ (d :: ws) <:+: text ++ cs) ∨
      ∃ k', scan (d :: ws) k cs = (k', false) ∧ k' < (d :: ws).length ∧
        Tracks (d :: ws) (text ++ cs) k' ∧ ¬ (d :: ws) <:+: text ++ cs := by
  induction cs generalizing text k with
  | nil =>
    rw [List.append_nil]
    exact Or.inr ⟨k, rfl, hk, h, hnot⟩
  | cons c cs ih =>
    have hstep := h.advance hd c
    have hassoc : text ++ c :: cs = (text ++ [c]) ++ cs := by simp
    rw [PrefixMatcher.scan, hassoc]
    by_cases hfull : PrefixMatcher.advance (d :: ws) k c = (d :: ws).length
    · rw [if_pos hfull]
      have hend := hstep.eq_length_iff.mp hfull
      exact Or.inl ⟨rfl, hend.isInfix.trans (List.prefix_append _ _).isInfix⟩
    · rw [if_neg hfull]
      apply ih hstep (lt_of_le_of_ne hstep.le hfull)
      rw [List.infix_concat_iff]
      rintro (hend | hin)
      · exact hfull (hstep.eq_length_iff.mpr hend)
      · exact hnot hin

end Unique

end Matcher

end PrefixMatcher
