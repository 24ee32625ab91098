import Mathlib.Data.Finset.Card
import NaiveGfs.Mac.GetPiOutput

/-!
# Whose turn it is

`get_pi_output` sets out to serve the pies in rotation, from the one behind `prev_pi` on, but
`prev_pi` stays -1 and the set of descriptors that `select` has filled in is not looked at.
So it serves the first open pi. That is the pi whose turn it is only while it is ready, and
in a run only while no other pi is ready as long as the first one stays open.
-/

namespace NaiveGfs

variable {behind : ℕ → UInt8} {pies : List MacPi} {ready : Finset ℕ} {prev : ℤ} {j k : ℕ}
  {s s' : OutputState}

/-- The pi is open and its descriptor is in the set that `select` has filled in. -/
def Eligible (pies : List MacPi) (ready : Finset ℕ) (k : ℕ) : Prop :=
  ∃ p, pies[k]? = some p ∧ p.isOpen = true ∧ p.fd ∈ ready

/-- The place of a pi in the cyclic order that begins behind `prev`. -/
def turn (n : ℕ) (prev : ℤ) (k : ℕ) : ℤ := (k - (prev + 1)) % n

/-- `k` is the first open and ready pi in the cyclic order that begins behind `prev`. -/
def InRotation (pies : List MacPi) (ready : Finset ℕ) (prev : ℤ) (k : ℕ) : Prop :=
  Eligible pies ready k ∧
    ∀ j, Eligible pies ready j → turn pies.length prev k ≤ turn pies.length prev j

theorem Eligible.lt (h : Eligible pies ready k) : k < pies.length := by
  obtain ⟨p, hp, -⟩ := h
  exact (List.getElem?_eq_some_iff.mp hp).1

/-- No open pi is in front of the first open one. -/
theorem firstOpen_le (hk : firstOpen pies = some k) {p : MacPi} (hp : pies[j]? = some p)
    (hopen : p.isOpen = true) : k ≤ j := by
  obtain ⟨hlt, -, hbefore⟩ := List.findIdx?_eq_some_iff_getElem.mp hk
  by_contra hjk
  obtain ⟨hj, rfl⟩ := List.getElem?_eq_some_iff.mp hp
  exact hbefore j (by omega) hopen

/-- The pies behind `prev` come first, the others follow. -/
theorem turn_eq {n : ℕ} (hlow : -1 ≤ prev) (hhigh : prev < n) (hk : k < n) :
    turn n prev k = if prev < k then k - prev - 1 else k + n - prev - 1 := by
  rw [turn]
  split
  · rw [Int.emod_eq_of_lt (by omega) (by omega)]
    omega
  · rw [← Int.add_emod_right, Int.emod_eq_of_lt (by omega) (by omega)]
    omega

/-- The first open pi is the one whose turn it is exactly when it is ready, and comes behind
`prev` or no open and ready pi does. -/
theorem inRotation_firstOpen_iff (hk : firstOpen pies = some k) (hlow : -1 ≤ prev)
    (hhigh : prev < pies.length) :
    InRotation pies ready prev k ↔
      Eligible pies ready k ∧ (prev < k ∨ ∀ j, Eligible pies ready j → (j : ℤ) ≤ prev) := by
  refine and_congr_right fun helig => ?_
  have hklt := helig.lt
  have hle : ∀ j, Eligible pies ready j → k ≤ j := fun j ⟨p, hp, hopen, _⟩ =>
    firstOpen_le hk hp hopen
  constructor
  · -- a ready pi behind `prev` would come before a first open one that is not
    intro hmin
    by_contra hnot
    push Not at hnot
    obtain ⟨hprev, j, hj, hlate⟩ := hnot
    have hturn := hmin j hj
    have hjlt := hj.lt
    rw [turn_eq hlow hhigh hklt, turn_eq hlow hhigh hjlt, if_neg (by omega), if_pos hlate] at hturn
    omega
  · intro h j hj
    have hkj := hle j hj
    have hjlt := hj.lt
    rw [turn_eq hlow hhigh hklt, turn_eq hlow hhigh hjlt]
    cases h with
    | inl hprev =>
      rw [if_pos hprev, if_pos (by omega)]
      omega
    | inr hlate =>
      have hjprev := hlate j hj
      rw [if_neg (by omega), if_neg (by omega)]
      omega

/-! ## Runs -/

/-- One pass through the search: the pies, the descriptors that are ready, and the pi that is
selected. -/
structure Selection where
  pies : List MacPi
  ready : Finset ℕ
  selectedPi : ℕ

/-- What `select` over all pies may fill in. -/
def ReadySet (pies : List MacPi) (ready : Finset ℕ) : Prop :=
  ready.Nonempty ∧ ∀ fd ∈ ready, ∃ p ∈ pies, p.isOpen = true ∧ p.fd = fd

/-- A run of `get_pi_output` up to some system call, with the searches it has made. -/
inductive RotationRun (behind : ℕ → UInt8) (pies : List MacPi) :
    List Selection → OutputState → Prop
  | start : RotationRun behind pies [] (.start pies)
  | select {sels : List Selection} {s s' : OutputState} {ready : Finset ℕ} {i k : ℕ}
      (hrun : RotationRun behind pies sels s) (hselect : s.control = .selectAll i)
      (hready : ReadySet s.pies ready) (hstep : s.step behind (.ready ready.card) = some s')
      (hread : s'.control = .read i k) :
      RotationRun behind pies (sels ++ [⟨s.pies, ready, k⟩]) s'
  | other {sels : List Selection} {s s' : OutputState} {r : SysResult}
      (hrun : RotationRun behind pies sels s) (hother : ∀ i, s.control ≠ .selectAll i)
      (hstep : s.step behind r = some s') : RotationRun behind pies sels s'

/-- The pi that the last search has selected; -1 before the first one. -/
def lastServed (sels : List Selection) : ℤ :=
  match sels.getLast? with
  | none => -1
  | some sel => sel.selectedPi

/-- Every search selects the pi whose turn it is. -/
def Rotates (sels : List Selection) : Prop :=
  ∀ before sel after, sels = before ++ sel :: after →
    InRotation sel.pies sel.ready (lastServed before) sel.selectedPi

/-- At every search the first open pi is ready, and it is the only one that is ready if it
was the first open one at the search before. -/
def FirstReady (sels : List Selection) : Prop :=
  ∀ before sel after, sels = before ++ sel :: after → ∀ k, firstOpen sel.pies = some k →
    Eligible sel.pies sel.ready k ∧
      ∀ last, before.getLast? = some last → firstOpen last.pies = some k →
        ∀ j, Eligible sel.pies sel.ready j → j = k

/-- The second list of pies is the first one with some of the pies closed. -/
def Closes (pies pies' : List MacPi) : Prop :=
  pies'.length = pies.length ∧ ∀ (j : ℕ) (p : MacPi), pies'[j]? = some p → p.isOpen = true →
    ∃ q : MacPi, pies[j]? = some q ∧ q.isOpen = true

theorem Closes.refl (pies : List MacPi) : Closes pies pies :=
  ⟨rfl, fun _ p hp hopen => ⟨p, hp, hopen⟩⟩

theorem Closes.reapPi {pies' : List MacPi} (h : Closes pies pies') (k : ℕ) :
    Closes pies (reapPi pies' k) := by
  refine ⟨by rw [NaiveGfs.reapPi, List.length_modify, h.1], fun j p hp hopen => ?_⟩
  rw [NaiveGfs.reapPi, List.getElem?_modify] at hp
  obtain ⟨q, hq, rfl⟩ := Option.map_eq_some_iff.mp hp
  refine h.2 j q hq ?_
  by_cases hjk : k = j
  · simp [hjk] at hopen
  · simpa [hjk] using hopen

/-- A system call leaves the pies as they are or closes one of them. -/
theorem Closes.step (h : Closes pies s.pies) {r : SysResult} (hstep : s.step behind r = some s') :
    Closes pies s'.pies := by
  rcases OutputState.step_cases hstep with ⟨k, data, -, -, -, -, hpies⟩ | ⟨-, -, -, k, -, hpies⟩ |
    ⟨-, -, hpies, -⟩
  · split at hpies
    · rw [hpies.1]
      exact h.reapPi k
    · rw [hpies.1]
      exact h
  · rw [hpies]
    exact h.reapPi k
  · rw [hpies]
    exact h

/-- The first open pi was not in front of the first open one when more pies were open. -/
theorem Closes.firstOpen_le {pies' : List MacPi} (h : Closes pies pies')
    (hj : firstOpen pies = some j) (hk : firstOpen pies' = some k) : j ≤ k := by
  obtain ⟨hklt, hopen, -⟩ := List.findIdx?_eq_some_iff_getElem.mp hk
  obtain ⟨q, hq, hqopen⟩ := h.2 k _ (List.getElem?_eq_getElem hklt) hopen
  exact NaiveGfs.firstOpen_le hj hq hqopen

/-- The search selects the first open pi. -/
theorem firstOpen_of_select {num : ℤ} {i i' : ℕ} (hselect : s.control = .selectAll i)
    (hstep : s.step behind (.ready num) = some s') (hread : s'.control = .read i' k) :
    firstOpen s.pies = some k ∧ s'.pies = s.pies := by
  obtain ⟨pies, idx, control⟩ := s
  obtain rfl : control = .selectAll i := hselect
  simp only [OutputState.step] at hstep
  split at hstep
  · cases hstep
    simp at hread
  · obtain ⟨m, hm, rfl⟩ := Option.map_eq_some_iff.mp hstep
    obtain ⟨-, rfl⟩ : i = i' ∧ m = k := by simpa using hread
    exact ⟨by rw [← selectPi_eq]; exact hm, rfl⟩

/-- Some pies of the last search have been closed since, and it has selected the first open
one. -/
def SinceLast (sels : List Selection) (pies : List MacPi) : Prop :=
  ∀ last, sels.getLast? = some last →
    firstOpen last.pies = some last.selectedPi ∧ Closes last.pies pies

/-- In a run every search selects the first open pi, and pies are only ever closed. -/
theorem RotationRun.selections {sels : List Selection} (hrun : RotationRun behind pies sels s) :
    SinceLast sels s.pies ∧ ∀ before sel after, sels = before ++ sel :: after →
      firstOpen sel.pies = some sel.selectedPi ∧ SinceLast before sel.pies := by
  induction hrun with
  | start => exact ⟨fun _ h => by simp at h, fun before sel after h => by simp at h⟩
  | @select sels s s' ready i k hrun hselect hready hstep hread ih =>
    obtain ⟨hfirst, hpies⟩ := firstOpen_of_select hselect hstep hread
    constructor
    · intro last hlast
      rw [List.getLast?_concat, Option.some.injEq] at hlast
      subst hlast
      exact ⟨hfirst, by rw [hpies]; exact Closes.refl s.pies⟩
    · exact forall_split_concat.mpr ⟨ih.2, hfirst, ih.1⟩
  | other hrun hother hstep ih =>
    refine ⟨fun last hlast => ?_, ih.2⟩
    obtain ⟨hfirst, hcloses⟩ := ih.1 last hlast
    exact ⟨hfirst, hcloses.step hstep⟩

/-- In a run the first open pi is the one served before or comes behind it. -/
theorem SinceLast.behind_iff {sels : List Selection} (h : SinceLast sels pies)
    (hk : firstOpen pies = some k) :
    (lastServed sels < k ∨ ∀ j, Eligible pies ready j → (j : ℤ) ≤ lastServed sels) ↔
      ∀ last, sels.getLast? = some last → firstOpen last.pies = some k →
        ∀ j, Eligible pies ready j → j = k := by
  have hle : ∀ j, Eligible pies ready j → k ≤ j := fun j ⟨p, hp, hopen, _⟩ =>
    firstOpen_le hk hp hopen
  cases hlast : sels.getLast? with
  | none =>
    have hserved : lastServed sels = -1 := by rw [lastServed, hlast]
    rw [hserved]
    exact iff_of_true (Or.inl (by omega)) fun last h => by simp at h
  | some last =>
    obtain ⟨hfirst, hcloses⟩ := h last hlast
    have hserved : lastServed sels = last.selectedPi := by rw [lastServed, hlast]
    have hback := hcloses.firstOpen_le hfirst hk
    rw [hserved]
    simp only [Option.some.injEq, forall_eq', hfirst]
    -- pies are only closed, so the first open one never moves to the front
    constructor
    · intro hor hsame j hj
      have hkj := hle j hj
      cases hor with
      | inl hlt => omega
      | inr hlate =>
        have hjlast := hlate j hj
        omega
    · intro halone
      by_cases hsame : last.selectedPi = k
      · exact Or.inr fun j hj => by rw [halone hsame j hj, hsame]
      · exact Or.inl (by omega)

theorem SinceLast.lastServed_bounds {sels : List Selection} (h : SinceLast sels pies)
    (hk : firstOpen pies = some k) : -1 ≤ lastServed sels ∧ lastServed sels < pies.length := by
  obtain ⟨hklt, -, -⟩ := List.findIdx?_eq_some_iff_getElem.mp hk
  rw [lastServed]
  split
  · omega
  · rename_i last hlast
    obtain ⟨hfirst, hcloses⟩ := h last hlast
    have hback := hcloses.firstOpen_le hfirst hk
    omega

/-- Whatever pi was served before, the search selects the pi whose turn it is exactly when the
first open pi is ready, and comes behind the one served before or no open and ready pi does.
In a run the pies are served in rotation exactly when at every search the first open pi is
ready, and the only one that is if it was the first open one at the search before. -/
theorem getPiOutput_rotates_iff (behind : ℕ → UInt8) (pies : List MacPi) :
    (∀ ready (prev : ℤ) k, firstOpen pies = some k → -1 ≤ prev → prev < pies.length →
      ((∃ m, selectPi pies = some m ∧ InRotation pies ready prev m) ↔
        Eligible pies ready k ∧ (prev < k ∨ ∀ j, Eligible pies ready j → (j : ℤ) ≤ prev))) ∧
    ∀ sels s, RotationRun behind pies sels s → (Rotates sels ↔ FirstReady sels) := by
  constructor
  · intro ready prev k hk hlow hhigh
    rw [← inRotation_firstOpen_iff hk hlow hhigh, selectPi_eq, hk]
    simp
  · intro sels s hrun
    have hsearches := hrun.selections.2
    have hiff : ∀ before sel after, sels = before ++ sel :: after →
        (InRotation sel.pies sel.ready (lastServed before) sel.selectedPi ↔
          ∀ k, firstOpen sel.pies = some k → Eligible sel.pies sel.ready k ∧
            ∀ last, before.getLast? = some last → firstOpen last.pies = some k →
              ∀ j, Eligible sel.pies sel.ready j → j = k) := by
      intro before sel after hsplit
      obtain ⟨hfirst, hsince⟩ := hsearches before sel after hsplit
      obtain ⟨hlow, hhigh⟩ := hsince.lastServed_bounds hfirst
      rw [inRotation_firstOpen_iff hfirst hlow hhigh, hsince.behind_iff hfirst, hfirst]
      simp only [Option.some.injEq, forall_eq']
    constructor
    · intro h before sel after hsplit
      exact (hiff before sel after hsplit).mp (h before sel after hsplit)
    · intro h before sel after hsplit
      exact (hiff before sel after hsplit).mpr (h before sel after hsplit)

/-- A search in which two pies are open and ready. -/
def bothReady : Selection := ⟨[⟨true, 3⟩, ⟨true, 4⟩], {3, 4}, 0⟩

theorem readySet_bothReady : ReadySet bothReady.pies bothReady.ready := by
  refine ⟨⟨3, by decide⟩, fun fd hfd => ?_⟩
  rcases Finset.mem_insert.mp hfd with rfl | hfd
  · exact ⟨⟨true, 3⟩, by decide, rfl, rfl⟩
  · obtain rfl := Finset.mem_singleton.mp hfd
    exact ⟨⟨true, 4⟩, by decide, rfl, rfl⟩

theorem eligible_bothReady : Eligible bothReady.pies bothReady.ready 0 ∧
    Eligible bothReady.pies bothReady.ready 1 :=
  ⟨⟨⟨true, 3⟩, rfl, rfl, by decide⟩, ⟨⟨true, 4⟩, rfl, rfl, by decide⟩⟩

/-- The memory behind the exit string does not matter here. -/
theorem bothReady_run :
    RotationRun (fun _ => 0) bothReady.pies [bothReady] ⟨bothReady.pies, 0, .read 0 0⟩ :=
  @RotationRun.select _ _ [] _ _ _ 0 0 .start rfl readySet_bothReady rfl rfl

theorem getPiOutput_rotates_once :
    (∃ m, selectPi bothReady.pies = some m ∧
      InRotation bothReady.pies bothReady.ready 1 m) ∧ Rotates [bothReady] := by
  have hfirst : firstOpen bothReady.pies = some 0 := rfl
  have hiff := getPiOutput_rotates_iff (fun _ => 0) bothReady.pies
  constructor
  · refine (hiff.1 bothReady.ready 1 0 hfirst (by decide) (by decide)).mpr
      ⟨eligible_bothReady.1, Or.inr fun j hj => ?_⟩
    have hlt : j < 2 := hj.lt
    omega
  · refine (hiff.2 _ _ bothReady_run).mpr ?_
    intro before sel after hsplit k hk
    cases before with
    | nil =>
      obtain ⟨rfl, -⟩ := List.cons.inj hsplit
      obtain rfl := Option.some.inj hk
      exact ⟨eligible_bothReady.1, fun last h => by simp at h⟩
    | cons x before => simp at hsplit

/-- The pi that has been read and falls silent is selected again, though the other one has been
ready all the time; and it is selected when only the other one is ready. -/
theorem bothReady_servedAgain :
    (∃ s, RotationRun (fun _ => 0) bothReady.pies [bothReady, bothReady] s) ∧
      ¬ Rotates [bothReady, bothReady] ∧
      ReadySet bothReady.pies {4} ∧ selectPi bothReady.pies = some 0 ∧
        ¬ Eligible bothReady.pies {4} 0 := by
  refine ⟨?_, ?_, ?_, rfl, ?_⟩
  · have hread : RotationRun (fun _ => 0) bothReady.pies [bothReady]
        ⟨bothReady.pies, 0, .selectOne 0 0⟩ :=
      @RotationRun.other _ _ _ _ _ (.readData [0x41]) bothReady_run (by simp) rfl
    have hsilent : RotationRun (fun _ => 0) bothReady.pies [bothReady]
        ⟨bothReady.pies, 0, .selectAll 1⟩ :=
      @RotationRun.other _ _ _ _ _ (.ready 0) hread (by simp) rfl
    exact ⟨⟨bothReady.pies, 0, .read 1 0⟩,
      @RotationRun.select _ _ _ _ _ _ 1 0 hsilent rfl readySet_bothReady rfl rfl⟩
  · intro h
    have hturn := (h [bothReady] bothReady [] rfl).2 1 eligible_bothReady.2
    exact absurd hturn (by decide)
  · exact ⟨⟨4, by decide⟩, fun fd hfd => ⟨⟨true, 4⟩, by decide, rfl,
      (Finset.mem_singleton.mp hfd).symm⟩⟩
  · rintro ⟨p, hp, -, hfd⟩
    obtain rfl := Option.some.inj hp
    exact absurd hfd (by decide)

end NaiveGfs
