import Mathlib.Data.List.Infix
import Mathlib.Algebra.Order.Ring.Int

/-!
# Dumping the output of the booted pies

`get_pi_output` waits for a pi to write something, picks a pi, and reads from it until it has
been silent for 50 ms, has sent the exit string, or cannot be read any more. Whatever the
system calls return drives the function, so it is a step function over their results, with
the static `idx` of `pi_done_scan` in the state. `prev_pi` is never assigned after it was
initialised to -1, so the search for the next pi begins at the first one every time.
-/

namespace NaiveGfs

/-- `exit_string` without its terminating zero. -/
def exitString : List UInt8 := [0x44, 0x4f, 0x4e, 0x45, 0x21, 0x21, 0x21, 0x0a]

/-- The byte at `exit_string + i`; `behind` is the memory behind the array. -/
def exitByte (behind : ℕ → UInt8) (i : ℕ) : UInt8 :=
  if h : i < exitString.length then exitString[i]
  else if i = exitString.length then 0
  else behind (i - exitString.length - 1)

/-- `pi_done_scan`: the new `idx` and the returned value. -/
def piDoneScan (behind : ℕ → UInt8) (idx : ℕ) (c : UInt8) : ℕ × Bool :=
  let idx :=
    if c = exitByte behind idx then idx + 1 else if c = exitByte behind 0 then 1 else 0
  (idx, idx == exitString.length)

/-- The loop that checks a chunk for the exit string. -/
def scanData (behind : ℕ → UInt8) : ℕ → List UInt8 → ℕ × Bool
  | idx, [] => (idx, false)
  | idx, c :: data =>
    match piDoneScan behind idx c with
    | (idx, true) => (idx, true)
    | (idx, false) => scanData behind idx data

/-- `pi`, as far as `get_pi_output` uses it. -/
structure MacPi where
  isOpen : Bool
  fd : ℕ
deriving DecidableEq

/-- `reap_pi`. -/
def reapPi (pies : List MacPi) (selectedPi : ℕ) : List MacPi :=
  pies.modify selectedPi fun p => { p with isOpen := false }

/-- `maxfd` after the loop that collects the open descriptors. -/
def maxfd (pies : List MacPi) : ℤ :=
  pies.foldl (fun m p => if p.isOpen = true ∧ (p.fd : ℤ) > m then p.fd else m) (-1)

/-- The search for the next open pi from `selected_pi` on. -/
def searchPi (pies : List MacPi) (prevPi : ℤ) : ℕ → ℤ → Option ℕ
  | 0, _ => none
  | fuel + 1, selectedPi =>
    let selectedPi := if selectedPi + 1 = pies.length then 0 else selectedPi + 1
    if selectedPi ≠ prevPi ∧ (pies[selectedPi.toNat]?.map MacPi.isOpen) = some false then
      searchPi pies prevPi fuel selectedPi
    else some selectedPi.toNat

/-- `selected_pi` after the search. -/
def selectPi (pies : List MacPi) : Option ℕ := searchPi pies (-1) pies.length (-1)

/-- Where `get_pi_output` is: at the `select` over all pies in round `i`, at the `read` from or
the `select` on the selected pi, or finished. -/
inductive OutputControl
  | selectAll (i : ℕ)
  | read (i : ℕ) (selectedPi : ℕ)
  | selectOne (i : ℕ) (selectedPi : ℕ)
  | returned
deriving DecidableEq

/-- The variables of `get_pi_output`, and `idx`. -/
structure OutputState where
  pies : List MacPi
  idx : ℕ
  control : OutputControl

/-- What a system call returns: the number of ready descriptors, or the outcome of a read. -/
inductive SysResult
  | ready (num : ℤ)
  | readFailed
  | readNothing
  | readData (data : List UInt8)

/-- The head of the loop over the rounds. -/
def enterRound (pies : List MacPi) (i : ℕ) : OutputControl :=
  if i < 10 ∧ maxfd pies ≠ -1 then .selectAll i else .returned

/-- `get_pi_output` before its first system call. -/
def OutputState.start (pies : List MacPi) : OutputState := ⟨pies, 0, enterRound pies 0⟩

/-- From one system call to the next. A chunk has at most `PI_READ_SIZE - 1` bytes. -/
def OutputState.step (behind : ℕ → UInt8) (s : OutputState) (r : SysResult) :
    Option OutputState :=
  match s.control, r with
  | .selectAll i, .ready num =>
    if num = 0 then some { s with control := .returned }
    else (selectPi s.pies).map fun selectedPi => { s with control := .read i selectedPi }
  | .read i selectedPi, .readFailed =>
    let pies := reapPi s.pies selectedPi
    some { s with pies := pies, control := enterRound pies (i + 1) }
  | .read i _, .readNothing => some { s with control := enterRound s.pies (i + 1) }
  | .read i selectedPi, .readData data =>
    if 0 < data.length ∧ data.length ≤ 4095 then
      match scanData behind s.idx data with
      | (idx, true) =>
        let pies := reapPi s.pies selectedPi
        some ⟨pies, idx, enterRound pies (i + 1)⟩
      | (idx, false) => some { s with idx := idx, control := .selectOne i selectedPi }
    else none
  | .selectOne i selectedPi, .ready num =>
    if num = 0 then some { s with control := enterRound s.pies (i + 1) }
    else some { s with control := .read i selectedPi }
  | _, _ => none

/-- A read that delivered a chunk: from which pi, the bytes, and whether the pi was reaped by
the check for the exit string. -/
structure PiRead where
  pi : ℕ
  data : List UInt8
  done : Bool
deriving DecidableEq

/-- The read that a step records. -/
def OutputState.reads (behind : ℕ → UInt8) (s : OutputState) (r : SysResult) : List PiRead :=
  match s.control, r with
  | .read _ selectedPi, .readData data =>
    [⟨selectedPi, data, (scanData behind s.idx data).2⟩]
  | _, _ => []

/-- A run of `get_pi_output` up to some system call, with the reads it has made. -/
inductive OutputRun (behind : ℕ → UInt8) (pies : List MacPi) : List PiRead → OutputState → Prop
  | start : OutputRun behind pies [] (.start pies)
  | step {reads : List PiRead} {s s' : OutputState} {r : SysResult}
      (hrun : OutputRun behind pies reads s) (hstep : s.step behind r = some s') :
      OutputRun behind pies (reads ++ s.reads behind r) s'

/-- What holds of each entry of a history and the entries before it, one entry later. -/
theorem forall_split_concat {α : Type} {xs : List α} {x : α} {P : List α → α → Prop} :
    (∀ before y after, xs ++ [x] = before ++ y :: after → P before y) ↔
      (∀ before y after, xs = before ++ y :: after → P before y) ∧ P xs x := by
  constructor
  · intro h
    refine ⟨fun before y after he => ?_, h xs x [] rfl⟩
    exact h before y (after ++ [x]) (by rw [he, List.append_assoc, List.cons_append])
  · rintro ⟨h, hx⟩ before y after he
    cases List.eq_nil_or_concat after with
    | inl hnil =>
      subst hnil
      obtain ⟨rfl, hy⟩ := List.append_inj' he rfl
      obtain rfl := List.singleton_inj.mp hy
      exact hx
    | inr hsome =>
      obtain ⟨more, z, rfl⟩ := hsome
      rw [List.concat_eq_append, ← List.cons_append, ← List.append_assoc] at he
      exact h before y more (List.append_inj' he rfl).1

/-! ## The search for the next pi -/

/-- The first open pi. -/
def firstOpen (pies : List MacPi) : Option ℕ := pies.findIdx? MacPi.isOpen

theorem searchPi_eq (pies : List MacPi) {k n : ℕ} (hk : k + n = pies.length) :
    searchPi pies (-1) n (k - 1 : ℤ) =
      ((pies.drop k).findIdx? MacPi.isOpen).map fun i => i + k := by
  induction n generalizing k with
  | zero =>
    rw [List.drop_of_length_le (by omega)]
    rfl
  | succ n ih =>
    have hlt : k < pies.length := by omega
    have hnext : ((k : ℤ) - 1 + 1) = k := by omega
    have hwrap : ¬ ((k : ℤ) = pies.length) := by omega
    have hprev : (k : ℤ) ≠ -1 := by omega
    rw [searchPi, hnext, if_neg hwrap, Int.toNat_natCast, List.getElem?_eq_getElem hlt,
      List.drop_eq_getElem_cons hlt, List.findIdx?_cons]
    cases hopen : pies[k].isOpen with
    | true => simp [hopen]
    | false =>
      have hrest := ih (k := k + 1) (by omega)
      rw [Nat.cast_add, Nat.cast_one, add_sub_cancel_right] at hrest
      rw [Option.map_some, hopen, if_pos ⟨hprev, rfl⟩, hrest]
      simp [Nat.add_comm 1 k]

/-- The search ends at the first open pi. -/
theorem selectPi_eq (pies : List MacPi) : selectPi pies = firstOpen pies := by
  have h := searchPi_eq pies (k := 0) (n := pies.length) (by omega)
  rw [selectPi, firstOpen]
  simpa using h

/-- Once the first open pi is reaped, the first open pi is a later one. -/
theorem firstOpen_reapPi {pies : List MacPi} {k m : ℕ} (hk : firstOpen pies = some k)
    (hm : firstOpen (reapPi pies k) = some m) : k < m := by
  obtain ⟨hklt, -, hbefore⟩ := List.findIdx?_eq_some_iff_getElem.mp hk
  obtain ⟨hmlt, hopen, -⟩ := List.findIdx?_eq_some_iff_getElem.mp hm
  simp only [reapPi, List.length_modify] at hmlt
  simp only [reapPi, List.getElem_modify] at hopen
  by_contra hle
  by_cases he : k = m
  · simp [he] at hopen
  · rw [if_neg he] at hopen
    exact hbefore m (by omega) hopen

/-! ## What a step can do -/

/-- The pi that is read from, or waited for. -/
def OutputState.Selected (s : OutputState) (k : ℕ) : Prop :=
  ∃ i, s.control = .read i k ∨ s.control = .selectOne i k

/-- At the head of the loop over the rounds no pi is selected. -/
theorem not_selected_enterRound {pies : List MacPi} {idx i k : ℕ} :
    ¬ OutputState.Selected ⟨pies, idx, enterRound pies i⟩ k := by
  rintro ⟨j, h⟩
  rw [enterRound] at h
  split at h <;> simp at h

/-- A step reads a chunk, or reaps a pi that cannot be read, or leaves the pies alone and keeps
the selected pi or selects the first open one. -/
theorem OutputState.step_cases {behind : ℕ → UInt8} {s s' : OutputState} {r : SysResult}
    (h : s.step behind r = some s') :
    (∃ k data, s.Selected k ∧ data ≠ [] ∧
      s.reads behind r = [⟨k, data, (scanData behind s.idx data).2⟩] ∧
      s'.idx = (scanData behind s.idx data).1 ∧
      if (scanData behind s.idx data).2 then
        s'.pies = reapPi s.pies k ∧ ∀ m, ¬ s'.Selected m
      else s'.pies = s.pies ∧ ∀ m, s'.Selected m → m = k) ∨
    (s.reads behind r = [] ∧ s'.idx = s.idx ∧ (∀ m, ¬ s'.Selected m) ∧
      ∃ k, s.Selected k ∧ s'.pies = reapPi s.pies k) ∨
    (s.reads behind r = [] ∧ s'.idx = s.idx ∧ s'.pies = s.pies ∧
      ∀ k, s'.Selected k → s.Selected k ∨ firstOpen s.pies = some k) := by
  obtain ⟨pies, idx, control⟩ := s
  cases control with
  | selectAll i =>
    cases r with
    | ready num =>
      simp only [step] at h
      split at h
      · cases h
        refine Or.inr (Or.inr ⟨rfl, rfl, rfl, ?_⟩)
        rintro k ⟨j, hj⟩
        simp at hj
      · obtain ⟨k, hk, rfl⟩ := Option.map_eq_some_iff.mp h
        refine Or.inr (Or.inr ⟨rfl, rfl, rfl, ?_⟩)
        rintro m ⟨j, hj⟩
        obtain ⟨-, rfl⟩ : i = j ∧ k = m := by simpa using hj
        exact Or.inr (by rw [← selectPi_eq]; exact hk)
    | readFailed => simp [step] at h
    | readNothing => simp [step] at h
    | readData data => simp [step] at h
  | read i k =>
    have hsel : OutputState.Selected ⟨pies, idx, .read i k⟩ k := ⟨i, Or.inl rfl⟩
    cases r with
    | ready num => simp [step] at h
    | readFailed =>
      cases h
      exact Or.inr (Or.inl ⟨rfl, rfl, fun _ => not_selected_enterRound, k, hsel, rfl⟩)
    | readNothing =>
      cases h
      exact Or.inr (Or.inr ⟨rfl, rfl, rfl, fun m hm => absurd hm not_selected_enterRound⟩)
    | readData data =>
      simp only [step] at h
      split at h
      · rename_i hlen
        have hdata : data ≠ [] := List.length_pos_iff.mp hlen.1
        refine Or.inl ⟨k, data, hsel, hdata, rfl, ?_⟩
        split at h
        · rename_i out hscan
          cases h
          refine ⟨by rw [hscan], ?_⟩
          rw [if_pos (by rw [hscan])]
          exact ⟨rfl, fun _ => not_selected_enterRound⟩
        · rename_i out hscan
          cases h
          refine ⟨by rw [hscan], ?_⟩
          rw [if_neg (by rw [hscan]; simp)]
          refine ⟨rfl, ?_⟩
          rintro m ⟨j, hj⟩
          obtain ⟨-, rfl⟩ : i = j ∧ k = m := by simpa using hj
          rfl
      · simp at h
  | selectOne i k =>
    have hsel : OutputState.Selected ⟨pies, idx, .selectOne i k⟩ k := ⟨i, Or.inr rfl⟩
    cases r with
    | ready num =>
      simp only [step] at h
      split at h
      · cases h
        exact Or.inr (Or.inr ⟨rfl, rfl, rfl, fun m hm => absurd hm not_selected_enterRound⟩)
      · cases h
        refine Or.inr (Or.inr ⟨rfl, rfl, rfl, ?_⟩)
        rintro m ⟨j, hj⟩
        obtain ⟨-, rfl⟩ : i = j ∧ k = m := by simpa using hj
        exact Or.inl hsel
    | readFailed => simp [step] at h
    | readNothing => simp [step] at h
    | readData data => simp [step] at h
  | returned => cases r <;> simp [step] at h

end NaiveGfs
