import NaiveGfs.Dfs.Fleet

/-!
# The range of the ids handed out

The counter of free ids is a 32-bit word in the dfs file, the id on offer is its low byte,
and neither side ever compares it with the sixteen devices that a `dfs_entry` can name or
with the -1 that says that no id is left. `history` lists what each boot of a run did, and
`honours_iff` says at which boots ids stay in range and exhaustion is honoured: where an id
is left.
-/

namespace NaiveGfs

open TwoParty

variable {ι : Type}

/-- Whether the pi has run `id_for_dfs` by the time `dfs_boot` ends. -/
def BootEnd.ranIdForDfs : BootEnd → Bool
  | .complete => true
  | .timeout => false
  | .panic stored => stored

/-- The boot of one pi: how it ended, `*first_free_id` and the config sector before it, and
the config sector after it. -/
structure BootRecord where
  ended : BootEnd
  firstFreeId : UInt32
  before : Sector
  after : Sector

section History

variable [DecidableEq ι] (dfsName : Fin 30 → UInt8)

/-- The boot that an event makes of the next pi. -/
def Fleet.bootRecord (s : Fleet ι) : Event ι → Option BootRecord
  | .boot e =>
    match s.run with
    | some ⟨id, dirtyDfs, i :: rest⟩ =>
      some ⟨e, id, s.disks i, (bootPi dfsName s id dirtyDfs i rest e).disks i⟩
    | _ => none
  | _ => none

/-- The boots of a run, in order. -/
def Fleet.history : List (Event ι) → Fleet ι → List BootRecord
  | [], _ => []
  | e :: es, s =>
    match s.step dfsName e with
    | none => []
    | some t => (s.bootRecord dfsName e).toList ++ Fleet.history es t

end History

/-! ## What a boot stores, counts and reports -/

section Record

variable (dfsName : Fin 30 → UInt8) (r : BootRecord)

/-- The id that the pi stores in its config sector. -/
def BootRecord.storedId : Option UInt16 :=
  match r.ended.ranIdForDfs, scan r.before dfsName with
  | true, .free i => some (r.after.entry i).id
  | _, _ => none

/-- The full value that the mac counts as taken. -/
def BootRecord.countedId : Option UInt32 :=
  if r.ended = .complete ∧ counterAfter r.before dfsName r.firstFreeId ≠ r.firstFreeId then
    some r.firstFreeId
  else none

/-- The id byte that the mac is told. -/
def BootRecord.reportedId : Option UInt8 :=
  if r.ended = .complete then
    some (claimedByte (offeredId r.firstFreeId) (scanResult r.before dfsName))
  else none

/-- An id that is stored is below 16 and the one that the mac counts as taken, and where no
such id is left a pi without an entry for the name stores none and reports none. -/
structure BootRecord.Honours : Prop where
  inRange : ∀ a, r.storedId dfsName = some a →
    a.toNat < 16 ∧ ∃ c, r.countedId dfsName = some c ∧ c.toNat = a.toNat
  exhausted : ¬ r.firstFreeId < 16 → heldId dfsName r.before = none →
    r.storedId dfsName = none ∧ r.reportedId dfsName = none

/-- A pi without an entry for the name is booted to the end only where an id is left, and no
panic ends the mac once such a pi has stored an id. -/
def BootRecord.IdLeft : Prop :=
  match r.ended with
  | .complete => heldId dfsName r.before = none → r.firstFreeId < 16
  | .timeout => True
  | .panic stored => stored = true → ∀ i, scan r.before dfsName ≠ .free i

/-- A boot as the machine makes it. -/
def BootRecord.Made : Prop :=
  r.after = if r.ended.ranIdForDfs then
    scanSector r.before dfsName (offeredId r.firstFreeId).toNat else r.before

end Record

section Boot

variable {dfsName : Fin 30 → UInt8} {r : BootRecord}

theorem heldId_eq_none {sec : Sector} :
    heldId dfsName sec = none ↔ ∀ i, scan sec dfsName ≠ .matched i := by
  rw [heldId]
  cases scan sec dfsName with
  | matched i => simp
  | free i => simp
  | full => simp

/-- The id that a pi stores is the low byte of the counter. -/
theorem storedId_of_free (hmade : r.Made dfsName) (hran : r.ended.ranIdForDfs = true)
    {i : Fin 16} (hscan : scan r.before dfsName = .free i) :
    r.storedId dfsName = some (UInt16.ofInt (offeredId r.firstFreeId).toNat) := by
  have hafter : r.after = r.before.setEntry i
      ((r.before.entry i).assign dfsName (offeredId r.firstFreeId).toNat) := by
    rw [hmade, if_pos hran]
    simp only [scanSector, hscan]
  have hentry : (r.after.entry i).id = UInt16.ofInt (offeredId r.firstFreeId).toNat := by
    rw [hafter, Sector.entry_setEntry_self]
    rfl
  simp only [BootRecord.storedId, hran, hscan, hentry]

theorem storedId_of_not_free (hscan : ∀ i, scan r.before dfsName ≠ .free i) :
    r.storedId dfsName = none := by
  rw [BootRecord.storedId]
  split
  · rename_i i _ hfree
    exact absurd hfree (hscan i)
  · rfl

theorem storedId_of_not_ran (hran : r.ended.ranIdForDfs = false) :
    r.storedId dfsName = none := by
  rw [BootRecord.storedId]
  split
  · rename_i htrue _
    exact absurd (htrue.symm.trans hran) (by simp)
  · rfl

theorem countedId_of_free (hended : r.ended = .complete) {i : Fin 16}
    (hscan : scan r.before dfsName = .free i) :
    r.countedId dfsName = some r.firstFreeId := by
  have hnext : counterAfter r.before dfsName r.firstFreeId = r.firstFreeId + 1 := by
    simp only [counterAfter, scanResult, hscan, if_pos]
  have hne : r.firstFreeId + 1 ≠ r.firstFreeId := by simp
  rw [BootRecord.countedId, hnext, if_pos ⟨hended, hne⟩]

/-- A boot that stores nothing and reports nothing honours everything. -/
theorem honours_of_silent (hstored : r.storedId dfsName = none)
    (hended : r.ended ≠ .complete) : r.Honours dfsName where
  inRange a ha := absurd (hstored.symm.trans ha) (by simp)
  exhausted _ _ := ⟨hstored, by rw [BootRecord.reportedId, if_neg hended]⟩

/-- A completed boot honours the range exactly where an id is left for a pi that needs one. -/
theorem honours_complete_iff (hmade : r.Made dfsName) (hended : r.ended = .complete) :
    r.Honours dfsName ↔ (heldId dfsName r.before = none → r.firstFreeId < 16) := by
  have hran : r.ended.ranIdForDfs = true := by rw [hended]; rfl
  constructor
  · intro h hnone
    by_contra hleft
    have hreported := (h.exhausted hleft hnone).2
    rw [BootRecord.reportedId, if_pos hended] at hreported
    exact absurd hreported (by simp)
  · intro h
    refine ⟨fun a ha => ?_, fun hleft hnone => absurd (h hnone) hleft⟩
    cases hscan : scan r.before dfsName with
    | matched i =>
      rw [storedId_of_not_free (by simp [hscan])] at ha
      exact absurd ha (by simp)
    | full =>
      rw [storedId_of_not_free (by simp [hscan])] at ha
      exact absurd ha (by simp)
    | free i =>
      have hleft := h (heldId_eq_none.mpr (by simp [hscan]))
      have hlt : r.firstFreeId.toNat < 16 := UInt32.lt_iff_toNat_lt.mp hleft
      rw [storedId_of_free hmade hran hscan] at ha
      obtain rfl := Option.some.inj ha
      have hvalue : (UInt16.ofInt ((offeredId r.firstFreeId).toNat : ℤ)).toNat =
          r.firstFreeId.toNat := by
        rw [toNat_ofInt16, toNat_offeredId]
        omega
      rw [hvalue]
      exact ⟨hlt, r.firstFreeId, countedId_of_free hended hscan, rfl⟩

/-- One boot keeps ids in range and honours exhaustion exactly where an id is left. -/
theorem honours_iff (hmade : r.Made dfsName) : r.Honours dfsName ↔ r.IdLeft dfsName := by
  rw [BootRecord.IdLeft]
  cases hended : r.ended with
  | complete => exact honours_complete_iff hmade hended
  | timeout =>
    have hran : r.ended.ranIdForDfs = false := by rw [hended]; rfl
    exact iff_of_true (honours_of_silent (storedId_of_not_ran hran) (by simp [hended])) trivial
  | panic stored =>
    have hsilent : r.ended ≠ .complete := by simp [hended]
    have hran : r.ended.ranIdForDfs = stored := by rw [hended]; rfl
    constructor
    · -- the mac never counts an id that is stored in a boot that ends in a panic
      intro h hstored i hscan
      have hsome := storedId_of_free hmade (hran.trans hstored) hscan
      obtain ⟨-, c, hc, -⟩ := h.inRange _ hsome
      rw [BootRecord.countedId, if_neg (fun hcond => hsilent hcond.1)] at hc
      exact absurd hc (by simp)
    · intro h
      refine honours_of_silent ?_ hsilent
      cases stored with
      | false => exact storedId_of_not_ran hran
      | true => exact storedId_of_not_free (h rfl)

end Boot

/-- The record of an exchange that runs to completion on both machines. -/
theorem bootRecord_of_exchange {words : List UInt32} {setup : Card → Volume × UInt32 × Card}
    {stack : Sector} {op id : UInt32} {p : Pi Card} {c : Config Mac (Pi Card) UInt8 UInt8}
    (hc : Reaches (macAct words) (piAct ⟨sdDriver, setup, stack⟩) (exchangeStart op id p) c)
    (hdone : Done c) :
    let r : BootRecord := ⟨.complete, id, configSector p,
      c.right.dev.current (clusterNoToLba p.vol p.cfgClusterNo)⟩
    r.Made p.dfsName ∧
      r.reportedId p.dfsName = some c.left.claimedId.toUInt8 ∧
      r.countedId p.dfsName = if c.left.assignableId ≠ id then some id else none := by
  obtain ⟨hcount, hclaimed, hsector⟩ := exchange_done hc hdone
  refine ⟨hsector, ?_, ?_⟩
  · rw [BootRecord.reportedId, if_pos rfl, hclaimed]
    simp
  · rw [BootRecord.countedId, hcount]
    simp

/-! ## Runs -/

section Run

variable [DecidableEq ι] {dfsName : Fin 30 → UInt8}

/-- The boots of a run are made by `id_for_dfs` on the id on offer. -/
theorem bootRecord_made {s : Fleet ι} {e : Event ι} {r : BootRecord}
    (h : s.bootRecord dfsName e = some r) : r.Made dfsName := by
  cases e with
  | start pies => simp [Fleet.bootRecord] at h
  | finish => simp [Fleet.bootRecord] at h
  | boot b =>
    simp only [Fleet.bootRecord] at h
    split at h
    · rename_i id dirtyDfs i rest hrun
      obtain rfl := Option.some.inj h
      cases b with
      | complete => exact Function.update_self _ _ _
      | timeout => rfl
      | panic stored =>
        cases stored with
        | false => rfl
        | true => exact Function.update_self _ _ _
    · exact absurd h (by simp)

theorem history_made (es : List (Event ι)) (s : Fleet ι) :
    ∀ r ∈ s.history dfsName es, r.Made dfsName := by
  induction es generalizing s with
  | nil => simp [Fleet.history]
  | cons e es ih =>
    rw [Fleet.history]
    cases hstep : s.step dfsName e with
    | none => simp
    | some t =>
      intro r hr
      cases List.mem_append.mp hr with
      | inl hr => exact bootRecord_made (Option.mem_toList.mp hr)
      | inr hr => exact ih t r hr

/-- In a run of any events from any fleet, with any counter in the dfs file, every id stored
is in range and counted and exhaustion is honoured throughout, if and only if at every boot
an id is left for a pi that has none. -/
theorem history_honours_iff (s : Fleet ι) (es : List (Event ι)) :
    (∀ r ∈ s.history dfsName es, r.Honours dfsName) ↔
      ∀ r ∈ s.history dfsName es, r.IdLeft dfsName :=
  forall₂_congr fun r hr => honours_iff (history_made es s r hr)

end Run

/-- With -1 in the dfs file the first pi stores the id 255. -/
theorem exhausted_storesId :
    ¬ ∀ r ∈ (⟨some 0xffffffff, fun _ => blankSector, none⟩ : Fleet (Fin 1)).history sampleName
      [.start [0], .boot .complete, .finish], r.Honours sampleName := by
  intro h
  let r : BootRecord := ⟨.complete, 0xffffffff, blankSector,
    scanSector blankSector sampleName (offeredId 0xffffffff).toNat⟩
  have hboot : r.Honours sampleName := h r List.mem_cons_self
  have hmade : r.Made sampleName := rfl
  have hscan : scan r.before sampleName = .free 0 := by decide
  have hstored := (hboot.exhausted (by decide) (by decide)).1
  rw [storedId_of_free hmade rfl hscan] at hstored
  exact absurd hstored (by simp)

end NaiveGfs
