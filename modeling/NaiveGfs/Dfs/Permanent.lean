import Mathlib.Logic.Relation
import NaiveGfs.Dfs.ConfigSector

/-!
# The answers of a disk are permanent

Whatever calls of `id_for_dfs` follow, an entry that has no free entry in front of it keeps
its 32 bytes: a call writes at most the first free entry. So the scan for a name that once
stopped at a matching entry stops there forever.
-/

namespace NaiveGfs

open BlockStore

variable {vol : Volume} {cfgClusterNo : UInt32} {dfsName : Fin 30 → UInt8}

/-- The config sector of a pi as its card has it. -/
def cardConfig (vol : Volume) (cfgClusterNo : UInt32) (card : Card) : Sector :=
  card.current (clusterNoToLba vol cfgClusterNo)

/-- The ids that can arrive at `id_for_dfs`: `op & 0xff`. -/
def IsByteId (id : ℤ) : Prop := 0 ≤ id ∧ id ≤ 255

instance (id : ℤ) : Decidable (IsByteId id) := inferInstanceAs (Decidable (_ ∧ _))

/-- One call of `id_for_dfs` on a card, with any name and any id. -/
def IdCall (vol : Volume) (cfgClusterNo : UInt32) (card card' : Card) : Prop :=
  ∃ dfsName id stack r, IsByteId id ∧
    idForDfs sdDriver vol cfgClusterNo dfsName id stack card = some (r, card')

/-- Any number of calls. -/
abbrev IdCalls (vol : Volume) (cfgClusterNo : UInt32) : Card → Card → Prop :=
  Relation.ReflTransGen (IdCall vol cfgClusterNo)

/-! ## What a call leaves alone -/

section Sector

variable {s s' : Sector} {i : Fin 16}

/-- Neither an entry nor any entry in front of it is free. -/
def Settled (s : Sector) (i : Fin 16) : Prop := ∀ j ≤ i, (s.entry j).isFree = false

theorem Settled.congr (h : Settled s i) (hslot : ∀ j ≤ i, s'.slot j = s.slot j) :
    Settled s' i := by
  intro j hj
  rw [Sector.entry, hslot j hj]
  exact h j hj

theorem Settled.mono {j : Fin 16} (h : Settled s i) (hj : j ≤ i) : Settled s j :=
  fun k hk => h k (hk.trans hj)

/-- A call writes at most one entry, and that one is free. -/
theorem slot_scanSector (h : Settled s i) (dfsName : Fin 30 → UInt8) (id : ℤ) :
    (scanSector s dfsName id).slot i = s.slot i := by
  rcases scan_cases s dfsName with ⟨hfull, -⟩ | ⟨k, -, ⟨hfree, hk⟩ | ⟨-, hk⟩⟩
  · simp only [scanSector, hfull]
  · have hne : i ≠ k := by
      rintro rfl
      exact absurd hfree (by simp [h i (le_refl i)])
    simp only [scanSector, hk]
    exact Sector.slot_setSlot_of_ne s hne _
  · simp only [scanSector, hk]

/-- A matching entry and those in front of it are in use. -/
theorem settled_of_scan_matched (h : scan s dfsName = .matched i) : Settled s i := by
  obtain ⟨hpre, hmatch⟩ := passes_of_scan_matched h
  intro j hj
  rcases lt_or_eq_of_le hj with hlt | rfl
  · exact (hpre j hlt).1
  · rw [ConfigEntry.matchesName, Bool.and_eq_true, Bool.not_eq_true'] at hmatch
    exact hmatch.1

/-- The scan for a name stops where it did as long as the entries up to there are the same. -/
theorem scan_matched_congr (h : scan s dfsName = .matched i)
    (hslot : ∀ j ≤ i, s'.slot j = s.slot j) : scan s' dfsName = .matched i := by
  obtain ⟨hpre, hmatch⟩ := passes_of_scan_matched h
  have hentry : ∀ j ≤ i, s'.entry j = s.entry j := by
    intro j hj
    rw [Sector.entry, hslot j hj, Sector.entry]
  apply scan_of_matched
  · intro j hj
    rw [Passes, hentry j hj.le]
    exact hpre j hj
  · rw [hentry i (le_refl i)]
    exact hmatch

end Sector

/-! ## What calls leave alone -/

variable {card card' : Card} {i : Fin 16}

/-- A call that returns has scanned the sector and leaves what the scan computes. -/
theorem cardConfig_of_call {id r : ℤ} {stack : Sector}
    (h : idForDfs sdDriver vol cfgClusterNo dfsName id stack card = some (r, card')) :
    r = scanResult (cardConfig vol cfgClusterNo card) dfsName ∧
      cardConfig vol cfgClusterNo card' =
        scanSector (cardConfig vol cfgClusterNo card) dfsName id := by
  simp only [idForDfs, sdDriver] at h
  simp only [cardConfig, scanResult, scanSector]
  cases hscan : scan (card.current (clusterNoToLba vol cfgClusterNo)) dfsName with
  | free i =>
    simp only [hscan] at h
    split at h
    · simp at h
    · obtain ⟨rfl, rfl⟩ := Prod.mk.inj (Option.some.inj h)
      refine ⟨rfl, ?_⟩
      rw [Store.current_write, Function.update_self]
  | matched i =>
    simp only [hscan] at h
    obtain ⟨rfl, rfl⟩ := Prod.mk.inj (Option.some.inj h)
    exact ⟨rfl, rfl⟩
  | full =>
    simp only [hscan] at h
    obtain ⟨rfl, rfl⟩ := Prod.mk.inj (Option.some.inj h)
    refine ⟨rfl, ?_⟩
    rw [Store.current_write, Function.update_self]

theorem IdCall.slot_eq (h : IdCall vol cfgClusterNo card card')
    (hi : Settled (cardConfig vol cfgClusterNo card) i) :
    (cardConfig vol cfgClusterNo card').slot i = (cardConfig vol cfgClusterNo card).slot i := by
  obtain ⟨dfsName, id, stack, r, -, hcall⟩ := h
  rw [(cardConfig_of_call hcall).2]
  exact slot_scanSector hi dfsName id

/-- However many calls there are, settled entries keep their bytes. -/
theorem IdCalls.slot_eq (h : IdCalls vol cfgClusterNo card card')
    (hi : Settled (cardConfig vol cfgClusterNo card) i) :
    ∀ j ≤ i, (cardConfig vol cfgClusterNo card').slot j =
      (cardConfig vol cfgClusterNo card).slot j := by
  induction h with
  | refl => exact fun _ _ => rfl
  | tail _ hcall ih =>
    intro j hj
    have hsettled := (hi.congr ih).mono hj
    rw [hcall.slot_eq hsettled, ih j hj]

/-- Once the scan for a name has stopped at a matching entry, every later call for that name
returns the id of the entry and writes nothing. -/
theorem IdCalls.answer (h : IdCalls vol cfgClusterNo card card')
    (hscan : scan (cardConfig vol cfgClusterNo card) dfsName = .matched i) (id : ℤ)
    (stack : Sector) : idForDfs sdDriver vol cfgClusterNo dfsName id stack card' =
      some ((((cardConfig vol cfgClusterNo card).entry i).id.toNat : ℤ), card') := by
  have hslot := h.slot_eq (settled_of_scan_matched hscan)
  have hentry : (cardConfig vol cfgClusterNo card').entry i =
      (cardConfig vol cfgClusterNo card).entry i := by
    rw [Sector.entry, hslot i (le_refl i), Sector.entry]
  rw [← hentry]
  exact idForDfs_of_matched (scan_matched_congr hscan hslot) id stack

/-- Between two sectors an entry that was free has been filled. -/
def FillsEntry (before after : Sector) : Prop :=
  ∃ i, (before.entry i).isFree = true ∧ (after.entry i).isFree = false

/-- A call that fills an entry leaves the name there, with the id it was given. -/
theorem scan_of_fills {id : ℤ} {s : Sector} (hname : ¬ IsEnd (dfsName 0)) (hid : IsByteId id)
    (h : FillsEntry s (scanSector s dfsName id)) :
    ∃ i, scan (scanSector s dfsName id) dfsName = .matched i ∧
      (((scanSector s dfsName id).entry i).id.toNat : ℤ) = id := by
  obtain ⟨k, hbefore, hafter⟩ := h
  have hchanged : scanSector s dfsName id ≠ s := by
    intro he
    rw [he, hbefore] at hafter
    exact absurd hafter (by simp)
  cases hscan : scan s dfsName with
  | matched i => exact absurd (by simp only [scanSector, hscan]) hchanged
  | full => exact absurd (by simp only [scanSector, hscan]) hchanged
  | free i =>
    have hsector : scanSector s dfsName id = s.setEntry i ((s.entry i).assign dfsName id) := by
      simp only [scanSector, hscan]
    refine ⟨i, ?_, ?_⟩
    · rw [hsector]
      exact scan_setEntry_assign hname (passes_of_scan_free hscan).1 id
    · rw [hsector, Sector.entry_setEntry_self]
      -- an id of one byte fits the 16-bit field
      obtain ⟨n, rfl⟩ := Int.eq_ofNat_of_zero_le hid.1
      have hle := hid.2
      show ((UInt16.ofInt (n : ℤ)).toNat : ℤ) = n
      rw [toNat_ofInt16]
      omega

theorem scan_of_result_nonneg {s : Sector} (h : 0 ≤ scanResult s dfsName) :
    ∃ i, scan s dfsName = .matched i ∧ scanResult s dfsName = (s.entry i).id.toNat := by
  cases hscan : scan s dfsName with
  | matched i => exact ⟨i, rfl, by simp only [scanResult, hscan]⟩
  | free i => simp [scanResult, hscan] at h
  | full => simp [scanResult, hscan] at h

theorem scanSector_of_matched {s : Sector} (h : scan s dfsName = .matched i) (id : ℤ) :
    scanSector s dfsName id = s := by
  simp only [scanSector, h]

/-- A disk's answer for a name is permanent: once a call for the name has returned an id, or
has filled a free entry with it, every later call for it returns that id and writes nothing,
whatever calls come in between; and no call ever changes an entry that has no free entry at
or in front of it. -/
theorem idForDfs_permanent (hname : ¬ IsEnd (dfsName 0)) {id r : ℤ} (hid : IsByteId id)
    {stack : Sector} {card card₁ card₂ : Card}
    (hcall : idForDfs sdDriver vol cfgClusterNo dfsName id stack card = some (r, card₁))
    (hlater : IdCalls vol cfgClusterNo card₁ card₂) :
    (0 ≤ r → ∀ id' stack', IsByteId id' →
        idForDfs sdDriver vol cfgClusterNo dfsName id' stack' card₂ = some (r, card₂)) ∧
      (FillsEntry (cardConfig vol cfgClusterNo card) (cardConfig vol cfgClusterNo card₁) →
        ∀ id' stack', IsByteId id' →
          idForDfs sdDriver vol cfgClusterNo dfsName id' stack' card₂ = some (id, card₂)) ∧
      ∀ i, Settled (cardConfig vol cfgClusterNo card) i →
        (cardConfig vol cfgClusterNo card₂).slot i = (cardConfig vol cfgClusterNo card).slot i := by
  obtain ⟨hr, hsector⟩ := cardConfig_of_call hcall
  refine ⟨fun hnonneg id' stack' _ => ?_, fun hfills id' stack' _ => ?_, fun i hi => ?_⟩
  · -- the call found an entry and left the sector as it was
    rw [hr] at hnonneg
    obtain ⟨i, hscan, hresult⟩ := scan_of_result_nonneg hnonneg
    have hsame := hsector.trans (scanSector_of_matched hscan id)
    have hanswer := hlater.answer (by rw [hsame]; exact hscan) id' stack'
    rw [hanswer, hsame, hr, hresult]
  · rw [hsector] at hfills
    obtain ⟨i, hscan, hstored⟩ := scan_of_fills hname hid hfills
    rw [← hsector] at hscan hstored
    rw [hlater.answer hscan id' stack', hstored]
  · have hcalls : IdCalls vol cfgClusterNo card card₂ :=
      Relation.ReflTransGen.head ⟨dfsName, id, stack, r, hid, hcall⟩ hlater
    exact hcalls.slot_eq hi i (le_refl i)

/-- A blank card after the name `a` has been given the id 5 and the name `b` the id 7. -/
theorem idForDfs_permanent_blank :
    let a : Fin 30 → UInt8 := fun j => if j = 0 then 0x61 else 0
    let b : Fin 30 → UInt8 := fun j => if j = 0 then 0x62 else 0
    let first := scanSector blankSector a 5
    let card₁ := Store.write ⟨fun _ => blankSector, []⟩ 3 first
    let card₂ := card₁.write 3 (scanSector first b 7)
    ∀ id' stack', IsByteId id' →
      idForDfs sdDriver smallVolume 3 a id' stack' card₂ = some (5, card₂) := by
  intro a b first card₁ card₂
  have hfirst : idForDfs sdDriver smallVolume 3 a 5 blankSector ⟨fun _ => blankSector, []⟩ =
      some (-1, card₁) := rfl
  have hsecond : IdCall smallVolume 3 card₁ card₂ :=
    ⟨b, 7, blankSector, -1, by decide, rfl⟩
  exact (idForDfs_permanent (by decide) (by decide) hfirst
    (Relation.ReflTransGen.single hsecond)).2.1 ⟨0, by decide, by decide⟩

end NaiveGfs
