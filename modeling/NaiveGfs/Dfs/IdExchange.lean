import NaiveGfs.Dfs.Rounds

/-!
# Handing out an id

The part of the protocol from `REQUEST_ID` on, on a card that does not fail. Every
interleaving ends in the same state, so what `id_for_dfs` finds in the config sector decides
what both sides believe. `id_for_dfs` returns -1 both when it has stored the id and when the
table is full, and the pi sends only the low byte of a stored id: the two sides agree
exactly when neither happens (`idExchange_agree_iff`).
-/

namespace NaiveGfs

open LittleEndian TwoParty

variable {κ : Type}

/-- `dfs_boot` and `entry` have returned, and everything is sent. -/
structure Done (c : Config Mac (Pi κ) UInt8 UInt8) : Prop where
  mac : c.left.pc = .returned
  pi : c.right.pc = .returned
  out : c.right.out = []

theorem Done.stuck {words : List UInt32} {env : PiEnv κ} {c : Config Mac (Pi κ) UInt8 UInt8}
    (h : Done c) : Stuck (macAct words) (piAct env) c := by
  refine ⟨?_, ?_⟩
  · rw [macAct, h.mac]
    rfl
  · simp only [piAct, h.out, h.pi, Act.perform]

/-- Both sides in front of `REQUEST_ID`: `put32` on the mac, the wait loop on the pi. -/
def exchangeStart (op id : UInt32) (p : Pi κ) : Config Mac (Pi κ) UInt8 UInt8 :=
  ⟨⟨.putRequestId, [], op, id⟩, { p with pc := .waitRequestId, out := [], op := 0 }, [], []⟩

/-- The exchange can run to its end, and there is only one end. -/
theorem exists_idExchange (words : List UInt32) (env : PiEnv κ) (op id : UInt32) (p : Pi κ) :
    ∃ r dev', idForDfs env.drv p.vol p.cfgClusterNo p.dfsName (offeredId id).toNat env.stack
        p.dev = some (r, dev') ∧
      ∃ t, Reaches (macAct words) (piAct env) (exchangeStart op id p) t ∧ Done t ∧
        t.left.claimedId = (claimedByte (offeredId id) r).toUInt32 ∧
        t.left.assignableId = (if r = -1 then id + 1 else id) ∧ t.right.dev = dev' := by
  have hoffered : ((offeredId id).toNat : ℤ) ≠ -1 := by omega
  obtain ⟨r, dev', hassign⟩ :=
    exists_idForDfs env.drv p.vol p.cfgClusterNo p.dfsName hoffered env.stack p.dev
  refine ⟨r, dev', hassign, ?_⟩
  have hstart : Meets (macReads (answerBytes r) (claimedByte (offeredId id) r))
      (piReads words id) (⟨.putRequestId, [], op, id⟩ : Mac)
      ({ p with pc := .waitRequestId, out := [], op := 0 } : Pi κ) [] (TracedConfig.start _ _) :=
    Meets.start _ _
  obtain ⟨c, hc, hmeets⟩ := requestId_round env hstart
  obtain ⟨d, hd, hend⟩ := id_round env (p := { p with op := requestId }) hassign hmeets
  refine ⟨TracedConfig.erase d, Reaches.erase (hc.trans hd), ⟨?_, ?_, ?_⟩, ?_, ?_, ?_⟩
  · exact congrArg Mac.pc hend.left_state
  · exact congrArg Pi.pc hend.right_state
  · exact congrArg Pi.out hend.right_state
  · refine (congrArg Mac.claimedId hend.left_state).trans ?_
    exact word32_and_ff _ _ _ _
  · exact congrArg Mac.assignableId hend.left_state
  · exact congrArg Pi.dev hend.right_state

/-! ## The config sector at every point of the exchange -/

/-- The pi is between its config file and the end of `id_for_dfs`. -/
def PiPc.asking : PiPc → Bool
  | .waitRequestId | .ackRequestId | .getId | .assign => true
  | _ => false

/-- The pi has returned from `id_for_dfs`. -/
def PiPc.assigned : PiPc → Bool
  | .putAnswer | .putClaimed | .putDone | .returned | .halted => true
  | _ => false

section Steps

variable {env : PiEnv κ} {p p' : Pi κ} {inbox inbox' out : List UInt8}

/-- Behind `id_for_dfs` the device stays as it is. -/
theorem assigned_step (h : (piAct env p).perform inbox = some (p', inbox', out))
    (ha : p.pc.assigned = true) : p'.pc.assigned = true ∧ p'.dev = p.dev := by
  obtain ⟨pc, pending, op, word, count, dfsName, vol, cfgClusterNo, id, dev⟩ := p
  cases pending with
  | cons b bs =>
    simp only [piAct, Act.perform, Option.some.injEq, Prod.mk.injEq] at h
    obtain ⟨rfl, -, -⟩ := h
    exact ⟨ha, rfl⟩
  | nil =>
    cases pc <;> simp only [PiPc.assigned, Bool.false_eq_true] at ha <;>
      simp only [piAct, Act.perform, Option.some.injEq, Prod.mk.injEq, reduceCtorEq] at h
    all_goals
      obtain ⟨rfl, -, -⟩ := h
      exact ⟨rfl, rfl⟩

/-- Until `id_for_dfs` runs the device stays as it is. -/
theorem asking_step (h : (piAct env p).perform inbox = some (p', inbox', out))
    (ha : p.pc.asking = true) :
    p'.pc.assigned = true ∨ p'.pc.asking = true ∧ p'.dev = p.dev := by
  obtain ⟨pc, pending, op, word, count, dfsName, vol, cfgClusterNo, id, dev⟩ := p
  -- a byte read in a loop, or nothing when there is none
  have hrecv : ∀ {f : UInt8 → Pi κ}, (∀ b, (f b).pc.asking = true ∧ (f b).dev = dev) →
      (Act.recv f : Act (Pi κ) UInt8 UInt8).perform inbox = some (p', inbox', out) →
      p'.pc.asking = true ∧ p'.dev = dev := by
    intro f hf hp
    cases inbox with
    | nil => simp [Act.perform] at hp
    | cons b bs =>
      simp only [Act.perform, Option.some.injEq, Prod.mk.injEq] at hp
      exact hp.1 ▸ hf b
  cases pending with
  | cons b bs =>
    simp only [piAct, Act.perform, Option.some.injEq, Prod.mk.injEq] at h
    obtain ⟨rfl, -, -⟩ := h
    exact Or.inr ⟨ha, rfl⟩
  | nil =>
    cases pc <;> simp only [PiPc.asking, Bool.false_eq_true] at ha
    case waitRequestId =>
      simp only [piAct, waitFor] at h
      split at h
      · simp only [Act.perform, Option.some.injEq, Prod.mk.injEq] at h
        exact Or.inr (h.1 ▸ ⟨rfl, rfl⟩)
      · exact Or.inr (hrecv (fun b => ⟨rfl, rfl⟩) h)
    case ackRequestId =>
      simp only [piAct, Act.perform, Option.some.injEq, Prod.mk.injEq] at h
      exact Or.inr (h.1 ▸ ⟨rfl, rfl⟩)
    case getId =>
      simp only [piAct] at h
      split at h
      · exact Or.inr (hrecv (fun b => ⟨rfl, rfl⟩) h)
      · simp only [Act.perform, Option.some.injEq, Prod.mk.injEq] at h
        exact Or.inr (h.1 ▸ ⟨rfl, rfl⟩)
    case assign =>
      simp only [piAct] at h
      split at h <;> simp only [Act.perform, Option.some.injEq, Prod.mk.injEq] at h
      · exact Or.inl (h.1 ▸ rfl)
      · exact Or.inl (h.1 ▸ rfl)

end Steps

section Reached

variable {words : List UInt32} {env : PiEnv κ} {p : Pi κ}
  {c d : Config Mac (Pi κ) UInt8 UInt8}

theorem assigned_reaches (h : Reaches (macAct words) (piAct env) c d)
    (ha : c.right.pc.assigned = true) :
    d.right.pc.assigned = true ∧ d.right.dev = c.right.dev := by
  induction h with
  | refl => exact ⟨ha, rfl⟩
  | tail _ hstep ih =>
    cases hstep with
    | left _ => exact ih
    | right hr =>
      obtain ⟨hassigned, hdev⟩ := assigned_step hr ih.1
      exact ⟨hassigned, hdev.trans ih.2⟩

theorem asking_reaches (h : Reaches (macAct words) (piAct env) c d)
    (ha : c.right.pc.asking = true) :
    d.right.pc.assigned = true ∨ d.right.pc.asking = true ∧ d.right.dev = c.right.dev := by
  induction h with
  | refl => exact Or.inr ⟨ha, rfl⟩
  | tail _ hstep ih =>
    cases hstep with
    | left _ => exact ih
    | right hr =>
      rcases ih with hassigned | ⟨hasking, hdev⟩
      · exact Or.inl (assigned_step hr hassigned).1
      · rcases asking_step hr hasking with hassigned | ⟨hasking', hdev'⟩
        · exact Or.inl hassigned
        · exact Or.inr ⟨hasking', hdev'.trans hdev⟩

/-- At every point of the exchange the device is as before `id_for_dfs` or as after it. -/
theorem exchange_dev {id op : UInt32} {r : ℤ} {dev' : κ}
    (hassign : idForDfs env.drv p.vol p.cfgClusterNo p.dfsName (offeredId id).toNat env.stack
      p.dev = some (r, dev'))
    (h : Reaches (macAct words) (piAct env) (exchangeStart op id p) c) :
    c.right.dev = p.dev ∨ c.right.dev = dev' := by
  obtain ⟨r', dev'', hassign', t, ht, hdone, -, -, hdev⟩ := exists_idExchange words env op id p
  have hsame := Option.some.inj (hassign.symm.trans hassign')
  simp only [Prod.mk.injEq] at hsame
  rcases asking_reaches h rfl with hassigned | ⟨-, hdev'⟩
  · obtain ⟨-, hkeep⟩ := assigned_reaches (ht.of_final hdone.stuck h) hassigned
    exact Or.inr (hkeep.symm.trans (hdev.trans hsame.2.symm))
  · exact Or.inl hdev'

end Reached

/-- The config sector of a pi. -/
def configSector (p : Pi Card) : Sector := p.dev.current (clusterNoToLba p.vol p.cfgClusterNo)

/-- The counter of the mac after an exchange with the pi that has the config sector `s`. -/
def counterAfter (s : Sector) (dfsName : Fin 30 → UInt8) (id : UInt32) : UInt32 :=
  if scanResult s dfsName = -1 then id + 1 else id

section CardExchange

variable {words : List UInt32} {setup : Card → Volume × UInt32 × Card} {stack : Sector}
  {op id : UInt32} {p : Pi Card} {c : Config Mac (Pi Card) UInt8 UInt8}

/-- At every point of the exchange the config sector is the old one or the one that the scan
leaves. -/
theorem exchange_sector
    (hc : Reaches (macAct words) (piAct ⟨sdDriver, setup, stack⟩) (exchangeStart op id p) c) :
    c.right.dev.current (clusterNoToLba p.vol p.cfgClusterNo) = configSector p ∨
      c.right.dev.current (clusterNoToLba p.vol p.cfgClusterNo) =
        scanSector (configSector p) p.dfsName (offeredId id).toNat := by
  have hoffered : ((offeredId id).toNat : ℤ) ≠ -1 := by omega
  obtain ⟨card', hcall, hcurrent⟩ :=
    idForDfs_card p.vol p.cfgClusterNo p.dfsName hoffered stack p.dev
  cases exchange_dev hcall hc with
  | inl hdev => exact Or.inl (by rw [hdev]; rfl)
  | inr hdev =>
    refine Or.inr ?_
    rw [hdev, hcurrent, Function.update_self]
    rfl

/-- What a completed exchange leaves on both sides. -/
theorem exchange_done
    (hc : Reaches (macAct words) (piAct ⟨sdDriver, setup, stack⟩) (exchangeStart op id p) c)
    (hdone : Done c) :
    c.left.assignableId = counterAfter (configSector p) p.dfsName id ∧
      c.left.claimedId =
        (claimedByte (offeredId id) (scanResult (configSector p) p.dfsName)).toUInt32 ∧
      c.right.dev.current (clusterNoToLba p.vol p.cfgClusterNo) =
        scanSector (configSector p) p.dfsName (offeredId id).toNat := by
  obtain ⟨r, dev', hassign, t, ht, htdone, hclaimed, hcount, hdev⟩ :=
    exists_idExchange words ⟨sdDriver, setup, stack⟩ op id p
  have hct : c = t := ht.eq_of_stuck htdone.stuck hc hdone.stuck
  have hoffered : ((offeredId id).toNat : ℤ) ≠ -1 := by omega
  obtain ⟨card', hcall, hcurrent⟩ :=
    idForDfs_card p.vol p.cfgClusterNo p.dfsName hoffered stack p.dev
  have hres := Option.some.inj (hassign.symm.trans hcall)
  simp only [Prod.mk.injEq] at hres
  obtain ⟨rfl, rfl⟩ := hres
  refine ⟨hct ▸ hcount, hct ▸ hclaimed, ?_⟩
  rw [hct, hdev, hcurrent, Function.update_self]
  rfl

end CardExchange

/-! ## What the two sides believe afterwards -/

/-- `s'` is `s` with one free entry replaced by one for the name with the given id. -/
def NewEntry (s s' : Sector) (dfsName : Fin 30 → UInt8) (id : UInt32) : Prop :=
  ∃ i, (s.entry i).isFree = true ∧ (s'.entry i).matchesName dfsName = true ∧
    (s'.entry i).id.toNat = id.toNat ∧ ∀ j ≠ i, s'.entry j = s.entry j

/-- The mac and the pi agree on the outcome: the counter has moved on exactly when the config
sector has a new entry with its old value, the sector is otherwise unchanged and has an entry
for the name, and the id that the mac was told is the one that `id_for_dfs` will return. -/
structure Agree (p : Pi Card) (id : UInt32) (c : Config Mac (Pi Card) UInt8 UInt8) : Prop where
  increments : c.left.assignableId = id + 1 ↔
    NewEntry (configSector p) (c.right.dev.current (clusterNoToLba p.vol p.cfgClusterNo))
      p.dfsName id
  unchanged : c.left.assignableId ≠ id + 1 →
    c.right.dev.current (clusterNoToLba p.vol p.cfgClusterNo) = configSector p ∧
      ∃ i, ((configSector p).entry i).matchesName p.dfsName = true
  claimed : ∀ (id' : ℤ) (stack : Sector), ∃ dev',
    idForDfs sdDriver p.vol p.cfgClusterNo p.dfsName id' stack c.right.dev =
      some ((c.left.claimedId.toNat : ℤ), dev')

/-- The scan reaches a free entry, or a matching one whose id fits into a byte. -/
def AnswersId (s : Sector) (dfsName : Fin 30 → UInt8) : Prop :=
  ∃ i, (∀ j < i, Passes s dfsName j) ∧ ((s.entry i).isFree = true ∨
    ((s.entry i).matchesName dfsName = true ∧ (s.entry i).id.toNat < 256))

theorem not_newEntry_self {s : Sector} {dfsName : Fin 30 → UInt8} {id : UInt32} :
    ¬ NewEntry s s dfsName id := by
  rintro ⟨i, hfree, hmatch, -⟩
  simp [ConfigEntry.matchesName, hfree] at hmatch

section Agreement

variable {p : Pi Card} {id : UInt32} {c : Config Mac (Pi Card) UInt8 UInt8}

theorem offeredId_of_lt (h : id < 16) : offeredId id = id := by
  have hlt : id.toNat < 16 := UInt32.lt_iff_toNat_lt.mp h
  apply UInt32.toNat_inj.mp
  rw [toNat_offeredId, Nat.mod_eq_of_lt (by omega)]

/-- A table without a free or matching entry: the mac counts on, and nothing is stored. -/
theorem not_agree_of_full (hcount : c.left.assignableId = id + 1)
    (hdev : c.right.dev.current (clusterNoToLba p.vol p.cfgClusterNo) = configSector p) :
    ¬ Agree p id c := by
  intro h
  have hnew := h.increments.mp hcount
  rw [hdev] at hnew
  exact not_newEntry_self hnew

/-- A free entry: the id is stored under the name. -/
theorem agree_of_free (hname : ¬ IsEnd (p.dfsName 0)) (hid : id < 16) {i : Fin 16}
    (hpre : ∀ j < i, Passes (configSector p) p.dfsName j)
    (hfree : ((configSector p).entry i).isFree = true)
    (hcount : c.left.assignableId = id + 1) (hclaimed : c.left.claimedId = id)
    (hdev : c.right.dev.current (clusterNoToLba p.vol p.cfgClusterNo) =
      (configSector p).setEntry i (((configSector p).entry i).assign p.dfsName id.toNat)) :
    Agree p id c := by
  have hlt : id.toNat < 16 := UInt32.lt_iff_toNat_lt.mp hid
  have hstored : (((configSector p).entry i).assign p.dfsName id.toNat).id.toNat = id.toNat := by
    show (UInt16.ofInt (id.toNat : ℤ)).toNat = id.toNat
    rw [toNat_ofInt16, Nat.mod_eq_of_lt (by omega)]
  refine ⟨iff_of_true hcount ?_, fun h => absurd hcount h, fun id' stack => ?_⟩
  · refine ⟨i, hfree, ?_, ?_, fun j hj => ?_⟩
    · rw [hdev, Sector.entry_setEntry_self]
      exact ConfigEntry.matchesName_assign _ hname _
    · rw [hdev, Sector.entry_setEntry_self]
      exact hstored
    · rw [hdev, Sector.entry_setEntry_of_ne _ hj]
  · have hscan := scan_setEntry_assign hname hpre (id.toNat : ℤ)
    rw [← hdev] at hscan
    refine ⟨c.right.dev, ?_⟩
    rw [idForDfs_of_matched hscan id' stack, hdev, Sector.entry_setEntry_self, hstored, hclaimed]

/-- A matching entry: both sides keep it, and the byte sent is its id when it fits. -/
theorem agree_iff_of_matched {i : Fin 16}
    (hscan : scan (configSector p) p.dfsName = .matched i)
    (hmatch : ((configSector p).entry i).matchesName p.dfsName = true)
    (hcount : c.left.assignableId = id)
    (hclaimed : c.left.claimedId.toNat = ((configSector p).entry i).id.toNat % 256)
    (hdev : c.right.dev.current (clusterNoToLba p.vol p.cfgClusterNo) = configSector p) :
    Agree p id c ↔ ((configSector p).entry i).id.toNat < 256 := by
  have hne : c.left.assignableId ≠ id + 1 := by
    rw [hcount]
    simp
  have hlater : ∀ (id' : ℤ) (stack : Sector),
      idForDfs sdDriver p.vol p.cfgClusterNo p.dfsName id' stack c.right.dev =
        some ((((configSector p).entry i).id.toNat : ℤ), c.right.dev) := by
    intro id' stack
    have hscan' := hscan
    rw [← hdev] at hscan'
    rw [idForDfs_of_matched hscan' id' stack, hdev]
  constructor
  · intro h
    obtain ⟨dev', hcall⟩ := h.claimed 0 blankSector
    have hval := (Option.some.inj ((hlater 0 blankSector).symm.trans hcall))
    have hnat : ((configSector p).entry i).id.toNat = c.left.claimedId.toNat := by
      have hfst := congrArg Prod.fst hval
      exact Int.ofNat.inj hfst
    omega
  · intro hlt
    refine ⟨iff_of_false hne ?_, fun _ => ⟨hdev, i, hmatch⟩, fun id' stack => ?_⟩
    · rw [hdev]
      exact not_newEntry_self
    · refine ⟨c.right.dev, ?_⟩
      rw [hlater id' stack, hclaimed, Nat.mod_eq_of_lt hlt]

/-- After the exchange the two sides agree exactly when the scan finds a free entry, or an
entry for the name whose id fits into the byte that is sent. -/
theorem idExchange_agree_iff {words : List UInt32} {stack : Sector}
    {setup : Card → Volume × UInt32 × Card} {op : UInt32} (hname : ¬ IsEnd (p.dfsName 0))
    (hid : id < 16)
    (hc : Reaches (macAct words) (piAct ⟨sdDriver, setup, stack⟩) (exchangeStart op id p) c)
    (hdone : Done c) : Agree p id c ↔ AnswersId (configSector p) p.dfsName := by
  obtain ⟨hcount, hclaimed, hsector⟩ := exchange_done hc hdone
  rw [offeredId_of_lt hid] at hclaimed hsector
  rcases scan_cases (configSector p) p.dfsName with
    ⟨hscan, hall⟩ | ⟨i, hpre, ⟨hfree, hscan⟩ | ⟨hmatch, hscan⟩⟩
  · simp only [counterAfter, scanSector, scanResult, hscan, if_pos] at hsector hcount
    refine iff_of_false (not_agree_of_full hcount hsector) ?_
    rintro ⟨i, -, hfree | ⟨hmatch, -⟩⟩
    · exact Bool.false_ne_true ((hall i).1.symm.trans hfree)
    · exact Bool.false_ne_true ((hall i).2.symm.trans hmatch)
  · simp only [counterAfter, scanSector, scanResult, hscan, if_pos, claimedByte]
      at hsector hcount hclaimed
    refine iff_of_true (agree_of_free hname hid hpre hfree hcount ?_ hsector)
      ⟨i, hpre, Or.inl hfree⟩
    have hlt : id.toNat < 16 := UInt32.lt_iff_toNat_lt.mp hid
    apply UInt32.toNat_inj.mp
    rw [hclaimed, UInt8.toNat_toUInt32, UInt32.toNat_toUInt8, Nat.mod_eq_of_lt (by omega)]
  · have hne : (((configSector p).entry i).id.toNat : ℤ) ≠ -1 := by omega
    simp only [counterAfter, scanSector, scanResult, hscan, if_neg hne, claimedByte]
      at hsector hcount hclaimed
    have hbyte : c.left.claimedId.toNat = ((configSector p).entry i).id.toNat % 256 := by
      rw [hclaimed, UInt8.toNat_toUInt32, toNat_ofInt8]
    rw [agree_iff_of_matched hscan hmatch hcount hbyte hsector]
    constructor
    · exact fun hlt => ⟨i, hpre, Or.inr ⟨hmatch, hlt⟩⟩
    · rintro ⟨j, hpre', hfree | ⟨hmatch', hlt⟩⟩
      · exact absurd (hscan.symm.trans (scan_of_free hpre' hfree)) (by simp)
      · have hij := hscan.symm.trans (scan_of_matched hpre' hmatch')
        rw [ScanEnd.matched.inj hij]
        exact hlt

end Agreement

/-- The name `part` in the buffer of a pi. -/
def sampleName : Fin 30 → UInt8 := fun k => [0x70, 0x61, 0x72, 0x74].getD k.val 0

/-- A pi on the small volume whose config file is cluster 2, with the given config sector. -/
def samplePi (s : Sector) : Pi Card :=
  { Pi.start sampleName smallVolume ⟨fun _ => s, []⟩ with cfgClusterNo := 2 }

/-- What a sample pi runs on. -/
def sampleEnv : PiEnv Card := ⟨sdDriver, fun card => (smallVolume, 2, card), blankSector⟩

theorem idExchange_agree_iff_blank :
    ∃ c, (Reaches (macAct []) (piAct sampleEnv) (exchangeStart 0 0 (samplePi blankSector)) c ∧
      Done c) ∧
      (Agree (samplePi blankSector) 0 c ↔
        AnswersId (configSector (samplePi blankSector)) (samplePi blankSector).dfsName) := by
  obtain ⟨r, dev', -, t, ht, hdone, -⟩ :=
    exists_idExchange [] sampleEnv 0 0 (samplePi blankSector)
  exact ⟨t, ⟨ht, hdone⟩, idExchange_agree_iff (by decide) (by decide) ht hdone⟩

/-- With sixteen entries for other names the mac counts on although nothing is stored. -/
theorem fullTable_disagrees :
    ∃ c, (Reaches (macAct []) (piAct sampleEnv) (exchangeStart 0 0 (samplePi fun _ => 0x62)) c ∧
      Done c) ∧ ¬ Agree (samplePi fun _ => 0x62) 0 c := by
  obtain ⟨r, dev', -, t, ht, hdone, -⟩ :=
    exists_idExchange [] sampleEnv 0 0 (samplePi fun _ => 0x62)
  refine ⟨t, ⟨ht, hdone⟩, ?_⟩
  have hscan : scan (configSector (samplePi fun _ => 0x62)) (samplePi fun _ => 0x62).dfsName =
      .full := by decide
  obtain ⟨hcount, -, hsector⟩ := exchange_done ht hdone
  simp only [counterAfter, scanSector, scanResult, hscan, if_pos] at hcount hsector
  exact not_agree_of_full hcount hsector

end NaiveGfs
