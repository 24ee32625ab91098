import NaiveGfs.Sd.Reading

/-!
# A write on a lawful controller

When `sd_writeblock` reports success the sectors asked for hold the buffer and no write is
under way any more. Whatever happens, no other sector is written.
-/

namespace NaiveGfs

open Programs

variable {σ : Type}

/-! ## Where a write is -/

/-- The words given so far are `words`, and the next block is awaited. -/
structure WriteArmed (first : UInt32) (n : ℕ) (words : List UInt32) (v : View) : Prop where
  transfer : v.transfer = .writeWait first n words ∨ v.transfer = .writeReady first n words ∨ v.Idle
  ready : v.pending &&& intWriteRdy ≠ 0 → v.transfer = .writeReady first n words
  undone : v.pending &&& intDataDone = 0

/-- The words given so far are `words`, and the block at hand takes more. -/
structure WriteOpen (first : UInt32) (n : ℕ) (words : List UInt32) (v : View) : Prop where
  transfer : v.transfer = .writeReady first n words
  cleared : v.pending &&& intWriteRdy = 0
  undone : v.pending &&& intDataDone = 0

/-- The sectors hold the buffer and nothing is under way. -/
structure WriteStored (first : UInt32) (n : ℕ) (buffer : ℕ → UInt32) (v : View) : Prop where
  idle : v.Idle
  holds : ∀ a, InBlocks first n a → v.card a = blockOf buffer (a - first).toNat

/-- All words were given. -/
structure WriteFull (first : UInt32) (n : ℕ) (buffer : ℕ → UInt32) (v : View) : Prop where
  transfer : v.transfer = .writeWait first n ((List.range (128 * n)).map buffer) ∨ v.Idle
  done : v.pending &&& intDataDone ≠ 0 → WriteStored first n buffer v

variable {first : UInt32} {n : ℕ} {words : List UInt32} {buffer : ℕ → UInt32}

theorem stable_writeReady (first : UInt32) (n : ℕ) (words : List UInt32) :
    Stable fun v => v.transfer = .writeReady first n words where
  moves {v v'} hmove h := by
    obtain ⟨e, hstep, -⟩ := hmove.steps
    rw [h] at hstep
    generalize v'.transfer = t at hstep ⊢
    cases hstep with
    | stays _ _ _ => rfl
  clears _ h := h

theorem stable_writeOpen : Stable (WriteOpen first n words) where
  moves {v v'} hmove h := by
    have hkept := (stable_writeReady first n words).moves hmove h.transfer
    obtain ⟨e, hstep, hp⟩ := hmove.steps
    rw [h.transfer] at hstep
    generalize v'.transfer = t at hstep
    cases hstep with
    | stays _ _ he =>
      refine ⟨hkept, ?_, ?_⟩
      · rw [hp]
        exact or_and_eq_zero.mpr ⟨h.cleared, and_eq_zero_of_part (by decide) he⟩
      · rw [hp]
        exact or_and_eq_zero.mpr ⟨h.undone, and_eq_zero_of_part (by decide) he⟩
  clears _ h := ⟨h.transfer, clear_and_eq_zero h.cleared, clear_and_eq_zero h.undone⟩

theorem stable_writeArmed (hlen : words.length < 128 * n) : Stable (WriteArmed first n words) where
  moves {v v'} hmove h := by
    obtain ⟨e, hstep, hp⟩ := hmove.steps
    have hdone : e &&& intDataDone = 0 → v'.pending &&& intDataDone = 0 := fun he => by
      rw [hp]
      exact or_and_eq_zero.mpr ⟨h.undone, he⟩
    have hstays : e &&& dataInterrupts = 0 → v'.transfer = v.transfer →
        WriteArmed first n words v' := by
      intro he ht
      refine ⟨by rw [View.Idle, ht]; exact h.transfer, fun hpend => ?_,
        hdone (and_eq_zero_of_part (by decide) he)⟩
      rw [hp] at hpend
      rw [ht]
      exact h.ready (pending_of_raised (and_eq_zero_of_part (by decide) he) hpend)
    rcases h.transfer with hw | hr | hi
    · rw [hw] at hstep
      generalize ht : v'.transfer = t at hstep
      cases hstep with
      | stays _ _ he => exact hstays he (ht.trans hw.symm)
      | writeReady _ _ _ _ => exact ⟨Or.inr (Or.inl ht), fun _ => ht, hdone (by decide)⟩
      | written _ _ _ hfull => exact absurd hfull hlen.ne
      | writeAborts =>
        refine ⟨Or.inr (Or.inr ht), fun hpend => ?_, hdone (by decide)⟩
        rw [hp, UInt32.or_zero] at hpend
        exact absurd (hw.symm.trans (h.ready hpend)) (by simp)
    · rw [hr] at hstep
      generalize ht : v'.transfer = t at hstep
      cases hstep with
      | stays _ _ he => exact hstays he (ht.trans hr.symm)
    · rw [show v.transfer = .idle from hi] at hstep
      generalize ht : v'.transfer = t at hstep
      cases hstep with
      | stays _ _ he => exact hstays he (ht.trans hi.symm)
  clears x h :=
    ⟨h.transfer, fun hp => h.ready (pending_of_cleared hp), clear_and_eq_zero h.undone⟩

theorem stable_writeStored (first : UInt32) (n : ℕ) (buffer : ℕ → UInt32) :
    Stable (WriteStored first n buffer) where
  moves hmove h := by
    have hnext := (stable_idle.on_card quiescent_idle.settled fun card =>
      ∀ a, InBlocks first n a → card a = blockOf buffer (a - first).toNat).moves hmove
        ⟨h.idle, h.holds⟩
    exact ⟨hnext.1, hnext.2⟩
  clears _ h := ⟨h.idle, h.holds⟩

/-- The blocks that were given are those of the buffer. -/
theorem blockOf_given {c : ℕ} (hc : c < n) :
    blockOf (fun k => ((List.range (128 * n)).map buffer).getD k 0) c = blockOf buffer c := by
  unfold blockOf
  congr 1
  funext k
  have hk : 128 * c + k.val < 128 * n := by omega
  simp [List.getD_eq_getElem?_getD, hk]

theorem stable_writeFull : Stable (WriteFull first n buffer) where
  moves {v v'} hmove h := by
    rcases h.transfer with hw | hi
    · have hnone : ¬ v.pending &&& intDataDone ≠ 0 := fun hp => by
        have hidle : v.transfer = .idle := (h.done hp).idle
        rw [hw] at hidle
        cases hidle
      cases hmove with
      | raises e he =>
        have he' : e &&& intDataDone = 0 := and_eq_zero_of_part (by decide) he
        exact ⟨Or.inl hw, fun hp => absurd (pending_of_raised he' hp) hnone⟩
      | programs _ _ => exact ⟨Or.inl hw, fun hp => absurd hp hnone⟩
      | readReady ht => rw [hw] at ht; cases ht
      | readEnds ht => rw [hw] at ht; cases ht
      | readAborts ht => rw [hw] at ht; cases ht
      | writeReady ht hlen =>
        rw [hw] at ht
        cases ht
        simp at hlen
      | written ht hlen =>
        rw [hw] at ht
        cases ht
        refine ⟨Or.inr rfl, fun _ => ⟨rfl, fun a ha => ?_⟩⟩
        exact (if_pos ha).trans (blockOf_given ha)
      | writeAborts _ => exact ⟨Or.inr rfl, fun hp => absurd hp hnone⟩
    · refine ⟨Or.inr (stable_idle.moves hmove hi), fun hp' => ?_⟩
      refine (stable_writeStored first n buffer).moves hmove (h.done ?_)
      obtain ⟨e, hstep, hp⟩ := hmove.steps
      rw [show v.transfer = .idle from hi] at hstep
      generalize v'.transfer = t at hstep
      cases hstep with
      | stays _ _ he =>
        rw [hp] at hp'
        exact pending_of_raised (and_eq_zero_of_part (by decide) he) hp'
  clears _ h := ⟨h.transfer, fun hp =>
    ⟨(h.done (pending_of_cleared hp)).idle, (h.done (pending_of_cleared hp)).holds⟩⟩

/-! ## The words of a block -/

/-- The first `m` words of the buffer. -/
def wordsOf (buffer : ℕ → UInt32) (m : ℕ) : List UInt32 := (List.range m).map buffer

@[simp] theorem length_wordsOf (buffer : ℕ → UInt32) (m : ℕ) : (wordsOf buffer m).length = m := by
  simp [wordsOf]

theorem wordsOf_succ (buffer : ℕ → UInt32) (m : ℕ) :
    wordsOf buffer (m + 1) = wordsOf buffer m ++ [buffer m] := by
  simp [wordsOf, List.range_succ]

/-- The state before block `c`, on a card that has its data command. -/
def writeBlocks (first : UInt32) (n : ℕ) (buffer : ℕ → UInt32) (c : ℕ) : View → Prop :=
  if c < n then WriteArmed first n (wordsOf buffer (128 * c)) else WriteFull first n buffer

/-- The state after `d` words of block `c`. -/
def afterGiven (first : UInt32) (n : ℕ) (buffer : ℕ → UInt32) (c d : ℕ) : View → Prop :=
  if d < 128 then WriteOpen first n (wordsOf buffer (128 * c + d))
  else writeBlocks first n buffer (c + 1)

theorem afterGiven_given {c d : ℕ} (hc : c < n) (hd : d < 128) {v : View}
    (h : WriteOpen first n (wordsOf buffer (128 * c + d)) v) :
    afterGiven first n buffer c (d + 1) (v.given first n (wordsOf buffer (128 * c + d + 1))) := by
  unfold afterGiven View.given
  rw [length_wordsOf]
  by_cases hd' : d + 1 < 128
  · have hmod : ¬ (128 * c + d + 1) % 128 = 0 := by omega
    rw [if_pos hd', if_neg hmod]
    exact ⟨rfl, h.cleared, h.undone⟩
  · have hmod : (128 * c + d + 1) % 128 = 0 := by omega
    have hall : 128 * c + d + 1 = 128 * (c + 1) := by omega
    rw [if_neg hd', if_pos hmod, hall, writeBlocks]
    split
    · exact ⟨Or.inl rfl, fun hp => absurd h.cleared hp, h.undone⟩
    · have hlast : c + 1 = n := by omega
      rw [hlast]
      exact ⟨Or.inl rfl, fun hp => absurd h.undone hp⟩

variable {ctl : Controller σ} {ccs : Bool} (law : Lawful ctl ccs) {g : SdGlobals}
  {card : UInt32 → Sector} {loose : UInt32 → Prop}

/-- One word of the loop. -/
theorem giveWord_contract {c d : ℕ} (hc : c < n) (hd : d < 128) :
    Contract
      (Amid g (law.has fun v => v.Within card loose ∧ afterGiven first n buffer c d v))
      (ctl.writeReg .data (buffer (128 * c + d)))
      (fun _ => Amid g (law.has fun v =>
        v.Within card loose ∧ afterGiven first n buffer c (d + 1) v)) := by
  rintro sd ⟨e, hglobals, hwithin, hstate⟩
  refine ⟨e, hglobals, ?_⟩
  rw [afterGiven, if_pos hd] at hstate
  obtain ⟨v, hdrift, hview⟩ := law.give (buffer (128 * c + d)) sd.dev _ _ _ hstate.transfer
  have hat := ((stable_within card loose).and stable_writeOpen).drifts hdrift ⟨hwithin, hstate⟩
  rw [← wordsOf_succ] at hview
  change (law.view (ctl.write .data (buffer (128 * c + d)) sd.dev).2).Within card loose ∧
    afterGiven first n buffer c (d + 1) (law.view (ctl.write .data (buffer (128 * c + d)) sd.dev).2)
  rw [hview]
  refine ⟨⟨hat.1.holds, fun a ha => hat.1.unsettled a ?_⟩, afterGiven_given hc hd hat.2⟩
  rw [View.Unsettled, hat.2.transfer]
  unfold View.Unsettled View.given at ha
  split at ha
  · rename_i heq
    split at heq <;> simp_all
  · rename_i heq
    split at heq <;> simp_all
  · exact ha.elim

/-- The words of block `c`. -/
theorem giveBlock_contract {c : ℕ} (hc : c < n) (b : Unit) :
    Contract
      (Amid g (law.has fun v =>
        v.Within card loose ∧ WriteOpen first n (wordsOf buffer (128 * c)) v))
      ((writeDirection ctl buffer).block c b)
      (fun _ => Amid g (law.has fun v =>
        v.Within card loose ∧ writeBlocks first n buffer (c + 1) v)) :=
  Contract.countUp (n := 128) (b := b)
    (p := fun d _ => Amid g (law.has fun v =>
      v.Within card loose ∧ afterGiven first n buffer c d v))
    fun _ hd _ => giveWord_contract law hc hd

/-- A write command starts a write. -/
theorem writing_commanded {v : View} (hv : v.Within card loose)
    (hpend : v.pending &&& dataInterrupts = 0)
    (hloose : ∀ a, InBlocks (addressed ccs v.arg) n a → loose a) {code : UInt32}
    (hcode : code = cmdWriteSingle ∧ n = 1 ∨ code = cmdWriteMulti ∧ n = v.blocks) :
    (v.commanded ccs code).Within card loose ∧
      WriteArmed (addressed ccs v.arg) n [] (v.commanded ccs code) := by
  have ht : (v.commanded ccs code).transfer = .writeWait (addressed ccs v.arg) n [] := by
    rcases hcode with ⟨rfl, rfl⟩ | ⟨rfl, rfl⟩
    · rfl
    · rfl
  refine ⟨⟨hv.holds, fun a ha => hloose a ?_⟩, ⟨Or.inl ht, fun h => ?_, ?_⟩⟩
  · rw [View.Unsettled, ht] at ha
    exact ha
  · exact absurd (and_eq_zero_of_part (a := dataInterrupts) (by decide) hpend) h
  · exact and_eq_zero_of_part (a := dataInterrupts) (by decide) hpend

/-- The state before block `c` of `n`. A card addressed by bytes has no data command before its
first block. -/
def writeBefore (ccs : Bool) (first : UInt32) (n : ℕ) (buffer : ℕ → UInt32) (c : ℕ) :
    View → Prop :=
  if ccs then writeBlocks first n buffer c
  else if c = 0 then View.Idle else writeBlocks first n buffer c

theorem writeBefore_zero {ccs : Bool} {first : UInt32} {n : ℕ} (hn : 0 < n)
    (buffer : ℕ → UInt32) :
    writeBefore ccs first n buffer 0 = if ccs then WriteArmed first n [] else View.Idle := by
  simp only [writeBefore, writeBlocks, if_pos hn, if_true]
  rfl

theorem writeBefore_succ (ccs : Bool) (first : UInt32) (n : ℕ) (buffer : ℕ → UInt32) (c : ℕ) :
    writeBefore ccs first n buffer (c + 1) = writeBlocks first n buffer (c + 1) := by
  simp only [writeBefore, Nat.add_one_ne_zero, if_false, ite_self]

theorem writeBefore_end {ccs : Bool} {first : UInt32} {n : ℕ} (hn : 0 < n)
    (buffer : ℕ → UInt32) : writeBefore ccs first n buffer n = WriteFull first n buffer := by
  simp only [writeBefore, writeBlocks, lt_irrefl, if_false, if_neg hn.ne', ite_self]

/-- The phases of a write of `num` blocks. -/
def writeStates (lba num : UInt32) (card : UInt32 → Sector) (loose : UInt32 → Prop)
    (buffer : ℕ → UInt32) : PhaseStates σ Unit :=
  let first := firstSector ccs lba
  let n := num.toNat
  { idle := law.has fun v => v.Within card loose ∧ v.Idle
    block := fun c _ => law.has fun v =>
      v.Within card loose ∧ writeBefore ccs first n buffer c v
    armed := fun c _ => law.has fun v =>
      v.Within card loose ∧ WriteArmed first n (wordsOf buffer (128 * c)) v
    ready := fun c _ => law.has fun v =>
      v.Within card loose ∧ WriteOpen first n (wordsOf buffer (128 * c)) v
    done := fun _ => law.has fun v => v.Within card loose ∧ WriteStored first n buffer v
    finished := fun _ => law.has fun v => v.Within card loose ∧ WriteStored first n buffer v
    failed := fun _ => law.has (View.Within card loose) }

theorem writePhases (hccs : ccs = true ↔ g.scr0 &&& scrSuppCcs ≠ 0) (lba : UInt32) {num : UInt32}
    (hpos : 0 < num.toNat) (hlt : num.toNat < 2 ^ 16) (hone : ccs = true ∨ num = 1)
    (card : UInt32 → Sector) {loose : UInt32 → Prop} (buffer : ℕ → UInt32)
    (hloose : ∀ a, InBlocks (firstSector ccs lba) num.toNat a → loose a) :
    Phases ctl (writeDirection ctl buffer) g lba num (law.has (View.Within card loose)) ()
      (writeStates law lba num card loose buffer) :=
  let first := firstSector ccs lba
  let n := num.toNat
  { waits := by
      refine amid_contract fun e => (law.sdStatus_idle (stable_within card loose)
        (show (srDatInhibit ||| srWriteAvailable) &&& srDatInhibit = srDatInhibit by
          decide)).strengthen_post
            fun r sd hs => ⟨fun hok => ⟨e, hs.1, ?_⟩, fun _ => ⟨e, hs.1, hs.2.1⟩⟩
      exact ⟨hs.2.1, hs.2.2 hok⟩
    starts := by
      have hpos' : 0 < n := hpos
      have hq : Stable fun v => v.Within card loose ∧ WriteArmed first n [] v :=
        (stable_within card loose).and (stable_writeArmed (by simpa using hpos'))
      have hstart := law.startTransfer_contract (g := g) (writeDirection ctl buffer) lba num
        hccs (stable_within card loose) within_anyArg
        (fun v n hv => ⟨hv.holds, hv.unsettled⟩) hq
        (show cmdWriteSingle ∈ dataCommands by decide) (show cmdWriteMulti ∈ dataCommands by decide)
        fun hyes v hv harg hblocks hpend => by
          have hfirst : addressed ccs v.arg = first := by
            simp only [harg, first, firstSector, hyes, if_true]
          rw [← hfirst]
          refine writing_commanded hv hpend (by rw [hfirst]; exact hloose) ?_
          by_cases hsingle : num = 1
          · rw [if_pos hsingle]
            exact Or.inl ⟨rfl, by simp only [n, hsingle]; rfl⟩
          · rw [if_neg hsingle, hblocks, Nat.mod_eq_of_lt hlt]
            exact Or.inr ⟨rfl, rfl⟩
      refine hstart.strengthen_post fun goes sd h => h.mono (fun s hv => ?_)
        fun s hv => hv.elim And.left And.left
      simp only [writeStates, writeBefore_zero hpos]
      cases ccs with
      | true => exact hv
      | false => exact hv
    arms := by
      intro c hc b
      have hc' : c < n := hc
      have hq : Stable fun v => v.Within card loose ∧
          WriteArmed first n (wordsOf buffer (128 * c)) v :=
        (stable_within card loose).and (stable_writeArmed (by rw [length_wordsOf]; omega))
      -- a card addressed by bytes has a single block
      have hbyte : ccs = false → c = 0 ∧ n = 1 := by
        intro hno
        have hn : num.toNat = 1 := by rw [hone.resolve_left (by simp [hno])]; rfl
        exact ⟨by omega, hn⟩
      have hstart := law.startBlock_contract (g := g) (writeDirection ctl buffer) lba c
        hccs (stable_within card loose) within_anyArg hq
        (show cmdWriteSingle ∈ dataCommands by decide) fun hno v hv harg hpend => by
          obtain ⟨rfl, hn⟩ := hbyte hno
          have hfirst : addressed ccs v.arg = first := by
            simp [harg, first, firstSector, hno]
          rw [← hfirst]
          exact writing_commanded hv hpend (by rw [hfirst]; exact hloose) (Or.inl ⟨rfl, hn⟩)
      refine (hstart.weaken_pre fun sd hs => hs.mono fun s hv => ?_).strengthen_post
        fun goes sd h => h.mono (fun s hv => hv) fun s hv => hv.elim And.left And.left
      have hstate := hv.2
      simp only [writeBefore, writeBlocks, if_pos hc] at hstate
      by_cases hyes : ccs = true
      · rw [if_pos hyes] at hstate
        rw [Lawful.has, if_pos hyes]
        exact ⟨hv.1, hstate⟩
      · rw [if_neg hyes, if_pos (hbyte (by simpa using hyes)).1] at hstate
        rw [Lawful.has, if_neg hyes]
        exact ⟨hv.1, hstate⟩
    awaits := by
      intro c hc b
      have hc' : c < n := hc
      have harmed : Stable fun v => v.Within card loose ∧
          WriteArmed first n (wordsOf buffer (128 * c)) v :=
        (stable_within card loose).and (stable_writeArmed (by rw [length_wordsOf]; omega))
      refine amid_contract fun e => (law.sdInt_comes intWriteRdy harmed
        (stable_writeReady first n (wordsOf buffer (128 * c)))
        fun v hv => hv.2.ready).strengthen_post
          fun r sd hs => ⟨fun hok => ⟨e, hs.1, ?_⟩, fun _ => ⟨e, hs.1, hs.2.1.1⟩⟩
      obtain ⟨ht, hpend⟩ := hs.2.2 hok
      exact ⟨hs.2.1.1, ht, hpend, hs.2.1.2.undone⟩
    moves := by
      intro c hc b
      refine (giveBlock_contract law hc b).strengthen_post fun b sd hs => hs.mono fun s hv => ?_
      simp only [writeStates, writeBefore_succ]
      exact hv
    finishes := by
      intro b
      have hfull : Stable fun v => v.Within card loose ∧ WriteFull first n buffer v :=
        (stable_within card loose).and stable_writeFull
      refine amid_contract fun e => (((law.sdInt_comes intDataDone hfull
        (stable_writeStored first n buffer)
        fun v hv => hv.2.done).weaken_pre fun sd hs => ⟨hs.1, ?_⟩).strengthen_post
          fun r sd hs => ⟨fun hok => ⟨e, hs.1, ?_⟩, fun _ => ⟨e, hs.1, hs.2.1.1⟩⟩)
      · simp only [writeStates, writeBefore_end hpos] at hs
        exact hs.2
      · exact ⟨hs.2.1.1, (hs.2.2 hok).1⟩
    stops := by
      intro b
      have hdone : Stable fun v => v.Within card loose ∧ WriteStored first n buffer v :=
        (stable_within card loose).and (stable_writeStored first n buffer)
      refine (stopTransfer_contract (law.quiet hdone) (law.quiet hdone) (fun _ s hs => ?_)
        fun _ s hs => hs).strengthen_post
          fun r sd h => h.imp_left fun h => ⟨h.1, h.2.mono fun s hv => (hv.elim id id).1⟩
      exact law.issue_other hdone (fun v x hv => ⟨within_anyArg v x hv.1, hv.2.idle, hv.2.holds⟩)
        (fun v hv => Or.inl hv.2.idle) (by decide) hs }

/-- A write changes no other sectors than those asked for and those being written already, and
when it succeeds they hold the buffer and nothing is being written any more. -/
theorem sdWriteblock_lawful {sd : Sd σ} {num : UInt32} (h : Countable ccs sd.scr0 num)
    (lba : UInt32) (buffer : ℕ → UInt32) :
    (sdWriteblock ctl buffer lba num sd).2.scr0 = sd.scr0 ∧
      (law.view (sdWriteblock ctl buffer lba num sd).2.dev).Within (law.view sd.dev).card
        (fun a => (law.view sd.dev).Unsettled a ∨
          InBlocks (firstSector ccs lba) (max num.toNat 1) a) ∧
      ((sdWriteblock ctl buffer lba num sd).1 ≠ 0 →
        WriteStored (firstSector ccs lba) (max num.toNat 1) buffer
          (law.view (sdWriteblock ctl buffer lba num sd).2.dev)) := by
  obtain ⟨hpos, hlt, hone⟩ := h.atLeastOne
  rw [← toNat_atLeastOne]
  have hstart : Amid sd.toSdGlobals (law.has (View.Within (law.view sd.dev).card
      (fun a => (law.view sd.dev).Unsettled a ∨
        InBlocks (firstSector ccs lba) (if num < 1 then 1 else num : UInt32).toNat a))) sd :=
    ⟨sd.err, rfl, fun _ _ => rfl, fun _ ha => Or.inl ha⟩
  have hcall := (writePhases law h.addressing lba hpos hlt hone (law.view sd.dev).card
    buffer fun _ ha => Or.inr ha).transfer sd hstart
  rcases hcall with ⟨hzero, hcall⟩ | ⟨-, hcall⟩
  · refine ⟨hcall.scr0, ?_, fun hne => absurd hzero hne⟩
    obtain ⟨e, -, hfailed⟩ := hcall
    exact hfailed
  · refine ⟨hcall.scr0, ?_⟩
    obtain ⟨e, -, hdone⟩ := hcall
    exact ⟨hdone.1, fun _ => hdone.2⟩

end NaiveGfs
