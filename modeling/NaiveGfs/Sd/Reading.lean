import NaiveGfs.Sd.Card

/-!
# A read on a lawful controller

When `sd_readblock` reports success the buffer holds the sectors as the card has them. It
never writes: whatever happens, the card changes only where a write was under way already.
-/

namespace NaiveGfs

open Programs

variable {σ : Type}

/-! ## Where a read is -/

/-- The block at `sector` is awaited, with `left` blocks to come. -/
structure ReadArmed (sector : UInt32) (left : ℕ) (v : View) : Prop where
  transfer : v.transfer = .readWait sector left ∨ v.transfer = .readReady sector left 0 ∨ v.Idle
  ready : v.pending &&& intReadRdy ≠ 0 → v.transfer = .readReady sector left 0

/-- `taken` words of the block at `sector` have been taken. -/
structure ReadOpen (sector : UInt32) (left taken : ℕ) (v : View) : Prop where
  transfer : v.transfer = .readReady sector left taken
  pending : v.pending &&& intReadRdy = 0

/-- The last word was taken. -/
def ReadOver (v : View) : Prop := v.transfer = .idle ∨ v.transfer = .readEnd

theorem stable_readReady (sector : UInt32) (left taken : ℕ) :
    Stable fun v => v.transfer = .readReady sector left taken where
  moves {v v'} hmove h := by
    obtain ⟨e, hstep, -⟩ := hmove.steps
    rw [h] at hstep
    generalize v'.transfer = t at hstep ⊢
    cases hstep with
    | stays _ _ _ => rfl
  clears _ h := h

theorem stable_readOpen (sector : UInt32) (left taken : ℕ) :
    Stable (ReadOpen sector left taken) where
  moves {v v'} hmove h := by
    refine ⟨(stable_readReady sector left taken).moves hmove h.transfer, ?_⟩
    obtain ⟨e, hstep, hp⟩ := hmove.steps
    rw [h.transfer] at hstep
    generalize v'.transfer = t at hstep
    cases hstep with
    | stays _ _ he =>
      rw [hp]
      exact or_and_eq_zero.mpr ⟨h.pending, and_eq_zero_of_part (by decide) he⟩
  clears _ h := ⟨h.transfer, clear_and_eq_zero h.pending⟩

theorem stable_readOver : Stable ReadOver where
  moves {v v'} hmove h := by
    obtain ⟨e, hstep, -⟩ := hmove.steps
    rw [ReadOver]
    rcases h with hi | hr
    · rw [hi] at hstep
      generalize v'.transfer = t at hstep ⊢
      cases hstep with
      | stays _ _ _ => exact Or.inl rfl
    · rw [hr] at hstep
      generalize v'.transfer = t at hstep ⊢
      cases hstep with
      | stays _ _ _ => exact Or.inr rfl
      | readEnds => exact Or.inl rfl
  clears _ h := h

theorem stable_readArmed (sector : UInt32) (left : ℕ) : Stable (ReadArmed sector left) where
  moves {v v'} hmove h := by
    obtain ⟨e, hstep, hp⟩ := hmove.steps
    have hstays : ∀ e, e &&& dataInterrupts = 0 → v'.transfer = v.transfer →
        v'.pending = v.pending ||| e → ReadArmed sector left v' := by
      intro e he ht hp
      have he' : e &&& intReadRdy = 0 := and_eq_zero_of_part (by decide) he
      refine ⟨by rw [View.Idle, ht]; exact h.transfer, fun hpend => ?_⟩
      rw [hp] at hpend
      rw [ht]
      exact h.ready (pending_of_raised he' hpend)
    rcases h.transfer with hw | hr | hi
    · rw [hw] at hstep
      generalize ht : v'.transfer = t at hstep
      cases hstep with
      | stays _ _ he => exact hstays _ he (ht.trans hw.symm) hp
      | readReady => exact ⟨Or.inr (Or.inl ht), fun _ => ht⟩
      | readAborts =>
        refine ⟨Or.inr (Or.inr ht), fun hpend => ?_⟩
        rw [hp, UInt32.or_zero] at hpend
        exact absurd (hw.symm.trans (h.ready hpend)) (by simp)
    · rw [hr] at hstep
      generalize ht : v'.transfer = t at hstep
      cases hstep with
      | stays _ _ he => exact hstays _ he (ht.trans hr.symm) hp
    · rw [show v.transfer = .idle from hi] at hstep
      generalize ht : v'.transfer = t at hstep
      cases hstep with
      | stays _ _ he => exact hstays _ he (ht.trans hi.symm) hp
  clears x h := ⟨h.transfer, fun hp => h.ready (pending_of_cleared hp)⟩

/-! ## What was read -/

/-- The first `m` words of the buffer are those of the card from sector `first` on. -/
def Taken (first : UInt32) (b : ℕ → UInt32) (m : ℕ) (card : UInt32 → Sector) : Prop :=
  ∀ i < m, b i = (card (first + UInt32.ofNat (i / 128))).wordAt i

/-- A read in the state `r` that has taken `m` words, on a card that was not written. -/
structure Reading (card : UInt32 → Sector) (loose : UInt32 → Prop) (r : View → Prop)
    (first : UInt32) (b : ℕ → UInt32) (m : ℕ) (v : View) : Prop where
  within : v.Within card loose
  state : r v
  taken : Taken first b m v.card

/-- A state of a read, in which nothing is being written. -/
structure Quiescent (r : View → Prop) : Prop where
  stable : Stable r
  settled : ∀ v, r v → ∀ a, ¬ v.Unsettled a

theorem quiescent_idle : Quiescent View.Idle where
  stable := stable_idle
  settled v h a := by simp [View.Unsettled, show v.transfer = .idle from h]

theorem quiescent_readArmed (sector : UInt32) (left : ℕ) : Quiescent (ReadArmed sector left) where
  stable := stable_readArmed sector left
  settled v h a := by
    rcases h.transfer with hw | hr | hi
    · simp [View.Unsettled, hw]
    · simp [View.Unsettled, hr]
    · simp [View.Unsettled, show v.transfer = .idle from hi]

theorem quiescent_readOpen (sector : UInt32) (left taken : ℕ) :
    Quiescent (ReadOpen sector left taken) where
  stable := stable_readOpen sector left taken
  settled v h a := by simp [View.Unsettled, h.transfer]

theorem quiescent_readOver : Quiescent ReadOver where
  stable := stable_readOver
  settled v h a := by
    rcases h with hi | hr
    · simp [View.Unsettled, hi]
    · simp [View.Unsettled, hr]

variable {card : UInt32 → Sector} {loose : UInt32 → Prop} {r r' : View → Prop} {first : UInt32}
  {b : ℕ → UInt32} {m : ℕ}

theorem Quiescent.reading (h : Quiescent r) (card : UInt32 → Sector) (loose : UInt32 → Prop)
    (first : UInt32) (b : ℕ → UInt32) (m : ℕ) :
    Stable (Reading card loose r first b m) where
  moves hmove hv := by
    have hall := (((stable_within card loose).and h.stable).on_card
      (fun v hv => h.settled v hv.2) (Taken first b m)).moves hmove
        ⟨⟨hv.within, hv.state⟩, hv.taken⟩
    exact ⟨hall.1.1, hall.1.2, hall.2⟩
  clears x hv :=
    ⟨(stable_within card loose).clears x hv.within, h.stable.clears x hv.state, hv.taken⟩

/-- Another state of the read, with the same card. -/
theorem Reading.to {v v' : View} (h : Reading card loose r first b m v) (hcard : v'.card = v.card)
    (h' : Quiescent r') (hr : r' v') : Reading card loose r' first b m v' where
  within := ⟨fun a ha => by rw [hcard]; exact h.within.holds a ha,
    fun a ha => absurd ha (h'.settled v' hr a)⟩
  state := hr
  taken := hcard ▸ h.taken

/-- The state after `d` words of a block. -/
def afterWords (sector : UInt32) (left d : ℕ) : View → Prop :=
  if d < 128 then ReadOpen sector left d
  else if left ≤ 1 then ReadOver
  else ReadArmed (sector + 1) (left - 1)

theorem quiescent_afterWords (sector : UInt32) (left d : ℕ) :
    Quiescent (afterWords sector left d) := by
  unfold afterWords
  split
  · exact quiescent_readOpen sector left d
  · split
    · exact quiescent_readOver
    · exact quiescent_readArmed _ _

theorem afterWords_taken {sector : UInt32} {left d : ℕ} {v : View}
    (h : ReadOpen sector left d v) : afterWords sector left (d + 1) (v.taken sector left d) := by
  unfold afterWords View.taken
  split
  · exact ⟨rfl, h.pending⟩
  · split
    · exact Or.inr rfl
    · exact ⟨Or.inl rfl, fun hpend => absurd h.pending hpend⟩

variable {ctl : Controller σ} {ccs : Bool} (law : Lawful ctl ccs) {g : SdGlobals}

/-- One word of the loop. -/
theorem takeWord_contract (card : UInt32 → Sector) (loose : UInt32 → Prop) (first : UInt32)
    (left : ℕ) {c d : ℕ} (hd : d < 128) (b : ℕ → UInt32) :
    Contract
      (Amid g (law.has (Reading card loose (afterWords (first + UInt32.ofNat c) left d) first b
        (128 * c + d))))
      (do
        let w ← ctl.readReg .data
        pure (Function.update b (128 * c + d) w) : StateM (Sd σ) (ℕ → UInt32))
      (fun b => Amid g (law.has (Reading card loose
        (afterWords (first + UInt32.ofNat c) left (d + 1)) first b (128 * c + (d + 1))))) := by
  rintro sd ⟨e, hglobals, hv⟩
  refine ⟨e, hglobals, ?_⟩
  have hopen : ReadOpen (first + UInt32.ofNat c) left d (law.view sd.dev) := by
    have hstate := hv.state
    rwa [afterWords, if_pos hd] at hstate
  obtain ⟨v, hdrift, hword, hview⟩ := law.data sd.dev _ _ _ hopen.transfer
  have hat : Reading card loose (ReadOpen (first + UInt32.ofNat c) left d) first b
      (128 * c + d) v :=
    ((quiescent_readOpen _ left d).reading card loose first b _).drifts hdrift
      ⟨hv.within, hopen, hv.taken⟩
  change Reading _ _ _ _ (Function.update b (128 * c + d) (ctl.read .data sd.dev).1) _
    (law.view (ctl.read .data sd.dev).2)
  rw [hview, hword]
  have hnext : Reading card loose (afterWords (first + UInt32.ofNat c) left (d + 1)) first b
      (128 * c + d) (v.taken (first + UInt32.ofNat c) left d) := hat.to rfl
    (quiescent_afterWords (first + UInt32.ofNat c) left (d + 1)) (afterWords_taken hat.state)
  refine ⟨hnext.within, hnext.state, fun i hi => ?_⟩
  by_cases hlast : i = 128 * c + d
  · subst hlast
    have hdiv : (128 * c + d) / 128 = c := by omega
    have hmod : Fin.ofNat 128 (128 * c + d) = Fin.ofNat 128 d := by
      apply Fin.ext
      simp only [Fin.val_ofNat]
      omega
    rw [Function.update_self]
    simp only [Sector.wordAt, hdiv, hmod]
    rfl
  · rw [Function.update_of_ne hlast]
    exact hnext.taken i (by omega)

/-- The state before block `c` of `n`, on a card that has its data command. -/
def readBlocks (first : UInt32) (n c : ℕ) : View → Prop :=
  if c < n then ReadArmed (first + UInt32.ofNat c) (n - c) else ReadOver

/-- The words of block `c`. -/
theorem takeBlock_contract {n c : ℕ} (hc : c < n) (b : ℕ → UInt32) :
    Contract
      (Amid g (law.has (Reading card loose (ReadOpen (first + UInt32.ofNat c) (n - c) 0) first b
        (128 * c))))
      ((readDirection ctl).block c b)
      (fun b => Amid g (law.has (Reading card loose (readBlocks first n (c + 1)) first b
        (128 * (c + 1))))) := by
  have hloop := Contract.countUp (n := 128) (b := b) (fun d hd b =>
    takeWord_contract (g := g) law card loose first (n - c) (c := c) hd b)
  refine hloop.consequence (fun sd hs => ?_) fun b sd hs => ?_
  · exact hs
  · refine hs.mono fun s hv => ?_
    have hstate : readBlocks first n (c + 1) (law.view s) := by
      have hafter : afterWords (first + UInt32.ofNat c) (n - c) 128 (law.view s) := hv.state
      unfold readBlocks
      unfold afterWords at hafter
      by_cases hlast : n - c ≤ 1
      · have hc' : ¬ c + 1 < n := by omega
        rw [if_neg (by omega), if_pos hlast] at hafter
        rw [if_neg hc']
        exact hafter
      · have hc' : c + 1 < n := by omega
        have hsector : first + UInt32.ofNat c + 1 = first + UInt32.ofNat (c + 1) := by
          rw [add_assoc, UInt32.ofNat_add]
          rfl
        rw [if_neg (by omega), if_neg hlast, hsector, Nat.sub_sub] at hafter
        rw [if_pos hc']
        exact hafter
    exact ⟨hv.within, hstate, hv.taken⟩

/-- The sector that a transfer of block `lba` starts with. -/
def firstSector (ccs : Bool) (lba : UInt32) : UInt32 :=
  addressed ccs (if ccs then lba else lba * 512)

theorem within_anyArg : Lawful.AnyArg (View.Within card loose) :=
  fun _ _ hv => ⟨hv.holds, hv.unsettled⟩

/-- A read command starts a read. -/
theorem reading_commanded {v : View} (hv : v.Within card loose)
    (hpend : v.pending &&& dataInterrupts = 0) {code : UInt32} {n : ℕ}
    (hcode : code = cmdReadSingle ∧ n = 1 ∨ code = cmdReadMulti ∧ n = v.blocks) :
    Reading card loose (ReadArmed (addressed ccs v.arg) n) first b 0 (v.commanded ccs code) := by
  have ht : (v.commanded ccs code).transfer = .readWait (addressed ccs v.arg) n := by
    rcases hcode with ⟨rfl, rfl⟩ | ⟨rfl, rfl⟩
    · rfl
    · rfl
  refine ⟨⟨hv.holds, fun a ha => ?_⟩, ⟨Or.inl ht, fun h => ?_⟩, fun i hi => absurd hi (by omega)⟩
  · simp [View.Unsettled, ht] at ha
  · exact absurd (and_eq_zero_of_part (a := dataInterrupts) (by decide) hpend) h

/-- The state before block `c` of `n`. A card addressed by bytes has no data command before its
first block. -/
def readBefore (ccs : Bool) (first : UInt32) (n c : ℕ) : View → Prop :=
  if ccs then readBlocks first n c else if c = 0 then View.Idle else readBlocks first n c

theorem readBefore_zero {ccs : Bool} {first : UInt32} {n : ℕ} (hn : 0 < n) :
    readBefore ccs first n 0 = if ccs then ReadArmed first n else View.Idle := by
  have hzero : first + UInt32.ofNat 0 = first := add_zero first
  simp only [readBefore, readBlocks, if_pos hn, hzero, Nat.sub_zero, if_true]

theorem readBefore_succ (ccs : Bool) (first : UInt32) (n c : ℕ) :
    readBefore ccs first n (c + 1) = readBlocks first n (c + 1) := by
  simp only [readBefore, Nat.add_one_ne_zero, if_false, ite_self]

theorem readBefore_end {ccs : Bool} {first : UInt32} {n : ℕ} (hn : 0 < n) :
    readBefore ccs first n n = ReadOver := by
  simp only [readBefore, readBlocks, lt_irrefl, if_false, if_neg hn.ne', ite_self]

/-- The phases of a read of `num` blocks. -/
def readStates (lba num : UInt32) (card : UInt32 → Sector) (loose : UInt32 → Prop)
    (buffer : ℕ → UInt32) : PhaseStates σ (ℕ → UInt32) :=
  let first := firstSector ccs lba
  let n := num.toNat
  { idle := law.has (Reading card loose View.Idle first buffer 0)
    block := fun c b =>
      law.has (Reading card loose (readBefore ccs first n c) first b (128 * c))
    armed := fun c b =>
      law.has (Reading card loose (ReadArmed (first + UInt32.ofNat c) (n - c)) first b (128 * c))
    ready := fun c b =>
      law.has (Reading card loose (ReadOpen (first + UInt32.ofNat c) (n - c) 0) first b (128 * c))
    done := fun b => law.has (Reading card loose ReadOver first b (128 * n))
    finished := fun b => law.has (Reading card loose ReadOver first b (128 * n))
    failed := fun _ => law.has (View.Within card loose) }

theorem readPhases (hccs : ccs = true ↔ g.scr0 &&& scrSuppCcs ≠ 0) (lba : UInt32) {num : UInt32}
    (hpos : 0 < num.toNat) (hlt : num.toNat < 2 ^ 16) (hone : ccs = true ∨ num = 1)
    (card : UInt32 → Sector) (loose : UInt32 → Prop) (buffer : ℕ → UInt32) :
    Phases ctl (readDirection ctl) g lba num (law.has (View.Within card loose)) buffer
      (readStates law lba num card loose buffer) :=
  let first := firstSector ccs lba
  let n := num.toNat
  { waits := by
      refine amid_contract fun e => (law.sdStatus_idle (stable_within card loose)
        (show srDatInhibit &&& srDatInhibit = srDatInhibit by decide)).strengthen_post
          fun r sd hs => ⟨fun hok => ⟨e, hs.1, ?_⟩, fun _ => ⟨e, hs.1, hs.2.1⟩⟩
      exact ⟨hs.2.1, hs.2.2 hok, fun i hi => absurd hi (by omega)⟩
    starts := by
      have hq : Stable (Reading card loose (ReadArmed first n) first buffer 0) :=
        (quiescent_readArmed first n).reading card loose first buffer 0
      have hstart := law.startTransfer_contract (g := g) (readDirection ctl) lba num hccs
        (stable_within card loose) within_anyArg
        (fun v n hv => ⟨hv.holds, hv.unsettled⟩) hq
        (show cmdReadSingle ∈ dataCommands by decide) (show cmdReadMulti ∈ dataCommands by decide)
        fun hyes v hv harg hblocks hpend => by
          have hfirst : addressed ccs v.arg = first := by
            simp only [harg, first, firstSector, hyes, if_true]
          rw [← hfirst]
          refine reading_commanded hv hpend ?_
          by_cases hsingle : num = 1
          · rw [if_pos hsingle]
            exact Or.inl ⟨rfl, by simp only [n, hsingle]; rfl⟩
          · rw [if_neg hsingle, hblocks, Nat.mod_eq_of_lt hlt]
            exact Or.inr ⟨rfl, rfl⟩
      refine (hstart.weaken_pre fun sd hs => hs.mono fun s hv =>
        ⟨hv.within, hv.state⟩).strengthen_post fun goes sd h => h.mono (fun s hv => ?_)
          fun s hv => hv.elim And.left Reading.within
      simp only [readStates, readBefore_zero hpos]
      cases ccs with
      | true => exact hv
      | false => exact ⟨hv.1, hv.2, fun i hi => absurd hi (by omega)⟩
    arms := by
      intro c hc b
      have hq : Stable (Reading card loose (ReadArmed (first + UInt32.ofNat c) (n - c)) first b
          (128 * c)) := (quiescent_readArmed _ _).reading card loose first b _
      -- a card addressed by bytes has a single block
      have hbyte : ccs = false → c = 0 ∧ n = 1 := by
        intro hno
        have hn : num.toNat = 1 := by rw [hone.resolve_left (by simp [hno])]; rfl
        exact ⟨by omega, hn⟩
      have hstart := law.startBlock_contract (g := g) (readDirection ctl) lba c hccs
        (stable_within card loose) within_anyArg hq
        (show cmdReadSingle ∈ dataCommands by decide) fun hno v hv harg hpend => by
          obtain ⟨rfl, hn⟩ := hbyte hno
          have hfirst : addressed ccs v.arg = first + UInt32.ofNat 0 := by
            simp [harg, first, firstSector, hno]
          rw [hn, ← hfirst]
          exact reading_commanded hv hpend (Or.inl ⟨rfl, rfl⟩)
      refine (hstart.weaken_pre fun sd hs => hs.mono fun s hv => ?_).strengthen_post
        fun goes sd h => h.mono (fun s hv => hv) fun s hv => hv.elim And.left Reading.within
      have hstate := hv.state
      simp only [readBefore, readBlocks, if_pos hc] at hstate
      by_cases hyes : ccs = true
      · rw [if_pos hyes] at hstate
        rw [Lawful.has, if_pos hyes]
        exact ⟨hv.within, hstate, hv.taken⟩
      · rw [if_neg hyes, if_pos (hbyte (by simpa using hyes)).1] at hstate
        rw [Lawful.has, if_neg hyes]
        exact ⟨hv.within, hstate⟩
    awaits := by
      intro c hc b
      have harmed := (quiescent_readArmed (first + UInt32.ofNat c) (n - c)).reading card loose
        first b (128 * c)
      refine amid_contract fun e => (law.sdInt_comes intReadRdy harmed
        (stable_readReady (first + UInt32.ofNat c) (n - c) 0)
        fun v hv => hv.state.ready).strengthen_post
          fun r sd hs => ⟨fun hok => ⟨e, hs.1, ?_⟩, fun _ => ⟨e, hs.1, hs.2.1.within⟩⟩
      obtain ⟨ht, hpend⟩ := hs.2.2 hok
      exact hs.2.1.to rfl (quiescent_readOpen _ _ _) ⟨ht, hpend⟩
    moves := by
      intro c hc b
      refine (takeBlock_contract law hc b).strengthen_post fun b sd hs => hs.mono fun s hv => ?_
      simp only [readStates, readBefore_succ]
      exact hv
    finishes := by
      intro b
      refine Contract.pure fun sd hs => ⟨fun _ => hs.mono fun s hv => ?_, fun h => absurd rfl h⟩
      simp only [readStates, readBefore_end hpos] at hv
      exact hv
    stops := by
      intro b
      have hover := quiescent_readOver.reading card loose first b (128 * n)
      refine (stopTransfer_contract (law.quiet hover) (law.quiet hover) (fun _ s hs => ?_)
        fun _ s hs => hs).strengthen_post
          fun r sd h => h.imp_left fun h => ⟨h.1, h.2.mono fun s hv => ?_⟩
      · exact law.issue_other hover (fun v x hv => hv.to rfl quiescent_readOver hv.state)
          (fun v hv => hv.state) (by decide) hs
      · exact (hv.elim id id).within }

/-- What the arguments of a call have to be for a transfer that the controller can count. -/
structure Countable (ccs : Bool) (scr0 num : UInt32) : Prop where
  addressing : ccs = true ↔ scr0 &&& scrSuppCcs ≠ 0
  lt : num.toNat < 2 ^ 16
  single : ccs = true ∨ num ≤ 1

theorem toNat_atLeastOne (num : UInt32) :
    (if num < 1 then 1 else num : UInt32).toNat = max num.toNat 1 := by
  have hlt : num < 1 ↔ num.toNat < 1 := UInt32.lt_iff_toNat_lt
  split
  · rename_i h
    rw [max_eq_right (hlt.mp h).le]
    rfl
  · rename_i h
    exact (max_eq_left (Nat.not_lt.mp (mt hlt.mpr h))).symm

theorem Countable.atLeastOne {scr0 num : UInt32} (h : Countable ccs scr0 num) :
    0 < (if num < 1 then 1 else num : UInt32).toNat ∧
      (if num < 1 then 1 else num : UInt32).toNat < 2 ^ 16 ∧
      (ccs = true ∨ (if num < 1 then 1 else num : UInt32) = 1) := by
  have hlt := h.lt
  rw [toNat_atLeastOne]
  refine ⟨by omega, by omega, h.single.imp_right fun hle => ?_⟩
  apply UInt32.toNat_inj.mp
  have hle' : num.toNat ≤ 1 := UInt32.le_iff_toNat_le.mp hle
  rw [toNat_atLeastOne, max_eq_right hle']
  rfl

/-- A read changes nothing on the card, and when it succeeds the buffer holds the sectors as the
card has them, none of which is being written any more. -/
theorem sdReadblock_lawful {sd : Sd σ} {num : UInt32} (h : Countable ccs sd.scr0 num)
    (lba : UInt32) (buffer : ℕ → UInt32) :
    (sdReadblock ctl lba buffer num sd).2.scr0 = sd.scr0 ∧
      (law.view (sdReadblock ctl lba buffer num sd).2.dev).Within (law.view sd.dev).card
        (law.view sd.dev).Unsettled ∧
      ((sdReadblock ctl lba buffer num sd).1.1 ≠ 0 →
        (∀ a, ¬ (law.view (sdReadblock ctl lba buffer num sd).2.dev).Unsettled a) ∧
        Taken (firstSector ccs lba) (sdReadblock ctl lba buffer num sd).1.2
          (128 * max num.toNat 1) (law.view (sdReadblock ctl lba buffer num sd).2.dev).card) := by
  obtain ⟨hpos, hlt, hone⟩ := h.atLeastOne
  have hstart : Amid sd.toSdGlobals (law.has (View.Within (law.view sd.dev).card
      (law.view sd.dev).Unsettled)) sd := ⟨sd.err, rfl, fun _ _ => rfl, fun _ ha => ha⟩
  have hcall := (readPhases law h.addressing lba hpos hlt hone (law.view sd.dev).card
    (law.view sd.dev).Unsettled buffer).transfer sd hstart
  rcases hcall with ⟨hzero, hcall⟩ | ⟨-, hcall⟩
  · refine ⟨hcall.scr0, ?_, fun hne => absurd hzero hne⟩
    obtain ⟨e, -, hfailed⟩ := hcall
    exact hfailed
  · refine ⟨hcall.scr0, ?_⟩
    obtain ⟨e, -, hdone⟩ := hcall
    refine ⟨hdone.within, fun _ => ⟨quiescent_readOver.settled _ hdone.state, ?_⟩⟩
    rw [← toNat_atLeastOne]
    exact hdone.taken

end NaiveGfs
