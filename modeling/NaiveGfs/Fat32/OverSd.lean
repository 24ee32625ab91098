import NaiveGfs.Fat32.Boot
import NaiveGfs.Fat32.TwoDrivers
import NaiveGfs.Sd.Prompt

/-!
# The file system on the driver of the card

`main.c` calls `fat32_init(sd_readblock, sd_writeblock)`. As long as no call of the two fails,
whatever the file system does with the controller it does with a card that is just a store
of sectors.
-/

namespace NaiveGfs

open BlockStore Programs

variable {σ : Type}

/-- The words of a buffer of one sector. -/
def bufferWords (buf : Sector) (k : ℕ) : UInt32 := if h : k < 128 then buf.word ⟨k, h⟩ else 0

/-- `sd_readblock` and `sd_writeblock` as `fat32.c` calls them, for one sector. -/
def emmcDriver (ctl : Controller σ) : Driver (Sd σ) where
  readsector sd lba buf :=
    let out := sdReadblock ctl lba (bufferWords buf) 1 sd
    (out.2, Sector.ofWords fun k => out.1.2 k.val)
  writesector sd buf lba := (sdWriteblock ctl (bufferWords buf) lba 1 sd).2

theorem readsector_emmc {ctl : Controller σ} (sd : Sd σ) (lba : UInt32) (buf : Sector) :
    (emmcDriver ctl).readsector sd lba buf =
      ((sdReadblock ctl lba (bufferWords buf) 1 sd).2,
        Sector.ofWords fun k => (sdReadblock ctl lba (bufferWords buf) 1 sd).1.2 k.val) :=
  rfl

theorem writesector_emmc {ctl : Controller σ} (sd : Sd σ) (buf : Sector) (lba : UInt32) :
    (emmcDriver ctl).writesector sd buf lba =
      (sdWriteblock ctl (bufferWords buf) lba 1 sd).2 :=
  rfl

/-- Calls for one sector each. -/
def Singles (done : List SdDone) : Prop := ∀ d ∈ done, d.num = 1

/-- No calls for single sectors lead to a call that fails. -/
def NeverFails (ctl : Controller σ) (sd₀ : Sd σ) : Prop :=
  ∀ done sd, SdRun ctl sd₀ done sd → Singles done → ∀ d ∈ done, d.result ≠ 0

theorem Singles.concat {done : List SdDone} {d : SdDone} (h : Singles done) (hd : d.num = 1) :
    Singles (done ++ [d]) := by
  intro d' hd'
  rcases List.mem_append.mp hd' with hold | hnew
  · exact h d' hold
  · rw [List.mem_singleton.mp hnew]
    exact hd

/-- The store holds what the card holds, and nothing is being written. -/
structure OnCard {ctl : Controller σ} (law : Lawful ctl true) (sd₀ sd : Sd σ) (card : Card) :
    Prop where
  run : ∃ done, SdRun ctl sd₀ done sd ∧ Singles done
  addressing : sd.scr0 &&& scrSuppCcs ≠ 0
  settled : ∀ a, ¬ (law.view sd.dev).Unsettled a
  current : card.current = (law.view sd.dev).card

variable {ctl : Controller σ} {law : Lawful ctl true} {sd₀ sd : Sd σ} {card : Card}

theorem blockOf_bufferWords (buf : Sector) : blockOf (bufferWords buf) 0 = buf := by
  have hwords : (fun k : Fin 128 => bufferWords buf (128 * 0 + k.val)) = buf.word := by
    funext k
    have hk : 128 * 0 + k.val < 128 := by omega
    rw [bufferWords, dif_pos hk]
    congr 1
    exact Fin.ext (by simp)
  rw [blockOf, hwords, Sector.ofWords_word]

theorem OnCard.countable (h : OnCard law sd₀ sd card) : Countable true sd.scr0 1 :=
  ⟨iff_of_true rfl h.addressing, by decide, Or.inl rfl⟩

theorem inBlocks_one {lba a : UInt32} : InBlocks lba (max (1 : UInt32).toNat 1) a ↔ a = lba := by
  have hone : max (1 : UInt32).toNat 1 = 1 := rfl
  rw [InBlocks, hone, Nat.lt_one_iff]
  constructor
  · intro h
    have hzero : a - lba = 0 := UInt32.toNat_inj.mp h
    exact sub_eq_zero.mp hzero
  · rintro rfl
    simp

/-- A read that succeeds returns what the store holds. -/
theorem OnCard.readsector (h : OnCard law sd₀ sd card) (hnever : NeverFails ctl sd₀)
    (lba : UInt32) (buf : Sector) :
    OnCard law sd₀ ((emmcDriver ctl).readsector sd lba buf).1 card ∧
      ((emmcDriver ctl).readsector sd lba buf).2 = card.current lba := by
  obtain ⟨done, hrun, hsingles⟩ := h.run
  have hread := hrun.read lba 1 (bufferWords buf)
  obtain ⟨hscr, hwithin, htaken⟩ := sdReadblock_lawful law h.countable lba (bufferWords buf)
  have hok := hnever _ _ hread (hsingles.concat rfl) _ List.mem_concat_self
  obtain ⟨hsettled, hwords⟩ := htaken hok
  have hcard : (law.view (sdReadblock ctl lba (bufferWords buf) 1 sd).2.dev).card =
      card.current := by
    rw [h.current]
    exact funext fun a => hwithin.holds a (h.settled a)
  rw [readsector_emmc]
  generalize sdReadblock ctl lba (bufferWords buf) 1 sd = out at *
  refine ⟨⟨⟨_, hread, hsingles.concat rfl⟩, ?_, hsettled, hcard.symm⟩, ?_⟩
  · rw [hscr]
    exact h.addressing
  · have hall : (fun k : Fin 128 => out.1.2 k.val) = (card.current lba).word := by
      funext k
      have hk : k.val < 128 * max (1 : UInt32).toNat 1 := k.isLt
      have hdiv : k.val / 128 = 0 := Nat.div_eq_of_lt k.isLt
      have hfirst : firstSector true lba + UInt32.ofNat 0 = lba := add_zero lba
      rw [hwords k.val hk, hcard, hdiv, hfirst, Sector.wordAt_val]
    rw [hall, Sector.ofWords_word]

/-- A write that succeeds is a write of the store. -/
theorem OnCard.writesector (h : OnCard law sd₀ sd card) (hnever : NeverFails ctl sd₀)
    (buf : Sector) (lba : UInt32) :
    OnCard law sd₀ ((emmcDriver ctl).writesector sd buf lba) (card.write lba buf) := by
  obtain ⟨done, hrun, hsingles⟩ := h.run
  have hwrite := hrun.write (bufferWords buf) lba 1
  obtain ⟨hscr, hwithin, hstored⟩ := sdWriteblock_lawful law h.countable lba (bufferWords buf)
  have hok := hnever _ _ hwrite (hsingles.concat rfl) _ List.mem_concat_self
  obtain ⟨hidle, hholds⟩ := hstored hok
  have hfirst : firstSector true lba = lba := rfl
  rw [hfirst] at hwithin hholds
  rw [writesector_emmc]
  generalize sdWriteblock ctl (bufferWords buf) lba 1 sd = out at *
  refine ⟨⟨_, hwrite, hsingles.concat rfl⟩, ?_, quiescent_idle.settled _ hidle, ?_⟩
  · rw [hscr]
    exact h.addressing
  · rw [Store.current_write]
    funext a
    by_cases ha : a = lba
    · subst ha
      rw [Function.update_self, hholds a (inBlocks_one.mpr rfl), sub_self]
      exact (blockOf_bufferWords buf).symm
    · have hout : ¬ ((law.view sd.dev).Unsettled a ∨
          InBlocks lba (max (1 : UInt32).toNat 1) a) :=
        not_or.mpr ⟨h.settled a, mt inBlocks_one.mp ha⟩
      rw [Function.update_of_ne ha, h.current, hwithin.holds a hout]

/-- As long as nothing fails the driver does what a store of sectors does. -/
theorem emmcDriver_sim (law : Lawful ctl true) (hnever : NeverFails ctl sd₀) :
    (emmcDriver ctl).Sim sdDriver (OnCard law sd₀) where
  read h lba buf := h.readsector hnever lba buf
  write h buf lba := h.writesector hnever buf lba

/-- A session on the driver of a card that never fails returns what it returns on the store
that holds the same sectors, and leaves the same sectors. -/
theorem session_overSd (law : Lawful ctl true) (haddr : sd.scr0 &&& scrSuppCcs ≠ 0)
    (hidle : (law.view sd.dev).Idle) (hnever : NeverFails ctl sd)
    (hcard : card.current = (law.view sd.dev).card) (calls : List FsCall) (fuel : ℕ)
    (fat : UInt32 → UInt32) :
    SameExcept (Option.Rel (SameOut (OnCard law sd))) (session (emmcDriver ctl) fuel calls fat sd)
      (session sdDriver fuel calls fat card) :=
  session_same fuel (emmcDriver_sim law hnever) calls fat
    ⟨⟨[], .nil, fun _ hd => by simp at hd⟩, haddr, quiescent_idle.settled _ hidle, hcard⟩

/-- The prompt card with an empty root directory. -/
def freshSd : Sd View := { promptSd with dev := ⟨freshCard, 0, 0, 0, .idle⟩ }

theorem freshSd_neverFails : NeverFails promptCard freshSd := by
  intro done sd hrun hsingles d hd
  have hcalm : Calm .idle 0 freshSd.dev := ⟨rfl, by decide, by decide⟩
  have haddr : freshSd.scr0 &&& scrSuppCcs ≠ 0 := by decide
  have hanswers := promptCard_answers hrun haddr ⟨.idle, rfl, hcalm⟩ hsingles
  rw [hanswers.1 d hd]
  decide

theorem session_overSd_fresh :
    SameExcept (Option.Rel (SameOut (OnCard promptCardLawful freshSd)))
      (session (emmcDriver promptCard) 8
        [.initConfig blankSector blankSector, .idFor 3 (fun _ => 65) 5 blankSector]
        (fun _ => 1) freshSd)
      (session sdDriver 8
        [.initConfig blankSector blankSector, .idFor 3 (fun _ => 65) 5 blankSector]
        (fun _ => 1) ⟨freshCard, []⟩) := by
  have hidle : (promptCardLawful.view freshSd.dev).Idle := rfl
  have haddr : freshSd.scr0 &&& scrSuppCcs ≠ 0 := by decide
  exact session_overSd promptCardLawful haddr hidle freshSd_neverFails rfl _ _ _

end NaiveGfs
