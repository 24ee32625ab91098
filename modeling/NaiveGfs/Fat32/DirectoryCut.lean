import NaiveGfs.Fat32.DirectoryEntries
import NaiveGfs.Fat32.OutOfSpace
import NaiveGfs.Fat32.PowerCut

/-!
# The end of the directory at a power cut

Until the sector with a new record is written, a walk of the directory sees what it saw
before. From then on it also sees the new record and whatever lies behind it up to the next
terminal. That is nothing at every cut only if the old contents behind the record begin with
a terminal already, or the terminal is written along with the record (`CutSafe`).
-/

namespace NaiveGfs

open BlockStore BlockStore.Store

variable {vol : Volume} {s : Fs Card} {ch : List UInt32} {disk disk' : UInt32 → Sector}

/-! ## What a walk sees -/

/-- The records of some slots up to the first recognised terminal among them. -/
def seenRecords (vol : Volume) (disk : UInt32 → Sector) (slots : List Slot) : List DirRecord :=
  (slots.map (slotRecord vol disk)).takeWhile fun r => !isEndRecord r

theorem seenRecords_congr {slots : List Slot}
    (h : ∀ x ∈ slots, slotRecord vol disk' x = slotRecord vol disk x) :
    seenRecords vol disk' slots = seenRecords vol disk slots := by
  rw [seenRecords, seenRecords, List.map_congr_left h]

theorem seenRecords_append {xs ys : List Slot}
    (h : ∀ x ∈ xs, isEndRecord (slotRecord vol disk x) = false) :
    seenRecords vol disk (xs ++ ys) = xs.map (slotRecord vol disk) ++ seenRecords vol disk ys := by
  rw [seenRecords, List.map_append, List.takeWhile_append_of_pos]
  · rfl
  · intro r hr
    obtain ⟨x, hx, rfl⟩ := List.mem_map.mp hr
    rw [h x hx]
    rfl

theorem seenRecords_cons (sl : Slot) (slots : List Slot) :
    seenRecords vol disk (sl :: slots) =
      if isEndRecord (slotRecord vol disk sl) then []
      else slotRecord vol disk sl :: seenRecords vol disk slots := by
  rw [seenRecords, List.map_cons, List.takeWhile_cons]
  cases isEndRecord (slotRecord vol disk sl) <;> rfl

/-- A walk of some slots sees nothing if they begin with a terminal, or there are none. -/
theorem seenRecords_eq_nil_iff {slots : List Slot} :
    seenRecords vol disk slots = [] ↔
      ∀ x ∈ slots.head?, isEndRecord (slotRecord vol disk x) = true := by
  cases slots with
  | nil => simp [seenRecords]
  | cons sl slots =>
    rw [seenRecords_cons]
    cases hend : isEndRecord (slotRecord vol disk sl) <;> simp [hend]

/-- A disk on which the walk sees what it saw before, or that and the new record. -/
def SeesOldOrNew (vol : Volume) (ch : List UInt32) (disk disk' : UInt32 → Sector)
    (new : DirRecord) : Prop :=
  seenRecords vol disk' (dirSlots vol ch) = seenRecords vol disk (dirSlots vol ch) ∨
    seenRecords vol disk' (dirSlots vol ch) = seenRecords vol disk (dirSlots vol ch) ++ [new]

theorem Slot.next_lt (sl : Slot) (h : ¬ sl.idx.val = 15) : sl.idx.val + 1 < 16 :=
  NaiveGfs.next_lt h

/-- The record in slot `sl` may become visible before anything behind it is written: the name
makes it a terminal, or the record that is cleared in the same write becomes one, or what is
behind it begins with one. -/
def CutSafe (vol : Volume) (disk : UInt32 → Sector) (ch : List UInt32) (sl : Slot)
    (name : Fin 11 → UInt8) : Prop :=
  name 0 = 0 ∨
    if h : sl.idx.val = 15 then
      (∀ x ∈ (slotsBehind vol ch sl).head?, isEndRecord (slotRecord vol disk x) = true) ∧
        (sl.sectorNo + 1 = vol.id.sectorsPerCluster.toNat ∨
          (slotRecord vol disk { sl with idx := 0 }).isLfn = false)
    else (slotRecord vol disk { sl with idx := ⟨sl.idx.val + 1, sl.next_lt h⟩ }).isLfn = false

/-! ## One sector write -/

theorem slotRecord_update_self (disk : UInt32 → Sector) (b : Sector) {sl x : Slot}
    (hx : slotLba vol x = slotLba vol sl) :
    slotRecord vol (Function.update disk (slotLba vol sl) b) x = b.record x.idx := by
  rw [slotRecord, hx, Function.update_self]

theorem slotRecord_update_of_ne (disk : UInt32 → Sector) (b : Sector) {lba : UInt32} {x : Slot}
    (hx : slotLba vol x ≠ lba) :
    slotRecord vol (Function.update disk lba b) x = slotRecord vol disk x := by
  rw [slotRecord, Function.update_of_ne hx]
  rfl

/-- The two slots of a directory are in one sector only if they say so. -/
theorem RootChain.slotLba_inj (hvol : vol.Sound) {fat : UInt32 → UInt32}
    (hroot : RootChain vol fat ch) {x y : Slot} (hx : x ∈ dirSlots vol ch)
    (hy : y ∈ dirSlots vol ch) (he : slotLba vol x = slotLba vol y) :
    x.cluster = y.cluster ∧ x.sectorNo = y.sectorNo := by
  obtain ⟨hxc, hxj⟩ := mem_dirSlots.mp hx
  obtain ⟨hyc, hyj⟩ := mem_dirSlots.mp hy
  exact hvol.sectorLba_inj (hvol.fits (hroot.inRange _ hxc)) (hvol.fits (hroot.inRange _ hyc))
    hxj hyj he

@[simp] theorem isEndRecord_clearFirst (r : DirRecord) :
    isEndRecord r.clearFirst = !r.isLfn := by
  simp [isEndRecord]

/-- The cuts through the directory writes. -/
theorem forall_prefix_recordWrites (vol : Volume) (c : UInt32) (j : ℕ) (i : Fin 16)
    (records : Sector) (d : UInt32 → Sector) (P : (UInt32 → Sector) → Prop) :
    (∀ q, q <+: recordWrites vol c j i records → P (replay q d)) ↔
      P d ∧ P (Function.update d (sectorLba vol c j) (recordSector i records)) ∧
        (i.val = 15 → j + 1 ≠ vol.id.sectorsPerCluster.toNat →
          P (Function.update (Function.update d (sectorLba vol c j) (recordSector i records))
            (sectorLba vol c (j + 1)) (records.clearRecord 0))) := by
  constructor
  · intro h
    refine ⟨h [] List.nil_prefix, h [(sectorLba vol c j, recordSector i records)] ?_, ?_⟩
    · rw [recordWrites, List.cons_prefix_cons]
      exact ⟨rfl, List.nil_prefix⟩
    · intro hi hj
      apply h [(sectorLba vol c j, recordSector i records),
        (sectorLba vol c (j + 1), records.clearRecord 0)]
      rw [recordWrites, if_pos ⟨hi, hj⟩]
  · rintro ⟨hnone, hfirst, hboth⟩ q hq
    cases q with
    | nil => exact hnone
    | cons w q =>
      rw [recordWrites, List.cons_prefix_cons] at hq
      obtain ⟨rfl, hq⟩ := hq
      by_cases hcond : i.val = 15 ∧ j + 1 ≠ vol.id.sectorsPerCluster.toNat
      · rw [if_pos hcond] at hq
        cases q with
        | nil => exact hfirst
        | cons v q =>
          rw [List.cons_prefix_cons, List.prefix_nil] at hq
          obtain ⟨rfl, rfl⟩ := hq
          exact hboth hcond.1 hcond.2
      · rw [if_neg hcond, List.prefix_nil] at hq
        rw [hq]
        exact hfirst

section Cut

variable {sl : Slot} {new : DirRecord} {ch₁ ch₂ : List UInt32}

/-- With the new record in its slot and nothing changed in front of it, a walk sees what it
saw before and the new record exactly when the slots behind it begin with a terminal. -/
theorem seesOldOrNew_iff (hj : sl.sectorNo < vol.id.sectorsPerCluster.toNat)
    (hold : ∀ x ∈ slotsBefore vol ch₁ sl, isEndRecord (slotRecord vol disk x) = false)
    (hend : isEndRecord (slotRecord vol disk sl) = true)
    (hbefore : ∀ x ∈ slotsBefore vol ch₁ sl, slotRecord vol disk' x = slotRecord vol disk x)
    (hself : slotRecord vol disk' sl = new) :
    SeesOldOrNew vol (ch₁ ++ sl.cluster :: ch₂) disk disk' new ↔
      isEndRecord new = true ∨
        ∀ x ∈ (slotsAfter vol ch₂ sl).head?, isEndRecord (slotRecord vol disk' x) = true := by
  have hseen : seenRecords vol disk (dirSlots vol (ch₁ ++ sl.cluster :: ch₂)) =
      (slotsBefore vol ch₁ sl).map (slotRecord vol disk) := by
    rw [dirSlots_split hj, seenRecords_append hold, seenRecords_cons, if_pos hend,
      List.append_nil]
  have hold' : ∀ x ∈ slotsBefore vol ch₁ sl, isEndRecord (slotRecord vol disk' x) = false := by
    intro x hx
    rw [hbefore x hx]
    exact hold x hx
  rw [SeesOldOrNew, hseen, dirSlots_split hj, seenRecords_append hold', seenRecords_cons, hself,
    List.map_congr_left hbefore]
  by_cases hnew : isEndRecord new = true
  · simp [hnew]
  · rw [if_neg hnew, ← seenRecords_eq_nil_iff]
    simp [hnew]

/-- The sector with the new record in slot `sl`, before the next record is cleared. -/
def newSector (vol : Volume) (disk : UInt32 → Sector) (sl : Slot) (new : DirRecord) : Sector :=
  (disk (slotLba vol sl)).setRecord sl.idx new

/-- A disk `d` after the first directory write. -/
def firstCut (vol : Volume) (disk d : UInt32 → Sector) (sl : Slot) (new : DirRecord) :
    UInt32 → Sector :=
  Function.update d (slotLba vol sl) (recordSector sl.idx (newSector vol disk sl new))

/-- A disk `d` after both directory writes at a sector boundary. -/
def secondCut (vol : Volume) (disk d : UInt32 → Sector) (sl : Slot) (new : DirRecord) :
    UInt32 → Sector :=
  Function.update (firstCut vol disk d sl new) (sectorLba vol sl.cluster (sl.sectorNo + 1))
    ((newSector vol disk sl new).clearRecord 0)

variable {fat : UInt32 → UInt32} {d : UInt32 → Sector} (hvol : vol.Sound)
  (hroot : RootChain vol fat (ch₁ ++ sl.cluster :: ch₂))
  (hj : sl.sectorNo < vol.id.sectorsPerCluster.toNat)
  (hd : ∀ x ∈ dirSlots vol (ch₁ ++ sl.cluster :: ch₂), slotRecord vol d x = slotRecord vol disk x)

/-- A record of the sector that is written first. -/
theorem slotRecord_firstCut_sector (i : Fin 16) :
    slotRecord vol (firstCut vol disk d sl new) { sl with idx := i } =
      (recordSector sl.idx (newSector vol disk sl new)).record i :=
  slotRecord_update_self d _ rfl

theorem slotRecord_firstCut_self : slotRecord vol (firstCut vol disk d sl new) sl = new := by
  have h : slotRecord vol (firstCut vol disk d sl new) { sl with idx := sl.idx } = _ :=
    slotRecord_firstCut_sector sl.idx
  rw [recordSector_record_self, newSector, Sector.record_setRecord_self] at h
  exact h

/-- Behind the second write lies a copy of the first sector with its first byte cleared. -/
theorem slotRecord_secondCut_next (hi : sl.idx.val = 15) :
    slotRecord vol (secondCut vol disk d sl new) ⟨sl.cluster, sl.sectorNo + 1, 0⟩ =
      (slotRecord vol disk { sl with idx := 0 }).clearFirst := by
  have hne : (0 : Fin 16) ≠ sl.idx := by
    intro he
    rw [← he] at hi
    exact absurd hi (by decide)
  show (secondCut vol disk d sl new (sectorLba vol sl.cluster (sl.sectorNo + 1))).record 0 = _
  rw [secondCut, Function.update_self, Sector.record_clearRecord_self, newSector,
    Sector.record_setRecord_of_ne _ hne]
  rfl

include hvol hroot hj hd

/-- The records of other sectors are not touched by the first write. -/
theorem slotRecord_firstCut_of_ne {x : Slot}
    (hx : x ∈ dirSlots vol (ch₁ ++ sl.cluster :: ch₂))
    (hne : ¬ (x.cluster = sl.cluster ∧ x.sectorNo = sl.sectorNo)) :
    slotRecord vol (firstCut vol disk d sl new) x = slotRecord vol disk x := by
  have hsl : sl ∈ dirSlots vol (ch₁ ++ sl.cluster :: ch₂) :=
    mem_dirSlots.mpr ⟨by simp, hj⟩
  rw [firstCut, slotRecord_update_of_ne, hd x hx]
  intro he
  exact hne (hroot.slotLba_inj hvol hx hsl he)

/-- The records in front of the new one stay as they are. -/
theorem slotRecord_firstCut_before {x : Slot} (hx : x ∈ slotsBefore vol ch₁ sl) :
    slotRecord vol (firstCut vol disk d sl new) x = slotRecord vol disk x := by
  have hin : x ∈ dirSlots vol (ch₁ ++ sl.cluster :: ch₂) := by
    rw [dirSlots_split hj]
    exact List.mem_append_left _ hx
  by_cases hsame : x.cluster = sl.cluster ∧ x.sectorNo = sl.sectorNo
  · have hlt : x.idx < sl.idx := by
      cases slotsBefore_of_cluster hroot.nodup hx hsame.1 with
      | inl hlt => omega
      | inr h => exact h.2
    have hx : x = { sl with idx := x.idx } := Slot.ext hsame.1 hsame.2 rfl
    rw [hx, slotRecord_firstCut_sector, recordSector_record_of_lt hlt, newSector,
      Sector.record_setRecord_of_ne _ (ne_of_lt hlt)]
    rfl
  · exact slotRecord_firstCut_of_ne hvol hroot hj hd hin hsame

omit hd in
/-- The second write reaches neither the new record nor what is in front of it. -/
theorem slotRecord_secondCut {x : Slot} (hx : x = sl ∨ x ∈ slotsBefore vol ch₁ sl)
    (hmore : sl.sectorNo + 1 < vol.id.sectorsPerCluster.toNat) :
    slotRecord vol (secondCut vol disk d sl new) x =
      slotRecord vol (firstCut vol disk d sl new) x := by
  have hin : x ∈ dirSlots vol (ch₁ ++ sl.cluster :: ch₂) := by
    rw [dirSlots_split hj]
    cases hx with
    | inl hx =>
      rw [hx]
      exact List.mem_append_right _ List.mem_cons_self
    | inr hx => exact List.mem_append_left _ hx
  have hnext : (⟨sl.cluster, sl.sectorNo + 1, 0⟩ : Slot) ∈
      dirSlots vol (ch₁ ++ sl.cluster :: ch₂) := mem_dirSlots.mpr ⟨by simp, hmore⟩
  rw [secondCut, slotRecord_update_of_ne]
  intro he
  obtain ⟨hc, hs⟩ := hroot.slotLba_inj hvol hin hnext he
  simp only at hc hs
  cases hx with
  | inl hx =>
    rw [hx] at hs
    omega
  | inr hx =>
    have hlt := slotsBefore_of_cluster hroot.nodup hx hc
    omega

omit hvol hj hd in
/-- The slots behind the last record of a sector are in other sectors. -/
theorem notSame_of_slotsAfter (hi : sl.idx.val = 15) {x : Slot} (hx : x ∈ slotsAfter vol ch₂ sl) :
    ¬ (x.cluster = sl.cluster ∧ x.sectorNo = sl.sectorNo) := by
  rintro ⟨hc, hs⟩
  have hlt := slotsAfter_of_cluster hroot.nodup hx hc
  omega

variable (hold : ∀ x ∈ slotsBefore vol ch₁ sl, isEndRecord (slotRecord vol disk x) = false)
  (hend : isEndRecord (slotRecord vol disk sl) = true)

include hold hend

/-- After the first write nothing but the new record is seen behind the old ones if the next
record, cleared, is a terminal, or the old contents behind the sector begin with one. -/
theorem seesOldOrNew_firstCut :
    SeesOldOrNew vol (ch₁ ++ sl.cluster :: ch₂) disk (firstCut vol disk d sl new) new ↔
      isEndRecord new = true ∨
        if h : sl.idx.val = 15 then
          ∀ x ∈ (slotsAfter vol ch₂ sl).head?, isEndRecord (slotRecord vol disk x) = true
        else (slotRecord vol disk { sl with idx := ⟨sl.idx.val + 1, by omega⟩ }).isLfn = false := by
  rw [seesOldOrNew_iff hj hold hend (fun x hx => slotRecord_firstCut_before hvol hroot hj hd hx)
    slotRecord_firstCut_self]
  apply or_congr Iff.rfl
  by_cases hi : sl.idx.val = 15
  · rw [dif_pos hi]
    apply forall₂_congr
    intro x hx
    have hmem : x ∈ slotsAfter vol ch₂ sl := List.mem_of_mem_head? hx
    rw [slotRecord_firstCut_of_ne hvol hroot hj hd _ (notSame_of_slotsAfter hroot hi hmem)]
    rw [dirSlots_split hj]
    exact List.mem_append_right _ (List.mem_cons_of_mem _ hmem)
  · have hlt : sl.idx.val + 1 < 16 := by omega
    have hne : (⟨sl.idx.val + 1, hlt⟩ : Fin 16) ≠ sl.idx := by
      intro he
      have hval := congrArg Fin.val he
      simp at hval
    have hnext : slotRecord vol (firstCut vol disk d sl new) { sl with idx := ⟨_, hlt⟩ } =
        (slotRecord vol disk { sl with idx := ⟨_, hlt⟩ }).clearFirst := by
      rw [slotRecord_firstCut_sector, recordSector, dif_neg hi, Sector.record_clearRecord_self,
        newSector, Sector.record_setRecord_of_ne _ hne]
      rfl
    rw [dif_neg hi, slotsAfter_of_lt vol ch₂ hlt]
    simp [hnext]

/-- After both writes the sector behind the new record begins with a terminal unless it
begins with an LFN record. -/
theorem seesOldOrNew_secondCut (hi : sl.idx.val = 15)
    (hmore : sl.sectorNo + 1 < vol.id.sectorsPerCluster.toNat) :
    SeesOldOrNew vol (ch₁ ++ sl.cluster :: ch₂) disk (secondCut vol disk d sl new) new ↔
      isEndRecord new = true ∨ (slotRecord vol disk { sl with idx := 0 }).isLfn = false := by
  have hbefore : ∀ x ∈ slotsBefore vol ch₁ sl,
      slotRecord vol (secondCut vol disk d sl new) x = slotRecord vol disk x := by
    intro x hx
    rw [slotRecord_secondCut hvol hroot hj (Or.inr hx) hmore]
    exact slotRecord_firstCut_before hvol hroot hj hd hx
  have hself : slotRecord vol (secondCut vol disk d sl new) sl = new := by
    rw [slotRecord_secondCut hvol hroot hj (Or.inl rfl) hmore]
    exact slotRecord_firstCut_self
  obtain ⟨more, hslots⟩ := slotsAfter_of_last vol ch₂ hi hmore
  have hsector : sectorSlots sl.cluster (sl.sectorNo + 1) =
      ⟨sl.cluster, sl.sectorNo + 1, 0⟩ :: sectorRest ⟨sl.cluster, sl.sectorNo + 1, 0⟩ :=
    sectorSlots_split ⟨sl.cluster, sl.sectorNo + 1, 0⟩
  rw [seesOldOrNew_iff hj hold hend hbefore hself, hslots, hsector]
  simp [slotRecord_secondCut_next hi]

/-- The cuts through the directory writes show the old records, or these and the new one,
exactly when the slot is safe. -/
theorem directoryCuts_iff {name : Fin 11 → UInt8} (hnew : isEndRecord new = true ↔ name 0 = 0) :
    (SeesOldOrNew vol (ch₁ ++ sl.cluster :: ch₂) disk (firstCut vol disk d sl new) new ∧
      (sl.idx.val = 15 → sl.sectorNo + 1 ≠ vol.id.sectorsPerCluster.toNat →
        SeesOldOrNew vol (ch₁ ++ sl.cluster :: ch₂) disk (secondCut vol disk d sl new) new)) ↔
      CutSafe vol disk (ch₁ ++ sl.cluster :: ch₂) sl name := by
  rw [seesOldOrNew_firstCut hvol hroot hj hd hold hend, CutSafe, slotsBehind_eq hroot.nodup hj,
    hnew]
  by_cases hi : sl.idx.val = 15
  · rw [dif_pos hi, dif_pos hi]
    by_cases hlast : sl.sectorNo + 1 = vol.id.sectorsPerCluster.toNat
    · simp [hlast]
    · rw [seesOldOrNew_secondCut hvol hroot hj hd hold hend hi (by omega), hnew]
      simp only [hi, hlast, ne_eq, not_false_eq_true, forall_const, false_or]
      exact or_and_left.symm
  · rw [dif_neg hi, dif_neg hi]
    simp [hi]

end Cut

/-! ## The call -/

/-- The sectors that an allocation without space writes are not the directory's. -/
def StrayApart (vol : Volume) (ch : List UInt32) : Prop :=
  ∀ c ∈ ch, ∀ j, j < vol.id.sectorsPerCluster.toNat →
    sectorLba vol c j ≠ fatSectorLba vol fat32TerminalClusterNo ∧
      sectorLba vol c j ≠ clusterNoToLba vol fat32TerminalClusterNo

/-- The allocation of a file writes no sector of the directory. -/
theorem RootChain.notAlloc_named (hvol : vol.Sound) {fat : UInt32 → UInt32}
    (hroot : RootChain vol fat ch) {n : UInt32}
    (hstray : (freeClusters vol fat).length < clustersTaken n → StrayApart vol ch) {c : UInt32}
    (hc : c ∈ ch) {j : ℕ} (hj : j < vol.id.sectorsPerCluster.toNat) :
    ¬ AllocSector vol (namedClusters vol fat n) (sectorLba vol c j) := by
  rintro ⟨x, hx, he⟩
  cases mem_namedClusters hx with
  | inl hfree =>
    have hlayout := hroot.layout hvol fun y hy => by
      rw [List.mem_singleton.mp hy]
      exact hfree
    exact hlayout.notAlloc c hc j hj ⟨x, List.mem_singleton.mpr rfl, he⟩
  | inr hmark =>
    obtain ⟨rfl, hfew⟩ := hmark
    have hapart := hstray hfew c hc j hj
    exact he.elim hapart.1 hapart.2

/-- The root cluster is an entry of the table, so the table has more than two. -/
theorem RootChain.two_le_fatEnd {fat : UInt32 → UInt32} (hroot : RootChain vol fat ch) :
    2 ≤ vol.fatEnd := by
  have hrange := hroot.inRange _ (List.mem_of_head? hroot.head)
  have htwo := hrange.two_le
  have hlt := hrange.lt
  apply UInt32.le_iff_toNat_le.mpr
  show 2 ≤ vol.fatEnd.toNat
  omega

/-- The cuts through `fat32_alloc_local_file`: the allocation leaves the directory as it is,
whatever part of it is done, and `d` is the disk behind it. -/
theorem fat32AllocLocalFile_cuts (hvol : vol.Sound) (hroot : RootChain vol s.fat ch) {sl : Slot}
    (hhit : firstHit vol insertVisit s.disk (dirSlots vol ch) = some (sl, ())) {n : UInt32}
    (hstray : (freeClusters vol s.fat).length < clustersTaken n → StrayApart vol ch)
    (name : Fin 11 → UInt8) (stack : Sector) {fuel : ℕ} (hfuel : ch.length ≤ fuel) :
    ∃ c s' ws d new, fat32AllocLocalFile sdDriver vol n name stack fuel s = some (c, s') ∧
      new = newRecord (slotRecord vol s.disk sl) name c ∧ Issues s.dev s'.dev ws ∧
      (∀ x ∈ dirSlots vol ch, slotRecord vol d x = slotRecord vol s.disk x) ∧
      ((∀ p, p <+: ws → SeesOldOrNew vol ch s.disk (replay p s.disk) new) ↔
        SeesOldOrNew vol ch s.disk (firstCut vol s.disk d sl new) new ∧
          (sl.idx.val = 15 → sl.sectorNo + 1 ≠ vol.id.sectorsPerCluster.toNat →
            SeesOldOrNew vol ch s.disk (secondCut vol s.disk d sl new) new)) := by
  have hscan := hroot.scan hvol.fatEnd_le s.dev hhit hfuel vol.data.rootDirFirstCluster stack
  obtain ⟨c, s₁, hwrites, hinsert⟩ := insertAt_named sdDriver hvol.fatEnd_le hroot.two_le_fatEnd
    n name sl.cluster sl.sectorNo sl.idx (s.disk (slotLba vol sl)) s
  obtain ⟨ws, hissued, hin⟩ := hwrites.touches
  have hdisk : s₁.disk = replay ws s.disk := hissued.current_eq
  set new := newRecord (slotRecord vol s.disk sl) name c
  have hkeep : ∀ p, p <+: ws → ∀ x ∈ dirSlots vol ch,
      slotRecord vol (replay p s.disk) x = slotRecord vol s.disk x := by
    intro p hp x hx
    obtain ⟨hxc, hxj⟩ := mem_dirSlots.mp hx
    rw [slotRecord, slotLba, replay_of_notMem]
    · rfl
    · intro w hw he
      have hsector := hin w (hp.subset hw)
      rw [he] at hsector
      exact hroot.notAlloc_named hvol hstray hxc hxj hsector
  have hd : ∀ x ∈ dirSlots vol ch, slotRecord vol s₁.disk x = slotRecord vol s.disk x := by
    rw [hdisk]
    exact hkeep ws (List.prefix_refl ws)
  refine ⟨c, _, ws ++ recordWrites vol sl.cluster sl.sectorNo sl.idx (newSector vol s.disk sl new),
    s₁.disk, new, ?_, rfl, hissued.trans (storeRecord_issues _ _ _ _ _), hd, ?_⟩
  · rw [fat32AllocLocalFile_of_hit hscan]
    exact congrArg some hinsert
  have hcuts := forall_prefix_recordWrites vol sl.cluster sl.sectorNo sl.idx
    (newSector vol s.disk sl new) s₁.disk fun d => SeesOldOrNew vol ch s.disk d new
  constructor
  · intro h
    have hq := hcuts.mp fun q hq => by
      have hcut := h (ws ++ q) ((List.prefix_append_right_inj ws).mpr hq)
      rwa [replay_append, ← hdisk] at hcut
    exact hq.2
  · intro h p hp
    cases prefix_append_cases hp with
    | inl hp => exact Or.inl (seenRecords_congr (hkeep p hp))
    | inr hp =>
      obtain ⟨q, rfl, hq⟩ := hp
      rw [replay_append, ← hdisk]
      exact hcuts.mpr ⟨Or.inl (seenRecords_congr hd), h⟩ q hq

/-- At every cut through `fat32_alloc_local_file` a walk of the directory sees what it saw
before, or that and the new record, if and only if the slot of the record is safe. -/
theorem allocLocalFile_cut_iff (hvol : vol.Sound) (hroot : RootChain vol s.fat ch) {sl : Slot}
    (hhit : firstHit vol insertVisit s.disk (dirSlots vol ch) = some (sl, ())) {n : UInt32}
    (hstray : (freeClusters vol s.fat).length < clustersTaken n → StrayApart vol ch)
    (name : Fin 11 → UInt8) (stack : Sector) {fuel : ℕ} (hfuel : ch.length ≤ fuel) :
    ∃ c s' ws, fat32AllocLocalFile sdDriver vol n name stack fuel s = some (c, s') ∧
      Issues s.dev s'.dev ws ∧
      ((∀ p, p <+: ws → SeesOldOrNew vol ch s.disk (replay p s.disk)
          (newRecord (slotRecord vol s.disk sl) name c)) ↔
        CutSafe vol s.disk ch sl name) := by
  obtain ⟨c, s', ws, d, new, hcall, hnew, hissued, hd, hcuts⟩ :=
    fat32AllocLocalFile_cuts hvol hroot hhit hstray name stack hfuel
  obtain ⟨-, hj⟩ := mem_dirSlots.mp (firstHit_some hhit).1
  have hend : isEndRecord (slotRecord vol s.disk sl) = true :=
    insertVisit_eq_some.mp (firstHit_some hhit).2
  have hterm : isEndRecord new = true ↔ name 0 = 0 := by simp [hnew, isEndRecord]
  obtain ⟨ch₁, ch₂, rfl, -, hnone⟩ := firstHit_split hroot.nodup hhit
  refine ⟨c, s', ws, hcall, hissued, ?_⟩
  rw [← hnew, hcuts]
  exact directoryCuts_iff hvol hroot hj hd (fun x hx => insertVisit_eq_none.mp (hnone x hx)) hend
    hterm

theorem allocLocalFile_cut_iff_fresh :
    ∃ c s' ws, fat32AllocLocalFile sdDriver smallVolume 1 (fun _ => 65) blankSector 1 freshFs =
        some (c, s') ∧
      Issues freshFs.dev s'.dev ws ∧
      ((∀ p, p <+: ws → SeesOldOrNew smallVolume [2] freshFs.disk (replay p freshFs.disk)
          (newRecord (slotRecord smallVolume freshFs.disk ⟨2, 0, 0⟩) (fun _ => 65) c)) ↔
        CutSafe smallVolume freshFs.disk [2] ⟨2, 0, 0⟩ fun _ => 65) :=
  allocLocalFile_cut_iff smallVolume_sound freshFs_rootChain freshFs_firstHit (n := 1)
    (fun hfew => absurd (freshFs_free 1 (by decide)) (not_le.mpr hfew)) _ _ (le_refl 1)

/-- A root directory with fifteen records and a terminal in its first sector, and a leftover
record at the beginning of the second. -/
def leftoverSectorFs : Fs Card where
  fat := freshFs.fat
  dev := ⟨fun lba =>
    if lba = 1 then fatSector freshFs.fat 0
    else if lba = 2 then fun b => if b.val < 480 then 65 else 0
    else if lba = 3 then fun b => if b.val < 32 then 66 else 0
    else blankSector, []⟩

/-- A cut between the two directory writes makes the leftover record visible. -/
theorem leftoverSector_visible :
    twoSectorsVolume.Sound ∧ RootChain twoSectorsVolume leftoverSectorFs.fat [2] ∧
      firstHit twoSectorsVolume insertVisit leftoverSectorFs.disk (dirSlots twoSectorsVolume [2]) =
        some (⟨2, 0, 15⟩, ()) ∧
      ∃ c s' ws, fat32AllocLocalFile sdDriver twoSectorsVolume 1 (fun _ => 65) blankSector 1
          leftoverSectorFs = some (c, s') ∧
        Issues leftoverSectorFs.dev s'.dev ws ∧
        ¬ ∀ p, p <+: ws → SeesOldOrNew twoSectorsVolume [2] leftoverSectorFs.disk
          (replay p leftoverSectorFs.disk)
          (newRecord (slotRecord twoSectorsVolume leftoverSectorFs.disk ⟨2, 0, 15⟩)
            (fun _ => 65) c) := by
  have hroot : RootChain twoSectorsVolume leftoverSectorFs.fat [2] :=
    ⟨⟨rfl, List.isChain_singleton 2, List.all_iff_forall_prop.mp (by decide), by decide⟩,
      List.all_iff_forall_prop.mp (by decide)⟩
  have hhit : firstHit twoSectorsVolume insertVisit leftoverSectorFs.disk
      (dirSlots twoSectorsVolume [2]) = some (⟨2, 0, 15⟩, ()) := rfl
  have hfree : 1 ≤ (freeClusters twoSectorsVolume leftoverSectorFs.fat).length :=
    freshFs_free 1 (by decide)
  obtain ⟨c, s', ws, d, new, hcall, hnew, hissued, hd, hcuts⟩ := fat32AllocLocalFile_cuts
    twoSectorsVolume_sound hroot hhit (n := 1) (fun hfew => absurd hfree (not_le.mpr hfew))
    (fun _ => 65) blankSector (le_refl 1)
  refine ⟨twoSectorsVolume_sound, hroot, hhit, c, s', ws, hcall, hissued, ?_⟩
  rw [← hnew, hcuts]
  rintro ⟨hfirst, -⟩
  have hroot' : RootChain twoSectorsVolume leftoverSectorFs.fat
      ([] ++ Slot.cluster ⟨2, 0, 15⟩ :: []) := hroot
  have hsafe := (seesOldOrNew_firstCut twoSectorsVolume_sound hroot' (by decide) hd (by decide)
    (by decide)).mp hfirst
  cases hsafe with
  | inl hend =>
    rw [hnew] at hend
    exact absurd hend (by simp [isEndRecord])
  | inr hnext => exact absurd (hnext ⟨2, 1, 0⟩ rfl) (by decide)

end NaiveGfs
