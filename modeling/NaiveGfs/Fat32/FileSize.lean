import NaiveGfs.Fat32.RootChain

/-!
# The size in the record of a new file

`alloc_local_file_at` fills in the name, the start cluster and the attribute of the record it
is given, and keeps the rest of the bytes, `dir_file_size` among them. So a new record has
the size that was left in the terminal record, and sizes only ever move: at a sector boundary
those of a sector are copied to the next one. Which of the sizes that a directory begins with
a new record inherits is computed from the places of the insertions alone (`origin`).
-/

namespace NaiveGfs

variable {vol : Volume} {s s' : Fs Card} {ch : List UInt32}

/-- `dir_file_size` of the record in a slot. -/
def slotSize (vol : Volume) (disk : UInt32 → Sector) (sl : Slot) : ℕ :=
  (slotRecord vol disk sl).dirFileSize.toNat

/-- The number of bytes in `n` clusters. -/
def clusterBytes (vol : Volume) (n : UInt32) : ℕ :=
  n.toNat * vol.id.sectorsPerCluster.toNat * 512

/-- A call of `fat32_alloc_local_file` that inserts at a terminal record: the number of
clusters, the state before, the slot of the terminal and the state behind it. -/
structure InsertStep where
  numClusters : UInt32
  before : Fs Card
  slot : Slot
  after : Fs Card

/-- A run of calls that insert at terminal records, each for one cluster or more. -/
inductive InsertRun (vol : Volume) : Fs Card → List InsertStep → Fs Card → Prop
  | nil (s : Fs Card) : InsertRun vol s [] s
  | call {s s₁ s' : Fs Card} {n c : UInt32} {name : Fin 11 → UInt8} {stack : Sector} {fuel : ℕ}
      {sl : Slot} {dev : Card} {records : Sector} {steps : List InsertStep} (hn : 1 ≤ n)
      (hscan : walkClusters sdDriver vol s.fat insertVisit fuel vol.data.rootDirFirstCluster
        vol.data.rootDirFirstCluster s.dev stack =
          some (.hit sl.cluster sl.sectorNo sl.idx () dev records))
      (hcall : fat32AllocLocalFile sdDriver vol n name stack fuel s = some (c, s₁))
      (hrest : InsertRun vol s₁ steps s') : InsertRun vol s (⟨n, s, sl, s₁⟩ :: steps) s'

/-! ## One call -/

/-- The new record is the old one with another name, cluster and attribute. -/
theorem slotRecord_of_call {n c : UInt32} {name : Fin 11 → UInt8} {stack : Sector} {fuel : ℕ}
    {sl : Slot} {dev : Card} {records : Sector}
    (hscan : walkClusters sdDriver vol s.fat insertVisit fuel vol.data.rootDirFirstCluster
      vol.data.rootDirFirstCluster s.dev stack =
        some (.hit sl.cluster sl.sectorNo sl.idx () dev records))
    (hcall : fat32AllocLocalFile sdDriver vol n name stack fuel s = some (c, s')) :
    slotRecord vol s'.disk sl = newRecord (slotRecord vol s.disk sl) name c := by
  obtain ⟨-, -, rfl, hbuf, -⟩ := walkClusters_hit hscan
  rw [fat32AllocLocalFile_of_hit hscan] at hcall
  have hinsert := Option.some.inj hcall
  simp only [insertAt, allocLocalFileAt] at hinsert
  obtain ⟨rfl, rfl⟩ := Prod.mk.inj hinsert
  rw [slotRecord, slotLba, storeRecord_disk_self, recordSector_record_self,
    Sector.record_setRecord_self, hbuf]
  rfl

theorem slotSize_of_call {n c : UInt32} {name : Fin 11 → UInt8} {stack : Sector} {fuel : ℕ}
    {sl : Slot} {dev : Card} {records : Sector}
    (hscan : walkClusters sdDriver vol s.fat insertVisit fuel vol.data.rootDirFirstCluster
      vol.data.rootDirFirstCluster s.dev stack =
        some (.hit sl.cluster sl.sectorNo sl.idx () dev records))
    (hcall : fat32AllocLocalFile sdDriver vol n name stack fuel s = some (c, s')) :
    slotSize vol s'.disk sl = slotSize vol s.disk sl := by
  rw [slotSize, slotSize, slotRecord_of_call hscan hcall]
  rfl

/-- Where the size comes from that is in slot `x` after an insertion at `sl`. -/
def copiedFrom (sl x : Slot) : Slot :=
  if sl.idx.val = 15 ∧ x.cluster = sl.cluster ∧ x.sectorNo = sl.sectorNo + 1 then
    { sl with idx := x.idx }
  else x

theorem size_clearRecord (records : Sector) (i j : Fin 16) :
    ((records.clearRecord i).record j).dirFileSize = (records.record j).dirFileSize := by
  by_cases h : j = i
  · subst h
    rw [Sector.record_clearRecord_self]
    rfl
  · rw [Sector.record_clearRecord_of_ne _ h]

theorem size_setRecord (records : Sector) (i j : Fin 16) (name : Fin 11 → UInt8) (c : UInt32) :
    ((records.setRecord i (newRecord (records.record i) name c)).record j).dirFileSize =
      (records.record j).dirFileSize := by
  by_cases h : j = i
  · subst h
    rw [Sector.record_setRecord_self]
    rfl
  · rw [Sector.record_setRecord_of_ne _ h]

/-- An insertion moves the sizes in a directory and makes no new ones. -/
theorem slotSize_sectorAfter {disk disk' : UInt32 → Sector} {sl : Slot} {name : Fin 11 → UInt8}
    {c : UInt32} (hdisk : ∀ d ∈ ch, ∀ j, j < vol.id.sectorsPerCluster.toNat →
      disk' (sectorLba vol d j) =
        sectorAfter vol disk sl (newRecord (slotRecord vol disk sl) name c) d j) {x : Slot}
    (hx : x ∈ dirSlots vol ch) :
    slotSize vol disk' x = slotSize vol disk (copiedFrom sl x) := by
  obtain ⟨hc, hj⟩ := mem_dirSlots.mp hx
  rw [slotSize, slotRecord, slotLba, hdisk _ hc _ hj, sectorAfter]
  by_cases hself : x.cluster = sl.cluster ∧ x.sectorNo = sl.sectorNo
  · -- the sector of the new record, whose next record is cleared
    have hcopy : copiedFrom sl x = x := if_neg (by omega)
    have hx : slotRecord vol disk x = (disk (slotLba vol sl)).record x.idx := by
      rw [slotRecord, slotLba, hself.1, hself.2, slotLba]
    rw [if_pos hself, hcopy, slotSize, hx, slotRecord, recordSector]
    split
    · rw [size_setRecord]
    · rw [size_clearRecord, size_setRecord]
  · rw [if_neg hself]
    by_cases hnext : sl.idx.val = 15 ∧ x.cluster = sl.cluster ∧ x.sectorNo = sl.sectorNo + 1
    · -- the next sector, filled with a copy of the sector before it
      have hcopy : copiedFrom sl x = { sl with idx := x.idx } := if_pos hnext
      rw [if_pos hnext, hcopy, size_clearRecord, slotRecord, size_setRecord]
      rfl
    · have hcopy : copiedFrom sl x = x := if_neg hnext
      rw [if_neg hnext, hcopy]
      rfl

/-- The walk of a call ends at the first terminal of the clusters `ch` if it ends in them. -/
theorem DirChain.firstHit_of_scan (hend : vol.fatEnd.toNat ≤ 2 ^ 28) (h : DirChain vol s.fat ch)
    {stack : Sector} {fuel : ℕ} {sl : Slot} {dev : Card} {records : Sector}
    (hscan : walkClusters sdDriver vol s.fat insertVisit fuel vol.data.rootDirFirstCluster
      vol.data.rootDirFirstCluster s.dev stack =
        some (.hit sl.cluster sl.sectorNo sl.idx () dev records))
    (hin : sl ∈ dirSlots vol ch) :
    firstHit vol insertVisit s.disk (dirSlots vol ch) = some (sl, ()) := by
  obtain ⟨-, -, -, hbuf, hvisit⟩ := walkClusters_hit hscan
  rw [hbuf] at hvisit
  cases hfirst : firstHit vol insertVisit s.disk (dirSlots vol ch) with
  | none =>
    have hnone := List.findSome?_eq_none_iff.mp hfirst sl hin
    have hstop : insertVisit (slotRecord vol s.disk sl) = some () := hvisit
    rw [hstop] at hnone
    simp at hnone
  | some p =>
    obtain ⟨x, u⟩ := p
    have hwalk := h.scan hend s.dev hfirst (le_max_left ch.length fuel)
      vol.data.rootDirFirstCluster stack
    rw [walkClusters_mono (le_max_right ch.length fuel) hscan] at hwalk
    simp only [Option.some.injEq, WalkEnd.hit.injEq] at hwalk
    obtain ⟨hc, hj, hi, -⟩ := hwalk
    rw [Slot.ext hc hj hi]

/-- A call moves the sizes in the directory as `copiedFrom` says, keeps the records in front of
the new one, and keeps the chain. -/
theorem RootChain.sizes_of_call (hvol : vol.Sound) (hroot : RootChain vol s.fat ch)
    {n c : UInt32} {name : Fin 11 → UInt8} {stack : Sector} {fuel : ℕ} {sl : Slot} {dev : Card}
    {records : Sector}
    (hscan : walkClusters sdDriver vol s.fat insertVisit fuel vol.data.rootDirFirstCluster
      vol.data.rootDirFirstCluster s.dev stack =
        some (.hit sl.cluster sl.sectorNo sl.idx () dev records))
    (hcall : fat32AllocLocalFile sdDriver vol n name stack fuel s = some (c, s'))
    (hin : sl ∈ dirSlots vol ch) (hfree : clustersTaken n ≤ (freeClusters vol s.fat).length) :
    RootChain vol s'.fat ch ∧
      (∀ x ∈ dirSlots vol ch, slotSize vol s'.disk x = slotSize vol s.disk (copiedFrom sl x)) ∧
      ∃ ch₁ ch₂, ch = ch₁ ++ sl.cluster :: ch₂ ∧
        (∀ x ∈ slotsBefore vol ch₁ sl, isEndRecord (slotRecord vol s.disk x) = false) ∧
        ∀ x ∈ slotsBefore vol ch₁ sl, slotRecord vol s'.disk x = slotRecord vol s.disk x := by
  have hhit := hroot.firstHit_of_scan hvol.fatEnd_le hscan hin
  obtain ⟨c₁, s₁, hrun, -, hfat, hdisk⟩ := fat32AllocLocalFile_directory hvol.fatEnd_le
    hroot.toDirChain (hroot.layout hvol fun _ hx => mem_fileClusters hx) hhit hfree name stack
    (le_max_left ch.length fuel)
  rw [fat32AllocLocalFile_mono (le_max_right ch.length fuel) hcall, Option.some.injEq,
    Prod.mk.injEq] at hrun
  obtain ⟨rfl, rfl⟩ := hrun
  refine ⟨hroot.congr hfat, fun x hx => slotSize_sectorAfter hdisk hx, ?_⟩
  obtain ⟨ch₁, ch₂, rfl, -, hnone⟩ := firstHit_split hroot.nodup hhit
  refine ⟨ch₁, ch₂, rfl, fun x hx => insertVisit_eq_none.mp (hnone x hx), fun x hx => ?_⟩
  exact slotRecord_before hroot.nodup (mem_dirSlots.mp hin).2 hdisk hx

/-! ## Runs -/

/-- The slot from which the size has come that is in slot `x` after some insertions. -/
def origin (steps : List InsertStep) (x : Slot) : Slot :=
  steps.foldr (fun st y => copiedFrom st.slot y) x

theorem copiedFrom_mem {sl x : Slot} (hsl : sl ∈ dirSlots vol ch) (hx : x ∈ dirSlots vol ch) :
    copiedFrom sl x ∈ dirSlots vol ch := by
  obtain ⟨hc, hj⟩ := mem_dirSlots.mp hsl
  rw [copiedFrom]
  split
  · exact mem_dirSlots.mpr ⟨hc, hj⟩
  · exact hx

theorem origin_mem {steps : List InsertStep} (hsteps : ∀ st ∈ steps, st.slot ∈ dirSlots vol ch)
    {x : Slot} (hx : x ∈ dirSlots vol ch) : origin steps x ∈ dirSlots vol ch := by
  induction steps with
  | nil => exact hx
  | cons st steps ih =>
    exact copiedFrom_mem (hsteps st List.mem_cons_self)
      (ih fun st' h => hsteps st' (List.mem_cons_of_mem _ h))

/-- The calls of a run find their terminals in the clusters `ch` and enough free clusters. -/
def StaysIn (vol : Volume) (ch : List UInt32) (steps : List InsertStep) : Prop :=
  ∀ st ∈ steps, st.slot ∈ dirSlots vol ch ∧
    clustersTaken st.numClusters ≤ (freeClusters vol st.before.fat).length

/-- A run in two parts. -/
theorem InsertRun.split {pre post : List InsertStep} {st : InsertStep}
    (hrun : InsertRun vol s (pre ++ st :: post) s') :
    InsertRun vol s pre st.before ∧ InsertRun vol st.before [st] st.after ∧
      InsertRun vol st.after post s' := by
  induction pre generalizing s with
  | nil =>
    cases hrun with
    | call hn hscan hcall hrest => exact ⟨.nil _, .call hn hscan hcall (.nil _), hrest⟩
  | cons st' pre ih =>
    cases hrun with
    | call hn hscan hcall hrest =>
      obtain ⟨hpre, hst, hpost⟩ := ih hrest
      exact ⟨.call hn hscan hcall hpre, hst, hpost⟩

/-- A run of one call. -/
theorem InsertRun.single {st : InsertStep} (hrun : InsertRun vol st.before [st] st.after) :
    ∃ c name stack fuel dev records,
      walkClusters sdDriver vol st.before.fat insertVisit fuel vol.data.rootDirFirstCluster
        vol.data.rootDirFirstCluster st.before.dev stack =
          some (.hit st.slot.cluster st.slot.sectorNo st.slot.idx () dev records) ∧
      fat32AllocLocalFile sdDriver vol st.numClusters name stack fuel st.before =
        some (c, st.after) := by
  obtain ⟨n, before, sl, after⟩ := st
  cases hrun with
  | call hn hscan hcall hrest =>
    cases hrest
    exact ⟨_, _, _, _, _, _, hscan, hcall⟩

/-- Behind a run every size is one of those that the directory began with. -/
theorem InsertRun.sizes (hvol : vol.Sound) {steps : List InsertStep}
    (hrun : InsertRun vol s steps s') (hroot : RootChain vol s.fat ch)
    (hstays : StaysIn vol ch steps) :
    RootChain vol s'.fat ch ∧ ∀ x ∈ dirSlots vol ch,
      slotSize vol s'.disk x = slotSize vol s.disk (origin steps x) := by
  induction hrun with
  | nil s => exact ⟨hroot, fun _ _ => rfl⟩
  | @call s s₁ s' n c name stack fuel sl dev records steps hn hscan hcall hrest ih =>
    obtain ⟨hin, hfree⟩ := hstays _ List.mem_cons_self
    obtain ⟨hroot₁, hsizes, -⟩ := hroot.sizes_of_call hvol hscan hcall hin hfree
    have hrestStays : StaysIn vol ch steps := fun st h => hstays st (List.mem_cons_of_mem _ h)
    obtain ⟨hroot', hmoved⟩ := ih hroot₁ hrestStays
    refine ⟨hroot', fun x hx => ?_⟩
    rw [hmoved x hx, hsizes _ (origin_mem (fun st h => (hrestStays st h).1) hx)]
    rfl

/-- No record in front of a slot is one at which a file is created. -/
def NoEndBefore (vol : Volume) (ch : List UInt32) (disk : UInt32 → Sector) (x : Slot) : Prop :=
  ∃ before after, dirSlots vol ch = before ++ x :: after ∧
    ∀ y ∈ before, isEndRecord (slotRecord vol disk y) = false

/-- Of two places in a list, one is in front of the other. -/
theorem append_cons_cases {α : Type} {as bs cs ds : List α} {a c : α}
    (h : as ++ a :: bs = cs ++ c :: ds) :
    (a = c ∧ as = cs) ∨ a ∈ cs ∨ c ∈ as ∧ ∀ x ∈ cs, x ∈ as := by
  rcases List.append_eq_append_iff.mp h with ⟨es, hcs, hbs⟩ | ⟨es, has, hds⟩
  · cases es with
    | nil => exact Or.inl ⟨(List.cons.inj hbs).1, by simpa using hcs.symm⟩
    | cons e es =>
      obtain ⟨rfl, -⟩ := List.cons.inj hbs
      exact Or.inr (Or.inl (by rw [hcs]; simp))
  · cases es with
    | nil => exact Or.inl ⟨(List.cons.inj hds).1.symm, by simpa using has⟩
    | cons e es =>
      obtain ⟨rfl, -⟩ := List.cons.inj hds
      exact Or.inr (Or.inr ⟨by rw [has]; simp, fun x hx => by rw [has]; simp [hx]⟩)

/-- Calls do not change the size in a slot without a terminal in front of it. -/
theorem InsertRun.size_kept (hvol : vol.Sound) {steps : List InsertStep}
    (hrun : InsertRun vol s steps s') (hroot : RootChain vol s.fat ch)
    (hstays : StaysIn vol ch steps) {x : Slot} (hx : NoEndBefore vol ch s.disk x) :
    slotSize vol s'.disk x = slotSize vol s.disk x := by
  induction hrun with
  | nil s => rfl
  | @call s s₁ s' n c name stack fuel sl dev records steps hn hscan hcall hrest ih =>
    obtain ⟨hin, hfree⟩ := hstays _ List.mem_cons_self
    obtain ⟨hroot₁, -, ch₁, ch₂, hch, -, hkeep⟩ := hroot.sizes_of_call hvol hscan hcall hin hfree
    have hhit := hroot.firstHit_of_scan hvol.fatEnd_le hscan hin
    have hend := insertVisit_eq_some.mp (firstHit_some hhit).2
    obtain ⟨before, after, hsplit, hnone⟩ := hx
    have hslots : slotsBefore vol ch₁ sl ++ sl :: slotsAfter vol ch₂ sl = before ++ x :: after := by
      rw [← hsplit, hch, dirSlots_split (mem_dirSlots.mp hin).2]
    have hrestStays : StaysIn vol ch steps := fun st h => hstays st (List.mem_cons_of_mem _ h)
    rcases append_cons_cases hslots with ⟨rfl, hbefore⟩ | hmem | ⟨hxin, hsub⟩
    · -- the slot of the call itself
      rw [ih hroot₁ hrestStays ⟨before, after, hsplit, fun y hy => ?_⟩]
      · exact slotSize_of_call hscan hcall
      · rw [hkeep y (hbefore ▸ hy)]
        exact hnone y hy
    · -- the call does not insert in front of the slot
      rw [hnone sl hmem] at hend
      simp at hend
    · -- the call inserts behind the slot
      rw [ih hroot₁ hrestStays ⟨before, after, hsplit, fun y hy => ?_⟩]
      · rw [slotSize, slotSize, hkeep x hxin]
      · rw [hkeep y (hsub y hy)]
        exact hnone y hy

/-- The new records of a run fit their chains when they are written exactly when the sizes left
in the terminals do. In a well-formed directory these are sizes that the directory began
with, at the places from which they have been copied, and the records keep them. -/
theorem allocLocalFile_size_iff {steps : List InsertStep} (hrun : InsertRun vol s steps s') :
    ((∀ st ∈ steps, slotSize vol st.after.disk st.slot ≤ clusterBytes vol st.numClusters) ↔
      ∀ st ∈ steps, slotSize vol st.before.disk st.slot ≤ clusterBytes vol st.numClusters) ∧
    (vol.Sound → ∀ ch, RootChain vol s.fat ch → StaysIn vol ch steps →
      ((∀ st ∈ steps, slotSize vol s'.disk st.slot ≤ clusterBytes vol st.numClusters) ↔
        ∀ pre st post, steps = pre ++ st :: post →
          slotSize vol s.disk (origin pre st.slot) ≤ clusterBytes vol st.numClusters)) := by
  have hstep : ∀ pre st post, steps = pre ++ st :: post →
      slotSize vol st.after.disk st.slot = slotSize vol st.before.disk st.slot := by
    rintro pre st post rfl
    obtain ⟨-, hst, -⟩ := hrun.split
    obtain ⟨c, name, stack, fuel, dev, records, hscan, hcall⟩ := hst.single
    exact slotSize_of_call hscan hcall
  constructor
  · constructor
    · intro hall st hst
      obtain ⟨pre, post, hsplit⟩ := List.append_of_mem hst
      rw [← hstep pre st post hsplit]
      exact hall st hst
    · intro hall st hst
      obtain ⟨pre, post, hsplit⟩ := List.append_of_mem hst
      rw [hstep pre st post hsplit]
      exact hall st hst
  · intro hvol ch hroot hstays
    -- the calls before a record is written move sizes into its slot, the calls behind keep it
    have hfinal : ∀ pre st post, steps = pre ++ st :: post →
        slotSize vol s'.disk st.slot = slotSize vol s.disk (origin pre st.slot) := by
      rintro pre st post rfl
      obtain ⟨hpre, hst, hpost⟩ := hrun.split
      have hpreStays : StaysIn vol ch pre := fun x h => hstays x (List.mem_append_left _ h)
      have hpostStays : StaysIn vol ch post := fun x h => hstays x (by simp [h])
      obtain ⟨hin, hfree⟩ := hstays st (by simp)
      obtain ⟨hroot₁, hsizes⟩ := hpre.sizes hvol hroot hpreStays
      rw [← hsizes _ hin, ← hstep pre st post rfl]
      obtain ⟨c, name, stack, fuel, dev, records, hscan, hcall⟩ := hst.single
      obtain ⟨hroot₂, -, ch₁, ch₂, hch, hnone, hkeep⟩ :=
        hroot₁.sizes_of_call hvol hscan hcall hin hfree
      have hslots : dirSlots vol ch =
          slotsBefore vol ch₁ st.slot ++ st.slot :: slotsAfter vol ch₂ st.slot := by
        rw [hch, dirSlots_split (mem_dirSlots.mp hin).2]
      refine hpost.size_kept hvol hroot₂ hpostStays ⟨_, _, hslots, fun y hy => ?_⟩
      rw [hkeep y hy]
      exact hnone y hy
    constructor
    · intro hall pre st post hsplit
      rw [← hfinal pre st post hsplit]
      exact hall st (by rw [hsplit]; simp)
    · intro hall st hst
      obtain ⟨pre, post, hsplit⟩ := List.append_of_mem hst
      rw [hfinal pre st post hsplit]
      exact hall pre st post hsplit

/-- A root directory with fifteen records of size 0 and a terminal in its first sector. -/
def fifteenFs : Fs Card where
  fat := freshFs.fat
  dev := ⟨fun lba =>
    if lba = 2 then fun b => if b.val < 480 ∧ b.val % 32 < 28 then 65 else 0 else blankSector, []⟩

/-- The same directory with one more file. -/
def sixteenFs : Fs Card :=
  (insertAt sdDriver twoSectorsVolume 2 0 15 (fifteenFs.disk 2) 1 (fun _ => 65) fifteenFs).2

/-- Behind a sector boundary: the record of the second file is put over a copy of record 0, and
has the size of that one. -/
theorem allocLocalFile_size_fresh :
    ∃ s', InsertRun twoSectorsVolume fifteenFs
        [⟨1, fifteenFs, ⟨2, 0, 15⟩, sixteenFs⟩, ⟨1, sixteenFs, ⟨2, 1, 0⟩, s'⟩] s' ∧
      slotSize twoSectorsVolume s'.disk ⟨2, 0, 15⟩ ≤ clusterBytes twoSectorsVolume 1 ∧
      slotSize twoSectorsVolume s'.disk ⟨2, 1, 0⟩ ≤ clusterBytes twoSectorsVolume 1 := by
  have hfirst : fat32AllocLocalFile sdDriver twoSectorsVolume 1 (fun _ => 65) blankSector 1
      fifteenFs = some (3, sixteenFs) := rfl
  obtain ⟨c, s', hsecond⟩ : ∃ c s', fat32AllocLocalFile sdDriver twoSectorsVolume 1
      (fun _ => 66) blankSector 1 sixteenFs = some (c, s') := ⟨_, _, rfl⟩
  have hrun : InsertRun twoSectorsVolume fifteenFs
      [⟨1, fifteenFs, ⟨2, 0, 15⟩, sixteenFs⟩, ⟨1, sixteenFs, ⟨2, 1, 0⟩, s'⟩] s' :=
    .call (by decide) rfl hfirst (.call (by decide) rfl hsecond (.nil s'))
  have hroot : RootChain twoSectorsVolume fifteenFs.fat [2] :=
    ⟨⟨rfl, List.isChain_singleton 2, List.all_iff_forall_prop.mp (by decide), by decide⟩,
      List.all_iff_forall_prop.mp (by decide)⟩
  have hfree : freeClusters twoSectorsVolume sixteenFs.fat =
      4 :: (freeClusters twoSectorsVolume sixteenFs.fat).tail := rfl
  have hslot : (⟨2, 1, 0⟩ : Slot) ∈ dirSlots twoSectorsVolume [2] := by decide
  have hleft : slotSize twoSectorsVolume fifteenFs.disk ⟨2, 0, 15⟩ ≤
      clusterBytes twoSectorsVolume 1 := by decide
  have hcopied : slotSize twoSectorsVolume fifteenFs.disk ⟨2, 0, 0⟩ ≤
      clusterBytes twoSectorsVolume 1 := by decide
  have hstays : StaysIn twoSectorsVolume [2]
      [⟨1, fifteenFs, ⟨2, 0, 15⟩, sixteenFs⟩, ⟨1, sixteenFs, ⟨2, 1, 0⟩, s'⟩] := by
    have hone : clustersTaken 1 = 1 := by decide
    intro st hst
    rcases List.mem_pair.mp hst with rfl | rfl
    · exact ⟨by decide, freshFs_free 1 (by decide)⟩
    · exact ⟨hslot, by rw [hfree, hone]; simp⟩
  have hall : ∀ pre st post, [⟨1, fifteenFs, ⟨2, 0, 15⟩, sixteenFs⟩,
      ⟨1, sixteenFs, ⟨2, 1, 0⟩, s'⟩] = pre ++ st :: post →
        slotSize twoSectorsVolume fifteenFs.disk (origin pre st.slot) ≤
          clusterBytes twoSectorsVolume st.numClusters := by
    intro pre st post hsplit
    rcases pre with _ | ⟨x, _ | ⟨y, pre⟩⟩
    · obtain ⟨hst, -⟩ := List.cons.inj hsplit
      rw [← hst]
      exact hleft
    · obtain ⟨hx, hrest⟩ := List.cons.inj hsplit
      obtain ⟨hst, -⟩ := List.cons.inj hrest
      rw [← hx, ← hst]
      exact hcopied
    · simp at hsplit
  have hfits := ((allocLocalFile_size_iff hrun).2 twoSectorsVolume_sound [2] hroot hstays).mpr
  exact ⟨s', hrun, hfits hall ⟨1, fifteenFs, ⟨2, 0, 15⟩, sixteenFs⟩ (by simp),
    hfits hall ⟨1, sixteenFs, ⟨2, 1, 0⟩, s'⟩ (by simp)⟩

/-- The small volume with an empty root directory, in whose terminal record the size bytes of
an earlier file are left. -/
def usedCardFs : Fs Card where
  fat := freshFs.fat
  dev := ⟨Function.update freshFs.disk 2 fun b => if b.val < 28 then 0 else 0xff, []⟩

/-- The file of one cluster that is created there has 4294967295 bytes. -/
theorem usedCard_size :
    liveRecords smallVolume usedCardFs.disk (dirSlots smallVolume [2]) = [] ∧
      ∃ st, InsertRun smallVolume usedCardFs [st] st.after ∧
        slotSize smallVolume st.after.disk st.slot = 4294967295 ∧
        ¬ slotSize smallVolume st.after.disk st.slot ≤
          clusterBytes smallVolume st.numClusters := by
  have hroot : RootChain smallVolume usedCardFs.fat [2] := freshFs_rootChain
  have hhit : firstHit smallVolume insertVisit usedCardFs.disk (dirSlots smallVolume [2]) =
      some (⟨2, 0, 0⟩, ()) := rfl
  obtain ⟨c, s', hcall, -⟩ := fat32AllocLocalFile_directory smallVolume_sound.fatEnd_le
    hroot.toDirChain (n := 1) (hroot.layout smallVolume_sound fun _ hx => mem_fileClusters hx)
    hhit (freshFs_free 1 (by decide)) (fun _ => 65) blankSector (le_refl 1)
  have hscan := hroot.scan smallVolume_sound.fatEnd_le usedCardFs.dev hhit (le_refl 1) 2
    blankSector
  have hsize : slotSize smallVolume s'.disk ⟨2, 0, 0⟩ = 4294967295 :=
    slotSize_of_call hscan hcall
  have hbound : clusterBytes smallVolume 1 = 512 := rfl
  refine ⟨rfl, ⟨1, usedCardFs, ⟨2, 0, 0⟩, s'⟩, .call (by decide) hscan hcall (.nil s'), hsize, ?_⟩
  rw [hsize, hbound]
  omega

end NaiveGfs
