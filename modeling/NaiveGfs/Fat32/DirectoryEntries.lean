import NaiveGfs.Fat32.RootChain

/-!
# The entries of the root directory

Creating a file puts one record at the end of the entries that lookups consider. Whether it
is the only one that is added depends on what lies behind it: the new end is made by
clearing the first byte of a record without looking at its attribute, or of a copy of the
sector just written, or not at all. `TerminalFollows` says when that is an end.
-/

namespace NaiveGfs

open BlockStore BlockStore.Store

variable {vol : Volume} {s : Fs Card} {ch : List UInt32}

/-- The slots of a directory behind a slot. -/
def slotsBehind (vol : Volume) (ch : List UInt32) (sl : Slot) : List Slot :=
  ((dirSlots vol ch).dropWhile fun x => x != sl).tail

/-- The scanners meet a terminal, or the end of the chain, before any entry behind a record
that is stored in slot `sl`: the record that is cleared is not an LFN record, or nothing but
LFN records comes before a terminal in what lies behind already. -/
def TerminalFollows (vol : Volume) (disk : UInt32 → Sector) (ch : List UInt32) (sl : Slot) :
    Prop :=
  if h : sl.idx.val = 15 then
    if sl.sectorNo + 1 = vol.id.sectorsPerCluster.toNat then
      liveRecords vol disk (slotsBehind vol ch sl) = []
    else (slotRecord vol disk { sl with idx := 0 }).isLfn = false
  else
    (slotRecord vol disk { sl with idx := ⟨sl.idx.val + 1, by omega⟩ }).isLfn = false ∨
      liveRecords vol disk (slotsBehind vol ch sl) = []

theorem slotsBehind_eq {ch₁ ch₂ : List UInt32} {sl : Slot}
    (hnodup : (ch₁ ++ sl.cluster :: ch₂).Nodup)
    (hj : sl.sectorNo < vol.id.sectorsPerCluster.toNat) :
    slotsBehind vol (ch₁ ++ sl.cluster :: ch₂) sl = slotsAfter vol ch₂ sl := by
  have hbefore : ∀ x ∈ slotsBefore vol ch₁ sl, (x != sl) = true := by
    intro x hx
    rw [bne_iff_ne]
    rintro rfl
    exact notMem_slotsBefore hnodup hx
  rw [slotsBehind, dirSlots_split hj, List.dropWhile_append_of_pos hbefore,
    List.dropWhile_cons_of_neg (by simp), List.tail_cons]

section Records

variable {disk disk' : UInt32 → Sector} {sl : Slot} {new : DirRecord} {ch₁ ch₂ : List UInt32}
  (hnodup : (ch₁ ++ sl.cluster :: ch₂).Nodup)
  (hj : sl.sectorNo < vol.id.sectorsPerCluster.toNat)
  (hdisk : ∀ d ∈ ch₁ ++ sl.cluster :: ch₂, ∀ j, j < vol.id.sectorsPerCluster.toNat →
    disk' (sectorLba vol d j) = sectorAfter vol disk sl new d j)

include hnodup hj hdisk

/-- The records of the following clusters stay as they are. -/
theorem slotRecord_laterClusters {x : Slot} (hx : x ∈ slotsAfter vol ch₂ sl)
    (hc : x.cluster ∈ ch₂) : slotRecord vol disk' x = slotRecord vol disk x := by
  have hne : x.cluster ≠ sl.cluster := by
    intro he
    rw [List.nodup_append, List.nodup_cons] at hnodup
    exact hnodup.2.1.1 (he ▸ hc)
  refine slotRecord_of_ne hdisk ?_ (fun h => hne h.1) (fun h => hne h.2.1)
  rw [dirSlots_split hj]
  exact List.mem_append_right _ (List.mem_cons_of_mem _ hx)

/-- At a cluster boundary nothing behind the new record changes. -/
theorem liveRecords_after_cluster (hi : sl.idx.val = 15)
    (hlast : sl.sectorNo + 1 = vol.id.sectorsPerCluster.toNat) :
    liveRecords vol disk' (slotsAfter vol ch₂ sl) =
      liveRecords vol disk (slotsAfter vol ch₂ sl) := by
  have hempty := slotsAfter_of_boundary vol ch₂ hi hlast
  refine liveRecords_congr fun x hx => slotRecord_laterClusters hnodup hj hdisk hx ?_
  rw [hempty] at hx
  exact (mem_dirSlots.mp hx).1

/-- Inside a sector the next record is cleared and nothing else changes. -/
theorem liveRecords_after_record (hi : sl.idx.val + 1 < 16) :
    liveRecords vol disk' (slotsAfter vol ch₂ sl) =
      if (slotRecord vol disk { sl with idx := ⟨sl.idx.val + 1, hi⟩ }).isLfn then
        liveRecords vol disk (slotsAfter vol ch₂ sl)
      else [] := by
  set next : Slot := { sl with idx := ⟨sl.idx.val + 1, hi⟩ } with hnext
  have hcons : slotsAfter vol ch₂ sl = next :: slotsAfter vol ch₂ next :=
    slotsAfter_of_lt vol ch₂ hi
  have hcleared : slotRecord vol disk' next = (slotRecord vol disk next).clearFirst := by
    have hne : ¬ sl.idx.val = 15 := by omega
    have hidx : next.idx ≠ sl.idx := fun he => by
      have := congrArg Fin.val he
      simp [hnext] at this
    rw [hnext, slotRecord_sector (hdisk _ (by simp) _ hj), recordSector, dif_neg hne,
      Sector.record_clearRecord_self, Sector.record_setRecord_of_ne _ hidx]
    rfl
  have hrest : ∀ x ∈ slotsAfter vol ch₂ next, slotRecord vol disk' x = slotRecord vol disk x := by
    intro x hx
    have hin : x ∈ slotsAfter vol ch₂ sl := by
      rw [hcons]
      exact List.mem_cons_of_mem _ hx
    rcases mem_slotsAfter hx with hcl | ⟨hcl, hlt | ⟨heq, hlt⟩⟩
    · exact slotRecord_laterClusters hnodup hj hdisk hin hcl
    · -- a later sector of the cluster
      refine slotRecord_of_ne hdisk ?_ (fun h => absurd h.2 (ne_of_gt hlt)) (by omega)
      rw [dirSlots_split hj]
      exact List.mem_append_right _ (List.mem_cons_of_mem _ hin)
    · -- a later record of the sector
      have hx : x = { sl with idx := x.idx } := Slot.ext hcl heq rfl
      have hself : x.idx ≠ sl.idx := fun he => by
        have hval : sl.idx.val + 1 < x.idx.val := hlt
        rw [he] at hval
        omega
      rw [hx, slotRecord_sector (hdisk _ (by simp) _ hj), recordSector, dif_neg (by omega),
        Sector.record_clearRecord_of_ne _ (ne_of_gt hlt), Sector.record_setRecord_of_ne _ hself]
      rfl
  rw [hcons, liveRecords_cons, liveRecords_cons, liveRecords_congr hrest, hcleared,
    DirRecord.isLfn_clearFirst, DirRecord.isTerminal_clearFirst]
  cases (slotRecord vol disk next).isLfn <;> rfl

omit hnodup hj in
/-- At a sector boundary the next sector is a copy of the one with the new record: it ends
the entries at its first record, or repeats them up to the new one. -/
theorem liveRecords_after_sector (hi : sl.idx.val = 15)
    (hmore : sl.sectorNo + 1 < vol.id.sectorsPerCluster.toNat)
    (hnew : isEndRecord new = false ∧ new.isLfn = false)
    (hfront : ∀ x ∈ sectorFront sl, isEndRecord (slotRecord vol disk x) = false) :
    liveRecords vol disk' (slotsAfter vol ch₂ sl) = [] ↔
      (slotRecord vol disk { sl with idx := 0 }).isLfn = false := by
  have hidx : sl.idx = 15 := Fin.ext hi
  obtain ⟨more, hslots⟩ := slotsAfter_of_last vol ch₂ hi hmore
  set records := (disk (slotLba vol sl)).setRecord sl.idx new with hrecords
  have hcopy : ∀ i, slotRecord vol disk' ⟨sl.cluster, sl.sectorNo + 1, i⟩ =
      (records.clearRecord 0).record i := by
    intro i
    show (disk' (sectorLba vol sl.cluster (sl.sectorNo + 1))).record i = _
    rw [hdisk _ (by simp) _ hmore, sectorAfter, if_neg (by simp), if_pos ⟨hi, rfl, rfl⟩]
  have hold : ∀ i, i < sl.idx → records.record i = slotRecord vol disk { sl with idx := i } :=
    fun i hlt => Sector.record_setRecord_of_ne _ (ne_of_lt hlt) new
  have hzero : slotRecord vol disk' ⟨sl.cluster, sl.sectorNo + 1, 0⟩ =
      (slotRecord vol disk { sl with idx := 0 }).clearFirst := by
    rw [hcopy, Sector.record_clearRecord_self, hold 0 (by rw [hidx]; decide)]
  rw [hslots]
  constructor
  · -- the last record of the copy is the new record again
    intro hnil
    by_contra hlfn
    rw [Bool.not_eq_false] at hlfn
    have hsplit := sectorSlots_split ⟨sl.cluster, sl.sectorNo + 1, 15⟩
    have hends : ∀ x ∈ sectorFront ⟨sl.cluster, sl.sectorNo + 1, 15⟩,
        isEndRecord (slotRecord vol disk' x) = false := by
      intro x hx
      obtain ⟨hc, hs, hlt⟩ := mem_sectorFront hx
      have hx : x = ⟨sl.cluster, sl.sectorNo + 1, x.idx⟩ := Slot.ext hc hs rfl
      by_cases hz : x.idx = 0
      · rw [hx, hz, hzero, isEndRecord, DirRecord.isLfn_clearFirst, hlfn]
        rfl
      · have hlt' : x.idx < sl.idx := by rw [hidx]; exact hlt
        rw [hx, hcopy, Sector.record_clearRecord_of_ne _ hz, hold _ hlt']
        exact hfront _ (mem_sectorFront_of_lt sl hlt')
    have hlast : slotRecord vol disk' ⟨sl.cluster, sl.sectorNo + 1, 15⟩ = new := by
      rw [hcopy, Sector.record_clearRecord_of_ne _ (by decide), hrecords, ← hidx,
        Sector.record_setRecord_self]
    rw [hsplit, List.append_assoc, liveRecords_append hends, List.cons_append, liveRecords_cons,
      hlast, hnew.2] at hnil
    have hterm : new.isTerminal = false := by
      have h := hnew.1
      rw [isEndRecord, hnew.2] at h
      simpa using h
    simp [hterm] at hnil
  · -- the first record of the copy is an end
    intro hlfn
    have hfirst : sectorSlots sl.cluster (sl.sectorNo + 1) =
        ⟨sl.cluster, sl.sectorNo + 1, 0⟩ :: sectorRest ⟨sl.cluster, sl.sectorNo + 1, 0⟩ :=
      sectorSlots_split ⟨sl.cluster, sl.sectorNo + 1, 0⟩
    rw [hfirst, List.cons_append]
    refine liveRecords_cons_of_end ?_ _
    rw [hzero, isEndRecord, DirRecord.isLfn_clearFirst, DirRecord.isTerminal_clearFirst, hlfn]
    rfl

/-- Nothing lives behind the new record exactly when `TerminalFollows` held. -/
theorem liveRecords_after_iff (hnew : isEndRecord new = false ∧ new.isLfn = false)
    (hfront : ∀ x ∈ sectorFront sl, isEndRecord (slotRecord vol disk x) = false) :
    liveRecords vol disk' (slotsAfter vol ch₂ sl) = [] ↔
      TerminalFollows vol disk (ch₁ ++ sl.cluster :: ch₂) sl := by
  rw [TerminalFollows, slotsBehind_eq hnodup hj]
  by_cases hi : sl.idx.val = 15
  · rw [dif_pos hi]
    by_cases hlast : sl.sectorNo + 1 = vol.id.sectorsPerCluster.toNat
    · rw [if_pos hlast, liveRecords_after_cluster hnodup hj hdisk hi hlast]
    · rw [if_neg hlast]
      exact liveRecords_after_sector hdisk hi (by omega) hnew hfront
  · rw [dif_neg hi, liveRecords_after_record hnodup hj hdisk (by omega)]
    cases (slotRecord vol disk { sl with idx := ⟨sl.idx.val + 1, by omega⟩ }).isLfn with
    | true => simp
    | false => simp

end Records

/-- A call that creates a file puts one record behind the entries there were, and `behind`
are the entries that follow it. -/
theorem fat32AllocLocalFile_entries (hend : vol.fatEnd.toNat ≤ 2 ^ 28)
    (hroot : RootChain vol s.fat ch) (hlay : DirLayout vol (freeClusters vol s.fat) ch) {sl : Slot}
    (hhit : firstHit vol insertVisit s.disk (dirSlots vol ch) = some (sl, ())) {n : UInt32}
    (hfree : clustersTaken n ≤ (freeClusters vol s.fat).length) (name : Fin 11 → UInt8)
    (hname : name 0 ≠ 0) (stack : Sector) {fuel : ℕ} (hfuel : ch.length ≤ fuel) :
    ∃ c s' behind, fat32AllocLocalFile sdDriver vol n name stack fuel s = some (c, s') ∧
      RootChain vol s'.fat ch ∧
      liveRecords vol s'.disk (dirSlots vol ch) = liveRecords vol s.disk (dirSlots vol ch) ++
        newRecord (slotRecord vol s.disk sl) name c :: behind ∧
      (behind = [] ↔ TerminalFollows vol s.disk ch sl) := by
  obtain ⟨c, s', hcall, -, hfat, hdisk⟩ := fat32AllocLocalFile_directory hend hroot.toDirChain
    (hlay.mono fun _ hx => List.mem_of_mem_take hx) hhit hfree name stack hfuel
  obtain ⟨hcl, hj⟩ := mem_dirSlots.mp (firstHit_some hhit).1
  have hendrec : isEndRecord (slotRecord vol s.disk sl) = true :=
    insertVisit_eq_some.mp (firstHit_some hhit).2
  obtain ⟨ch₁, ch₂, rfl, hsplit, hnone⟩ := firstHit_split hroot.nodup hhit
  set new := newRecord (slotRecord vol s.disk sl) name c with hnewdef
  have hnew : isEndRecord new = false ∧ new.isLfn = false := by
    simp [hnewdef, isEndRecord, hname]
  have hterm : new.isTerminal = false := by simp [hnewdef, hname]
  have hbefore : ∀ x ∈ slotsBefore vol ch₁ sl, isEndRecord (slotRecord vol s.disk x) = false :=
    fun x hx => insertVisit_eq_none.mp (hnone x hx)
  have hsame : ∀ x ∈ slotsBefore vol ch₁ sl, slotRecord vol s'.disk x = slotRecord vol s.disk x :=
    fun x hx => slotRecord_before hroot.nodup hj hdisk hx
  have hfront : ∀ x ∈ sectorFront sl, isEndRecord (slotRecord vol s.disk x) = false :=
    fun x hx => hbefore x (List.mem_append_right _ hx)
  refine ⟨c, s', liveRecords vol s'.disk (slotsAfter vol ch₂ sl), hcall, hroot.congr hfat, ?_,
    liveRecords_after_iff hroot.nodup hj hdisk hnew hfront⟩
  have hold : liveRecords vol s.disk (dirSlots vol (ch₁ ++ sl.cluster :: ch₂)) =
      liveRecords vol s.disk (slotsBefore vol ch₁ sl) := by
    rw [hsplit, liveRecords_append hbefore, liveRecords_cons_of_end hendrec, List.append_nil]
  rw [hold, hsplit, liveRecords_append (fun x hx => by rw [hsame x hx]; exact hbefore x hx),
    liveRecords_congr hsame, liveRecords_cons, slotRecord_self (hdisk _ hcl _ hj), hnew.2, hterm]
  rfl

/-- `fat32_alloc_local_file` at the terminal in slot `sl` returns, leaves the chain of the
directory as it is, and adds exactly one entry, which carries the name, attribute 0 and the
returned cluster, if and only if a terminal follows there. -/
theorem allocLocalFile_addsEntry_iff (hend : vol.fatEnd.toNat ≤ 2 ^ 28)
    (hroot : RootChain vol s.fat ch) (hlay : DirLayout vol (freeClusters vol s.fat) ch) {sl : Slot}
    (hhit : firstHit vol insertVisit s.disk (dirSlots vol ch) = some (sl, ())) {n : UInt32}
    (hfree : clustersTaken n ≤ (freeClusters vol s.fat).length) (name : Fin 11 → UInt8)
    (hname : name 0 ≠ 0) (stack : Sector) {fuel : ℕ} (hfuel : ch.length ≤ fuel) :
    ∃ c s', fat32AllocLocalFile sdDriver vol n name stack fuel s = some (c, s') ∧
      RootChain vol s'.fat ch ∧
      ((∃ r, liveRecords vol s'.disk (dirSlots vol ch) =
            liveRecords vol s.disk (dirSlots vol ch) ++ [r] ∧
          r.dirName = name ∧ r.dirAttr = 0 ∧ r.startCluster = c) ↔
        TerminalFollows vol s.disk ch sl) := by
  obtain ⟨c, s', behind, hcall, hroot', hlive, hbehind⟩ :=
    fat32AllocLocalFile_entries hend hroot hlay hhit hfree name hname stack hfuel
  refine ⟨c, s', hcall, hroot', ?_⟩
  rw [hlive, ← hbehind]
  constructor
  · rintro ⟨r, hr, -⟩
    exact (List.cons.inj (List.append_cancel_left hr)).2
  · intro hnil
    exact ⟨_, by rw [hnil], rfl, rfl, newRecord_startCluster _ _ _⟩

theorem allocLocalFile_addsEntry_iff_fresh :
    ∃ c s', fat32AllocLocalFile sdDriver smallVolume 2 (fun _ => 65) blankSector 1 freshFs =
        some (c, s') ∧
      RootChain smallVolume s'.fat [2] ∧
      ((∃ r, liveRecords smallVolume s'.disk (dirSlots smallVolume [2]) =
            liveRecords smallVolume freshFs.disk (dirSlots smallVolume [2]) ++ [r] ∧
          r.dirName = (fun _ => 65) ∧ r.dirAttr = 0 ∧ r.startCluster = c) ↔
        TerminalFollows smallVolume freshFs.disk [2] ⟨2, 0, 0⟩) :=
  allocLocalFile_addsEntry_iff smallVolume_sound.fatEnd_le freshFs_rootChain
    (freshFs_rootChain.layout smallVolume_sound fun _ hx => mem_freeClusters.mp hx)
    freshFs_firstHit (n := 2)
    (freshFs_free 2 (by decide)) _ (by decide) blankSector (le_refl 1)

/-- The small volume with leftovers behind the terminal of its root directory: an LFN record
and a record of an ordinary file. -/
def leftoverFs : Fs Card where
  fat := freshFs.fat
  dev := ⟨Function.update freshFs.disk 2
    ((blankSector.setRecord 1 { blankSector.record 1 with dirAttr := 0x0f }).setRecord 2
      (newRecord (blankSector.record 2) (fun _ => 66) 9)), []⟩

/-- Creating one file in front of the leftovers brings a second entry back. -/
theorem leftover_addsTwoEntries :
    RootChain smallVolume leftoverFs.fat [2] ∧
      DirLayout smallVolume (freeClusters smallVolume leftoverFs.fat) [2] ∧
      firstHit smallVolume insertVisit leftoverFs.disk (dirSlots smallVolume [2]) =
        some (⟨2, 0, 0⟩, ()) ∧
      ∃ c s', fat32AllocLocalFile sdDriver smallVolume 1 (fun _ => 65) blankSector 1 leftoverFs =
          some (c, s') ∧
        ¬ ∃ r, liveRecords smallVolume s'.disk (dirSlots smallVolume [2]) =
            liveRecords smallVolume leftoverFs.disk (dirSlots smallVolume [2]) ++ [r] ∧
          r.dirName = (fun _ => 65) ∧ r.dirAttr = 0 ∧ r.startCluster = c := by
  have hroot : RootChain smallVolume leftoverFs.fat [2] := freshFs_rootChain
  have hlay : DirLayout smallVolume (freeClusters smallVolume leftoverFs.fat) [2] :=
    hroot.layout smallVolume_sound fun _ hx => mem_freeClusters.mp hx
  have hhit : firstHit smallVolume insertVisit leftoverFs.disk (dirSlots smallVolume [2]) =
      some (⟨2, 0, 0⟩, ()) := rfl
  obtain ⟨c, s', behind, hcall, -, hlive, hbehind⟩ := fat32AllocLocalFile_entries
    smallVolume_sound.fatEnd_le hroot hlay hhit (n := 1) (freshFs_free 1 (by decide))
    (fun _ => 65) (by decide) blankSector (le_refl 1)
  refine ⟨hroot, hlay, hhit, c, s', hcall, ?_⟩
  rintro ⟨r, hr, -⟩
  rw [hlive] at hr
  have hnil : behind = [] := (List.cons.inj (List.append_cancel_left hr)).2
  cases hbehind.mp hnil with
  | inl hlfn => exact absurd hlfn (by decide)
  | inr hlive => exact absurd (congrArg List.length hlive) (by decide)

end NaiveGfs
