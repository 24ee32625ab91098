import NaiveGfs.Fat32.Files

/-!
# A disk keeps its identity

The id that a pi holds in a dfs lies in the first cluster of a file. That cluster belongs to
no other file, so whatever is created and written elsewhere, and however often the card is
mounted again, only `id_for_dfs` changes it, and `id_for_dfs` leaves the entries it has filled.
-/

namespace NaiveGfs

open FileStore Transitions

variable {vol : Volume} {s s' : Sector} {dfsName : Fin 30 → UInt8} {id : ℤ} {i : Fin 16}

/-! ## Sectors -/

/-- What any number of calls make of a config sector. -/
abbrev SectorCalls : Sector → Sector → Prop :=
  Relation.ReflTransGen fun s s' => ∃ dfsName id, s' = scanSector s dfsName id

/-- Settled entries keep their bytes. -/
theorem SectorCalls.slot_eq (h : SectorCalls s s') (hi : Settled s i) :
    ∀ j ≤ i, s'.slot j = s.slot j := by
  induction h with
  | refl => exact fun _ _ => rfl
  | tail _ hcall ih =>
    obtain ⟨dfsName, id, rfl⟩ := hcall
    intro j hj
    rw [slot_scanSector ((hi.congr ih).mono hj), ih j hj]

/-- The answer at a matching entry is the same after any calls. -/
theorem SectorCalls.result_of_matched (h : SectorCalls s s')
    (hscan : scan s dfsName = .matched i) :
    scanResult s' dfsName = ((s.entry i).id.toNat : ℤ) := by
  have hslot := h.slot_eq (settled_of_scan_matched hscan)
  simp only [scanResult, scan_matched_congr hscan hslot, Sector.entry, hslot i le_rfl]

/-- Sixteen entries of other names leave no room after any calls. -/
theorem SectorCalls.result_of_full (h : SectorCalls s s') (hscan : scan s dfsName = .full) :
    scanResult s' dfsName = -1 := by
  have hpass : ∀ j, Passes s dfsName j := by
    rcases scan_cases s dfsName with ⟨-, hall⟩ | ⟨k, -, ⟨-, hk⟩ | ⟨-, hk⟩⟩
    · exact hall
    · rw [hscan] at hk
      cases hk
    · rw [hscan] at hk
      cases hk
  have hpass' : ∀ j, Passes s' dfsName j := by
    intro j
    have hslot := h.slot_eq (i := j) (fun k _ => (hpass k).1) j le_rfl
    rw [Passes, Sector.entry, hslot]
    exact hpass j
  rcases scan_cases s' dfsName with ⟨hfull, -⟩ | ⟨k, -, ⟨hfree, -⟩ | ⟨hmatch, -⟩⟩
  · simp only [scanResult, hfull]
  · rw [(hpass' k).1] at hfree
    cases hfree
  · rw [(hpass' k).2] at hmatch
    cases hmatch

/-- A call for the name would enter it: the scan comes to a free entry. -/
def entersName (s : Sector) (dfsName : Fin 30 → UInt8) : Bool :=
  match scan s dfsName with
  | .free _ => true
  | _ => false

/-- After a call for a name and any other calls, the answer for it is the id that the call was
given if it entered the name, and otherwise the one that the call gave. -/
theorem SectorCalls.answer (hname : ¬ IsEnd (dfsName 0)) (hid : IsByteId id)
    (h : SectorCalls (scanSector s dfsName id) s') :
    scanResult s' dfsName = if entersName s dfsName then id else scanResult s dfsName := by
  cases hscan : scan s dfsName with
  | free i =>
    have hsector : scanSector s dfsName id = s.setEntry i ((s.entry i).assign dfsName id) := by
      simp only [scanSector, hscan]
    have hfills : FillsEntry s (scanSector s dfsName id) := by
      refine ⟨i, (passes_of_scan_free hscan).2, ?_⟩
      rw [hsector, Sector.entry_setEntry_self, (s.entry i).isFree_assign hname]
    obtain ⟨k, hmatch, hstored⟩ := scan_of_fills hname hid hfills
    rw [h.result_of_matched hmatch, hstored]
    simp only [entersName, hscan, if_true]
  | matched i =>
    rw [scanSector_of_matched hscan] at h
    rw [h.result_of_matched hscan]
    simp [entersName, scanResult, hscan]
  | full =>
    have hsector : scanSector s dfsName id = s := by simp only [scanSector, hscan]
    rw [hsector] at h
    rw [h.result_of_full hscan]
    simp [entersName, scanResult, hscan]

/-! ## The config cluster -/

theorem sectorCalls_of_event (hpos : 1 ≤ vol.id.sectorsPerCluster.toNat) {e : FsEvent vol}
    (he : ∀ src, e ≠ .wrote fat32DfsCfgFilename 0 src) (b : ClusterBytes vol) :
    SectorCalls (headSector b)
      (headSector (after (changes fat32DfsCfgFilename 0 [e.op]) b)) := by
  cases e with
  | created n name c => exact .refl
  | wrote name i src =>
    have hne : ¬ (name = fat32DfsCfgFilename ∧ i = 0) := by
      rintro ⟨rfl, rfl⟩
      exact he src rfl
    rw [FsEvent.op, changes_access_of_ne hne]
    exact .refl
  | readBack name i bytes =>
    rw [FsEvent.op]
    by_cases hsame : name = fat32DfsCfgFilename ∧ i = 0
    · obtain ⟨rfl, rfl⟩ := hsame
      rw [changes_access_self]
      exact .refl
    · rw [changes_access_of_ne hsame]
      exact .refl
  | identified dfsName id r =>
    rw [FsEvent.op, changes_access_self, after_singleton, identify,
      headSector_withHeadSector hpos]
    exact .single ⟨dfsName, id, rfl⟩
  | rebooted => exact .refl

/-- Calls that do not write the config cluster change its first sector by `id_for_dfs` only. -/
theorem sectorCalls_of_events (hpos : 1 ≤ vol.id.sectorsPerCluster.toNat)
    {events : List (FsEvent vol)}
    (hevents : ∀ src, FsEvent.wrote fat32DfsCfgFilename 0 src ∉ events) (b : ClusterBytes vol) :
    SectorCalls (headSector b)
      (headSector (after (changes fat32DfsCfgFilename 0 (events.map FsEvent.op)) b)) := by
  induction events using List.reverseRecOn with
  | nil => exact .refl
  | append_singleton events e ih =>
    have hfront := ih fun src hin => hevents src (List.mem_append_left _ hin)
    have hlast := sectorCalls_of_event hpos (e := e)
      (fun src he => hevents src (by rw [he]; simp))
      (after (changes fat32DfsCfgFilename 0 (events.map FsEvent.op)) b)
    rw [List.map_append, List.map_singleton, changes_concat, after_append]
    exact hfront.trans hlast

variable {fs fs' : Fs Card} {ch : List UInt32} {files : CardFiles vol}

/-- The config file is made on a fresh card, and a name asked for before and after a reboot. -/
def nameCalls (vol : Volume) (c : UInt32) (r r' : ℤ) : List (FsEvent vol) :=
  [.created 1 fat32DfsCfgFilename c, .identified (fun _ => 65) 5 r, .rebooted,
    .identified (fun _ => 65) 7 r']

end NaiveGfs
