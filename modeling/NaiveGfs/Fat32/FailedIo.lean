import NaiveGfs.Fat32.Boot
import NaiveGfs.Fat32.FlakyCreation
import NaiveGfs.Fat32.Lookup

/-!
# Failed sector accesses

The results of `readsector` and `writesector` are thrown away, so a call reports success
whatever became of its accesses. `dfs_init_config` says that the config file is where the walk
sees it, or where it was to be created; what is then on the card depends on a few of these
accesses only. `fat32_init` returns whatever became of the reads of the FAT.
-/

namespace NaiveGfs

variable {vol : Volume} {f : Faults} {s : Fs FlakyCard} {ch : List UInt32}
  {stack stack' : Sector} {fuel : ℕ}

/-! ## The lookup -/

/-- The sectors that the lookup reads, one after the other. -/
def lookupSectors (vol : Volume) (fat : UInt32 → UInt32) (fuel : ℕ) : List (UInt32 × ℕ) :=
  walkSectorsFrom vol fat fat32RootClusterNo fuel

/-- The first record that the lookup of the config file sees at which it stops is `d`, behind
the read of the sector with index `i`. -/
structure LookupSees (f : Faults) (vol : Volume) (s : Fs FlakyCard) (stack : Sector) (fuel i : ℕ)
    (sl : Slot) (d : DirRecord) : Prop where
  first : SeesFirst f vol s.dev.disk (StopsLookup fat32DfsCfgFilename) s.dev.reads stack
    (lookupSectors vol s.fat fuel) i sl
  record : (seenSector f vol s.dev.disk s.dev.reads stack (lookupSectors vol s.fat fuel) i).record
    sl.idx = d

/-- A lookup stops at every record at which a file is created. -/
theorem stopsLookup_of_isEndRecord {name : Fin 11 → UInt8} {d : DirRecord}
    (h : isEndRecord d = true) : StopsLookup name d := by
  rw [isEndRecord, Bool.and_eq_true, Bool.not_eq_true'] at h
  exact ⟨h.1, Or.inl h.2⟩

/-- The value of a lookup at a record at which it stops. -/
theorem lookupVisit_of_stopsLookup {name : Fin 11 → UInt8} {d : DirRecord}
    (h : StopsLookup name d) :
    lookupVisit name d = some (if isEndRecord d then 0xffffffff else d.startCluster) := by
  obtain ⟨hlfn, hstop⟩ := h
  rw [lookupVisit, isEndRecord, hlfn]
  cases hterm : d.isTerminal with
  | true => rfl
  | false =>
    rw [hterm, matchesName, beq_iff_eq] at hstop
    simpa using hstop

/-- What is in front of a slot is in a sector in front of its own, or in front of it in its
sector. -/
theorem mem_slotsBefore_iterate {fat : UInt32 → UInt32} {start : UInt32} {k : ℕ} {sl x : Slot}
    (hx : x ∈ slotsBefore vol (List.iterate (fat32NextCluster fat) start k) sl) :
    (x.cluster, x.sectorNo) ∈ walkSectorsFrom vol fat start k ++
        (List.range sl.sectorNo).map (Prod.mk sl.cluster) ∨
      x.cluster = sl.cluster ∧ x.sectorNo = sl.sectorNo ∧ x.idx < sl.idx := by
  rw [slotsBefore] at hx
  rcases List.mem_append.mp hx with hx | hx
  · left
    rw [List.mem_append]
    cases List.mem_append.mp hx with
    | inl hx =>
      obtain ⟨hin, hlt⟩ := mem_dirSlots.mp hx
      exact Or.inl (List.mem_flatMap.mpr ⟨_, hin, List.mem_map.mpr
        ⟨_, List.mem_range.mpr hlt, rfl⟩⟩)
    | inr hx =>
      obtain ⟨j, hj, hin⟩ := List.mem_flatMap.mp hx
      obtain ⟨hc, rfl⟩ := mem_sectorSlots.mp hin
      exact Or.inr (List.mem_map.mpr ⟨_, hj, by rw [hc]⟩)
  · exact Or.inr (mem_sectorFront hx)

/-- The first record that a walk sees is listed on the card, if its sector and those in front
have been read and their clusters are those of the directory. -/
theorem listedIn_of_seesFirst {start : UInt32} {r n i : ℕ} {buf : Sector} {sl : Slot}
    {disk : UInt32 → Sector} {fat : UInt32 → UInt32} {d : DirRecord}
    (h : SeesFirst f vol disk (StopsLookup fat32DfsCfgFilename) r buf
      (walkSectorsFrom vol fat start n) i sl)
    (hd : (seenSector f vol disk r buf (walkSectorsFrom vol fat start n) i).record sl.idx = d)
    (hread : ∀ j ≤ i, f.read (r + j) = false) (hend : isEndRecord d = false)
    (hname : d.dirName = fat32DfsCfgFilename) :
    ListedIn vol disk (List.iterate (fat32NextCluster fat) start
      (i / vol.id.sectorsPerCluster.toNat + 1)) d.startCluster := by
  have hj := mem_walkSectorsFrom (List.mem_of_getElem? h.place)
  obtain ⟨k, hi, hc, htake⟩ := walkSectorsFrom_place h.place
  have hself : slotRecord vol disk sl = d := by
    rw [← hd, slotRecord, slotLba, seenSector_of_read h.place (hread i le_rfl)]
  -- the sectors in front have been read, and the lookup has gone on behind them
  have hpassed : ∀ p ∈ (walkSectorsFrom vol fat start n).take i, ∀ m,
      isEndRecord ((disk (sectorLba vol p.1 p.2)).record m) = false := by
    intro p hp m
    obtain ⟨l, hl⟩ := List.mem_iff_getElem?.mp hp
    obtain ⟨hli, hplace⟩ : l < i ∧ (walkSectorsFrom vol fat start n)[l]? = some p := by
      rw [List.getElem?_take] at hl
      split at hl
      · exact ⟨‹_›, hl⟩
      · simp at hl
    have hgo := h.before l hli m
    rw [seenSector_of_read hplace (hread l hli.le)] at hgo
    exact Bool.eq_false_iff.mpr fun he => hgo (stopsLookup_of_isEndRecord he)
  have hbefore : ∀ x ∈ slotsBefore vol (List.iterate (fat32NextCluster fat) start k) sl ++ [sl],
      isEndRecord (slotRecord vol disk x) = false := by
    intro x hx
    rcases List.mem_append.mp hx with hx | hx
    · rcases mem_slotsBefore_iterate hx with hin | ⟨hxc, hxj, hlt⟩
      · rw [← htake] at hin
        exact hpassed (x.cluster, x.sectorNo) hin x.idx
      · have hgo := h.front x.idx hlt
        rw [seenSector_of_read h.place (hread i le_rfl), ← hxc, ← hxj] at hgo
        rw [slotRecord, slotLba]
        exact Bool.eq_false_iff.mpr fun he => hgo (stopsLookup_of_isEndRecord he)
    · rw [List.mem_singleton.mp hx, hself]
      exact hend
  have hlfn : (slotRecord vol disk sl).isLfn = false := by
    rw [hself, ← hd]
    exact h.stops.1
  have hk : i / vol.id.sectorsPerCluster.toNat = k := by
    rw [hi, Nat.add_comm, Nat.add_mul_div_right _ _ (Nat.zero_lt_of_lt hj), Nat.div_eq_of_lt hj,
      Nat.zero_add]
  have hsplit : dirSlots vol (List.iterate (fat32NextCluster fat) start (k + 1)) =
      (slotsBefore vol (List.iterate (fat32NextCluster fat) start k) sl ++ [sl]) ++
        slotsAfter vol [] sl := by
    rw [List.append_assoc, List.singleton_append, ← dirSlots_split hj, List.iterate_add, ← hc]
    rfl
  refine ⟨d, ?_, hname, rfl⟩
  rw [hk, hsplit, ← hself]
  exact mem_liveRecords hbefore (List.mem_append_right _ List.mem_cons_self) hlfn

/-! ## The call -/

/-- The sectors up to that with index `i` are read by the lookup, all of them from the root
directory on the card. -/
structure ReadThrough (f : Faults) (vol : Volume) (s : Fs FlakyCard) (i : ℕ) : Prop where
  reads : ∀ j ≤ i, f.read (s.dev.reads + j) = false
  clusters : CardDirectory vol s.dev.disk (List.iterate (fat32NextCluster s.fat)
    fat32RootClusterNo (i / vol.id.sectorsPerCluster.toNat + 1))

/-- The first end record that a creation sees whose first read has number `r` is in slot `sl`,
with `seen` in the buffer, behind the read of the sector with index `i`. -/
structure InsertSees (f : Faults) (vol : Volume) (s : Fs FlakyCard) (r : ℕ) (stack : Sector)
    (fuel i : ℕ) (sl : Slot) (seen : Sector) : Prop where
  first : SeesFirst f vol s.dev.disk (fun d => isEndRecord d = true) r stack
    (walkSectorsFrom vol s.fat vol.data.rootDirFirstCluster fuel) i sl
  sector : seenSector f vol s.dev.disk r stack
    (walkSectorsFrom vol s.fat vol.data.rootDirFirstCluster fuel) i = seen

/-- The lookup sees an end record first, or a record that gives -1 for the cluster of the file,
and the creation behind it puts its record into slot `sl` of what it has `seen` of the sector. -/
def CreatesAt (f : Faults) (vol : Volume) (s : Fs FlakyCard) (stack stack' : Sector) (fuel : ℕ)
    (sl : Slot) (seen : Sector) : Prop :=
  ∃ i x d k, LookupSees f vol s stack fuel i x d ∧
    (isEndRecord d = true ∨ d.startCluster = 0xffffffff) ∧
    InsertSees f vol s (s.dev.reads + i + 1) stack' fuel k sl seen

/-- Where the lookup sees a record of the file, it has been read from the directory on the
card, under the whole name, or the card lists the file all the same; and its entry is taken.
Where the file is created, with its record in some slot of what has been seen of a sector and
the first free cluster, the creation is `Made`. -/
structure ReportsTruly (f : Faults) (vol : Volume) (s : Fs FlakyCard) (stack stack' : Sector)
    (fuel : ℕ) (Made : Slot → Sector → UInt32 → Prop) : Prop where
  found : ∀ i sl d, LookupSees f vol s stack fuel i sl d → isEndRecord d = false →
    d.startCluster ≠ 0xffffffff →
    (ReadThrough f vol s i ∧ d.dirName = fat32DfsCfgFilename ∨
      Listed vol s.dev.disk d.startCluster) ∧ onDiskFat vol s.dev.disk d.startCluster ≠ 0
  created : ∀ sl seen, CreatesAt f vol s stack stack' fuel sl seen → ∀ c rest,
    freeClusters vol s.fat = c :: rest → Made sl seen c

theorem ReportsTruly.congr {Made Made' : Slot → Sector → UInt32 → Prop}
    (h : ∀ sl seen, CreatesAt f vol s stack stack' fuel sl seen → ∀ c rest,
      freeClusters vol s.fat = c :: rest → (Made sl seen c ↔ Made' sl seen c)) :
    ReportsTruly f vol s stack stack' fuel Made ↔ ReportsTruly f vol s stack stack' fuel Made' :=
  ⟨fun hr => ⟨hr.found, fun sl seen hc c rest hfree =>
      (h sl seen hc c rest hfree).mp (hr.created sl seen hc c rest hfree)⟩,
    fun hr => ⟨hr.found, fun sl seen hc c rest hfree =>
      (h sl seen hc c rest hfree).mpr (hr.created sl seen hc c rest hfree)⟩⟩

theorem lookupVisit_ne_none {name : Fin 11 → UInt8} {d : DirRecord} :
    StopsLookup name d ↔ lookupVisit name d ≠ none := by
  rw [ne_eq, lookupVisit_eq_none_iff, not_not]

theorem insertVisit_ne_none {d : DirRecord} : isEndRecord d = true ↔ insertVisit d ≠ none := by
  rw [insertVisit]
  cases isEndRecord d <;> simp

theorem fat32GetClusterNo_of_sees {i : ℕ} {sl : Slot} {d : DirRecord}
    (h : LookupSees f vol s stack fuel i sl d) :
    fat32GetClusterNo (flakyDriver f) vol fat32DfsCfgFilename stack fuel s =
      some (if isEndRecord d then 0xffffffff else d.startCluster,
        { s with dev := s.dev.atRead (s.dev.reads + i + 1) }) := by
  have hvisit := lookupVisit_of_stopsLookup h.first.stops
  rw [h.record] at hvisit
  have hstop := firstStop_of_seesFirst (fun e => lookupVisit_ne_none) h.first
    (by rw [h.record]; exact hvisit)
  rw [fat32GetClusterNo, walkClusters_flaky fuel (by decide)]
  rw [lookupSectors] at hstop
  rw [hstop]
  rfl

theorem exists_lookupSees {p : UInt32 × Fs FlakyCard}
    (h : fat32GetClusterNo (flakyDriver f) vol fat32DfsCfgFilename stack fuel s = some p) :
    ∃ i sl d, LookupSees f vol s stack fuel i sl d := by
  rw [fat32GetClusterNo, walkClusters_flaky fuel (by decide)] at h
  cases hstop : firstStop f vol s.dev.disk (lookupVisit fat32DfsCfgFilename) s.dev.reads stack
      (walkSectorsFrom vol s.fat fat32RootClusterNo fuel) with
  | none =>
    rw [hstop] at h
    simp at h
  | some st =>
    obtain ⟨i, hfirst, -, -⟩ := seesFirst_of_firstStop (fun e => lookupVisit_ne_none) hstop
    exact ⟨i, st.slot, _, hfirst, rfl⟩

theorem fat32AllocLocalFile_of_sees (hroot : vol.data.rootDirFirstCluster ≠ 0xffffffff)
    {r i : ℕ} {sl : Slot} {seen : Sector} (h : InsertSees f vol s r stack fuel i sl seen) :
    fat32AllocLocalFile (flakyDriver f) vol 2 fat32DfsCfgFilename stack fuel
        { s with dev := s.dev.atRead r } =
      some (insertAt (flakyDriver f) vol sl.cluster sl.sectorNo sl.idx seen
        (2 : UInt32).toInt32.toInt fat32DfsCfgFilename
        { s with dev := s.dev.atRead (r + i + 1) }) := by
  have hvisit : insertVisit ((seenSector f vol s.dev.disk r stack
      (walkSectorsFrom vol s.fat vol.data.rootDirFirstCluster fuel) i).record sl.idx) =
        some () := if_pos h.first.stops
  rw [fat32AllocLocalFile, walkClusters_flaky fuel hroot]
  simp only [FlakyCard.atRead_disk, FlakyCard.atRead_reads, FlakyCard.atRead_atRead]
  rw [firstStop_of_seesFirst (fun d => insertVisit_ne_none) h.first hvisit, h.sector]
  rfl

theorem exists_insertSees (hroot : vol.data.rootDirFirstCluster ≠ 0xffffffff) {r : ℕ}
    {p : UInt32 × Fs FlakyCard}
    (h : fat32AllocLocalFile (flakyDriver f) vol 2 fat32DfsCfgFilename stack fuel
      { s with dev := s.dev.atRead r } = some p) :
    ∃ i sl seen, InsertSees f vol s r stack fuel i sl seen := by
  rw [fat32AllocLocalFile, walkClusters_flaky fuel hroot] at h
  simp only [FlakyCard.atRead_disk, FlakyCard.atRead_reads] at h
  cases hstop : firstStop f vol s.dev.disk insertVisit r stack
      (walkSectorsFrom vol s.fat vol.data.rootDirFirstCluster fuel) with
  | none =>
    rw [hstop] at h
    simp at h
  | some st =>
    obtain ⟨i, hfirst, -, -⟩ := seesFirst_of_firstStop (fun d => insertVisit_ne_none) hstop
    exact ⟨i, st.slot, _, hfirst, rfl⟩

/-- Where the lookup sees a record of the file. -/
theorem dfsInitConfig_flaky_found {i : ℕ} {sl : Slot} {d : DirRecord}
    (h : LookupSees f vol s stack fuel i sl d) (hend : isEndRecord d = false)
    (hstart : d.startCluster ≠ 0xffffffff) :
    dfsInitConfig (flakyDriver f) vol stack stack' fuel s =
      some (d.startCluster, { s with dev := s.dev.atRead (s.dev.reads + i + 1) }) := by
  apply dfsInitConfig_of_found hstart
  rw [fat32GetClusterNo_of_sees h, hend]
  rfl

/-- Where it does not, and the creation comes to an end record. -/
theorem dfsInitConfig_flaky_created (hroot : vol.data.rootDirFirstCluster ≠ 0xffffffff)
    {sl : Slot} {seen : Sector} (h : CreatesAt f vol s stack stack' fuel sl seen) :
    ∃ r, dfsInitConfig (flakyDriver f) vol stack stack' fuel s =
      some (insertAt (flakyDriver f) vol sl.cluster sl.sectorNo sl.idx seen
        (2 : UInt32).toInt32.toInt fat32DfsCfgFilename { s with dev := s.dev.atRead r }) := by
  obtain ⟨i, x, d, k, hlook, hnot, hins⟩ := h
  refine ⟨_, (dfsInitConfig_of_notFound ?_ stack').trans (fat32AllocLocalFile_of_sees hroot hins)⟩
  rw [fat32GetClusterNo_of_sees hlook]
  cases hend : isEndRecord d with
  | true => rfl
  | false =>
    rw [hend] at hnot
    rw [hnot.resolve_left Bool.false_ne_true]
    rfl

/-- A call that returns has seen a record of the file, or has come to an end record with its
creation. -/
theorem dfsInitConfig_flaky_cases (hroot : vol.data.rootDirFirstCluster ≠ 0xffffffff)
    {p : UInt32 × Fs FlakyCard}
    (h : dfsInitConfig (flakyDriver f) vol stack stack' fuel s = some p) :
    (∃ i sl d, LookupSees f vol s stack fuel i sl d ∧ isEndRecord d = false ∧
      d.startCluster ≠ 0xffffffff) ∨ ∃ sl seen, CreatesAt f vol s stack stack' fuel sl seen := by
  cases hlook : fat32GetClusterNo (flakyDriver f) vol fat32DfsCfgFilename stack fuel s with
  | none =>
    rw [dfsInitConfig, hlook] at h
    simp at h
  | some q =>
    obtain ⟨i, sl, d, hsees⟩ := exists_lookupSees hlook
    by_cases hnot : isEndRecord d = true ∨ d.startCluster = 0xffffffff
    · right
      have hvalue : fat32GetClusterNo (flakyDriver f) vol fat32DfsCfgFilename stack fuel s =
          some (0xffffffff, { s with dev := s.dev.atRead (s.dev.reads + i + 1) }) := by
        rw [fat32GetClusterNo_of_sees hsees]
        rcases hnot with hend | hstart
        · rw [hend]
          rfl
        · rw [hstart, ite_self]
      rw [dfsInitConfig_of_notFound hvalue] at h
      obtain ⟨k, x, seen, hins⟩ := exists_insertSees hroot h
      exact ⟨x, seen, i, sl, d, k, hsees, hnot, hins⟩
    · left
      rw [not_or, Bool.not_eq_true] at hnot
      exact ⟨i, sl, d, hsees, hnot.1, hnot.2⟩

/-- What the lookup has read from the directory on the card is listed there. -/
theorem ReadThrough.listed {i : ℕ} {sl : Slot} {d : DirRecord} (h : ReadThrough f vol s i)
    (hlook : LookupSees f vol s stack fuel i sl d) (hend : isEndRecord d = false)
    (hname : d.dirName = fat32DfsCfgFilename) : Listed vol s.dev.disk d.startCluster :=
  ⟨_, h.clusters, listedIn_of_seesFirst hlook.first hlook.record h.reads hend hname⟩

/-- What the call returns is on the card if and only if the record that it sees is there, or
the writes of its creation that succeed put it there. -/
theorem dfsInitConfig_flaky_iff (hend : vol.fatEnd.toNat ≤ 2 ^ 28)
    (hroot : vol.InRange vol.data.rootDirFirstCluster) :
    (∀ c s', dfsInitConfig (flakyDriver f) vol stack stack' fuel s = some (c, s') →
        c ≠ 0xffffffff → Reported vol s'.dev.disk c) ↔
      ReportsTruly f vol s stack stack' fuel (CreationReported f vol s) := by
  have hstart := hroot.ne_allOnes hend
  constructor
  · intro h
    constructor
    · intro i sl d hlook hlive hne
      have hreported := h _ _ (dfsInitConfig_flaky_found hlook hlive hne) hne
      exact ⟨Or.inr hreported.listed, hreported.entry⟩
    · intro sl seen hcreates c rest hfree
      obtain ⟨r, hcall⟩ := dfsInitConfig_flaky_created hstart hcreates
      have hfirst : findFreeLocalCluster vol s.fat = c := findFreeLocalCluster_eq hfree
      rw [CreationReported, ← disk_insertAt hend seen hfree r]
      exact h c _ (hcall.trans (congrArg some (Prod.ext hfirst rfl)))
        ((first_of_freeClusters hfree).1.ne_allOnes hend)
  · intro h c s' hcall hc
    rcases dfsInitConfig_flaky_cases hstart hcall with ⟨i, sl, d, hlook, hlive, hne⟩ |
      ⟨sl, seen, hcreates⟩
    · rw [dfsInitConfig_flaky_found hlook hlive hne] at hcall
      obtain ⟨rfl, rfl⟩ := Prod.mk.inj (Option.some.inj hcall)
      obtain ⟨hseen, hentry⟩ := h.found i sl d hlook hlive hne
      refine ⟨?_, hentry⟩
      rcases hseen with ⟨hread, hname⟩ | hlisted
      · exact hread.listed hlook hlive hname
      · exact hlisted
    · obtain ⟨r, hmade⟩ := dfsInitConfig_flaky_created hstart hcreates
      have hinsert := Option.some.inj (hmade.symm.trans hcall)
      have hfirst : findFreeLocalCluster vol s.fat = c := congrArg Prod.fst hinsert
      obtain ⟨b, rest, hfree⟩ : ∃ b rest, freeClusters vol s.fat = b :: rest := by
        apply List.exists_cons_of_ne_nil
        intro hfull
        have htwo := UInt32.le_trans hroot.1 (UInt32.le_of_lt hroot.2)
        rw [findFreeLocalCluster_full htwo hfull] at hfirst
        exact hc hfirst.symm
      rw [findFreeLocalCluster_eq hfree] at hfirst
      subst hfirst
      have hreported := h.created sl seen hcreates b rest hfree
      rw [CreationReported, ← disk_insertAt hend seen hfree r, hinsert] at hreported
      exact hreported

/-- The slot of a creation is one of a sector of its cluster, with no end record in front of
it in what has been seen of the sector. -/
theorem CreatesAt.slot {sl : Slot} {seen : Sector}
    (h : CreatesAt f vol s stack stack' fuel sl seen) :
    sl.sectorNo < vol.id.sectorsPerCluster.toNat ∧
      ∀ i < sl.idx, isEndRecord (seen.record i) = false := by
  obtain ⟨i, x, d, k, -, -, hins⟩ := h
  refine ⟨mem_walkSectorsFrom (List.mem_of_getElem? hins.first.place), fun m hm => ?_⟩
  rw [← hins.sector]
  exact Bool.eq_false_iff.mpr (hins.first.front m hm)

/-! ## Mounting -/

/-- The part of `fat32_init` in front of the loop that reads the FAT. -/
def readPartitions {κ : Type} (drv : Driver κ) (dev : κ) : Except String (InitState κ) :=
  let st := InitState.zero dev
  let (dev, bootSector) := drv.readsector st.dev 0 st.bootSector
  initPartitions drv { st with bootSector := bootSector, dev := dev }

/-- `fat32_init` has not returned with a read failed that its last loop has made. -/
def InitReports (f : Faults) (ram : UInt32 → UInt32) (dev : FlakyCard) : Prop :=
  ∀ st vol s, readPartitions (flakyDriver f) dev = .ok st →
    fat32Init (flakyDriver f) ram dev = .ok (vol, s) →
    ∀ i, st.dev.reads ≤ i → i < s.dev.reads → f.read i = false

/-- The reads of as many sectors as the FAT has succeed that follow those of the partitions. -/
def FatReadable (f : Faults) (dev : FlakyCard) : Prop :=
  ∀ st, readPartitions (flakyDriver f) dev = .ok st →
    ∀ i < (st.allVolIds st.chosenPartition).volumeId.sectorsPerFat.toNat,
      f.read (st.dev.reads + i) = false

theorem loadFat_flaky_dev (fatBeginLba : UInt32) (n left : ℕ) :
    (loadFat (flakyDriver f) fatBeginLba n left s).dev = s.dev.atRead (s.dev.reads + left) := by
  induction left generalizing n s with
  | zero => rfl
  | succ left ih =>
    rw [loadFat, ih]
    show s.dev.atRead (s.dev.reads + 1 + left) = _
    rw [Nat.add_assoc, Nat.add_comm 1]

/-- `fat32_init` returns whenever it gets to the FAT, so it reports failed reads of the FAT only
where there are none. -/
theorem initReports_iff (f : Faults) (ram : UInt32 → UInt32) (dev : FlakyCard) :
    InitReports f ram dev ↔ FatReadable f dev := by
  have hmap : fat32Init (flakyDriver f) ram dev =
      (readPartitions (flakyDriver f) dev).map fun st =>
        let v := (st.allVolIds st.chosenPartition).volumeId
        let vd := st.volData st.chosenPartition
        (⟨v, vd⟩, loadFat (flakyDriver f) vd.fatBeginLba 0 v.sectorsPerFat.toNat
          ⟨ram, st.dev⟩) := rfl
  constructor
  · intro h st hst i hi
    rw [hst] at hmap
    refine h st _ _ hst hmap _ (Nat.le_add_right _ _) ?_
    rw [loadFat_flaky_dev, FlakyCard.atRead_reads]
    exact Nat.add_lt_add_left hi _
  · intro h st vol s hst hinit i hlo hhi
    rw [hmap, hst] at hinit
    obtain ⟨-, rfl⟩ := Prod.mk.inj (Except.ok.inj hinit)
    rw [loadFat_flaky_dev, FlakyCard.atRead_reads] at hhi
    have hread := h st hst (i - st.dev.reads) (by simp only at hhi; omega)
    rwa [Nat.add_sub_cancel' hlo] at hread

/-! ## Both calls -/

/-- The empty volume on a card that has not been accessed. -/
def freshFlaky : Fs FlakyCard := ⟨freshFs.fat, ⟨freshFs.disk, 0, 0⟩⟩

theorem freshFlaky_sameDirectory :
    SameDirectory smallVolume freshFlaky.fat freshFlaky.dev.disk [2] :=
  ⟨by decide, List.forall_mem_singleton.mpr (by decide),
    List.forall_mem_singleton.mpr (by decide)⟩

/-- Whatever fails, zeros are seen in the first slot. -/
theorem freshFlaky_seesFirst (f : Faults) (r : ℕ) {stop : DirRecord → Prop}
    (h : stop (blankSector.record 0)) :
    SeesFirst f smallVolume freshFlaky.dev.disk stop r blankSector
        (walkSectorsFrom smallVolume freshFlaky.fat 2 1) 0 ⟨2, 0, 0⟩ ∧
      seenSector f smallVolume freshFlaky.dev.disk r blankSector
        (walkSectorsFrom smallVolume freshFlaky.fat 2 1) 0 = blankSector := by
  have hseen : seenSector f smallVolume freshFlaky.dev.disk r blankSector
      (walkSectorsFrom smallVolume freshFlaky.fat 2 1) 0 = blankSector := by
    show (if f.read r then blankSector else freshFlaky.dev.disk (sectorLba smallVolume 2 0)) = _
    split <;> rfl
  refine ⟨⟨rfl, by rwa [hseen], fun k hk => absurd hk (Nat.not_lt_zero _), fun j hj =>
    absurd hj (Nat.not_lt_zero j)⟩, hseen⟩

/-- The creation puts the record there. -/
theorem freshFlaky_createsAt (f : Faults) :
    CreatesAt f smallVolume freshFlaky blankSector blankSector 1 ⟨2, 0, 0⟩ blankSector := by
  have hend : isEndRecord (blankSector.record 0) = true := by decide
  obtain ⟨hlook, hbuf⟩ := freshFlaky_seesFirst f 0
    (@stopsLookup_of_isEndRecord fat32DfsCfgFilename _ hend)
  obtain ⟨hins, hseen⟩ := @freshFlaky_seesFirst f 1 (fun d => isEndRecord d = true) hend
  exact ⟨0, _, _, 0, ⟨hlook, congrArg (fun b : Sector => b.record 0) hbuf⟩, Or.inl hend,
    ⟨hins, hseen⟩⟩

/-- Its first read fails, and finds the same zeros in the buffer. -/
def firstReadFails : Faults := ⟨fun i => i == 0, fun _ => false⟩

/-- Nothing but the FAT of the empty volume is used up. -/
theorem freshFlaky_free : freeClusters smallVolume freshFlaky.fat =
    3 :: (freeClusters smallVolume freshFlaky.fat).tail := rfl

/-- The record goes nowhere else. -/
theorem freshFlaky_createsAt_only {f : Faults} {sl : Slot} {seen : Sector}
    (h : CreatesAt f smallVolume freshFlaky blankSector blankSector 1 sl seen) :
    sl.cluster = 2 := by
  obtain ⟨i, x, d, k, -, -, hins⟩ := h
  have hin := List.mem_of_getElem? hins.first.place
  have hsectors : walkSectorsFrom smallVolume freshFlaky.fat
      smallVolume.data.rootDirFirstCluster 1 = [(2, 0)] := rfl
  rw [hsectors, List.mem_singleton] at hin
  exact (Prod.mk.inj hin).1

/-- The sixth write fails, which is that of the directory sector, and the third read, which is
that of the FAT when the card is mounted. -/
def lostAccesses : Faults := ⟨fun i => i == 2, fun i => i == 5⟩

end NaiveGfs
