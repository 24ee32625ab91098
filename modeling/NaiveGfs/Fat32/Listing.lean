import NaiveGfs.Fat32.Lookup

/-!
# Listing the root directory

`dump_root_content` goes through the records like the lookup and the creation of a file, but
where these pass over the LFN records before they look for the end of the directory, it looks
for the end at every record. The loop is written with a log here (`logClusters`), so that the
records that are read and those that are dumped can be compared. Without the log it is the
loop of the other two functions (`logClusters_reading`).
-/

namespace NaiveGfs

variable {α β : Type}

/-! ## The loop with a log -/

section Log

variable (vol : Volume) (act : Slot → DirRecord → List β × Option α) (disk : UInt32 → Sector)

/-- The loops over the sectors of a cluster and over the records of a sector: what the body
logs at each record, up to the record at which it leaves the loops. -/
def logSlots : List Slot → List β × Option (Slot × α)
  | [] => ([], none)
  | sl :: slots =>
    match act sl (slotRecord vol disk sl) with
    | (out, some a) => (out, some (sl, a))
    | (out, none) =>
      let (more, hit) := logSlots slots
      (out ++ more, hit)

/-- `while(cluster_no != -1)` over the clusters, on a card that does not fail. -/
def logClusters (fat : UInt32 → UInt32) : ℕ → UInt32 → Option (List β × Option (Slot × α))
  | 0, cur => if cur = 0xffffffff then some ([], none) else none
  | fuel + 1, cur =>
    if cur = 0xffffffff then some ([], none)
    else
      match logSlots vol act disk (clusterSlots vol cur) with
      | (out, some hit) => some (out, some hit)
      | (out, none) =>
        (logClusters fat fuel (fat32NextCluster fat cur)).map fun (more, hit) =>
          (out ++ more, hit)

end Log

/-- A loop that only reads the records. -/
def reading (visit : DirRecord → Option α) (sl : Slot) (r : DirRecord) : List Slot × Option α :=
  ([sl], visit r)

/-- What happens to a record in `dump_root_content`: it is read, and it is passed to
`fat32_dump_dir_rec`. -/
inductive ListingEvent
  | reads (sl : Slot)
  | dumps (sl : Slot)
deriving DecidableEq

/-- The body of `dump_root_content` at a record. -/
def dumpRecord (sl : Slot) (r : DirRecord) : List ListingEvent × Option Unit :=
  -- `IS_TERMINAL` is looked at also when `IS_LFN` holds
  (.reads sl :: if r.isLfn then [] else [.dumps sl], if r.isTerminal then some () else none)

/-- `dump_root_content`: what happens, and the record at which it returns. -/
def dumpRootContent (vol : Volume) (fat : UInt32 → UInt32) (disk : UInt32 → Sector)
    (fuel : ℕ) : Option (List ListingEvent × Option (Slot × Unit)) :=
  logClusters vol dumpRecord disk fat fuel fat32RootClusterNo

/-- The records that are read. -/
def readsOf (log : List ListingEvent) : List Slot :=
  log.filterMap fun
    | .reads sl => some sl
    | .dumps _ => none

variable {vol : Volume} {act : Slot → DirRecord → List β × Option α} {disk : UInt32 → Sector}
  {visit : DirRecord → Option α} {fat : UInt32 → UInt32} {sl : Slot}

/-- Where a loop ends. -/
def WalkEnd.stop : WalkEnd Card α → Option (Slot × α)
  | .hit cur sectorNo i a _ _ => some (⟨cur, sectorNo, i⟩, a)
  | .exhausted _ _ _ _ => none

/-- Loops that only read stop where the loops over a list of slots stop. -/
theorem snd_logSlots_reading (slots : List Slot) :
    (logSlots vol (reading visit) disk slots).2 = firstHit vol visit disk slots := by
  induction slots with
  | nil => rfl
  | cons sl slots ih =>
    rw [logSlots, firstHit, List.findSome?_cons, reading]
    cases visit (slotRecord vol disk sl) with
    | some a => rfl
    | none => exact ih

/-- Without its log the loop is the one of `fat32_get_cluster_no` and
`fat32_alloc_local_file`. -/
theorem logClusters_reading (fuel : ℕ) (cur prev : UInt32) (dev : Card) (buf : Sector) :
    (logClusters vol (reading visit) dev.current fat fuel cur).map Prod.snd =
      (walkClusters sdDriver vol fat visit fuel cur prev dev buf).map WalkEnd.stop := by
  induction fuel generalizing cur prev buf with
  | zero =>
    rw [logClusters, walkClusters]
    split <;> rfl
  | succ fuel ih =>
    by_cases hcur : cur = 0xffffffff
    · rw [logClusters, walkClusters, if_pos hcur, if_pos hcur]
      rfl
    · obtain ⟨buf', hrun⟩ := walkClusters_sd_succ vol fat visit fuel hcur prev dev buf
      rw [hrun, logClusters, if_neg hcur, ← snd_logSlots_reading]
      have hin : (logSlots vol (reading visit) dev.current (clusterSlots vol cur)).2 = _ :=
        snd_logSlots_reading (clusterSlots vol cur)
      rcases hlog : logSlots vol (reading visit) dev.current (clusterSlots vol cur) with
        ⟨out, _ | ⟨sl, a⟩⟩
      · simp only [Option.map_map]
        rw [← ih _ cur buf']
        rfl
      · rw [hlog] at hin
        have hcl := (mem_clusterSlots.mp (firstHit_some hin.symm).1).1
        simp [WalkEnd.stop, ← hcl]

theorem logSlots_append (xs ys : List Slot) :
    logSlots vol act disk (xs ++ ys) =
      match logSlots vol act disk xs with
      | (out, some hit) => (out, some hit)
      | (out, none) => (out ++ (logSlots vol act disk ys).1, (logSlots vol act disk ys).2) := by
  induction xs with
  | nil => rfl
  | cons x xs ih =>
    rw [List.cons_append, logSlots, logSlots, ih]
    rcases act x (slotRecord vol disk x) with ⟨out, _ | a⟩
    · rcases logSlots vol act disk xs with ⟨more, _ | hit⟩
      · simp
      · rfl
    · rfl

/-- The loops log what the body does at the records up to the first one at which it leaves. -/
theorem logSlots_of_split {before after : List Slot} {a : α}
    (hbefore : ∀ x ∈ before, (act x (slotRecord vol disk x)).2 = none)
    (hsl : (act sl (slotRecord vol disk sl)).2 = some a) :
    logSlots vol act disk (before ++ sl :: after) =
      ((before ++ [sl]).flatMap fun x => (act x (slotRecord vol disk x)).1, some (sl, a)) := by
  induction before with
  | nil =>
    rw [List.nil_append, logSlots]
    rcases hact : act sl (slotRecord vol disk sl) with ⟨out, _ | b⟩
    · simp [hact] at hsl
    · rw [hact] at hsl
      obtain rfl := Option.some.inj hsl
      simp [hact]
  | cons x before ih =>
    have hx := hbefore x List.mem_cons_self
    rw [List.cons_append, logSlots, ih fun y hy => hbefore y (List.mem_cons_of_mem _ hy)]
    rcases hact : act x (slotRecord vol disk x) with ⟨out, _ | b⟩
    · simp [hact]
    · simp [hact] at hx

/-- The record at which the loops are left is one at which the body leaves them. -/
theorem logSlots_stop {slots : List Slot} {log : List β} {a : α}
    (h : logSlots vol act disk slots = (log, some (sl, a))) :
    (act sl (slotRecord vol disk sl)).2 = some a := by
  induction slots generalizing log with
  | nil => simp [logSlots] at h
  | cons x slots ih =>
    rw [logSlots] at h
    rcases hact : act x (slotRecord vol disk x) with ⟨out, _ | b⟩
    · rw [hact] at h
      obtain ⟨-, hhit⟩ := Prod.mk.inj h
      exact ih (Prod.ext rfl hhit)
    · rw [hact] at h
      obtain ⟨-, hhit⟩ := Prod.mk.inj h
      obtain ⟨rfl, rfl⟩ := Prod.mk.inj (Option.some.inj hhit)
      rw [hact]

theorem logClusters_stop {fuel : ℕ} {cur : UInt32} {log : List β} {a : α}
    (h : logClusters vol act disk fat fuel cur = some (log, some (sl, a))) :
    (act sl (slotRecord vol disk sl)).2 = some a := by
  induction fuel generalizing cur log with
  | zero =>
    rw [logClusters] at h
    split at h <;> simp at h
  | succ fuel ih =>
    rw [logClusters] at h
    split at h
    · simp at h
    · rcases hlog : logSlots vol act disk (clusterSlots vol cur) with ⟨out, _ | hit⟩
      · rw [hlog] at h
        obtain ⟨⟨more, hit⟩, hrest, he⟩ := Option.map_eq_some_iff.mp h
        obtain ⟨-, rfl⟩ := Prod.mk.inj he
        exact ih hrest
      · rw [hlog] at h
        obtain ⟨-, hhit⟩ := Prod.mk.inj (Option.some.inj h)
        rw [hhit] at hlog
        exact logSlots_stop hlog

/-- More fuel does not change the result of a loop that ends. -/
theorem logClusters_mono {fuel fuel' : ℕ} (hle : fuel ≤ fuel') {cur : UInt32}
    {e : List β × Option (Slot × α)} (h : logClusters vol act disk fat fuel cur = some e) :
    logClusters vol act disk fat fuel' cur = some e := by
  induction fuel generalizing fuel' cur e with
  | zero =>
    rw [logClusters] at h
    split at h
    · rename_i hcur
      cases fuel' with
      | zero =>
        rw [logClusters, if_pos hcur]
        exact h
      | succ fuel' =>
        rw [logClusters, if_pos hcur]
        exact h
    · simp at h
  | succ fuel ih =>
    obtain ⟨fuel', rfl⟩ : ∃ n, fuel' = n + 1 := ⟨fuel' - 1, by omega⟩
    rw [logClusters] at h ⊢
    split at h
    · rename_i hcur
      rw [if_pos hcur]
      exact h
    · rename_i hcur
      rw [if_neg hcur]
      rcases hlog : logSlots vol act disk (clusterSlots vol cur) with ⟨out, _ | hit⟩
      · rw [hlog] at h
        obtain ⟨p, hrest, he⟩ := Option.map_eq_some_iff.mp h
        exact Option.map_eq_some_iff.mpr ⟨p, ih (by omega) hrest, he⟩
      · rw [hlog] at h
        exact h

/-- Along a list of linked clusters the loop is the loop over their records. -/
theorem logClusters_of_logSlots {ch : List UInt32} {cur : UInt32} (hcur : cur ≠ 0xffffffff)
    (hhead : ch.head? = some cur) (hlinked : Linked fat ch) {log : List β} {hit : Slot × α}
    (hlog : logSlots vol act disk (dirSlots vol ch) = (log, some hit)) {fuel : ℕ}
    (hfuel : ch.length ≤ fuel) :
    logClusters vol act disk fat fuel cur = some (log, some hit) := by
  induction ch generalizing cur fuel log with
  | nil => simp at hhead
  | cons c ch ih =>
    obtain rfl := Option.some.inj hhead
    obtain ⟨fuel, rfl⟩ : ∃ n, fuel = n + 1 :=
      ⟨fuel - 1, by simp only [List.length_cons] at hfuel; omega⟩
    rw [dirSlots, List.flatMap_cons, logSlots_append] at hlog
    rw [logClusters, if_neg hcur]
    rcases hc : logSlots vol act disk (clusterSlots vol c) with ⟨out, _ | found⟩
    · rw [hc] at hlog
      obtain ⟨rfl, hhit⟩ := Prod.mk.inj hlog
      cases ch with
      | nil => simp [logSlots] at hhit
      | cons d ds =>
        -- nothing stops the loop in this cluster, and a link is never -1
        rw [Linked, List.isChain_cons_cons] at hlinked
        obtain ⟨hlink, hrest⟩ := hlinked
        have hnext : fat32NextCluster fat c ≠ 0xffffffff := fat32NextCluster_ne_allOnes fat c
        have hmore := ih hnext (by rw [hlink]; rfl) hrest (Prod.ext rfl hhit)
          (by simpa using hfuel)
        simp only [hmore, Option.map_some]
        rfl
    · rw [hc] at hlog
      exact congrArg some hlog

/-! ## The three functions on one directory -/

/-- The records that `fat32_get_cluster_no` reads, and the one at which it stops. -/
def lookupReads (vol : Volume) (fat : UInt32 → UInt32) (disk : UInt32 → Sector)
    (name : Fin 11 → UInt8) (fuel : ℕ) : Option (List Slot × Option (Slot × UInt32)) :=
  logClusters vol (reading (lookupVisit name)) disk fat fuel fat32RootClusterNo

/-- The records that `fat32_alloc_local_file` reads, and the one at which it inserts. -/
def insertReads (vol : Volume) (fat : UInt32 → UInt32) (disk : UInt32 → Sector) (fuel : ℕ) :
    Option (List Slot × Option (Slot × Unit)) :=
  logClusters vol (reading insertVisit) disk fat fuel vol.data.rootDirFirstCluster

/-- A record for the name: neither an LFN record nor a terminal, and `strncmp` takes it for the
name. -/
def IsEntryFor (name : Fin 11 → UInt8) (r : DirRecord) : Prop :=
  r.isLfn = false ∧ r.isTerminal = false ∧ matchesName name r = true

/-- The listing, the lookup of a name and the creation of a file agree: all of them end, the
lookup stops at a record for the name if and only if one is dumped, having read the records
that the listing reads first, and a file is created where the listing ends. -/
def ListingAgrees (vol : Volume) (fat : UInt32 → UInt32) (disk : UInt32 → Sector)
    (name : Fin 11 → UInt8) : Prop :=
  ∃ fuel dumped last reads found value inserted,
    dumpRootContent vol fat disk fuel = some (dumped, some (last, ())) ∧
    lookupReads vol fat disk name fuel = some (reads, some (found, value)) ∧
    insertReads vol fat disk fuel = some (inserted, some (last, ())) ∧
    (IsEntryFor name (slotRecord vol disk found) ↔
      ∃ x, .dumps x ∈ dumped ∧ IsEntryFor name (slotRecord vol disk x)) ∧
    reads <+: readsOf dumped

/-- The first record of the directory whose first byte is 0. -/
def firstTerminal (vol : Volume) (disk : UInt32 → Sector) (ch : List UInt32) : Option Slot :=
  (dirSlots vol ch).find? fun sl => (slotRecord vol disk sl).isTerminal

/-- On the way from a cluster through the links the first terminal that is no LFN record is in
the slot `sl`. -/
def FirstEndFrom (vol : Volume) (fat : UInt32 → UInt32) (disk : UInt32 → Sector)
    (start : UInt32) (sl : Slot) : Prop :=
  start ≠ 0xffffffff ∧ ∃ n, (dirSlots vol (List.iterate (fat32NextCluster fat) start n)).find?
    (fun x => isEndRecord (slotRecord vol disk x)) = some sl

variable {name : Fin 11 → UInt8} {ch : List UInt32} {last : Slot}

/-- A log of the loop says where the loop without a log stops. -/
theorem walkClusters_of_log {fuel : ℕ} {cur : UInt32} {dev : Card} {log : List Slot} {a : α}
    (h : logClusters vol (reading visit) dev.current fat fuel cur = some (log, some (sl, a)))
    (prev : UInt32) (buf : Sector) :
    walkClusters sdDriver vol fat visit fuel cur prev dev buf =
      some (.hit sl.cluster sl.sectorNo sl.idx a dev (dev.current (slotLba vol sl))) := by
  have herase : (logClusters vol (reading visit) dev.current fat fuel cur).map Prod.snd = _ :=
    logClusters_reading fuel cur prev dev buf
  rw [h] at herase
  obtain ⟨e, he, hstop⟩ := Option.map_eq_some_iff.mp herase.symm
  cases e with
  | hit c j i b dev' buf' =>
    obtain ⟨rfl, rfl⟩ := Prod.mk.inj (Option.some.inj hstop)
    obtain ⟨-, -, rfl, rfl, -⟩ := walkClusters_hit he
    exact he
  | exhausted => cases hstop

/-- The value that the lookup returns is that of its log. -/
theorem fat32GetClusterNo_of_lookupReads {s : Fs Card} {fuel : ℕ} {reads : List Slot}
    {value : UInt32}
    (h : lookupReads vol s.fat s.disk name fuel = some (reads, some (sl, value)))
    (stack : Sector) : fat32GetClusterNo sdDriver vol name stack fuel s = some (value, s) := by
  rw [fat32GetClusterNo, walkClusters_of_log h fat32RootClusterNo stack]

/-- A file is created at the record that the log of the loop ends with. -/
theorem fat32AllocLocalFile_of_insertReads {s : Fs Card} {fuel : ℕ} {inserted : List Slot}
    (h : insertReads vol s.fat s.disk fuel = some (inserted, some (sl, ()))) (n : UInt32)
    (stack : Sector) :
    fat32AllocLocalFile sdDriver vol n name stack fuel s =
      some (insertAt sdDriver vol sl.cluster sl.sectorNo sl.idx (s.disk (slotLba vol sl))
        n.toInt32.toInt name s) :=
  fat32AllocLocalFile_of_hit (walkClusters_of_log h vol.data.rootDirFirstCluster stack)

/-- The listing of some records, all of which it gets to. -/
def dumpLog (vol : Volume) (disk : UInt32 → Sector) (slots : List Slot) : List ListingEvent :=
  slots.flatMap fun sl => (dumpRecord sl (slotRecord vol disk sl)).1

theorem readsOf_dumpLog (slots : List Slot) : readsOf (dumpLog vol disk slots) = slots := by
  induction slots with
  | nil => rfl
  | cons sl slots ih =>
    rw [dumpLog, List.flatMap_cons, readsOf, List.filterMap_append]
    show _ ++ readsOf (dumpLog vol disk slots) = _
    rw [ih, dumpRecord]
    split <;> rfl

theorem dumps_mem_dumpLog {slots : List Slot} :
    .dumps sl ∈ dumpLog vol disk slots ↔
      sl ∈ slots ∧ (slotRecord vol disk sl).isLfn = false := by
  rw [dumpLog, List.mem_flatMap]
  constructor
  · rintro ⟨x, hx, hin⟩
    rw [dumpRecord] at hin
    split at hin
    · simp at hin
    · rename_i hlfn
      obtain rfl : sl = x := by simpa using hin
      exact ⟨hx, by simpa using hlfn⟩
  · rintro ⟨hsl, hlfn⟩
    exact ⟨sl, hsl, by simp [dumpRecord, hlfn]⟩

/-- In front of the first terminal the lookup stops at the records for the name. -/
theorem lookupVisit_of_not_terminal {r : DirRecord} (h : r.isTerminal = false) :
    lookupVisit name r = none ↔ ¬ IsEntryFor name r := by
  rw [lookupVisit_eq_none_iff, StopsLookup, IsEntryFor, h]
  simp

/-- The listing ends at the first terminal. -/
theorem dumpRootContent_of_split (hhead : ch.head? = some fat32RootClusterNo)
    (hlinked : Linked fat ch) {before after : List Slot}
    (hsplit : dirSlots vol ch = before ++ last :: after)
    (hbefore : ∀ x ∈ before, (slotRecord vol disk x).isTerminal = false)
    (hlast : (slotRecord vol disk last).isTerminal = true) {fuel : ℕ} (hfuel : ch.length ≤ fuel) :
    dumpRootContent vol fat disk fuel =
      some (dumpLog vol disk (before ++ [last]), some (last, ())) := by
  refine logClusters_of_logSlots (by decide) hhead hlinked ?_ hfuel
  rw [hsplit]
  exact logSlots_of_split (fun x hx => by simp [dumpRecord, hbefore x hx])
    (by simp [dumpRecord, hlast])

/-- A loop that only reads, along the directory. -/
theorem logClusters_reading_of_split {cur : UInt32} (hcur : cur ≠ 0xffffffff)
    (hhead : ch.head? = some cur) (hlinked : Linked fat ch) {before after : List Slot}
    (hsplit : dirSlots vol ch = before ++ sl :: after)
    (hbefore : ∀ x ∈ before, visit (slotRecord vol disk x) = none) {a : α}
    (hsl : visit (slotRecord vol disk sl) = some a) {fuel : ℕ} (hfuel : ch.length ≤ fuel) :
    logClusters vol (reading visit) disk fat fuel cur = some (before ++ [sl], some (sl, a)) := by
  refine logClusters_of_logSlots hcur hhead hlinked ?_ hfuel
  rw [hsplit, logSlots_of_split hbefore hsl]
  simp [reading]

/-- The clusters on the way through the links are linked. -/
theorem linked_iterate (fat : UInt32 → UInt32) (c : UInt32) (n : ℕ) :
    Linked fat (List.iterate (fat32NextCluster fat) c n) := by
  induction n generalizing c with
  | zero => exact List.isChain_nil
  | succ n ih =>
    have hrest := ih (fat32NextCluster fat c)
    cases n with
    | zero => exact List.isChain_singleton c
    | succ n => exact List.isChain_cons_cons.mpr ⟨rfl, hrest⟩

/-- A loop that only reads stops at the first hit on the way through the links. -/
theorem logClusters_reading_iff {cur : UInt32} {a : α} :
    (∃ fuel log, logClusters vol (reading visit) disk fat fuel cur = some (log, some (sl, a))) ↔
      cur ≠ 0xffffffff ∧ ∃ n, firstHit vol visit disk
        (dirSlots vol (List.iterate (fat32NextCluster fat) cur n)) = some (sl, a) := by
  constructor
  · rintro ⟨fuel, log, h⟩
    suffices hhit : cur ≠ 0xffffffff ∧ firstHit vol visit disk
        (dirSlots vol (List.iterate (fat32NextCluster fat) cur fuel)) = some (sl, a) from
      ⟨hhit.1, fuel, hhit.2⟩
    induction fuel generalizing cur log with
    | zero =>
      rw [logClusters] at h
      split at h <;> simp at h
    | succ fuel ih =>
      rw [logClusters] at h
      split at h
      · simp at h
      · rename_i hcur
        refine ⟨hcur, ?_⟩
        rw [List.iterate, dirSlots, List.flatMap_cons, firstHit_append, ← snd_logSlots_reading]
        rcases hlog : logSlots vol (reading visit) disk (clusterSlots vol cur) with ⟨out, _ | hit⟩
        · rw [hlog] at h
          obtain ⟨⟨more, hit⟩, hrest, he⟩ := Option.map_eq_some_iff.mp h
          obtain ⟨-, rfl⟩ := Prod.mk.inj he
          exact (ih more hrest).2
        · rw [hlog] at h
          exact (Prod.mk.inj (Option.some.inj h)).2
  · rintro ⟨hcur, n, hhit⟩
    cases n with
    | zero => simp [firstHit, dirSlots, List.iterate] at hhit
    | succ n =>
      rw [← snd_logSlots_reading] at hhit
      exact ⟨_, _, logClusters_of_logSlots hcur rfl (linked_iterate fat cur (n + 1))
        (Prod.ext rfl hhit) (le_refl _)⟩

/-- Looking for a terminal that is no LFN record. -/
theorem firstHit_insertVisit (slots : List Slot) :
    firstHit vol insertVisit disk slots =
      (slots.find? fun x => isEndRecord (slotRecord vol disk x)).map fun x => (x, ()) := by
  induction slots with
  | nil => rfl
  | cons x slots ih =>
    rw [firstHit, List.findSome?_cons, List.find?_cons]
    cases hend : isEndRecord (slotRecord vol disk x) with
    | true =>
      rw [insertVisit_eq_some.mpr hend]
      rfl
    | false =>
      rw [insertVisit_eq_none.mpr hend]
      exact ih

/-- The loop of `fat32_alloc_local_file`, from any cluster on, stops at the first terminal that
is no LFN record. -/
theorem firstEndFrom_iff {start : UInt32} :
    FirstEndFrom vol fat disk start sl ↔ ∃ fuel inserted,
      logClusters vol (reading insertVisit) disk fat fuel start =
        some (inserted, some (sl, ())) := by
  rw [logClusters_reading_iff, FirstEndFrom]
  refine and_congr_right fun _ => exists_congr fun n => ?_
  rw [firstHit_insertVisit, Option.map_eq_some_iff]
  constructor
  · intro hsl
    exact ⟨sl, hsl, rfl⟩
  · rintro ⟨x, hx, he⟩
    obtain ⟨rfl, -⟩ := Prod.mk.inj he
    exact hx

/-- With a terminal that is no LFN record behind them, a lookup stops at the first of some
records that is one for the name, or at that terminal. -/
theorem lookupReads_of_split (hhead : ch.head? = some fat32RootClusterNo)
    (hlinked : Linked fat ch) {before after : List Slot}
    (hsplit : dirSlots vol ch = before ++ last :: after)
    (hbefore : ∀ x ∈ before, (slotRecord vol disk x).isTerminal = false)
    (hend : isEndRecord (slotRecord vol disk last) = true) (name : Fin 11 → UInt8) {fuel : ℕ}
    (hfuel : ch.length ≤ fuel) :
    ∃ reads found value, lookupReads vol fat disk name fuel = some (reads, some (found, value)) ∧
      reads <+: before ++ [last] ∧
      (IsEntryFor name (slotRecord vol disk found) ↔
        ∃ x ∈ before, IsEntryFor name (slotRecord vol disk x)) := by
  cases hfirst : firstHit vol (lookupVisit name) disk before with
  | none =>
    -- the lookup comes to the terminal and returns -1
    have hnone : ∀ x ∈ before, lookupVisit name (slotRecord vol disk x) = none := fun x hx =>
      Option.map_eq_none_iff.mp (List.findSome?_eq_none_iff.mp hfirst x hx)
    refine ⟨before ++ [last], last, _, logClusters_reading_of_split (by decide) hhead hlinked
      hsplit hnone (lookupVisit_of_isEndRecord name hend) hfuel, List.prefix_refl _, ?_⟩
    have hterm : (slotRecord vol disk last).isTerminal = true := by
      rw [isEndRecord, Bool.and_eq_true] at hend
      exact hend.2
    refine iff_of_false (fun h => by simp [h.2.1] at hterm) ?_
    rintro ⟨x, hx, hentry⟩
    exact (lookupVisit_of_not_terminal (hbefore x hx)).mp (hnone x hx) hentry
  | some p =>
    obtain ⟨x, value⟩ := p
    obtain ⟨front, y, rest, rfl, hy, hfront⟩ := List.findSome?_eq_some_iff.mp hfirst
    obtain ⟨b, hb, he⟩ := Option.map_eq_some_iff.mp hy
    obtain ⟨rfl, rfl⟩ := Prod.mk.inj he
    have hnone : ∀ z ∈ front, lookupVisit name (slotRecord vol disk z) = none :=
      fun z hz => Option.map_eq_none_iff.mp (hfront z hz)
    have hmem : y ∈ front ++ y :: rest := by simp
    -- in front of the first terminal it stops for the name only
    have hentry : IsEntryFor name (slotRecord vol disk y) := by
      by_contra hno
      have hskip := (lookupVisit_of_not_terminal (hbefore y hmem)).mpr hno
      rw [hb] at hskip
      simp at hskip
    have hall : dirSlots vol ch = front ++ y :: (rest ++ last :: after) := by
      rw [hsplit]
      simp
    refine ⟨front ++ [y], y, b, logClusters_reading_of_split (by decide) hhead hlinked hall hnone
      hb hfuel, ⟨rest ++ [last], by simp⟩, iff_of_true hentry ⟨y, hmem, hentry⟩⟩

section Directory

variable (hhead : ch.head? = some fat32RootClusterNo) (hlinked : Linked fat ch)
  (hfirst : firstTerminal vol disk ch = some last)

include hhead hlinked hfirst

/-- The listing ends at the first terminal, and where it agrees a file is created there. -/
theorem ListingAgrees.inserts (h : ListingAgrees vol fat disk name) :
    (slotRecord vol disk last).isLfn = false ∧
      FirstEndFrom vol fat disk vol.data.rootDirFirstCluster last := by
  obtain ⟨hlast, before, after, hsplit, hfront⟩ := List.find?_eq_some_iff_append.mp hfirst
  obtain ⟨fuel, dumped, t, reads, found, value, inserted, hrun, -, hinsert, -⟩ := h
  have hdump := dumpRootContent_of_split hhead hlinked hsplit
    (fun x hx => by simpa using hfront x hx) hlast (le_max_left ch.length fuel)
  -- the listing that agrees is this one, whatever its fuel is
  have hsame := hdump.symm.trans (logClusters_mono (le_max_right ch.length fuel) hrun)
  obtain ⟨-, ht⟩ := Prod.mk.inj (Option.some.inj hsame)
  obtain ⟨rfl, -⟩ := Prod.mk.inj (Option.some.inj ht)
  have hend : isEndRecord (slotRecord vol disk last) = true :=
    insertVisit_eq_some.mp (logClusters_stop hinsert)
  rw [isEndRecord, Bool.and_eq_true, Bool.not_eq_true'] at hend
  exact ⟨hend.1, firstEndFrom_iff.mpr ⟨fuel, inserted, hinsert⟩⟩

/-- In the directory that is listed, files are created at a first terminal that is no LFN
record. -/
theorem firstEndFrom_of_not_lfn (hlfn : (slotRecord vol disk last).isLfn = false) :
    FirstEndFrom vol fat disk fat32RootClusterNo last := by
  obtain ⟨hlast, before, after, hsplit, hfront⟩ := List.find?_eq_some_iff_append.mp hfirst
  have hend : insertVisit (slotRecord vol disk last) = some () := by
    rw [insertVisit_eq_some, isEndRecord, hlfn, hlast]
    rfl
  refine firstEndFrom_iff.mpr ⟨_, _, logClusters_reading_of_split (by decide) hhead hlinked hsplit
    (fun x hx => ?_) hend (le_refl _)⟩
  have hx : (slotRecord vol disk x).isTerminal = false := by simpa using hfront x hx
  rw [insertVisit_eq_none, isEndRecord, hx, Bool.and_false]

/-- At a first terminal that is no LFN record the listing and the lookup stop, unless the
lookup has found the name in front of it. If files are created there, all agree. -/
theorem listing_agrees_of_inserts (hlfn : (slotRecord vol disk last).isLfn = false)
    (hinserts : FirstEndFrom vol fat disk vol.data.rootDirFirstCluster last)
    (name : Fin 11 → UInt8) : ListingAgrees vol fat disk name := by
  obtain ⟨hlast, before, after, hsplit, hfront⟩ := List.find?_eq_some_iff_append.mp hfirst
  have hbefore : ∀ x ∈ before, (slotRecord vol disk x).isTerminal = false := fun x hx => by
    simpa using hfront x hx
  have hend : isEndRecord (slotRecord vol disk last) = true := by
    rw [isEndRecord, hlfn, hlast]
    rfl
  obtain ⟨fuel, inserted, hinsert⟩ := firstEndFrom_iff.mp hinserts
  have henough := le_max_left ch.length fuel
  have hdump := dumpRootContent_of_split hhead hlinked hsplit hbefore hlast henough
  have hmore := logClusters_mono (le_max_right ch.length fuel) hinsert
  obtain ⟨reads, found, value, hlookup, hreads, hiff⟩ :=
    lookupReads_of_split hhead hlinked hsplit hbefore hend name henough
  refine ⟨max ch.length fuel, _, last, reads, found, value, _, hdump, hlookup, hmore, ?_, ?_⟩
  · rw [hiff]
    constructor
    · rintro ⟨x, hx, hentry⟩
      exact ⟨x, dumps_mem_dumpLog.mpr ⟨List.mem_append_left _ hx, hentry.1⟩, hentry⟩
    · rintro ⟨x, hx, hentry⟩
      cases List.mem_append.mp (dumps_mem_dumpLog.mp hx).1 with
      | inl hin => exact ⟨x, hin, hentry⟩
      | inr hin =>
        rw [List.mem_singleton.mp hin] at hentry
        have hterm := hentry.2.1
        rw [hlast] at hterm
        simp at hterm
  · rw [readsOf_dumpLog]
    exact hreads

end Directory

/-- The listing agrees with the lookup and with the creation of files exactly when the first
record whose first byte is 0 is not an LFN record, and the root directory of the volume
begins where the listing does, or its first terminal that is no LFN record is that one too. -/
theorem listing_agrees_iff (hhead : ch.head? = some fat32RootClusterNo) (hlinked : Linked fat ch)
    (hfirst : firstTerminal vol disk ch = some last) (name : Fin 11 → UInt8) :
    ListingAgrees vol fat disk name ↔ (slotRecord vol disk last).isLfn = false ∧
      (vol.data.rootDirFirstCluster = 2 ∨
        FirstEndFrom vol fat disk vol.data.rootDirFirstCluster last) := by
  constructor
  · intro h
    obtain ⟨hlfn, hinserts⟩ := h.inserts hhead hlinked hfirst
    exact ⟨hlfn, Or.inr hinserts⟩
  · rintro ⟨hlfn, hroot | hinserts⟩
    · refine listing_agrees_of_inserts hhead hlinked hfirst hlfn ?_ name
      rw [hroot]
      exact firstEndFrom_of_not_lfn hhead hlinked hfirst hlfn
    · exact listing_agrees_of_inserts hhead hlinked hfirst hlfn hinserts name

theorem listing_agrees_fresh :
    ListingAgrees smallVolume longNameFs.fat longNameFs.disk fun _ => 65 :=
  (listing_agrees_iff rfl (List.isChain_singleton 2)
    (show firstTerminal smallVolume longNameFs.disk [2] = some ⟨2, 0, 2⟩ from rfl) _).mpr
    ⟨rfl, Or.inl rfl⟩

/-- The small volume with an LFN record whose first byte is 0 in front of a file. -/
def deletedLfnDisk : UInt32 → Sector := Function.update freshFs.disk 2
  ((blankSector.setRecord 0 { blankSector.record 0 with dirAttr := 0x0f }).setRecord 1
    (newRecord (blankSector.record 1) (fun _ => 65) 3))

/-- The lookup finds the file, a new file would be put behind it, and the listing ends in front
of it without dumping anything. -/
theorem deletedLfn_disagrees :
    dumpRootContent smallVolume freshFs.fat deletedLfnDisk 1 =
        some ([.reads ⟨2, 0, 0⟩], some (⟨2, 0, 0⟩, ())) ∧
      lookupReads smallVolume freshFs.fat deletedLfnDisk (fun _ => 65) 1 =
        some ([⟨2, 0, 0⟩, ⟨2, 0, 1⟩], some (⟨2, 0, 1⟩, 3)) ∧
      insertReads smallVolume freshFs.fat deletedLfnDisk 1 =
        some ([⟨2, 0, 0⟩, ⟨2, 0, 1⟩, ⟨2, 0, 2⟩], some (⟨2, 0, 2⟩, ())) ∧
      ¬ ListingAgrees smallVolume freshFs.fat deletedLfnDisk fun _ => 65 := by
  refine ⟨by decide, by decide, by decide, fun h => ?_⟩
  have hfirst : firstTerminal smallVolume deletedLfnDisk [2] = some ⟨2, 0, 0⟩ := by decide
  have hlfn := (h.inserts rfl (List.isChain_singleton 2) hfirst).1
  exact absurd hlfn (by decide)

end NaiveGfs
