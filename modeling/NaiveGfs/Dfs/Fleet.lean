import Mathlib.Data.Fintype.Card
import NaiveGfs.Dfs.IdExchange
import NaiveGfs.Tables.Ledger

/-!
# Runs of the mac program over a fleet of pies

The counter of free ids is in three places: in the dfs file, in the memory of the mac
program from the start of a run on, and, as the ids handed out, in the config sectors of the
pies. `main` writes the file once at the end of a run, and a panic of `get8` or `put32` ends
the process before it gets there. Ids are unique in every run in which no panic loses an id
(`disks_unique`); otherwise two pies can get the same one.
-/

namespace NaiveGfs

open LittleEndian TwoParty Ledger

variable {ι : Type}

/-- How `dfs_boot` of one pi ends: it returns 0, it returns -1 because `select` timed out, or
a read or write panics. `stored` says whether the pi has run `id_for_dfs` by then. -/
inductive BootEnd
  | complete
  | timeout
  | panic (stored : Bool)
deriving DecidableEq

/-- A run of `main` inside `boot_connected_pies`: the counter, `dirty_dfs`, and the pies that
are still to be booted. -/
structure MacRun (ι : Type) where
  firstFreeId : UInt32
  dirtyDfs : Bool
  pending : List ι
deriving DecidableEq

/-- The counter in the dfs file, if the file has been written, the config sectors of the
pies, and the run in progress. -/
structure Fleet (ι : Type) where
  dfsFile : Option UInt32
  disks : ι → Sector
  run : Option (MacRun ι)

/-- What happens next: `main` starts and finds these pies connected, the next pi is booted,
or `main` leaves `boot_connected_pies` and ends. -/
inductive Event (ι : Type)
  | start (pies : List ι)
  | boot (e : BootEnd)
  | finish

section Machine

variable [DecidableEq ι] (dfsName : Fin 30 → UInt8)

/-- The config sectors after the pi `i` has run `id_for_dfs` with the id `id` on offer. -/
def storeOn (disks : ι → Sector) (i : ι) (id : UInt32) : ι → Sector :=
  Function.update disks i (scanSector (disks i) dfsName (offeredId id).toNat)

/-- The body of the loop of `boot_connected_pies` for the pi `i`. -/
def bootPi (s : Fleet ι) (id : UInt32) (dirtyDfs : Bool) (i : ι) (rest : List ι) :
    BootEnd → Fleet ι
  | .complete =>
    { s with
      disks := storeOn dfsName s.disks i id
      run := some {
        firstFreeId := counterAfter (s.disks i) dfsName id
        dirtyDfs := dirtyDfs || counterAfter (s.disks i) dfsName id != id
        pending := rest } }
  -- `goto end`: the other pies are left alone, and `main` goes on
  | .timeout => { s with run := some ⟨id, dirtyDfs, []⟩ }
  -- `exit(-1)`
  | .panic stored =>
    { s with
      disks := if stored then storeOn dfsName s.disks i id else s.disks
      run := none }

/-- One step of the fleet; `none` when the event cannot happen. -/
def Fleet.step (s : Fleet ι) : Event ι → Option (Fleet ι)
  | .start pies =>
    match s.run with
    | none =>
      -- `init_dfs` fills an empty file with zeros
      let firstFreeId := s.dfsFile.getD 0
      some { s with dfsFile := some firstFreeId, run := some ⟨firstFreeId, false, pies⟩ }
    | some _ => none
  | .boot e =>
    match s.run with
    | some ⟨id, dirtyDfs, i :: rest⟩ => some (bootPi dfsName s id dirtyDfs i rest e)
    | _ => none
  | .finish =>
    match s.run with
    | some ⟨id, dirtyDfs, []⟩ =>
      some { s with dfsFile := if dirtyDfs then some id else s.dfsFile, run := none }
    | _ => none

/-- The id that a config sector holds for the name. -/
def heldId (s : Sector) : Option UInt16 :=
  match scan s dfsName with
  | .matched i => some (s.entry i).id
  | _ => none

/-- No two pies hold the same id. -/
def UniqueIds (s : Fleet ι) : Prop :=
  ∀ i j a, heldId dfsName (s.disks i) = some a → heldId dfsName (s.disks j) = some a → i = j

/-- A fleet before the first run for the name: every config sector has a free entry and none
for the name in front of it. -/
structure Fresh (s : Fleet ι) : Prop where
  run : s.run = none
  free : ∀ i, ∃ j, scan (s.disks i) dfsName = .free j

/-- Events that lose no id: at a panic no id has been handed out in this run, and the pi at
which it happens does not store a new one. -/
def Safe (s : Fleet ι) : Event ι → Prop
  | .boot (.panic stored) => ∀ id dirtyDfs i rest, s.run = some ⟨id, dirtyDfs, i :: rest⟩ →
      dirtyDfs = false ∧ (stored = true → heldId dfsName (s.disks i) ≠ none)
  | _ => True

/-- The states reached by any events. -/
inductive FleetReaches (s : Fleet ι) : Fleet ι → Prop
  | refl : FleetReaches s s
  | tail {t u : Fleet ι} {e : Event ι} (h : FleetReaches s t) (hstep : t.step dfsName e = some u) :
      FleetReaches s u

/-- The states reached by events that lose no id. -/
inductive SafelyReaches (s : Fleet ι) : Fleet ι → Prop
  | refl : SafelyReaches s s
  | tail {t u : Fleet ι} {e : Event ι} (h : SafelyReaches s t) (hsafe : Safe dfsName t e)
      (hstep : t.step dfsName e = some u) : SafelyReaches s u

end Machine

/-! ## What the exchange does to a fleet -/

section Exchange

variable [DecidableEq ι] {words : List UInt32} {setup : Card → Volume × UInt32 × Card}
  {stack : Sector} {op id : UInt32} {p : Pi Card} {c : Config Mac (Pi Card) UInt8 UInt8}
  {s : Fleet ι} {i : ι}

/-- A process that ends anywhere in the exchange leaves the fleet as one of the panics does. -/
theorem bootPi_panic_of_exchange (hp : configSector p = s.disks i) (dirtyDfs : Bool)
    (rest : List ι)
    (hc : Reaches (macAct words) (piAct ⟨sdDriver, setup, stack⟩) (exchangeStart op id p) c) :
    ∃ stored, (bootPi p.dfsName s id dirtyDfs i rest (.panic stored)).disks i =
      c.right.dev.current (clusterNoToLba p.vol p.cfgClusterNo) := by
  cases exchange_sector hc with
  | inl hold => exact ⟨false, (hold.trans hp).symm⟩
  | inr hnew =>
    refine ⟨true, ?_⟩
    rw [hnew, hp]
    exact Function.update_self _ _ _

/-- A completed exchange leaves the config sector and the counter that `bootPi` computes. -/
theorem bootPi_complete_of_exchange (hp : configSector p = s.disks i) (dirtyDfs : Bool)
    (rest : List ι)
    (hc : Reaches (macAct words) (piAct ⟨sdDriver, setup, stack⟩) (exchangeStart op id p) c)
    (hdone : Done c) :
    (bootPi p.dfsName s id dirtyDfs i rest .complete).disks i =
        c.right.dev.current (clusterNoToLba p.vol p.cfgClusterNo) ∧
      (bootPi p.dfsName s id dirtyDfs i rest .complete).run.map MacRun.firstFreeId =
        some c.left.assignableId := by
  obtain ⟨hcount, -, hsector⟩ := exchange_done hc hdone
  rw [hsector, hcount, hp]
  exact ⟨Function.update_self _ _ _, rfl⟩

end Exchange

/-! ## The invariant -/

section Invariant

variable {dfsName : Fin 30 → UInt8} {sec : Sector} {id : UInt32}

theorem heldId_of_matched {j : Fin 16} (h : scan sec dfsName = .matched j) :
    heldId dfsName sec = some (sec.entry j).id := by
  rw [heldId, h]

theorem heldId_of_free {j : Fin 16} (h : scan sec dfsName = .free j) :
    heldId dfsName sec = none := by
  rw [heldId, h]

/-- A pi that holds an id keeps it and leaves the counter alone. -/
theorem keeps_of_held {a : UInt16} (h : heldId dfsName sec = some a) (id : UInt32) :
    scanSector sec dfsName (offeredId id).toNat = sec ∧ counterAfter sec dfsName id = id := by
  rw [heldId] at h
  split at h
  · rename_i j hscan
    have hne : ((sec.entry j).id.toNat : ℤ) ≠ -1 := by omega
    simp only [scanSector, counterAfter, scanResult, hscan, if_neg hne, and_self]
  · exact absurd h (by simp)

/-- A pi with a free entry takes the id on offer. -/
theorem takes_of_free {j : Fin 16} (hname : ¬ IsEnd (dfsName 0))
    (h : scan sec dfsName = .free j) (id : UInt32) :
    heldId dfsName (scanSector sec dfsName (offeredId id).toNat) =
        some (UInt16.ofInt (offeredId id).toNat) ∧
      counterAfter sec dfsName id = id + 1 := by
  refine ⟨?_, by simp only [counterAfter, scanResult, h, if_pos]⟩
  have hsector : scanSector sec dfsName (offeredId id).toNat =
      sec.setEntry j ((sec.entry j).assign dfsName (offeredId id).toNat) := by
    simp only [scanSector, h]
  have hnew := scan_setEntry_assign hname (passes_of_scan_free h).1 (offeredId id).toNat
  rw [hsector, heldId_of_matched hnew, Sector.entry_setEntry_self]
  rfl

/-- The `k`-th id handed out when the counter starts at `f0`. -/
def nthId (f0 : UInt32) (k : ℕ) : UInt16 :=
  UInt16.ofInt (offeredId (f0 + UInt32.ofNat k)).toNat

theorem toNat_nthId (f0 : UInt32) (k : ℕ) : (nthId f0 k).toNat = (f0.toNat + k) % 256 := by
  rw [nthId, toNat_ofInt16, toNat_offeredId, UInt32.toNat_add, UInt32.toNat_ofNat']
  omega

/-- Sixteen ids in a row differ. -/
theorem nthId_injective {f0 : UInt32} {j k : ℕ} (hj : j < 16) (hk : k < 16)
    (h : nthId f0 j = nthId f0 k) : j = k := by
  have hval := congrArg UInt16.toNat h
  rw [toNat_nthId, toNat_nthId] at hval
  omega

/-- The ids have been handed out in order to the pies in `l`, the others have a free entry,
and the counter, in the dfs file between runs and in the memory of the mac during one, is the
next id. While nothing is dirty the file is up to date. -/
structure InOrder (dfsName : Fin 30 → UInt8) (f0 : UInt32) (l : List ι) (s : Fleet ι) : Prop where
  issued : Issued (nthId f0) l fun i => heldId dfsName (s.disks i)
  free : ∀ i, i ∉ l → ∃ j, scan (s.disks i) dfsName = .free j
  idle : s.run = none → s.dfsFile.getD 0 = f0 + UInt32.ofNat l.length
  running : ∀ r, s.run = some r → r.firstFreeId = f0 + UInt32.ofNat l.length ∧
    (r.dirtyDfs = false → s.dfsFile.getD 0 = r.firstFreeId)

variable {f0 : UInt32} {l : List ι} {s t : Fleet ι} {e : Event ι} {i : ι}

theorem Fresh.inOrder (h : Fresh dfsName s) : InOrder dfsName (s.dfsFile.getD 0) [] s where
  issued := Issued.nil fun i => by
    obtain ⟨j, hj⟩ := h.free i
    exact heldId_of_free hj
  free := fun i _ => h.free i
  idle := fun _ => by simp
  running := fun r hr => absurd (h.run.symm.trans hr) (by simp)

theorem InOrder.uniqueIds [Fintype ι] (h : InOrder dfsName f0 l s)
    (hcard : Fintype.card ι ≤ 16) : UniqueIds dfsName s := by
  have hlen : l.length ≤ 16 := h.issued.nodup.length_le_card.trans hcard
  intro i j a hi hj
  exact h.issued.eq_of_held
    (fun m hm n hn => nthId_injective (by omega) (by omega)) hi hj

variable [DecidableEq ι]

/-- The config sectors after the pi `i` has run `id_for_dfs` on the next id: the same, or `i`
is the next one served. -/
theorem InOrder.storeOn (h : InOrder dfsName f0 l s) (hname : ¬ IsEnd (dfsName 0)) (i : ι)
    (hid : id = f0 + UInt32.ofNat l.length) :
    (i ∈ l ∧ storeOn dfsName s.disks i id = s.disks ∧
        counterAfter (s.disks i) dfsName id = id) ∨
      (i ∉ l ∧ counterAfter (s.disks i) dfsName id = id + 1 ∧
        Issued (nthId f0) (l ++ [i]) (fun j => heldId dfsName (storeOn dfsName s.disks i id j)) ∧
        ∀ j, j ∉ l ++ [i] → ∃ k, scan (storeOn dfsName s.disks i id j) dfsName = .free k) := by
  by_cases hi : i ∈ l
  · obtain ⟨⟨k, hk⟩, rfl⟩ := List.get_of_mem hi
    obtain ⟨hsector, hcount⟩ := keeps_of_held (h.issued.held k hk) id
    refine Or.inl ⟨hi, ?_, hcount⟩
    rw [NaiveGfs.storeOn, hsector, Function.update_eq_self]
  · obtain ⟨j, hj⟩ := h.free i hi
    obtain ⟨hheld, hcount⟩ := takes_of_free hname hj id
    refine Or.inr ⟨hi, hcount, ?_, fun k hk => ?_⟩
    · have hupdate : (fun k => heldId dfsName (NaiveGfs.storeOn dfsName s.disks i id k)) =
          Function.update (fun k => heldId dfsName (s.disks k)) i (some (nthId f0 l.length)) := by
        funext k
        by_cases hk : k = i
        · subst hk
          rw [NaiveGfs.storeOn, Function.update_self, Function.update_self, hheld, hid]
          rfl
        · rw [NaiveGfs.storeOn, Function.update_of_ne hk, Function.update_of_ne hk]
      rw [hupdate]
      exact h.issued.concat hi
    · rw [List.mem_append, List.mem_singleton, not_or] at hk
      rw [NaiveGfs.storeOn, Function.update_of_ne hk.2]
      exact h.free k hk.1

theorem InOrder.start (h : InOrder dfsName f0 l s) {pies : List ι}
    (hstep : s.step dfsName (.start pies) = some t) : InOrder dfsName f0 l t := by
  simp only [Fleet.step] at hstep
  split at hstep
  · rename_i hrun
    obtain rfl := Option.some.inj hstep
    refine ⟨h.issued, h.free, fun hnone => absurd hnone (by simp), fun r hr => ?_⟩
    obtain rfl := Option.some.inj hr
    exact ⟨h.idle hrun, fun _ => rfl⟩
  · exact absurd hstep (by simp)

theorem InOrder.finish (h : InOrder dfsName f0 l s)
    (hstep : s.step dfsName .finish = some t) : InOrder dfsName f0 l t := by
  simp only [Fleet.step] at hstep
  split at hstep
  · rename_i id dirty hrun
    obtain rfl := Option.some.inj hstep
    obtain ⟨hcount, hclean⟩ := h.running _ hrun
    refine ⟨h.issued, h.free, fun _ => ?_, fun r hr => absurd hr (by simp)⟩
    cases dirty with
    | false => exact (hclean rfl).trans hcount
    | true => exact hcount
  · exact absurd hstep (by simp)

theorem InOrder.complete (h : InOrder dfsName f0 l s) (hname : ¬ IsEnd (dfsName 0)) {dirty : Bool}
    {rest : List ι} (hrun : s.run = some ⟨id, dirty, i :: rest⟩) :
    ∃ l', InOrder dfsName f0 l' (bootPi dfsName s id dirty i rest .complete) := by
  obtain ⟨hcount, hclean⟩ := h.running _ hrun
  rcases h.storeOn hname i hcount with ⟨-, hdisks, hsame⟩ | ⟨-, hnext, hissued, hfree⟩
  · refine ⟨l, ⟨?_, ?_, fun hnone => absurd hnone (by simp [bootPi]), fun r hr => ?_⟩⟩
    · simpa only [bootPi, hdisks] using h.issued
    · simpa only [bootPi, hdisks] using h.free
    · obtain rfl := Option.some.inj hr
      simp only [hsame, bne_self_eq_false, Bool.or_false]
      exact ⟨hcount, hclean⟩
  · refine ⟨l ++ [i], ⟨hissued, hfree, fun hnone => absurd hnone (by simp [bootPi]),
      fun r hr => ?_⟩⟩
    obtain rfl := Option.some.inj hr
    refine ⟨?_, fun hdirty => ?_⟩
    · simp only [hnext, List.length_append, List.length_singleton, UInt32.ofNat_add]
      rw [show id = f0 + UInt32.ofNat l.length from hcount, UInt32.add_assoc]
      rfl
    · simp [hnext] at hdirty

theorem InOrder.timeout (h : InOrder dfsName f0 l s) {dirty : Bool} {rest : List ι}
    (hrun : s.run = some ⟨id, dirty, i :: rest⟩) :
    InOrder dfsName f0 l (bootPi dfsName s id dirty i rest .timeout) := by
  refine ⟨h.issued, h.free, fun hnone => absurd hnone (by simp [bootPi]), fun r hr => ?_⟩
  obtain rfl := Option.some.inj hr
  obtain ⟨hcount, hclean⟩ := h.running _ hrun
  exact ⟨hcount, hclean⟩

/-- A panic that loses no id: the counter in the file is the one in memory. -/
theorem InOrder.panic (h : InOrder dfsName f0 l s) {rest : List ι} {stored : Bool}
    (hrun : s.run = some ⟨id, false, i :: rest⟩)
    (hstored : stored = true → heldId dfsName (s.disks i) ≠ none) :
    InOrder dfsName f0 l (bootPi dfsName s id false i rest (.panic stored)) := by
  obtain ⟨hcount, hclean⟩ := h.running _ hrun
  have hdisks : (bootPi dfsName s id false i rest (.panic stored)).disks = s.disks := by
    cases stored with
    | false => rfl
    | true =>
      obtain ⟨a, ha⟩ := Option.ne_none_iff_exists'.mp (hstored rfl)
      show Function.update s.disks i (scanSector (s.disks i) dfsName (offeredId id).toNat) = _
      rw [(keeps_of_held ha id).1, Function.update_eq_self]
  refine ⟨by simpa only [hdisks] using h.issued, by simpa only [hdisks] using h.free,
    fun _ => (hclean rfl).trans hcount, fun r hr => absurd hr (by simp [bootPi])⟩

theorem InOrder.step (h : InOrder dfsName f0 l s) (hname : ¬ IsEnd (dfsName 0))
    (hsafe : Safe dfsName s e) (hstep : s.step dfsName e = some t) :
    ∃ l', InOrder dfsName f0 l' t := by
  cases e with
  | start pies => exact ⟨l, h.start hstep⟩
  | finish => exact ⟨l, h.finish hstep⟩
  | boot b =>
    simp only [Fleet.step] at hstep
    split at hstep
    · rename_i id dirty i rest hrun
      obtain rfl := Option.some.inj hstep
      cases b with
      | complete => exact h.complete hname hrun
      | timeout => exact ⟨l, h.timeout hrun⟩
      | panic stored =>
        obtain ⟨rfl, hstored⟩ := hsafe id dirty i rest hrun
        exact ⟨l, h.panic hrun hstored⟩
    · exact absurd hstep (by simp)

theorem InOrder.reaches (h : InOrder dfsName f0 l s) (hname : ¬ IsEnd (dfsName 0))
    (ht : SafelyReaches dfsName s t) : ∃ l', InOrder dfsName f0 l' t := by
  induction ht with
  | refl => exact ⟨l, h⟩
  | tail _ hsafe hstep ih =>
    obtain ⟨l', hl'⟩ := ih
    exact hl'.step hname hsafe hstep

end Invariant

/-- In every run of the mac program over at most sixteen pies in which no panic loses an id,
no two pies ever hold the same id. -/
theorem disks_unique [DecidableEq ι] [Fintype ι] (hcard : Fintype.card ι ≤ 16)
    {dfsName : Fin 30 → UInt8} (hname : ¬ IsEnd (dfsName 0)) {s t : Fleet ι}
    (hfresh : Fresh dfsName s) (ht : SafelyReaches dfsName s t) : UniqueIds dfsName t := by
  obtain ⟨l, hl⟩ := hfresh.inOrder.reaches hname ht
  exact hl.uniqueIds hcard

/-- Two pies that have never been booted. -/
def sampleFleet : Fleet (Fin 2) := ⟨none, fun _ => blankSector, none⟩

theorem sampleFleet_fresh : Fresh sampleName sampleFleet where
  run := rfl
  free := fun _ => ⟨0, show scan blankSector sampleName = .free 0 by decide⟩

theorem disks_unique_sample :
    ∃ t, SafelyReaches sampleName sampleFleet t ∧ UniqueIds sampleName t := by
  have h₁ := SafelyReaches.tail (e := .start [0, 1]) (SafelyReaches.refl : SafelyReaches sampleName
    sampleFleet sampleFleet) trivial rfl
  have h₂ := SafelyReaches.tail (e := .boot .complete) h₁ trivial rfl
  have h₃ := SafelyReaches.tail (e := .boot .complete) h₂ trivial rfl
  have h₄ := SafelyReaches.tail (e := .finish) h₃ trivial rfl
  exact ⟨_, h₄, disks_unique (by decide) (by decide) sampleFleet_fresh h₄⟩

/-- A pi stores id 0, the mac panics before it reads the answer, and the next run gives id 0
to another pi. -/
theorem panic_duplicatesId :
    ¬ ∀ s t : Fleet (Fin 2), Fresh sampleName s → FleetReaches sampleName s t →
      UniqueIds sampleName t := by
  intro hunique
  have h₁ := FleetReaches.tail (e := .start [0]) (FleetReaches.refl : FleetReaches sampleName
    sampleFleet sampleFleet) rfl
  have h₂ := FleetReaches.tail (e := .boot (.panic true)) h₁ rfl
  have h₃ := FleetReaches.tail (e := .start [1]) h₂ rfl
  have h₄ := FleetReaches.tail (e := .boot .complete) h₃ rfl
  have hsame := hunique _ _ sampleFleet_fresh h₄ 0 1 0 (by decide) (by decide)
  exact absurd hsame (by decide)

end NaiveGfs
