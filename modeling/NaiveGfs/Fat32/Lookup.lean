import NaiveGfs.Fat32.Findable
import NaiveGfs.Fat32.FullRoot

/-!
# What a lookup reads and returns

The walk of `fat32_get_cluster_no` is followed on a card that records the sectors it is asked
for. While there is a record at which it stops, it reads sectors of the directory only and
no link behind the last one it needs. Without one it runs past the end of the chain: the
masked end mark is not -1. And where it stops, it compares names with the project's own
`strncmp`, which takes a record whose name ends early for a match.
-/

namespace NaiveGfs

open BlockStore BlockStore.Store

variable {α : Type} {vol : Volume} {fat : UInt32 → UInt32} {visit : DirRecord → Option α}
  {ch : List UInt32}

/-! ## A card that records its reads -/

/-- A card and the sectors that have been read from it. -/
structure TracedCard where
  card : Card
  reads : List UInt32

/-- The card after some more reads. -/
def TracedCard.after (t : TracedCard) (lbas : List UInt32) : TracedCard :=
  { t with reads := t.reads ++ lbas }

@[simp] theorem TracedCard.after_card (t : TracedCard) (lbas : List UInt32) :
    (t.after lbas).card = t.card := rfl

theorem TracedCard.after_nil (t : TracedCard) : t.after [] = t := by
  simp [after]

theorem TracedCard.after_append (t : TracedCard) (xs ys : List UInt32) :
    (t.after xs).after ys = t.after (xs ++ ys) := by
  simp [after]

/-- `sdDriver` with the reads recorded. -/
def tracingDriver : Driver TracedCard where
  readsector t lba _ := (t.after [lba], t.card.current lba)
  writesector t buf lba := { t with card := t.card.write lba buf }

/-- The loop over the sectors of a cluster reads sectors of that cluster, the one in which it
stops among them. -/
theorem walkSectors_traced (vol : Volume) (visit : DirRecord → Option α) (c : UInt32) (j left : ℕ)
    (t : TracedCard) (buf : Sector) :
    ∃ lbas buf', walkSectors tracingDriver vol visit c j left t buf = (t.after lbas, buf',
        (firstHit vol visit t.card.current ((List.range' j left).flatMap (sectorSlots c))).map
          fun p => (p.1.sectorNo, p.1.idx, p.2)) ∧
      (∀ lba ∈ lbas, ∃ j' < j + left, lba = sectorLba vol c j') ∧
      ∀ sl a, firstHit vol visit t.card.current ((List.range' j left).flatMap (sectorSlots c)) =
        some (sl, a) → sectorLba vol c sl.sectorNo ∈ lbas := by
  induction left generalizing j t buf with
  | zero =>
    refine ⟨[], buf, ?_, by simp, ?_⟩
    · rw [t.after_nil]
      rfl
    · intro sl a h
      simp [firstHit] at h
  | succ left ih =>
    rw [List.range'_succ, List.flatMap_cons, firstHit_append, firstHit_sectorSlots]
    simp only [walkSectors, tracingDriver]
    cases hw : walkRecords visit (t.card.current (sectorLba vol c j)) with
    | some p =>
      refine ⟨[sectorLba vol c j], t.card.current (sectorLba vol c j), by simp, ?_, ?_⟩
      · intro lba hlba
        exact ⟨j, by omega, List.mem_singleton.mp hlba⟩
      · intro sl a h
        simp only [Option.map_some, Option.some_or, Option.some.injEq, Prod.mk.injEq] at h
        rw [← h.1]
        exact List.mem_singleton.mpr rfl
    | none =>
      obtain ⟨lbas, buf', hrun, hreads, hstop⟩ :=
        ih (j + 1) (t.after [sectorLba vol c j]) (t.card.current (sectorLba vol c j))
      refine ⟨sectorLba vol c j :: lbas, buf', ?_, ?_, ?_⟩
      · simpa [tracingDriver, TracedCard.after_append] using hrun
      · intro lba hlba
        cases List.mem_cons.mp hlba with
        | inl he => exact ⟨j, by omega, he⟩
        | inr hin =>
          obtain ⟨j', hj', he⟩ := hreads lba hin
          exact ⟨j', by omega, he⟩
      · intro sl a h
        exact List.mem_cons_of_mem _ (hstop sl a (by simpa using h))

/-- A sector of a cluster of `ch`. -/
def ChainSector (vol : Volume) (ch : List UInt32) (lba : UInt32) : Prop :=
  ∃ c ∈ ch, ∃ j < vol.id.sectorsPerCluster.toNat, lba = sectorLba vol c j

theorem ChainSector.mono {ch ch' : List UInt32} (hsub : ch ⊆ ch') {lba : UInt32}
    (h : ChainSector vol ch lba) : ChainSector vol ch' lba := by
  obtain ⟨c, hc, hj⟩ := h
  exact ⟨c, hsub hc, hj⟩

/-- One round of the loop over the clusters. -/
theorem walkClusters_traced_succ (fat : UInt32 → UInt32) (visit : DirRecord → Option α)
    {c : UInt32} (hc : c ≠ 0xffffffff) (fuel : ℕ) (prev : UInt32) (t : TracedCard)
    (buf : Sector) :
    ∃ lbas buf', walkClusters tracingDriver vol fat visit (fuel + 1) c prev t buf =
        (match firstHit vol visit t.card.current (clusterSlots vol c) with
        | some (sl, a) => some (.hit c sl.sectorNo sl.idx a (t.after lbas) buf')
        | none => walkClusters tracingDriver vol fat visit fuel (fat32NextCluster fat c) c
            (t.after lbas) buf') ∧
      (∀ lba ∈ lbas, ChainSector vol [c] lba) ∧
      ∀ sl a, firstHit vol visit t.card.current (clusterSlots vol c) = some (sl, a) →
        sectorLba vol c sl.sectorNo ∈ lbas := by
  obtain ⟨lbas, buf', hrun, hreads, hstop⟩ :=
    walkSectors_traced vol visit c 0 vol.id.sectorsPerCluster.toNat t buf
  rw [← List.range_eq_range'] at hrun hstop
  refine ⟨lbas, buf', ?_, ?_, hstop⟩
  · rw [walkClusters, if_neg hc, hrun, clusterSlots]
    cases firstHit vol visit t.card.current
      ((List.range vol.id.sectorsPerCluster.toNat).flatMap (sectorSlots c)) <;> rfl
  · intro lba hlba
    obtain ⟨j, hj, he⟩ := hreads lba hlba
    exact ⟨c, List.mem_singleton.mpr rfl, j, by omega, he⟩

/-- A walk that stops in the clusters `ch` has read sectors of these clusters only. -/
theorem walkClusters_traced_of_firstHit {cur : UInt32} (hhead : ch.head? = some cur)
    (hlinked : Linked fat ch) (hreal : ∀ c ∈ ch, c ≠ 0xffffffff) {t : TracedCard} {sl : Slot}
    {a : α} (hhit : firstHit vol visit t.card.current (dirSlots vol ch) = some (sl, a)) {fuel : ℕ}
    (hfuel : ch.length ≤ fuel) (prev : UInt32) (buf : Sector) :
    ∃ lbas buf', walkClusters tracingDriver vol fat visit fuel cur prev t buf =
        some (.hit sl.cluster sl.sectorNo sl.idx a (t.after lbas) buf') ∧
      ∀ lba ∈ lbas, ChainSector vol ch lba := by
  induction ch generalizing cur prev buf fuel t with
  | nil => simp at hhead
  | cons c ch ih =>
    rw [List.head?_cons, Option.some.injEq] at hhead
    subst hhead
    obtain ⟨fuel, rfl⟩ : ∃ m, fuel = m + 1 :=
      ⟨fuel - 1, by simp only [List.length_cons] at hfuel; omega⟩
    obtain ⟨lbas, buf₁, hrun, hreads, -⟩ :=
      walkClusters_traced_succ fat visit (hreal c (by simp)) fuel prev t buf
    have hfirst : ∀ lba ∈ lbas, ChainSector vol (c :: ch) lba :=
      fun lba hlba => (hreads lba hlba).mono (by simp)
    rw [dirSlots, List.flatMap_cons, firstHit_append] at hhit
    cases hc : firstHit vol visit t.card.current (clusterSlots vol c) with
    | some p =>
      obtain ⟨x, b⟩ := p
      rw [hc, Option.some_or, Option.some.injEq, Prod.mk.injEq] at hhit
      obtain ⟨rfl, rfl⟩ := hhit
      rw [hc] at hrun
      have hcl : x.cluster = c := (mem_clusterSlots.mp (firstHit_some hc).1).1
      exact ⟨lbas, buf₁, by rw [hrun, hcl], hfirst⟩
    | none =>
      rw [hc, Option.none_or] at hhit
      rw [hc] at hrun
      cases ch with
      | nil => simp [firstHit] at hhit
      | cons d ds =>
        rw [Linked, List.isChain_cons_cons] at hlinked
        obtain ⟨hlink, hrest⟩ := hlinked
        obtain ⟨more, buf₂, hwalk, hmore⟩ := ih (t := t.after lbas) rfl hrest
          (fun x hx => hreal x (List.mem_cons_of_mem _ hx)) hhit (by simpa using hfuel) c buf₁
        refine ⟨lbas ++ more, buf₂, ?_, ?_⟩
        · rw [hrun, hlink, ← t.after_append]
          exact hwalk
        · intro lba hlba
          cases List.mem_append.mp hlba with
          | inl hin => exact hfirst lba hin
          | inr hin => exact (hmore lba hin).mono (by simp)

/-- A walk that does not stop in the clusters `ch` goes on where the last link leads. -/
theorem walkClusters_traced_pass {cur last : UInt32} (hhead : ch.head? = some cur)
    (hlinked : Linked fat ch) (hreal : ∀ c ∈ ch, c ≠ 0xffffffff) (hlast : ch.getLast? = some last)
    {t : TracedCard} (hnone : firstHit vol visit t.card.current (dirSlots vol ch) = none)
    (fuel : ℕ) (prev : UInt32) (buf : Sector) :
    ∃ lbas buf', walkClusters tracingDriver vol fat visit (ch.length + fuel) cur prev t buf =
      walkClusters tracingDriver vol fat visit fuel (fat32NextCluster fat last) last
        (t.after lbas) buf' := by
  induction ch generalizing cur prev buf t with
  | nil => simp at hhead
  | cons c ch ih =>
    rw [List.head?_cons, Option.some.injEq] at hhead
    subst hhead
    have hlen : (c :: ch).length + fuel = (ch.length + fuel) + 1 := by
      simp only [List.length_cons]
      omega
    obtain ⟨lbas, buf₁, hrun, -, -⟩ := walkClusters_traced_succ fat visit
      (hreal c (by simp)) (ch.length + fuel) prev t buf
    rw [dirSlots, List.flatMap_cons, firstHit_append] at hnone
    obtain ⟨hc, hnone⟩ := Option.or_eq_none_iff.mp hnone
    rw [hc] at hrun
    rw [hlen, hrun]
    cases ch with
    | nil =>
      obtain rfl : c = last := by simpa using hlast
      rw [List.length_nil, Nat.zero_add]
      exact ⟨lbas, buf₁, rfl⟩
    | cons d ds =>
      rw [Linked, List.isChain_cons_cons] at hlinked
      obtain ⟨hlink, hrest⟩ := hlinked
      obtain ⟨more, buf₂, hwalk⟩ := ih (t := t.after lbas) rfl hrest
        (fun x hx => hreal x (List.mem_cons_of_mem _ hx)) (by simpa using hlast) hnone c buf₁
      refine ⟨lbas ++ more, buf₂, ?_⟩
      rw [hlink, ← t.after_append]
      exact hwalk

/-- In a cluster that is linked to itself and holds no hit the walk never ends. -/
theorem walkClusters_traced_selfLink {x : UInt32} (hself : fat32NextCluster fat x = x)
    (hx : x ≠ 0xffffffff) {t : TracedCard}
    (hnone : firstHit vol visit t.card.current (clusterSlots vol x) = none) (fuel : ℕ)
    (prev : UInt32) (buf : Sector) :
    walkClusters tracingDriver vol fat visit fuel x prev t buf = none := by
  induction fuel generalizing prev t buf with
  | zero =>
    rw [walkClusters, if_neg hx]
  | succ fuel ih =>
    obtain ⟨lbas, buf₁, hrun, -, -⟩ :=
      walkClusters_traced_succ fat visit hx fuel prev t buf
    rw [hnone, hself] at hrun
    rw [hrun]
    exact ih (t := t.after lbas) hnone x buf₁

/-! ## The value -/

section Value

variable {disk : UInt32 → Sector} {name : Fin 11 → UInt8}

/-- The start cluster of the first entry with a property, or -1. -/
def startOfFirst (p : DirRecord → Bool) (rs : List DirRecord) : UInt32 :=
  match rs.find? p with
  | some r => r.startCluster
  | none => 0xffffffff

/-- What a lookup should return: the start cluster of the first entry with exactly the name
that is looked up, or -1 when there is none. -/
def specLookup (vol : Volume) (disk : UInt32 → Sector) (ch : List UInt32)
    (name : Fin 11 → UInt8) : UInt32 :=
  startOfFirst (fun r => decide (∀ i, r.dirName i = name i))
    (liveRecords vol disk (dirSlots vol ch))

/-- A record that `strncmp` takes for the name. -/
def matchesName (name : Fin 11 → UInt8) (r : DirRecord) : Bool := strncmp r.dirName name == 0

/-- A record at which a lookup stops: a terminal, or one that `strncmp` takes for the name. -/
def StopsLookup (name : Fin 11 → UInt8) (r : DirRecord) : Prop :=
  r.isLfn = false ∧ (r.isTerminal = true ∨ matchesName name r = true)

theorem lookupVisit_eq_none_iff {r : DirRecord} :
    lookupVisit name r = none ↔ ¬ StopsLookup name r := by
  rw [lookupVisit, StopsLookup, matchesName]
  cases r.isLfn with
  | true => simp
  | false =>
    cases r.isTerminal with
    | true => simp
    | false =>
      by_cases hm : strncmp r.dirName name = 0
      · simp [hm]
      · simp [hm]

/-- A lookup returns the start cluster of the first entry that `strncmp` takes for the name,
or -1 at a terminal. -/
theorem lookup_value {slots : List Slot} {sl : Slot} {a : UInt32}
    (h : firstHit vol (lookupVisit name) disk slots = some (sl, a)) :
    a = startOfFirst (matchesName name) (liveRecords vol disk slots) := by
  induction slots with
  | nil => simp [firstHit] at h
  | cons x slots ih =>
    rw [firstHit, List.findSome?_cons] at h
    rw [liveRecords_cons]
    cases hl : (slotRecord vol disk x).isLfn with
    | true =>
      have hskip : lookupVisit name (slotRecord vol disk x) = none := by
        rw [lookupVisit, hl]
        rfl
      rw [hskip] at h
      exact ih h
    | false =>
      cases ht : (slotRecord vol disk x).isTerminal with
      | true =>
        have hstop : lookupVisit name (slotRecord vol disk x) = some 0xffffffff := by
          rw [lookupVisit, hl, ht]
          rfl
        rw [hstop] at h
        exact (Prod.mk.inj (Option.some.inj h)).2.symm
      | false =>
        by_cases hm : strncmp (slotRecord vol disk x).dirName name = 0
        · have hstop : lookupVisit name (slotRecord vol disk x) =
              some (slotRecord vol disk x).startCluster := by
            simp [lookupVisit, hl, ht, hm]
          rw [hstop] at h
          have ha := (Prod.mk.inj (Option.some.inj h)).2
          simp [startOfFirst, matchesName, hm, ← ha]
        · have hskip : lookupVisit name (slotRecord vol disk x) = none := by
            simp [lookupVisit, hl, ht, hm]
          rw [hskip] at h
          rw [ih h]
          simp [startOfFirst, matchesName, hm]

/-- Some record of the directory stops the lookup. -/
def LookupStops (vol : Volume) (disk : UInt32 → Sector) (ch : List UInt32)
    (name : Fin 11 → UInt8) : Prop :=
  ∃ sl ∈ dirSlots vol ch, StopsLookup name (slotRecord vol disk sl)

/-- The first entry that `strncmp` takes for the name has exactly that name, or starts where
the lookup should point in any case. -/
def FirstMatchExact (vol : Volume) (disk : UInt32 → Sector) (ch : List UInt32)
    (name : Fin 11 → UInt8) : Prop :=
  ∀ r, (liveRecords vol disk (dirSlots vol ch)).find? (matchesName name) = some r →
    (∀ i, r.dirName i = name i) ∨ r.startCluster = specLookup vol disk ch name

theorem matchesName_of_eq {r : DirRecord} (h : ∀ i, r.dirName i = name i) :
    matchesName name r = true := by
  have hself : strncmp r.dirName name = 0 := strncmpFrom_eq_zero fun i _ => Or.inl (h i)
  simp [matchesName, hself]

/-- The first match is the start cluster that the lookup should return exactly when it has the
name, or starts there. -/
theorem startOfFirst_eq_spec_iff :
    startOfFirst (matchesName name) (liveRecords vol disk (dirSlots vol ch)) =
      specLookup vol disk ch name ↔ FirstMatchExact vol disk ch name := by
  rw [FirstMatchExact]
  cases hfind : (liveRecords vol disk (dirSlots vol ch)).find? (matchesName name) with
  | none =>
    have hnone : (liveRecords vol disk (dirSlots vol ch)).find?
        (fun r => decide (∀ i, r.dirName i = name i)) = none := by
      rw [List.find?_eq_none] at hfind ⊢
      intro r hr he
      exact hfind r hr (matchesName_of_eq (of_decide_eq_true he))
    simp [startOfFirst, specLookup, hfind, hnone]
  | some r =>
    have hstart : startOfFirst (matchesName name) (liveRecords vol disk (dirSlots vol ch)) =
        r.startCluster := by
      rw [startOfFirst, hfind]
    rw [hstart]
    constructor
    · intro he r' hr'
      obtain rfl := Option.some.inj hr'
      exact Or.inr he
    · intro h
      cases h r rfl with
      | inl hexact =>
        -- nothing in front of it matches at all, so it is the first exact one too
        obtain ⟨-, pre, post, hsplit, hpre⟩ := List.find?_eq_some_iff_append.mp hfind
        have hfirst : (liveRecords vol disk (dirSlots vol ch)).find?
            (fun r => decide (∀ i, r.dirName i = name i)) = some r := by
          rw [List.find?_eq_some_iff_append]
          refine ⟨decide_eq_true hexact, pre, post, hsplit, ?_⟩
          intro x hx
          have hmiss := hpre x hx
          rw [Bool.not_eq_true'] at hmiss ⊢
          rw [decide_eq_false_iff_not]
          intro he
          rw [matchesName_of_eq he] at hmiss
          simp at hmiss
        rw [specLookup, startOfFirst, hfirst]
      | inr he => exact he

end Value

/-! ## The lookup -/

/-- The chain of a root directory that starts at cluster 2: linked, in range, without a cycle,
and ended by the end mark. -/
structure LookupChain (vol : Volume) (fat : UInt32 → UInt32) (ch : List UInt32) : Prop where
  head : ch.head? = some fat32RootClusterNo
  linked : Linked fat ch
  inRange : ∀ c ∈ ch, vol.InRange c
  nodup : ch.Nodup
  ends : ∀ c ∈ ch.getLast?, fat32NextCluster fat c = fat32TerminalClusterNo

/-- The chain depends on the entries of its clusters only. -/
theorem LookupChain.congr {fat' : UInt32 → UInt32} (h : LookupChain vol fat ch)
    (hfat : ∀ k, k < vol.fatEnd → fat' k = fat k) : LookupChain vol fat' ch where
  head := h.head
  linked := by
    refine h.linked.imp_of_mem_imp ?_
    intro a b ha _ hab
    rw [fat32NextCluster, hfat a (h.inRange a ha).2]
    exact hab
  inRange := h.inRange
  nodup := h.nodup
  ends := by
    intro c hc
    rw [fat32NextCluster, hfat c (h.inRange c (List.mem_of_mem_getLast? hc)).2]
    exact h.ends c hc

variable {s : Fs Card} {name : Fin 11 → UInt8}

/-- `fat32_get_cluster_no` ends with the value it should, having read sectors of the directory
only, and with the same outcome whatever the memory holds behind the table. -/
def LookupMeetsSpec (vol : Volume) (s : Fs Card) (ch : List UInt32) (name : Fin 11 → UInt8) :
    Prop :=
  ∀ stack, ∃ fuel, ∀ fat' : UInt32 → UInt32, (∀ k, k < vol.fatEnd → fat' k = s.fat k) →
    ∃ lbas, fat32GetClusterNo tracingDriver vol name stack fuel ⟨fat', ⟨s.dev, []⟩⟩ =
        some (specLookup vol s.disk ch name, ⟨fat', ⟨s.dev, lbas⟩⟩) ∧
      ∀ lba ∈ lbas, ChainSector vol ch lba

/-- A lookup that returns has stopped at a record. -/
theorem fat32GetClusterNo_cases {κ : Type} {drv : Driver κ} {s s' : Fs κ} {stack : Sector}
    {fuel : ℕ} {c : UInt32} (h : fat32GetClusterNo drv vol name stack fuel s = some (c, s')) :
    ∃ cur j i buf, walkClusters drv vol s.fat (lookupVisit name) fuel fat32RootClusterNo
      fat32RootClusterNo s.dev stack = some (.hit cur j i c s'.dev buf) := by
  rw [fat32GetClusterNo] at h
  split at h
  · simp at h
  · rename_i hwalk
    obtain ⟨rfl, rfl⟩ := Prod.mk.inj (Option.some.inj h)
    exact ⟨_, _, _, _, hwalk⟩
  · rename_i hwalk
    exact absurd (walkClusters_exhausted hwalk) (by decide)

/-- More fuel does not change the result of a lookup that returns. -/
theorem fat32GetClusterNo_mono {κ : Type} {drv : Driver κ} {s : Fs κ} {stack : Sector}
    {fuel fuel' : ℕ} (hle : fuel ≤ fuel') {r : UInt32 × Fs κ}
    (h : fat32GetClusterNo drv vol name stack fuel s = some r) :
    fat32GetClusterNo drv vol name stack fuel' s = some r := by
  rw [fat32GetClusterNo] at h ⊢
  split at h
  · simp at h
  all_goals
    rename_i hwalk
    rw [walkClusters_mono hle hwalk]
    exact h

/-- Where some record stops the lookup it returns the first match. -/
theorem lookup_of_stops (hend : vol.fatEnd.toNat < 2 ^ 28) (hchain : LookupChain vol fat ch)
    (dev : Card) (hstops : LookupStops vol dev.current ch name) (stack : Sector) :
    ∃ lbas, fat32GetClusterNo tracingDriver vol name stack ch.length ⟨fat, ⟨dev, []⟩⟩ =
        some (startOfFirst (matchesName name) (liveRecords vol dev.current (dirSlots vol ch)),
          ⟨fat, ⟨dev, lbas⟩⟩) ∧
      ∀ lba ∈ lbas, ChainSector vol ch lba := by
  obtain ⟨sl, hsl, hstop⟩ := hstops
  cases hhit : firstHit vol (lookupVisit name) dev.current (dirSlots vol ch) with
  | none =>
    have hnone := List.findSome?_eq_none_iff.mp hhit sl hsl
    rw [Option.map_eq_none_iff] at hnone
    exact absurd hstop (lookupVisit_eq_none_iff.mp hnone)
  | some p =>
    obtain ⟨x, a⟩ := p
    obtain ⟨lbas, buf, hwalk, hreads⟩ := walkClusters_traced_of_firstHit (t := ⟨dev, []⟩)
      hchain.head hchain.linked (fun c hc => (hchain.inRange c hc).ne_allOnes hend.le) hhit
      (le_refl _) fat32RootClusterNo stack
    refine ⟨lbas, ?_, hreads⟩
    rw [fat32GetClusterNo, hwalk, lookup_value hhit]
    rfl

/-- Where no record stops the lookup it passes all of them. -/
theorem lookupVisit_of_not_stops (hstops : ¬ LookupStops vol s.disk ch name) :
    ∀ sl ∈ dirSlots vol ch, lookupVisit name (slotRecord vol s.disk sl) = none := by
  intro sl hsl
  rw [lookupVisit_eq_none_iff]
  exact fun hstop => hstops ⟨sl, hsl, hstop⟩

theorem LookupChain.exists_last (hchain : LookupChain vol s.fat ch) :
    ∃ last, ch.getLast? = some last := by
  cases hl : ch.getLast? with
  | some last => exact ⟨last, rfl⟩
  | none =>
    have hhead := hchain.head
    rw [List.getLast?_eq_none_iff.mp hl] at hhead
    simp at hhead

/-- Where no record stops the lookup, it does not end inside the directory. -/
theorem not_meetsSpec_of_not_stops (hend : vol.fatEnd.toNat < 2 ^ 28)
    (hchain : LookupChain vol s.fat ch) (hstops : ¬ LookupStops vol s.disk ch name) :
    ¬ LookupMeetsSpec vol s ch name := by
  intro h
  have hmiss := lookupVisit_of_not_stops hstops
  have hnone : firstHit vol (lookupVisit name) s.disk (dirSlots vol ch) = none := by
    apply List.findSome?_eq_none_iff.mpr
    intro sl hsl
    rw [hmiss sl hsl]
    rfl
  have hbehind : ∀ k, k < vol.fatEnd → k ≠ fat32TerminalClusterNo := by
    rintro k hk rfl
    have hlt : (2 ^ 28 - 1 : ℕ) < vol.fatEnd.toNat := UInt32.lt_iff_toNat_lt.mp hk
    omega
  -- the memory behind the table may link the end mark to itself
  set fat' := Function.update s.fat fat32TerminalClusterNo fat32TerminalClusterNo with hfat'
  have hsame : ∀ k, k < vol.fatEnd → fat' k = s.fat k :=
    fun k hk => Function.update_of_ne (hbehind k hk) _ _
  have hself : fat32NextCluster fat' fat32TerminalClusterNo = fat32TerminalClusterNo := by
    rw [fat32NextCluster, hfat', Function.update_self]
    rfl
  have hchain' := hchain.congr hsame
  obtain ⟨fuel, hruns⟩ := h blankSector
  obtain ⟨lbas, hcall, hreads⟩ := hruns fat' hsame
  obtain ⟨last, hlast⟩ := hchain.exists_last
  -- the walk passes the directory and comes to the end mark
  obtain ⟨passed, buf, hpass⟩ := walkClusters_traced_pass (t := ⟨s.dev, []⟩) hchain'.head
    hchain'.linked (fun c hc => (hchain.inRange c hc).ne_allOnes hend.le) hlast hnone (fuel + 1)
    fat32RootClusterNo blankSector
  rw [hchain'.ends last hlast] at hpass
  obtain ⟨cur, j, i, buf₁, hwalk⟩ := fat32GetClusterNo_cases hcall
  have hmore := walkClusters_mono (show fuel ≤ ch.length + (fuel + 1) by omega) hwalk
  rw [hpass] at hmore
  obtain ⟨more, buf₂, hstep, -, hstop⟩ := walkClusters_traced_succ fat' (lookupVisit name)
    (show fat32TerminalClusterNo ≠ 0xffffffff by decide) fuel last
    (TracedCard.after ⟨s.dev, []⟩ passed) buf
  rw [hmore] at hstep
  simp only [TracedCard.after_card] at hstep hstop
  cases hmark : firstHit vol (lookupVisit name) s.disk
      (clusterSlots vol fat32TerminalClusterNo) with
  | none =>
    rw [walkClusters_traced_selfLink hself (by decide) hmark] at hmore
    simp at hmore
  | some p =>
    obtain ⟨sl, a⟩ := p
    obtain ⟨hsl, hvisit⟩ := firstHit_some hmark
    obtain ⟨hcl, -⟩ := mem_clusterSlots.mp hsl
    have hread : sectorLba vol fat32TerminalClusterNo sl.sectorNo ∈ lbas := by
      rw [show firstHit vol (lookupVisit name) s.dev.current _ = _ from hmark] at hstep
      rw [Option.some.injEq, WalkEnd.hit.injEq] at hstep
      have hlbas : lbas = passed ++ more := congrArg TracedCard.reads hstep.2.2.2.2.1
      rw [hlbas]
      exact List.mem_append_right _ (hstop sl a hmark)
    -- a sector of the directory, in which nothing stops the lookup
    obtain ⟨c, hc, j, hj, he⟩ := hreads _ hread
    have hrecord : slotRecord vol s.disk sl = slotRecord vol s.disk ⟨c, j, sl.idx⟩ := by
      rw [slotRecord, slotLba, hcl, he]
      rfl
    have hslot := hmiss ⟨c, j, sl.idx⟩ (mem_dirSlots.mpr ⟨hc, hj⟩)
    rw [← hrecord, hvisit] at hslot
    simp at hslot

/-- `fat32_get_cluster_no` meets its specification if and only if some record of the directory
stops it, and the first entry that `strncmp` takes for the name is the one that was meant. -/
theorem lookup_meetsSpec_iff (hend : vol.fatEnd.toNat < 2 ^ 28)
    (hchain : LookupChain vol s.fat ch) :
    LookupMeetsSpec vol s ch name ↔
      LookupStops vol s.disk ch name ∧ FirstMatchExact vol s.disk ch name := by
  constructor
  · intro h
    have hstops : LookupStops vol s.disk ch name := by
      by_contra hstops
      exact not_meetsSpec_of_not_stops hend hchain hstops h
    refine ⟨hstops, startOfFirst_eq_spec_iff.mp ?_⟩
    obtain ⟨lbas, hcall, -⟩ := lookup_of_stops hend hchain s.dev hstops blankSector
    obtain ⟨fuel, hruns⟩ := h blankSector
    obtain ⟨lbas', hcall', -⟩ := hruns s.fat fun _ _ => rfl
    have hmore := fat32GetClusterNo_mono (le_max_left ch.length fuel) hcall
    rw [fat32GetClusterNo_mono (le_max_right ch.length fuel) hcall'] at hmore
    exact (Prod.mk.inj (Option.some.inj hmore)).1.symm
  · rintro ⟨hstops, hexact⟩ stack
    refine ⟨ch.length, fun fat' hfat => ?_⟩
    obtain ⟨lbas, hcall, hreads⟩ :=
      lookup_of_stops hend (hchain.congr hfat) s.dev hstops stack
    refine ⟨lbas, ?_, hreads⟩
    rw [hcall]
    rw [← startOfFirst_eq_spec_iff.mpr hexact]
    rfl

theorem freshFs_lookupChain : LookupChain smallVolume freshFs.fat [2] where
  head := rfl
  linked := List.isChain_singleton 2
  inRange := List.all_iff_forall_prop.mp (by decide)
  nodup := by decide
  ends := by
    intro c hc
    obtain rfl : 2 = c := by simpa using hc
    rfl

/-- The small volume with an LFN record in front of the record of a file. -/
def longNameFs : Fs Card where
  fat := freshFs.fat
  dev := ⟨Function.update freshFs.disk 2
    ((blankSector.setRecord 0
      { newRecord (blankSector.record 0) (fun _ => 66) 0 with dirAttr := 0x0f }).setRecord 1
        (newRecord (blankSector.record 1) (fun _ => 65) 3)), []⟩

/-- The LFN record is passed over and the file found. -/
theorem lookup_meetsSpec_iff_fresh :
    LookupMeetsSpec smallVolume longNameFs [2] (fun _ => 65) ∧
      specLookup smallVolume longNameFs.disk [2] (fun _ => 65) = 3 := by
  have hchain : LookupChain smallVolume longNameFs.fat [2] := freshFs_lookupChain
  have hlive : (liveRecords smallVolume longNameFs.disk (dirSlots smallVolume [2])).find?
      (matchesName fun _ => 65) = some (slotRecord smallVolume longNameFs.disk ⟨2, 0, 1⟩) := rfl
  refine ⟨(lookup_meetsSpec_iff (by decide) hchain).mpr
    ⟨⟨⟨2, 0, 1⟩, by decide, by decide, Or.inr (by decide)⟩, fun r hr => Or.inl ?_⟩, by decide⟩
  rw [hlive] at hr
  rw [← Option.some.inj hr]
  decide

/-- A name that is not in the full root directory of the small volume: the lookup leaves the
directory. -/
theorem fullRoot_lookupEscapes :
    LookupChain smallVolume fullRootFs.fat [2] ∧
      ¬ LookupMeetsSpec smallVolume fullRootFs [2] fun _ => 66 := by
  have hchain : LookupChain smallVolume fullRootFs.fat [2] := freshFs_lookupChain
  refine ⟨hchain, not_meetsSpec_of_not_stops (by decide) hchain ?_⟩
  rintro ⟨sl, hsl, hstop⟩
  have hpass : ∀ sl ∈ dirSlots smallVolume [2],
      lookupVisit (fun _ => 66) (slotRecord smallVolume fullRootFs.disk sl) = none := by decide
  exact lookupVisit_eq_none_iff.mp (hpass sl hsl) hstop

end NaiveGfs
