import NaiveGfs.Fat32.Geometry

/-!
# Where allocated clusters lie

`alloc_free_local_cluster` takes every entry of the FAT that reads as free, up to `FAT_end`.
The FAT is rounded up to whole sectors, and nothing compares a number with the size of the
partition, so the clusters it returns lie in the partition exactly when the free entries do.
-/

namespace NaiveGfs

variable {κ : Type} {drv : Driver κ} {vol : Volume} {fat : UInt32 → UInt32}

/-! ## Free entries -/

theorem mem_freeEntries {c : UInt32} :
    c ∈ freeEntries vol fat ↔
      2 ≤ c.toNat ∧ c.toNat < 2 + entriesAhead vol ∧ fat c = 0 := by
  have hahead : entriesAhead vol < 2 ^ 30 := Nat.mod_lt _ (by norm_num)
  rw [freeEntries, List.mem_filter, List.mem_map, beq_iff_eq]
  constructor
  · rintro ⟨⟨i, hi, rfl⟩, hfree⟩
    rw [List.mem_range] at hi
    have hnat : (UInt32.ofNat (2 + i)).toNat = 2 + i := by
      rw [UInt32.toNat_ofNat', Nat.mod_eq_of_lt (by omega)]
    refine ⟨?_, ?_, hfree⟩ <;> omega
  · rintro ⟨htwo, hlt, hfree⟩
    refine ⟨⟨c.toNat - 2, List.mem_range.mpr (by omega), ?_⟩, hfree⟩
    rw [Nat.add_sub_cancel' htwo, UInt32.ofNat_toNat]

/-- -1 is not the number of an entry. -/
theorem allOnes_not_ahead (vol : Volume) :
    ¬ (0xffffffff : UInt32).toNat < 2 + entriesAhead vol := by
  have hahead : entriesAhead vol < 2 ^ 30 := Nat.mod_lt _ (by norm_num)
  show ¬ 4294967295 < _
  omega

theorem freeEntries_sorted (vol : Volume) (fat : UInt32 → UInt32) :
    (freeEntries vol fat).Pairwise (· < ·) := by
  have hahead : entriesAhead vol < 2 ^ 30 := Nat.mod_lt _ (by norm_num)
  refine List.Pairwise.filter _ (List.pairwise_map.mpr ?_)
  refine List.pairwise_lt_range.imp_of_mem fun hi hj hij => ?_
  rw [List.mem_range] at hi hj
  rw [UInt32.lt_iff_toNat_lt, UInt32.toNat_ofNat', UInt32.toNat_ofNat',
    Nat.mod_eq_of_lt (by omega), Nat.mod_eq_of_lt (by omega)]
  omega

/-- Marking an entry takes it out of the free ones. -/
theorem freeEntries_update (vol : Volume) (fat : UInt32 → UInt32) {k v : UInt32} (hv : v ≠ 0) :
    freeEntries vol (Function.update fat k v) = (freeEntries vol fat).filter (· != k) := by
  rw [freeEntries, freeEntries, List.filter_filter]
  apply List.filter_congr
  intro x _
  by_cases hx : x = k
  · subst hx
    simp [hv]
  · simp [hx]

/-! ## Allocations in a row -/

/-- What `n` calls of `alloc_free_local_cluster` in a row return. -/
def allocations (drv : Driver κ) (vol : Volume) : ℕ → Fs κ → List UInt32
  | 0, _ => []
  | n + 1, s =>
    let (out, s) := allocFreeLocalCluster drv vol s
    out :: allocations drv vol n s

theorem mem_allocations_succ {n : ℕ} {s : Fs κ} {x : UInt32} :
    x ∈ allocations drv vol (n + 1) s ↔ x = (allocFreeLocalCluster drv vol s).1 ∨
      x ∈ allocations drv vol n (allocFreeLocalCluster drv vol s).2 :=
  List.mem_cons

/-- The numbers that allocations return, given the free entries: each of them once. But a
number of more than 28 bits is not marked in use, and is returned for ever. -/
def offered : List UInt32 → List UInt32
  | [] => []
  | c :: rest => if c.toNat < 2 ^ 28 then c :: offered rest else [c]

theorem offered_eq_self {cs : List UInt32} (h : ∀ c ∈ cs, c.toNat < 2 ^ 28) : offered cs = cs := by
  induction cs with
  | nil => rfl
  | cons c rest ih =>
    rw [offered, if_pos (h c (by simp)), ih fun x hx => h x (List.mem_cons_of_mem _ hx)]

theorem offered_subset {c : UInt32} {cs : List UInt32} (h : c ∈ offered cs) : c ∈ cs := by
  induction cs with
  | nil => simp [offered] at h
  | cons d rest ih =>
    rw [offered] at h
    split at h
    · rcases List.mem_cons.mp h with rfl | hin
      · exact List.mem_cons_self
      · exact List.mem_cons_of_mem _ (ih hin)
    · rw [List.mem_singleton.mp h]
      exact List.mem_cons_self

/-- A call without free entries returns -1 and leaves none. -/
theorem allocFree_none (drv : Driver κ) {s : Fs κ} (hfree : freeEntries vol s.fat = []) :
    (allocFreeLocalCluster drv vol s).1 = 0xffffffff ∧
      freeEntries vol (allocFreeLocalCluster drv vol s).2.fat = [] := by
  refine ⟨?_, ?_⟩
  · show findFreeLocalCluster vol s.fat = _
    rw [findFreeLocalCluster_eq_headD, hfree, List.headD_nil]
  · show freeEntries vol (Function.update s.fat _ (clusterNo 0xffffffff)) = []
    rw [freeEntries_update vol s.fat (by decide), hfree, List.filter_nil]

/-- A call returns the first free entry, and marks it if it has 28 bits. -/
theorem allocFree_cons (drv : Driver κ) {s : Fs κ} {c : UInt32} {rest : List UInt32}
    (hfree : freeEntries vol s.fat = c :: rest) :
    (allocFreeLocalCluster drv vol s).1 = c ∧
      freeEntries vol (allocFreeLocalCluster drv vol s).2.fat =
        if c.toNat < 2 ^ 28 then rest else c :: rest := by
  have hout : findFreeLocalCluster vol s.fat = c := by
    rw [findFreeLocalCluster_eq_headD, hfree, List.headD_cons]
  have hsorted := freeEntries_sorted vol s.fat
  rw [hfree, List.pairwise_cons] at hsorted
  refine ⟨hout, ?_⟩
  show freeEntries vol (Function.update s.fat (clusterNo (findFreeLocalCluster vol s.fat))
    (clusterNo 0xffffffff)) = _
  rw [freeEntries_update vol s.fat (by decide), hfree, hout]
  -- the entry that is marked has 28 bits, and all later free entries have larger numbers
  have hkeep : ∀ x ∈ rest, x ≠ clusterNo c := by
    intro x hx he
    have hlt := UInt32.lt_iff_toNat_lt.mp (hsorted.1 x hx)
    have hmod := Nat.mod_le c.toNat (2 ^ 28)
    rw [he, toNat_clusterNo] at hlt
    omega
  have hrest : rest.filter (· != clusterNo c) = rest :=
    List.filter_eq_self.mpr fun x hx => bne_iff_ne.mpr (hkeep x hx)
  by_cases hsmall : c.toNat < 2 ^ 28
  · rw [if_pos hsmall, List.filter_cons_of_neg (by simp [clusterNo_of_lt hsmall]), hrest]
  · -- another entry is marked, and the first free one stays free
    have hne : c ≠ clusterNo c := by
      intro he
      have hmod := Nat.mod_lt c.toNat (show 2 ^ 28 > 0 by norm_num)
      rw [← toNat_clusterNo, ← he] at hmod
      exact hsmall hmod
    rw [if_neg hsmall, List.filter_cons_of_pos (by simpa using hne), hrest]

/-- Calls in a row return -1 or what the free entries offer. -/
theorem mem_offered_of_mem {n : ℕ} {s : Fs κ} {x : UInt32} (h : x ∈ allocations drv vol n s)
    (hx : x ≠ 0xffffffff) : x ∈ offered (freeEntries vol s.fat) := by
  induction n generalizing s with
  | zero => simp [allocations] at h
  | succ n ih =>
    rw [mem_allocations_succ] at h
    cases hfree : freeEntries vol s.fat with
    | nil =>
      obtain ⟨hout, hnext⟩ := allocFree_none drv hfree
      rcases h with he | hin
      · exact absurd (he.trans hout) hx
      · have hoff := ih hin
        rwa [hnext] at hoff
    | cons c rest =>
      obtain ⟨hout, hnext⟩ := allocFree_cons drv hfree
      rw [offered]
      rcases h with he | hin
      · rw [he, hout]
        split <;> exact List.mem_cons_self
      · have hoff := ih hin
        rw [hnext] at hoff
        split at hoff
        · rename_i hsmall
          rw [if_pos hsmall]
          exact List.mem_cons_of_mem _ hoff
        · rename_i hlarge
          rw [offered, if_neg hlarge] at hoff
          rwa [if_neg hlarge]

/-- Everything that the free entries offer is returned by some call. -/
theorem exists_mem_allocations (drv : Driver κ) {s : Fs κ} {x : UInt32} {cs : List UInt32}
    (hfree : freeEntries vol s.fat = cs) (h : x ∈ offered cs) :
    ∃ n, x ∈ allocations drv vol n s := by
  induction cs generalizing s with
  | nil => simp [offered] at h
  | cons c rest ih =>
    obtain ⟨hout, hnext⟩ := allocFree_cons drv hfree
    have hfirst : c ∈ allocations drv vol 1 s := mem_allocations_succ.mpr (Or.inl hout.symm)
    rw [offered] at h
    split at h
    · rename_i hsmall
      rcases List.mem_cons.mp h with rfl | hin
      · exact ⟨1, hfirst⟩
      · rw [if_pos hsmall] at hnext
        obtain ⟨n, hn⟩ := ih hnext hin
        exact ⟨n + 1, mem_allocations_succ.mpr (Or.inr hn)⟩
    · rw [List.mem_singleton.mp h]
      exact ⟨1, hfirst⟩

/-! ## The partition -/

/-- All sectors of a cluster lie in a partition. -/
def InPartition (p : Partition) (vol : Volume) (c : UInt32) : Prop :=
  ∀ j < vol.id.sectorsPerCluster.toNat, p.lbaBegin.toNat ≤ (sectorLba vol c j).toNat ∧
    (sectorLba vol c j).toNat < p.lbaBegin.toNat + p.numSectors.toNat

/-- The number of clusters in the part of a partition behind the FATs. -/
def partitionClusters (p : Partition) (v : VolumeId) : ℕ :=
  (p.lbaBegin.toNat + p.numSectors.toNat - dataBegin p.lbaBegin v) / v.sectorsPerCluster.toNat

/-- A geometry in which cluster numbers count from 2 and neither they nor the addresses of the
clusters that have a FAT entry are cut short. -/
structure PlainGeometry (lbaBegin : UInt32) (vol : Volume) : Prop where
  root : vol.data.rootDirFirstCluster = 2
  sectors : 0 < vol.id.sectorsPerCluster.toNat
  entries : 2 ≤ vol.fatEnd ∧ vol.fatEnd.toNat ≤ 2 ^ 28
  fits : DataFits lbaBegin vol.id (vol.fatEnd.toNat - 2)

/-- In a plain geometry the clusters in the partition are those whose number is not too large
for it. -/
theorem PlainGeometry.inPartition_iff {p : Partition} (h : PlainGeometry p.lbaBegin vol)
    (hdata : vol.data = fatVolumeData p.lbaBegin vol.id) {c : UInt32} (htwo : 2 ≤ c.toNat)
    (hlt : c.toNat < vol.fatEnd.toNat) :
    InPartition p vol c ↔ IsDataCluster (partitionClusters p vol.id) c := by
  have hcount : vol.CountsFromTwo := ⟨by rw [hdata]; rfl, h.root⟩
  have hc : IsDataCluster (vol.fatEnd.toNat - 2) c := ⟨htwo, by omega⟩
  have hlba := fun j hj => h.fits.toNat_sectorLba hdata hcount hc (j := j) hj
  have hpos := h.sectors
  have hbegin : p.lbaBegin.toNat ≤ dataBegin p.lbaBegin vol.id := by
    rw [dataBegin]
    omega
  have hnum : IsDataCluster (partitionClusters p vol.id) c ↔
      (c.toNat - 2) * vol.id.sectorsPerCluster.toNat + vol.id.sectorsPerCluster.toNat ≤
        p.lbaBegin.toNat + p.numSectors.toNat - dataBegin p.lbaBegin vol.id := by
    rw [← Nat.succ_mul, ← Nat.le_div_iff_mul_le hpos, IsDataCluster, partitionClusters]
    omega
  rw [hnum]
  constructor
  · intro hin
    have hlast := (hin (vol.id.sectorsPerCluster.toNat - 1) (by omega)).2
    rw [hlba _ (by omega)] at hlast
    omega
  · intro hle j hj
    rw [hlba j hj]
    omega

/-- The clusters that allocations in a row return, starting with the FAT that `fat32_init` has
loaded, lie in the chosen partition exactly when those of the free entries do: in a plain
geometry, when no entry is free behind the last cluster of the partition. -/
theorem allocations_inPartition_iff {ram : UInt32 → UInt32} {dev : κ} {st : InitState κ}
    {s : Fs κ} (hscan : partitionScan drv dev = .ok st)
    (hinit : fat32Init drv ram dev = .ok (vol, s)) :
    ((∀ n, ∀ c ∈ allocations drv vol n s, c ≠ 0xffffffff →
        InPartition (st.bootSector.partition st.chosenPartition) vol c) ↔
      ∀ c ∈ offered (freeEntries vol s.fat),
        InPartition (st.bootSector.partition st.chosenPartition) vol c) ∧
    (PlainGeometry (st.bootSector.partition st.chosenPartition).lbaBegin vol →
      ((∀ c ∈ offered (freeEntries vol s.fat),
          InPartition (st.bootSector.partition st.chosenPartition) vol c) ↔
        ∀ c, 2 ≤ c.toNat → c.toNat < vol.fatEnd.toNat → s.fat c = 0 → c.toNat ≤
          partitionClusters (st.bootSector.partition st.chosenPartition) vol.id + 1)) := by
  constructor
  · constructor
    · intro hall c hc
      obtain ⟨n, hn⟩ := exists_mem_allocations drv rfl hc
      refine hall n c hn ?_
      rintro rfl
      exact absurd (mem_freeEntries.mp (offered_subset hc)).2.1 (allOnes_not_ahead vol)
    · intro hall n c hc hne
      exact hall c (mem_offered_of_mem hc hne)
  · intro hplain
    rw [fat32Init_eq_map, hscan] at hinit
    obtain rfl := (Prod.mk.inj (Except.ok.inj hinit)).1
    have hdata : st.volume.data = fatVolumeData
        (st.bootSector.partition st.chosenPartition).lbaBegin st.volume.id := by
      cases partitionScan_volume hscan with
      | inl hdata => exact hdata
      | inr hzero =>
        -- without a FAT the geometry is not plain
        have hend : st.volume.fatEnd = 0 := by
          rw [Volume.fatEnd, hzero, mul_zero]
          rfl
        have htwo := hplain.entries.1
        rw [hend] at htwo
        exact absurd htwo (by decide)
    -- with at most `2 ^ 28` entries all free ones are offered
    have hoff : offered (freeEntries st.volume s.fat) = freeClusters st.volume s.fat := by
      rw [freeEntries_eq hplain.entries.1]
      refine offered_eq_self fun c hc => ?_
      exact lt_of_lt_of_le (mem_freeClusters.mp hc).1.lt hplain.entries.2
    rw [hoff]
    constructor
    · intro hall c htwo hlt hfree
      have hrange : st.volume.InRange c :=
        ⟨UInt32.le_iff_toNat_le.mpr htwo, UInt32.lt_iff_toNat_lt.mpr hlt⟩
      exact ((hplain.inPartition_iff hdata htwo hlt).mp
        (hall c (mem_freeClusters.mpr ⟨hrange, hfree⟩))).2
    · intro hall c hc
      obtain ⟨hrange, hfree⟩ := mem_freeClusters.mp hc
      exact (hplain.inPartition_iff hdata hrange.two_le hrange.lt).mpr
        ⟨hrange.two_le, hall c hrange.two_le hrange.lt hfree⟩

/-- What `fat32_init` leaves of a card whose only partition has a FAT of one sector. -/
theorem mounted_one (disk : UInt32 → Sector) {i : Fin 4}
    (hone : usedPartitions (bootState sdDriver ⟨disk, []⟩).bootSector = [i])
    (hsize : (cardVolume disk i).id.bytesPerSector = 512)
    (hspf : (cardVolume disk i).id.sectorsPerFat.toNat = 1) (ram : UInt32 → UInt32) :
    partitionScan sdDriver ⟨disk, []⟩ = .ok (chosenState sdDriver ⟨disk, []⟩ i) ∧
      ∃ s, fat32Init sdDriver ram ⟨disk, []⟩ = .ok (cardVolume disk i, s) ∧
        LoadsFat (cardVolume disk i) disk s.fat := by
  have hscan := partitionScan_one hone hsize
  have hmap := fat32Init_eq_map sdDriver ⟨disk, []⟩ ram
  rw [hscan, Except.map, chosenState_volume] at hmap
  have hloads : LoadsFat (cardVolume disk i) (BlockStore.Store.current ⟨disk, []⟩)
      (loadFat sdDriver (cardVolume disk i).data.fatBeginLba 0
        (cardVolume disk i).id.sectorsPerFat.toNat ⟨ram, ⟨disk, []⟩⟩).fat :=
    loadFat_one hspf hsize ram
  exact ⟨hscan, _, hmap, hloads⟩

theorem allocations_inPartition_fresh :
    ∃ s, fat32Init sdDriver (fun _ => 1) ⟨freshCard, []⟩ = .ok (cardVolume freshCard 0, s) ∧
      ∀ n, ∀ c ∈ allocations sdDriver (cardVolume freshCard 0) n s, c ≠ 0xffffffff →
        InPartition ((freshCard 0).partition 0) (cardVolume freshCard 0) c := by
  obtain ⟨hscan, s, hinit, -⟩ := mounted_one freshCard (i := 0) (by decide) (by decide)
    (by decide) fun _ => 1
  have hplain : PlainGeometry ((freshCard 0).partition 0).lbaBegin (cardVolume freshCard 0) :=
    ⟨by decide, by decide, ⟨by decide, by decide⟩, by decide⟩
  obtain ⟨hinside, hbound⟩ := allocations_inPartition_iff hscan hinit
  refine ⟨s, hinit, hinside.mpr ((hbound hplain).mpr fun c _ hlt _ => ?_)⟩
  have hend : (cardVolume freshCard 0).fatEnd.toNat = 128 := by decide
  have hclusters : partitionClusters ((freshCard 0).partition 0) (cardVolume freshCard 0).id =
      253 := by decide
  show c.toNat ≤ partitionClusters ((freshCard 0).partition 0) (cardVolume freshCard 0).id + 1
  omega

/-- The fresh card with a partition of four sectors: two clusters. -/
def tightCard : UInt32 → Sector := fun lba =>
  if lba = 0 then Function.update (freshCard 0) 458 4 else freshCard lba

/-- There the second allocation returns a cluster behind the partition. -/
theorem tightCard_outside :
    ¬ ∀ (st : InitState Card) (vol : Volume) (s : Fs Card),
      partitionScan sdDriver ⟨tightCard, []⟩ = .ok st →
      fat32Init sdDriver (fun _ => 0) ⟨tightCard, []⟩ = .ok (vol, s) →
      ∀ n, ∀ c ∈ allocations sdDriver vol n s, c ≠ 0xffffffff →
        InPartition (st.bootSector.partition st.chosenPartition) vol c := by
  intro h
  obtain ⟨hscan, s, hinit, hloads⟩ := mounted_one tightCard (i := 0) (by decide)
    (by decide) (by decide) fun _ => 0
  have hfree : (4 : UInt32) ∈ offered (freeEntries (cardVolume tightCard 0) s.fat) := by
    rw [offered_eq_self]
    · exact mem_freeEntries.mpr ⟨by decide, by decide, hloads.words 4 (by decide)⟩
    · intro c hc
      have hlt := (mem_freeEntries.mp hc).2.1
      have hahead : entriesAhead (cardVolume tightCard 0) = 126 := by decide
      omega
  obtain ⟨n, hn⟩ := exists_mem_allocations sdDriver rfl hfree
  have hin := h _ _ s hscan hinit n 4 hn (by decide) 0 (by decide)
  exact absurd hin.2 (by decide)

end NaiveGfs
