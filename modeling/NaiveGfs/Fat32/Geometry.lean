import NaiveGfs.Fat32.Acceptance
import NaiveGfs.Fat32.FlakyCard

/-!
# Where clusters lie

`cluster_no_to_lba` subtracts the first cluster of the root directory, while the FAT format
counts clusters from 2 and `fat32_get_cluster_no` begins at cluster 2. On the volumes that
`fat32_init` accepts both are right together, exactly when the root directory begins at
cluster 2.
-/

namespace NaiveGfs

variable {κ : Type} {vol : Volume}

/-! ## The sectors of a directory -/

/-- The sectors that a walk along the links from `start` reads in its first `n` clusters, when
nothing stops it. From -1 there is no walk. -/
def directoryReads (vol : Volume) (fat : UInt32 → UInt32) (start : UInt32) (n : ℕ) :
    List UInt32 :=
  if start = 0xffffffff then []
  else (walkSectorsFrom vol fat start n).map fun p => sectorLba vol p.1 p.2

/-- The sector and the record in it at which a walk stops. -/
def Stop.place {α : Type} (vol : Volume) (st : Stop α) : UInt32 × Fin 16 :=
  (slotLba vol st.slot, st.slot.idx)

/-- Where a walk stops depends only on the sectors that it reads. -/
theorem firstStop_place {α : Type} {f : Faults} {disk : UInt32 → Sector}
    {visit : DirRecord → Option α} {r : ℕ} {buf : Sector} {ps qs : List (UInt32 × ℕ)}
    (h : ps.map (fun p => sectorLba vol p.1 p.2) = qs.map fun p => sectorLba vol p.1 p.2) :
    (firstStop f vol disk visit r buf ps).map (Stop.place vol) =
      (firstStop f vol disk visit r buf qs).map (Stop.place vol) := by
  induction ps generalizing r buf qs with
  | nil =>
    obtain rfl : qs = [] := List.map_eq_nil_iff.mp h.symm
    rfl
  | cons p ps ih =>
    cases qs with
    | nil => simp at h
    | cons q qs =>
      obtain ⟨c, j⟩ := p
      obtain ⟨d, k⟩ := q
      obtain ⟨hlba, hrest⟩ := List.cons.inj h
      simp only at hlba
      rw [firstStop, firstStop, hlba]
      cases walkRecords visit (if f.read r then buf else disk (sectorLba vol d k)) with
      | none => exact ih hrest
      | some hit =>
        show some (sectorLba vol c j, hit.1) = some (sectorLba vol d k, hit.1)
        rw [hlba]

/-- `fat32_get_cluster_no` reads the directory that `fat32_alloc_local_file` inserts into,
whatever the FAT is. -/
def SameRoot (vol : Volume) : Prop :=
  ∀ fat n, directoryReads vol fat fat32RootClusterNo n =
    directoryReads vol fat vol.data.rootDirFirstCluster n

/-- The sector and the record in it at which a loop over the clusters ends. -/
def WalkEnd.place {α : Type} (vol : Volume) : WalkEnd κ α → Option (UInt32 × Fin 16)
  | .hit cur sectorNo i _ _ _ => some (sectorLba vol cur sectorNo, i)
  | .exhausted _ _ _ _ => none

theorem walkClusters_place {α : Type} {f : Faults} (t : FlakyCard) (fat : UInt32 → UInt32)
    (visit : DirRecord → Option α) (fuel : ℕ) {start : UInt32} (hstart : start ≠ 0xffffffff)
    (prev : UInt32) (buf : Sector) :
    (walkClusters (flakyDriver f) vol fat visit fuel start prev t buf).bind (WalkEnd.place vol) =
      (firstStop f vol t.disk visit t.reads buf (walkSectorsFrom vol fat start fuel)).map
        (Stop.place vol) := by
  rw [walkClusters_flaky fuel hstart]
  cases firstStop f vol t.disk visit t.reads buf (walkSectorsFrom vol fat start fuel) with
  | none => rfl
  | some st => rfl

/-- Then the loops of both functions, looking for the same kind of record, end at the same
place, on every card and with every FAT. -/
theorem SameRoot.place (h : SameRoot vol) (hroot : vol.data.rootDirFirstCluster ≠ 0xffffffff)
    {α : Type} {f : Faults} (t : FlakyCard) (fat : UInt32 → UInt32)
    (visit : DirRecord → Option α) (fuel : ℕ) (prev prev' : UInt32) (buf : Sector) :
    (walkClusters (flakyDriver f) vol fat visit fuel fat32RootClusterNo prev t buf).bind
        (WalkEnd.place vol) =
      (walkClusters (flakyDriver f) vol fat visit fuel vol.data.rootDirFirstCluster prev' t
        buf).bind (WalkEnd.place vol) := by
  have hreads := h fat fuel
  rw [directoryReads, directoryReads, if_neg (by decide), if_neg hroot] at hreads
  rw [walkClusters_place t fat visit fuel (by decide), walkClusters_place t fat visit fuel hroot]
  exact firstStop_place hreads

/-- The sectors of the first two clusters. -/
theorem directoryReads_two (vol : Volume) (fat : UInt32 → UInt32) {start : UInt32}
    (hstart : start ≠ 0xffffffff) :
    directoryReads vol fat start 2 =
      (List.range vol.id.sectorsPerCluster.toNat).map (sectorLba vol start) ++
        (List.range vol.id.sectorsPerCluster.toNat).map
          (sectorLba vol (fat32NextCluster fat start)) := by
  rw [directoryReads, if_neg hstart, walkSectorsFrom_succ, walkSectorsFrom_succ,
    List.map_append, List.map_append, List.map_map, List.map_map]
  show _ ++ (_ ++ []) = _
  rw [List.append_nil]
  rfl

/-- Both directories are the same for every FAT only when they begin at the same cluster, or
clusters have no sectors. -/
theorem sameRoot_iff (hsectors : vol.data.sectorsPerCluster = vol.id.sectorsPerCluster) :
    SameRoot vol ↔ vol.data.rootDirFirstCluster = 2 ∨ vol.id.sectorsPerCluster = 0 := by
  constructor
  · intro h
    by_contra hne
    obtain ⟨hroot, hzero⟩ := not_or.mp hne
    have hpos : 0 < vol.id.sectorsPerCluster.toNat := by
      apply Nat.pos_of_ne_zero
      intro he
      exact hzero (UInt8.toNat_inj.mp he)
    -- a table that leads from cluster 2 to cluster 2 and from all others to cluster 3
    have hreads := h (fun c => if c = 2 then 2 else 3) 2
    -- from -1 nothing would be read
    have hreal : vol.data.rootDirFirstCluster ≠ 0xffffffff := by
      intro he
      rw [directoryReads_two _ _ (by decide), he, directoryReads, if_pos rfl] at hreads
      have hlen := congrArg List.length hreads
      simp only [List.length_append, List.length_map, List.length_range, List.length_nil] at hlen
      omega
    rw [directoryReads_two _ _ (by decide), directoryReads_two _ _ hreal] at hreads
    have hsecond := (List.append_inj hreads (by simp)).2
    have hfirst := congrArg (fun l => l[0]?) hsecond
    simp only [List.getElem?_map, List.getElem?_range hpos, Option.map_some,
      Option.some.injEq] at hfirst
    have hlinks : fat32NextCluster (fun c => if c = 2 then 2 else 3) fat32RootClusterNo = 2 ∧
        fat32NextCluster (fun c => if c = 2 then 2 else 3) vol.data.rootDirFirstCluster = 3 :=
      ⟨rfl, by rw [fat32NextCluster, if_neg hroot]; rfl⟩
    rw [hlinks.1, hlinks.2, ← Volume.clusterNoToLba_eq_sectorLba,
      ← Volume.clusterNoToLba_eq_sectorLba, clusterNoToLba, clusterNoToLba] at hfirst
    -- the second cluster is 2 in one directory and 3 in the other, a cluster further
    have hmul : (3 - vol.data.rootDirFirstCluster) * vol.data.sectorsPerCluster.toUInt32 =
        (2 - vol.data.rootDirFirstCluster) * vol.data.sectorsPerCluster.toUInt32 +
          vol.data.sectorsPerCluster.toUInt32 := by grind
    rw [hmul, ← add_assoc, left_eq_add, hsectors] at hfirst
    have hnat := congrArg UInt32.toNat hfirst
    rw [UInt8.toNat_toUInt32] at hnat
    exact hpos.ne' hnat
  · rintro (hroot | hzero)
    · intro fat n
      rw [hroot]
      rfl
    · intro fat n
      have hnil : ∀ start, walkSectorsFrom vol fat start n = [] := by
        intro start
        rw [walkSectorsFrom, hzero]
        exact List.flatMap_eq_nil_iff.mpr fun _ _ => rfl
      simp [directoryReads, hnil]

/-! ## The sectors of clusters -/

/-- The first sector of the data region of a volume at `lbaBegin`, not modulo `2 ^ 32`. -/
def dataBegin (lbaBegin : UInt32) (v : VolumeId) : ℕ :=
  lbaBegin.toNat + v.numReservedSectors.toNat + v.sectorsPerFat.toNat * v.numFats.toNat

/-- The data region of a volume with `n` data clusters lies below sector `2 ^ 32`. -/
def DataFits (lbaBegin : UInt32) (v : VolumeId) (n : ℕ) : Prop :=
  dataBegin lbaBegin v + n * v.sectorsPerCluster.toNat ≤ 2 ^ 32

instance (lbaBegin : UInt32) (v : VolumeId) (n : ℕ) : Decidable (DataFits lbaBegin v n) :=
  inferInstanceAs (Decidable (_ ≤ _))

/-- One of the `n` data clusters, which are counted from 2. -/
def IsDataCluster (n : ℕ) (c : UInt32) : Prop := 2 ≤ c.toNat ∧ c.toNat ≤ n + 1

theorem IsDataCluster.mul_le {n : ℕ} {c : UInt32} (hc : IsDataCluster n c) (spc : ℕ) :
    (c.toNat - 2) * spc + spc ≤ n * spc := by
  obtain ⟨htwo, hle⟩ := hc
  rw [← Nat.succ_mul]
  exact Nat.mul_le_mul_right spc (by omega)

/-- The clusters of a volume at `lbaBegin` with `n` data clusters are where they should be. -/
structure AddressesRight (lbaBegin : UInt32) (vol : Volume) (n : ℕ) : Prop where
  value : ∀ c, IsDataCluster n c → (clusterNoToLba vol c).toNat =
    vol.data.clusterBeginLba.toNat + (c.toNat - 2) * vol.id.sectorsPerCluster.toNat
  disjoint : ∀ c d, IsDataCluster n c → IsDataCluster n d → c ≠ d →
    ∀ i < vol.id.sectorsPerCluster.toNat, ∀ j < vol.id.sectorsPerCluster.toNat,
      sectorLba vol c i ≠ sectorLba vol d j
  inside : ∀ c, IsDataCluster n c → ∀ j < vol.id.sectorsPerCluster.toNat,
    dataBegin lbaBegin vol.id ≤ (sectorLba vol c j).toNat ∧ (sectorLba vol c j).toNat <
      dataBegin lbaBegin vol.id + n * vol.id.sectorsPerCluster.toNat
  reserved : ∀ c, IsDataCluster n c → ∀ j < vol.id.sectorsPerCluster.toNat,
    ∀ r < vol.id.numReservedSectors.toNat, (sectorLba vol c j).toNat ≠ lbaBegin.toNat + r
  fats : ∀ c, IsDataCluster n c → ∀ j < vol.id.sectorsPerCluster.toNat,
    ∀ copy < vol.id.numFats.toNat, ∀ r < vol.id.sectorsPerFat.toNat, (sectorLba vol c j).toNat ≠
      lbaBegin.toNat + vol.id.numReservedSectors.toNat + copy * vol.id.sectorsPerFat.toNat + r
  root : SameRoot vol

theorem toNat_clusterBeginLba (lbaBegin : UInt32) (v : VolumeId) :
    (fatVolumeData lbaBegin v).clusterBeginLba.toNat = dataBegin lbaBegin v % 2 ^ 32 := by
  show (lbaBegin + v.numReservedSectors.toUInt32 +
    v.sectorsPerFat * v.numFats.toUInt32).toNat = _
  rw [UInt32.toNat_add, UInt32.toNat_add, UInt32.toNat_mul, UInt16.toNat_toUInt32,
    UInt8.toNat_toUInt32, dataBegin]
  omega

/-- A copy of the FAT lies in front of the data region. -/
theorem fatCopy_lt (lbaBegin : UInt32) {v : VolumeId} {copy r : ℕ}
    (hcopy : copy < v.numFats.toNat) (hr : r < v.sectorsPerFat.toNat) :
    lbaBegin.toNat + v.numReservedSectors.toNat + copy * v.sectorsPerFat.toNat + r <
      dataBegin lbaBegin v := by
  have hle : (copy + 1) * v.sectorsPerFat.toNat ≤ v.sectorsPerFat.toNat * v.numFats.toNat := by
    rw [Nat.mul_comm]
    exact Nat.mul_le_mul_left _ hcopy
  rw [Nat.add_mul, Nat.one_mul] at hle
  rw [dataBegin]
  omega

section Layout

variable {lbaBegin : UInt32} {n : ℕ}

/-- A data cluster lies below sector `2 ^ 32`. -/
theorem DataFits.fits (hfits : DataFits lbaBegin vol.id n)
    (hdata : vol.data = fatVolumeData lbaBegin vol.id) {c : UInt32} (hc : IsDataCluster n c) :
    vol.Fits c := by
  have hmod := Nat.mod_le (dataBegin lbaBegin vol.id) (2 ^ 32)
  have hmul := hc.mul_le vol.id.sectorsPerCluster.toNat
  rw [DataFits] at hfits
  refine ⟨hc.1, ?_⟩
  rw [hdata, toNat_clusterBeginLba, Nat.add_mul, Nat.one_mul]
  omega

/-- A sector of a data cluster, for a root directory that begins at cluster 2. -/
theorem DataFits.toNat_sectorLba (hfits : DataFits lbaBegin vol.id n)
    (hdata : vol.data = fatVolumeData lbaBegin vol.id) (hcount : vol.CountsFromTwo) {c : UInt32}
    (hc : IsDataCluster n c) {j : ℕ} (hj : j < vol.id.sectorsPerCluster.toNat) :
    (sectorLba vol c j).toNat =
      dataBegin lbaBegin vol.id + (c.toNat - 2) * vol.id.sectorsPerCluster.toNat + j := by
  have hmul := hc.mul_le vol.id.sectorsPerCluster.toNat
  have hlt : dataBegin lbaBegin vol.id < 2 ^ 32 := by
    rw [DataFits] at hfits
    omega
  rw [hcount.toNat_sectorLba (hfits.fits hdata hc) hj, hdata, toNat_clusterBeginLba,
    Nat.mod_eq_of_lt hlt]

/-- Counting from cluster 2 puts every data cluster where it should be. -/
theorem addressesRight_of_two (hfits : DataFits lbaBegin vol.id n)
    (hdata : vol.data = fatVolumeData lbaBegin vol.id)
    (hroot : vol.data.rootDirFirstCluster = 2) : AddressesRight lbaBegin vol n := by
  have hsectors : vol.data.sectorsPerCluster = vol.id.sectorsPerCluster := by rw [hdata]; rfl
  have hcount : vol.CountsFromTwo := ⟨hsectors, hroot⟩
  have hinside : ∀ c, IsDataCluster n c → ∀ j < vol.id.sectorsPerCluster.toNat,
      dataBegin lbaBegin vol.id ≤ (sectorLba vol c j).toNat ∧ (sectorLba vol c j).toNat <
        dataBegin lbaBegin vol.id + n * vol.id.sectorsPerCluster.toNat := by
    intro c hc j hj
    have hmul := hc.mul_le vol.id.sectorsPerCluster.toNat
    rw [hfits.toNat_sectorLba hdata hcount hc hj]
    omega
  exact {
    value := fun c hc => hcount.toNat_clusterNoToLba (hfits.fits hdata hc)
    disjoint := fun c d hc hd hne i hi j hj he =>
      hne (hcount.sectorLba_inj (hfits.fits hdata hc) (hfits.fits hdata hd) hi hj he).1
    inside := hinside
    reserved := by
      intro c hc j hj r hr
      have hle := (hinside c hc j hj).1
      rw [dataBegin] at hle
      omega
    fats := by
      intro c hc j hj copy hcopy r hr
      have hle := (hinside c hc j hj).1
      have hlt := fatCopy_lt lbaBegin hcopy hr
      omega
    root := (sameRoot_iff hsectors).mpr (Or.inl hroot) }

/-- Clusters without sectors are in nobody's way. -/
theorem addressesRight_of_zero (hdata : vol.data = fatVolumeData lbaBegin vol.id)
    (hzero : vol.id.sectorsPerCluster = 0) : AddressesRight lbaBegin vol n := by
  have hsectors : vol.data.sectorsPerCluster = vol.id.sectorsPerCluster := by rw [hdata]; rfl
  have hnone : ∀ j, ¬ j < vol.id.sectorsPerCluster.toNat := by
    intro j
    rw [hzero]
    exact Nat.not_lt_zero j
  exact {
    value := by
      intro c hc
      rw [clusterNoToLba, hsectors, hzero]
      show (_ + _ * (0 : UInt32)).toNat = _ + _ * 0
      rw [mul_zero, add_zero, Nat.mul_zero, Nat.add_zero]
    disjoint := fun c d _ _ _ i hi => absurd hi (hnone i)
    inside := fun c _ j hj => absurd hj (hnone j)
    reserved := fun c _ j hj => absurd hj (hnone j)
    fats := fun c _ j hj => absurd hj (hnone j)
    root := (sameRoot_iff hsectors).mpr (Or.inr hzero) }

end Layout

/-- On a volume that `fat32_init` accepts, with a data region below sector `2 ^ 32`, clusters
and the root directory are where they should be exactly when the root directory begins at
cluster 2. -/
theorem fat32Init_addressesRight_iff {drv : Driver κ} {fat : UInt32 → UInt32} {dev : κ}
    {s : Fs κ} (hinit : fat32Init drv fat dev = .ok (vol, s)) {i : Fin 4}
    (hi : i ∈ usedPartitions (bootState drv dev).bootSector) {n : ℕ}
    (hfits : DataFits ((bootState drv dev).bootSector.partition i).lbaBegin vol.id n) :
    AddressesRight ((bootState drv dev).bootSector.partition i).lbaBegin vol n ↔
      vol.data.rootDirFirstCluster = 2 ∨ vol.id.sectorsPerCluster = 0 := by
  have hdata : vol.data = fatVolumeData
      ((bootState drv dev).bootSector.partition i).lbaBegin vol.id := by
    rcases fat32Init_cases hinit with ⟨hnone, -⟩ | ⟨k, hone, -, rfl⟩
    · rw [hnone] at hi
      exact absurd hi (by simp)
    · rw [hone, List.mem_singleton] at hi
      rw [hi]
      rfl
  constructor
  · intro h
    exact (sameRoot_iff (by rw [hdata]; rfl)).mp h.root
  · rintro (htwo | hzero)
    · exact addressesRight_of_two hfits hdata htwo
    · exact addressesRight_of_zero hdata hzero

theorem fat32Init_addressesRight_fresh :
    ∃ s, fat32Init sdDriver (fun _ => 1) ⟨freshCard, []⟩ = .ok (cardVolume freshCard 0, s) ∧
      AddressesRight 1 (cardVolume freshCard 0) 126 := by
  obtain ⟨s, hinit, -⟩ := freshCard_wellFormed.init fun _ => 1
  exact ⟨s, hinit, (fat32Init_addressesRight_iff (i := 0) hinit (by decide)
    (by decide)).mpr (Or.inl (by decide))⟩

/-- The fresh card with its root directory at cluster 3. -/
def rootThreeCard : UInt32 → Sector := fun lba =>
  if lba = 1 then Function.update (freshCard 1) 44 3 else freshCard lba

/-- There cluster 2 comes out as the sector of the FAT. -/
theorem rootThreeCard_cluster_two :
    ¬ ∀ (vol : Volume) (s : Fs Card) (n : ℕ) (i : Fin 4),
      fat32Init sdDriver (fun _ => 0) ⟨rootThreeCard, []⟩ = .ok (vol, s) →
      2 ≤ vol.data.rootDirFirstCluster →
      i ∈ usedPartitions (bootState sdDriver ⟨rootThreeCard, []⟩).bootSector →
      DataFits ((bootState sdDriver ⟨rootThreeCard, []⟩).bootSector.partition i).lbaBegin
        vol.id n →
      AddressesRight ((bootState sdDriver ⟨rootThreeCard, []⟩).bootSector.partition i).lbaBegin
        vol n := by
  intro h
  have hinit : fat32Init sdDriver (fun _ => 0) ⟨rootThreeCard, []⟩ =
      .ok (cardVolume rootThreeCard 0, _) :=
    fat32Init_eq _ rfl (by decide) (by decide) (by decide)
  have hright := h _ _ 126 0 hinit (by decide) (by decide) (by decide)
  have hfat := hright.fats 2 ⟨by decide, by decide⟩ 0 (by decide) 0 (by decide) 0 (by decide)
  exact hfat (by decide)

end NaiveGfs
