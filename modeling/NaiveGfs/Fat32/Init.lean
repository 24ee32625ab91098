import NaiveGfs.Fat32.Alloc

/-!
# Mounting the card

`fat32_init` looks for the one partition in use, reads its volume id, computes where the FAT
and the clusters begin, and reads the FAT into the memory from `kernel_end` on. The loop of
the last step advances by a `struct sector`, which is declared with `SD_SECTOR_SIZE` words
and so is four sectors long: only the first FAT sector lands at its place.
-/

namespace NaiveGfs

variable {κ : Type}

/-- `boot_sector`, `all_vol_ids`, `vol_data` and `chosen_partition` with the local count of
partitions, and the device. -/
structure InitState (κ : Type) where
  bootSector : Sector
  allVolIds : Fin 4 → Sector
  volData : Fin 4 → FatVolumeData
  chosenPartition : Fin 4
  numValidPartitions : ℕ
  dev : κ

/-- The static memory before the first call. -/
def InitState.zero (dev : κ) : InitState κ where
  bootSector := blankSector
  allVolIds := fun _ => blankSector
  volData := fun _ => ⟨0, 0, 0, 0⟩
  chosenPartition := 0
  numValidPartitions := 0
  dev := dev

/-- The `vol_data` entry of a partition that begins at `lbaBegin`. -/
def fatVolumeData (lbaBegin : UInt32) (v : VolumeId) : FatVolumeData :=
  let fatBeginLba := lbaBegin + v.numReservedSectors.toUInt32
  { fatBeginLba := fatBeginLba
    clusterBeginLba := fatBeginLba + v.sectorsPerFat * v.numFats.toUInt32
    sectorsPerCluster := v.sectorsPerCluster
    rootDirFirstCluster := v.rootDirFirstCluster }

/-- The words of memory that a `readsector` into the address of word `start` replaces. -/
def memSector (fat : UInt32 → UInt32) (start : UInt32) : Sector :=
  Sector.ofWords fun j => fat (start + UInt32.ofNat j.val)

/-- The memory with a sector stored at the address of word `start`. -/
def storeSector (fat : UInt32 → UInt32) (start : UInt32) (buf : Sector) : UInt32 → UInt32 :=
  fun k => if h : (k - start).toNat < 128 then buf.word ⟨(k - start).toNat, h⟩ else fat k

section Code

variable (drv : Driver κ)

/-- One round of the loop over the partition table. -/
def initPartition (i : Fin 4) (st : InitState κ) : Except String (InitState κ) :=
  let s := st.bootSector.partition i
  if s.numSectors = 0 then .ok st
  else if st.numValidPartitions + 1 = 2 then
    .error "Found more than 1 valid partitions on this pi, don't know which to choose.\n"
  else
    let (dev, sector) := drv.readsector st.dev s.lbaBegin (st.allVolIds i)
    if sector.volumeId.bytesPerSector ≠ 512 then
      .error "Partition uses different sector size than sd driver.\n"
    else
      .ok { st with
        allVolIds := Function.update st.allVolIds i sector
        volData := Function.update st.volData i (fatVolumeData s.lbaBegin sector.volumeId)
        chosenPartition := i
        numValidPartitions := st.numValidPartitions + 1
        dev := dev }

/-- The loop over the partition table. -/
def initPartitions (st : InitState κ) : Except String (InitState κ) :=
  (List.finRange 4).foldlM (fun st i => initPartition drv i st) st

/-- The loop that reads the FAT, from sector `i` on with `left` to go. -/
def loadFat (fatBeginLba : UInt32) : ℕ → ℕ → Fs κ → Fs κ
  | _, 0, s => s
  | i, left + 1, s =>
    -- `(struct sector *)FAT + i`
    let start := 512 * UInt32.ofNat i
    let (dev, buf) := drv.readsector s.dev (fatBeginLba + UInt32.ofNat i) (memSector s.fat start)
    loadFat fatBeginLba (i + 1) left { fat := storeSector s.fat start buf, dev := dev }

/-- `fat32_init`, which panics or returns. -/
def fat32Init (fat : UInt32 → UInt32) (dev : κ) : Except String (Volume × Fs κ) :=
  let st := InitState.zero dev
  let (dev, bootSector) := drv.readsector st.dev 0 st.bootSector
  (initPartitions drv { st with bootSector := bootSector, dev := dev }).map fun st =>
    let v := (st.allVolIds st.chosenPartition).volumeId
    let vd := st.volData st.chosenPartition
    (⟨v, vd⟩, loadFat drv vd.fatBeginLba 0 v.sectorsPerFat.toNat { fat := fat, dev := st.dev })

end Code

/-! ## A card with one partition -/

/-- The volume of partition `i` as a card has it. -/
def cardVolume (disk : UInt32 → Sector) (i : Fin 4) : Volume :=
  let lbaBegin := ((disk 0).partition i).lbaBegin
  ⟨(disk lbaBegin).volumeId, fatVolumeData lbaBegin (disk lbaBegin).volumeId⟩

/-! ## What the loader leaves in memory -/

/-- Storing a sector at or behind word 512 leaves the first 128 words alone. -/
theorem storeSector_low (fat : UInt32 → UInt32) {start k : UInt32} (buf : Sector)
    (hstart : 512 ≤ start.toNat) (hend : start.toNat ≤ 2 ^ 30) (hk : k < 128) :
    storeSector fat start buf k = fat k := by
  have hk : k.toNat < 128 := UInt32.lt_iff_toNat_lt.mp hk
  have hfar : ¬ (k - start).toNat < 128 := by
    rw [UInt32.toNat_sub]
    omega
  exact dif_neg hfar

/-- The rounds after the first leave the first 128 words alone. -/
theorem loadFat_low (fatBeginLba : UInt32) {n left : ℕ} (hn : 1 ≤ n) (hle : n + left ≤ 2 ^ 21)
    (s : Fs Card) : (loadFat sdDriver fatBeginLba n left s).dev = s.dev ∧
      ∀ k, k < 128 → (loadFat sdDriver fatBeginLba n left s).fat k = s.fat k := by
  induction left generalizing n s with
  | zero => exact ⟨rfl, fun _ _ => rfl⟩
  | succ left ih =>
    have hstart : (512 * UInt32.ofNat n).toNat = 512 * n := by
      rw [UInt32.toNat_mul, UInt32.toNat_ofNat']
      show 512 * (n % 2 ^ 32) % 2 ^ 32 = 512 * n
      omega
    obtain ⟨hdev, hfat⟩ := ih (n := n + 1) (by omega) (by omega)
      ⟨storeSector s.fat (512 * UInt32.ofNat n)
        (s.dev.current (fatBeginLba + UInt32.ofNat n)), s.dev⟩
    refine ⟨hdev, fun k hk => (hfat k hk).trans ?_⟩
    exact storeSector_low s.fat _ (by omega) (by omega) hk

/-- After `fat32_init` the entries of the first FAT sector are in memory. -/
theorem loadFat_holds {vol : Volume} (hpos : 1 ≤ vol.id.sectorsPerFat.toNat)
    (hle : vol.id.sectorsPerFat.toNat ≤ 2 ^ 21) (s : Fs Card) :
    (loadFat sdDriver vol.data.fatBeginLba 0 vol.id.sectorsPerFat.toNat s).dev = s.dev ∧
      ∀ k, k < 128 → onDiskFat vol s.disk k =
        (loadFat sdDriver vol.data.fatBeginLba 0 vol.id.sectorsPerFat.toNat s).fat k := by
  obtain ⟨left, hleft⟩ : ∃ left, vol.id.sectorsPerFat.toNat = left + 1 :=
    ⟨_, (Nat.sub_add_cancel hpos).symm⟩
  rw [hleft, loadFat]
  let first : Fs Card := ⟨storeSector s.fat (512 * UInt32.ofNat 0)
    (s.dev.current (vol.data.fatBeginLba + UInt32.ofNat 0)), s.dev⟩
  have hrounds : 1 + left ≤ 2 ^ 21 := by omega
  obtain ⟨hdev, hfat⟩ := loadFat_low vol.data.fatBeginLba (le_refl 1) hrounds first
  refine ⟨hdev, fun k hk => Eq.symm ((hfat k hk).trans ?_)⟩
  have hlt : k.toNat < 128 := UInt32.lt_iff_toNat_lt.mp hk
  have hzero : k / 128 = 0 := by
    apply UInt32.toNat_inj.mp
    rw [UInt32.toNat_div]
    exact Nat.div_eq_of_lt hlt
  have hstart : k - 512 * UInt32.ofNat 0 = k := by simp
  have hnear : (k - 512 * UInt32.ofNat 0).toNat < 128 := by rw [hstart]; exact hlt
  have hsector : fatSectorLba vol k = vol.data.fatBeginLba + UInt32.ofNat 0 := by
    rw [fatSectorLba, hzero, zero_add]
    exact (add_zero _).symm
  have hindex : (⟨(k - 512 * UInt32.ofNat 0).toNat, hnear⟩ : Fin 128) =
      ⟨k.toNat % 128, Nat.mod_lt _ (by decide)⟩ := by
    apply Fin.ext
    simp only [hstart]
    omega
  show storeSector s.fat (512 * UInt32.ofNat 0) _ k = _
  rw [storeSector, dif_pos hnear, hindex, onDiskFat, hsector]
  rfl

end NaiveGfs
