import NaiveGfs.Sd.Sector
import NaiveGfs.Storage.BlockStore

/-!
# Volumes, drivers and the mounted file system

`fat32.c` keeps the geometry of the chosen partition in `all_vol_ids[chosen_partition]` and
`vol_data[chosen_partition]`, the table itself in the memory from `kernel_end` on, and
reaches the card through the two function pointers that `fat32_init` was given. Once
`fat32_init` has returned the geometry never changes, so it is a parameter (`Volume`) and
the state (`Fs`) is the memory and the device.

The panics guarded by `did_init` do not appear: a value of type `Fs` together with a
`Volume` is what a returned `fat32_init` leaves behind, and nothing else builds one.
-/

namespace NaiveGfs

/-- `FAT32_TERMINAL_CLUSTER_NO`. -/
def fat32TerminalClusterNo : UInt32 := 0x0fffffff

/-- `FAT32_ROOT_CLUSTER_NO`. -/
def fat32RootClusterNo : UInt32 := 2

/-- `CLUSTER_NO`: the low 28 bits. -/
def clusterNo (m : UInt32) : UInt32 := fat32TerminalClusterNo &&& m

/-- `struct fat_volume_data`. -/
structure FatVolumeData where
  fatBeginLba : UInt32
  clusterBeginLba : UInt32
  sectorsPerCluster : UInt8
  rootDirFirstCluster : UInt32
deriving DecidableEq

/-- The entries of `all_vol_ids` and `vol_data` for the chosen partition. -/
structure Volume where
  id : VolumeId
  data : FatVolumeData

/-- `FAT_end - FAT`, in words. -/
def Volume.fatEnd (vol : Volume) : UInt32 :=
  vol.id.bytesPerSector.toUInt32 * vol.id.sectorsPerFat / 4

/-- The two function pointers given to `fat32_init`, for one sector at a time. A read
returns the buffer it was handed, filled or not. -/
structure Driver (κ : Type) where
  readsector : κ → UInt32 → Sector → κ × Sector
  writesector : κ → Sector → UInt32 → κ

/-- A card on which every sector access succeeds, with the log of the writes issued. -/
abbrev Card := BlockStore.Store UInt32 Sector

/-- `sd_readblock` and `sd_writeblock` when the card does not fail. -/
def sdDriver : Driver Card where
  readsector card lba _ := (card, card.current lba)
  writesector card buf lba := card.write lba buf

/-- The memory from `kernel_end` on, by word, and the device. -/
structure Fs (κ : Type) where
  fat : UInt32 → UInt32
  dev : κ

/-- What the card of a mounted file system holds now. -/
def Fs.disk (s : Fs Card) : UInt32 → Sector := s.dev.current

/-! ## Addresses -/

/-- `cluster_no_to_lba`. -/
def clusterNoToLba (vol : Volume) (c : UInt32) : UInt32 :=
  vol.data.clusterBeginLba +
    (c - vol.data.rootDirFirstCluster) * vol.data.sectorsPerCluster.toUInt32

/-- The address of sector `j` of a cluster, as the directory and cluster loops form it. -/
def sectorLba (vol : Volume) (c : UInt32) (j : ℕ) : UInt32 :=
  clusterNoToLba vol c + UInt32.ofNat j

/-- The sector of the first FAT copy that holds the entry with a given index. -/
def fatSectorLba (vol : Volume) (index : UInt32) : UInt32 :=
  index / 128 + vol.data.fatBeginLba

/-- The FAT entry with a given index as the first on-disk copy has it. -/
def onDiskFat (vol : Volume) (disk : UInt32 → Sector) (index : UInt32) : UInt32 :=
  (disk (fatSectorLba vol index)).word ⟨index.toNat % 128, Nat.mod_lt _ (by decide)⟩

/-- An index of a FAT entry that belongs to a cluster. -/
def Volume.InRange (vol : Volume) (c : UInt32) : Prop := 2 ≤ c ∧ c < vol.fatEnd

instance (vol : Volume) (c : UInt32) : Decidable (vol.InRange c) :=
  inferInstanceAs (Decidable (_ ∧ _))

theorem toNat_clusterNo (m : UInt32) : (clusterNo m).toNat = m.toNat % 2 ^ 28 := by
  have h := Nat.and_two_pow_sub_one_eq_mod m.toNat 28
  rw [clusterNo, fat32TerminalClusterNo, UInt32.toNat_and, Nat.and_comm]
  exact h

/-- A number below `2 ^ 28` survives the mask. -/
theorem clusterNo_of_lt {c : UInt32} (h : c.toNat < 2 ^ 28) : clusterNo c = c := by
  apply UInt32.toNat_inj.mp
  rw [toNat_clusterNo, Nat.mod_eq_of_lt h]

/-! ## Addresses of clusters -/

/-- A number of sectors splits into clusters of `n` and less than a cluster in one way. -/
theorem mul_add_inj_of_lt {n a b i j : ℕ} (hi : i < n) (hj : j < n)
    (h : a * n + i = b * n + j) : a = b ∧ i = j := by
  have hpos : 0 < n := by omega
  rw [Nat.mul_comm a, Nat.mul_comm b] at h
  obtain ⟨hdiv, hmod⟩ := (Nat.div_mod_unique hpos).mpr ⟨Nat.add_comm i (n * a), hi⟩
  obtain ⟨hdiv', hmod'⟩ := (Nat.div_mod_unique hpos).mpr ⟨Nat.add_comm j (n * b), hj⟩
  rw [h] at hdiv hmod
  exact ⟨hdiv.symm.trans hdiv', hmod.symm.trans hmod'⟩

namespace Volume

variable {vol : Volume}

theorem InRange.two_le {c : UInt32} (h : vol.InRange c) : 2 ≤ c.toNat :=
  UInt32.le_iff_toNat_le.mp h.1

theorem InRange.lt {c : UInt32} (h : vol.InRange c) : c.toNat < vol.fatEnd.toNat :=
  UInt32.lt_iff_toNat_lt.mp h.2

/-- `cluster_no_to_lba` counts from the cluster at which the data region begins. -/
structure CountsFromTwo (vol : Volume) : Prop where
  sectors : vol.data.sectorsPerCluster = vol.id.sectorsPerCluster
  root : vol.data.rootDirFirstCluster = 2

/-- The sectors of a cluster lie below sector `2 ^ 32`. -/
def Fits (vol : Volume) (c : UInt32) : Prop :=
  2 ≤ c.toNat ∧ vol.data.clusterBeginLba.toNat +
    (c.toNat - 2 + 1) * vol.id.sectorsPerCluster.toNat ≤ 2 ^ 32

/-- The arithmetic of `cluster_no_to_lba` does not wrap for a cluster that fits. -/
theorem CountsFromTwo.toNat_clusterNoToLba (h : vol.CountsFromTwo) {c : UInt32}
    (hc : vol.Fits c) : (clusterNoToLba vol c).toNat =
      vol.data.clusterBeginLba.toNat + (c.toNat - 2) * vol.id.sectorsPerCluster.toNat := by
  obtain ⟨htwo, hfits⟩ := hc
  have hbegin : vol.data.clusterBeginLba.toNat < 2 ^ 32 := vol.data.clusterBeginLba.toNat_lt
  have hsub : (c - 2).toNat = c.toNat - 2 :=
    UInt32.toNat_sub_of_le c 2 (UInt32.le_iff_toNat_le.mpr htwo)
  rw [Nat.add_mul, Nat.one_mul] at hfits
  rw [clusterNoToLba, h.root, h.sectors, UInt32.toNat_add, UInt32.toNat_mul, hsub,
    UInt8.toNat_toUInt32]
  cases Nat.eq_zero_or_pos vol.id.sectorsPerCluster.toNat with
  | inl hz =>
    rw [hz]
    omega
  | inr hpos =>
    have hsmall : (c.toNat - 2) * vol.id.sectorsPerCluster.toNat < 2 ^ 32 := by omega
    rw [Nat.mod_eq_of_lt hsmall, Nat.mod_eq_of_lt (by omega)]

theorem CountsFromTwo.toNat_sectorLba (h : vol.CountsFromTwo) {c : UInt32} (hc : vol.Fits c)
    {j : ℕ} (hj : j < vol.id.sectorsPerCluster.toNat) :
    (sectorLba vol c j).toNat = vol.data.clusterBeginLba.toNat +
      (c.toNat - 2) * vol.id.sectorsPerCluster.toNat + j := by
  have hspc : vol.id.sectorsPerCluster.toNat < 256 := vol.id.sectorsPerCluster.toNat_lt
  have hfits := hc.2
  rw [Nat.add_mul, Nat.one_mul] at hfits
  rw [sectorLba, UInt32.toNat_add, h.toNat_clusterNoToLba hc, UInt32.toNat_ofNat',
    Nat.mod_eq_of_lt (show j < 2 ^ 32 by omega), Nat.mod_eq_of_lt (by omega)]

/-- Sectors of clusters coincide only when both the cluster and the offset do. -/
theorem CountsFromTwo.sectorLba_inj (h : vol.CountsFromTwo) {c d : UInt32} (hc : vol.Fits c)
    (hd : vol.Fits d) {i j : ℕ} (hi : i < vol.id.sectorsPerCluster.toNat)
    (hj : j < vol.id.sectorsPerCluster.toNat) (he : sectorLba vol c i = sectorLba vol d j) :
    c = d ∧ i = j := by
  have hval := congrArg UInt32.toNat he
  rw [h.toNat_sectorLba hc hi, h.toNat_sectorLba hd hj] at hval
  have hc2 := hc.1
  have hd2 := hd.1
  have hsum : (c.toNat - 2) * vol.id.sectorsPerCluster.toNat + i =
      (d.toNat - 2) * vol.id.sectorsPerCluster.toNat + j := by omega
  obtain ⟨hcd, hij⟩ := mul_add_inj_of_lt hi hj hsum
  exact ⟨UInt32.toNat_inj.mp (by omega), hij⟩

theorem clusterNoToLba_eq_sectorLba (vol : Volume) (c : UInt32) :
    clusterNoToLba vol c = sectorLba vol c 0 := by
  rw [sectorLba]
  exact (add_zero _).symm

end Volume

/-! ## Sound geometries -/

/-- An initialised volume whose root directory starts at cluster 2, whose table has at most
`2 ^ 28` entries, and whose clusters lie behind the FAT and below sector `2 ^ 32`. -/
structure Volume.Sound (vol : Volume) : Prop extends vol.CountsFromTwo where
  sectorSize : vol.id.bytesPerSector = 512
  entries : 128 * vol.id.sectorsPerFat.toNat ≤ 2 ^ 28
  after : vol.data.fatBeginLba.toNat + vol.id.sectorsPerFat.toNat ≤
    vol.data.clusterBeginLba.toNat
  below : vol.data.clusterBeginLba.toNat +
    (128 * vol.id.sectorsPerFat.toNat - 2) * vol.id.sectorsPerCluster.toNat ≤ 2 ^ 32

namespace Volume

variable {vol : Volume}

/-- With 512-byte sectors a FAT sector holds 128 entries. -/
theorem toNat_fatEnd_of_le (hsize : vol.id.bytesPerSector = 512)
    (hentries : 128 * vol.id.sectorsPerFat.toNat ≤ 2 ^ 28) :
    vol.fatEnd.toNat = 128 * vol.id.sectorsPerFat.toNat := by
  have hsize : vol.id.bytesPerSector.toUInt32.toNat = 512 := by
    rw [hsize]
    rfl
  rw [fatEnd, UInt32.toNat_div, UInt32.toNat_mul, hsize]
  show 512 * vol.id.sectorsPerFat.toNat % 2 ^ 32 / 4 = _
  omega

theorem Sound.toNat_fatEnd (h : vol.Sound) :
    vol.fatEnd.toNat = 128 * vol.id.sectorsPerFat.toNat :=
  toNat_fatEnd_of_le h.sectorSize h.entries

theorem Sound.fatEnd_le (h : vol.Sound) : vol.fatEnd.toNat ≤ 2 ^ 28 := by
  rw [h.toNat_fatEnd]
  exact h.entries

theorem Sound.fits (h : vol.Sound) {c : UInt32} (hc : vol.InRange c) : vol.Fits c := by
  have htwo := hc.two_le
  have hlt := hc.lt
  have hbelow := h.below
  rw [h.toNat_fatEnd] at hlt
  have hmul : (c.toNat - 2 + 1) * vol.id.sectorsPerCluster.toNat ≤
      (128 * vol.id.sectorsPerFat.toNat - 2) * vol.id.sectorsPerCluster.toNat :=
    Nat.mul_le_mul_right _ (by omega)
  exact ⟨htwo, by omega⟩

/-- The FAT sectors of existing entries are those of the first copy. -/
theorem toNat_fatSectorLba (hend : vol.fatEnd.toNat = 128 * vol.id.sectorsPerFat.toNat)
    (hafter : vol.data.fatBeginLba.toNat + vol.id.sectorsPerFat.toNat ≤
      vol.data.clusterBeginLba.toNat) {k : UInt32} (hk : k < vol.fatEnd) :
    (fatSectorLba vol k).toNat = vol.data.fatBeginLba.toNat + k.toNat / 128 ∧
      (fatSectorLba vol k).toNat < vol.data.clusterBeginLba.toNat := by
  have hlt := UInt32.lt_iff_toNat_lt.mp hk
  have hbegin : vol.data.clusterBeginLba.toNat < 2 ^ 32 := vol.data.clusterBeginLba.toNat_lt
  rw [hend] at hlt
  have hval : (fatSectorLba vol k).toNat = vol.data.fatBeginLba.toNat + k.toNat / 128 := by
    rw [fatSectorLba, UInt32.toNat_add, UInt32.toNat_div]
    show (k.toNat / 128 + vol.data.fatBeginLba.toNat) % 2 ^ 32 = _
    rw [Nat.mod_eq_of_lt (by omega)]
    omega
  refine ⟨hval, ?_⟩
  rw [hval]
  omega

theorem Sound.toNat_fatSectorLba (h : vol.Sound) {k : UInt32} (hk : k < vol.fatEnd) :
    (fatSectorLba vol k).toNat = vol.data.fatBeginLba.toNat + k.toNat / 128 ∧
      (fatSectorLba vol k).toNat < vol.data.clusterBeginLba.toNat :=
  Volume.toNat_fatSectorLba h.toNat_fatEnd h.after hk

/-- No cluster starts in the FAT. -/
theorem Sound.clusterNoToLba_ne_fat (h : vol.Sound) {c k : UInt32} (hc : vol.InRange c)
    (hk : k < vol.fatEnd) : clusterNoToLba vol c ≠ fatSectorLba vol k := by
  intro he
  have hfat := (h.toNat_fatSectorLba hk).2
  rw [← he, h.toNat_clusterNoToLba (h.fits hc)] at hfat
  omega

/-- No sector of a cluster lies in the FAT. -/
theorem Sound.sectorLba_ne_fat (h : vol.Sound) {c k : UInt32} (hc : vol.InRange c) {j : ℕ}
    (hj : j < vol.id.sectorsPerCluster.toNat) (hk : k < vol.fatEnd) :
    sectorLba vol c j ≠ fatSectorLba vol k := by
  intro he
  have hfat := (h.toNat_fatSectorLba hk).2
  rw [← he, h.toNat_sectorLba (h.fits hc) hj] at hfat
  omega

end Volume

/-- A volume with one FAT sector at sector 1 and one-sector clusters from sector 2 on. -/
def smallVolume : Volume where
  id := ⟨512, 1, 1, 1, 1, 2⟩
  data := ⟨1, 2, 1, 2⟩

theorem smallVolume_sound : smallVolume.Sound where
  sectorSize := rfl
  sectors := rfl
  root := rfl
  entries := by decide
  after := by decide
  below := by decide

/-- A volume with one FAT sector at sector 1 and clusters of two sectors from sector 2 on. -/
def twoSectorsVolume : Volume where
  id := ⟨512, 2, 1, 1, 1, 2⟩
  data := ⟨1, 2, 2, 2⟩

theorem twoSectorsVolume_sound : twoSectorsVolume.Sound where
  sectorSize := rfl
  sectors := rfl
  root := rfl
  entries := by decide
  after := by decide
  below := by decide

end NaiveGfs
