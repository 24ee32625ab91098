import NaiveGfs.Fat32.LoadFat

/-!
# Which cards are accepted

`fat32_init` panics at a second partition in use and at a sector size other than 512. A table
without a partition in use, and a FAT without sectors, go through. From what the loop over
the partition table does (`partitionScan_cases`) follows which cards leave a FAT that
`find_free_local_cluster` can search.
-/

namespace NaiveGfs

variable {κ : Type}

/-! ## Searching the FAT -/

/-- The entries that the loop of `find_free_local_cluster` reads, from entry `p` on with `left`
entries before `FAT_end`. -/
def scanReads (fat : UInt32 → UInt32) : UInt32 → ℕ → List UInt32
  | _, 0 => []
  | p, left + 1 => if fat p = 0 then [p] else p :: scanReads fat (p + 1) left

/-- The search returns the free entry among those it reads. -/
theorem findFreeFrom_eq_find (fat : UInt32 → UInt32) (p : UInt32) (left : ℕ) :
    findFreeFrom fat p left =
      ((scanReads fat p left).find? fun k => fat k == 0).getD 0xffffffff := by
  induction left generalizing p with
  | zero => rfl
  | succ left ih =>
    rw [findFreeFrom, scanReads]
    by_cases hp : fat p = 0
    · simp [hp]
    · rw [if_neg hp, if_neg hp, ih, List.find?_cons_of_neg (by simpa using hp)]

theorem mem_scanReads {fat : UInt32 → UInt32} {k : UInt32} {p left : ℕ}
    (h : k ∈ scanReads fat (UInt32.ofNat p) left) : ∃ i < left, k = UInt32.ofNat (p + i) := by
  induction left generalizing p with
  | zero => simp [scanReads] at h
  | succ left ih =>
    have hnext : UInt32.ofNat p + 1 = UInt32.ofNat (p + 1) := (UInt32.ofNat_add p 1).symm
    have hk : k = UInt32.ofNat p ∨ k ∈ scanReads fat (UInt32.ofNat (p + 1)) left := by
      rw [scanReads, hnext] at h
      split at h
      · exact Or.inl (List.mem_singleton.mp h)
      · exact List.mem_cons.mp h
    cases hk with
    | inl he => exact ⟨0, by omega, he⟩
    | inr hin =>
      obtain ⟨i, hi, he⟩ := ih hin
      exact ⟨i + 1, by omega, by rw [he]; congr 1; omega⟩

/-- The search for a free cluster reads entries in front of `FAT_end` only, whatever is in
memory. -/
def ScanStaysInside (vol : Volume) : Prop :=
  ∀ fat, ∀ k ∈ scanReads fat 2 (entriesAhead vol), k < vol.fatEnd

/-- The state of a usable card: exactly one partition is in use and is the one chosen, its
sectors have 512 bytes, and there is a FAT that can be searched. -/
structure Usable (st : InitState κ) : Prop where
  exactlyOne : ∀ i, (st.bootSector.partition i).numSectors ≠ 0 ↔ i = st.chosenPartition
  sectorSize : st.volume.id.bytesPerSector = 512
  hasFat : st.volume.id.sectorsPerFat ≠ 0
  scan : ScanStaysInside st.volume

/-- With 512-byte sectors `FAT_end` is 128 words behind `FAT` for each FAT sector, modulo the
size of the address space. -/
theorem toNat_fatEnd_of_size {vol : Volume} (hsize : vol.id.bytesPerSector = 512) :
    vol.fatEnd.toNat = 128 * (vol.id.sectorsPerFat.toNat % 2 ^ 23) := by
  have hbytes : vol.id.bytesPerSector.toUInt32.toNat = 512 := by
    rw [hsize]
    rfl
  rw [Volume.fatEnd, UInt32.toNat_div, UInt32.toNat_mul, hbytes]
  show 512 * vol.id.sectorsPerFat.toNat % 2 ^ 32 / 4 = _
  omega

/-- The search stays in front of `FAT_end` exactly when `FAT_end` has not come out as `FAT`. -/
theorem scanStaysInside_iff {vol : Volume} (hsize : vol.id.bytesPerSector = 512) :
    ScanStaysInside vol ↔ ¬ 2 ^ 23 ∣ vol.id.sectorsPerFat.toNat := by
  have hend := toNat_fatEnd_of_size hsize
  constructor
  · intro hscan hdvd
    have hzero : vol.fatEnd = 0 := by
      apply UInt32.toNat_inj.mp
      rw [hend, Nat.mod_eq_zero_of_dvd hdvd]
      rfl
    -- the loop meets `FAT_end` only after a round through the whole memory
    obtain ⟨n, hn⟩ : ∃ n, entriesAhead vol = n + 1 := by
      rw [entriesAhead, hzero]
      exact ⟨2 ^ 30 - 3, rfl⟩
    have hread : (2 : UInt32) ∈ scanReads (fun _ => 1) 2 (entriesAhead vol) := by
      -- memory in which entry 2 is not free
      rw [hn, scanReads, if_neg (by decide)]
      exact List.mem_cons_self
    have hlt := hscan _ 2 hread
    rw [hzero] at hlt
    exact absurd hlt (by decide)
  · intro hdvd fat k hk
    have hpos : vol.id.sectorsPerFat.toNat % 2 ^ 23 ≠ 0 :=
      fun hz => hdvd (Nat.dvd_of_mod_eq_zero hz)
    have hle : (2 : UInt32) ≤ vol.fatEnd := by
      rw [UInt32.le_iff_toNat_le, hend]
      show 2 ≤ _
      omega
    obtain ⟨i, hi, rfl⟩ := mem_scanReads (p := 2) hk
    rw [entriesAhead_of_le hle] at hi
    rw [UInt32.lt_iff_toNat_lt, toNat_candidate hi]
    omega

/-- A partition is in use, and if it is the only one and has 512-byte sectors, its FAT has a
number of sectors that is not a multiple of `2 ^ 23`. -/
def HasFat (drv : Driver κ) (dev : κ) : Prop :=
  usedPartitions (bootState drv dev).bootSector ≠ [] ∧
    ∀ i, usedPartitions (bootState drv dev).bootSector = [i] →
      (partitionVolume drv dev i).id.bytesPerSector = 512 →
        ¬ 2 ^ 23 ∣ (partitionVolume drv dev i).id.sectorsPerFat.toNat

/-- A card without a partition in use is not usable: partition 0 counts as chosen. -/
theorem not_usable_of_none {drv : Driver κ} {dev : κ}
    (hnone : usedPartitions (bootState drv dev).bootSector = []) :
    ¬ Usable (bootState drv dev) := by
  intro h
  have hused := mem_usedPartitions.mpr ((h.exactlyOne 0).mpr rfl)
  rw [hnone] at hused
  exact absurd hused (by simp)

/-- A card whose only partition in use has 512-byte sectors is usable if it has a FAT. -/
theorem usable_chosenState_iff {drv : Driver κ} {dev : κ} {i : Fin 4}
    (hone : usedPartitions (bootState drv dev).bootSector = [i])
    (hsize : (partitionVolume drv dev i).id.bytesPerSector = 512) :
    Usable (chosenState drv dev i) ↔
      ¬ 2 ^ 23 ∣ (partitionVolume drv dev i).id.sectorsPerFat.toNat := by
  have hvol := chosenState_volume drv dev i
  rw [← scanStaysInside_iff hsize]
  constructor
  · intro h
    rw [← hvol]
    exact h.scan
  · intro hscan
    have hdvd := (scanStaysInside_iff hsize).mp hscan
    refine ⟨fun k => ?_, by rwa [hvol], ?_, by rwa [hvol]⟩
    · show ((bootState drv dev).bootSector.partition k).numSectors ≠ 0 ↔ k = i
      rw [← mem_usedPartitions, hone, List.mem_singleton]
    · rw [hvol]
      intro hz
      rw [hz] at hdvd
      exact hdvd (dvd_zero _)

/-- `fat32_init` returns for usable cards only, and panics for the others, exactly when the
card has a FAT. -/
theorem fat32Init_usable_iff (drv : Driver κ) (fat : UInt32 → UInt32) (dev : κ) :
    (∀ st vol s, partitionScan drv dev = .ok st → fat32Init drv fat dev = .ok (vol, s) →
      vol = st.volume ∧ Usable st) ↔ HasFat drv dev := by
  have hmap := fat32Init_eq_map drv dev fat
  rcases partitionScan_cases drv dev with
    ⟨hnone, hscan⟩ | ⟨i, hone, hsize, hscan⟩ | ⟨hwrong, hne, e, hscan⟩
  · -- a table without a partition in use goes through
    rw [hscan] at hmap
    constructor
    · intro h
      exact absurd (h _ _ _ hscan hmap).2 (not_usable_of_none hnone)
    · intro h
      exact absurd hnone h.1
  · rw [hscan] at hmap
    constructor
    · intro h
      refine ⟨by simp [hone], fun k hk _ => ?_⟩
      obtain rfl : i = k := (List.cons.inj (hone.symm.trans hk)).1
      exact (usable_chosenState_iff hone hsize).mp (h _ _ _ hscan hmap).2
    · intro h st vol s hst hinit
      obtain rfl := Except.ok.inj (hscan.symm.trans hst)
      have hvol := (Prod.mk.inj (Except.ok.inj (hmap.symm.trans hinit))).1
      exact ⟨hvol.symm, (usable_chosenState_iff hone hsize).mpr (h.2 i hone hsize)⟩
  · -- a panic
    constructor
    · intro _
      exact ⟨hne, fun i hi hsize => absurd hsize (hwrong i hi)⟩
    · intro _ st vol s hst _
      rw [hscan] at hst
      simp at hst

/-- A card full of zeros has no partition in use, and `fat32_init` returns. -/
theorem fat32Init_accepts_blank :
    ¬ ∀ st vol s, partitionScan sdDriver ⟨fun _ => blankSector, []⟩ = .ok st →
      fat32Init sdDriver (fun _ => 0) ⟨fun _ => blankSector, []⟩ = .ok (vol, s) →
        vol = st.volume ∧ Usable st := by
  let dev : Card := ⟨fun _ => blankSector, []⟩
  have hnone : usedPartitions (bootState sdDriver dev).bootSector = [] := by decide
  have hscan : partitionScan sdDriver dev = .ok (bootState sdDriver dev) := by
    rw [partitionScan_filter, hnone]
    rfl
  have hmap := fat32Init_eq_map sdDriver dev fun _ => 0
  rw [hscan] at hmap
  intro h
  exact not_usable_of_none hnone (h _ _ _ hscan hmap).2

end NaiveGfs
