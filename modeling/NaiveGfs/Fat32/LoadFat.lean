import NaiveGfs.Fat32.Boot

/-!
# Which words of the FAT are loaded

`find_free_local_cluster`, `fat32_next_cluster` and the write-back look for entry `k` at word
`k` behind `FAT`. `fat32_init` puts it there exactly when the FAT has one sector: word 128 is
never written, whatever the FAT and the memory hold.
-/

namespace NaiveGfs

variable {κ : Type}

/-- An invariant of the rounds of a loop that may fail holds when it returns. -/
theorem foldlM_invariant {σ ε ι : Type} {P : σ → Prop} {f : σ → ι → Except ε σ}
    (hround : ∀ a k b, P a → f a k = .ok b → P b) {l : List ι} {a b : σ} (ha : P a)
    (h : l.foldlM f a = .ok b) : P b := by
  induction l generalizing a with
  | nil =>
    obtain rfl := Except.ok.inj h
    exact ha
  | cons k l ih =>
    rw [List.foldlM_cons] at h
    cases hk : f a k with
    | error e => simp [hk, bind, Except.bind] at h
    | ok c =>
      rw [hk] at h
      exact ih (hround a k c ha hk) h

/-- What holds between the rounds over the partition table: nothing has been written, and
the chosen volume id, once one has been read, has 512-byte sectors. -/
structure InitInvariant (dev : Card) (st : InitState Card) : Prop where
  dev_eq : st.dev = dev
  sectorSize : (st.allVolIds st.chosenPartition).volumeId.sectorsPerFat ≠ 0 →
    (st.allVolIds st.chosenPartition).volumeId.bytesPerSector = 512

theorem InitInvariant.initPartition {dev : Card} {st st' : InitState Card} {i : Fin 4}
    (h : InitInvariant dev st) (hround : initPartition sdDriver i st = .ok st') :
    InitInvariant dev st' := by
  rw [NaiveGfs.initPartition] at hround
  simp only at hround
  split at hround
  · obtain rfl := Except.ok.inj hround
    exact h
  · split at hround
    · simp at hround
    · split at hround
      · simp at hround
      · rename_i hsize
        obtain rfl := Except.ok.inj hround
        refine ⟨h.dev_eq, fun _ => ?_⟩
        simp only [Function.update_self]
        exact not_not.mp hsize

/-- When `fat32_init` returns on a card that does not fail, it has loaded the FAT of a volume
with 512-byte sectors that does not depend on the memory. -/
theorem fat32Init_ok {fat : UInt32 → UInt32} {dev : Card} {vol : Volume} {s : Fs Card}
    (h : fat32Init sdDriver fat dev = .ok (vol, s)) :
    (vol.id.sectorsPerFat ≠ 0 → vol.id.bytesPerSector = 512) ∧
      ∀ ram, fat32Init sdDriver ram dev = .ok (vol,
        loadFat sdDriver vol.data.fatBeginLba 0 vol.id.sectorsPerFat.toNat ⟨ram, dev⟩) := by
  let boot : InitState Card := { InitState.zero dev with bootSector := dev.current 0 }
  have hblank : blankSector.volumeId.sectorsPerFat = 0 := by decide
  have hboot : InitInvariant dev boot := ⟨rfl, fun hne => absurd hblank hne⟩
  have hmap : ∀ ram, fat32Init sdDriver ram dev =
      (initPartitions sdDriver boot).map fun st =>
        let v := (st.allVolIds st.chosenPartition).volumeId
        let vd := st.volData st.chosenPartition
        (⟨v, vd⟩, loadFat sdDriver vd.fatBeginLba 0 v.sectorsPerFat.toNat ⟨ram, st.dev⟩) :=
    fun _ => rfl
  cases hloop : initPartitions sdDriver boot with
  | error e =>
    rw [hmap, hloop] at h
    simp [Except.map] at h
  | ok st =>
    have hst : InitInvariant dev st :=
      foldlM_invariant (fun _ _ _ ha hk => ha.initPartition hk) hboot hloop
    rw [hmap, hloop, Except.map] at h
    obtain ⟨rfl, -⟩ := Prod.mk.inj (Except.ok.inj h)
    refine ⟨hst.sectorSize, fun ram => ?_⟩
    rw [hmap, hloop, Except.map, hst.dev_eq]

/-- The word of the FAT region that belongs at index `k`: word `k mod 128` of sector
`fat_begin_lba + k / 128`. -/
def fatRegionWord (vol : Volume) (disk : UInt32 → Sector) (k : ℕ) : UInt32 :=
  (disk (vol.data.fatBeginLba + UInt32.ofNat (k / 128))).word ⟨k % 128, Nat.mod_lt _ (by decide)⟩

/-- The memory behind `FAT` holds the FAT of the disk word for word, and `FAT_end` points to
its end (as an address, so modulo `2 ^ 32` bytes). -/
structure LoadsFat (vol : Volume) (disk : UInt32 → Sector) (fat : UInt32 → UInt32) : Prop where
  words : ∀ k, k < 128 * vol.id.sectorsPerFat.toNat →
    fat (UInt32.ofNat k) = fatRegionWord vol disk k
  fatEnd : 4 * vol.fatEnd.toNat = 512 * vol.id.sectorsPerFat.toNat % 2 ^ 32

/-- The loader stores nothing at word 128: it stores 128 words at multiples of word 512. -/
theorem loadFat_word128 (fatBeginLba : UInt32) (n left : ℕ) (s : Fs Card) :
    (loadFat sdDriver fatBeginLba n left s).fat 128 = s.fat 128 := by
  induction left generalizing n s with
  | zero => rfl
  | succ left ih =>
    rw [loadFat, ih]
    have hstart : (512 * UInt32.ofNat n).toNat = 512 * n % 2 ^ 32 := by
      rw [UInt32.toNat_mul, UInt32.toNat_ofNat']
      show 512 * (n % 2 ^ 32) % 2 ^ 32 = _
      omega
    have hfar : ¬ (128 - 512 * UInt32.ofNat n : UInt32).toNat < 128 := by
      rw [UInt32.toNat_sub, hstart]
      show ¬ (2 ^ 32 - 512 * n % 2 ^ 32 + 128) % 2 ^ 32 < 128
      omega
    exact dif_neg hfar

/-- A FAT of one sector is loaded into its place. -/
theorem loadFat_one {vol : Volume} {dev : Card} (hone : vol.id.sectorsPerFat.toNat = 1)
    (hsize : vol.id.bytesPerSector = 512) (ram : UInt32 → UInt32) :
    LoadsFat vol dev.current
      (loadFat sdDriver vol.data.fatBeginLba 0 vol.id.sectorsPerFat.toNat ⟨ram, dev⟩).fat where
  words k hk := by
    have hlt : k < 128 := by omega
    have hnat : (UInt32.ofNat k).toNat = k := by
      rw [UInt32.toNat_ofNat', Nat.mod_eq_of_lt (by omega)]
    have hk128 : UInt32.ofNat k < 128 := by
      rw [UInt32.lt_iff_toNat_lt, hnat]
      exact hlt
    have hindex : UInt32.ofNat k / 128 = UInt32.ofNat (k / 128) := by
      apply UInt32.toNat_inj.mp
      rw [UInt32.toNat_div, hnat]
      show k / 128 = (UInt32.ofNat (k / 128)).toNat
      rw [UInt32.toNat_ofNat', Nat.mod_eq_of_lt (by omega)]
    have hpos : 1 ≤ vol.id.sectorsPerFat.toNat := by omega
    have hle : vol.id.sectorsPerFat.toNat ≤ 2 ^ 21 := by omega
    have hload := (loadFat_holds hpos hle ⟨ram, dev⟩).2 _ hk128
    rw [← hload, onDiskFat, fatSectorLba, hindex, add_comm, fatRegionWord]
    simp only [hnat]
    rfl
  fatEnd := by
    rw [Volume.toNat_fatEnd_of_le hsize (by omega), hone]
    norm_num

/-- `fat32_init` loads the FAT into its place for every content of the memory if and only if
the FAT has one sector; with more sectors it does so for no memory in which word 128 is not
by accident the right one already. -/
theorem fat32Init_loadsFat_iff {ram : UInt32 → UInt32} {dev : Card} {vol : Volume}
    {s : Fs Card} (hinit : fat32Init sdDriver ram dev = .ok (vol, s))
    (hpos : 1 ≤ vol.id.sectorsPerFat.toNat) :
    ((∀ ram' s', fat32Init sdDriver ram' dev = .ok (vol, s') →
        LoadsFat vol dev.current s'.fat) ↔ vol.id.sectorsPerFat.toNat = 1) ∧
      (LoadsFat vol dev.current s.fat →
        vol.id.sectorsPerFat.toNat = 1 ∨ ram 128 = fatRegionWord vol dev.current 128) := by
  have hne : vol.id.sectorsPerFat ≠ 0 := by
    intro hz
    rw [hz] at hpos
    exact absurd hpos (by decide)
  obtain ⟨hsize, hload⟩ := fat32Init_ok hinit
  have hword : ∀ ram', LoadsFat vol dev.current
      (loadFat sdDriver vol.data.fatBeginLba 0 vol.id.sectorsPerFat.toNat ⟨ram', dev⟩).fat →
      vol.id.sectorsPerFat.toNat = 1 ∨ ram' 128 = fatRegionWord vol dev.current 128 := by
    intro ram' hloads
    by_cases hone : vol.id.sectorsPerFat.toNat = 1
    · exact Or.inl hone
    · right
      rw [← hloads.words 128 (by omega)]
      exact (loadFat_word128 vol.data.fatBeginLba 0 _ ⟨ram', dev⟩).symm
  refine ⟨⟨fun hall => ?_, fun hone ram' s' hs' => ?_⟩, fun hloads => ?_⟩
  · -- a wrong word stays in memory
    rcases hword (fun _ => fatRegionWord vol dev.current 128 + 1) (hall _ _ (hload _)) with
      hone | hwrong
    · exact hone
    · exact absurd hwrong (add_one_ne_self _)
  · obtain ⟨-, rfl⟩ := Prod.mk.inj (Except.ok.inj (hs'.symm.trans (hload ram')))
    exact loadFat_one hone (hsize hne) ram'
  · obtain ⟨-, rfl⟩ := Prod.mk.inj (Except.ok.inj (hinit.symm.trans (hload ram)))
    exact hword ram hloads

theorem fat32Init_loadsFat_iff_fresh :
    ∃ s, fat32Init sdDriver (fun _ => 1) ⟨freshCard, []⟩ = .ok (cardVolume freshCard 0, s) ∧
      LoadsFat (cardVolume freshCard 0) freshCard s.fat := by
  obtain ⟨s, hinit, -⟩ := freshCard_wellFormed.init fun _ => 1
  exact ⟨s, hinit, (fat32Init_loadsFat_iff hinit (by decide)).1.mpr (by decide) _ _ hinit⟩

/-- With zeros in memory the entry of cluster 128 of the crowded card is read as free. -/
theorem crowdedCard_notLoaded :
    ∃ s, fat32Init sdDriver (fun _ => 0) ⟨crowdedCard, []⟩ =
        .ok (cardVolume crowdedCard 0, s) ∧
      s.fat 128 = 0 ∧ ¬ LoadsFat (cardVolume crowdedCard 0) crowdedCard s.fat := by
  obtain ⟨s, hinit, -⟩ := crowdedCard_wellFormed.init fun _ => 0
  obtain ⟨-, hload⟩ := fat32Init_ok hinit
  obtain ⟨-, rfl⟩ := Prod.mk.inj (Except.ok.inj (hinit.symm.trans (hload _)))
  have hzero := loadFat_word128 (cardVolume crowdedCard 0).data.fatBeginLba 0
    (cardVolume crowdedCard 0).id.sectorsPerFat.toNat ⟨fun _ => 0, ⟨crowdedCard, []⟩⟩
  refine ⟨_, hinit, hzero, fun hloads => ?_⟩
  have hright := hloads.words 128 (by decide)
  have hzero' := hright.symm.trans hzero
  exact absurd hzero' (by decide)

end NaiveGfs
