import NaiveGfs.Fat32.Init

/-!
# The loop over the partition table

The checks of `fat32_init` are spread over its loop: a second partition in use and a sector
size other than 512 are panics, but a table without a partition in use goes through.
Everything the loop can do is said once, for every driver, in `partitionScan_cases`.
-/

namespace NaiveGfs

variable {κ : Type}

/-- Rounds that change nothing may be left out of a loop that may fail. -/
theorem foldlM_filter {σ ε ι : Type} {P : σ → Prop} {p : ι → Bool} {f : σ → ι → Except ε σ}
    (hskip : ∀ a k, P a → p k = false → f a k = .ok a)
    (hround : ∀ a k b, P a → f a k = .ok b → P b) {l : List ι} {a : σ} (ha : P a) :
    l.foldlM f a = (l.filter p).foldlM f a := by
  induction l generalizing a with
  | nil => rfl
  | cons k l ih =>
    cases hk : p k with
    | false =>
      rw [List.filter_cons_of_neg (by simp [hk]), List.foldlM_cons, hskip a k ha hk]
      exact ih ha
    | true =>
      rw [List.filter_cons_of_pos hk, List.foldlM_cons, List.foldlM_cons]
      cases hb : f a k with
      | error e => rfl
      | ok b => exact ih (hround a k b ha hb)

/-- The partitions of a boot sector that are in use. -/
def usedPartitions (boot : Sector) : List (Fin 4) :=
  (List.finRange 4).filter fun i => (boot.partition i).numSectors != 0

section Driver

variable (drv : Driver κ) (dev : κ)

/-- The state in which the loop over the partition table begins: the boot sector is read. -/
def bootState : InitState κ :=
  let st := InitState.zero dev
  let (dev, bootSector) := drv.readsector st.dev 0 st.bootSector
  { st with bootSector := bootSector, dev := dev }

/-- The volume id sector of a partition, as the loop reads it, with the device. -/
def readVolumeId (i : Fin 4) : κ × Sector :=
  let st := bootState drv dev
  drv.readsector st.dev (st.bootSector.partition i).lbaBegin blankSector

/-- The volume of a partition. -/
def partitionVolume (i : Fin 4) : Volume :=
  let v := (readVolumeId drv dev i).2.volumeId
  ⟨v, fatVolumeData ((bootState drv dev).bootSector.partition i).lbaBegin v⟩

/-- The state in which the loop ends when partition `i` is the only one in use. -/
def chosenState (i : Fin 4) : InitState κ :=
  let st := bootState drv dev
  { st with
    allVolIds := Function.update st.allVolIds i (readVolumeId drv dev i).2
    volData := Function.update st.volData i (partitionVolume drv dev i).data
    chosenPartition := i
    numValidPartitions := 1
    dev := (readVolumeId drv dev i).1 }

/-- The partition table with the volume ids, when `fat32_init` has been through it. -/
def partitionScan : Except String (InitState κ) := initPartitions drv (bootState drv dev)

/-- The entries of `all_vol_ids` and `vol_data` for the chosen partition. -/
def InitState.volume (st : InitState κ) : Volume :=
  ⟨(st.allVolIds st.chosenPartition).volumeId, st.volData st.chosenPartition⟩

/-- What `fat32_init` does after the loop is to load the FAT of the chosen volume. -/
theorem fat32Init_eq_map (fat : UInt32 → UInt32) :
    fat32Init drv fat dev = (partitionScan drv dev).map fun st =>
      (st.volume, loadFat drv st.volume.data.fatBeginLba 0 st.volume.id.sectorsPerFat.toNat
        ⟨fat, st.dev⟩) := rfl

variable {drv dev}

/-- An unused partition is passed over. -/
theorem initPartition_of_unused (drv : Driver κ) {st : InitState κ} {k : Fin 4}
    (h : (st.bootSector.partition k).numSectors = 0) : initPartition drv k st = .ok st := by
  rw [initPartition]
  exact if_pos h

/-- A round keeps the boot sector. -/
theorem initPartition_bootSector {i : Fin 4} {st st' : InitState κ}
    (h : initPartition drv i st = .ok st') : st'.bootSector = st.bootSector := by
  rw [initPartition] at h
  simp only at h
  split at h
  · rw [← Except.ok.inj h]
  · split at h
    · simp at h
    · split at h
      · simp at h
      · rw [← Except.ok.inj h]

theorem mem_usedPartitions {boot : Sector} {i : Fin 4} :
    i ∈ usedPartitions boot ↔ (boot.partition i).numSectors ≠ 0 := by
  simp [usedPartitions]

/-- Exactly one partition is in use. -/
theorem usedPartitions_eq_singleton {boot : Sector} {i : Fin 4} :
    usedPartitions boot = [i] ↔ (boot.partition i).numSectors ≠ 0 ∧
      ∀ k, k ≠ i → (boot.partition k).numSectors = 0 := by
  constructor
  · intro hone
    constructor
    · rw [← mem_usedPartitions, hone, List.mem_singleton]
    · intro k hk
      by_contra hused
      have hmem := mem_usedPartitions.mpr hused
      rw [hone, List.mem_singleton] at hmem
      exact hk hmem
  · rintro ⟨hi, halone⟩
    have hsame : ∀ k ∈ List.finRange 4, ((boot.partition k).numSectors != 0) = (k == i) := by
      intro k _
      by_cases hk : k = i
      · subst hk
        simpa using hi
      · rw [halone k hk]
        simp [hk]
    rw [usedPartitions, List.filter_congr hsame, List.filter_beq,
      List.count_eq_one_of_mem (List.nodup_finRange 4) (List.mem_finRange i)]
    rfl

/-- The loop does nothing but the rounds of the partitions in use. -/
theorem partitionScan_filter : partitionScan drv dev =
    (usedPartitions (bootState drv dev).bootSector).foldlM
      (fun st i => initPartition drv i st) (bootState drv dev) := by
  refine foldlM_filter (P := fun st => st.bootSector = (bootState drv dev).bootSector) ?_ ?_ rfl
  · intro st i hst hi
    apply initPartition_of_unused
    rw [hst]
    simpa using hi
  · intro st i st' hst hround
    rw [initPartition_bootSector hround, hst]

/-- The first round for a partition in use. -/
theorem initPartition_first {i : Fin 4}
    (hi : ((bootState drv dev).bootSector.partition i).numSectors ≠ 0) :
    initPartition drv i (bootState drv dev) =
      if (partitionVolume drv dev i).id.bytesPerSector ≠ 512 then
        .error "Partition uses different sector size than sd driver.\n"
      else .ok (chosenState drv dev i) := by
  rw [initPartition, if_neg hi]
  exact if_neg (by simp [bootState, InitState.zero])

/-- A second round for a partition in use is a panic. -/
theorem initPartition_second {i j : Fin 4}
    (hj : ((bootState drv dev).bootSector.partition j).numSectors ≠ 0) :
    initPartition drv j (chosenState drv dev i) =
      .error "Found more than 1 valid partitions on this pi, don't know which to choose.\n" := by
  rw [initPartition, if_neg (show ¬ ((chosenState drv dev i).bootSector.partition j).numSectors = 0
    from hj)]
  rfl

/-- How `fat32_init` gets through the partition table. -/
theorem partitionScan_cases (drv : Driver κ) (dev : κ) :
    (usedPartitions (bootState drv dev).bootSector = [] ∧
      partitionScan drv dev = .ok (bootState drv dev)) ∨
    (∃ i, usedPartitions (bootState drv dev).bootSector = [i] ∧
      (partitionVolume drv dev i).id.bytesPerSector = 512 ∧
      partitionScan drv dev = .ok (chosenState drv dev i)) ∨
    ((∀ i, usedPartitions (bootState drv dev).bootSector = [i] →
        (partitionVolume drv dev i).id.bytesPerSector ≠ 512) ∧
      usedPartitions (bootState drv dev).bootSector ≠ [] ∧
      ∃ e, partitionScan drv dev = .error e) := by
  rw [partitionScan_filter]
  -- only the rounds of the partitions in use count: none, one, or more than one
  match hused : usedPartitions (bootState drv dev).bootSector with
  | [] => exact Or.inl ⟨rfl, rfl⟩
  | i :: rest =>
    have hmem : ∀ k ∈ i :: rest, ((bootState drv dev).bootSector.partition k).numSectors ≠ 0 :=
      fun k hk => mem_usedPartitions.mp (by rwa [hused])
    have hi := hmem i (by simp)
    rw [List.foldlM_cons, initPartition_first hi]
    right
    by_cases hsize : (partitionVolume drv dev i).id.bytesPerSector = 512
    · rw [if_neg (not_not_intro hsize)]
      cases rest with
      | nil => exact Or.inl ⟨i, rfl, hsize, rfl⟩
      | cons j rest =>
        have hj := hmem j (by simp)
        obtain ⟨e, he⟩ : ∃ e, initPartition drv j (chosenState drv dev i) = .error e :=
          ⟨_, initPartition_second hj⟩
        -- the panic comes before the sector size of the second partition is looked at
        refine Or.inr ⟨by simp, by simp, e, ?_⟩
        show (j :: rest).foldlM (fun st k => initPartition drv k st) (chosenState drv dev i) = _
        rw [List.foldlM_cons, he]
        rfl
    · rw [if_pos hsize]
      refine Or.inr ⟨?_, by simp, _, rfl⟩
      intro k hk
      rwa [← (List.cons.inj hk).1]

theorem chosenState_volume (drv : Driver κ) (dev : κ) (i : Fin 4) :
    (chosenState drv dev i).volume = partitionVolume drv dev i := by
  rw [InitState.volume]
  simp only [chosenState, Function.update_self]
  rfl

/-- The loop ends well when the only partition in use has 512-byte sectors. -/
theorem partitionScan_one {i : Fin 4}
    (hone : usedPartitions (bootState drv dev).bootSector = [i])
    (hsize : (partitionVolume drv dev i).id.bytesPerSector = 512) :
    partitionScan drv dev = .ok (chosenState drv dev i) := by
  rcases partitionScan_cases drv dev with
    ⟨hnone, -⟩ | ⟨k, hk, -, hscan⟩ | ⟨hwrong, -⟩
  · simp [hnone] at hone
  · obtain rfl : i = k := (List.cons.inj (hone.symm.trans hk)).1
    exact hscan
  · exact absurd hsize (hwrong i hone)

/-- A volume that was accepted belongs to the only partition in use and has 512-byte sectors,
or there is no partition in use and it is made of zeros. -/
theorem fat32Init_cases {fat : UInt32 → UInt32} {vol : Volume} {s : Fs κ}
    (h : fat32Init drv fat dev = .ok (vol, s)) :
    (usedPartitions (bootState drv dev).bootSector = [] ∧ vol = (bootState drv dev).volume) ∨
      ∃ i, usedPartitions (bootState drv dev).bootSector = [i] ∧
        vol.id.bytesPerSector = 512 ∧ vol = partitionVolume drv dev i := by
  rw [fat32Init_eq_map] at h
  rcases partitionScan_cases drv dev with
    ⟨hnone, hscan⟩ | ⟨i, hone, hsize, hscan⟩ | ⟨-, -, e, hscan⟩
  · rw [hscan] at h
    exact Or.inl ⟨hnone, (Prod.mk.inj (Except.ok.inj h)).1.symm⟩
  · rw [hscan] at h
    obtain rfl : vol = partitionVolume drv dev i :=
      (Prod.mk.inj (Except.ok.inj h)).1.symm.trans (chosenState_volume drv dev i)
    exact Or.inr ⟨i, hone, hsize, rfl⟩
  · rw [hscan] at h
    simp [Except.map] at h

/-- Behind the loop the chosen volume is that of the chosen partition, or there is no FAT. -/
theorem partitionScan_volume {st : InitState κ} (h : partitionScan drv dev = .ok st) :
    st.volume.data = fatVolumeData (st.bootSector.partition st.chosenPartition).lbaBegin
        st.volume.id ∨ st.volume.id.sectorsPerFat = 0 := by
  rcases partitionScan_cases drv dev with
    ⟨-, hscan⟩ | ⟨i, -, -, hscan⟩ | ⟨-, -, e, hscan⟩
  · obtain rfl := Except.ok.inj (hscan.symm.trans h)
    exact Or.inr (show blankSector.volumeId.sectorsPerFat = 0 by decide)
  · obtain rfl := Except.ok.inj (hscan.symm.trans h)
    rw [chosenState_volume]
    exact Or.inl rfl
  · rw [hscan] at h
    simp at h

end Driver

/-! ## A card with one partition -/

variable {disk : UInt32 → Sector} {i : Fin 4}

/-- `fat32_init` takes the only partition in use and then loads its FAT. -/
theorem fat32Init_eq (fat : UInt32 → UInt32) {dev : Card} (hdev : dev.current = disk)
    (hpresent : ((disk 0).partition i).numSectors ≠ 0)
    (halone : ∀ k, k ≠ i → ((disk 0).partition k).numSectors = 0)
    (hsize : (cardVolume disk i).id.bytesPerSector = 512) :
    fat32Init sdDriver fat dev = .ok (cardVolume disk i,
      loadFat sdDriver (cardVolume disk i).data.fatBeginLba 0
        (cardVolume disk i).id.sectorsPerFat.toNat { fat := fat, dev := dev }) := by
  subst hdev
  have hone : usedPartitions (bootState sdDriver dev).bootSector = [i] :=
    usedPartitions_eq_singleton.mpr ⟨hpresent, halone⟩
  rw [fat32Init_eq_map, partitionScan_one hone hsize, Except.map, chosenState_volume]
  rfl

end NaiveGfs
