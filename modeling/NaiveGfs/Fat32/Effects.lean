import NaiveGfs.Fat32.Directory

/-!
# What the allocator does to the card

One lemma for each elementary step says what the card holds afterwards; the lemmas about
`FatWrites` carry that through a whole allocation: the on-disk FAT follows the one in memory
write by write, a cluster once zeroed stays zeroed, and nothing outside the FAT and the
first sectors of the named clusters is written. `storeRecord` is described record by record.
-/

namespace NaiveGfs

open BlockStore BlockStore.Store

variable {vol : Volume} {s s' : Fs Card}

/-- The first on-disk FAT copy holds the entries of the table `fat` below a bound. -/
def Holds (vol : Volume) (bound : UInt32) (fat : UInt32 → UInt32) (disk : UInt32 → Sector) :
    Prop :=
  ∀ k, k < bound → onDiskFat vol disk k = fat k

/-- The FAT in memory equals the first on-disk copy, word for word. -/
def Coherent (vol : Volume) (s : Fs Card) : Prop := Holds vol vol.fatEnd s.fat s.disk

/-! ## Elementary steps -/

@[simp] theorem disk_setEntry (vol : Volume) (k v : UInt32) (s : Fs Card) :
    (setEntry sdDriver vol k v s).disk =
      Function.update s.disk (fatSectorLba vol k) (fatSector (Function.update s.fat k v) k) :=
  current_write s.dev _ _

@[simp] theorem disk_zeroCluster (vol : Volume) (c : UInt32) (s : Fs Card) :
    (zeroCluster sdDriver vol c s).disk =
      Function.update s.disk (clusterNoToLba vol c) blankSector :=
  current_write s.dev _ _

@[simp] theorem disk_writeRecords (records : Sector) (lba : UInt32) (s : Fs Card) :
    (writeRecords sdDriver records lba s).disk = Function.update s.disk lba records :=
  current_write s.dev _ _

/-- The word of a written FAT sector at the position of any entry of that sector. -/
theorem word_fatSector (fat : UInt32 → UInt32) {k m : UInt32} (h : m / 128 = k / 128) :
    (fatSector fat k).word ⟨m.toNat % 128, Nat.mod_lt _ (by decide)⟩ = fat m := by
  have hm : m.toNat < 2 ^ 32 := m.toNat_lt
  have hindex : k / 128 * 128 + UInt32.ofNat (m.toNat % 128) = m := by
    apply UInt32.toNat_inj.mp
    rw [← h, UInt32.toNat_add, UInt32.toNat_mul, UInt32.toNat_div, UInt32.toNat_ofNat']
    show (m.toNat / 128 * 128 % 2 ^ 32 + m.toNat % 128 % 2 ^ 32) % 2 ^ 32 = m.toNat
    omega
  rw [fatSector, Sector.word_ofWords, hindex]

theorem fatSectorLba_eq_iff {k m : UInt32} :
    fatSectorLba vol m = fatSectorLba vol k ↔ m / 128 = k / 128 := by
  rw [fatSectorLba, fatSectorLba, add_left_inj]

/-- Writing back the sector of an entry that was just changed carries the whole table over
to disk. -/
theorem holds_update_fatSector {bound : UInt32} {fat : UInt32 → UInt32}
    {disk : UInt32 → Sector} (h : Holds vol bound fat disk) (k v : UInt32) :
    Holds vol bound (Function.update fat k v)
      (Function.update disk (fatSectorLba vol k) (fatSector (Function.update fat k v) k)) := by
  intro m hm
  by_cases hs : fatSectorLba vol m = fatSectorLba vol k
  · rw [onDiskFat, hs, Function.update_self]
    exact word_fatSector _ (fatSectorLba_eq_iff.mp hs)
  · have hne : m ≠ k := fun he => hs (by rw [he])
    rw [onDiskFat, Function.update_of_ne hs, Function.update_of_ne hne]
    exact h m hm

/-- A write outside the FAT leaves the on-disk FAT alone. -/
theorem holds_update_of_ne {bound lba : UInt32} {fat : UInt32 → UInt32}
    {disk : UInt32 → Sector} (h : Holds vol bound fat disk)
    (hlba : ∀ k, k < bound → fatSectorLba vol k ≠ lba) (b : Sector) :
    Holds vol bound fat (Function.update disk lba b) := by
  intro m hm
  rw [onDiskFat, Function.update_of_ne (hlba m hm)]
  exact h m hm

theorem Coherent.setEntry (h : Coherent vol s) (k v : UInt32) :
    Coherent vol (setEntry sdDriver vol k v s) := by
  rw [Coherent, setEntry_fat, disk_setEntry]
  exact holds_update_fatSector h k v

theorem Coherent.zeroCluster (hvol : vol.Sound) (h : Coherent vol s) {c : UInt32}
    (hc : vol.InRange c) : Coherent vol (zeroCluster sdDriver vol c s) := by
  rw [Coherent, zeroCluster_fat, disk_zeroCluster]
  exact holds_update_of_ne h (fun k hk => (hvol.clusterNoToLba_ne_fat hc hk).symm) _

/-! ## Sequences of steps -/

/-- An allocation that zeroes no FAT sector keeps the entries below a bound as they are in
memory. -/
theorem FatWrites.holds {cs : List UInt32} {bound : UInt32}
    (hcs : ∀ c ∈ cs, ∀ k, k < bound → fatSectorLba vol k ≠ clusterNoToLba vol c)
    (hrun : FatWrites sdDriver vol cs s s') (h : Holds vol bound s.fat s.disk) :
    Holds vol bound s'.fat s'.disk := by
  induction hrun with
  | refl => exact h
  | tail _ hstep ih =>
    rcases hstep with ⟨k, _, v, rfl⟩ | ⟨c, hc, rfl⟩
    · rw [setEntry_fat, disk_setEntry]
      exact holds_update_fatSector ih k v
    · rw [zeroCluster_fat, disk_zeroCluster]
      exact holds_update_of_ne ih (hcs c hc) _

theorem FatWrites.coherent (hvol : vol.Sound) {cs : List UInt32}
    (hcs : ∀ c ∈ cs, vol.InRange c) (hrun : FatWrites sdDriver vol cs s s')
    (h : Coherent vol s) : Coherent vol s' := by
  refine hrun.holds (fun c hc k hk => ?_) h
  exact (hvol.clusterNoToLba_ne_fat (hcs c hc) hk).symm

theorem FatWrites.fat_of_notMem {κ : Type} {drv : Driver κ} {s s' : Fs κ} {cs : List UInt32}
    (hrun : FatWrites drv vol cs s s') {k : UInt32} (hk : k ∉ cs) : s'.fat k = s.fat k := by
  induction hrun with
  | refl => rfl
  | tail _ hstep ih =>
    rcases hstep with ⟨m, hm, v, rfl⟩ | ⟨c, _, rfl⟩
    · have hne : k ≠ m := fun he => hk (he ▸ hm)
      rw [setEntry_fat, Function.update_of_ne hne]
      exact ih
    · exact ih

/-- The sectors that an allocation of the clusters `cs` writes. -/
def AllocSector (vol : Volume) (cs : List UInt32) (lba : UInt32) : Prop :=
  ∃ c ∈ cs, lba = fatSectorLba vol c ∨ lba = clusterNoToLba vol c

/-- An allocation writes no sector of a cluster that it does not take. -/
theorem not_allocSector (h : vol.CountsFromTwo) {cs : List UInt32} {d : UInt32} {j : ℕ}
    (hd : vol.Fits d) (hj : j < vol.id.sectorsPerCluster.toNat) (hfits : ∀ x ∈ cs, vol.Fits x)
    (hfat : ∀ x ∈ cs, sectorLba vol d j ≠ fatSectorLba vol x) (hout : d ∉ cs) :
    ¬ AllocSector vol cs (sectorLba vol d j) := by
  rintro ⟨x, hx, he | he⟩
  · exact hfat x hx he
  · rw [Volume.clusterNoToLba_eq_sectorLba] at he
    obtain ⟨rfl, -⟩ := h.sectorLba_inj hd (hfits x hx) hj (by omega) he
    exact hout hx

theorem FatWrites.touches {cs : List UInt32} (hrun : FatWrites sdDriver vol cs s s') :
    Touches (AllocSector vol cs) s.dev s'.dev := by
  induction hrun with
  | refl => exact Touches.refl
  | tail _ hstep ih =>
    rcases hstep with ⟨k, hk, v, rfl⟩ | ⟨c, hc, rfl⟩
    · exact ih.trans (Touches.write ⟨k, hk, Or.inl rfl⟩ _)
    · exact ih.trans (Touches.write ⟨c, hc, Or.inr rfl⟩ _)

/-- The frame of an allocation. -/
theorem FatWrites.disk_eq {cs : List UInt32} (hrun : FatWrites sdDriver vol cs s s')
    {lba : UInt32} (hlba : ¬ AllocSector vol cs lba) : s'.disk lba = s.disk lba :=
  hrun.touches.current_eq hlba

/-- A first sector that is blank stays blank: it is not part of the FAT, and whatever is
written to the first sector of a cluster is zeros. -/
theorem FatWrites.blank (hvol : vol.Sound) {cs : List UInt32} (hcs : ∀ c ∈ cs, vol.InRange c)
    (hrun : FatWrites sdDriver vol cs s s') {x : UInt32} (hx : vol.InRange x)
    (h : s.disk (clusterNoToLba vol x) = blankSector) :
    s'.disk (clusterNoToLba vol x) = blankSector := by
  induction hrun with
  | refl => exact h
  | tail _ hstep ih =>
    rcases hstep with ⟨k, hk, v, rfl⟩ | ⟨c, _, rfl⟩
    · rw [disk_setEntry, Function.update_of_ne (hvol.clusterNoToLba_ne_fat hx (hcs k hk).2)]
      exact ih
    · rw [disk_zeroCluster]
      by_cases he : clusterNoToLba vol x = clusterNoToLba vol c
      · rw [he, Function.update_self]
      · rw [Function.update_of_ne he]
        exact ih

theorem ZeroedOnTheWay.blank (hvol : vol.Sound) {cs : List UInt32}
    (hcs : ∀ c ∈ cs, vol.InRange c) {x : UInt32} (hx : vol.InRange x)
    (h : ZeroedOnTheWay sdDriver vol cs x s s') :
    s'.disk (clusterNoToLba vol x) = blankSector := by
  obtain ⟨m, _, hafter⟩ := h
  exact hafter.blank hvol hcs hx (by rw [disk_zeroCluster, Function.update_self])

/-- At every cut through an allocation of free clusters the on-disk FAT still has every
entry that was in use. -/
theorem FatWrites.through_used (hvol : vol.Sound) {cs : List UInt32}
    (hcs : ∀ c ∈ cs, vol.InRange c ∧ s.fat c = 0) (hco : Coherent vol s)
    (hrun : FatWrites sdDriver vol cs s s') :
    Through (fun d => ∀ k, k < vol.fatEnd → s.fat k ≠ 0 → onDiskFat vol d k = s.fat k)
      s.dev s'.dev := by
  have hkeep : ∀ m, FatWrites sdDriver vol cs s m →
      ∀ k, k < vol.fatEnd → s.fat k ≠ 0 → onDiskFat vol m.disk k = s.fat k := by
    intro m hm k hk hused
    have hout : k ∉ cs := fun hin => hused (hcs k hin).2
    rw [hm.coherent hvol (fun c hc => (hcs c hc).1) hco k hk]
    exact hm.fat_of_notMem hout
  induction hrun with
  | refl => exact Through.refl (hkeep s Relation.ReflTransGen.refl)
  | @tail m m' hm hstep ih =>
    have hnext := hkeep m' (hm.tail hstep)
    refine ih.trans ?_
    rcases hstep with ⟨k, _, v, rfl⟩ | ⟨c, _, rfl⟩
    · refine Through.write (hkeep m hm) ?_
      rw [disk_setEntry] at hnext
      exact hnext
    · refine Through.write (hkeep m hm) ?_
      rw [disk_zeroCluster] at hnext
      exact hnext

/-! ## The directory writes -/

theorem add_one_ne_self (a : UInt32) : a + 1 ≠ a := by
  intro h
  simp at h

theorem sectorLba_succ (vol : Volume) (c : UInt32) (j : ℕ) :
    sectorLba vol c (j + 1) = sectorLba vol c j + 1 := by
  rw [sectorLba, sectorLba, UInt32.ofNat_add, ← add_assoc]
  rfl

@[simp] theorem fat_storeRecord {κ : Type} (drv : Driver κ) (vol : Volume) (c : UInt32)
    (j : ℕ) (i : Fin 16) (records : Sector) (s : Fs κ) :
    (storeRecord drv vol c j i records s).fat = s.fat := by
  rw [storeRecord]
  split
  · split <;> rfl
  · rfl

theorem next_lt {i : Fin 16} (h : ¬ i.val = 15) : i.val + 1 < 16 := by omega

/-- The sector with the new record, as it is written. -/
def recordSector (i : Fin 16) (records : Sector) : Sector :=
  if h : i.val = 15 then records else records.clearRecord ⟨i.val + 1, next_lt h⟩

/-- The writes of `storeRecord`: the sector with the record, then possibly the next one. -/
theorem storeRecord_eq {κ : Type} {drv : Driver κ} (c : UInt32) (j : ℕ) (i : Fin 16)
    (records : Sector) (s : Fs κ) :
    storeRecord drv vol c j i records s =
      let s₁ := writeRecords drv (recordSector i records) (sectorLba vol c j) s
      if i.val = 15 ∧ j + 1 ≠ vol.id.sectorsPerCluster.toNat then
        writeRecords drv (records.clearRecord 0) (sectorLba vol c (j + 1)) s₁
      else s₁ := by
  rw [storeRecord, recordSector, sectorLba_succ]
  by_cases hi : i.val = 15
  · by_cases hj : j + 1 = vol.id.sectorsPerCluster.toNat
    · simp [hi, hj]
    · simp [hi, hj]
  · simp [hi]

theorem storeRecord_touches (c : UInt32) (j : ℕ) (hj : j < vol.id.sectorsPerCluster.toNat)
    (i : Fin 16) (records : Sector) (s : Fs Card) :
    Touches (fun lba => ∃ j' < vol.id.sectorsPerCluster.toNat, lba = sectorLba vol c j')
      s.dev (storeRecord sdDriver vol c j i records s).dev := by
  rw [storeRecord_eq]
  have hfirst := Touches.write (s := s.dev)
    (T := fun lba => ∃ j' < vol.id.sectorsPerCluster.toNat, lba = sectorLba vol c j')
    (i := sectorLba vol c j) ⟨j, hj, rfl⟩ (recordSector i records)
  simp only
  split
  · rename_i hcond
    exact hfirst.trans (Touches.write ⟨j + 1, by omega, rfl⟩ _)
  · exact hfirst

/-- The directory writes leave a first sector of another cluster blank. -/
theorem storeRecord_blank (hvol : vol.Sound) {x c : UInt32} (hx : vol.InRange x)
    (hc : vol.InRange c) (hne : x ≠ c) {j : ℕ} (hj : j < vol.id.sectorsPerCluster.toNat)
    (i : Fin 16) (records : Sector) (h : s.disk (clusterNoToLba vol x) = blankSector) :
    (storeRecord sdDriver vol c j i records s).disk (clusterNoToLba vol x) = blankSector := by
  refine ((storeRecord_touches c j hj i records s).current_eq ?_).trans h
  rintro ⟨j', hj', he⟩
  rw [Volume.clusterNoToLba_eq_sectorLba] at he
  exact hne (hvol.sectorLba_inj (hvol.fits hx) (hvol.fits hc) (by omega) hj' he).1

/-- The sector with the new record after all directory writes. -/
theorem storeRecord_disk_self (c : UInt32) (j : ℕ) (i : Fin 16) (records : Sector)
    (s : Fs Card) :
    (storeRecord sdDriver vol c j i records s).disk (sectorLba vol c j) =
      recordSector i records := by
  rw [storeRecord_eq]
  simp only
  split
  · have hne : sectorLba vol c j ≠ sectorLba vol c (j + 1) := by
      rw [sectorLba_succ]
      exact (add_one_ne_self _).symm
    rw [disk_writeRecords, Function.update_of_ne hne, disk_writeRecords, Function.update_self]
  · rw [disk_writeRecords, Function.update_self]

/-- At a sector boundary inside the cluster the next sector becomes a copy of the sector with
the new record, its first byte cleared. -/
theorem storeRecord_disk_next (c : UInt32) {j : ℕ} (hj : j + 1 ≠ vol.id.sectorsPerCluster.toNat)
    {i : Fin 16} (hi : i.val = 15) (records : Sector) (s : Fs Card) :
    (storeRecord sdDriver vol c j i records s).disk (sectorLba vol c (j + 1)) =
      records.clearRecord 0 := by
  rw [storeRecord_eq]
  simp only [hi, hj, ne_eq, not_false_eq_true, and_self, if_true]
  rw [disk_writeRecords, Function.update_self]

theorem storeRecord_disk_of_ne {c : UInt32} {j : ℕ} {i : Fin 16} {lba : UInt32}
    (hne : lba ≠ sectorLba vol c j)
    (hnext : i.val = 15 → j + 1 ≠ vol.id.sectorsPerCluster.toNat → lba ≠ sectorLba vol c (j + 1))
    (records : Sector) (s : Fs Card) :
    (storeRecord sdDriver vol c j i records s).disk lba = s.disk lba := by
  rw [storeRecord_eq]
  simp only
  split
  · rename_i hcond
    rw [disk_writeRecords, Function.update_of_ne (hnext hcond.1 hcond.2), disk_writeRecords,
      Function.update_of_ne hne]
  · rw [disk_writeRecords, Function.update_of_ne hne]

@[simp] theorem recordSector_record_self (i : Fin 16) (records : Sector) :
    (recordSector i records).record i = records.record i := by
  rw [recordSector]
  split
  · rfl
  · refine Sector.record_clearRecord_of_ne _ (fun he => ?_)
    have := congrArg Fin.val he
    simp at this

theorem recordSector_record_of_lt {i k : Fin 16} (h : k < i) (records : Sector) :
    (recordSector i records).record k = records.record k := by
  rw [recordSector]
  split
  · rfl
  · refine Sector.record_clearRecord_of_ne _ (fun he => ?_)
    have hval := congrArg Fin.val he
    have hlt : k.val < i.val := h
    simp only at hval
    omega

end NaiveGfs
