import NaiveGfs.Fat32.Coherence

/-!
# The copies of the FAT

A volume has `num_fats` copies of its FAT, and `fat32_init` leaves room for all of them, but
every update goes to the first copy only. Identical copies stop being identical with the
first file that is created and never become so again.
-/

namespace NaiveGfs

open BlockStore BlockStore.Store LinkTable

variable {vol : Volume} {s s' : Fs Card}

/-- Sector `i` of FAT copy `k`. -/
def fatCopyLba (vol : Volume) (k i : ℕ) : UInt32 :=
  vol.data.fatBeginLba + UInt32.ofNat (k * vol.id.sectorsPerFat.toNat + i)

/-- All FAT copies on a disk are identical, sector for sector. -/
def Mirrored (vol : Volume) (disk : UInt32 → Sector) : Prop :=
  ∀ k < vol.id.numFats.toNat, ∀ i < vol.id.sectorsPerFat.toNat,
    disk (fatCopyLba vol k i) = disk (fatCopyLba vol 0 i)

/-- A volume laid out as `fat32_init` computes it, with at least two FAT copies. -/
structure Volume.HasCopies (vol : Volume) : Prop extends vol.Sound where
  copies : 2 ≤ vol.id.numFats.toNat
  layout : vol.data.clusterBeginLba.toNat = vol.data.fatBeginLba.toNat +
    vol.id.sectorsPerFat.toNat * vol.id.numFats.toNat

/-- One call of `fat32_alloc_local_file` that does not run out of space and inserts at a
terminal record of the root directory. -/
inductive FileCall (vol : Volume) (s s' : Fs Card) : Prop
  | intro {n c cur : UInt32} {name : Fin 11 → UInt8} {stack records : Sector} {fuel j : ℕ}
      {i : Fin 16} {dev : Card}
      (hfree : clustersTaken n ≤ (freeClusters vol s.fat).length)
      (hscan : walkClusters sdDriver vol s.fat insertVisit fuel vol.data.rootDirFirstCluster
        vol.data.rootDirFirstCluster s.dev stack = some (.hit cur j i () dev records))
      (hroot : RootCluster vol s.fat cur)
      (hcall : fat32AllocLocalFile sdDriver vol n name stack fuel s = some (c, s'))

/-- A sequence of `k` such calls. -/
inductive FileCalls (vol : Volume) (s : Fs Card) : ℕ → Fs Card → Prop
  | nil : FileCalls vol s 0 s
  | snoc {k : ℕ} {t u : Fs Card} (hrun : FileCalls vol s k t) (hcall : FileCall vol t u) :
      FileCalls vol s (k + 1) u

/-! ## Addresses of the copies -/

namespace Volume.HasCopies

/-- A sector of a copy lies between the beginning of the FAT and the clusters. -/
theorem toNat_fatCopyLba (h : vol.HasCopies) {k i : ℕ} (hk : k < vol.id.numFats.toNat)
    (hi : i < vol.id.sectorsPerFat.toNat) :
    (fatCopyLba vol k i).toNat =
        vol.data.fatBeginLba.toNat + (k * vol.id.sectorsPerFat.toNat + i) ∧
      (fatCopyLba vol k i).toNat < vol.data.clusterBeginLba.toNat := by
  have hbegin : vol.data.clusterBeginLba.toNat < 2 ^ 32 := vol.data.clusterBeginLba.toNat_lt
  have hmul : (k + 1) * vol.id.sectorsPerFat.toNat ≤
      vol.id.numFats.toNat * vol.id.sectorsPerFat.toNat := Nat.mul_le_mul_right _ hk
  rw [Nat.add_mul, Nat.one_mul, Nat.mul_comm vol.id.numFats.toNat] at hmul
  have hlayout := h.layout
  have hval : (fatCopyLba vol k i).toNat =
      vol.data.fatBeginLba.toNat + (k * vol.id.sectorsPerFat.toNat + i) := by
    rw [fatCopyLba, UInt32.toNat_add, UInt32.toNat_ofNat',
      Nat.mod_eq_of_lt (show k * vol.id.sectorsPerFat.toNat + i < 2 ^ 32 by omega),
      Nat.mod_eq_of_lt (by omega)]
  refine ⟨hval, ?_⟩
  rw [hval]
  omega

theorem div_lt (h : vol.HasCopies) {c : UInt32} (hc : vol.InRange c) :
    c.toNat / 128 < vol.id.sectorsPerFat.toNat := by
  have hlt := hc.lt
  rw [h.toNat_fatEnd] at hlt
  omega

/-- The entries are looked up in copy 0. -/
theorem fatCopyLba_zero (h : vol.HasCopies) {c : UInt32} (hc : vol.InRange c) :
    fatCopyLba vol 0 (c.toNat / 128) = fatSectorLba vol c := by
  have hcopies := h.copies
  apply UInt32.toNat_inj.mp
  rw [(h.toNat_fatCopyLba (by omega) (h.div_lt hc)).1, (h.toNat_fatSectorLba hc.2).1,
    Nat.zero_mul, Nat.zero_add]

/-- No call reaches a sector of another copy than the first. -/
theorem fatCopyLba_ne_fatSectorLba (h : vol.HasCopies) {c k : UInt32} (hc : vol.InRange c)
    (hk : k < vol.fatEnd) : fatCopyLba vol 1 (c.toNat / 128) ≠ fatSectorLba vol k := by
  intro he
  have hval := congrArg UInt32.toNat he
  rw [(h.toNat_fatCopyLba h.copies (h.div_lt hc)).1, (h.toNat_fatSectorLba hk).1] at hval
  have hlt := UInt32.lt_iff_toNat_lt.mp hk
  rw [h.toNat_fatEnd] at hlt
  omega

theorem fatCopyLba_ne_sectorLba (h : vol.HasCopies) {c d : UInt32} (hc : vol.InRange c)
    (hd : vol.InRange d) {j : ℕ} (hj : j < vol.id.sectorsPerCluster.toNat) :
    fatCopyLba vol 1 (c.toNat / 128) ≠ sectorLba vol d j := by
  intro he
  have hlt := (h.toNat_fatCopyLba h.copies (h.div_lt hc)).2
  rw [he, h.toNat_sectorLba (h.fits hd) hj] at hlt
  omega

end Volume.HasCopies

/-! ## What the calls do to the copies -/

theorem mod_sector_lt (c : UInt32) : c.toNat % 128 < 128 := Nat.mod_lt _ (by decide)

/-- The entry of cluster `c` as the second copy has it. -/
def secondCopyEntry (vol : Volume) (disk : UInt32 → Sector) (c : UInt32) : UInt32 :=
  (disk (fatCopyLba vol 1 (c.toNat / 128))).word ⟨c.toNat % 128, mod_sector_lt c⟩

/-- A cluster is in use that the second copy has as free. -/
def CopiesDiffer (vol : Volume) (s : Fs Card) : Prop :=
  ∃ c, vol.InRange c ∧ s.fat c ≠ 0 ∧ secondCopyEntry vol s.disk c = 0

theorem CopiesDiffer.not_mirrored (hvol : vol.HasCopies) (hco : Coherent vol s)
    (h : CopiesDiffer vol s) : ¬ Mirrored vol s.disk := by
  intro hmirrored
  obtain ⟨c, hc, hused, hfree⟩ := h
  have hsame := hmirrored 1 hvol.copies (c.toNat / 128) (hvol.div_lt hc)
  rw [hvol.fatCopyLba_zero hc] at hsame
  rw [secondCopyEntry, hsame] at hfree
  exact hused ((hco c hc.2).symm.trans hfree)

/-- Where the copies agree, a free cluster is free in the second copy. -/
theorem Mirrored.secondCopyEntry_eq (hvol : vol.HasCopies) (hco : Coherent vol s)
    (h : Mirrored vol s.disk) {c : UInt32} (hc : vol.InRange c) :
    secondCopyEntry vol s.disk c = s.fat c := by
  have hsame := h 1 hvol.copies (c.toNat / 128) (hvol.div_lt hc)
  rw [hvol.fatCopyLba_zero hc] at hsame
  rw [secondCopyEntry, hsame]
  exact hco c hc.2

theorem FileCall.fatCall (h : FileCall vol s s') : FatCall vol s s' := by
  cases h with
  | intro hfree hscan hroot hcall => exact .allocFile hfree hscan hroot hcall

/-- A call takes a free cluster, leaves the entries in use as they are, and leaves the second
copy alone. -/
theorem FileCall.effect (hvol : vol.HasCopies) (h : FileCall vol s s') :
    (∃ c, vol.InRange c ∧ s.fat c = 0 ∧ s'.fat c ≠ 0) ∧
      (∀ c, s.fat c ≠ 0 → s'.fat c = s.fat c) ∧
      ∀ c, vol.InRange c → secondCopyEntry vol s'.disk c = secondCopyEntry vol s.disk c := by
  obtain @⟨n, first, cur, name, stack, records, fuel, j, i, dev, hfree, hscan, hroot, hcall⟩ := h
  obtain ⟨-, hj, rfl, -, -⟩ := walkClusters_hit hscan
  have hne : freeClusters vol s.fat ≠ [] := by
    intro he
    rw [he, clustersTaken] at hfree
    simp at hfree
  have hcur : vol.InRange cur := hroot.inRange (rootInRange_of_free hvol.toSound hne)
  obtain ⟨c, s₁, hhead, hfat, hwrites, -, hinsert⟩ := insertAt_run sdDriver
    hvol.fatEnd_le hfree name cur j i records
  rw [fat32AllocLocalFile_of_hit hscan, hinsert, Option.some.injEq, Prod.mk.injEq] at hcall
  obtain ⟨-, rfl⟩ := hcall
  have hfile : ∀ x ∈ fileClusters vol s.fat (clustersTaken n), vol.InRange x ∧ s.fat x = 0 :=
    fun x hx => mem_fileClusters hx
  have hc := List.mem_of_head? hhead
  refine ⟨⟨c, (hfile c hc).1, (hfile c hc).2, ?_⟩, fun x hx => ?_, fun x hx => ?_⟩
  · -- the new entry is a link to a cluster of the file or the end mark
    rw [fat_storeRecord, hfat]
    have hfollows := writeChain_follows fat32TerminalClusterNo (List.ne_nil_of_mem hc)
      (fileClusters_nodup vol s.fat (clustersTaken n)) s.fat
    intro hz
    cases hfollows.next_mem_or_ends hc with
    | inl hin =>
      rw [hz] at hin
      exact absurd (hfile 0 hin).1.two_le (by decide)
    | inr hend =>
      rw [hz] at hend
      exact absurd hend (by decide)
  · rw [fat_storeRecord]
    exact hwrites.fat_of_notMem fun hin => hx (hfile x hin).2
  · have hdir : (storeRecord sdDriver vol cur j i
        (records.setRecord i (newRecord (records.record i) name c)) s₁).disk
          (fatCopyLba vol 1 (x.toNat / 128)) = s₁.disk (fatCopyLba vol 1 (x.toNat / 128)) := by
      refine (storeRecord_touches cur j hj i _ s₁).current_eq ?_
      rintro ⟨j', hj', he⟩
      exact hvol.fatCopyLba_ne_sectorLba hx hcur hj' he
    have halloc : s₁.disk (fatCopyLba vol 1 (x.toNat / 128)) =
        s.disk (fatCopyLba vol 1 (x.toNat / 128)) := by
      apply hwrites.disk_eq
      rintro ⟨y, hy, he | he⟩
      · exact hvol.fatCopyLba_ne_fatSectorLba hx (hfile y hy).1.2 he
      · rw [Volume.clusterNoToLba_eq_sectorLba] at he
        exact hvol.fatCopyLba_ne_sectorLba hx (hfile y hy).1 (by omega) he
    rw [secondCopyEntry, hdir, halloc, secondCopyEntry]

/-- Copies that differ stay different. -/
theorem CopiesDiffer.fileCall (hvol : vol.HasCopies) (h : CopiesDiffer vol s)
    (hcall : FileCall vol s s') : CopiesDiffer vol s' := by
  obtain ⟨c, hc, hused, hfree⟩ := h
  obtain ⟨-, hkeep, hcopy⟩ := hcall.effect hvol
  exact ⟨c, hc, by rw [hkeep c hused]; exact hused, (hcopy c hc).trans hfree⟩

/-- After one call on identical copies they differ. -/
theorem Mirrored.copiesDiffer (hvol : vol.HasCopies) (hco : Coherent vol s)
    (h : Mirrored vol s.disk) (hcall : FileCall vol s s') : CopiesDiffer vol s' := by
  obtain ⟨⟨c, hc, hfree, hused⟩, -, hcopy⟩ := hcall.effect hvol
  refine ⟨c, hc, hused, ?_⟩
  rw [hcopy c hc, h.secondCopyEntry_eq hvol hco hc]
  exact hfree

theorem FileCalls.coherent (hvol : vol.HasCopies) (hco : Coherent vol s) {k : ℕ}
    (h : FileCalls vol s k s') : Coherent vol s' := by
  induction h with
  | nil => exact hco
  | snoc _ hcall ih => exact ih.fatCall hvol.toSound hcall.fatCall

/-- After any calls at all the copies differ. -/
theorem FileCalls.copiesDiffer (hvol : vol.HasCopies) (hco : Coherent vol s)
    (hmirrored : Mirrored vol s.disk) {k : ℕ} (hk : k ≠ 0) (h : FileCalls vol s k s') :
    CopiesDiffer vol s' := by
  induction h with
  | nil => exact absurd rfl hk
  | @snoc k t u hrun hcall ih =>
    by_cases hfirst : k = 0
    · subst hfirst
      cases hrun with
      | nil => exact hmirrored.copiesDiffer hvol hco hcall
    · exact (ih hfirst).fileCall hvol hcall

/-- On a volume with two or more FAT copies that are identical, they are identical after a
sequence of calls of `fat32_alloc_local_file` if and only if the sequence is empty. -/
theorem fileCalls_mirrored_iff (hvol : vol.HasCopies) (hco : Coherent vol s)
    (hmirrored : Mirrored vol s.disk) {k : ℕ} (hrun : FileCalls vol s k s') :
    Mirrored vol s'.disk ↔ k = 0 := by
  constructor
  · intro h
    by_contra hk
    exact (hrun.copiesDiffer hvol hco hmirrored hk).not_mirrored hvol
      (hrun.coherent hvol hco) h
  · rintro rfl
    cases hrun with
    | nil => exact hmirrored

/-! ## A volume with two copies -/

/-- A volume with two FAT copies of one sector and one-sector clusters from sector 3 on. -/
def twoFatsVolume : Volume where
  id := ⟨512, 1, 1, 2, 1, 2⟩
  data := ⟨1, 3, 1, 2⟩

theorem twoFatsVolume_hasCopies : twoFatsVolume.HasCopies where
  sectorSize := rfl
  sectors := rfl
  root := rfl
  entries := by decide
  after := by decide
  below := by decide
  copies := by decide
  layout := by decide

/-- The volume with nothing on it but an empty root directory. -/
def twoFatsFs : Fs Card where
  fat := fun k => if k = 2 then fat32TerminalClusterNo else 0
  dev := ⟨fun lba => if lba = 1 ∨ lba = 2 then
    fatSector (fun k => if k = 2 then fat32TerminalClusterNo else 0) 0 else blankSector, []⟩

theorem twoFatsFs_coherent : Coherent twoFatsVolume twoFatsFs := by
  intro k hk
  have hlt : k.toNat < 128 := UInt32.lt_iff_toNat_lt.mp hk
  have hfirst : k / 128 = 0 / 128 := by
    apply UInt32.toNat_inj.mp
    rw [UInt32.toNat_div]
    exact Nat.div_eq_of_lt hlt
  have hlba : fatSectorLba twoFatsVolume k = 1 := by
    rw [fatSectorLba, hfirst]
    rfl
  have hdisk : twoFatsFs.disk 1 = fatSector twoFatsFs.fat 0 := rfl
  rw [onDiskFat, hlba, hdisk]
  exact word_fatSector _ hfirst

theorem twoFatsFs_mirrored : Mirrored twoFatsVolume twoFatsFs.disk := by
  intro k hk i hi
  obtain rfl : i = 0 := Nat.lt_one_iff.mp hi
  obtain rfl | rfl : k = 0 ∨ k = 1 := by
    change k < 2 at hk
    omega
  · rfl
  · rfl

theorem twoFatsFs_call : ∃ s', FileCall twoFatsVolume twoFatsFs s' := by
  have hfree : clustersTaken 1 ≤ (freeClusters twoFatsVolume twoFatsFs.fat).length := by
    have hsub : [3].Subperm (freeClusters twoFatsVolume twoFatsFs.fat) := by
      refine List.subperm_of_subset (by decide) (fun c hc => mem_freeClusters.mpr ?_)
      rw [List.mem_singleton] at hc
      subst hc
      decide
    exact hsub.length_le
  exact ⟨_, @FileCall.intro twoFatsVolume twoFatsFs _ 1 _ 2 (fun _ => 65) blankSector _ 1 0 0 _
    hfree rfl Relation.ReflTransGen.refl rfl⟩

theorem fileCalls_mirrored_iff_twoFats :
    ∃ s', FileCalls twoFatsVolume twoFatsFs 1 s' ∧
      (Mirrored twoFatsVolume s'.disk ↔ 1 = 0) := by
  obtain ⟨s', hcall⟩ := twoFatsFs_call
  have hrun := FileCalls.nil.snoc hcall
  exact ⟨s', hrun,
    fileCalls_mirrored_iff twoFatsVolume_hasCopies twoFatsFs_coherent twoFatsFs_mirrored hrun⟩

/-- Creating one file of one cluster leaves the second copy behind. -/
theorem oneFile_notMirrored :
    Mirrored twoFatsVolume twoFatsFs.disk ∧
      ∃ s', FileCall twoFatsVolume twoFatsFs s' ∧ ¬ Mirrored twoFatsVolume s'.disk := by
  obtain ⟨s', hcall⟩ := twoFatsFs_call
  refine ⟨twoFatsFs_mirrored, s', hcall, ?_⟩
  exact (twoFatsFs_mirrored.copiesDiffer twoFatsVolume_hasCopies twoFatsFs_coherent
    hcall).not_mirrored twoFatsVolume_hasCopies
      (twoFatsFs_coherent.fatCall twoFatsVolume_hasCopies.toSound hcall.fatCall)

end NaiveGfs
