import NaiveGfs.Fat32.FileChain

/-!
# Write-through coherence of the FAT

Every operation that changes the table in memory writes the sector around the change back,
and everything else it writes lies behind the FAT. So the two copies are equal again after
each call, whatever calls there were before.
-/

namespace NaiveGfs

open BlockStore BlockStore.Store

variable {vol : Volume} {s s' : Fs Card}

/-- The clusters of the root directory: reached from its first cluster through links to
clusters in range. -/
def RootCluster (vol : Volume) (fat : UInt32 → UInt32) (c : UInt32) : Prop :=
  Relation.ReflTransGen (fun x y => fat32NextCluster fat x = y ∧ vol.InRange y)
    vol.data.rootDirFirstCluster c

/-- One call that changes the file system: it finds the free clusters it needs, names
clusters in range, and creates files at a terminal record of the root directory. -/
inductive FatCall (vol : Volume) : Fs Card → Fs Card → Prop
  | allocFree {s : Fs Card} (hfree : freeClusters vol s.fat ≠ []) :
      FatCall vol s (allocFreeLocalCluster sdDriver vol s).2
  | pointFat {s : Fs Card} {prev next : UInt32} (hprev : vol.InRange prev)
      (hnext : vol.InRange next) : FatCall vol s (fat32PointFat sdDriver vol prev next s)
  | allocFile {s s' : Fs Card} {n c cur : UInt32} {name : Fin 11 → UInt8} {stack records : Sector}
      {fuel j : ℕ} {i : Fin 16} {dev : Card}
      (hfree : clustersTaken n ≤ (freeClusters vol s.fat).length)
      (hscan : walkClusters sdDriver vol s.fat insertVisit fuel vol.data.rootDirFirstCluster
        vol.data.rootDirFirstCluster s.dev stack = some (.hit cur j i () dev records))
      (hroot : RootCluster vol s.fat cur)
      (hcall : fat32AllocLocalFile sdDriver vol n name stack fuel s = some (c, s')) :
      FatCall vol s s'

/-- A table with a free entry has an entry 2. -/
theorem rootInRange_of_free (hvol : vol.Sound) {fat : UInt32 → UInt32}
    (hfree : freeClusters vol fat ≠ []) : vol.InRange vol.data.rootDirFirstCluster := by
  obtain ⟨c, rest, hcons⟩ := List.exists_cons_of_ne_nil hfree
  have hc := (first_of_freeClusters hcons).1
  have htwo := hc.two_le
  have hlt := hc.lt
  rw [hvol.root]
  refine ⟨le_refl 2, UInt32.lt_iff_toNat_lt.mpr ?_⟩
  show 2 < _
  omega

theorem RootCluster.inRange {fat : UInt32 → UInt32} {c : UInt32} (h : RootCluster vol fat c)
    (hroot : vol.InRange vol.data.rootDirFirstCluster) : vol.InRange c := by
  cases h with
  | refl => exact hroot
  | tail _ hstep => exact hstep.2

/-- Directory writes into a cluster in range do not reach the FAT. -/
theorem Coherent.directoryWrites (hvol : vol.Sound) (h : Coherent vol s) {c : UInt32}
    (hc : vol.InRange c) {j : ℕ} (hj : j < vol.id.sectorsPerCluster.toNat) (i : Fin 16)
    (records : Sector) : Coherent vol (storeRecord sdDriver vol c j i records s) := by
  intro k hk
  have hframe : (storeRecord sdDriver vol c j i records s).disk (fatSectorLba vol k) =
      s.disk (fatSectorLba vol k) := by
    refine (storeRecord_touches c j hj i records s).current_eq ?_
    rintro ⟨j', hj', he⟩
    exact hvol.sectorLba_ne_fat hc hj' hk he.symm
  rw [fat_storeRecord, onDiskFat, hframe]
  exact h k hk

/-- One call keeps the two copies equal. -/
theorem Coherent.fatCall (hvol : vol.Sound) (h : Coherent vol s) (hcall : FatCall vol s s') :
    Coherent vol s' := by
  cases hcall with
  | allocFree hfree =>
    obtain ⟨c, rest, hcons⟩ := List.exists_cons_of_ne_nil hfree
    have hc := (first_of_freeClusters hcons).1
    rw [allocFreeLocalCluster_eq hvol.fatEnd_le hcons]
    exact (h.setEntry c _).zeroCluster hvol hc
  | pointFat hprev hnext =>
    rw [fat32PointFat_eq (lt_of_lt_of_le hprev.lt hvol.fatEnd_le)]
    exact h.setEntry _ _
  | @allocFile _ n c cur name stack records fuel j i dev hfree hscan hroot hcall =>
    obtain ⟨-, hj, rfl, -, -⟩ := walkClusters_hit hscan
    have hne : freeClusters vol s.fat ≠ [] := by
      intro he
      rw [he, clustersTaken] at hfree
      simp at hfree
    have hcur : vol.InRange cur := hroot.inRange (rootInRange_of_free hvol hne)
    obtain ⟨first, s₁, -, -, hwrites, -, hinsert⟩ := insertAt_run sdDriver hvol.fatEnd_le
      hfree name cur j i records
    rw [fat32AllocLocalFile_of_hit hscan, hinsert, Option.some.injEq, Prod.mk.injEq] at hcall
    rw [← hcall.2]
    have hfile := hwrites.coherent hvol (fun x hx => (mem_fileClusters hx).1) h
    exact hfile.directoryWrites hvol hcur hj i _

/-- On a sound volume the FAT in memory and the first on-disk copy are equal after every call
of every sequence of calls that starts with them equal. -/
theorem coherent_of_fatCalls (hvol : vol.Sound) (h : Coherent vol s)
    (hrun : Relation.ReflTransGen (FatCall vol) s s') : Coherent vol s' := by
  induction hrun with
  | refl => exact h
  | tail _ hcall ih => exact ih.fatCall hvol hcall

theorem freshFs_coherent : Coherent smallVolume freshFs := by
  intro k hk
  have hlt : k.toNat < 128 := UInt32.lt_iff_toNat_lt.mp hk
  have hsector : fatSectorLba smallVolume k = 1 := by
    apply UInt32.toNat_inj.mp
    rw [(smallVolume_sound.toNat_fatSectorLba hk).1, Nat.div_eq_of_lt hlt]
    rfl
  have hdisk : freshFs.disk 1 =
      Sector.ofWords fun k => if k = 2 then fat32TerminalClusterNo else 0 :=
    rfl
  rw [onDiskFat, hsector, hdisk, Sector.word_ofWords]
  have hiff : (⟨k.toNat % 128, Nat.mod_lt _ (by decide)⟩ : Fin 128) = 2 ↔ k = 2 := by
    rw [Fin.ext_iff, ← UInt32.toNat_inj]
    show k.toNat % 128 = 2 ↔ k.toNat = 2
    omega
  simp only [hiff]
  rfl

/-- A cluster is taken, a file created, and the cluster pointed at the file. -/
theorem coherent_of_fatCalls_fresh :
    ∃ c s', fat32AllocLocalFile sdDriver smallVolume 2 (fun _ => 65) blankSector 1
        (allocFreeLocalCluster sdDriver smallVolume freshFs).2 = some (c, s') ∧
      Coherent smallVolume (fat32PointFat sdDriver smallVolume 3 4 s') := by
  have hfree : freeClusters smallVolume freshFs.fat =
      3 :: 4 :: 5 :: (freeClusters smallVolume freshFs.fat).drop 3 := rfl
  have hleft : freeClusters smallVolume (allocFreeLocalCluster sdDriver smallVolume freshFs).2.fat =
      4 :: 5 :: (freeClusters smallVolume freshFs.fat).drop 3 :=
    freeClusters_update hfree (by decide)
  have henough : clustersTaken 2 ≤ (freeClusters smallVolume
      (allocFreeLocalCluster sdDriver smallVolume freshFs).2.fat).length := by
    have htwo : clustersTaken 2 = 2 := by decide
    simp [hleft, htwo]
  obtain ⟨c, s', hcall⟩ : ∃ c s', fat32AllocLocalFile sdDriver smallVolume 2 (fun _ => 65)
      blankSector 1 (allocFreeLocalCluster sdDriver smallVolume freshFs).2 = some (c, s') :=
    ⟨_, _, rfl⟩
  refine ⟨c, s', hcall, coherent_of_fatCalls smallVolume_sound freshFs_coherent
    (((Relation.ReflTransGen.single (.allocFree (by rw [hfree]; exact List.cons_ne_nil _ _))).tail
      (.allocFile henough rfl .refl hcall)).tail (.pointFat (by decide) (by decide)))⟩

end NaiveGfs
