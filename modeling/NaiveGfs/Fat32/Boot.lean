import NaiveGfs.Dfs.InitConfig
import NaiveGfs.Fat32.PartitionTable
import NaiveGfs.Fat32.RootChain

/-!
# What booting does to the files on a card

`fat32_init` followed by `dfs_init_config`, on a card with one well-formed partition and
with anything in the memory behind the kernel. Only the entries of the first FAT sector are
in memory where the code looks for them, so the files are safe when the search for the
config file and the allocation of its clusters use no other entry (`BootSafe`).
-/

namespace NaiveGfs

open BlockStore BlockStore.Store LinkTable

variable {disk : UInt32 → Sector} {i : Fin 4} {root : List UInt32}

/-! ## Well-formed cards -/

/-- A cluster that lies inside its partition and has an entry in the FAT. -/
def InVolume (disk : UInt32 → Sector) (i : Fin 4) (c : UInt32) : Prop :=
  let vol := cardVolume disk i
  let p := (disk 0).partition i
  vol.InRange c ∧ vol.data.clusterBeginLba.toNat +
    (c.toNat - 2 + 1) * vol.id.sectorsPerCluster.toNat ≤ p.lbaBegin.toNat + p.numSectors.toNat

instance (disk : UInt32 → Sector) (i : Fin 4) (c : UInt32) : Decidable (InVolume disk i c) :=
  inferInstanceAs (Decidable (_ ∧ _))

/-- Sector `j` of a cluster, by the FAT format: clusters are counted from 2. -/
def dataSector (vol : Volume) (c : UInt32) (j : ℕ) : UInt32 :=
  UInt32.ofNat (vol.data.clusterBeginLba.toNat +
    (c.toNat - 2) * vol.id.sectorsPerCluster.toNat + j)

/-- A chain of clusters of a file or directory on the card. -/
structure CardChain (disk : UInt32 → Sector) (i : Fin 4) (ds : List UInt32) : Prop where
  inside : ∀ d ∈ ds, InVolume disk i d
  chain : FatChain (cardVolume disk i) (onDiskFat (cardVolume disk i) disk) ds
  nodup : ds.Nodup

/-- A card whose only partition in use is partition `i`, which holds a FAT32 volume with the
root directory `root` and at least three free clusters. -/
structure WellFormedCard (disk : UInt32 → Sector) (i : Fin 4) (root : List UInt32) : Prop where
  present : ((disk 0).partition i).numSectors ≠ 0
  alone : ∀ k, k ≠ i → ((disk 0).partition k).numSectors = 0
  fitsDisk : ((disk 0).partition i).lbaBegin.toNat + ((disk 0).partition i).numSectors.toNat ≤
    2 ^ 32
  sectorSize : (cardVolume disk i).id.bytesPerSector = 512
  sectors : 1 ≤ (cardVolume disk i).id.sectorsPerCluster.toNat
  entries : 128 * (cardVolume disk i).id.sectorsPerFat.toNat ≤ 2 ^ 28
  fats : 1 ≤ (cardVolume disk i).id.numFats.toNat
  fatBegin : (cardVolume disk i).data.fatBeginLba.toNat =
    ((disk 0).partition i).lbaBegin.toNat + (cardVolume disk i).id.numReservedSectors.toNat
  dataBegin : (cardVolume disk i).data.clusterBeginLba.toNat =
    (cardVolume disk i).data.fatBeginLba.toNat +
      (cardVolume disk i).id.sectorsPerFat.toNat * (cardVolume disk i).id.numFats.toNat
  rootChain : CardChain disk i root
  rootHead : root.head? = some (cardVolume disk i).id.rootDirFirstCluster
  free : ∃ cs : List UInt32, cs.Nodup ∧ 3 ≤ cs.length ∧ ∀ c ∈ cs, InVolume disk i c ∧
    onDiskFat (cardVolume disk i) disk c = 0

/-- Nothing that belongs to a file or sub-directory has changed, nor any entry of the FAT
that was in use. -/
structure KeepsFiles (disk : UInt32 → Sector) (i : Fin 4) (root : List UInt32)
    (disk' : UInt32 → Sector) : Prop where
  data : ∀ ds, CardChain disk i ds → ds.Disjoint root → ∀ d ∈ ds, ∀ j,
    j < (cardVolume disk i).id.sectorsPerCluster.toNat →
      disk' (dataSector (cardVolume disk i) d j) = disk (dataSector (cardVolume disk i) d j)
  fat : ∀ k, InVolume disk i k → clusterNo (onDiskFat (cardVolume disk i) disk k) ≠ 0 →
    onDiskFat (cardVolume disk i) disk' k = onDiskFat (cardVolume disk i) disk k

/-- The root directory starts at cluster 2, and a part of it that is reached through entries
of the first FAT sector shows where the config file is, or shows where to enter it while
two clusters of the first FAT sector are free. -/
def BootSafe (disk : UInt32 → Sector) (i : Fin 4) (root : List UInt32) : Prop :=
  (cardVolume disk i).id.rootDirFirstCluster = 2 ∧
    ∃ ch, ch <+: root ∧ (∀ c ∈ ch.dropLast, c < 128) ∧
      ((∃ sl c, firstHit (cardVolume disk i) (lookupVisit fat32DfsCfgFilename) disk
          (dirSlots (cardVolume disk i) ch) = some (sl, c) ∧ c ≠ 0xffffffff) ∨
        (∃ sl, firstHit (cardVolume disk i) insertVisit disk
          (dirSlots (cardVolume disk i) ch) = some (sl, ())) ∧
        ∃ c₁ c₂, c₁ < c₂ ∧ c₂ < 128 ∧ InVolume disk i c₁ ∧ InVolume disk i c₂ ∧
          onDiskFat (cardVolume disk i) disk c₁ = 0 ∧ onDiskFat (cardVolume disk i) disk c₂ = 0)

namespace WellFormedCard

variable (h : WellFormedCard disk i root)

include h

theorem toNat_fatEnd : (cardVolume disk i).fatEnd.toNat =
    128 * (cardVolume disk i).id.sectorsPerFat.toNat :=
  Volume.toNat_fatEnd_of_le h.sectorSize h.entries

theorem fatEnd_le : (cardVolume disk i).fatEnd.toNat ≤ 2 ^ 28 := by
  rw [h.toNat_fatEnd]
  exact h.entries

theorem after : (cardVolume disk i).data.fatBeginLba.toNat +
    (cardVolume disk i).id.sectorsPerFat.toNat ≤
      (cardVolume disk i).data.clusterBeginLba.toNat := by
  have hmul := Nat.le_mul_of_pos_right (cardVolume disk i).id.sectorsPerFat.toNat h.fats
  rw [h.dataBegin]
  omega

theorem fits {c : UInt32} (hc : InVolume disk i c) : (cardVolume disk i).Fits c :=
  ⟨hc.1.two_le, hc.2.trans h.fitsDisk⟩

theorem dataSector_eq (htwo : (cardVolume disk i).CountsFromTwo) {c : UInt32}
    (hc : InVolume disk i c) {j : ℕ} (hj : j < (cardVolume disk i).id.sectorsPerCluster.toNat) :
    dataSector (cardVolume disk i) c j = sectorLba (cardVolume disk i) c j := by
  rw [dataSector, ← htwo.toNat_sectorLba (h.fits hc) hj, UInt32.ofNat_toNat]

/-- The sectors of a cluster lie behind the FAT. -/
theorem sectorLba_ne_fat (htwo : (cardVolume disk i).CountsFromTwo) {c k : UInt32}
    (hc : InVolume disk i c) {j : ℕ} (hj : j < (cardVolume disk i).id.sectorsPerCluster.toNat)
    (hk : k < (cardVolume disk i).fatEnd) :
    sectorLba (cardVolume disk i) c j ≠ fatSectorLba (cardVolume disk i) k := by
  intro he
  have hfat := (Volume.toNat_fatSectorLba h.toNat_fatEnd h.after hk).2
  rw [← he, htwo.toNat_sectorLba (h.fits hc) hj] at hfat
  omega

theorem sectorsPerFat_pos : 1 ≤ (cardVolume disk i).id.sectorsPerFat.toNat := by
  have hlt := (h.rootChain.inside _ (List.mem_of_head? h.rootHead)).1.lt
  rw [h.toNat_fatEnd] at hlt
  omega

theorem lt_fatEnd {k : UInt32} (hk : k < 128) : k < (cardVolume disk i).fatEnd := by
  have hlt : k.toNat < 128 := UInt32.lt_iff_toNat_lt.mp hk
  have hpos := h.sectorsPerFat_pos
  rw [UInt32.lt_iff_toNat_lt, h.toNat_fatEnd]
  omega

/-- The table that `fat32_init` leaves in memory, whatever was there before. -/
theorem init (ram : UInt32 → UInt32) : ∃ s : Fs Card,
    fat32Init sdDriver ram ⟨disk, []⟩ = .ok (cardVolume disk i, s) ∧ s.dev = ⟨disk, []⟩ ∧
      Holds (cardVolume disk i) 128 s.fat disk := by
  have hentries := h.entries
  have hload := loadFat_holds h.sectorsPerFat_pos (by omega) { fat := ram, dev := ⟨disk, []⟩ }
  exact ⟨_, fat32Init_eq ram rfl h.present h.alone h.sectorSize, hload.1, hload.2⟩

end WellFormedCard

/-- The part of the root directory that is reached through entries in memory. -/
theorem WellFormedCard.dirChain (h : WellFormedCard disk i root) {fat : UInt32 → UInt32}
    (hfat : Holds (cardVolume disk i) 128 fat disk) {ch : List UInt32} (hch : ch <+: root)
    (hne : ch ≠ []) (hlow : ∀ c ∈ ch.dropLast, c < 128) : DirChain (cardVolume disk i) fat ch where
  head := by
    obtain ⟨rest, rfl⟩ := hch
    obtain ⟨c, cs, rfl⟩ := List.exists_cons_of_ne_nil hne
    exact h.rootHead
  linked := by
    obtain ⟨rest, rfl⟩ := hch
    have hlinks := (List.isChain_append.mp h.rootChain.chain.2.isChain).1
    refine isChain_imp_dropLast hlinks fun a ha b hab => ?_
    rw [← hab, fat32NextCluster, fat32NextCluster, hfat a (hlow a ha)]
  inRange c hc := (h.rootChain.inside c (hch.subset hc)).1
  nodup := h.rootChain.nodup.sublist hch.sublist

/-- The first two free clusters come no later than any two free clusters. -/
theorem fileClusters_two {vol : Volume} {fat : UInt32 → UInt32} {c₁ c₂ : UInt32} (hlt : c₁ < c₂)
    (h₁ : c₁ ∈ freeClusters vol fat) (h₂ : c₂ ∈ freeClusters vol fat) :
    2 ≤ (freeClusters vol fat).length ∧ ∀ x ∈ fileClusters vol fat 2, x ≤ c₂ := by
  have hsorted := freeClusters_sorted vol fat
  rw [fileClusters]
  cases hfree : freeClusters vol fat with
  | nil =>
    rw [hfree] at h₁
    simp at h₁
  | cons a rest =>
    rw [hfree] at h₁ h₂ hsorted
    cases rest with
    | nil =>
      rw [List.mem_singleton] at h₁ h₂
      subst h₁ h₂
      exact absurd (UInt32.lt_iff_toNat_lt.mp hlt) (lt_irrefl _)
    | cons b rest =>
      rw [List.pairwise_cons, List.pairwise_cons] at hsorted
      obtain ⟨hab, hb, -⟩ := hsorted
      have hlt₁ : a ≤ c₁ := by
        cases List.mem_cons.mp h₁ with
        | inl he =>
          rw [he]
          exact UInt32.le_refl _
        | inr hin => exact UInt32.le_of_lt (hab c₁ hin)
      have hlt₂ : b ≤ c₂ := by
        cases List.mem_cons.mp h₂ with
        | inl he =>
          rw [he] at hlt
          exact absurd (UInt32.lt_of_le_of_lt hlt₁ hlt) (UInt32.lt_irrefl _)
        | inr hin =>
          cases List.mem_cons.mp hin with
          | inl he =>
            rw [he]
            exact UInt32.le_refl _
          | inr hin => exact UInt32.le_of_lt (hb c₂ hin)
      refine ⟨by simp, fun x hx => ?_⟩
      cases List.mem_pair.mp hx with
      | inl he =>
        rw [he]
        exact UInt32.le_of_lt (UInt32.lt_of_le_of_lt hlt₁ hlt)
      | inr he =>
        rw [he]
        exact hlt₂

/-- Smaller clusters lie inside the partition too. -/
theorem InVolume.of_le {c d : UInt32} (hd : InVolume disk i d) (hc : 2 ≤ c) (hle : c ≤ d) :
    InVolume disk i c := by
  have htwo : 2 ≤ c.toNat := UInt32.le_iff_toNat_le.mp hc
  have hcd : c.toNat ≤ d.toNat := UInt32.le_iff_toNat_le.mp hle
  have hmul := Nat.mul_le_mul_right (cardVolume disk i).id.sectorsPerCluster.toNat
    (show c.toNat - 2 + 1 ≤ d.toNat - 2 + 1 by omega)
  exact ⟨⟨hc, UInt32.lt_iff_toNat_lt.mpr (lt_of_le_of_lt hcd hd.1.lt)⟩,
    (Nat.add_le_add_left hmul _).trans hd.2⟩

/-! ## Creating the config file -/

/-- An entry below 128 is in the first FAT sector. -/
theorem fatSectorLba_of_lt {vol : Volume} {k : UInt32} (hk : k < 128) :
    fatSectorLba vol k = vol.data.fatBeginLba := by
  have hzero : k / 128 = 0 := by
    apply UInt32.toNat_inj.mp
    rw [UInt32.toNat_div]
    exact Nat.div_eq_of_lt (UInt32.lt_iff_toNat_lt.mp hk)
  rw [fatSectorLba, hzero, zero_add]

/-- Creating a file in a directory cluster of the volume, out of free clusters whose entries
are in the first FAT sector, keeps the files. -/
theorem WellFormedCard.keepsFiles_of_alloc (h : WellFormedCard disk i root)
    (htwo : (cardVolume disk i).CountsFromTwo) {s s₁ : Fs Card} {cs : List UInt32}
    (hdisk : s.disk = disk) (hfat : Holds (cardVolume disk i) 128 s.fat disk)
    (hcs : ∀ c ∈ cs, c < 128 ∧ InVolume disk i c ∧ onDiskFat (cardVolume disk i) disk c = 0)
    (hwrites : FatWrites sdDriver (cardVolume disk i) cs s s₁) {c : UInt32} (hc : c ∈ root)
    {j : ℕ} (hj : j < (cardVolume disk i).id.sectorsPerCluster.toNat) (k : Fin 16)
    (records : Sector) :
    KeepsFiles disk i root (storeRecord sdDriver (cardVolume disk i) c j k records s₁).disk := by
  have hroot : InVolume disk i c := h.rootChain.inside c hc
  have hstore := storeRecord_touches c j hj k records s₁
  constructor
  · -- a sector of a file is neither allocated nor part of the directory
    intro ds hds hdisj d hd j' hj'
    have hin := hds.inside d hd
    have hstored : ¬ ∃ j₂ < (cardVolume disk i).id.sectorsPerCluster.toNat,
        sectorLba (cardVolume disk i) d j' = sectorLba (cardVolume disk i) c j₂ := by
      rintro ⟨j₂, hj₂, he⟩
      obtain ⟨rfl, -⟩ := htwo.sectorLba_inj (h.fits hin) (h.fits hroot) hj' hj₂ he
      exact hdisj hd hc
    have halloc : ¬ AllocSector (cardVolume disk i) cs (sectorLba (cardVolume disk i) d j') :=
      not_allocSector htwo (h.fits hin) hj' (fun x hx => h.fits (hcs x hx).2.1)
        (fun x hx => h.sectorLba_ne_fat htwo hin hj' (hcs x hx).2.1.1.2)
        (fun hx => hds.chain.used hd (hcs d hx).2.2)
    rw [h.dataSector_eq htwo hin hj']
    exact ((hstore.current_eq hstored).trans (hwrites.disk_eq halloc)).trans (congrFun hdisk _)
  · intro m hm hused
    have hne : onDiskFat (cardVolume disk i) disk m ≠ 0 := by
      intro hz
      rw [hz] at hused
      exact hused rfl
    have hstored : ¬ ∃ j₂ < (cardVolume disk i).id.sectorsPerCluster.toNat,
        fatSectorLba (cardVolume disk i) m = sectorLba (cardVolume disk i) c j₂ := by
      rintro ⟨j₂, hj₂, he⟩
      exact h.sectorLba_ne_fat htwo hroot hj₂ hm.1.2 he.symm
    have hframe : onDiskFat (cardVolume disk i)
        (storeRecord sdDriver (cardVolume disk i) c j k records s₁).disk m =
        onDiskFat (cardVolume disk i) s₁.disk m :=
      congrArg (fun b : Sector => b.word _) (hstore.current_eq hstored)
    rw [hframe]
    by_cases hlow : m < 128
    · -- the first FAT sector is written back from memory
      have hout : m ∉ cs := fun hin => hne (hcs m hin).2.2
      have hholds : Holds (cardVolume disk i) 128 s₁.fat s₁.disk := by
        refine hwrites.holds (fun x hx k hk => ?_) (by rw [hdisk]; exact hfat)
        rw [Volume.clusterNoToLba_eq_sectorLba]
        exact (h.sectorLba_ne_fat htwo (hcs x hx).2.1 h.sectors (h.lt_fatEnd hk)).symm
      rw [hholds m hlow, hwrites.fat_of_notMem hout, hfat m hlow]
    · -- the other FAT sectors are not written
      have halloc : ¬ AllocSector (cardVolume disk i) cs (fatSectorLba (cardVolume disk i) m) := by
        rintro ⟨x, hx, he | he⟩
        · have hx128 := UInt32.lt_iff_toNat_lt.mp (hcs x hx).1
          have hm128 : ¬ m.toNat < 128 := fun hlt => hlow (UInt32.lt_iff_toNat_lt.mpr hlt)
          have hval := congrArg UInt32.toNat he
          rw [(Volume.toNat_fatSectorLba h.toNat_fatEnd h.after hm.1.2).1,
            (Volume.toNat_fatSectorLba h.toNat_fatEnd h.after (hcs x hx).2.1.1.2).1] at hval
          change x.toNat < 128 at hx128
          omega
        · rw [Volume.clusterNoToLba_eq_sectorLba] at he
          exact h.sectorLba_ne_fat htwo (hcs x hx).2.1 h.sectors hm.1.2 he.symm
      exact congrArg (fun b : Sector => b.word _)
        ((hwrites.disk_eq halloc).trans (congrFun hdisk _))

/-- On a well-formed card that is `BootSafe`, and with anything in the memory behind the
kernel, `fat32_init` and `dfs_init_config` return and keep the files. -/
theorem boot_keepsFiles (h : WellFormedCard disk i root) (hsafe : BootSafe disk i root)
    (ram : UInt32 → UInt32) (stack stack' : Sector) :
    ∃ s, fat32Init sdDriver ram ⟨disk, []⟩ = .ok (cardVolume disk i, s) ∧
      ∃ enough, ∀ fuel ≥ enough, ∃ c s',
        dfsInitConfig sdDriver (cardVolume disk i) stack stack' fuel s = some (c, s') ∧
          KeepsFiles disk i root s'.disk := by
  obtain ⟨htwo, ch, hch, hlow, hcases⟩ := hsafe
  have hctf : (cardVolume disk i).CountsFromTwo := ⟨rfl, htwo⟩
  obtain ⟨s, hinit, hdev, hfat⟩ := h.init ram
  have hdisk : s.disk = disk := by
    rw [Fs.disk, hdev]
    rfl
  refine ⟨s, hinit, ch.length, fun fuel hfuel => ?_⟩
  have hchain : ∀ {α : Type} {visit : DirRecord → Option α} {p : Slot × α},
      firstHit (cardVolume disk i) visit disk (dirSlots (cardVolume disk i) ch) = some p →
        DirChain (cardVolume disk i) s.fat ch := by
    intro α visit p hhit
    refine h.dirChain hfat hch ?_ hlow
    rintro rfl
    simp [dirSlots, firstHit] at hhit
  have hlookup : ∀ {sl : Slot} {c : UInt32}, firstHit (cardVolume disk i)
      (lookupVisit fat32DfsCfgFilename) disk (dirSlots (cardVolume disk i) ch) = some (sl, c) →
        fat32GetClusterNo sdDriver (cardVolume disk i) fat32DfsCfgFilename stack fuel s =
          some (c, s) := by
    intro sl c hhit
    exact fat32GetClusterNo_of_firstHit h.fatEnd_le htwo (hchain hhit) (by rw [hdisk]; exact hhit)
      hfuel stack
  have hfound : ∀ {sl : Slot} {c : UInt32}, firstHit (cardVolume disk i)
      (lookupVisit fat32DfsCfgFilename) disk (dirSlots (cardVolume disk i) ch) = some (sl, c) →
        c ≠ 0xffffffff → ∃ c s',
          dfsInitConfig sdDriver (cardVolume disk i) stack stack' fuel s = some (c, s') ∧
            KeepsFiles disk i root s'.disk := by
    intro sl c hhit hc
    refine ⟨c, s, dfsInitConfig_of_found hc (hlookup hhit) stack', ?_⟩
    rw [hdisk]
    exact ⟨fun _ _ _ _ _ _ _ => rfl, fun _ _ _ => rfl⟩
  rcases hcases with ⟨sl, c, hhit, hc⟩ | ⟨⟨sl, hhit⟩, c₁, c₂, hlt, hlt₂, hin₁, hin₂, hz₁, hz₂⟩
  · exact hfound hhit hc
  obtain ⟨x, a, hx⟩ := firstHit_lookup_of_end fat32DfsCfgFilename hhit
  by_cases ha : a = 0xffffffff
  · -- the file is created, in clusters of the first FAT sector
    have hlt₁ : c₁ < 128 := UInt32.lt_trans hlt hlt₂
    have hfree : ∀ {c : UInt32}, c < 128 → InVolume disk i c →
        onDiskFat (cardVolume disk i) disk c = 0 → c ∈ freeClusters (cardVolume disk i) s.fat :=
      fun hc hin hz => mem_freeClusters.mpr ⟨hin.1, (hfat _ hc).symm.trans hz⟩
    obtain ⟨hlen, hle⟩ := fileClusters_two hlt (hfree hlt₁ hin₁ hz₁) (hfree hlt₂ hin₂ hz₂)
    have hcs : ∀ y ∈ fileClusters (cardVolume disk i) s.fat (clustersTaken 2), y < 128 ∧
        InVolume disk i y ∧ onDiskFat (cardVolume disk i) disk y = 0 := by
      intro y hy
      have hy128 : y < 128 := UInt32.lt_of_le_of_lt (hle y hy) hlt₂
      obtain ⟨hrange, hz⟩ := mem_fileClusters hy
      exact ⟨hy128, hin₂.of_le hrange.1 (hle y hy), (hfat y hy128).trans hz⟩
    obtain ⟨c, s₁, -, -, hwrites, -, hcall⟩ := fat32AllocLocalFile_run h.fatEnd_le (hchain hhit)
      (by rw [hdisk]; exact hhit) (n := 2) hlen fat32DfsCfgFilename stack' hfuel
    obtain ⟨hcl, hj⟩ := mem_dirSlots.mp (firstHit_some hhit).1
    rw [ha] at hx
    exact ⟨c, _, (dfsInitConfig_of_notFound (hlookup hx) stack').trans hcall,
      h.keepsFiles_of_alloc hctf hdisk hfat hcs hwrites (hch.subset hcl) hj _ _⟩
  · exact hfound hx ha

/-! ## Two cards -/

/-- A card with one partition from sector 1 on, with one sector per cluster, the root
directory at cluster 2, and a FAT of `spf` sectors from sector 2 on. -/
def onePartition (spf : UInt8) (rest : UInt32 → Sector) (lba : UInt32) : Sector :=
  if lba = 0 then fun b => if b = 454 then 1 else if b = 458 then 0xff else 0
  else if lba = 1 then fun b =>
    if b = 12 then 2 else if b = 13 then 1 else if b = 14 then 1 else if b = 16 then 1
    else if b = 36 then spf else if b = 44 then 2 else 0
  else rest lba

/-- A card with nothing on it but an empty root directory. -/
def freshCard : UInt32 → Sector :=
  onePartition 1 fun lba =>
    if lba = 2 then Sector.ofWords fun k => if k = 2 then fat32TerminalClusterNo else 0
    else blankSector

theorem freshCard_wellFormed : WellFormedCard freshCard 0 [2] where
  present := by decide
  alone := by decide
  fitsDisk := by decide
  sectorSize := by decide
  sectors := by decide
  entries := by decide
  fats := by decide
  fatBegin := by decide
  dataBegin := by decide
  rootChain :=
    ⟨List.all_iff_forall_prop.mp (by decide), ⟨List.all_iff_forall_prop.mp (by decide), by decide⟩,
      by decide⟩
  rootHead := by decide
  free := ⟨[3, 4, 5], by decide, by decide, List.all_iff_forall_prop.mp (by decide)⟩

/-- A card with a file in cluster 3. -/
def letterCard : UInt32 → Sector :=
  onePartition 1 fun lba =>
    if lba = 2 then
      Sector.ofWords fun k => if k = 2 ∨ k = 3 then fat32TerminalClusterNo else 0
    else if lba = 3 then
      blankSector.setRecord 0 (newRecord (blankSector.record 0) (fun _ => 65) 3)
    else if lba = 4 then fun _ => 7
    else blankSector

theorem letterCard_wellFormed : WellFormedCard letterCard 0 [2] where
  present := by decide
  alone := by decide
  fitsDisk := by decide
  sectorSize := by decide
  sectors := by decide
  entries := by decide
  fats := by decide
  fatBegin := by decide
  dataBegin := by decide
  rootChain :=
    ⟨List.all_iff_forall_prop.mp (by decide), ⟨List.all_iff_forall_prop.mp (by decide), by decide⟩,
      by decide⟩
  rootHead := by decide
  free := ⟨[4, 5, 6], by decide, by decide, List.all_iff_forall_prop.mp (by decide)⟩

/-- The file is a chain of one cluster. -/
theorem letterCard_chain : CardChain letterCard 0 [3] :=
  ⟨List.all_iff_forall_prop.mp (by decide), ⟨List.all_iff_forall_prop.mp (by decide), by decide⟩,
    by decide⟩

theorem letterCard_safe : BootSafe letterCard 0 [2] :=
  ⟨by decide, [2], List.prefix_refl _, List.all_iff_forall_prop.mp (by decide),
    Or.inr ⟨⟨⟨2, 0, 1⟩, rfl⟩, 4, 5, by decide, by decide, by decide, by decide, by decide,
      by decide⟩⟩

theorem boot_keepsFiles_fresh :
    ∃ s, fat32Init sdDriver (fun _ => 1) ⟨letterCard, []⟩ = .ok (cardVolume letterCard 0, s) ∧
      ∃ enough, ∀ fuel ≥ enough, ∃ c s',
        dfsInitConfig sdDriver (cardVolume letterCard 0) blankSector blankSector fuel s =
          some (c, s') ∧ KeepsFiles letterCard 0 [2] s'.disk ∧ s'.disk 4 = fun _ => 7 := by
  obtain ⟨s, hinit, enough, hcall⟩ := boot_keepsFiles letterCard_wellFormed letterCard_safe
    (fun _ => 1) blankSector blankSector
  refine ⟨s, hinit, enough, fun fuel hfuel => ?_⟩
  obtain ⟨c, s', hrun, hkeeps⟩ := hcall fuel hfuel
  exact ⟨c, s', hrun, hkeeps, hkeeps.data [3] letterCard_chain (by simp) 3 (by decide) 0
    (by decide)⟩

/-- A card on which every cluster of the first FAT sector and cluster 128 is in use. -/
def crowdedCard : UInt32 → Sector :=
  onePartition 2 fun lba =>
    if lba = 2 then Sector.ofWords fun _ => fat32TerminalClusterNo
    else if lba = 3 then Sector.ofWords fun k => if k = 0 then fat32TerminalClusterNo else 0
    else if lba = 130 then fun _ => 1
    else blankSector

theorem crowdedCard_wellFormed : WellFormedCard crowdedCard 0 [2] where
  present := by decide
  alone := by decide
  fitsDisk := by decide
  sectorSize := by decide
  sectors := by decide
  entries := by decide
  fats := by decide
  fatBegin := by decide
  dataBegin := by decide
  rootChain :=
    ⟨List.all_iff_forall_prop.mp (by decide), ⟨List.all_iff_forall_prop.mp (by decide), by decide⟩,
      by decide⟩
  rootHead := by decide
  free := ⟨[129, 130, 131], by decide, by decide, List.all_iff_forall_prop.mp (by decide)⟩

theorem crowdedCard_sound : (cardVolume crowdedCard 0).Sound where
  sectors := rfl
  root := by decide
  sectorSize := by decide
  entries := by decide
  after := by decide
  below := by decide

theorem crowdedCard_used {x : UInt32} (hx : x < 128) :
    onDiskFat (cardVolume crowdedCard 0) crowdedCard x = fat32TerminalClusterNo := by
  have hbegin : (cardVolume crowdedCard 0).data.fatBeginLba = 2 := by decide
  have hsector : crowdedCard 2 = Sector.ofWords fun _ => fat32TerminalClusterNo := rfl
  rw [onDiskFat, fatSectorLba_of_lt hx, hbegin, hsector, Sector.word_ofWords]

/-- Booting the crowded card with zeros in memory takes cluster 128, which a file uses. -/
theorem boot_losesFile :
    WellFormedCard crowdedCard 0 [2] ∧
      ∃ s c s', fat32Init sdDriver (fun _ => 0) ⟨crowdedCard, []⟩ =
          .ok (cardVolume crowdedCard 0, s) ∧
        dfsInitConfig sdDriver (cardVolume crowdedCard 0) blankSector blankSector 1 s =
          some (c, s') ∧
        ¬ KeepsFiles crowdedCard 0 [2] s'.disk := by
  have h := crowdedCard_wellFormed
  have hsound := crowdedCard_sound
  obtain ⟨s, hinit, hdev, hfat⟩ := h.init fun _ => 0
  have hdisk : s.disk = crowdedCard := by
    rw [Fs.disk, hdev]
    rfl
  -- behind the first FAT sector the memory holds what was there before
  have hram : s.fat 128 = 0 ∧ s.fat 129 = 0 := by
    have heq := hinit.symm.trans (fat32Init_eq (fun _ => 0) rfl h.present h.alone h.sectorSize)
    rw [(Prod.mk.inj (Except.ok.inj heq)).2]
    decide
  have hfree : ∀ x, x = 128 ∨ x = 129 → x ∈ freeClusters (cardVolume crowdedCard 0) s.fat := by
    rintro x (rfl | rfl)
    · exact mem_freeClusters.mpr ⟨by decide, hram.1⟩
    · exact mem_freeClusters.mpr ⟨by decide, hram.2⟩
  have hlen := (fileClusters_two (by decide) (hfree 128 (by simp)) (hfree 129 (by simp))).1
  have hchain : DirChain (cardVolume crowdedCard 0) s.fat [2] :=
    h.dirChain hfat (List.prefix_refl _) (by decide)
      (List.all_iff_forall_prop.mp (by decide))
  have hend : firstHit (cardVolume crowdedCard 0) insertVisit s.disk
      (dirSlots (cardVolume crowdedCard 0) [2]) = some (⟨2, 0, 0⟩, ()) := by
    rw [hdisk]
    rfl
  have hlook : firstHit (cardVolume crowdedCard 0) (lookupVisit fat32DfsCfgFilename) s.disk
      (dirSlots (cardVolume crowdedCard 0) [2]) = some (⟨2, 0, 0⟩, 0xffffffff) := by
    rw [hdisk]
    rfl
  obtain ⟨c, s₁, -, -, hwrites, hzero, hcall⟩ := fat32AllocLocalFile_run h.fatEnd_le hchain
    hend (n := 2) hlen fat32DfsCfgFilename blankSector (le_refl 1)
  -- the first cluster taken is 128
  have htaken : 128 ∈ fileClusters (cardVolume crowdedCard 0) s.fat (clustersTaken 2) := by
    obtain ⟨rest, hrest⟩ := freeClusters_eq_cons (hfree 128 (by simp)) (fun x hx hin => by
      have hused := (hfat x hx).trans (mem_freeClusters.mp hin).2
      rw [crowdedCard_used hx] at hused
      exact absurd hused (by decide))
    rw [fileClusters, hrest]
    exact List.mem_cons_self
  have hblank := (hzero 128 htaken).blank hsound (fun x hx => (mem_fileClusters hx).1)
    (mem_fileClusters htaken).1
  refine ⟨h, s, c, _, hinit, (dfsInitConfig_of_notFound (fat32GetClusterNo_of_firstHit h.fatEnd_le
    (by decide) hchain hlook (le_refl 1) _) _).trans hcall, fun hkeeps => ?_⟩
  have hsame := hkeeps.data [128]
    ⟨List.all_iff_forall_prop.mp (by decide), ⟨List.all_iff_forall_prop.mp (by decide), by decide⟩,
      by decide⟩
    (List.disjoint_singleton.mpr (by decide)) 128 (by simp) 0 (by decide)
  have hgone := storeRecord_blank hsound (mem_fileClusters htaken).1 (hchain.inRange 2 (by simp))
    (by decide) (mem_dirSlots.mp (firstHit_some hend).1).2 0
    ((s.disk (slotLba (cardVolume crowdedCard 0) ⟨2, 0, 0⟩)).setRecord 0
      (newRecord (slotRecord (cardVolume crowdedCard 0) s.disk ⟨2, 0, 0⟩) fat32DfsCfgFilename c))
    hblank
  have hlba : clusterNoToLba (cardVolume crowdedCard 0) 128 =
      dataSector (cardVolume crowdedCard 0) 128 0 := by decide
  rw [hlba] at hgone
  have hold : crowdedCard (dataSector (cardVolume crowdedCard 0) 128 0) = blankSector :=
    hsame.symm.trans hgone
  exact absurd (congrFun hold 0) (by decide)

end NaiveGfs
