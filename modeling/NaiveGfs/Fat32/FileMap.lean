import NaiveGfs.Fat32.Coherence
import NaiveGfs.Fat32.ClusterIo
import NaiveGfs.Fat32.Findable
import NaiveGfs.Fat32.PartitionTable

/-!
# Where files lie

A file is found by its name at the head of a chain of clusters that it shares with no other
file and not with the root directory. Creating a file adds one chain to the map, a write to a
cluster of one file leaves the map and every other cluster alone, and `fat32_init` finds the
same map again as long as the FAT has one sector.
-/

namespace NaiveGfs

open BlockStore BlockStore.Store LinkTable

variable {vol : Volume} {s s' : Fs Card} {ch cs : List UInt32} {name : Fin 11 → UInt8}
  {n c d : UInt32} {i j : ℕ}

/-- The bytes of one cluster. -/
abbrev ClusterBytes (vol : Volume) := Fin (512 * vol.id.sectorsPerCluster.toNat) → UInt8

/-- The sectors of a cluster. -/
def SectorOf (vol : Volume) (c lba : UInt32) : Prop :=
  ∃ j < vol.id.sectorsPerCluster.toNat, lba = sectorLba vol c j

/-- The card has one partition in use, whose volume is `vol`, and the FAT lies behind the two
sectors that say so. -/
structure MountsAs (disk : UInt32 → Sector) (i : Fin 4) (vol : Volume) : Prop where
  present : ((disk 0).partition i).numSectors ≠ 0
  alone : ∀ k, k ≠ i → ((disk 0).partition k).numSectors = 0
  volume : cardVolume disk i = vol
  front : ((disk 0).partition i).lbaBegin.toNat < vol.data.fatBeginLba.toNat

/-- Each name is found at the head of its chain, and no cluster has two owners. -/
structure FileMap (vol : Volume) (ch : List UInt32) (s : Fs Card)
    (chains : (Fin 11 → UInt8) → Option (List UInt32)) : Prop where
  root : RootChain vol s.fat ch
  coherent : Coherent vol s
  found : ∀ {name cs}, chains name = some cs → ∃ sl c, cs.head? = some c ∧
    firstHit vol (lookupVisit name) s.disk (dirSlots vol ch) = some (sl, c)
  chain : ∀ {name cs}, chains name = some cs → FatChain vol s.fat cs
  nodup : ∀ {name cs}, chains name = some cs → cs.Nodup
  apart : ∀ {name cs}, chains name = some cs → cs.Disjoint ch
  disjoint : ∀ {name name' cs ds}, chains name = some cs → chains name' = some ds →
    name ≠ name' → cs.Disjoint ds

/-- The cluster with index `i` of a file, as it is reached by the lookup of its name and then
along the links of the table. -/
inductive FileCluster (vol : Volume) (s : Fs Card) (name : Fin 11 → UInt8) : ℕ → UInt32 → Prop
  | head {c : UInt32} (hc : c ≠ 0xffffffff) (hfound : Finds vol s name c) :
      FileCluster vol s name 0 c
  | next {i : ℕ} {c : UInt32} (hc : FileCluster vol s name i c)
      (hlink : fat32NextCluster s.fat c < 0x0ffffff8) :
      FileCluster vol s name (i + 1) (fat32NextCluster s.fat c)

/-- A call `fat32_alloc_local_file(n, name)` as in `Creates`, with its number of clusters. -/
inductive CreatesFile (vol : Volume) (ch : List UInt32) (s : Fs Card) (n : UInt32)
    (name : Fin 11 → UInt8) (c : UInt32) (s' : Fs Card) : Prop
  | intro {stack stack' : Sector} {fuel fuel' : ℕ} {sl : Slot} (hn : 1 ≤ n)
      (hfree : n.toNat ≤ (freeClusters vol s.fat).length) (hname : ∀ i, ¬ IsEnd (name i))
      (hlookup : fat32GetClusterNo sdDriver vol name stack fuel s = some (0xffffffff, s))
      (hclear : Unambiguous vol ch s name)
      (hend : firstHit vol insertVisit s.disk (dirSlots vol ch) = some (sl, ()))
      (hcall : fat32AllocLocalFile sdDriver vol n name stack' fuel' s = some (c, s'))

/-! ## Sectors and clusters -/

/-- Clusters with the same bytes have the same sectors. -/
theorem sector_of_clusterContents {disk disk' : UInt32 → Sector}
    (h : clusterContents vol disk' c = clusterContents vol disk c)
    (hj : j < vol.id.sectorsPerCluster.toNat) :
    disk' (sectorLba vol c j) = disk (sectorLba vol c j) := by
  funext b
  have hk : 512 * j + b.val < 512 * vol.id.sectorsPerCluster.toNat := by omega
  have hb := congrFun h ⟨512 * j + b.val, hk⟩
  have hdiv : (512 * j + b.val) / 512 = j := by omega
  have hmod : (512 * j + b.val) % 512 = b.val := by omega
  simpa only [clusterContents, hdiv, hmod] using hb

theorem clusterContents_congr {disk disk' : UInt32 → Sector}
    (h : ∀ j < vol.id.sectorsPerCluster.toNat,
      disk' (sectorLba vol c j) = disk (sectorLba vol c j)) :
    clusterContents vol disk' c = clusterContents vol disk c := by
  funext k
  rw [clusterContents, clusterContents, h _ (by omega)]

/-- Writes to the sectors of one cluster leave the others alone. -/
theorem clusterContents_of_touches (hvol : vol.Sound) (hd : vol.InRange d) (hc : vol.InRange c)
    (hne : d ≠ c) (ht : Touches (SectorOf vol c) s.dev s'.dev) :
    clusterContents vol s'.disk d = clusterContents vol s.disk d := by
  refine clusterContents_congr fun j hj => ht.current_eq ?_
  rintro ⟨j', hj', he⟩
  exact hne (hvol.sectorLba_inj (hvol.fits hd) (hvol.fits hc) hj hj' he).1

/-- Writes to the sectors of a cluster do not reach the FAT. -/
theorem Coherent.of_touches (hvol : vol.Sound) (h : Coherent vol s) (hc : vol.InRange c)
    (hfat : s'.fat = s.fat) (ht : Touches (SectorOf vol c) s.dev s'.dev) : Coherent vol s' := by
  intro k hk
  have hframe : s'.disk (fatSectorLba vol k) = s.disk (fatSectorLba vol k) := by
    refine ht.current_eq ?_
    rintro ⟨j, hj, he⟩
    exact hvol.sectorLba_ne_fat hc hj hk he.symm
  rw [hfat, onDiskFat, hframe]
  exact h k hk

theorem writeCluster_touches (vol : Volume) (c : UInt32) (src : ℕ → UInt8) (card : Card) :
    Touches (SectorOf vol c) card (writeCluster vol sdDriver c src card) := by
  have hrounds : ∀ m ≤ vol.id.sectorsPerCluster.toNat, Touches (SectorOf vol c) card
      ((List.range m).foldl (fun dev i => sdDriver.writesector dev (bufSector src (512 * i))
        (sectorLba vol c i)) card) := by
    intro m
    induction m with
    | zero => exact fun _ => Touches.refl
    | succ m ih =>
      intro hm
      rw [List.range_succ, List.foldl_concat]
      exact (ih (by omega)).trans (Touches.write ⟨m, by omega, rfl⟩ _)
  exact hrounds _ le_rfl

/-! ## In front of the FAT -/

/-- The sectors of the FAT and of the clusters lie behind the beginning of the FAT. -/
def BehindBoot (vol : Volume) (lba : UInt32) : Prop :=
  vol.data.fatBeginLba.toNat ≤ lba.toNat

theorem SectorOf.behindBoot (hvol : vol.Sound) (hc : vol.InRange c) {lba : UInt32}
    (h : SectorOf vol c lba) : BehindBoot vol lba := by
  obtain ⟨j, hj, rfl⟩ := h
  have hafter := hvol.after
  rw [BehindBoot, hvol.toNat_sectorLba (hvol.fits hc) hj]
  omega

theorem AllocSector.behindBoot (hvol : vol.Sound) (hcs : ∀ c ∈ cs, vol.InRange c) {lba : UInt32}
    (h : AllocSector vol cs lba) : BehindBoot vol lba := by
  obtain ⟨c, hc, rfl | rfl⟩ := h
  · rw [BehindBoot, (hvol.toNat_fatSectorLba (hcs c hc).2).1]
    omega
  · have hafter := hvol.after
    rw [BehindBoot, hvol.toNat_clusterNoToLba (hvol.fits (hcs c hc))]
    omega

/-- Writes behind the beginning of the FAT leave the volume of a card as it is. -/
theorem MountsAs.of_touches {p : Fin 4} (h : MountsAs s.disk p vol)
    (ht : Touches (BehindBoot vol) s.dev s'.dev) : MountsAs s'.disk p vol := by
  have hfront := h.front
  have hzero : s'.disk 0 = s.disk 0 := by
    refine ht.current_eq fun hb => ?_
    have hb : vol.data.fatBeginLba.toNat ≤ 0 := hb
    omega
  have hlba : s'.disk ((s.disk 0).partition p).lbaBegin =
      s.disk ((s.disk 0).partition p).lbaBegin :=
    ht.current_eq fun hb => absurd h.front (not_lt.mpr hb)
  have hvolume := h.volume
  refine ⟨?_, ?_, ?_, ?_⟩
  · rw [hzero]; exact h.present
  · rw [hzero]; exact h.alone
  · rw [cardVolume] at hvolume ⊢
    rw [hzero, hlba]
    exact hvolume
  · rw [hzero]; exact h.front

/-! ## Chains -/

theorem FatChain.congr {fat fat' : UInt32 → UInt32} (h : FatChain vol fat cs)
    (hfat : ∀ c ∈ cs, fat' c = fat c) : FatChain vol fat' cs := by
  have hnext : ∀ c ∈ cs, fat32NextCluster fat' c = fat32NextCluster fat c := fun c hc => by
    rw [fat32NextCluster, fat32NextCluster, hfat c hc]
  exact ⟨h.1, h.2.congr hnext fun c hc hend => by rw [hnext c hc]; exact hend⟩

/-- A chain of clusters in range that has been entered into the table is a chain. -/
theorem fatChain_writeChain (hend : vol.fatEnd.toNat ≤ 2 ^ 28) (hne : cs ≠ []) (hnodup : cs.Nodup)
    (hcs : ∀ c ∈ cs, vol.InRange c) (fat : UInt32 → UInt32) :
    FatChain vol (writeChain fat32TerminalClusterNo cs fat) cs := by
  have hfollows := writeChain_follows fat32TerminalClusterNo hne hnodup fat
  refine ⟨hcs, hfollows.congr (fun c hc => ?_) fun c _ hstop => ?_⟩
  · rcases hfollows.next_mem_or_ends hc with hmem | hstop
    · exact clusterNo_of_lt ((hcs _ hmem).lt.trans_le hend)
    · rw [fat32NextCluster, hstop]
      rfl
  · rw [fat32NextCluster, hstop]
    decide

namespace FileMap

variable {chains : (Fin 11 → UInt8) → Option (List UInt32)}

/-- The clusters of a file, counted along the links, are those of its chain. -/
theorem getElem?_of_cluster (h : FileMap vol ch s chains) (hvol : vol.Sound)
    (hname : chains name = some cs) (hc : FileCluster vol s name i c) : cs[i]? = some c := by
  induction hc with
  | @head c hne hfound =>
    obtain ⟨sl, c', hhead, hhit⟩ := h.found hname
    obtain ⟨enough, hlook⟩ := hfound
    have hsame : c = c' := lookup_unique (hlook enough le_rfl blankSector) (h.root.finds hvol hhit)
    rw [← List.head?_eq_getElem?, hhead, hsame]
  | @next i c hc hlink ih =>
    exact (h.chain hname).2.getElem?_succ ih (by simpa using hlink)

theorem inRange (h : FileMap vol ch s chains) (hname : chains name = some cs) (hc : c ∈ cs) :
    vol.InRange c :=
  (h.chain hname).1 c hc

/-- The map depends on the entries of the FAT and on the sectors of the directory. -/
theorem congr (h : FileMap vol ch s chains) (hfat : ∀ c, vol.InRange c → s'.fat c = s.fat c)
    (hdir : ∀ c ∈ ch, clusterContents vol s'.disk c = clusterContents vol s.disk c)
    (hco : Coherent vol s') : FileMap vol ch s' chains where
  root := h.root.congr fun c hc => hfat c (h.root.inRange c hc)
  coherent := hco
  found hname := by
    obtain ⟨sl, c, hhead, hhit⟩ := h.found hname
    refine ⟨sl, c, hhead, ?_⟩
    rw [← hhit]
    refine firstHit_congr fun x hx => ?_
    obtain ⟨hc, hj⟩ := mem_dirSlots.mp hx
    rw [slotRecord, slotLba, sector_of_clusterContents (hdir _ hc) hj]
    rfl
  chain hname := (h.chain hname).congr fun c hc => hfat c (h.inRange hname hc)
  nodup := h.nodup
  apart := h.apart
  disjoint := h.disjoint

/-- Writes to the sectors of a cluster that is not the directory's leave the map alone. -/
theorem of_touches (h : FileMap vol ch s chains) (hvol : vol.Sound) (hc : vol.InRange c)
    (hout : c ∉ ch) (hfat : s'.fat = s.fat) (ht : Touches (SectorOf vol c) s.dev s'.dev) :
    FileMap vol ch s' chains := by
  refine h.congr (fun k _ => by rw [hfat]) (fun d hd => ?_) (h.coherent.of_touches hvol hc hfat ht)
  exact clusterContents_of_touches hvol (h.root.inRange d hd) hc (fun he => hout (he ▸ hd)) ht

/-- The clusters of one file are no other file's. -/
theorem eq_of_mem (h : FileMap vol ch s chains) {name' : Fin 11 → UInt8} {ds : List UInt32}
    (hname : chains name = some cs) (hname' : chains name' = some ds) (hc : c ∈ cs)
    (hd : c ∈ ds) : name = name' := by
  by_contra hne
  exact h.disjoint hname hname' hne hc hd

end FileMap

/-! ## Creating a file -/

theorem CreatesFile.creates (h : CreatesFile vol ch s n name c s') :
    Creates vol ch s name c s' := by
  obtain ⟨hn, hfree, hname, hlookup, -, hend, hcall⟩ := h
  exact .intro hn hfree hname hlookup hend hcall

theorem CreatesFile.unambiguous (h : CreatesFile vol ch s n name c s') :
    Unambiguous vol ch s name := by
  obtain ⟨-, -, -, -, hclear, -, -⟩ := h
  exact hclear

/-- What a call that creates a file does to the table and to the card: it enters the first
free clusters as a chain and then writes to one cluster of the directory. -/
theorem CreatesFile.run (hvol : vol.Sound) (hroot : RootChain vol s.fat ch)
    (hcall : CreatesFile vol ch s n name c s') :
    ∃ cs s₁ d, cs = fileClusters vol s.fat n.toNat ∧ cs.length = n.toNat ∧ cs.head? = some c ∧
      s'.fat = writeChain fat32TerminalClusterNo cs s.fat ∧ FatWrites sdDriver vol cs s s₁ ∧
      (∀ x ∈ cs, ZeroedOnTheWay sdDriver vol cs x s s₁) ∧ d ∈ ch ∧ s'.fat = s₁.fat ∧
      Touches (SectorOf vol d) s₁.dev s'.dev := by
  obtain @⟨stack, stack', fuel, fuel', sl, hn, hfree, -, -, -, hhit, hcall⟩ := hcall
  have htaken := clustersTaken_of_le hvol.fatEnd_le hn hfree
  obtain ⟨c₁, s₁, hhead, hfat, hwrites, hzero, hrun⟩ := fat32AllocLocalFile_run hvol.fatEnd_le
    hroot.toDirChain hhit (by rwa [htaken]) name stack' (le_max_left ch.length fuel')
  have hsame := hrun.symm.trans (fat32AllocLocalFile_mono (le_max_right ch.length fuel') hcall)
  obtain ⟨rfl, rfl⟩ := Prod.mk.inj (Option.some.inj hsame)
  obtain ⟨hcl, hj⟩ := mem_dirSlots.mp (firstHit_some hhit).1
  rw [htaken] at hhead hfat hwrites hzero
  refine ⟨_, s₁, sl.cluster, rfl, ?_, hhead, ?_, hwrites, hzero, hcl, fat_storeRecord ..,
    storeRecord_touches _ _ hj _ _ _⟩
  · rw [fileClusters, List.length_take, min_eq_left hfree]
  · rw [fat_storeRecord, hfat]

/-- A call that creates a file writes nothing in front of the FAT. -/
theorem CreatesFile.touches (hvol : vol.Sound) (hroot : RootChain vol s.fat ch)
    (hcall : CreatesFile vol ch s n name c s') : Touches (BehindBoot vol) s.dev s'.dev := by
  obtain ⟨cs, s₁, d, rfl, -, -, -, hwrites, -, hd, -, ht⟩ := hcall.run hvol hroot
  refine (hwrites.touches.mono fun lba h => ?_).trans (ht.mono fun lba h => ?_)
  · exact h.behindBoot hvol fun x hx => (mem_fileClusters hx).1
  · exact h.behindBoot hvol (hroot.inRange d hd)

/-- The files after one more has been entered. -/
theorem update_chains_cases {chains : (Fin 11 → UInt8) → Option (List UInt32)}
    {name' : Fin 11 → UInt8} {ds : List UInt32}
    (h : Function.update chains name (some cs) name' = some ds) :
    name' = name ∧ ds = cs ∨ name' ≠ name ∧ chains name' = some ds := by
  by_cases hname : name' = name
  · subst hname
    rw [Function.update_self] at h
    exact .inl ⟨rfl, (Option.some.inj h).symm⟩
  · rw [Function.update_of_ne hname] at h
    exact .inr ⟨hname, h⟩

/-- A new file has the clusters asked for, its chain is added to the map, the first sectors of
its clusters are blank, and a cluster of a file keeps its bytes. -/
theorem FileMap.create {chains : (Fin 11 → UInt8) → Option (List UInt32)} (hvol : vol.Sound)
    (h : FileMap vol ch s chains) (hcall : CreatesFile vol ch s n name c s') :
    ∃ cs, cs.length = n.toNat ∧ FileMap vol ch s' (Function.update chains name (some cs)) ∧
      (∀ x ∈ cs, s'.disk (clusterNoToLba vol x) = blankSector) ∧
      ∀ {name' ds}, chains name' = some ds → ∀ x ∈ ds,
        clusterContents vol s'.disk x = clusterContents vol s.disk x := by
  obtain ⟨hroot, hc, hnew, hkeep⟩ := hcall.creates.directory hvol h.root hcall.unambiguous
  obtain ⟨cs, s₁, d, hcs, hlen, hhead, hfat, hwrites, hzero, hd, hfat₁, ht⟩ := hcall.run hvol h.root
  have hfree : ∀ x ∈ cs, vol.InRange x ∧ s.fat x = 0 := fun x hx => mem_fileClusters (hcs ▸ hx)
  have hrange : ∀ x ∈ cs, vol.InRange x := fun x hx => (hfree x hx).1
  have hdrange := h.root.inRange d hd
  have hrootCs : cs.Disjoint ch := fun x hx hin => h.root.used x hin (hfree x hx).2
  have hapart {name' : Fin 11 → UInt8} {ds : List UInt32} (hname : chains name' = some ds) :
      ds.Disjoint cs := fun x hx hin => (h.chain hname).used hx (hfree x hin).2
  have hchain {name' : Fin 11 → UInt8} {ds : List UInt32} (hname : chains name' = some ds) :
      FatChain vol s'.fat ds := (h.chain hname).congr fun x hx => by
    rw [hfat, writeChain_of_notMem (hapart hname hx)]
  have hne : cs ≠ [] := by
    rintro rfl
    simp at hhead
  have hnodup : cs.Nodup := hcs ▸ fileClusters_nodup vol s.fat _
  refine ⟨cs, hlen, ?_, fun x hx => ?_, fun {name' ds} hname x hx => ?_⟩
  · constructor
    · exact hroot
    · exact (hwrites.coherent hvol hrange h.coherent).of_touches hvol hdrange hfat₁ ht
    · intro name' ds hname
      rcases update_chains_cases hname with ⟨rfl, rfl⟩ | ⟨-, hold⟩
      · obtain ⟨sl, hhit⟩ := hnew
        exact ⟨sl, c, hhead, hhit⟩
      · obtain ⟨sl, c', hhead', hhit⟩ := h.found hold
        have hc' := (h.inRange hold (List.mem_of_head? hhead')).ne_allOnes hvol.fatEnd_le
        obtain ⟨sl', hhit'⟩ := hkeep name' c' hc' (h.root.finds hvol hhit)
        exact ⟨sl', c', hhead', hhit'⟩
    · intro name' ds hname
      rcases update_chains_cases hname with ⟨-, rfl⟩ | ⟨-, hold⟩
      · rw [hfat]
        exact fatChain_writeChain hvol.fatEnd_le hne hnodup hrange s.fat
      · exact hchain hold
    · intro name' ds hname
      rcases update_chains_cases hname with ⟨-, rfl⟩ | ⟨-, hold⟩
      · exact hnodup
      · exact h.nodup hold
    · intro name' ds hname
      rcases update_chains_cases hname with ⟨-, rfl⟩ | ⟨-, hold⟩
      · exact hrootCs
      · exact h.apart hold
    · intro name₁ name₂ ds₁ ds₂ hname₁ hname₂ hdiff
      rcases update_chains_cases hname₁ with ⟨rfl, rfl⟩ | ⟨-, hold₁⟩
      · rcases update_chains_cases hname₂ with ⟨rfl, -⟩ | ⟨-, hold₂⟩
        · exact absurd rfl hdiff
        · exact (hapart hold₂).symm
      · rcases update_chains_cases hname₂ with ⟨-, rfl⟩ | ⟨-, hold₂⟩
        · exact hapart hold₁
        · exact h.disjoint hold₁ hold₂ hdiff
  · -- zeroed on the way, and not a cluster of the directory
    have hblank := (hzero x hx).blank hvol hrange (hrange x hx)
    rw [← hblank]
    refine ht.current_eq ?_
    rintro ⟨j, hj, he⟩
    rw [Volume.clusterNoToLba_eq_sectorLba] at he
    obtain ⟨rfl, -⟩ := hvol.sectorLba_inj (hvol.fits (hrange x hx)) (hvol.fits hdrange) (by omega)
      hj he
    exact hrootCs hx hd
  · have hxrange := h.inRange hname hx
    have hfirst : clusterContents vol s₁.disk x = clusterContents vol s.disk x :=
      clusterContents_congr fun j hj => hwrites.disk_eq <| not_allocSector hvol.toCountsFromTwo
        (hvol.fits hxrange) hj (fun y hy => hvol.fits (hrange y hy))
        (fun y hy => hvol.sectorLba_ne_fat hxrange hj (hrange y hy).2) (hapart hname hx)
    rw [clusterContents_of_touches hvol hxrange hdrange (fun he => h.apart hname hx (he ▸ hd)) ht,
      hfirst]

/-! ## Mounting the card again -/

/-- On a card with one FAT sector `fat32_init` finds the volume, the table and the files. -/
theorem FileMap.mount {chains : (Fin 11 → UInt8) → Option (List UInt32)} (hvol : vol.Sound)
    (h : FileMap vol ch s chains) {p : Fin 4} (hcard : MountsAs s.disk p vol)
    (hone : vol.id.sectorsPerFat.toNat = 1) (ram : UInt32 → UInt32) :
    ∃ s', fat32Init sdDriver ram s.dev = .ok (vol, s') ∧ s'.dev = s.dev ∧
      FileMap vol ch s' chains := by
  have hsize : (cardVolume s.disk p).id.bytesPerSector = 512 := hcard.volume ▸ hvol.sectorSize
  have hcurrent : s.dev.current = s.disk := rfl
  have hinit := fat32Init_eq ram hcurrent hcard.present hcard.alone hsize
  rw [hcard.volume] at hinit
  have hpos : 1 ≤ vol.id.sectorsPerFat.toNat := by omega
  obtain ⟨hdev, hholds⟩ := loadFat_holds hpos (by omega) { fat := ram, dev := s.dev }
  refine ⟨_, hinit, hdev, ?_⟩
  have hend : vol.fatEnd.toNat = 128 := by
    rw [hvol.toNat_fatEnd, hone]
  have hlow : ∀ k, k < vol.fatEnd → k < 128 := fun k hk => by
    rw [UInt32.lt_iff_toNat_lt] at hk ⊢
    exact hk.trans_eq hend
  refine h.congr (fun k hk => ?_) (fun d _ => ?_) fun k hk => ?_
  · rw [← hholds k (hlow k hk.2)]
    exact h.coherent k hk.2
  · rw [Fs.disk, hdev]
    rfl
  · rw [Fs.disk, hdev]
    exact hholds k (hlow k hk)

end NaiveGfs
