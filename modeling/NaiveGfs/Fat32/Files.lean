import NaiveGfs.Dfs.Permanent
import NaiveGfs.Fat32.Boot
import NaiveGfs.Fat32.FileMap
import NaiveGfs.Storage.FileStore

/-!
# The card as a store of files

Through `fat32_alloc_local_file`, `fat32_get_cluster_no`, the links of the table and the two
cluster functions a card is a store of named files of clusters. Calls in any order, with
reboots between them where the FAT has one sector, do to the card what the operations of the
store do to the files.
-/

namespace NaiveGfs

open BlockStore BlockStore.Store FileStore Transitions

variable {vol : Volume} {s s' : Fs Card} {ch : List UInt32} {name : Fin 11 → UInt8}
  {n c : UInt32} {i : ℕ}

/-- The files of a card, by name and cluster by cluster. -/
abbrev CardFiles (vol : Volume) := Files (Fin 11 → UInt8) (ClusterBytes vol)

/-- The first sector of a cluster. -/
def headSector (b : ClusterBytes vol) : Sector := fun k =>
  if h : k.val < 512 * vol.id.sectorsPerCluster.toNat then b ⟨k.val, h⟩ else 0

/-- A cluster with another first sector. -/
def withHeadSector (sector : Sector) (b : ClusterBytes vol) : ClusterBytes vol := fun k =>
  if h : k.val < 512 then sector ⟨k.val, h⟩ else b k

/-- A new cluster: its first sector is blank. -/
def BlankStart (b : ClusterBytes vol) : Prop := ∀ k, k.val < 512 → b k = 0

/-- One call, or a reboot, with what the caller gives and what it sees. -/
inductive FsEvent (vol : Volume)
  | created (n : UInt32) (name : Fin 11 → UInt8) (c : UInt32)
  | wrote (name : Fin 11 → UInt8) (i : ℕ) (src : ℕ → UInt8)
  | readBack (name : Fin 11 → UInt8) (i : ℕ) (bytes : ClusterBytes vol)
  | identified (dfsName : Fin 30 → UInt8) (id r : ℤ)
  | rebooted

/-- What the calls do to a card whose root directory begins with the clusters `ch`. -/
inductive FsStep (vol : Volume) (ch : List UInt32) (s : Fs Card) : FsEvent vol → Fs Card → Prop
  | created {n : UInt32} {name : Fin 11 → UInt8} {c : UInt32} {s' : Fs Card}
      (hcall : CreatesFile vol ch s n name c s') : FsStep vol ch s (.created n name c) s'
  | wrote {name : Fin 11 → UInt8} {i : ℕ} {c : UInt32} (hc : FileCluster vol s name i c)
      (src : ℕ → UInt8) :
      FsStep vol ch s (.wrote name i src) { s with dev := writeCluster vol sdDriver c src s.dev }
  | readBack {name : Fin 11 → UInt8} {i : ℕ} {c : UInt32} (hc : FileCluster vol s name i c)
      (dst : ℕ) (behind : ℕ → UInt8) :
      FsStep vol ch s
        (.readBack name i fun k => readCluster vol s.disk c dst behind (dst + k.val)) s
  | identified {c : UInt32} {dfsName : Fin 30 → UInt8} {id r : ℤ} {stack : Sector} {dev : Card}
      (hc : FileCluster vol s fat32DfsCfgFilename 0 c)
      (hcall : idForDfs sdDriver vol c dfsName id stack s.dev = some (r, dev)) :
      FsStep vol ch s (.identified dfsName id r) { s with dev := dev }
  | rebooted {ram : UInt32 → UInt32} {vol' : Volume} {s' : Fs Card}
      (hinit : fat32Init sdDriver ram s.dev = .ok (vol', s')) : FsStep vol ch s .rebooted s'

/-- The change that `id_for_dfs` makes to the first cluster of the config file. -/
def identify (dfsName : Fin 30 → UInt8) (id : ℤ) (b : ClusterBytes vol) : ClusterBytes vol :=
  withHeadSector (scanSector (headSector b) dfsName id) b

/-- The operation on the files. -/
def FsEvent.op : FsEvent vol → Op (Fin 11 → UInt8) (ClusterBytes vol)
  | .created n name _ => .create name n.toNat
  | .wrote name i src => .access name i (fun _ => True) fun _ => bufBytes vol src
  | .readBack name i bytes => .access name i (fun b => bytes = b) id
  | .identified dfsName id r =>
    .access fat32DfsCfgFilename 0 (fun b => r = scanResult (headSector b) dfsName)
      (identify dfsName id)
  | .rebooted => .restart

/-- The files that lie in the given chains. -/
def storedFiles (vol : Volume) (disk : UInt32 → Sector)
    (chains : (Fin 11 → UInt8) → Option (List UInt32)) : CardFiles vol := fun name =>
  (chains name).map fun cs => cs.map (clusterContents vol disk)

/-- The card holds the files, and mounts as the volume. -/
structure Represents (vol : Volume) (ch : List UInt32) (s : Fs Card) (files : CardFiles vol) :
    Prop where
  map : ∃ chains, FileMap vol ch s chains ∧ files = storedFiles vol s.disk chains
  mounts : ∃ p, MountsAs s.disk p vol

/-- A reboot only where the FAT has one sector, an access only to a file that is there. -/
structure Allowed (files : CardFiles vol) (e : FsEvent vol) : Prop where
  one : e = .rebooted → vol.id.sectorsPerFat.toNat = 1
  opened : ∀ name i saw f, e.op = .access name i saw f → files name ≠ none

/-! ## Head sectors -/

theorem headSector_clusterContents (hpos : 1 ≤ vol.id.sectorsPerCluster.toNat)
    (disk : UInt32 → Sector) (c : UInt32) :
    headSector (clusterContents vol disk c) = disk (clusterNoToLba vol c) := by
  funext k
  have hk := k.isLt
  have hdiv : k.val / 512 = 0 := by omega
  have hmod : k.val % 512 = k.val := by omega
  rw [headSector, dif_pos (by omega), Volume.clusterNoToLba_eq_sectorLba]
  simp only [clusterContents, hdiv, hmod]

theorem headSector_withHeadSector (hpos : 1 ≤ vol.id.sectorsPerCluster.toNat) (sector : Sector)
    (b : ClusterBytes vol) : headSector (withHeadSector sector b) = sector := by
  funext k
  have hk := k.isLt
  rw [headSector, dif_pos (by omega), withHeadSector, dif_pos hk]

/-- A cluster whose first sector alone has been written. -/
theorem clusterContents_withHeadSector {disk disk' : UInt32 → Sector} {sector : Sector}
    (hfirst : disk' (clusterNoToLba vol c) = sector)
    (hrest : ∀ j, 1 ≤ j → j < vol.id.sectorsPerCluster.toNat →
      disk' (sectorLba vol c j) = disk (sectorLba vol c j)) :
    clusterContents vol disk' c = withHeadSector sector (clusterContents vol disk c) := by
  funext k
  rw [withHeadSector]
  split
  · rename_i hk
    have hdiv : k.val / 512 = 0 := by omega
    have hmod : k.val % 512 = k.val := by omega
    rw [Volume.clusterNoToLba_eq_sectorLba] at hfirst
    simp only [clusterContents, hdiv, hmod, hfirst]
  · rw [clusterContents, hrest _ (by omega) (by omega), clusterContents]

/-- `id_for_dfs` writes the first sector of the cluster it is given. -/
theorem idForDfs_touches {dfsName : Fin 30 → UInt8} {id r : ℤ} {stack : Sector}
    {card card' : Card} (h : idForDfs sdDriver vol c dfsName id stack card = some (r, card')) :
    Touches (fun lba => lba = clusterNoToLba vol c) card card' := by
  simp only [idForDfs, sdDriver] at h
  split at h
  · split at h
    · simp at h
    · obtain ⟨-, rfl⟩ := Prod.mk.inj (Option.some.inj h)
      exact Touches.write (T := fun lba => lba = clusterNoToLba vol c) rfl _
  · obtain ⟨-, rfl⟩ := Prod.mk.inj (Option.some.inj h)
    exact Touches.refl
  · obtain ⟨-, rfl⟩ := Prod.mk.inj (Option.some.inj h)
    exact Touches.write (T := fun lba => lba = clusterNoToLba vol c) rfl _

/-! ## One step -/

/-- Elements of a list without repetitions, one of which is mapped differently. -/
theorem map_eq_modify {α β : Type*} {g g' : α → β} {f : β → β} {l : List α} {x : α}
    (hnodup : l.Nodup) (hx : l[i]? = some x) (hself : g' x = f (g x))
    (hrest : ∀ y ∈ l, y ≠ x → g' y = g y) : l.map g' = (l.map g).modify i f := by
  apply List.ext_getElem?
  intro k
  rw [List.getElem?_modify, List.getElem?_map, List.getElem?_map]
  by_cases hk : i = k
  · subst hk
    simp [hx, hself]
  · cases hy : l[k]? with
    | none => simp
    | some y =>
      have hne : y ≠ x := by
        rintro rfl
        have hlt := (List.getElem?_eq_some_iff.mp hx).1
        exact hk ((List.getElem?_inj hlt hnodup).mp (hx.trans hy.symm))
      simp [hk, hrest y (List.mem_of_getElem? hy) hne]

/-- The files after one of them has been given other clusters or other bytes. -/
theorem storedFiles_eq_update {disk disk' : UInt32 → Sector}
    {chains chains' : (Fin 11 → UInt8) → Option (List UInt32)} {cs : List UInt32}
    (hname : chains' name = some cs) (hrest : ∀ name', name' ≠ name → chains' name' = chains name')
    (hkeep : ∀ name' ds, name' ≠ name → chains name' = some ds → ∀ x ∈ ds,
      clusterContents vol disk' x = clusterContents vol disk x) :
    storedFiles vol disk' chains' = Function.update (storedFiles vol disk chains) name
      (some (cs.map (clusterContents vol disk'))) := by
  funext name'
  by_cases hsame : name' = name
  · subst hsame
    rw [Function.update_self, storedFiles, hname, Option.map_some]
  · rw [Function.update_of_ne hsame, storedFiles, storedFiles, hrest name' hsame]
    cases hds : chains name' with
    | none => rfl
    | some ds =>
      rw [Option.map_some, Option.map_some, List.map_congr_left (hkeep name' ds hsame hds)]

/-- An access to a file that is there is allowed. -/
theorem Allowed.of_access {files : CardFiles vol} {e : FsEvent vol}
    {saw : ClusterBytes vol → Prop} {f : ClusterBytes vol → ClusterBytes vol}
    (hop : e.op = .access name i saw f) (hfile : files name ≠ none) : Allowed files e where
  one he := by
    subst he
    cases hop
  opened name' i' saw' f' hop' := by
    cases hop.symm.trans hop'
    exact hfile

namespace Represents

variable {files : CardFiles vol} (hvol : vol.Sound) (h : Represents vol ch s files)

include hvol h

/-- A call that creates a file creates it among the files. -/
theorem create (hcall : CreatesFile vol ch s n name c s') :
    ∃ files', Step BlankStart files (.create name n.toNat) files' ∧
      Represents vol ch s' files' := by
  obtain ⟨⟨chains, hmap, rfl⟩, p, hcard⟩ := h
  obtain ⟨cs, hlen, hmap', hblank, hkeep⟩ := hmap.create hvol hcall
  have hnew : chains name = none := by
    by_contra hne
    obtain ⟨ds, hds⟩ := Option.ne_none_iff_exists'.mp hne
    obtain ⟨sl, d, hhead, hhit⟩ := hmap.found hds
    have hd := (hmap.inRange hds (List.mem_of_head? hhead)).ne_allOnes hvol.fatEnd_le
    obtain @⟨_, _, _, _, _, -, -, -, hlookup, -, -, -⟩ := hcall
    exact hd (lookup_unique hlookup (hmap.root.finds hvol hhit)).symm
  have hfiles : storedFiles vol s'.disk (Function.update chains name (some cs)) =
      Function.update (storedFiles vol s.disk chains) name
        (some (cs.map (clusterContents vol s'.disk))) :=
    storedFiles_eq_update (Function.update_self ..) (fun _ hne => Function.update_of_ne hne ..)
      fun _ _ _ hds => hkeep hds
  have hfresh : ∀ b ∈ cs.map (clusterContents vol s'.disk), BlankStart b := by
    intro b hb k hk
    obtain ⟨x, hx, rfl⟩ := List.mem_map.mp hb
    have hdiv : k.val / 512 = 0 := by omega
    have hzero := hblank x hx
    rw [Volume.clusterNoToLba_eq_sectorLba] at hzero
    simp only [clusterContents, hdiv, hzero]
    rfl
  have hnone : storedFiles vol s.disk chains name = none := by
    rw [storedFiles, hnew, Option.map_none]
  have hstep := Step.create hnone hfresh
  rw [List.length_map, hlen] at hstep
  exact ⟨_, hstep, ⟨_, hmap', hfiles.symm⟩, p, hcard.of_touches (hcall.touches hvol hmap.root)⟩

omit hvol in
/-- Where a file is found a cluster has sectors. -/
theorem sectors_pos (hfile : files name ≠ none) : 1 ≤ vol.id.sectorsPerCluster.toNat := by
  obtain ⟨⟨chains, hmap, rfl⟩, -⟩ := h
  obtain ⟨bs, hbs⟩ := Option.ne_none_iff_exists'.mp hfile
  obtain ⟨cs, hcs, -⟩ := Option.map_eq_some_iff.mp hbs
  obtain ⟨sl, c, -, hhit⟩ := hmap.found hcs
  exact Nat.one_le_of_lt (mem_dirSlots.mp (firstHit_some hhit).1).2

/-- A call that reads or writes sectors of one cluster of a file accesses that block. -/
theorem access (hfile : files name ≠ none) (hc : FileCluster vol s name i c)
    {saw : ClusterBytes vol → Prop}
    (hsaw : 1 ≤ vol.id.sectorsPerCluster.toNat → saw (clusterContents vol s.disk c))
    {f : ClusterBytes vol → ClusterBytes vol} (hfat : s'.fat = s.fat)
    (hwrite : vol.InRange c → 1 ≤ vol.id.sectorsPerCluster.toNat →
      Touches (SectorOf vol c) s.dev s'.dev ∧
        clusterContents vol s'.disk c = f (clusterContents vol s.disk c)) :
    ∃ files', Step BlankStart files (.access name i saw f) files' ∧
      Represents vol ch s' files' := by
  obtain ⟨⟨chains, hmap, rfl⟩, p, hcard⟩ := h
  obtain ⟨cs, hcs⟩ : ∃ cs, chains name = some cs := by
    by_contra hne
    exact hfile (by simp [storedFiles, Option.eq_none_iff_forall_ne_some, not_exists.mp hne])
  have hget := hmap.getElem?_of_cluster hvol hcs hc
  have hin := List.mem_of_getElem? hget
  have hrange := hmap.inRange hcs hin
  obtain ⟨sl, d, -, hhit⟩ := hmap.found hcs
  have hpos : 1 ≤ vol.id.sectorsPerCluster.toNat :=
    Nat.one_le_of_lt (mem_dirSlots.mp (firstHit_some hhit).1).2
  obtain ⟨ht, hnew⟩ := hwrite hrange hpos
  have hother : ∀ {name' ds}, chains name' = some ds → ∀ x ∈ ds, x ≠ c →
      clusterContents vol s'.disk x = clusterContents vol s.disk x := fun hds x hx hne =>
    clusterContents_of_touches hvol (hmap.inRange hds hx) hrange hne ht
  have hmap' := hmap.of_touches hvol hrange (hmap.apart hcs hin) hfat ht
  have hfiles : storedFiles vol s'.disk chains = Function.update (storedFiles vol s.disk chains)
      name (some ((cs.map (clusterContents vol s.disk)).modify i f)) := by
    rw [← map_eq_modify (hmap.nodup hcs) hget hnew (hother hcs)]
    exact storedFiles_eq_update hcs (fun _ _ => rfl) fun name' ds hname hds x hx =>
      hother hds x hx fun he => hname (hmap.eq_of_mem hds hcs (he ▸ hx) hin)
  have hbs : storedFiles vol s.disk chains name = some (cs.map (clusterContents vol s.disk)) := by
    rw [storedFiles, hcs, Option.map_some]
  have hblock :
      (cs.map (clusterContents vol s.disk))[i]? = some (clusterContents vol s.disk c) := by
    rw [List.getElem?_map, hget, Option.map_some]
  exact ⟨_, .access hbs hblock (hsaw hpos), ⟨chains, hmap', hfiles.symm⟩, p,
    hcard.of_touches (ht.mono fun lba hlba => hlba.behindBoot hvol hrange)⟩

/-- A reboot keeps the files, on a card with one FAT sector. -/
theorem reboot (hone : vol.id.sectorsPerFat.toNat = 1) (ram : UInt32 → UInt32) :
    ∃ s', fat32Init sdDriver ram s.dev = .ok (vol, s') ∧ Represents vol ch s' files := by
  obtain ⟨⟨chains, hmap, rfl⟩, p, hcard⟩ := h
  obtain ⟨s', hinit, hdev, hmap'⟩ := hmap.mount hvol hcard hone ram
  have hdisk : s'.disk = s.disk := congrArg Store.current hdev
  exact ⟨s', hinit, ⟨chains, hmap', by rw [hdisk]⟩, p, by rw [hdisk]; exact hcard⟩

end Represents

/-- One call or reboot does to the files what its operation says. -/
theorem FsStep.refines {files : CardFiles vol} {e : FsEvent vol} (hstep : FsStep vol ch s e s')
    (hvol : vol.Sound) (h : Represents vol ch s files) (hallowed : Allowed files e) :
    ∃ files', Step BlankStart files e.op files' ∧ Represents vol ch s' files' := by
  cases hstep with
  | created hcall => exact h.create hvol hcall
  | @wrote name i c hc src =>
    refine h.access hvol (hallowed.opened _ _ _ _ rfl) hc (fun _ => trivial) rfl fun _ _ =>
      ⟨writeCluster_touches vol c src s.dev, ?_⟩
    have hspc := vol.id.sectorsPerCluster.toNat_lt
    have hself : (c - c).toNat < 1 := by simp
    rw [Fs.disk, clusterContents_writeCluster hvol.sectors (by omega) hself hself src s.dev,
      Function.update_self]
  | readBack hc dst behind =>
    refine h.access hvol (hallowed.opened _ _ _ _ rfl) hc (fun _ => funext fun k => ?_) rfl
      fun _ _ => ⟨Touches.refl, rfl⟩
    exact readCluster_add vol s.disk _ dst behind k.isLt
  | @identified c dfsName id r stack dev hc hcall =>
    obtain ⟨hr, hsector⟩ := cardConfig_of_call hcall
    have ht := idForDfs_touches hcall
    refine h.access hvol (hallowed.opened _ _ _ _ rfl) hc (fun hpos => ?_) rfl
      fun hrange hpos => ⟨?_, ?_⟩
    · rw [headSector_clusterContents hpos, hr]
      rfl
    · refine ht.mono fun lba hlba => ⟨0, hpos, ?_⟩
      rw [hlba, Volume.clusterNoToLba_eq_sectorLba]
    · rw [identify, headSector_clusterContents hpos]
      refine clusterContents_withHeadSector hsector fun j hj hjlt => ht.current_eq fun he => ?_
      rw [Volume.clusterNoToLba_eq_sectorLba] at he
      have hzero := (hvol.sectorLba_inj (hvol.fits hrange) (hvol.fits hrange) hjlt hpos he).2
      omega
  | rebooted hinit =>
    obtain ⟨s'', hinit', hs''⟩ := h.reboot hvol (hallowed.one rfl) _
    rw [hinit] at hinit'
    obtain ⟨-, rfl⟩ := Prod.mk.inj (Except.ok.inj hinit')
    exact ⟨files, .restart, hs''⟩

/-! ## A run on a fresh card -/

/-- A file of the store is found by its name. -/
theorem Represents.fileCluster_zero (hvol : vol.Sound) {files : CardFiles vol}
    (h : Represents vol ch s files) (hfile : files name ≠ none) :
    ∃ c, FileCluster vol s name 0 c := by
  obtain ⟨⟨chains, hmap, rfl⟩, -⟩ := h
  obtain ⟨bs, hbs⟩ := Option.ne_none_iff_exists'.mp hfile
  obtain ⟨cs, hcs, -⟩ := Option.map_eq_some_iff.mp hbs
  obtain ⟨sl, c, hhead, hhit⟩ := hmap.found hcs
  exact ⟨c, .head ((hmap.inRange hcs (List.mem_of_head? hhead)).ne_allOnes hvol.fatEnd_le)
    (hmap.root.finds hvol hhit)⟩

theorem freshCard_sound : (cardVolume freshCard 0).Sound where
  sectors := rfl
  root := rfl
  sectorSize := rfl
  entries := by decide
  after := by decide
  below := by decide

/-- The fresh card, mounted, holds no files. -/
theorem freshCard_represents (ram : UInt32 → UInt32) : ∃ s,
    fat32Init sdDriver ram ⟨freshCard, []⟩ = .ok (cardVolume freshCard 0, s) ∧
      s.disk = freshCard ∧ Represents (cardVolume freshCard 0) [2] s fun _ => none := by
  obtain ⟨s, hinit, hdev, hfat⟩ := freshCard_wellFormed.init ram
  have hdisk : s.disk = freshCard := by rw [Fs.disk, hdev]; rfl
  have hhead : s.fat 2 = fat32TerminalClusterNo := (hfat 2 (by decide)).symm
  have hlow : ∀ k, k < (cardVolume freshCard 0).fatEnd → k < 128 := fun k hk => by
    rw [UInt32.lt_iff_toNat_lt, freshCard_sound.toNat_fatEnd] at hk
    rw [UInt32.lt_iff_toNat_lt]
    exact hk
  refine ⟨s, hinit, hdisk, ⟨fun _ => none, ⟨?_, ?_, ?_, ?_, ?_, ?_, ?_⟩, rfl⟩, 0, ?_⟩
  · refine ⟨⟨rfl, List.isChain_singleton 2, List.all_iff_forall_prop.mp (by decide),
      List.nodup_singleton 2⟩, fun c hc => ?_⟩
    rw [List.mem_singleton.mp hc, hhead]
    decide
  · intro k hk
    rw [hdisk]
    exact hfat k (hlow k hk)
  all_goals try simp
  rw [hdisk]
  exact ⟨freshCard_wellFormed.present, freshCard_wellFormed.alone, rfl, by decide⟩

/-- A file is created, written and, after a reboot, read. -/
def letterCalls (c : UInt32) (bytes : ClusterBytes vol) : List (FsEvent vol) :=
  [.created 1 (fun _ => 65) c, .wrote (fun _ => 65) 0 (fun _ => 7), .rebooted,
    .readBack (fun _ => 65) 0 bytes]

theorem letterCalls_opened (c : UInt32) (bytes : ClusterBytes vol)
    (known : (Fin 11 → UInt8) → Prop) : Opened known ((letterCalls c bytes).map FsEvent.op) := by
  simp [letterCalls, FsEvent.op, Opened]

/-- Every name is new on the fresh card, and there is room for a file. -/
theorem freshCard_creates {s : Fs Card} (hdisk : s.disk = freshCard)
    (h : Represents (cardVolume freshCard 0) [2] s fun _ => none) (hname : ∀ i, ¬ IsEnd (name i)) :
    ∃ c s', CreatesFile (cardVolume freshCard 0) [2] s 1 name c s' := by
  obtain ⟨⟨chains, hmap, -⟩, -⟩ := h
  have hend : firstHit (cardVolume freshCard 0) insertVisit s.disk
      (dirSlots (cardVolume freshCard 0) [2]) = some (⟨2, 0, 0⟩, ()) := by rw [hdisk]; rfl
  have hlook : firstHit (cardVolume freshCard 0) (lookupVisit name) s.disk
      (dirSlots (cardVolume freshCard 0) [2]) = some (⟨2, 0, 0⟩, 0xffffffff) := by rw [hdisk]; rfl
  have hthree : s.fat 3 = 0 := by
    rw [← hmap.coherent 3 (by decide), hdisk]
    rfl
  have hfree : 1 ≤ (freeClusters (cardVolume freshCard 0) s.fat).length :=
    List.length_pos_of_mem (mem_freeClusters.mpr ⟨by decide, hthree⟩)
  obtain ⟨c, s', hcall, -⟩ := fat32AllocLocalFile_directory freshCard_sound.fatEnd_le
    hmap.root.toDirChain (n := 1) (hmap.root.layout freshCard_sound fun _ hx => mem_fileClusters hx)
    hend hfree name blankSector (le_refl 1)
  refine ⟨c, s', .intro (by decide) hfree hname
    (fat32GetClusterNo_of_firstHit freshCard_sound.fatEnd_le rfl hmap.root.toDirChain hlook
      (le_refl 1) blankSector) ?_ hend hcall⟩
  intro r hr
  rw [hdisk] at hr
  cases hr

theorem letterCalls_run : ∃ s c bytes s',
    Represents (cardVolume freshCard 0) [2] s (fun _ => none) ∧
      Trace (FsStep (cardVolume freshCard 0) [2]) s (letterCalls c bytes) s' := by
  obtain ⟨s, -, hdisk, h⟩ := freshCard_represents fun _ => 1
  obtain ⟨c, s₁, hcreates⟩ := freshCard_creates hdisk h fun _ : Fin 11 => (by decide : ¬ IsEnd 65)
  obtain ⟨files₁, hstep₁, h₁⟩ := h.create freshCard_sound hcreates
  have hthere := hstep₁.file_of_create
  obtain ⟨c₁, hc₁⟩ := h₁.fileCluster_zero freshCard_sound hthere
  have hwrote : FsStep (cardVolume freshCard 0) [2] s₁ (.wrote (fun _ => 65) 0 fun _ => 7) _ :=
    .wrote hc₁ _
  obtain ⟨files₂, hstep₂, h₂⟩ := hwrote.refines freshCard_sound h₁
    (Allowed.of_access rfl hthere)
  obtain ⟨s₃, hinit, h₃⟩ := h₂.reboot freshCard_sound rfl fun _ => 0
  obtain ⟨c₃, hc₃⟩ := h₃.fileCluster_zero freshCard_sound (hstep₂.of_file hthere).1
  exact ⟨s, c, _, s₃, h, (((Trace.nil.snoc (.created hcreates)).snoc hwrote).snoc
    (.rebooted hinit)).snoc (.readBack hc₃ 0 fun _ => 0)⟩

/-! ## Runs -/

/-- The card refines the store of files. After calls in any order, each on a file that was
there or has been created, and reboots where the FAT has one sector, the card represents the
files that the operations leave; and the next reboot, whatever the memory holds, finds the
same volume with these files. -/
theorem fileCalls_refine (hvol : vol.Sound) {files : CardFiles vol}
    (h : Represents vol ch s files) {events : List (FsEvent vol)}
    (hrun : Trace (FsStep vol ch) s events s')
    (hone : .rebooted ∈ events → vol.id.sectorsPerFat.toNat = 1)
    (hopened : Opened (fun name => files name ≠ none) (events.map FsEvent.op)) :
    ∃ files', Trace (Step BlankStart) files (events.map FsEvent.op) files' ∧
      Represents vol ch s' files' ∧
      (vol.id.sectorsPerFat.toNat = 1 → ∀ ram, ∃ s'',
        fat32Init sdDriver ram s'.dev = .ok (vol, s'') ∧ Represents vol ch s'' files') := by
  have hguard : ∀ pre e post files', events = pre ++ e :: post →
      Trace (Step BlankStart) files (pre.map FsEvent.op) files' → Allowed files' e := by
    intro pre e post files' hes hpre
    refine ⟨fun he => hone (by simp [hes, he]), fun name i saw f hop => ?_⟩
    rw [hes, List.map_append, List.map_cons, hop] at hopened
    exact file_ne_none hpre hopened.at_access
  have hstep : ∀ s e s' files, Represents vol ch s files → Allowed files e →
      FsStep vol ch s e s' →
        ∃ files', Step BlankStart files e.op files' ∧ Represents vol ch s' files' :=
    fun _ _ _ _ hrep hallowed hlast => hlast.refines hvol hrep hallowed
  obtain ⟨files', hrun', hrep⟩ := Trace.simulate hstep h hrun hguard
  exact ⟨files', hrun', hrep, fun hone' => hrep.reboot hvol hone'⟩

theorem fileCalls_refine_fresh : ∃ s c bytes s' files',
    Trace (FsStep (cardVolume freshCard 0) [2]) s (letterCalls c bytes) s' ∧
      Trace (Step BlankStart) (fun _ => none) ((letterCalls c bytes).map FsEvent.op) files' ∧
      Represents (cardVolume freshCard 0) [2] s' files' := by
  obtain ⟨s, c, bytes, s', h, hrun⟩ := letterCalls_run
  obtain ⟨files', hops, hfiles, -⟩ := fileCalls_refine freshCard_sound h hrun (fun _ => rfl)
    (letterCalls_opened c bytes _)
  exact ⟨s, c, bytes, s', files', hrun, hops, hfiles⟩

/-- In every such run, what is read from a cluster of a file is what the calls before have made
of the bytes it held at the beginning, or of a cluster whose first sector is blank when the
file was created on the way. So it is what was last written to that cluster of that file. -/
theorem fileCalls_readBack (hvol : vol.Sound) {files : CardFiles vol}
    (h : Represents vol ch s files) {events pre post : List (FsEvent vol)}
    {bytes : ClusterBytes vol} (hrun : Trace (FsStep vol ch) s events s')
    (hone : .rebooted ∈ events → vol.id.sectorsPerFat.toNat = 1)
    (hopened : Opened (fun name => files name ≠ none) (events.map FsEvent.op))
    (hread : events = pre ++ .readBack name i bytes :: post) :
    (∃ b, (block files name i = some b ∨ files name = none ∧ BlankStart b) ∧
        bytes = after (changes name i (pre.map FsEvent.op)) b) ∧
      ∀ front src back, pre = front ++ .wrote name i src :: back →
        bytes = after (changes name i (back.map FsEvent.op)) (bufBytes vol src) := by
  obtain ⟨files', hrun', -, -⟩ := fileCalls_refine hvol h hrun hone hopened
  subst hread
  rw [List.map_append, List.map_cons] at hrun'
  refine ⟨saw_origin hrun', fun front src back hpre => ?_⟩
  subst hpre
  rw [List.map_append, List.map_cons, List.append_assoc, List.cons_append] at hrun'
  obtain ⟨-, -, -, hsaw⟩ := saw_since hrun'
  exact hsaw

theorem fileCalls_readBack_fresh : ∃ s c s',
    Trace (FsStep (cardVolume freshCard 0) [2]) s (letterCalls c fun _ => 7) s' := by
  obtain ⟨s, c, bytes, s', h, hrun⟩ := letterCalls_run
  have hlast := (fileCalls_readBack freshCard_sound h hrun (fun _ => rfl)
    (letterCalls_opened c bytes _) rfl).2 [.created 1 (fun _ => 65) c] (fun _ => 7) [.rebooted] rfl
  have hbytes : bytes = fun _ => 7 := hlast
  exact ⟨s, c, s', hbytes ▸ hrun⟩

end NaiveGfs
