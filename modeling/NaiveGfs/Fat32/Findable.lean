import NaiveGfs.Dfs.InitConfig
import NaiveGfs.Fat32.Coherence
import NaiveGfs.Fat32.RootChain

/-!
# Created files stay findable

The lookup and the insertion scan the same slots in the same order. A file is created at the
first terminal, so every record that a lookup could reach before stays where it is, and the
new record is the first one that matches a name that was not found.

The lookup says "not found" with the value -1, which a record with that start cluster
returns too (`sentinel_notFindable`).
-/

namespace NaiveGfs

open BlockStore BlockStore.Store

variable {vol : Volume} {s s' : Fs Card} {ch : List UInt32} {name : Fin 11 → UInt8}
  {c : UInt32}

/-- `fat32_get_cluster_no` returns `c`, whatever the stack holds. -/
def Finds (vol : Volume) (s : Fs Card) (name : Fin 11 → UInt8) (c : UInt32) : Prop :=
  ∃ enough, ∀ fuel ≥ enough, ∀ stack,
    fat32GetClusterNo sdDriver vol name stack fuel s = some (c, s)

/-- A call `fat32_alloc_local_file(n, name)` for a name that the lookup does not find, with
enough free clusters and at a terminal record of the root directory. -/
inductive Creates (vol : Volume) (ch : List UInt32) (s : Fs Card) (name : Fin 11 → UInt8)
    (c : UInt32) (s' : Fs Card) : Prop
  | intro {n : UInt32} {stack stack' : Sector} {fuel fuel' : ℕ} {sl : Slot} (hn : 1 ≤ n)
      (hfree : n.toNat ≤ (freeClusters vol s.fat).length) (hname : ∀ i, ¬ IsEnd (name i))
      (hlookup : fat32GetClusterNo sdDriver vol name stack fuel s = some (0xffffffff, s))
      (hend : firstHit vol insertVisit s.disk (dirSlots vol ch) = some (sl, ()))
      (hcall : fat32AllocLocalFile sdDriver vol n name stack' fuel' s = some (c, s'))

/-- No record in front of the first terminal matches the name with the start cluster that
the lookup returns for "not found". -/
def Unambiguous (vol : Volume) (ch : List UInt32) (s : Fs Card) (name : Fin 11 → UInt8) : Prop :=
  ∀ r ∈ liveRecords vol s.disk (dirSlots vol ch),
    strncmp r.dirName name = 0 → r.startCluster ≠ 0xffffffff

/-- A sequence of calls that create files, with the names and the returned clusters. -/
inductive CreateRun (vol : Volume) (ch : List UInt32) (s : Fs Card) :
    List ((Fin 11 → UInt8) × UInt32) → Fs Card → Prop
  | nil : CreateRun vol ch s [] s
  | snoc {s₁ s₂ : Fs Card} {calls : List ((Fin 11 → UInt8) × UInt32)} {name : Fin 11 → UInt8}
      {c : UInt32} (hrun : CreateRun vol ch s calls s₁) (hcall : Creates vol ch s₁ name c s₂)
      (hclear : Unambiguous vol ch s₁ name) : CreateRun vol ch s (calls ++ [(name, c)]) s₂

/-! ## Lookups -/

/-- A lookup that found a file finds it with any more fuel and any stack. -/
theorem finds_of_found {stack : Sector} {fuel : ℕ} (hc : c ≠ 0xffffffff)
    (h : fat32GetClusterNo sdDriver vol name stack fuel s = some (c, s)) : Finds vol s name c := by
  refine ⟨fuel, fun fuel' hfuel stack' => ?_⟩
  rw [fat32GetClusterNo] at h ⊢
  split at h
  · simp at h
  · rename_i hwalk
    rw [walkClusters_mono hfuel (walkClusters_hit_of_hit hwalk _ stack')]
    exact h
  · simp only [Option.some.injEq, Prod.mk.injEq] at h
    exact absurd h.1.symm hc

/-- Two lookups that return agree. -/
theorem lookup_unique {stack : Sector} {fuel : ℕ} {c' : UInt32}
    (h : fat32GetClusterNo sdDriver vol name stack fuel s = some (c, s))
    (h' : Finds vol s name c') : c = c' := by
  obtain ⟨enough, h'⟩ := h'
  have hmore : fat32GetClusterNo sdDriver vol name stack (max fuel enough) s = some (c, s) := by
    rw [fat32GetClusterNo] at h ⊢
    split at h
    · simp at h
    all_goals
      rename_i hwalk
      rw [walkClusters_mono (le_max_left fuel enough) hwalk]
      exact h
  rw [h' _ (le_max_right fuel enough) stack] at hmore
  simpa using hmore.symm

/-- A record that a lookup stops at without being at a terminal matches the name. -/
theorem lookupVisit_some {r : DirRecord} (hend : isEndRecord r = false)
    (h : lookupVisit name r = some c) :
    r.isLfn = false ∧ r.isTerminal = false ∧ strncmp r.dirName name = 0 ∧ r.startCluster = c := by
  rw [lookupVisit] at h
  cases hl : r.isLfn with
  | true => simp [hl] at h
  | false =>
    cases ht : r.isTerminal with
    | true =>
      rw [isEndRecord, hl, ht] at hend
      simp at hend
    | false =>
      rw [hl, ht] at h
      by_cases hm : strncmp r.dirName name = 0
      · simp only [hm, Bool.false_eq_true, if_false, if_true, Option.some.injEq] at h
        exact ⟨rfl, rfl, hm, h⟩
      · simp [hm] at h

theorem lookupVisit_newRecord (hname : ∀ i, ¬ IsEnd (name i)) (dr : DirRecord) :
    lookupVisit name (newRecord dr name c) = some c := by
  have hzero : name 0 ≠ 0 := fun he => hname 0 (Or.inl he)
  have hself : strncmp (newRecord dr name c).dirName name = 0 := strncmp_self name
  simp [lookupVisit, hself, hzero]

/-- A live record among the first slots is a live record of the directory. -/
theorem mem_liveRecords {disk : UInt32 → Sector} {before after : List Slot} {x : Slot}
    (hbefore : ∀ y ∈ before, isEndRecord (slotRecord vol disk y) = false) (hx : x ∈ before)
    (hlfn : (slotRecord vol disk x).isLfn = false) :
    slotRecord vol disk x ∈ liveRecords vol disk (before ++ after) := by
  rw [liveRecords_append hbefore, List.mem_append, liveRecords_eq_filter hbefore, List.mem_filter]
  exact Or.inl ⟨List.mem_map.mpr ⟨x, hx, rfl⟩, by rw [hlfn]; rfl⟩

section Front

variable {before after : List Slot} {sl : Slot} (hvol : vol.Sound) (hroot : RootChain vol s.fat ch)

include hvol hroot

/-- A lookup finds what its first hit in the directory gives. -/
theorem RootChain.finds {x : Slot}
    (hx : firstHit vol (lookupVisit name) s.disk (dirSlots vol ch) = some (x, c)) :
    Finds vol s name c :=
  ⟨_, fun _ hfuel stack => fat32GetClusterNo_of_firstHit hvol.fatEnd_le hvol.root
    hroot.toDirChain hx hfuel stack⟩

variable (hsplit : dirSlots vol ch = before ++ sl :: after)

include hsplit

/-- A file that is found is found in front of a terminal. -/
theorem RootChain.firstHit_of_finds (hend : isEndRecord (slotRecord vol s.disk sl) = true)
    (hc : c ≠ 0xffffffff) (hfound : Finds vol s name c) :
    ∃ x, firstHit vol (lookupVisit name) s.disk before = some (x, c) := by
  obtain ⟨enough, hlook⟩ := hfound
  have hlook := hlook enough le_rfl blankSector
  cases hx : firstHit vol (lookupVisit name) s.disk before with
  | none =>
    have hstop : firstHit vol (lookupVisit name) s.disk (dirSlots vol ch) =
        some (sl, 0xffffffff) := by
      rw [hsplit]
      refine firstHit_of_split (fun x hin => ?_) (lookupVisit_of_isEndRecord _ hend)
      simpa using List.findSome?_eq_none_iff.mp hx x hin
    exact absurd (lookup_unique hlook (hroot.finds hvol hstop)) hc
  | some p =>
    obtain ⟨x, a⟩ := p
    have ha : c = a := lookup_unique hlook (hroot.finds hvol (x := x) (by
      rw [hsplit, firstHit_append, hx, Option.some_or]))
    exact ⟨x, by rw [ha]⟩

/-- A name for which the lookup has returned -1 matches no record in front of the terminal. -/
theorem RootChain.firstHit_of_notFound
    (hbefore : ∀ x ∈ before, isEndRecord (slotRecord vol s.disk x) = false)
    (hclear : Unambiguous vol ch s name) {stack : Sector} {fuel : ℕ}
    (hlookup : fat32GetClusterNo sdDriver vol name stack fuel s = some (0xffffffff, s)) :
    firstHit vol (lookupVisit name) s.disk before = none := by
  by_contra hne
  obtain ⟨⟨x, a⟩, hx⟩ := Option.ne_none_iff_exists'.mp hne
  obtain ⟨hmem, hvisit⟩ := firstHit_some hx
  obtain ⟨hlfn, -, hmatch, hstart⟩ := lookupVisit_some (hbefore x hmem) hvisit
  have ha : 0xffffffff = a := lookup_unique hlookup (hroot.finds hvol (x := x) (by
    rw [hsplit, firstHit_append, hx, Option.some_or]))
  refine hclear _ ?_ hmatch (hstart.trans ha.symm)
  rw [hsplit]
  exact mem_liveRecords hbefore hmem hlfn

end Front

/-! ## One call -/

/-- What one call that creates a file does to the directory: the lookup for its name stops at
the new record, and each lookup that found a file stops at a record of that file. -/
theorem Creates.directory (hvol : vol.Sound) (hroot : RootChain vol s.fat ch)
    (hcall : Creates vol ch s name c s') (hclear : Unambiguous vol ch s name) :
    RootChain vol s'.fat ch ∧ c ≠ 0xffffffff ∧
      (∃ sl, firstHit vol (lookupVisit name) s'.disk (dirSlots vol ch) = some (sl, c)) ∧
      ∀ name' c', c' ≠ 0xffffffff → Finds vol s name' c' →
        ∃ sl, firstHit vol (lookupVisit name') s'.disk (dirSlots vol ch) = some (sl, c') := by
  obtain @⟨n, stack, stack', fuel, fuel', sl, hn, hfree, hname, hlookup, hhit, hcall⟩ := hcall
  obtain ⟨c₁, s₁, hrun, hc, hfat, hdisk⟩ := fat32AllocLocalFile_directory hvol.fatEnd_le
    hroot.toDirChain (hroot.layout hvol fun _ hx => mem_fileClusters hx) hhit
    (by rwa [clustersTaken_of_le hvol.fatEnd_le hn hfree]) name stack'
    (le_max_left ch.length fuel')
  have hroot' := hroot.congr hfat
  have hsame : some (c₁, s₁) = some (c, s') := by
    rw [← hrun]
    exact fat32AllocLocalFile_mono (le_max_right ch.length fuel') hcall
  obtain ⟨rfl, rfl⟩ := Prod.mk.inj (Option.some.inj hsame)
  obtain ⟨hcl, hj⟩ := mem_dirSlots.mp (firstHit_some hhit).1
  have hend : isEndRecord (slotRecord vol s.disk sl) = true :=
    insertVisit_eq_some.mp (firstHit_some hhit).2
  obtain ⟨ch₁, ch₂, rfl, hsplit, hnone⟩ := firstHit_split hroot.nodup hhit
  have hbefore : ∀ x ∈ slotsBefore vol ch₁ sl, isEndRecord (slotRecord vol s.disk x) = false :=
    fun x hx => insertVisit_eq_none.mp (hnone x hx)
  have hsame : ∀ x ∈ slotsBefore vol ch₁ sl, slotRecord vol s₁.disk x = slotRecord vol s.disk x :=
    fun x hx => slotRecord_before hroot.nodup hj hdisk hx
  have hnew : slotRecord vol s₁.disk sl = newRecord (slotRecord vol s.disk sl) name c₁ :=
    slotRecord_self (hdisk _ hcl _ hj)
  refine ⟨hroot', hc.ne_allOnes hvol.fatEnd_le, ?_, ?_⟩
  · -- no record in front of the new one matches its name
    have hmiss := hroot.firstHit_of_notFound hvol hsplit hbefore hclear hlookup
    refine ⟨sl, ?_⟩
    rw [hsplit]
    refine firstHit_of_split (fun x hx => ?_)
      (by rw [hnew]; exact lookupVisit_newRecord hname _)
    rw [hsame x hx]
    simpa using List.findSome?_eq_none_iff.mp hmiss x hx
  · -- a name that was found is found in front of the new record
    intro name' c' hc' hfound
    obtain ⟨x, hx⟩ := hroot.firstHit_of_finds hvol hsplit hend hc' hfound
    exact ⟨x, by rw [hsplit, firstHit_append, firstHit_congr hsame, hx, Option.some_or]⟩

/-- What one call that creates a file does to the lookups: the new file is found at the
cluster that was returned, and every file that was found stays where it was. -/
theorem Creates.step (hvol : vol.Sound) (hroot : RootChain vol s.fat ch)
    (hcall : Creates vol ch s name c s') (hclear : Unambiguous vol ch s name) :
    RootChain vol s'.fat ch ∧ c ≠ 0xffffffff ∧ Finds vol s' name c ∧
      ∀ name' c', c' ≠ 0xffffffff → Finds vol s name' c' → Finds vol s' name' c' := by
  obtain ⟨hroot', hc, ⟨sl, hnew⟩, hkeep⟩ := hcall.directory hvol hroot hclear
  refine ⟨hroot', hc, hroot'.finds hvol hnew, fun name' c' hc' hfound => ?_⟩
  obtain ⟨sl', hold⟩ := hkeep name' c' hc' hfound
  exact hroot'.finds hvol hold

/-! ## Sequences of calls -/

theorem CreateRun.step (hvol : vol.Sound) (hroot : RootChain vol s.fat ch)
    {calls : List ((Fin 11 → UInt8) × UInt32)} (hrun : CreateRun vol ch s calls s') :
    RootChain vol s'.fat ch ∧
      (∀ name c, (name, c) ∈ calls → c ≠ 0xffffffff ∧ Finds vol s' name c) ∧
      ∀ name c, c ≠ 0xffffffff → Finds vol s name c → Finds vol s' name c := by
  induction hrun with
  | nil => exact ⟨hroot, by simp, fun _ _ _ h => h⟩
  | @snoc s₁ s₂ calls name c hrun hcall hclear ih =>
    obtain ⟨hroot₁, hcalls, hfound⟩ := ih
    obtain ⟨hroot₂, hc, hnew, hkeep⟩ := hcall.step hvol hroot₁ hclear
    refine ⟨hroot₂, fun name' c' hin => ?_, fun name' c' hc' h => hkeep _ _ hc' (hfound _ _ hc' h)⟩
    cases List.mem_append.mp hin with
    | inl hin =>
      obtain ⟨hc', h⟩ := hcalls name' c' hin
      exact ⟨hc', hkeep _ _ hc' h⟩
    | inr hin =>
      obtain ⟨rfl, rfl⟩ := Prod.mk.inj (List.mem_singleton.mp hin)
      exact ⟨hc, hnew⟩

/-- After any sequence of calls that create files, each file created is found at the cluster
its call returned, each name that was found before is found at the same cluster, and
`dfs_init_config`, once its file was found or created, returns that cluster again and leaves
the card as it is. -/
theorem createdFiles_findable (hvol : vol.Sound) (hroot : RootChain vol s.fat ch)
    {calls : List ((Fin 11 → UInt8) × UInt32)} (hrun : CreateRun vol ch s calls s') :
    (∀ name c, (name, c) ∈ calls → Finds vol s' name c) ∧
      (∀ name c stack fuel, c ≠ 0xffffffff →
        fat32GetClusterNo sdDriver vol name stack fuel s = some (c, s) → Finds vol s' name c) ∧
      ∀ c stack fuel,
        (c ≠ 0xffffffff ∧
            fat32GetClusterNo sdDriver vol fat32DfsCfgFilename stack fuel s = some (c, s) ∨
          (fat32DfsCfgFilename, c) ∈ calls) →
        ∃ enough, ∀ fuel ≥ enough, ∀ stack stack',
          dfsInitConfig sdDriver vol stack stack' fuel s' = some (c, s') := by
  obtain ⟨-, hcalls, hkeep⟩ := hrun.step hvol hroot
  refine ⟨fun name c hin => (hcalls name c hin).2,
    fun name c stack fuel hc h => hkeep name c hc (finds_of_found hc h), ?_⟩
  intro c stack fuel hcfg
  have hfinds : c ≠ 0xffffffff ∧ Finds vol s' fat32DfsCfgFilename c := by
    rcases hcfg with ⟨hc, h⟩ | hin
    · exact ⟨hc, hkeep _ _ hc (finds_of_found hc h)⟩
    · exact hcalls _ _ hin
  obtain ⟨hc, enough, hlook⟩ := hfinds
  exact ⟨enough, fun fuel hfuel stack stack' =>
    dfsInitConfig_of_found hc (hlook fuel hfuel stack) stack'⟩

/-- The small volume with one file. -/
def letterFs : Fs Card :=
  (insertAt sdDriver smallVolume 2 0 0 blankSector 1 (fun _ => 65) freshFs).2

/-- One file is created after another. -/
theorem createdFiles_findable_fresh :
    ∃ c s', CreateRun smallVolume [2] freshFs [(fun _ => 65, 3), (fun _ => 66, c)] s' ∧
      Finds smallVolume s' (fun _ => 65) 3 ∧ Finds smallVolume s' (fun _ => 66) c := by
  have hlook : fat32GetClusterNo sdDriver smallVolume (fun _ => 65) blankSector 1 freshFs =
      some (0xffffffff, freshFs) := rfl
  have hcall : fat32AllocLocalFile sdDriver smallVolume 1 (fun _ => 65) blankSector 1 freshFs =
      some (3, letterFs) := rfl
  have hlook' : fat32GetClusterNo sdDriver smallVolume (fun _ => 66) blankSector 1 letterFs =
      some (0xffffffff, letterFs) := rfl
  have hend : firstHit smallVolume insertVisit letterFs.disk (dirSlots smallVolume [2]) =
      some (⟨2, 0, 1⟩, ()) := rfl
  have hfree : freeClusters smallVolume letterFs.fat =
      4 :: (freeClusters smallVolume letterFs.fat).tail := rfl
  have hlive : liveRecords smallVolume letterFs.disk (dirSlots smallVolume [2]) =
      [slotRecord smallVolume letterFs.disk ⟨2, 0, 0⟩] := rfl
  obtain ⟨c, s', hcall'⟩ : ∃ c s', fat32AllocLocalFile sdDriver smallVolume 1 (fun _ => 66)
      blankSector 1 letterFs = some (c, s') := ⟨_, _, rfl⟩
  have hfirst : Creates smallVolume [2] freshFs (fun _ => 65) 3 letterFs :=
    .intro (n := 1) (by decide) (freshFs_free 1 (by decide)) (by decide) hlook freshFs_firstHit
      hcall
  have hsecond : Creates smallVolume [2] letterFs (fun _ => 66) c s' :=
    .intro (n := 1) (by decide) (by rw [hfree]; simp) (by decide) hlook' hend hcall'
  have hrun : CreateRun smallVolume [2] freshFs [(fun _ => 65, 3), (fun _ => 66, c)] s' := by
    refine .snoc (.snoc .nil hfirst (by intro r hr; cases hr)) hsecond ?_
    intro r hr _
    rw [hlive, List.mem_singleton] at hr
    rw [hr]
    decide
  have h := (createdFiles_findable smallVolume_sound freshFs_rootChain hrun).1
  exact ⟨c, s', hrun, h _ _ (by simp), h _ _ (by simp)⟩

/-- The small volume with one record in its root directory, whose start cluster is -1. -/
def sentinelFs : Fs Card where
  fat := freshFs.fat
  dev := ⟨Function.update freshFs.disk 2 (blankSector.setRecord 0
    (newRecord (blankSector.record 0) (fun _ => 65) 0xffffffff)), []⟩

/-- With a record for the name that starts at -1 the lookup does not find the name, and does
not find the file that is then created either. -/
theorem sentinel_notFindable :
    smallVolume.Sound ∧ Coherent smallVolume sentinelFs ∧
      RootChain smallVolume sentinelFs.fat [2] ∧
      ∃ c s', Creates smallVolume [2] sentinelFs (fun _ => 65) c s' ∧
        Finds smallVolume s' (fun _ => 65) 0xffffffff ∧ c ≠ 0xffffffff := by
  have hco : Coherent smallVolume sentinelFs := by
    refine holds_update_of_ne freshFs_coherent (fun k hk he => ?_) _
    exact smallVolume_sound.sectorLba_ne_fat (c := 2) (j := 0) (by decide) (by decide) hk
      he.symm
  have hroot : RootChain smallVolume sentinelFs.fat [2] := freshFs_rootChain
  have hhit : firstHit smallVolume insertVisit sentinelFs.disk (dirSlots smallVolume [2]) =
      some (⟨2, 0, 1⟩, ()) := rfl
  obtain ⟨c, s', hcall, hc, hfat, hdisk⟩ := fat32AllocLocalFile_directory
    smallVolume_sound.fatEnd_le hroot.toDirChain (n := 1)
    (hroot.layout smallVolume_sound fun _ hx => mem_fileClusters hx) hhit
    (freshFs_free 1 (by decide)) (fun _ => 65) blankSector (le_refl 1)
  have hlook : firstHit smallVolume (lookupVisit fun _ => 65) sentinelFs.disk
      (dirSlots smallVolume [2]) = some (⟨2, 0, 0⟩, 0xffffffff) := rfl
  have hcreates : Creates smallVolume [2] sentinelFs (fun _ => 65) c s' :=
    .intro (n := 1) (by decide) (freshFs_free 1 (by decide)) (by decide)
      (fat32GetClusterNo_of_firstHit smallVolume_sound.fatEnd_le rfl hroot.toDirChain hlook
        (le_refl 1) blankSector) hhit hcall
  have hkeep : slotRecord smallVolume s'.disk ⟨2, 0, 0⟩ =
      slotRecord smallVolume sentinelFs.disk ⟨2, 0, 0⟩ :=
    @slotRecord_before smallVolume _ _ ⟨2, 0, 1⟩ _ [] [] (by decide) (by decide) hdisk _ (by decide)
  have hlook' : firstHit smallVolume (lookupVisit fun _ => 65) s'.disk
      (dirSlots smallVolume [2]) = some (⟨2, 0, 0⟩, 0xffffffff) := by
    show firstHit _ _ _ ([] ++ (⟨2, 0, 0⟩ : Slot) :: slotsAfter smallVolume [] ⟨2, 0, 0⟩) = _
    exact firstHit_of_split (by simp) (by rw [hkeep]; rfl)
  exact ⟨smallVolume_sound, hco, hroot, c, s', hcreates,
    ⟨1, fun _ hfuel stack => fat32GetClusterNo_of_firstHit smallVolume_sound.fatEnd_le rfl
      (hroot.congr hfat).toDirChain hlook' hfuel stack⟩, hc.ne_allOnes smallVolume_sound.fatEnd_le⟩

end NaiveGfs
