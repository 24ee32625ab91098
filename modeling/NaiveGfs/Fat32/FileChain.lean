import NaiveGfs.Fat32.Effects

/-!
# The chain of a new file

`fat32_alloc_local_file` takes the first free clusters in order, so the chain it builds is
known before it runs: `fileClusters`. The entry point is `fat32AllocLocalFile_of_hit`, which
splits a call that found a terminal into the allocation and the directory writes.
-/

namespace NaiveGfs

open LinkTable

variable {κ : Type} {vol : Volume}

/-- The number of clusters that `alloc_local_file_at` allocates: the requested number as an
`int`, and one where that is not positive. -/
def clustersTaken (n : UInt32) : ℕ := (n.toInt32.toInt - 1).toNat + 1

theorem clustersTaken_eq {n : UInt32} (hn : 1 ≤ n) (hlt : n.toNat < 2 ^ 31) :
    clustersTaken n = n.toNat := by
  have hpos : 1 ≤ n.toNat := UInt32.le_iff_toNat_le.mp hn
  have hint : n.toInt32.toInt = n.toNat := BitVec.toInt_eq_toNat_of_lt (by
    show 2 * n.toNat < 2 ^ 32
    omega)
  rw [clustersTaken, hint]
  omega

/-- The clusters that a new file of `k` clusters gets. -/
def fileClusters (vol : Volume) (fat : UInt32 → UInt32) (k : ℕ) : List UInt32 :=
  (freeClusters vol fat).take k

theorem fileClusters_nodup (vol : Volume) (fat : UInt32 → UInt32) (k : ℕ) :
    (fileClusters vol fat k).Nodup :=
  (freeClusters_nodup vol fat).sublist (List.take_sublist k _)

theorem freeClusters_length_le (vol : Volume) (fat : UInt32 → UInt32) :
    (freeClusters vol fat).length ≤ vol.fatEnd.toNat - 2 := by
  have h := List.length_filter_le (fun c => fat c == 0) (candidates vol)
  rw [freeClusters]
  simpa [candidates] using h

/-- A positive request that the free clusters can meet is granted in full. -/
theorem clustersTaken_of_le (hend : vol.fatEnd.toNat ≤ 2 ^ 28) {fat : UInt32 → UInt32}
    {n : UInt32} (hn : 1 ≤ n) (hfree : n.toNat ≤ (freeClusters vol fat).length) :
    clustersTaken n = n.toNat := by
  have hle := freeClusters_length_le vol fat
  exact clustersTaken_eq hn (by omega)

theorem mem_fileClusters {fat : UInt32 → UInt32} {k : ℕ} {c : UInt32}
    (hc : c ∈ fileClusters vol fat k) : vol.InRange c ∧ fat c = 0 :=
  mem_freeClusters.mp (List.mem_of_mem_take hc)

/-- A call whose walk stops at a terminal inserts there. -/
theorem fat32AllocLocalFile_of_hit {s : Fs Card} {n : UInt32} {name : Fin 11 → UInt8}
    {stack : Sector} {fuel : ℕ} {cur : UInt32} {j : ℕ} {i : Fin 16} {records : Sector}
    (hscan : walkClusters sdDriver vol s.fat insertVisit fuel vol.data.rootDirFirstCluster
      vol.data.rootDirFirstCluster s.dev stack = some (.hit cur j i () s.dev records)) :
    fat32AllocLocalFile sdDriver vol n name stack fuel s =
      some (insertAt sdDriver vol cur j i records n.toInt32.toInt name s) := by
  rw [fat32AllocLocalFile, hscan]

/-- More fuel does not change the result of a call that returns. -/
theorem fat32AllocLocalFile_mono {drv : Driver κ} {s : Fs κ} {n : UInt32}
    {name : Fin 11 → UInt8} {stack : Sector} {fuel fuel' : ℕ} (hle : fuel ≤ fuel')
    {r : UInt32 × Fs κ} (h : fat32AllocLocalFile drv vol n name stack fuel s = some r) :
    fat32AllocLocalFile drv vol n name stack fuel' s = some r := by
  rw [fat32AllocLocalFile] at h ⊢
  split at h
  · simp at h
  all_goals
    rename_i hwalk
    rw [walkClusters_mono hle hwalk]
    exact h

/-- An insertion allocates the first free clusters and then stores the record; `s₁` is the
state between the two. -/
theorem insertAt_run (drv : Driver κ) (hend : vol.fatEnd.toNat ≤ 2 ^ 28) {s : Fs κ}
    {n : UInt32} (hfree : clustersTaken n ≤ (freeClusters vol s.fat).length)
    (name : Fin 11 → UInt8) (cur : UInt32) (j : ℕ) (i : Fin 16) (records : Sector) :
    ∃ c s₁, (fileClusters vol s.fat (clustersTaken n)).head? = some c ∧
      s₁.fat = writeChain fat32TerminalClusterNo (fileClusters vol s.fat (clustersTaken n))
        s.fat ∧
      FatWrites drv vol (fileClusters vol s.fat (clustersTaken n)) s s₁ ∧
      (∀ x ∈ fileClusters vol s.fat (clustersTaken n), ZeroedOnTheWay drv vol
        (fileClusters vol s.fat (clustersTaken n)) x s s₁) ∧
      insertAt drv vol cur j i records n.toInt32.toInt name s = (c, storeRecord drv vol cur j i
        (records.setRecord i (newRecord (records.record i) name c)) s₁) := by
  obtain ⟨c, rest, hcons⟩ : ∃ c rest, freeClusters vol s.fat = c :: rest := by
    cases h : freeClusters vol s.fat with
    | nil => rw [h, clustersTaken] at hfree; simp at hfree
    | cons c rest => exact ⟨c, rest, rfl⟩
  have hsplit : freeClusters vol s.fat =
      c :: (rest.take (n.toInt32.toInt - 1).toNat ++ rest.drop (n.toInt32.toInt - 1).toNat) := by
    rw [List.take_append_drop, hcons]
  have hfile : fileClusters vol s.fat (clustersTaken n) =
      c :: rest.take (n.toInt32.toInt - 1).toNat := by
    rw [fileClusters, hcons, clustersTaken, List.take_succ_cons]
  have hnum : (n.toInt32.toInt - 1).toNat =
      (rest.take (n.toInt32.toInt - 1).toNat).length := by
    rw [hcons, clustersTaken, List.length_cons] at hfree
    rw [List.length_take]
    omega
  obtain ⟨s₁, hrun, hfat, _, hwrites, hzero⟩ := allocLocalFileAt_run drv hend
    hsplit hnum (records.record i) name
  rw [hfile]
  refine ⟨c, s₁, rfl, hfat, hwrites, hzero, ?_⟩
  simp only [insertAt, hrun]

/-- A chain of the FAT as other software reads it: links in their low 28 bits between
clusters in range, up to an end-of-chain mark. -/
def FatChain (vol : Volume) (fat : UInt32 → UInt32) (ds : List UInt32) : Prop :=
  (∀ d ∈ ds, vol.InRange d) ∧
    Follows (fat32NextCluster fat) (fun d => 0x0ffffff8 ≤ fat32NextCluster fat d) ds

/-- The entries of a chain are in use. -/
theorem FatChain.used {fat : UInt32 → UInt32} {ds : List UInt32} (h : FatChain vol fat ds)
    {d : UInt32} (hd : d ∈ ds) : fat d ≠ 0 := by
  intro hz
  have hnext : fat32NextCluster fat d = 0 := by rw [fat32NextCluster, hz]; rfl
  cases h.2.next_mem_or_ends hd with
  | inl hin =>
    rw [hnext] at hin
    exact absurd (h.1 0 hin).two_le (by decide)
  | inr hend =>
    rw [hnext] at hend
    exact absurd hend (by decide)

/-- `fat32_alloc_local_file` at a terminal of the root directory returns the head of a chain
of exactly `n` distinct clusters that were free, ending in `0x0FFFFFFF`; the record written
carries that head; and no entry outside the chain changes, so the chain shares no cluster
with any chain there was. -/
theorem allocLocalFile_buildsChain (hend : vol.fatEnd.toNat ≤ 2 ^ 28) {s : Fs Card}
    {n : UInt32} (hn : 1 ≤ n) (hfree : n.toNat ≤ (freeClusters vol s.fat).length)
    (name : Fin 11 → UInt8) {stack : Sector} {fuel : ℕ} {cur : UInt32} {j : ℕ} {i : Fin 16}
    {dev : Card} {records : Sector}
    (hscan : walkClusters sdDriver vol s.fat insertVisit fuel vol.data.rootDirFirstCluster
      vol.data.rootDirFirstCluster s.dev stack = some (.hit cur j i () dev records)) :
    ∃ c s' chain,
      (∀ fuel' ≥ fuel, fat32AllocLocalFile sdDriver vol n name stack fuel' s = some (c, s')) ∧
      chain.head? = some c ∧ chain.length = n.toNat ∧ chain.Nodup ∧
      (∀ x ∈ chain, vol.InRange x ∧ s.fat x = 0) ∧
      Follows s'.fat (fun x => s'.fat x = fat32TerminalClusterNo) chain ∧
      (slotRecord vol s'.disk ⟨cur, j, i⟩).startCluster = c ∧
      (∀ k, k ∉ chain → s'.fat k = s.fat k) ∧
      ∀ ds, FatChain vol s.fat ds → ds.Disjoint chain := by
  obtain ⟨-, -, rfl, -, -⟩ := walkClusters_hit hscan
  have htaken : clustersTaken n = n.toNat := clustersTaken_of_le hend hn hfree
  obtain ⟨c, s₁, hhead, hfat, -, -, hinsert⟩ := insertAt_run sdDriver (n := n) hend
    (by rw [htaken]; exact hfree) name cur j i records
  set chain := fileClusters vol s.fat (clustersTaken n) with hchain
  set s' := storeRecord sdDriver vol cur j i (records.setRecord i
    (newRecord (records.record i) name c)) s₁ with hs'
  have hne : chain ≠ [] := by
    intro he
    rw [he] at hhead
    simp at hhead
  have hfat' : s'.fat = writeChain fat32TerminalClusterNo chain s.fat := by
    rw [hs', fat_storeRecord, hfat]
  have hlen : chain.length = n.toNat := by
    rw [hchain, fileClusters, List.length_take, htaken]
    omega
  refine ⟨c, s', chain, fun fuel' hfuel => ?_, hhead, hlen, fileClusters_nodup vol s.fat _,
    fun x hx => mem_fileClusters hx, ?_, ?_, ?_, ?_⟩
  · -- more fuel leaves the scan, and with it the result, unchanged
    rw [fat32AllocLocalFile_of_hit (walkClusters_mono hfuel hscan), hinsert]
  · rw [hfat']
    exact writeChain_follows fat32TerminalClusterNo hne (fileClusters_nodup vol s.fat _) s.fat
  · show ((s'.disk (sectorLba vol cur j)).record i).startCluster = c
    rw [hs', storeRecord_disk_self, recordSector_record_self, Sector.record_setRecord_self,
      newRecord_startCluster]
  · intro k hk
    rw [hfat']
    exact writeChain_of_notMem hk s.fat
  · intro ds hds d hd hin
    exact hds.used hd (mem_fileClusters hin).2

/-- The small volume with nothing on it but an empty root directory. -/
def freshFs : Fs Card where
  fat := fun k => if k = 2 then fat32TerminalClusterNo else 0
  dev := ⟨fun lba => if lba = 1 then
    Sector.ofWords fun k => if k = 2 then fat32TerminalClusterNo else 0 else blankSector, []⟩

set_option maxRecDepth 4000 in
theorem allocLocalFile_buildsChain_fresh :
    ∃ c s' chain,
      (∀ fuel' ≥ 1, fat32AllocLocalFile sdDriver smallVolume 2 (fun _ => 65) blankSector fuel'
        freshFs = some (c, s')) ∧
      chain.head? = some c ∧ chain.length = 2 ∧ chain.Nodup ∧
      (∀ x ∈ chain, smallVolume.InRange x ∧ freshFs.fat x = 0) ∧
      Follows s'.fat (fun x => s'.fat x = fat32TerminalClusterNo) chain ∧
      (slotRecord smallVolume s'.disk ⟨2, 0, 0⟩).startCluster = c ∧
      (∀ k, k ∉ chain → s'.fat k = freshFs.fat k) ∧
      ∀ ds, FatChain smallVolume freshFs.fat ds → ds.Disjoint chain :=
  allocLocalFile_buildsChain (by decide) (by decide) (by decide) _ rfl

end NaiveGfs
