import Mathlib.Tactic.Ring
import NaiveGfs.Fat32.Init

/-!
# Clusters as blocks

`read_cluster` and `write_cluster` go through the sectors of a cluster with the same arithmetic
modulo `2 ^ 32`, which begins at the first cluster of the root directory and may go below it. The
sectors of a range of clusters do not meet as long as the range has fewer than `2 ^ 32` of them,
and there the card is a store of clusters.
-/

namespace NaiveGfs

open BlockStore

variable {κ : Type} {vol : Volume} {disk : UInt32 → Sector} {c d lo : UInt32} {n i j k : ℕ}

/-- Store a sector behind the FAT. -/
def storeBytes (behind : ℕ → UInt8) (dst : ℕ) (b : Sector) : ℕ → UInt8 := fun k =>
  if h : dst ≤ k ∧ k - dst < 512 then b ⟨k - dst, h.2⟩ else behind k

/-- The sector that a buffer holds at an offset. -/
def bufSector (src : ℕ → UInt8) (off : ℕ) : Sector := fun b => src (off + b.val)

section Code

variable (vol : Volume) (disk : UInt32 → Sector)

/-- `read_cluster`, to `FAT_end + dst`. -/
def readCluster (c : UInt32) (dst : ℕ) (behind : ℕ → UInt8) : ℕ → UInt8 :=
  (List.range vol.id.sectorsPerCluster.toNat).foldl
    (fun behind i => storeBytes behind (dst + 512 * i) (disk (sectorLba vol c i))) behind

/-- `write_cluster`. -/
def writeCluster (drv : Driver κ) (c : UInt32) (src : ℕ → UInt8) (dev : κ) : κ :=
  (List.range vol.id.sectorsPerCluster.toNat).foldl
    (fun dev i => drv.writesector dev (bufSector src (512 * i)) (sectorLba vol c i)) dev

/-- Calls of `write_cluster` in their order. -/
def writeClusters (drv : Driver κ) (ws : List (UInt32 × (ℕ → UInt8))) (dev : κ) : κ :=
  ws.foldl (fun dev w => writeCluster vol drv w.1 w.2 dev) dev

/-- The bytes of a cluster. -/
def clusterContents (c : UInt32) : Fin (512 * vol.id.sectorsPerCluster.toNat) → UInt8 := fun k =>
  disk (sectorLba vol c (k.val / 512)) ⟨k.val % 512, Nat.mod_lt _ (by decide)⟩

/-- The bytes that a buffer holds for a cluster. -/
def bufBytes (src : ℕ → UInt8) : Fin (512 * vol.id.sectorsPerCluster.toNat) → UInt8 :=
  fun k => src k.val

end Code

/-! ## Sectors of a range of clusters -/

open scoped UInt32.CommRing in
/-- The address of a sector, counted from the first sector of a range of clusters. -/
theorem sectorLba_eq_add (h : vol.data.sectorsPerCluster = vol.id.sectorsPerCluster)
    (lo c : UInt32) (j : ℕ) :
    sectorLba vol c j = clusterNoToLba vol lo +
      UInt32.ofNat ((c - lo).toNat * vol.id.sectorsPerCluster.toNat + j) := by
  have hspc : UInt32.ofNat vol.id.sectorsPerCluster.toNat = vol.id.sectorsPerCluster.toUInt32 := by
    apply UInt32.toNat_inj.mp
    rw [UInt32.toNat_ofNat', UInt8.toNat_toUInt32]
    exact Nat.mod_eq_of_lt (lt_trans (UInt8.toNat_lt _) (by decide))
  rw [UInt32.ofNat_add, UInt32.ofNat_mul, UInt32.ofNat_toNat, hspc, sectorLba,
    clusterNoToLba, clusterNoToLba, h]
  ring

/-- The sectors of a range that does not wrap into itself are told apart. -/
theorem sectorLba_inj (h : vol.data.sectorsPerCluster = vol.id.sectorsPerCluster)
    (hn : n * vol.id.sectorsPerCluster.toNat < 2 ^ 32) (hc : (c - lo).toNat < n)
    (hd : (d - lo).toNat < n) (hi : i < vol.id.sectorsPerCluster.toNat)
    (hj : j < vol.id.sectorsPerCluster.toNat) (he : sectorLba vol c i = sectorLba vol d j) :
    c = d ∧ i = j := by
  have hlt {e : UInt32} {m : ℕ} (he : (e - lo).toNat < n)
      (hm : m < vol.id.sectorsPerCluster.toNat) :
      (e - lo).toNat * vol.id.sectorsPerCluster.toNat + m < 2 ^ 32 := by
    have hmul := Nat.mul_le_mul_right vol.id.sectorsPerCluster.toNat (Nat.succ_le_of_lt he)
    rw [Nat.succ_mul] at hmul
    omega
  rw [sectorLba_eq_add h lo c, sectorLba_eq_add h lo d, add_right_inj] at he
  have hval := congrArg UInt32.toNat he
  rw [UInt32.toNat_ofNat', UInt32.toNat_ofNat', Nat.mod_eq_of_lt (hlt hc hi),
    Nat.mod_eq_of_lt (hlt hd hj)] at hval
  obtain ⟨hcd, hij⟩ := mul_add_inj_of_lt hi hj hval
  exact ⟨sub_left_injective (UInt32.toNat_inj.mp hcd), hij⟩

/-! ## The two loops -/

/-- The first rounds of the loop of `read_cluster`. -/
theorem storeBytes_rounds (sectors : ℕ → Sector) (dst m : ℕ) (behind : ℕ → UInt8) (k : ℕ) :
    (List.range m).foldl (fun behind i => storeBytes behind (dst + 512 * i) (sectors i)) behind k =
      if dst ≤ k ∧ k < dst + 512 * m then
        sectors ((k - dst) / 512) ⟨(k - dst) % 512, Nat.mod_lt _ (by decide)⟩
      else behind k := by
  induction m with
  | zero =>
    rw [if_neg (by omega)]
    rfl
  | succ m ih =>
    rw [List.range_succ, List.foldl_append, List.foldl_cons, List.foldl_nil, storeBytes]
    by_cases hlast : dst + 512 * m ≤ k ∧ k - (dst + 512 * m) < 512
    · obtain ⟨r, rfl⟩ := Nat.exists_eq_add_of_le hlast.1
      have hr : r < 512 := by omega
      have hoff : dst + 512 * m + r - dst = 512 * m + r := by omega
      have hdiv : (512 * m + r) / 512 = m := by omega
      have hmod : (512 * m + r) % 512 = r := by omega
      rw [dif_pos hlast, if_pos (by omega)]
      simp only [hoff, hdiv, hmod, Nat.add_sub_cancel_left]
    · rw [dif_neg hlast, ih]
      congr 1
      exact propext ⟨fun h => ⟨h.1, by omega⟩, fun h => ⟨h.1, by omega⟩⟩

/-- `read_cluster` stores the bytes of the cluster and nothing else. -/
theorem readCluster_eq (vol : Volume) (disk : UInt32 → Sector) (c : UInt32) (dst : ℕ)
    (behind : ℕ → UInt8) (k : ℕ) :
    readCluster vol disk c dst behind k =
      if h : dst ≤ k ∧ k < dst + 512 * vol.id.sectorsPerCluster.toNat then
        clusterContents vol disk c ⟨k - dst, by omega⟩
      else behind k := by
  rw [readCluster, storeBytes_rounds fun i => disk (sectorLba vol c i)]
  rfl

/-- `write_cluster` is one write to the store of clusters. -/
theorem clusterContents_writeCluster
    (h : vol.data.sectorsPerCluster = vol.id.sectorsPerCluster)
    (hn : n * vol.id.sectorsPerCluster.toNat < 2 ^ 32) (hc : (c - lo).toNat < n)
    (hd : (d - lo).toNat < n) (src : ℕ → UInt8) (card : Card) :
    clusterContents vol (writeCluster vol sdDriver d src card).current c =
      Function.update (clusterContents vol card.current) d (bufBytes vol src) c := by
  have hwrites : (writeCluster vol sdDriver d src card).current =
      replay ((List.range vol.id.sectorsPerCluster.toNat).map fun i =>
        (sectorLba vol d i, bufSector src (512 * i))) card.current :=
    Store.current_foldl_write _ _ _ card
  funext k
  have hk : k.val / 512 < vol.id.sectorsPerCluster.toNat :=
    Nat.div_lt_of_lt_mul k.isLt
  rw [clusterContents, hwrites]
  by_cases hcd : c = d
  · subst hcd
    rw [replay_map_of_mem
      (fun i hi he => (sectorLba_inj h hn hc hc (List.mem_range.mp hi) hk he).2)
      (List.mem_range.mpr hk), Function.update_self, bufBytes, bufSector]
    exact congrArg src (Nat.div_add_mod k.val 512)
  · rw [replay_of_notMem, Function.update_of_ne hcd, clusterContents]
    intro w hw he
    obtain ⟨i, hi, rfl⟩ := List.mem_map.mp hw
    exact hcd (sectorLba_inj h hn hd hc (List.mem_range.mp hi) hk he).1.symm

/-- Calls of `write_cluster` are the writes to the store of clusters. -/
theorem clusterContents_writeClusters
    (h : vol.data.sectorsPerCluster = vol.id.sectorsPerCluster)
    (hn : n * vol.id.sectorsPerCluster.toNat < 2 ^ 32) (hc : (c - lo).toNat < n)
    {ws : List (UInt32 × (ℕ → UInt8))} (hws : ∀ w ∈ ws, (w.1 - lo).toNat < n) (card : Card) :
    clusterContents vol (writeClusters vol sdDriver ws card).current c =
      replay (ws.map fun w => (w.1, bufBytes vol w.2)) (clusterContents vol card.current) c := by
  induction ws using List.reverseRecOn with
  | nil => rfl
  | append_singleton ws w ih =>
    have hlast := hws w (by simp)
    rw [writeClusters, List.foldl_append, List.foldl_cons, List.foldl_nil,
      clusterContents_writeCluster h hn hc hlast, List.map_append, List.map_singleton,
      replay_concat]
    have hbefore := ih fun v hv => hws v (List.mem_append_left [w] hv)
    by_cases hw : c = w.1
    · rw [hw, Function.update_self, Function.update_self]
    · rw [Function.update_of_ne hw, Function.update_of_ne hw]
      exact hbefore

/-! ## What is read after writes -/

/-- The volume of a partition that begins at `lbaBegin`, as `fat32_init` leaves it. -/
def mountedVolume (lbaBegin : UInt32) (v : VolumeId) : Volume := ⟨v, fatVolumeData lbaBegin v⟩

variable {lbaBegin : UInt32} {v : VolumeId} {ws : List (UInt32 × (ℕ → UInt8))}

theorem readCluster_add (vol : Volume) (disk : UInt32 → Sector) (c : UInt32) (dst : ℕ)
    (behind : ℕ → UInt8) (hk : k < 512 * vol.id.sectorsPerCluster.toNat) :
    readCluster vol disk c dst behind (dst + k) = clusterContents vol disk c ⟨k, hk⟩ := by
  rw [readCluster_eq, dif_pos ⟨by omega, by omega⟩]
  simp only [Nat.add_sub_cancel_left]

/-- In a range of clusters with fewer than `2 ^ 32` sectors `read_cluster` reads the bytes of the
last `write_cluster` to the cluster, and what was there before when there is none: a write to one
cluster leaves the bytes of the others. -/
theorem readCluster_writeClusters (hn : n * v.sectorsPerCluster.toNat < 2 ^ 32)
    (hws : ∀ w ∈ ws, (w.1 - lo).toNat < n) (hc : (c - lo).toNat < n) (card : Card) (dst : ℕ)
    (behind : ℕ → UInt8) (hk : k < 512 * v.sectorsPerCluster.toNat) :
    let vol := mountedVolume lbaBegin v
    let after := (writeClusters vol sdDriver ws card).current
    (∀ pre src post, ws = pre ++ (c, src) :: post → (∀ w ∈ post, w.1 ≠ c) →
        readCluster vol after c dst behind (dst + k) = src k) ∧
      ((∀ w ∈ ws, w.1 ≠ c) → readCluster vol after c dst behind (dst + k) =
        readCluster vol card.current c dst behind (dst + k)) := by
  intro vol after
  have hstore : clusterContents vol after c = _ :=
    clusterContents_writeClusters rfl hn hc hws card
  constructor
  · rintro pre src post rfl hpost
    rw [readCluster_add vol after c dst behind hk, hstore, List.map_append, List.map_cons,
      replay_last]
    · rfl
    · intro w hw
      obtain ⟨u, hu, rfl⟩ := List.mem_map.mp hw
      exact hpost u hu
  · intro hnone
    rw [readCluster_add vol after c dst behind hk, readCluster_add vol card.current c dst behind hk,
      hstore, replay_of_notMem]
    intro w hw
    obtain ⟨u, hu, rfl⟩ := List.mem_map.mp hw
    exact hnone u hu

/-- Clusters 3 and 4 of a volume with two sectors a cluster, whose root directory begins at
cluster 5. -/
theorem readCluster_writeClusters_below :
    readCluster (mountedVolume 63 ⟨512, 2, 32, 2, 8, 5⟩)
      (writeClusters (mountedVolume 63 ⟨512, 2, 32, 2, 8, 5⟩) sdDriver
        [(3, fun _ => 1), (4, fun _ => 2)] ⟨fun _ => blankSector, []⟩).current 3 0 (fun _ => 0)
      (0 + 1000) = 1 :=
  (readCluster_writeClusters (n := 2) (by decide) (by decide)
    (show ((3 : UInt32) - 3).toNat < 2 by decide) ⟨fun _ => blankSector, []⟩ 0 _ (by decide)).1
    [] (fun _ => 1) [(4, fun _ => 2)] rfl (by decide)

end NaiveGfs
