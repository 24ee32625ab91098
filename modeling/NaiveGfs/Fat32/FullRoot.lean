import NaiveGfs.Fat32.OutOfSpace
import NaiveGfs.Fat32.RootChain

/-!
# A full root directory

At the end of a root directory without a terminal the loop of `fat32_alloc_local_file` does
not end: the link there has been masked to `0x0FFFFFFF` and is compared with -1. So the part
of the function that extends the directory is not reached. The walk goes on in what would be
cluster `0x0FFFFFFF`, and a call that returns has put its record in some sector out there.
-/

namespace NaiveGfs

open BlockStore BlockStore.Store LinkTable

variable {vol : Volume} {s : Fs Card} {ch : List UInt32} {n : UInt32} {name : Fin 11 → UInt8}
  {stack : Sector}

/-- The call `fat32_alloc_local_file(n, name)` returns the head of a chain of `n` clusters, has
linked one cluster that was free to the end of the root directory, and has put the record of
the file and a terminal there, with the existing records as they were. -/
def ExtendsRoot (vol : Volume) (ch : List UInt32) (n : UInt32) (name : Fin 11 → UInt8)
    (stack : Sector) (s : Fs Card) : Prop :=
  ∃ fuel c s' e, fat32AllocLocalFile sdDriver vol n name stack fuel s = some (c, s') ∧
    s.fat e = 0 ∧ RootChain vol s'.fat (ch ++ [e]) ∧ s'.fat e = fat32TerminalClusterNo ∧
    (∀ sl ∈ dirSlots vol ch, slotRecord vol s'.disk sl = slotRecord vol s.disk sl) ∧
    (∃ dr, slotRecord vol s'.disk ⟨e, 0, 0⟩ = newRecord dr name c) ∧
    isEndRecord (slotRecord vol s'.disk ⟨e, 0, 1⟩) = true ∧
    ∃ ds, ds.head? = some c ∧ ds.length = n.toNat ∧ ds.Nodup ∧ FatChain vol s'.fat ds ∧
      ∀ d ∈ ds, d ∉ ch ++ [e]

/-- A call that returns leaves the entries in use as they were, and its record is at a terminal
that the walk came to. -/
theorem fat32AllocLocalFile_returned (hend : vol.fatEnd.toNat ≤ 2 ^ 28)
    (hroot : RootChain vol s.fat ch) (hfree : clustersTaken n ≤ (freeClusters vol s.fat).length)
    {fuel : ℕ} {c : UInt32} {s' : Fs Card}
    (h : fat32AllocLocalFile sdDriver vol n name stack fuel s = some (c, s')) :
    (∀ k, s.fat k ≠ 0 → s'.fat k = s.fat k) ∧
      ∃ sl : Slot, sl.sectorNo < vol.id.sectorsPerCluster.toNat ∧
        isEndRecord (slotRecord vol s.disk sl) = true ∧
        slotRecord vol s'.disk sl = newRecord (slotRecord vol s.disk sl) name c := by
  have hstart := (hroot.inRange _ (List.mem_of_head? hroot.head)).ne_allOnes hend
  obtain ⟨cur, j, i, records, hwalk, hinsert⟩ := fat32AllocLocalFile_cases hstart h
  obtain ⟨-, hj, -, hrecords, hvisit⟩ := walkClusters_hit hwalk
  refine ⟨?_, ⟨cur, j, i⟩, hj, ?_, ?_⟩
  · intro k hk
    obtain ⟨c₁, s₁, -, -, hwrites, -, hinsert₁⟩ :=
      insertAt_run sdDriver hend hfree name cur j i records
    rw [hinsert] at hinsert₁
    obtain ⟨-, rfl⟩ := Prod.mk.inj hinsert₁
    rw [fat_storeRecord]
    apply hwrites.fat_of_notMem
    intro hin
    exact hk (mem_fileClusters hin).2
  · rw [hrecords] at hvisit
    exact insertVisit_eq_some.mp hvisit
  · have hrecord := slotRecord_insertAt vol cur j i records n.toInt32.toInt name s
    rw [hinsert, hrecords] at hrecord
    exact hrecord

/-- The link of the last cluster stays the end mark, so it is no link to a new cluster. -/
theorem not_extendsRoot (hend : vol.fatEnd.toNat < 2 ^ 28) (hroot : RootChain vol s.fat ch)
    {last : UInt32} (hlast : ch.getLast? = some last)
    (hmark : s.fat last = fat32TerminalClusterNo)
    (hfree : clustersTaken n ≤ (freeClusters vol s.fat).length) :
    ¬ ExtendsRoot vol ch n name stack s := by
  rintro ⟨fuel, c, s', e, hcall, -, hext, -⟩
  have hkeep := (fat32AllocLocalFile_returned hend.le hroot hfree hcall).1 last
    (hroot.used _ (List.mem_of_getLast? hlast))
  have hlink : fat32NextCluster s'.fat last = e :=
    (List.isChain_append.mp hext.linked).2.2 last hlast e rfl
  rw [fat32NextCluster, hkeep, hmark] at hlink
  have hrange := hext.inRange e (by simp)
  exact hrange.ne_mark hend hlink.symm

/-- On a root directory without a terminal, whose last link is the end mark,
`fat32_alloc_local_file` never extends the directory; and where it returns at all it has put
the record of the file outside of it. -/
theorem allocLocalFile_notExtendsRoot (hend : vol.fatEnd.toNat < 2 ^ 28)
    (hroot : RootChain vol s.fat ch) {last : UInt32} (hlast : ch.getLast? = some last)
    (hmark : s.fat last = fat32TerminalClusterNo)
    (hfull : firstHit vol insertVisit s.disk (dirSlots vol ch) = none) (hn : 1 ≤ n)
    (hfree : n.toNat + 1 ≤ (freeClusters vol s.fat).length) :
    ¬ ExtendsRoot vol ch n name stack s ∧
      ∀ fuel c s', fat32AllocLocalFile sdDriver vol n name stack fuel s = some (c, s') →
        ∃ sl : Slot, sl.cluster ∉ ch ∧
          slotRecord vol s'.disk sl = newRecord (slotRecord vol s.disk sl) name c := by
  have htaken : clustersTaken n ≤ (freeClusters vol s.fat).length := by
    have hsome : n.toNat ≤ (freeClusters vol s.fat).length := by omega
    rw [clustersTaken_of_le hend.le hn hsome]
    exact hsome
  constructor
  · exact not_extendsRoot hend hroot hlast hmark htaken
  · intro fuel c s' hcall
    obtain ⟨sl, hj, hterm, hrecord⟩ := (fat32AllocLocalFile_returned hend.le hroot htaken hcall).2
    refine ⟨sl, ?_, hrecord⟩
    intro hin
    have hnone := List.findSome?_eq_none_iff.mp hfull sl (mem_dirSlots.mpr ⟨hin, hj⟩)
    rw [insertVisit_eq_some.mpr hterm] at hnone
    simp at hnone

/-- The small volume with a root directory in which all sixteen records are in use. -/
def fullRootFs : Fs Card where
  fat := freshFs.fat
  dev := ⟨Function.update freshFs.disk 2 fun _ => 65, []⟩

theorem fullRootFs_rootChain : RootChain smallVolume fullRootFs.fat [2] := freshFs_rootChain

theorem allocLocalFile_notExtendsRoot_full :
    ¬ ExtendsRoot smallVolume [2] 1 (fun _ => 66) blankSector fullRootFs ∧
      ∀ fuel c s', fat32AllocLocalFile sdDriver smallVolume 1 (fun _ => 66) blankSector fuel
          fullRootFs = some (c, s') →
        ∃ sl : Slot, sl.cluster ∉ [2] ∧ slotRecord smallVolume s'.disk sl =
          newRecord (slotRecord smallVolume fullRootFs.disk sl) (fun _ => 66) c :=
  allocLocalFile_notExtendsRoot (by decide) fullRootFs_rootChain rfl rfl rfl (by decide)
    (freshFs_free 2 (by decide))

/-- The call for one cluster returns cluster 3, with its record in sector `0x0FFFFFFF`, and does
not extend the directory. -/
theorem fullRoot_notExtended :
    firstHit smallVolume insertVisit fullRootFs.disk (dirSlots smallVolume [2]) = none ∧
      (∃ c s', fat32AllocLocalFile sdDriver smallVolume 1 (fun _ => 66) blankSector 2
          fullRootFs = some (c, s') ∧ s'.fat 2 = fat32TerminalClusterNo ∧
        slotRecord smallVolume s'.disk ⟨fat32TerminalClusterNo, 0, 0⟩ =
          newRecord (blankSector.record 0) (fun _ => 66) c) ∧
      ¬ ExtendsRoot smallVolume [2] 1 (fun _ => 66) blankSector fullRootFs := by
  have hwalk : walkClusters sdDriver smallVolume fullRootFs.fat insertVisit 2 2 2 fullRootFs.dev
      blankSector = some (.hit fat32TerminalClusterNo 0 0 () fullRootFs.dev blankSector) := rfl
  have hcall : fat32AllocLocalFile sdDriver smallVolume 1 (fun _ => 66) blankSector 2 fullRootFs =
      some (insertAt sdDriver smallVolume fat32TerminalClusterNo 0 0 blankSector
        (1 : UInt32).toInt32.toInt (fun _ => 66) fullRootFs) := fat32AllocLocalFile_of_hit hwalk
  have hfree : clustersTaken 1 ≤ (freeClusters smallVolume fullRootFs.fat).length :=
    freshFs_free 1 (by decide)
  refine ⟨rfl, ⟨_, _, hcall, ?_, ?_⟩, ?_⟩
  · exact (fat32AllocLocalFile_returned smallVolume_sound.fatEnd_le fullRootFs_rootChain
      hfree hcall).1 2 (by decide)
  · exact slotRecord_insertAt smallVolume fat32TerminalClusterNo 0 0 blankSector _ _ fullRootFs
  · exact not_extendsRoot (by decide) fullRootFs_rootChain rfl rfl hfree

end NaiveGfs
