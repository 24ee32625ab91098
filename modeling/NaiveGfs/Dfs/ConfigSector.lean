import NaiveGfs.Fat32.Volume
import NaiveGfs.Words.CString

/-!
# The config sector of a pi

The first sector of the config file holds sixteen entries, each the name of a dfs and the id
that the pi has in it. `id_for_dfs` of `main.c` scans them in order and stops at the first
entry that is free or matches the name. The scan (`scan`), the answer and the sector it
leaves are functions of the sector; `id_for_dfs` reads the sector, runs them and writes it.
-/

namespace NaiveGfs

open LittleEndian

variable {κ : Type}

/-- The conversion of a C `int` that is not negative to `uint16_t`. -/
theorem toNat_ofInt16 (n : ℕ) : (UInt16.ofInt (n : ℤ)).toNat = n % 65536 := by
  rw [UInt16.ofInt, UInt16.toNat_ofNat']
  omega

/-- The conversion of a C `int` that is not negative to `uint8_t`. -/
theorem toNat_ofInt8 (n : ℕ) : (UInt8.ofInt (n : ℤ)).toNat = n % 256 := by
  rw [UInt8.ofInt, UInt8.toNat_ofNat']
  omega

/-- An entry of `struct config_sector`. -/
structure ConfigEntry where
  dfsId : Fin 30 → UInt8
  id : UInt16

namespace ConfigEntry

/-- The entry overlaid on 32 bytes. -/
def ofBytes (b : Fin 32 → UInt8) : ConfigEntry where
  dfsId := fun j => b ⟨j.val, by omega⟩
  id := word16 (b 30) (b 31)

/-- The 32 bytes of an entry. -/
def bytes (e : ConfigEntry) : Fin 32 → UInt8 := fun b =>
  if h : b.val < 30 then e.dfsId ⟨b.val, h⟩ else byte16 e.id (b.val - 30)

@[simp] theorem ofBytes_bytes (e : ConfigEntry) : ofBytes e.bytes = e := by
  have hname : (fun j : Fin 30 => e.bytes ⟨j.val, by omega⟩) = e.dfsId := by
    funext j
    simp [bytes]
  rw [ofBytes, hname]
  simp [bytes]

/-- The test that ends the list of entries. -/
def isFree (e : ConfigEntry) : Bool := e.dfsId 0 == 0

/-- The entry is in use and `strncmp` takes its name for `dfsName`. -/
def matchesName (dfsName : Fin 30 → UInt8) (e : ConfigEntry) : Bool :=
  !e.isFree && strncmp e.dfsId dfsName == 0

/-- What the loop of `id_for_dfs` writes into a free entry. -/
def assign (e : ConfigEntry) (dfsName : Fin 30 → UInt8) (id : ℤ) : ConfigEntry where
  dfsId := strncpy e.dfsId dfsName
  id := UInt16.ofInt id

theorem isFree_assign (e : ConfigEntry) {dfsName : Fin 30 → UInt8} (h : ¬ IsEnd (dfsName 0))
    (id : ℤ) : (e.assign dfsName id).isFree = false := by
  have hfirst : strncpy e.dfsId dfsName 0 = dfsName 0 := strncpy_zero _ _ h
  have hne : dfsName 0 ≠ 0 := fun he => h (Or.inl he)
  simpa [isFree, assign, hfirst] using hne

theorem matchesName_assign (e : ConfigEntry) {dfsName : Fin 30 → UInt8}
    (h : ¬ IsEnd (dfsName 0)) (id : ℤ) : (e.assign dfsName id).matchesName dfsName = true := by
  rw [matchesName, isFree_assign e h]
  simp [assign, strncmp_strncpy]

end ConfigEntry

namespace Sector

/-- Entry `i` of a config sector. -/
def entry (s : Sector) (i : Fin 16) : ConfigEntry := ConfigEntry.ofBytes (s.slot i)

/-- Store an entry at index `i` of a config sector. -/
def setEntry (s : Sector) (i : Fin 16) (e : ConfigEntry) : Sector := s.setSlot i e.bytes

@[simp] theorem entry_setEntry_self (s : Sector) (i : Fin 16) (e : ConfigEntry) :
    (s.setEntry i e).entry i = e := by
  rw [entry, setEntry, slot_setSlot_self, ConfigEntry.ofBytes_bytes]

theorem entry_setEntry_of_ne (s : Sector) {i j : Fin 16} (h : j ≠ i) (e : ConfigEntry) :
    (s.setEntry i e).entry j = s.entry j := by
  rw [entry, setEntry, slot_setSlot_of_ne s h, entry]

end Sector

/-! ## The scan -/

/-- How the loop of `id_for_dfs` ends: at a free entry, at a matching one, or after all
sixteen entries. -/
inductive ScanEnd
  | free (i : Fin 16)
  | matched (i : Fin 16)
  | full
deriving DecidableEq

/-- The loop of `id_for_dfs` over the remaining entries. -/
def scanFrom (s : Sector) (dfsName : Fin 30 → UInt8) : List (Fin 16) → ScanEnd
  | [] => .full
  | i :: is =>
    if (s.entry i).isFree then .free i
    else if strncmp (s.entry i).dfsId dfsName = 0 then .matched i
    else scanFrom s dfsName is

/-- The loop of `id_for_dfs`. -/
def scan (s : Sector) (dfsName : Fin 30 → UInt8) : ScanEnd :=
  scanFrom s dfsName (List.finRange 16)

/-- An entry that the scan steps over. -/
def Passes (s : Sector) (dfsName : Fin 30 → UInt8) (i : Fin 16) : Prop :=
  (s.entry i).isFree = false ∧ (s.entry i).matchesName dfsName = false

instance (s : Sector) (dfsName : Fin 30 → UInt8) (i : Fin 16) : Decidable (Passes s dfsName i) :=
  inferInstanceAs (Decidable (_ ∧ _))

section Scan

variable {s : Sector} {dfsName : Fin 30 → UInt8}

theorem Passes.strncmp_ne {i : Fin 16} (h : Passes s dfsName i) :
    strncmp (s.entry i).dfsId dfsName ≠ 0 := by
  have hm := h.2
  simpa [ConfigEntry.matchesName, h.1] using hm

theorem scanFrom_append {pre : List (Fin 16)} (h : ∀ j ∈ pre, Passes s dfsName j)
    (is : List (Fin 16)) : scanFrom s dfsName (pre ++ is) = scanFrom s dfsName is := by
  induction pre with
  | nil => rfl
  | cons j pre ih =>
    have hj := h j (by simp)
    rw [List.cons_append, scanFrom, hj.1, if_neg Bool.false_ne_true, if_neg hj.strncmp_ne]
    exact ih fun k hk => h k (by simp [hk])

theorem scanFrom_cons_free {i : Fin 16} (h : (s.entry i).isFree = true) (is : List (Fin 16)) :
    scanFrom s dfsName (i :: is) = .free i := if_pos h

theorem scanFrom_cons_matched {i : Fin 16} (h : (s.entry i).matchesName dfsName = true)
    (is : List (Fin 16)) : scanFrom s dfsName (i :: is) = .matched i := by
  simp only [ConfigEntry.matchesName, Bool.and_eq_true, Bool.not_eq_true', beq_iff_eq] at h
  rw [scanFrom, h.1, if_neg Bool.false_ne_true, if_pos h.2]

/-- The scan steps over a prefix of the entries and stops at the one behind it. -/
theorem scanFrom_cases (s : Sector) (dfsName : Fin 30 → UInt8) (is : List (Fin 16)) :
    (scanFrom s dfsName is = .full ∧ ∀ j ∈ is, Passes s dfsName j) ∨
      ∃ pre i post, is = pre ++ i :: post ∧ (∀ j ∈ pre, Passes s dfsName j) ∧
        (((s.entry i).isFree = true ∧ scanFrom s dfsName is = .free i) ∨
          ((s.entry i).matchesName dfsName = true ∧ scanFrom s dfsName is = .matched i)) := by
  induction is with
  | nil => exact Or.inl ⟨rfl, by simp⟩
  | cons i is ih =>
    by_cases hfree : (s.entry i).isFree = true
    · exact Or.inr ⟨[], i, is, rfl, by simp, Or.inl ⟨hfree, scanFrom_cons_free hfree is⟩⟩
    · by_cases hmatch : (s.entry i).matchesName dfsName = true
      · exact Or.inr ⟨[], i, is, rfl, by simp, Or.inr ⟨hmatch, scanFrom_cons_matched hmatch is⟩⟩
      · have hi : Passes s dfsName i := ⟨by simpa using hfree, by simpa using hmatch⟩
        have hsingle : ∀ j ∈ [i], Passes s dfsName j := by simpa using hi
        have hstep : scanFrom s dfsName (i :: is) = scanFrom s dfsName is :=
          scanFrom_append hsingle is
        rw [hstep]
        rcases ih with ⟨hfull, hall⟩ | ⟨pre, k, post, rfl, hpre, hend⟩
        · exact Or.inl ⟨hfull, by simpa [hi] using hall⟩
        · exact Or.inr ⟨i :: pre, k, post, rfl, by simpa [hi] using hpre, hend⟩

theorem scan_of_free {i : Fin 16} (hpre : ∀ j < i, Passes s dfsName j)
    (h : (s.entry i).isFree = true) : scan s dfsName = .free i := by
  obtain ⟨pre, post, hsplit⟩ := exists_finRange_split i
  rw [scan, hsplit, scanFrom_append (fun j hj => hpre j ((finRange_split hsplit j).mp hj)),
    scanFrom_cons_free h]

theorem scan_of_matched {i : Fin 16} (hpre : ∀ j < i, Passes s dfsName j)
    (h : (s.entry i).matchesName dfsName = true) : scan s dfsName = .matched i := by
  obtain ⟨pre, post, hsplit⟩ := exists_finRange_split i
  rw [scan, hsplit, scanFrom_append (fun j hj => hpre j ((finRange_split hsplit j).mp hj)),
    scanFrom_cons_matched h]

/-- The three ways in which the scan ends, with what each says about the entries. -/
theorem scan_cases (s : Sector) (dfsName : Fin 30 → UInt8) :
    (scan s dfsName = .full ∧ ∀ j, Passes s dfsName j) ∨
      ∃ i, (∀ j < i, Passes s dfsName j) ∧
        (((s.entry i).isFree = true ∧ scan s dfsName = .free i) ∨
          ((s.entry i).matchesName dfsName = true ∧ scan s dfsName = .matched i)) := by
  rcases scanFrom_cases s dfsName (List.finRange 16) with
    ⟨hfull, hall⟩ | ⟨pre, i, post, hsplit, hpre, hend⟩
  · exact Or.inl ⟨hfull, fun j => hall j (List.mem_finRange j)⟩
  · exact Or.inr ⟨i, fun j hj => hpre j ((finRange_split hsplit j).mpr hj), hend⟩

/-- The scan has stopped at a matching entry exactly behind entries that pass. -/
theorem passes_of_scan_matched {i : Fin 16} (h : scan s dfsName = .matched i) :
    (∀ j < i, Passes s dfsName j) ∧ (s.entry i).matchesName dfsName = true := by
  rcases scan_cases s dfsName with ⟨hfull, -⟩ | ⟨k, hpre, ⟨-, hk⟩ | ⟨hmatch, hk⟩⟩
  · exact absurd (h.symm.trans hfull) (by simp)
  · exact absurd (h.symm.trans hk) (by simp)
  · obtain rfl := ScanEnd.matched.inj (h.symm.trans hk)
    exact ⟨hpre, hmatch⟩

theorem passes_of_scan_free {i : Fin 16} (h : scan s dfsName = .free i) :
    (∀ j < i, Passes s dfsName j) ∧ (s.entry i).isFree = true := by
  rcases scan_cases s dfsName with ⟨hfull, -⟩ | ⟨k, hpre, ⟨hfree, hk⟩ | ⟨-, hk⟩⟩
  · exact absurd (h.symm.trans hfull) (by simp)
  · obtain rfl := ScanEnd.free.inj (h.symm.trans hk)
    exact ⟨hpre, hfree⟩
  · exact absurd (h.symm.trans hk) (by simp)

/-- What the scan finds once a free entry has been assigned. -/
theorem scan_setEntry_assign {i : Fin 16} (hname : ¬ IsEnd (dfsName 0))
    (hpre : ∀ j < i, Passes s dfsName j) (id : ℤ) :
    scan (s.setEntry i ((s.entry i).assign dfsName id)) dfsName = .matched i := by
  refine scan_of_matched (fun j hj => ?_) ?_
  · rw [Passes, Sector.entry_setEntry_of_ne s hj.ne]
    exact hpre j hj
  · rw [Sector.entry_setEntry_self]
    exact ConfigEntry.matchesName_assign _ hname id

end Scan

/-! ## `id_for_dfs` -/

/-- The value that `id_for_dfs` returns for a sector, once it returns. -/
def scanResult (s : Sector) (dfsName : Fin 30 → UInt8) : ℤ :=
  match scan s dfsName with
  | .matched i => (s.entry i).id.toNat
  | _ => -1

/-- The sector that `id_for_dfs` leaves. -/
def scanSector (s : Sector) (dfsName : Fin 30 → UInt8) (idIfUnassigned : ℤ) : Sector :=
  match scan s dfsName with
  | .free i => s.setEntry i ((s.entry i).assign dfsName idIfUnassigned)
  | _ => s

/-- `id_for_dfs`; `stack` is what the uninitialised sector buffer holds. `none` is the
`_halt` at a free entry when there is no id to give out. -/
def idForDfs (drv : Driver κ) (vol : Volume) (cfgClusterNo : UInt32) (dfsName : Fin 30 → UInt8)
    (idIfUnassigned : ℤ) (stack : Sector) (dev : κ) : Option (ℤ × κ) :=
  let (dev, s) := drv.readsector dev (clusterNoToLba vol cfgClusterNo) stack
  match scan s dfsName with
  | .free i =>
    if idIfUnassigned = -1 then none
    else
      let s := s.setEntry i ((s.entry i).assign dfsName idIfUnassigned)
      some (-1, drv.writesector dev s (clusterNoToLba vol cfgClusterNo))
  | .matched i => some ((s.entry i).id.toNat, dev)
  | .full => some (-1, drv.writesector dev s (clusterNoToLba vol cfgClusterNo))

section Card

variable {vol : Volume} {dfsName : Fin 30 → UInt8} {card : Card} {cfgClusterNo : UInt32}

/-- With an id to give out the call returns, whatever the device does. -/
theorem exists_idForDfs (drv : Driver κ) (vol : Volume) (cfgClusterNo : UInt32)
    (dfsName : Fin 30 → UInt8) {id : ℤ} (hid : id ≠ -1) (stack : Sector) (dev : κ) :
    ∃ r dev', idForDfs drv vol cfgClusterNo dfsName id stack dev = some (r, dev') := by
  rw [idForDfs]
  simp only
  split
  · rw [if_neg hid]
    exact ⟨_, _, rfl⟩
  · exact ⟨_, _, rfl⟩
  · exact ⟨_, _, rfl⟩

/-- At a matching entry the call returns its id and writes nothing. -/
theorem idForDfs_of_matched {i : Fin 16}
    (h : scan (card.current (clusterNoToLba vol cfgClusterNo)) dfsName = .matched i) (id : ℤ)
    (stack : Sector) : idForDfs sdDriver vol cfgClusterNo dfsName id stack card =
      some ((((card.current (clusterNoToLba vol cfgClusterNo)).entry i).id.toNat : ℤ), card) := by
  simp only [idForDfs, sdDriver, h]

/-- On a card that does not fail the call returns the result of the scan and leaves its
sector; the other sectors keep their contents. -/
theorem idForDfs_card (vol : Volume) (cfgClusterNo : UInt32) (dfsName : Fin 30 → UInt8) {id : ℤ}
    (hid : id ≠ -1) (stack : Sector) (card : Card) :
    ∃ card', idForDfs sdDriver vol cfgClusterNo dfsName id stack card =
        some (scanResult (card.current (clusterNoToLba vol cfgClusterNo)) dfsName, card') ∧
      card'.current = Function.update card.current (clusterNoToLba vol cfgClusterNo)
        (scanSector (card.current (clusterNoToLba vol cfgClusterNo)) dfsName id) := by
  simp only [idForDfs, sdDriver, scanResult, scanSector]
  cases hscan : scan (card.current (clusterNoToLba vol cfgClusterNo)) dfsName with
  | free i => exact ⟨_, by simp only [if_neg hid], BlockStore.Store.current_write _ _ _⟩
  | matched i => exact ⟨_, rfl, by simp⟩
  | full => exact ⟨_, rfl, BlockStore.Store.current_write _ _ _⟩

end Card

end NaiveGfs
