import Mathlib.Data.List.FinRange
import Mathlib.Logic.Function.Basic
import NaiveGfs.Words.LittleEndian

/-!
# Sectors and the structures stored in them

A sector is 512 bytes. The packed structures of `fat32.h` are read out of a sector at the
byte offsets the compiler gives their fields; a buffer of records stays a sector and is
viewed as sixteen slots of 32 bytes, the way the code overlays its structures on it.
-/

namespace NaiveGfs

open LittleEndian

/-- `SD_SECTOR_SIZE` bytes. -/
abbrev Sector := Fin 512 → UInt8

/-! The index types of the bytes, words and records of a sector have literals: shortcuts to what
the library's instance for numerals gives, which the searches find at once. -/

instance neZero512 : NeZero 512 := ⟨by decide⟩

instance neZero128 : NeZero 128 := ⟨by decide⟩

instance neZero32 : NeZero 32 := ⟨by decide⟩

instance neZero16 : NeZero 16 := ⟨by decide⟩

instance neZero11 : NeZero 11 := ⟨by decide⟩

namespace Sector

/-- The 16-bit field at a byte offset. -/
def u16At (s : Sector) (off : ℕ) (h : off + 2 ≤ 512 := by decide) : UInt16 :=
  word16 (s ⟨off, by omega⟩) (s ⟨off + 1, by omega⟩)

/-- The 32-bit field at a byte offset. -/
def u32At (s : Sector) (off : ℕ) (h : off + 4 ≤ 512 := by decide) : UInt32 :=
  word32 (s ⟨off, by omega⟩) (s ⟨off + 1, by omega⟩) (s ⟨off + 2, by omega⟩)
    (s ⟨off + 3, by omega⟩)

/-! ## A sector as 128 words -/

/-- Word `k` of a sector. -/
def word (s : Sector) (k : Fin 128) : UInt32 := s.u32At (4 * k.val) (by omega)

/-- The word of a sector that word `i` of a buffer of sectors falls on. -/
def wordAt (s : Sector) (i : ℕ) : UInt32 := s.word (Fin.ofNat 128 i)

/-- The bytes of 128 consecutive words of memory. -/
def ofWords (w : Fin 128 → UInt32) : Sector := fun b =>
  byte32 (w ⟨b.val / 4, by omega⟩) (b.val % 4)

@[simp] theorem word_ofWords (w : Fin 128 → UInt32) (k : Fin 128) : (ofWords w).word k = w k := by
  have hbyte : ∀ (j : ℕ) (hj : j < 4) (hb : 4 * k.val + j < 512),
      ofWords w ⟨4 * k.val + j, hb⟩ = byte32 (w k) j := by
    intro j hj hb
    have hk : (⟨(4 * k.val + j) / 4, by omega⟩ : Fin 128) = k := by
      apply Fin.ext
      simp only
      omega
    have hmod : (4 * k.val + j) % 4 = j := by omega
    simp only [ofWords, hk, hmod]
  rw [word, u32At]
  have h0 := hbyte 0 (by omega) (by omega)
  rw [show ofWords w ⟨4 * k.val, _⟩ = byte32 (w k) 0 from h0, hbyte 1 (by omega),
    hbyte 2 (by omega), hbyte 3 (by omega), word32_byte32]

@[simp] theorem wordAt_val (s : Sector) (k : Fin 128) : s.wordAt k = s.word k :=
  congrArg s.word (Fin.ext (Nat.mod_eq_of_lt k.isLt))

@[simp] theorem ofWords_word (s : Sector) : ofWords s.word = s := by
  funext b
  obtain ⟨b, hb⟩ := b
  obtain ⟨k, j, hj, rfl⟩ : ∃ k j, j < 4 ∧ b = 4 * k + j :=
    ⟨b / 4, b % 4, by omega, by omega⟩
  have hdiv : (4 * k + j) / 4 = k := by omega
  have hmod : (4 * k + j) % 4 = j := by omega
  have hbytes := bytes32_word32 (s ⟨4 * k, by omega⟩) (s ⟨4 * k + 1, by omega⟩)
    (s ⟨4 * k + 2, by omega⟩) (s ⟨4 * k + 3, by omega⟩)
  simp only [bytes32, List.cons.injEq, and_true] at hbytes
  obtain ⟨h0, h1, h2, h3⟩ := hbytes
  simp only [ofWords, hdiv, hmod, word, u32At]
  have hbyte : j = 0 ∨ j = 1 ∨ j = 2 ∨ j = 3 := by omega
  rcases hbyte with rfl | rfl | rfl | rfl
  · exact h0
  · exact h1
  · exact h2
  · exact h3

end Sector

/-- The static `blank_sector`. -/
def blankSector : Sector := fun _ => 0

/-! ## Partition table and volume id -/

/-- The fields of `struct partition` that are read. -/
structure Partition where
  lbaBegin : UInt32
  numSectors : UInt32
deriving DecidableEq

/-- Entry `i` of the partition table of `struct mbr`. -/
def Sector.partition (s : Sector) (i : Fin 4) : Partition where
  lbaBegin := s.u32At (446 + 16 * i.val + 8) (by omega)
  numSectors := s.u32At (446 + 16 * i.val + 12) (by omega)

/-- The fields of `struct volume_id` that are read. -/
structure VolumeId where
  bytesPerSector : UInt16
  sectorsPerCluster : UInt8
  numReservedSectors : UInt16
  numFats : UInt8
  sectorsPerFat : UInt32
  rootDirFirstCluster : UInt32
deriving DecidableEq

/-- The sector as `struct volume_id`. -/
def Sector.volumeId (s : Sector) : VolumeId where
  bytesPerSector := s.u16At 0x0b
  sectorsPerCluster := s 0x0d
  numReservedSectors := s.u16At 0x0e
  numFats := s 0x10
  sectorsPerFat := s.u32At 0x24
  rootDirFirstCluster := s.u32At 0x2c

/-! ## Directory records -/

/-- `struct dir_record`. -/
structure DirRecord where
  dirName : Fin 11 → UInt8
  dirAttr : UInt8
  pad1 : Fin 8 → UInt8
  dirFirstClusterHigh : UInt16
  pad2 : Fin 4 → UInt8
  dirFirstClusterLow : UInt16
  dirFileSize : UInt32

namespace DirRecord

/-- The record overlaid on 32 bytes. -/
def ofBytes (b : Fin 32 → UInt8) : DirRecord where
  dirName := fun j => b ⟨j.val, by omega⟩
  dirAttr := b 11
  pad1 := fun j => b ⟨12 + j.val, by omega⟩
  dirFirstClusterHigh := word16 (b 20) (b 21)
  pad2 := fun j => b ⟨22 + j.val, by omega⟩
  dirFirstClusterLow := word16 (b 26) (b 27)
  dirFileSize := word32 (b 28) (b 29) (b 30) (b 31)

/-- The 32 bytes of a record. -/
def bytes (r : DirRecord) : Fin 32 → UInt8 := fun b =>
  if h : b.val < 11 then r.dirName ⟨b.val, h⟩
  else if b.val = 11 then r.dirAttr
  else if h : b.val < 20 then r.pad1 ⟨b.val - 12, by omega⟩
  else if b.val < 22 then byte16 r.dirFirstClusterHigh (b.val - 20)
  else if h : b.val < 26 then r.pad2 ⟨b.val - 22, by omega⟩
  else if b.val < 28 then byte16 r.dirFirstClusterLow (b.val - 26)
  else byte32 r.dirFileSize (b.val - 28)

@[simp] theorem ofBytes_bytes (r : DirRecord) : ofBytes r.bytes = r := by
  have hname : (fun j : Fin 11 => r.bytes ⟨j.val, by omega⟩) = r.dirName := by
    funext j
    simp [bytes]
  have hpad1 : (fun j : Fin 8 => r.bytes ⟨12 + j.val, by omega⟩) = r.pad1 := by
    funext j
    have hlo : ¬ 12 + j.val < 11 := by omega
    have hne : ¬ 12 + j.val = 11 := by omega
    have hhi : 12 + j.val < 20 := by omega
    simp [bytes, hlo, hne, hhi]
  have hpad2 : (fun j : Fin 4 => r.bytes ⟨22 + j.val, by omega⟩) = r.pad2 := by
    funext j
    have hlo : ¬ 22 + j.val < 11 := by omega
    have hne : ¬ 22 + j.val = 11 := by omega
    have h20 : ¬ 22 + j.val < 20 := by omega
    have hhi : 22 + j.val < 26 := by omega
    simp [bytes, hlo, hne, h20, hhi]
  rw [ofBytes, hname, hpad1, hpad2]
  simp [bytes]

/-- `IS_LFN` of the record's attribute. -/
def isLfn (r : DirRecord) : Bool := r.dirAttr == 0x0f

/-- `IS_TERMINAL`. -/
def isTerminal (r : DirRecord) : Bool := r.dirName 0 == 0

/-- The start cluster, assembled from its two halves. -/
def startCluster (r : DirRecord) : UInt32 :=
  ofHalves r.dirFirstClusterLow r.dirFirstClusterHigh

/-- The record with its first byte cleared, as raw memory. -/
def clearFirst (r : DirRecord) : DirRecord :=
  { r with dirName := Function.update r.dirName 0 0 }

@[simp] theorem isLfn_clearFirst (r : DirRecord) : r.clearFirst.isLfn = r.isLfn := rfl

@[simp] theorem isTerminal_clearFirst (r : DirRecord) : r.clearFirst.isTerminal = true := by
  simp [clearFirst, isTerminal]

theorem ofBytes_update_zero (b : Fin 32 → UInt8) :
    ofBytes (Function.update b 0 0) = (ofBytes b).clearFirst := by
  have hkeep : ∀ k : Fin 32, k ≠ 0 → Function.update b 0 0 k = b k :=
    fun k hk => Function.update_of_ne hk _ _
  have hne : ∀ (k : ℕ) (h : k < 32), 0 < k → (⟨k, h⟩ : Fin 32) ≠ 0 :=
    fun k h hk he => hk.ne' (congrArg Fin.val he)
  have hname : (fun j : Fin 11 => Function.update b 0 0 ⟨j.val, by omega⟩) =
      Function.update (fun j : Fin 11 => b ⟨j.val, by omega⟩) 0 0 := by
    funext j
    by_cases hj : j = 0
    · subst hj
      rw [Function.update_self]
      exact Function.update_self _ _ _
    · rw [Function.update_of_ne hj]
      exact hkeep _ (fun he => hj (Fin.ext (Fin.mk.inj he)))
  have hpad1 : ∀ j : Fin 8, Function.update b 0 0 ⟨12 + j.val, by omega⟩ =
      b ⟨12 + j.val, by omega⟩ := fun j => hkeep _ (hne _ _ (by omega))
  have hpad2 : ∀ j : Fin 4, Function.update b 0 0 ⟨22 + j.val, by omega⟩ =
      b ⟨22 + j.val, by omega⟩ := fun j => hkeep _ (hne _ _ (by omega))
  simp only [ofBytes, clearFirst, hname, hpad1, hpad2]
  rw [hkeep 11 (by decide), hkeep 20 (by decide), hkeep 21 (by decide), hkeep 26 (by decide),
    hkeep 27 (by decide), hkeep 28 (by decide), hkeep 29 (by decide), hkeep 30 (by decide),
    hkeep 31 (by decide)]

end DirRecord

/-! ## The order of the records -/

/-- Splitting the indices at `i` puts those below it in front. -/
theorem finRange_split {m : ℕ} {pre post : List (Fin m)} {i : Fin m}
    (h : List.finRange m = pre ++ i :: post) (j : Fin m) : j ∈ pre ↔ j < i := by
  have hsorted : (pre ++ i :: post).Pairwise (· < ·) := h ▸ List.pairwise_lt_finRange m
  have hmem : j ∈ pre ++ i :: post := h ▸ List.mem_finRange j
  obtain ⟨_, hpost, hcross⟩ := List.pairwise_append.mp hsorted
  constructor
  · exact fun hj => hcross j hj i (by simp)
  · intro hlt
    cases List.mem_append.mp hmem with
    | inl hj => exact hj
    | inr hj =>
      rcases List.mem_cons.mp hj with rfl | hj
      · exact absurd hlt (lt_irrefl _)
      · exact absurd hlt (lt_asymm ((List.pairwise_cons.mp hpost).1 j hj))

theorem exists_finRange_split {m : ℕ} (i : Fin m) :
    ∃ pre post, List.finRange m = pre ++ i :: post :=
  List.append_of_mem (List.mem_finRange i)

namespace Sector

/-! ## A sector as sixteen slots of 32 bytes -/

/-- Slot `i` of a sector. -/
def slot (s : Sector) (i : Fin 16) : Fin 32 → UInt8 :=
  fun j => s ⟨32 * i.val + j.val, by omega⟩

/-- Store 32 bytes at slot `i` of a sector. -/
def setSlot (s : Sector) (i : Fin 16) (b : Fin 32 → UInt8) : Sector := fun k =>
  if k.val / 32 = i.val then b ⟨k.val % 32, by omega⟩ else s k

@[simp] theorem slot_setSlot_self (s : Sector) (i : Fin 16) (b : Fin 32 → UInt8) :
    (s.setSlot i b).slot i = b := by
  funext j
  have hdiv : (32 * i.val + j.val) / 32 = i.val := by omega
  have hmod : (32 * i.val + j.val) % 32 = j.val := by omega
  simp [slot, setSlot, hdiv, hmod]

theorem slot_setSlot_of_ne (s : Sector) {i j : Fin 16} (h : j ≠ i) (b : Fin 32 → UInt8) :
    (s.setSlot i b).slot j = s.slot j := by
  have hne : j.val ≠ i.val := fun he => h (Fin.ext he)
  funext k
  have hdiv : ¬ (32 * j.val + k.val) / 32 = i.val := by omega
  simp only [slot, setSlot, hdiv, if_false]

/-- Record `i` of a directory buffer. -/
def record (s : Sector) (i : Fin 16) : DirRecord := DirRecord.ofBytes (s.slot i)

/-- Store a record at index `i` of a directory buffer. -/
def setRecord (s : Sector) (i : Fin 16) (r : DirRecord) : Sector := s.setSlot i r.bytes

/-- `((uint8_t *)&records[i])[0] = 0`. -/
def clearRecord (s : Sector) (i : Fin 16) : Sector :=
  Function.update s ⟨32 * i.val, by omega⟩ 0

@[simp] theorem record_setRecord_self (s : Sector) (i : Fin 16) (r : DirRecord) :
    (s.setRecord i r).record i = r := by
  rw [record, setRecord, slot_setSlot_self, DirRecord.ofBytes_bytes]

theorem record_setRecord_of_ne (s : Sector) {i j : Fin 16} (h : j ≠ i) (r : DirRecord) :
    (s.setRecord i r).record j = s.record j := by
  rw [record, setRecord, slot_setSlot_of_ne s h, record]

@[simp] theorem record_clearRecord_self (s : Sector) (i : Fin 16) :
    (s.clearRecord i).record i = (s.record i).clearFirst := by
  have hbytes : (s.clearRecord i).slot i = Function.update (s.slot i) 0 0 := by
    funext j
    by_cases hj : j = 0
    · subst hj
      rw [Function.update_self]
      exact Function.update_self _ _ _
    · rw [Function.update_of_ne hj]
      refine Function.update_of_ne (fun he => hj (Fin.ext ?_)) _ _
      simpa using congrArg Fin.val he
  rw [record, hbytes, DirRecord.ofBytes_update_zero, record]

theorem record_clearRecord_of_ne (s : Sector) {i j : Fin 16} (h : j ≠ i) :
    (s.clearRecord i).record j = s.record j := by
  have hne : j.val ≠ i.val := fun he => h (Fin.ext he)
  have hbytes : (s.clearRecord i).slot j = s.slot j := by
    funext k
    refine Function.update_of_ne (fun he => ?_) _ _
    have hval := congrArg Fin.val he
    simp only at hval
    omega
  rw [record, hbytes, record]

end Sector

end NaiveGfs
