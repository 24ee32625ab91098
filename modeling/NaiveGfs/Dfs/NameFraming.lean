import Mathlib.Data.Bool.AllAny
import Mathlib.Data.List.GetD
import Mathlib.Data.List.OfFn
import NaiveGfs.Words.CString
import NaiveGfs.Words.LittleEndian

/-!
# Sending the dfs name

`boot_connected_pies` pads the name with four `0xff` bytes and a terminator, and `send_string`
sends it in words, each of which the pi acknowledges. `get_string` on the pi stops at a word
of all ones or after `MAX_DFS_NAME_LEN / 4` words. The number of words on the two sides is the
same only when the all-ones word is aligned or the limit is met exactly
(`framingAgrees_iff`).
-/

namespace NaiveGfs

open LittleEndian

/-! ## The words of `boot-defs.h` -/

/-- `DUMMY`. -/
def dummy : UInt32 := 0x12345678

/-- `DUMMY2`. -/
def dummy2 : UInt32 := 0x9abcdeff

/-- `CONFIG_INIT`. -/
def configInit : UInt32 := 0x0000eeee

/-- `FS_ID_START`. -/
def fsIdStart : UInt32 := 0x0000ffff

/-- `REQUEST_ID`. -/
def requestId : UInt32 := 0xccccdddd

/-- The bytes sent by `uart_put_dummy`. -/
def uartPutDummy : List UInt8 := [0x78, 0x56, 0x34, 0x12]

/-- The bytes sent by `uart_put_dummy2`. -/
def uartPutDummy2 : List UInt8 := [0xff, 0xde, 0xbc, 0x9a]

theorem uartPutDummy_eq : uartPutDummy = bytes32 dummy := by decide

theorem uartPutDummy2_eq : uartPutDummy2 = bytes32 dummy2 := by decide

/-! ## The mac -/

/-- The buffer `name_to_send` of `boot_connected_pies`. -/
def nameToSend (dfsName : List UInt8) : List UInt8 := dfsName ++ List.replicate 4 0xff ++ [0]

/-- The number of words that `boot_connected_pies` passes to `dfs_boot`. -/
def wordsInName (dfsName : List UInt8) : ℕ := (dfsName.length + 4 + 1) / 4

/-- `((uint32_t *)to_send)[i]`. -/
def wordAt (toSend : List UInt8) (i : ℕ) : UInt32 :=
  word32 (toSend.getD (4 * i) 0) (toSend.getD (4 * i + 1) 0) (toSend.getD (4 * i + 2) 0)
    (toSend.getD (4 * i + 3) 0)

/-- The words that `send_string` sends for a name, in order. -/
def sentWords (dfsName : List UInt8) : List UInt32 :=
  (List.range (wordsInName dfsName)).map (wordAt (nameToSend dfsName))

/-- `while((op = get32(p->fd)) != DUMMY)` on the bytes that arrive: what is left of them, or
`none` when the loop waits for more. -/
def awaitDummy : List UInt8 → Option (List UInt8)
  | b0 :: b1 :: b2 :: b3 :: input =>
    if orBytes b0 b1 b2 b3 = dummy then some input else awaitDummy input
  | _ => none

/-- `send_string` over the remaining words, on the bytes that arrive: the bytes it sends and
what is left of the input. -/
def sendString : List UInt32 → List UInt8 → Option (List UInt8 × List UInt8)
  | [], input => some ([], input)
  | w :: ws, input =>
    match awaitDummy input with
    | none => none
    | some input => (sendString ws input).map fun r => (bytes32 w ++ r.1, r.2)

/-! ## The pi -/

/-- `MAX_DFS_NAME_LEN`. -/
def maxDfsNameLen : ℕ := 30

/-- `((uint32_t *)name)[i] = op`. -/
def putWord (name : Fin 30 → UInt8) (i : ℕ) (op : UInt32) : Fin 30 → UInt8 :=
  fun k => if k.val / 4 = i then byte32 op (k.val % 4) else name k

/-- The loop of `get_string` from word `i` on, with `left` rounds to go, on the bytes that
arrive: the bytes it sends, the buffer, and what is left of the input; `none` when it waits
for more. -/
def getStringFrom : ℕ → ℕ → UInt32 → (Fin 30 → UInt8) → List UInt8 →
    Option (List UInt8 × (Fin 30 → UInt8) × List UInt8)
  | 0, _, _, name, input => some ([], name, input)
  | left + 1, i, op, name, b0 :: b1 :: b2 :: b3 :: input =>
    let op := shiftIn (shiftIn (shiftIn (shiftIn op b0) b1) b2) b3
    let name := putWord name i op
    if op = 0xffffffff then some (uartPutDummy, name, input)
    else (getStringFrom left (i + 1) op name input).map fun r => (uartPutDummy ++ r.1, r.2)
  | _ + 1, _, _, _, _ => none

/-- `get_string`. -/
def getString (name : Fin 30 → UInt8) (input : List UInt8) :
    Option (List UInt8 × (Fin 30 → UInt8) × List UInt8) :=
  getStringFrom (maxDfsNameLen / 4) 0 0 name input

/-- A buffer up to its first `0x00` or `0xff`. -/
def nameIn (buf : Fin 30 → UInt8) : List UInt8 :=
  (List.ofFn buf).takeWhile fun b => !decide (IsEnd b)

/-! ## Agreement -/

/-- Whatever the buffer held and whatever the mac sends next, `get_string` takes exactly the
words of the name, leaves the name in the buffer, and acknowledges each word, so that
`send_string` takes exactly the acknowledgements. -/
def FramingAgrees (dfsName : List UInt8) : Prop :=
  ∀ (buf : Fin 30 → UInt8) (next : List UInt8), ∃ acks buf',
    getString buf ((sentWords dfsName).flatMap bytes32 ++ next) = some (acks, buf', next) ∧
    acks.length = 4 * (sentWords dfsName).length ∧
    (∀ later, sendString (sentWords dfsName) (acks ++ later) =
      some ((sentWords dfsName).flatMap bytes32, later)) ∧
    nameIn buf' = dfsName

/-- The acknowledgements of `n` words. -/
def acksFor (n : ℕ) : List UInt8 := (List.replicate n uartPutDummy).flatten

theorem acksFor_succ (n : ℕ) : acksFor (n + 1) = uartPutDummy ++ acksFor n := by
  rw [acksFor, List.replicate_succ, List.flatten_cons, acksFor]

@[simp] theorem acksFor_length (n : ℕ) : (acksFor n).length = 4 * n := by
  induction n with
  | zero => rfl
  | succ n ih =>
    rw [acksFor_succ, List.length_append, ih]
    show 4 + 4 * n = _
    omega

theorem acksFor_concat (n : ℕ) : acksFor (n + 1) = acksFor n ++ uartPutDummy := by
  rw [acksFor, List.replicate_succ', List.flatten_append, acksFor]
  simp

theorem awaitDummy_uartPutDummy (input : List UInt8) :
    awaitDummy (uartPutDummy ++ input) = some input := by
  show (if orBytes 0x78 0x56 0x34 0x12 = dummy then _ else _) = _
  exact if_pos (by decide)

/-- `send_string` takes one acknowledgement for each word. -/
theorem sendString_acksFor (ws : List UInt32) (later : List UInt8) :
    sendString ws (acksFor ws.length ++ later) = some (ws.flatMap bytes32, later) := by
  induction ws with
  | nil => rfl
  | cons w ws ih =>
    rw [List.length_cons, acksFor_succ, List.append_assoc, sendString, awaitDummy_uartPutDummy]
    simp only [ih, Option.map_some, List.flatMap_cons]

/-! ### The loop of `get_string` -/

/-- The buffer after consecutive words from word `i` on. -/
def putWords (name : Fin 30 → UInt8) (i : ℕ) : List UInt32 → Fin 30 → UInt8
  | [] => name
  | w :: ws => putWords (putWord name i w) (i + 1) ws

theorem putWords_of_lt {name : Fin 30 → UInt8} {i : ℕ} (ws : List UInt32) {k : Fin 30}
    (h : k.val / 4 < i) : putWords name i ws k = name k := by
  induction ws generalizing name i with
  | nil => rfl
  | cons w ws ih =>
    rw [putWords, ih (by omega), putWord, if_neg (by omega)]

theorem putWords_apply {name : Fin 30 → UInt8} {i : ℕ} {ws : List UInt32} {j : ℕ}
    (hj : j < ws.length) {k : Fin 30} (hk : k.val / 4 = i + j) :
    putWords name i ws k = byte32 (ws.get ⟨j, hj⟩) (k.val % 4) := by
  induction ws generalizing name i j with
  | nil => exact absurd hj (Nat.not_lt_zero j)
  | cons w ws ih =>
    cases j with
    | zero =>
      rw [putWords, putWords_of_lt ws (by omega), putWord, if_pos (by omega)]
      rfl
    | succ j =>
      rw [putWords, ih (Nat.lt_of_succ_lt_succ hj) (by omega)]
      rfl

theorem putWords_concat (name : Fin 30 → UInt8) (i : ℕ) (ws : List UInt32) (w : UInt32) :
    putWords name i (ws ++ [w]) = putWord (putWords name i ws) (i + ws.length) w := by
  induction ws generalizing name i with
  | nil => rfl
  | cons v ws ih =>
    rw [List.cons_append, putWords, ih, List.length_cons, putWords, Nat.add_right_comm,
      Nat.add_assoc]

/-- One round of the loop. -/
theorem getStringFrom_bytes32 (left i : ℕ) (op : UInt32) (name : Fin 30 → UInt8) (w : UInt32)
    (input : List UInt8) : getStringFrom (left + 1) i op name (bytes32 w ++ input) =
      if w = 0xffffffff then some (uartPutDummy, putWord name i w, input)
      else (getStringFrom left (i + 1) w (putWord name i w) input).map
        fun r => (uartPutDummy ++ r.1, r.2) := by
  show getStringFrom (left + 1) i op name
    (byte32 w 0 :: byte32 w 1 :: byte32 w 2 :: byte32 w 3 :: input) = _
  rw [getStringFrom]
  simp only [shiftIn_four, word32_byte32]

/-- The loop passes words that are not all ones, as long as it has rounds for them. -/
theorem getStringFrom_words {ws : List UInt32} (h : ∀ w ∈ ws, w ≠ 0xffffffff) (more i : ℕ)
    (op : UInt32) (name : Fin 30 → UInt8) (input : List UInt8) :
    ∃ op', getStringFrom (ws.length + more) i op name (ws.flatMap bytes32 ++ input) =
      (getStringFrom more (i + ws.length) op' (putWords name i ws) input).map
        fun r => (acksFor ws.length ++ r.1, r.2) := by
  induction ws generalizing i op name with
  | nil => exact ⟨op, by simp [acksFor, putWords]⟩
  | cons w ws ih =>
    obtain ⟨op', hop⟩ := ih (fun v hv => h v (by simp [hv])) (i + 1) w (putWord name i w)
    refine ⟨op', ?_⟩
    rw [List.length_cons, Nat.add_right_comm, List.flatMap_cons, List.append_assoc,
      getStringFrom_bytes32, if_neg (h w (by simp)), hop, Option.map_map, putWords,
      acksFor_succ, Nat.add_right_comm, Nat.add_assoc]
    simp [Function.comp_def]

/-! ### The words of a name -/

section Words

variable {dfsName : List UInt8}

@[simp] theorem sentWords_length : (sentWords dfsName).length = wordsInName dfsName := by
  simp [sentWords]

theorem getD_nameToSend_of_lt {k : ℕ} (h : k < dfsName.length) :
    (nameToSend dfsName).getD k 0 = dfsName.get ⟨k, h⟩ := by
  rw [nameToSend, List.append_assoc, List.getD_append _ _ _ _ h]
  exact List.getD_eq_getElem _ _ h

theorem getD_nameToSend_pad {k : ℕ} (h : dfsName.length ≤ k) (h' : k < dfsName.length + 4) :
    (nameToSend dfsName).getD k 0 = 0xff := by
  have hlt : k - dfsName.length < (List.replicate 4 (0xff : UInt8)).length := by
    rw [List.length_replicate]
    omega
  rw [nameToSend, List.append_assoc, List.getD_append_right _ _ _ _ h,
    List.getD_append _ _ _ _ hlt, List.getD_replicate _ (by simpa using hlt)]

theorem getD_nameToSend_of_le {k : ℕ} (h : dfsName.length + 4 ≤ k) :
    (nameToSend dfsName).getD k 0 = 0 := by
  rw [nameToSend, List.getD_append_right _ _ _ _ (by simpa using h)]
  cases k - (dfsName ++ List.replicate 4 (0xff : UInt8)).length with
  | zero => rfl
  | succ n => rfl

theorem byte32_wordAt (toSend : List UInt8) (i : ℕ) {j : ℕ} (hj : j < 4) :
    byte32 (wordAt toSend i) j = toSend.getD (4 * i + j) 0 := by
  have h := bytes32_word32 (toSend.getD (4 * i) 0) (toSend.getD (4 * i + 1) 0)
    (toSend.getD (4 * i + 2) 0) (toSend.getD (4 * i + 3) 0)
  simp only [bytes32, List.cons.injEq, and_true] at h
  obtain ⟨h0, h1, h2, h3⟩ := h
  have hcases : j = 0 ∨ j = 1 ∨ j = 2 ∨ j = 3 := by omega
  rcases hcases with rfl | rfl | rfl | rfl
  · exact h0
  · exact h1
  · exact h2
  · exact h3

/-- The only word of all ones is the padding, and only when the name ends at a word. -/
theorem wordAt_eq_ones (hname : ∀ b ∈ dfsName, ¬ IsEnd b) {i : ℕ} :
    wordAt (nameToSend dfsName) i = 0xffffffff ↔ 4 * i = dfsName.length := by
  have hones : (0xffffffff : UInt32) = word32 0xff 0xff 0xff 0xff := by decide
  constructor
  · intro h
    have hbyte : ∀ j < 4, (nameToSend dfsName).getD (4 * i + j) 0 = 0xff := by
      intro j hj
      rw [← byte32_wordAt _ i hj, h]
      match j, hj with
      | 0, _ | 1, _ | 2, _ | 3, _ => decide
    -- the first byte lies behind the name, the last one before the terminator
    have hlow : dfsName.length ≤ 4 * i := by
      by_contra hlt
      have hfirst := hbyte 0 (by omega)
      rw [Nat.add_zero, getD_nameToSend_of_lt (by omega)] at hfirst
      exact hname _ (List.get_mem _ _) (Or.inr hfirst)
    have hhigh : 4 * i + 3 < dfsName.length + 4 := by
      by_contra hle
      have hlast := hbyte 3 (by omega)
      rw [getD_nameToSend_of_le (by omega)] at hlast
      exact absurd hlast (by decide)
    omega
  · intro h
    rw [wordAt, getD_nameToSend_pad (by omega) (by omega),
      getD_nameToSend_pad (by omega) (by omega), getD_nameToSend_pad (by omega) (by omega),
      getD_nameToSend_pad (by omega) (by omega), hones]

/-- The first words of a name, as many as there are before one of all ones. -/
theorem sentWords_split {n : ℕ} (h : n ≤ wordsInName dfsName) :
    sentWords dfsName = (List.range n).map (wordAt (nameToSend dfsName)) ++
      (List.range' n (wordsInName dfsName - n)).map (wordAt (nameToSend dfsName)) := by
  rw [sentWords, ← List.map_append, List.range_eq_range', List.range_eq_range']
  congr 1
  have hsum : List.range' 0 n ++ List.range' (0 + n) (wordsInName dfsName - n) =
      List.range' 0 (n + (wordsInName dfsName - n)) := List.range'_append_1
  rw [Nat.zero_add, Nat.add_sub_cancel' h] at hsum
  exact hsum.symm

theorem ne_ones_of_mem (hname : ∀ b ∈ dfsName, ¬ IsEnd b) {n : ℕ}
    (hn : ∀ i < n, 4 * i ≠ dfsName.length) :
    ∀ w ∈ (List.range n).map (wordAt (nameToSend dfsName)), w ≠ 0xffffffff := by
  intro w hw
  obtain ⟨i, hi, rfl⟩ := List.mem_map.mp hw
  exact fun he => hn i (List.mem_range.mp hi) ((wordAt_eq_ones hname).mp he)

/-- A buffer that holds all the words of a short name holds the name. -/
theorem nameIn_putWords (hname : ∀ b ∈ dfsName, ¬ IsEnd b) (hlen : dfsName.length < 30)
    (hwords : dfsName.length < 4 * wordsInName dfsName) (buf : Fin 30 → UInt8) :
    nameIn (putWords buf 0 (sentWords dfsName)) = dfsName := by
  have hget : ∀ k : Fin 30, k.val ≤ dfsName.length →
      putWords buf 0 (sentWords dfsName) k = (nameToSend dfsName).getD k.val 0 := by
    intro k hk
    have hj : k.val / 4 < (sentWords dfsName).length := by
      rw [sentWords_length]
      omega
    rw [putWords_apply hj (by omega)]
    have hword : (sentWords dfsName).get ⟨k.val / 4, hj⟩ =
        wordAt (nameToSend dfsName) (k.val / 4) := by
      simp [sentWords]
    rw [hword, byte32_wordAt _ _ (Nat.mod_lt _ (by decide)), Nat.div_add_mod]
  have htake : (List.ofFn (putWords buf 0 (sentWords dfsName))).take dfsName.length =
      dfsName := by
    apply List.ext_getElem
    · rw [List.length_take, List.length_ofFn, Nat.min_eq_left hlen.le]
    · intro k hk hk'
      rw [List.getElem_take, List.getElem_ofFn, hget _ hk'.le, getD_nameToSend_of_lt hk']
      rfl
  have hdrop : (List.ofFn (putWords buf 0 (sentWords dfsName))).drop dfsName.length =
      0xff :: (List.ofFn (putWords buf 0 (sentWords dfsName))).drop (dfsName.length + 1) := by
    have hlt : dfsName.length <
        (List.ofFn (putWords buf 0 (sentWords dfsName))).length := by
      rwa [List.length_ofFn]
    rw [List.drop_eq_getElem_cons hlt, List.getElem_ofFn, hget _ le_rfl,
      getD_nameToSend_pad le_rfl (by omega)]
  rw [nameIn, ← List.take_append_drop dfsName.length (List.ofFn _), htake, hdrop,
    List.takeWhile_append_of_pos (by simpa using hname)]
  simp [IsEnd]

/-! ### The two sides together -/

/-- The lengths at which the framing works: the all-ones word is aligned and among the words
that `get_string` reads, or there are exactly as many words as it reads at most. -/
def FramedLength (n : ℕ) : Prop := n % 4 = 0 ∧ n ≤ 24 ∨ 23 ≤ n ∧ n ≤ 26

instance (n : ℕ) : Decidable (FramedLength n) := inferInstanceAs (Decidable (_ ∨ _))

/-- The words of a name that ends at a word: its own, and one of all ones. -/
theorem sentWords_of_aligned (hname : ∀ b ∈ dfsName, ¬ IsEnd b) (h : dfsName.length % 4 = 0) :
    sentWords dfsName =
      (List.range (dfsName.length / 4)).map (wordAt (nameToSend dfsName)) ++ [0xffffffff] := by
  have hcount : wordsInName dfsName = dfsName.length / 4 + 1 := by
    rw [wordsInName]
    omega
  have hn : dfsName.length / 4 ≤ wordsInName dfsName := by omega
  have hlast := (wordAt_eq_ones hname).mpr (Nat.mul_div_cancel' (Nat.dvd_of_mod_eq_zero h))
  rw [sentWords_split hn, hcount, Nat.add_sub_cancel_left]
  simp [hlast]

/-- On the words of a framed name `get_string` returns behind the last one. -/
theorem getString_sentWords (hname : ∀ b ∈ dfsName, ¬ IsEnd b)
    (h : FramedLength dfsName.length) (buf : Fin 30 → UInt8) (next : List UInt8) :
    getString buf ((sentWords dfsName).flatMap bytes32 ++ next) =
      some (acksFor (wordsInName dfsName), putWords buf 0 (sentWords dfsName), next) := by
  by_cases haligned : dfsName.length % 4 = 0
  · -- the loop breaks at the padding
    have hle : dfsName.length / 4 ≤ 6 := by
      rcases h with ⟨-, h⟩ | ⟨-, h⟩ <;> omega
    have hcount : wordsInName dfsName = dfsName.length / 4 + 1 := by
      rw [wordsInName]
      omega
    have hpre := ne_ones_of_mem hname (n := dfsName.length / 4) (fun i hi => by omega)
    rw [sentWords_of_aligned hname haligned, hcount, List.flatMap_append, List.append_assoc,
      putWords_concat]
    generalize hws : (List.range (dfsName.length / 4)).map (wordAt (nameToSend dfsName)) = ws
      at hpre
    have hlen : ws.length = dfsName.length / 4 := by simp [← hws]
    rw [← hlen] at hle ⊢
    obtain ⟨op, hrun⟩ := getStringFrom_words hpre (6 - ws.length + 1) 0 0 buf
      (bytes32 0xffffffff ++ next)
    have hrounds : maxDfsNameLen / 4 = ws.length + (6 - ws.length + 1) := by
      rw [maxDfsNameLen]
      omega
    rw [getStringFrom_bytes32, if_pos rfl] at hrun
    simpa [getString, hrounds, acksFor_concat] using hrun
  · -- the loop runs out of rounds
    have hcount : wordsInName dfsName = 7 := by
      rw [wordsInName]
      rcases h with ⟨h, -⟩ | ⟨h, h'⟩ <;> omega
    have hpre := ne_ones_of_mem hname (n := wordsInName dfsName) (fun i _ => by omega)
    obtain ⟨op, hrun⟩ := getStringFrom_words hpre 0 0 0 buf next
    rw [show (List.range (wordsInName dfsName)).map (wordAt (nameToSend dfsName)) =
      sentWords dfsName from rfl, sentWords_length] at hrun
    simpa [getString, maxDfsNameLen, hcount, getStringFrom] using hrun

/-- Without an all-ones word among the first `n`, the loop is in round `n` after them. -/
theorem getString_of_no_ones (hname : ∀ b ∈ dfsName, ¬ IsEnd b) {n : ℕ}
    (hn : n ≤ wordsInName dfsName) (hrounds : n ≤ 7) (hones : ∀ i < n, 4 * i ≠ dfsName.length)
    (buf : Fin 30 → UInt8) (next : List UInt8) :
    ∃ op buf', getString buf ((sentWords dfsName).flatMap bytes32 ++ next) =
      (getStringFrom (7 - n) n op buf' (((List.range' n (wordsInName dfsName - n)).map
        (wordAt (nameToSend dfsName))).flatMap bytes32 ++ next)).map
          fun r => (acksFor n ++ r.1, r.2) := by
  obtain ⟨op, hrun⟩ := getStringFrom_words (ne_ones_of_mem hname hones) (7 - n) 0 0 buf
    (((List.range' n (wordsInName dfsName - n)).map
      (wordAt (nameToSend dfsName))).flatMap bytes32 ++ next)
  rw [List.length_map, List.length_range, Nat.add_sub_cancel' hrounds, Nat.zero_add] at hrun
  refine ⟨op, putWords buf 0 ((List.range n).map (wordAt (nameToSend dfsName))), ?_⟩
  rw [sentWords_split hn, List.flatMap_append, List.append_assoc]
  exact hrun

/-- The framing of a name works exactly for the lengths named in `FramedLength`. -/
theorem framingAgrees_iff (hpos : 1 ≤ dfsName.length) (hlen : dfsName.length ≤ 29)
    (hname : ∀ b ∈ dfsName, ¬ IsEnd b) :
    FramingAgrees dfsName ↔ FramedLength dfsName.length := by
  constructor
  · intro hagrees
    obtain ⟨acks, buf', hget, hacks, -, -⟩ := hagrees (fun _ => 0) []
    by_contra hnot
    rw [FramedLength, not_or, not_and, not_and] at hnot
    obtain ⟨hnot, hnot'⟩ := hnot
    rw [sentWords_length] at hacks
    by_cases hshort : dfsName.length ≤ 22
    · -- all words are taken, and the loop goes on
      have hcount : wordsInName dfsName < 7 := by
        rw [wordsInName]
        omega
      obtain ⟨op, buf'', hrun⟩ := getString_of_no_ones hname le_rfl hcount.le
        (fun i _ => by omega) (fun _ => 0) []
      have hleft : 7 - wordsInName dfsName = 6 - wordsInName dfsName + 1 := by omega
      rw [hget, Nat.sub_self, hleft] at hrun
      simp [getStringFrom] at hrun
    · -- the loop stops before the last word
      have hcount : wordsInName dfsName = 8 := by
        rw [wordsInName]
        omega
      obtain ⟨op, buf'', hrun⟩ := getString_of_no_ones hname (n := 7) (by omega) le_rfl
        (fun i _ => by omega) (fun _ => 0) []
      rw [hget, Nat.sub_self, getStringFrom] at hrun
      simp only [Option.map_some, List.append_nil, Option.some.injEq, Prod.mk.injEq] at hrun
      rw [hrun.1, acksFor_length, hcount] at hacks
      omega
  · intro hframed buf next
    refine ⟨_, _, getString_sentWords hname hframed buf next, ?_, fun later => ?_, ?_⟩
    · rw [acksFor_length, sentWords_length]
    · rw [← sentWords_length]
      exact sendString_acksFor _ later
    · refine nameIn_putWords hname (by omega) ?_ buf
      rw [wordsInName]
      rcases hframed with ⟨h, h'⟩ | ⟨h, h'⟩ <;> omega

theorem framingAgrees_iff_part : FramingAgrees [0x70, 0x61, 0x72, 0x74] ↔ FramedLength 4 :=
  framingAgrees_iff (by decide) (by decide) (List.all_iff_forall_prop.mp (by decide))

/-- After the only word of a name of one byte the pi waits for more. -/
theorem shortName_notFramed : ¬ FramingAgrees [0x61] := by
  intro hagrees
  obtain ⟨acks, buf, hget, -⟩ := hagrees (fun _ => 0) []
  have hnone : (getString (fun _ => 0) ((sentWords [0x61]).flatMap bytes32 ++ [])).isNone := by
    decide
  rw [hget] at hnone
  exact Bool.false_ne_true hnone

end Words

end NaiveGfs
