import NaiveGfs.Channels.TwoParty
import NaiveGfs.Mac.BootDrain
import NaiveGfs.Mac.Crc32

/-!
# Sending the program to a pi

`boot` waits for a request, announces the program with its size and checksum, sends it when
the pi asks for the code, and waits for the pi to confirm. Every read of a byte, every write
and every exit of a loop is a step. Once the request is seen the words are read aligned, so
what makes `boot` return is a language of byte strings: a request, more of them, the question
for the code, and at some point the confirmation (`boot_returns_iff`).
-/

namespace NaiveGfs

open LittleEndian TwoParty

variable {program : List UInt8}

/-- `PUT_PROG_INFO`. -/
def putProgInfo : UInt32 := 0x33334444

/-- `ARMBASE`. -/
def armbase : UInt32 := 0x8000

/-- `GET_CODE`. -/
def getCode : UInt32 := 0x55556666

/-- `PUT_CODE`. -/
def putCode : UInt32 := 0x77778888

/-- `BOOT_SUCCESS`. -/
def bootSuccess : UInt32 := 0x9999AAAA

/-- Where `boot` is. -/
inductive BootPc
  | firstWord
  | drain
  | stringLength
  | stringBytes (left : ℕ)
  | putProgInfo
  | putArmbase
  | putNbytes
  | putCrc
  | drainExtra
  | putCode
  | sendCode (i : ℕ)
  | waitSuccess
  | panicked
  | returned
deriving DecidableEq

/-- The variables of `boot`: `got` are the bytes that the current `get32` has read, `string` is
what has been printed of the current string and `printed` are the strings before it, and `i`
counts the words read in the last loop. -/
structure Boot where
  pc : BootPc
  got : List UInt8
  op : UInt32
  string : List UInt8
  printed : List (List UInt8)
  i : UInt32
  isOpen : Bool
deriving DecidableEq

/-- `get32`, and what is done with the word. -/
def bootGet32 (b : Boot) (next : UInt32 → Boot → Boot) : Act Boot UInt8 UInt8 :=
  .recv fun x =>
    match b.got with
    | [b0, b1, b2] => next (orBytes b0 b1 b2 x) { b with got := [] }
    | got => { b with got := got ++ [x] }

/-- `put32`. -/
def bootPut32 (b : Boot) (w : UInt32) (pc : BootPc) : Act Boot UInt8 UInt8 :=
  .send (bytes32 w) { b with pc := pc }

/-- Behind a word in the loop that drains the requests that are left. -/
def afterExtra (op : UInt32) (b : Boot) : Boot :=
  if op = getProgInfo then { b with op := op }
  else if op ≠ getCode then { b with op := op, pc := .panicked }
  else { b with op := op, pc := .putCode }

/-- Behind a word in the loop that waits for `BOOT_SUCCESS`. The bound is an `int` that has
overflowed when it is compared with `i`. -/
def afterSuccess (op : UInt32) (b : Boot) : Boot :=
  if op = bootSuccess then { b with op := op, pc := .returned, isOpen := true }
  else if 0xffff0000 < b.i then { b with op := op, pc := .panicked }
  else { b with op := op, i := b.i + 1 }

/-- `boot`. -/
def bootAct (program : List UInt8) (b : Boot) : Act Boot UInt8 UInt8 :=
  match b.pc with
  | .firstWord => bootGet32 b fun op b => { b with op := op, pc := .drain }
  | .drain =>
    if b.op = getProgInfo then .tau { b with pc := .putProgInfo }
    else .recv fun x =>
      let op := shiftIn b.op x
      if op = printString then { b with op := op, pc := .stringLength } else { b with op := op }
  | .stringLength =>
    bootGet32 b fun len b => { b with pc := .stringBytes len.toNat, string := [] }
  | .stringBytes 0 => .tau { b with pc := .drain, printed := b.printed ++ [b.string] }
  | .stringBytes (left + 1) =>
    .recv fun x => { b with pc := .stringBytes left, string := b.string ++ [x] }
  | .putProgInfo => bootPut32 b NaiveGfs.putProgInfo .putArmbase
  | .putArmbase => bootPut32 b armbase .putNbytes
  | .putNbytes => bootPut32 b (UInt32.ofNat program.length) .putCrc
  | .putCrc => bootPut32 b (crc32 program) .drainExtra
  | .drainExtra => bootGet32 b afterExtra
  | .putCode => bootPut32 b NaiveGfs.putCode (.sendCode 0)
  | .sendCode i =>
    match program[i]? with
    | some x => .send [x] { b with pc := .sendCode (i + 1) }
    | none => .tau { b with pc := .waitSuccess, i := 0 }
  | .waitSuccess => bootGet32 b afterSuccess
  | .panicked => .halt
  | .returned => .halt

/-- `boot` before its first statement; `isOpen` is what the allocated memory holds. -/
def Boot.start (isOpen : Bool) : Boot := ⟨.firstWord, [], 0, [], [], 0, isOpen⟩

/-! ## What is sent -/

/-- The announcement of a program. -/
def bootHeader (program : List UInt8) : List UInt8 :=
  bytes32 putProgInfo ++ bytes32 armbase ++ bytes32 (UInt32.ofNat program.length) ++
    bytes32 (crc32 program)

/-- Everything that `boot` sends. -/
def bootTranscript (program : List UInt8) : List UInt8 :=
  bootHeader program ++ bytes32 putCode ++ program

/-! ## What is read -/

/-- The bytes of some words. -/
def wordBytes (ws : List UInt32) : List UInt8 := ws.flatMap bytes32

/-- Some strings and the request, as the loop that drains them reads them. -/
def Requested (pre : List UInt8) (printed : List (List UInt8)) : Prop :=
  ∃ fuel, bootDrain fuel pre = some (printed, [])

/-- The request and any number of further ones. -/
def Repeated (pre : List UInt8) (printed : List (List UInt8)) : Prop :=
  ∃ request extra, Requested request printed ∧
    pre = request ++ wordBytes (List.replicate extra getProgInfo)

/-- The requests and the question for the code. -/
def Asked (pre : List UInt8) (printed : List (List UInt8)) : Prop :=
  ∃ requests, Repeated requests printed ∧ pre = requests ++ bytes32 getCode

/-- Everything up to some words that are not the confirmation. -/
def Awaits (pre : List UInt8) (printed : List (List UInt8)) (n : ℕ) : Prop :=
  ∃ asked ws, Asked asked printed ∧ (∀ w ∈ ws, w ≠ bootSuccess) ∧ ws.length = n ∧
    n ≤ 0xffff0001 ∧ pre = asked ++ wordBytes ws

/-- Everything up to the confirmation. -/
def Accepted (pre : List UInt8) (printed : List (List UInt8)) : Prop :=
  ∃ waited n, Awaits waited printed n ∧ pre = waited ++ bytes32 bootSuccess

/-- Everything up to a word behind the requests that is not the question for the code. -/
def Unasked (pre : List UInt8) (printed : List (List UInt8)) : Prop :=
  ∃ requests w, Repeated requests printed ∧ w ≠ getProgInfo ∧ w ≠ getCode ∧
    pre = requests ++ bytes32 w

/-- Everything up to the word at which `boot` stops waiting for the confirmation. -/
def Unconfirmed (pre : List UInt8) (printed : List (List UInt8)) : Prop :=
  ∃ waited w, Awaits waited printed 0xffff0001 ∧ w ≠ bootSuccess ∧ pre = waited ++ bytes32 w

/-! ## One step -/

/-- What the drain loop makes of the bytes to come, from any place in it. -/
def resume (fuel : ℕ) (b : Boot) (input : List UInt8) :
    Option (List (List UInt8) × List UInt8) :=
  match b.pc with
  | .firstWord => bootDrain fuel (b.got ++ input)
  | .drain => drain fuel b.op input
  | .stringLength =>
    match b.got ++ input with
    | b0 :: b1 :: b2 :: b3 :: input =>
      let len := (orBytes b0 b1 b2 b3).toNat
      if input.length < len then none
      else (drain fuel b.op (input.drop len)).map fun (printed, rest) =>
        (input.take len :: printed, rest)
    | _ => none
  | .stringBytes left =>
    if input.length < left then none
    else (drain fuel b.op (input.drop left)).map fun (printed, rest) =>
      ((b.string ++ input.take left) :: printed, rest)
  | _ => none

/-- The bytes `pre` have brought the drain loop to this place. -/
def Draining (pre : List UInt8) (b : Boot) : Prop :=
  ∀ fuel input printed rest, resume fuel b input = some (printed, rest) →
    ∃ fuel', bootDrain fuel' (pre ++ input) = some (b.printed ++ printed, rest)

/-- What has been read and sent when `boot` is at a place. -/
def BootInv (program pre out : List UInt8) (b : Boot) : Prop :=
  match b.pc with
  | .firstWord => out = [] ∧ b.got.length < 4 ∧ Draining pre b
  | .drain => out = [] ∧ b.got = [] ∧ Draining pre b
  | .stringLength => out = [] ∧ b.got.length < 4 ∧ Draining pre b
  | .stringBytes _ => out = [] ∧ b.got = [] ∧ Draining pre b
  | .putProgInfo => out = [] ∧ b.got = [] ∧ Requested pre b.printed
  | .putArmbase => out = bytes32 putProgInfo ∧ b.got = [] ∧ Requested pre b.printed
  | .putNbytes =>
    out = bytes32 putProgInfo ++ bytes32 armbase ∧ b.got = [] ∧ Requested pre b.printed
  | .putCrc => out = bytes32 putProgInfo ++ bytes32 armbase ++
      bytes32 (UInt32.ofNat program.length) ∧ b.got = [] ∧ Requested pre b.printed
  | .drainExtra => out = bootHeader program ∧ b.got.length < 4 ∧
      ∃ requests, Repeated requests b.printed ∧ pre = requests ++ b.got
  | .putCode => out = bootHeader program ∧ b.got = [] ∧ Asked pre b.printed
  | .sendCode i => out = bootHeader program ++ bytes32 putCode ++ program.take i ∧
      i ≤ program.length ∧ b.got = [] ∧ Asked pre b.printed
  | .waitSuccess => out = bootTranscript program ∧ b.got.length < 4 ∧
      ∃ waited, Awaits waited b.printed b.i.toNat ∧ pre = waited ++ b.got
  | .panicked => out = bootHeader program ∧ Unasked pre b.printed ∨
      out = bootTranscript program ∧ Unconfirmed pre b.printed
  | .returned => out = bootTranscript program ∧ Accepted pre b.printed ∧ b.isOpen = true

variable {pre out got sent : List UInt8} {b b' : Boot}

/-- A byte read by `get32` is one more byte of the word, or its last. -/
theorem does_bootGet32 {next : UInt32 → Boot → Boot} (hlen : b.got.length < 4)
    (h : (bootGet32 b next).Does got sent b') : ∃ x, got = [x] ∧ sent = [] ∧
      (b' = { b with got := b.got ++ [x] } ∧ (b.got ++ [x]).length < 4 ∨
        ∃ w, b.got ++ [x] = bytes32 w ∧ b' = next w { b with got := [] }) := by
  obtain ⟨pc, word, op, string, printed, i, isOpen⟩ := b
  rw [bootGet32] at h
  cases h with
  | recv _ x =>
    refine ⟨x, rfl, rfl, ?_⟩
    match word, hlen with
    | [], _ => exact Or.inl ⟨rfl, by simp⟩
    | [_], _ => exact Or.inl ⟨rfl, by simp⟩
    | [_, _], _ => exact Or.inl ⟨rfl, by simp⟩
    | [b0, b1, b2], _ =>
      refine Or.inr ⟨orBytes b0 b1 b2 x, ?_, rfl⟩
      rw [orBytes_eq_word32, bytes32_word32]
      rfl

theorem does_bootPut32 {w : UInt32} {pc : BootPc} (h : (bootPut32 b w pc).Does got sent b') :
    got = [] ∧ sent = bytes32 w ∧ b' = { b with pc := pc } := by
  cases h
  exact ⟨rfl, rfl, rfl⟩

/-- A place in the drain loop is left for another one that makes the same of what comes. -/
theorem Draining.step (h : Draining pre b)
    (hnext : ∀ fuel input printed rest, resume fuel b' input = some (printed, rest) →
      ∃ fuel' printed', resume fuel' b (got ++ input) = some (printed', rest) ∧
        b.printed ++ printed' = b'.printed ++ printed) : Draining (pre ++ got) b' := by
  intro fuel input printed rest hresume
  obtain ⟨fuel', printed', hresume', heq⟩ := hnext fuel input printed rest hresume
  obtain ⟨fuel'', hdrain⟩ := h fuel' (got ++ input) printed' rest hresume'
  exact ⟨fuel'', by rw [List.append_assoc, hdrain, heq]⟩

/-- The drain loop is left behind the request. -/
theorem Draining.requested (h : Draining pre b) (hpc : b.pc = .drain) (hop : b.op = getProgInfo) :
    Requested pre b.printed := by
  have hresume : resume 1 b [] = some ([], []) := by
    simp only [resume, hpc, drain, if_pos hop]
  obtain ⟨fuel, hdrain⟩ := h 1 [] [] [] hresume
  rw [List.append_nil, List.append_nil] at hdrain
  exact ⟨fuel, hdrain⟩

theorem wordBytes_append (ws vs : List UInt32) :
    wordBytes (ws ++ vs) = wordBytes ws ++ wordBytes vs :=
  List.flatMap_append

theorem wordBytes_singleton (w : UInt32) : wordBytes [w] = bytes32 w := by
  simp [wordBytes]

/-- One more request. -/
theorem Repeated.concat {printed : List (List UInt8)} (h : Repeated pre printed) :
    Repeated (pre ++ bytes32 getProgInfo) printed := by
  obtain ⟨request, extra, hrequest, rfl⟩ := h
  refine ⟨request, extra + 1, hrequest, ?_⟩
  rw [List.replicate_succ', wordBytes_append, wordBytes_singleton, List.append_assoc]

/-- One more word that is not the confirmation. -/
theorem Awaits.concat {printed : List (List UInt8)} {n : ℕ} (h : Awaits pre printed n)
    {w : UInt32} (hw : w ≠ bootSuccess) (hn : n ≤ 0xffff0000) :
    Awaits (pre ++ bytes32 w) printed (n + 1) := by
  obtain ⟨asked, ws, hasked, hws, hlen, -, rfl⟩ := h
  refine ⟨asked, ws ++ [w], hasked, ?_, by simp [hlen], by omega, ?_⟩
  · intro v hv
    rcases List.mem_append.mp hv with hv | hv
    · exact hws v hv
    · rw [List.mem_singleton.mp hv]
      exact hw
  · rw [wordBytes_append, wordBytes_singleton, List.append_assoc]

/-- A step inside the drain loop. -/
theorem BootInv.step_drain (h : BootInv program pre out b)
    (hpc : b.pc = .firstWord ∨ b.pc = .drain ∨ b.pc = .stringLength ∨
      ∃ left, b.pc = .stringBytes left)
    (hdoes : (bootAct program b).Does got sent b') :
    BootInv program (pre ++ got) (out ++ sent) b' := by
  obtain ⟨pc, word, op, string, printed, i, isOpen⟩ := b
  simp only at hpc
  rcases hpc with rfl | rfl | rfl | ⟨left, rfl⟩
  · obtain ⟨rfl, hlen, hdraining⟩ := h
    simp only [bootAct] at hdoes
    obtain ⟨x, rfl, rfl, ⟨rfl, hlt⟩ | ⟨w, hw, rfl⟩⟩ := does_bootGet32 hlen hdoes
    · refine ⟨rfl, hlt, hdraining.step ?_⟩
      intro fuel input printed' rest hresume
      exact ⟨fuel, printed', by simpa [resume] using hresume, rfl⟩
    · refine ⟨rfl, rfl, hdraining.step ?_⟩
      intro fuel input printed' rest hresume
      refine ⟨fuel, printed', ?_, rfl⟩
      have hword : word ++ ([x] ++ input) = bytes32 w ++ input := by
        rw [← List.append_assoc]
        exact congrArg (· ++ input) hw
      simp only [resume] at hresume ⊢
      rw [hword]
      simp only [bytes32, List.cons_append, List.nil_append, bootDrain, orBytes_eq_word32,
        word32_byte32]
      exact hresume
  · obtain ⟨rfl, hgot, hdraining⟩ := h
    simp only at hgot
    subst hgot
    by_cases hop : op = getProgInfo
    · simp only [bootAct, if_pos hop] at hdoes
      cases hdoes
      exact ⟨rfl, rfl, by simpa using hdraining.requested rfl hop⟩
    · simp only [bootAct, if_neg hop] at hdoes
      cases hdoes with
      | recv _ x =>
        by_cases hprint : shiftIn op x = printString
        · simp only [if_pos hprint]
          refine ⟨rfl, by simp, hdraining.step ?_⟩
          intro fuel input printed' rest hresume
          refine ⟨fuel + 1, printed', ?_, rfl⟩
          simp only [resume, List.nil_append, List.singleton_append, drain, if_neg hop,
            if_pos hprint] at hresume ⊢
          exact hresume
        · simp only [if_neg hprint]
          refine ⟨rfl, rfl, hdraining.step ?_⟩
          intro fuel input printed' rest hresume
          refine ⟨fuel + 1, printed', ?_, rfl⟩
          simp only [resume, List.singleton_append, drain, if_neg hop, if_neg hprint] at hresume ⊢
          exact hresume
  · obtain ⟨rfl, hlen, hdraining⟩ := h
    simp only [bootAct] at hdoes
    obtain ⟨x, rfl, rfl, ⟨rfl, hlt⟩ | ⟨w, hw, rfl⟩⟩ := does_bootGet32 hlen hdoes
    · refine ⟨rfl, hlt, hdraining.step ?_⟩
      intro fuel input printed' rest hresume
      exact ⟨fuel, printed', by simpa [resume] using hresume, rfl⟩
    · refine ⟨rfl, rfl, hdraining.step ?_⟩
      intro fuel input printed' rest hresume
      refine ⟨fuel, printed', ?_, rfl⟩
      have hword : word ++ ([x] ++ input) = bytes32 w ++ input := by
        rw [← List.append_assoc]
        exact congrArg (· ++ input) hw
      simp only [resume] at hresume ⊢
      rw [hword]
      simp only [bytes32, List.cons_append, List.nil_append, orBytes_eq_word32, word32_byte32]
      exact hresume
  · obtain ⟨rfl, hgot, hdraining⟩ := h
    cases left with
    | zero =>
      simp only [bootAct] at hdoes
      cases hdoes
      refine ⟨rfl, hgot, hdraining.step ?_⟩
      intro fuel input printed' rest hresume
      refine ⟨fuel, string :: printed', ?_, by simp⟩
      simp only [resume] at hresume ⊢
      simp [hresume]
    | succ left =>
      simp only [bootAct] at hdoes
      cases hdoes with
      | recv _ x =>
        refine ⟨rfl, hgot, hdraining.step ?_⟩
        intro fuel input printed' rest hresume
        refine ⟨fuel, printed', ?_, rfl⟩
        simpa [resume] using hresume

/-- A step that announces the program or sends it. -/
theorem BootInv.step_send (h : BootInv program pre out b)
    (hpc : b.pc = .putProgInfo ∨ b.pc = .putArmbase ∨ b.pc = .putNbytes ∨ b.pc = .putCrc ∨
      b.pc = .putCode ∨ ∃ i, b.pc = .sendCode i)
    (hdoes : (bootAct program b).Does got sent b') :
    BootInv program (pre ++ got) (out ++ sent) b' := by
  obtain ⟨pc, word, op, string, printed, i, isOpen⟩ := b
  simp only at hpc
  rcases hpc with rfl | rfl | rfl | rfl | rfl | ⟨n, rfl⟩
  · obtain ⟨rfl, hgot, hrequested⟩ := h
    obtain ⟨rfl, rfl, rfl⟩ := does_bootPut32 hdoes
    exact ⟨rfl, hgot, by simpa using hrequested⟩
  · obtain ⟨rfl, hgot, hrequested⟩ := h
    obtain ⟨rfl, rfl, rfl⟩ := does_bootPut32 hdoes
    exact ⟨rfl, hgot, by simpa using hrequested⟩
  · obtain ⟨rfl, hgot, hrequested⟩ := h
    obtain ⟨rfl, rfl, rfl⟩ := does_bootPut32 hdoes
    exact ⟨rfl, hgot, by simpa using hrequested⟩
  · obtain ⟨rfl, hgot, hrequested⟩ := h
    obtain ⟨rfl, rfl, rfl⟩ := does_bootPut32 hdoes
    simp only at hgot
    subst hgot
    exact ⟨rfl, by simp, pre, ⟨pre, 0, hrequested, by simp [wordBytes]⟩, rfl⟩
  · obtain ⟨rfl, hgot, hasked⟩ := h
    obtain ⟨rfl, rfl, rfl⟩ := does_bootPut32 hdoes
    exact ⟨by simp, Nat.zero_le _, hgot, by simpa using hasked⟩
  · obtain ⟨rfl, hle, hgot, hasked⟩ := h
    simp only at hgot hasked
    subst hgot
    by_cases hn : n < program.length
    · simp only [bootAct, List.getElem?_eq_getElem hn] at hdoes
      cases hdoes
      refine ⟨?_, hn, rfl, by simpa using hasked⟩
      rw [List.append_assoc, List.take_concat_get']
    · simp only [bootAct, List.getElem?_eq_none (Nat.not_lt.mp hn)] at hdoes
      cases hdoes
      have hnone : Awaits pre printed 0 :=
        ⟨pre, [], hasked, by simp, rfl, Nat.zero_le _, by simp [wordBytes]⟩
      refine ⟨?_, by simp, pre, hnone, by simp⟩
      rw [List.take_of_length_le (Nat.not_lt.mp hn), List.append_nil]
      rfl

/-- A step that waits for a word of the pi behind the request. -/
theorem BootInv.step_word (h : BootInv program pre out b)
    (hpc : b.pc = .drainExtra ∨ b.pc = .waitSuccess)
    (hdoes : (bootAct program b).Does got sent b') :
    BootInv program (pre ++ got) (out ++ sent) b' := by
  obtain ⟨pc, word, op, string, printed, i, isOpen⟩ := b
  simp only at hpc
  rcases hpc with rfl | rfl
  · obtain ⟨rfl, hlen, requests, hrequests, rfl⟩ := h
    simp only [bootAct] at hdoes
    obtain ⟨x, rfl, rfl, ⟨rfl, hlt⟩ | ⟨w, hw, rfl⟩⟩ := does_bootGet32 hlen hdoes
    · exact ⟨by simp, hlt, requests, hrequests, by simp⟩
    · rw [List.append_assoc, hw, List.append_nil, afterExtra]
      by_cases hget : w = getProgInfo
      · rw [if_pos hget]
        exact ⟨rfl, by simp, _, hget ▸ hrequests.concat, by simp⟩
      by_cases hcode : w = getCode
      · rw [if_neg hget, if_neg (by simpa using hcode)]
        exact ⟨rfl, rfl, requests, hrequests, by rw [hcode]⟩
      · rw [if_neg hget, if_pos hcode]
        exact Or.inl ⟨rfl, requests, w, hrequests, hget, hcode, rfl⟩
  · obtain ⟨rfl, hlen, waited, hwaited, rfl⟩ := h
    simp only [bootAct] at hdoes
    obtain ⟨x, rfl, rfl, ⟨rfl, hlt⟩ | ⟨w, hw, rfl⟩⟩ := does_bootGet32 hlen hdoes
    · exact ⟨by simp, hlt, waited, hwaited, by simp⟩
    · rw [List.append_assoc, hw, List.append_nil, afterSuccess]
      by_cases hsuccess : w = bootSuccess
      · rw [if_pos hsuccess]
        exact ⟨rfl, ⟨waited, _, hwaited, by rw [hsuccess]⟩, rfl⟩
      rw [if_neg hsuccess]
      simp only at hwaited
      have hbound : (0xffff0000 : UInt32).toNat = 0xffff0000 := rfl
      by_cases hlong : 0xffff0000 < i
      · rw [if_pos hlong]
        have hmore := UInt32.lt_iff_toNat_lt.mp hlong
        obtain ⟨_, _, _, _, _, hle, _⟩ := id hwaited
        have hfull : i.toNat = 0xffff0001 := by omega
        exact Or.inr ⟨rfl, waited, w, hfull ▸ hwaited, hsuccess, rfl⟩
      · rw [if_neg hlong]
        have hless := UInt32.lt_iff_toNat_lt.not.mp hlong
        have hnext : (i + 1).toNat = i.toNat + 1 := by
          rw [UInt32.toNat_add]
          exact Nat.mod_eq_of_lt (by show i.toNat + 1 < 2 ^ 32; omega)
        refine ⟨rfl, by simp, _, ?_, (List.append_nil _).symm⟩
        rw [hnext]
        exact hwaited.concat hsuccess (by omega)

/-- What one step preserves. -/
theorem BootInv.step (h : BootInv program pre out b)
    (hdoes : (bootAct program b).Does got sent b') :
    BootInv program (pre ++ got) (out ++ sent) b' := by
  cases hpc : b.pc with
  | firstWord => exact h.step_drain (Or.inl hpc) hdoes
  | drain => exact h.step_drain (Or.inr (Or.inl hpc)) hdoes
  | stringLength => exact h.step_drain (Or.inr (Or.inr (Or.inl hpc))) hdoes
  | stringBytes left => exact h.step_drain (Or.inr (Or.inr (Or.inr ⟨left, hpc⟩))) hdoes
  | putProgInfo => exact h.step_send (Or.inl hpc) hdoes
  | putArmbase => exact h.step_send (Or.inr (Or.inl hpc)) hdoes
  | putNbytes => exact h.step_send (Or.inr (Or.inr (Or.inl hpc))) hdoes
  | putCrc => exact h.step_send (Or.inr (Or.inr (Or.inr (Or.inl hpc)))) hdoes
  | putCode => exact h.step_send (Or.inr (Or.inr (Or.inr (Or.inr (Or.inl hpc))))) hdoes
  | sendCode i => exact h.step_send (Or.inr (Or.inr (Or.inr (Or.inr (Or.inr ⟨i, hpc⟩))))) hdoes
  | drainExtra => exact h.step_word (Or.inl hpc) hdoes
  | waitSuccess => exact h.step_word (Or.inr hpc) hdoes
  | panicked =>
    unfold bootAct at hdoes
    rw [hpc] at hdoes
    cases hdoes
  | returned =>
    unfold bootAct at hdoes
    rw [hpc] at hdoes
    cases hdoes

theorem BootInv.start (program : List UInt8) (isOpen : Bool) :
    BootInv program [] [] (Boot.start isOpen) :=
  ⟨rfl, Nat.zero_lt_succ 3, fun fuel _ _ _ h => ⟨fuel, h⟩⟩

/-! ## Runs -/

variable {stream rest : List UInt8} {isOpen : Bool}

/-- Every run of `boot` ends at a place that what was read and sent belongs to. -/
theorem BootInv.run (h : Runs (bootAct program) (Boot.start isOpen) stream b rest out) :
    ∃ pre, stream = pre ++ rest ∧ BootInv program pre out b :=
  h.invariant (fun hinv hdoes => BootInv.step hinv hdoes) (BootInv.start program isOpen)

/-- The four bytes of a word are read. -/
theorem runs_bootGet32 (next : UInt32 → Boot → Boot) (hgot : b.got = [])
    (hact : ∀ got, bootAct program { b with got := got } = bootGet32 { b with got := got } next)
    (w : UInt32) (rest : List UInt8) :
    Runs (bootAct program) b (bytes32 w ++ rest) (next w b) rest [] := by
  obtain ⟨pc, _, op, string, printed, i, isOpen⟩ := b
  simp only at hgot hact
  subst hgot
  have hone : ∀ {word : List UInt8} (x : UInt8) (input : List UInt8), word.length < 3 →
      (bootAct program ⟨pc, word, op, string, printed, i, isOpen⟩).perform (x :: input) =
        some (⟨pc, word ++ [x], op, string, printed, i, isOpen⟩, input, []) := by
    intro word x input hlen
    rw [hact, bootGet32, Act.perform]
    rcases word with _ | ⟨_, _ | ⟨_, _ | ⟨_, _⟩⟩⟩
    · rfl
    · rfl
    · rfl
    · simp only [List.length_cons] at hlen
      omega
  have hlast : ∀ input : List UInt8,
      (bootAct program ⟨pc, [byte32 w 0, byte32 w 1, byte32 w 2], op, string, printed, i,
        isOpen⟩).perform (byte32 w 3 :: input) =
        some (next w ⟨pc, [], op, string, printed, i, isOpen⟩, input, []) := by
    intro input
    rw [hact, bootGet32, Act.perform]
    simp only [orBytes_eq_word32, word32_byte32]
  exact Runs.head_silent (hone _ _ (by simp)) (Runs.head_silent (hone _ _ (by simp))
    (Runs.head_silent (hone _ _ (by simp)) (Runs.head_silent (hlast rest) (Runs.refl _ _))))

/-- The bytes of a string are printed. -/
theorem runs_string {left : ℕ} {input : List UInt8} (hpc : b.pc = .stringBytes left)
    (hlen : left ≤ input.length) :
    Runs (bootAct program) b input { b with
      pc := .drain
      string := b.string ++ input.take left
      printed := b.printed ++ [b.string ++ input.take left] } (input.drop left) [] := by
  obtain ⟨_, word, op, string, printed, i, isOpen⟩ := b
  simp only at hpc
  subst hpc
  induction left generalizing string input with
  | zero =>
    have hstep : (bootAct program ⟨.stringBytes 0, word, op, string, printed, i, isOpen⟩).perform
        input = some (⟨.drain, word, op, string, printed ++ [string], i, isOpen⟩, input, []) := rfl
    simpa using Runs.head_silent hstep (Runs.refl _ _)
  | succ left ih =>
    cases input with
    | nil => simp at hlen
    | cons x input =>
      have hstep : (bootAct program ⟨.stringBytes (left + 1), word, op, string, printed, i,
          isOpen⟩).perform (x :: input) =
            some (⟨.stringBytes left, word, op, string ++ [x], printed, i, isOpen⟩, input, []) :=
          rfl
      have hrest := ih (by simpa using hlen) (string ++ [x])
      simpa using Runs.head_silent hstep hrest

/-- The loop that drains the strings and the request. -/
theorem runs_drain {fuel : ℕ} {input : List UInt8} {strings : List (List UInt8)}
    (hpc : b.pc = .drain) (hgot : b.got = [])
    (h : drain fuel b.op input = some (strings, rest)) :
    ∃ b', Runs (bootAct program) b input b' rest [] ∧ b'.pc = .putProgInfo ∧ b'.got = [] := by
  obtain ⟨_, _, op, string, printed, i, isOpen⟩ := b
  simp only at hpc hgot h
  subst hpc hgot
  induction fuel generalizing op input strings string printed with
  | zero => simp [drain] at h
  | succ fuel ih =>
    have hperform : ∀ x inbox, op ≠ getProgInfo →
        (bootAct program ⟨.drain, [], op, string, printed, i, isOpen⟩).perform (x :: inbox) =
          some (if shiftIn op x = printString then
              ⟨.stringLength, [], shiftIn op x, string, printed, i, isOpen⟩
            else ⟨.drain, [], shiftIn op x, string, printed, i, isOpen⟩, inbox, []) := by
      intro x inbox hne
      simp only [bootAct, if_neg hne, Act.perform]
    unfold drain at h
    split at h
    · rename_i hget
      simp only [Option.some.injEq, Prod.mk.injEq] at h
      obtain ⟨-, rfl⟩ := h
      refine ⟨⟨.putProgInfo, [], op, string, printed, i, isOpen⟩, ?_, rfl, rfl⟩
      refine Runs.head_silent ?_ (Runs.refl _ _)
      simp only [bootAct, if_pos hget, Act.perform]
    rename_i hne
    cases input with
    | nil => simp at h
    | cons x input =>
      simp only at h
      split at h
      · rename_i hprint
        rcases input with _ | ⟨b0, _ | ⟨b1, _ | ⟨b2, _ | ⟨b3, input⟩⟩⟩⟩
        iterate 4 · simp at h
        · simp only at h
          split at h
          · simp at h
          rename_i hlen
          obtain ⟨⟨strings', rest'⟩, hrest, he⟩ := Option.map_eq_some_iff.mp h
          simp only [Prod.mk.injEq] at he
          obtain ⟨-, rfl⟩ := he
          let len := orBytes b0 b1 b2 b3
          obtain ⟨b', hruns, hpc, hgot⟩ := ih (shiftIn op x) ([] ++ input.take len.toNat)
            (printed ++ [[] ++ input.take len.toNat]) hrest
          refine ⟨b', ?_, hpc, hgot⟩
          refine Runs.head_silent (hperform x _ hne) ?_
          rw [if_pos hprint]
          -- the length, the string, and the rest
          let counted : Boot := ⟨.stringLength, [], shiftIn op x, string, printed, i, isOpen⟩
          have hlength : Runs (bootAct program) counted (bytes32 len ++ input)
              { counted with pc := .stringBytes len.toNat, string := [] } input [] :=
            runs_bootGet32 (fun len b => { b with pc := .stringBytes len.toNat, string := [] })
              rfl (fun _ => rfl) len input
          have hbytes : bytes32 len ++ input = b0 :: b1 :: b2 :: b3 :: input := by
            simp only [len, orBytes_eq_word32, bytes32_word32]
            rfl
          rw [hbytes] at hlength
          exact (hlength.trans (runs_string rfl (Nat.not_lt.mp hlen))).trans hruns
      · rename_i hprint
        obtain ⟨b', hruns, hpc, hgot⟩ := ih (shiftIn op x) string printed h
        refine ⟨b', Runs.head_silent (hperform x _ hne) ?_, hpc, hgot⟩
        rw [if_neg hprint]
        exact hruns

/-- `boot` up to the announcement. -/
theorem Requested.runs {printed : List (List UInt8)} (h : Requested pre printed)
    (program : List UInt8) (isOpen : Bool) :
    ∃ b, Runs (bootAct program) (Boot.start isOpen) pre b [] (bootHeader program) ∧
      b.pc = .drainExtra ∧ b.got = [] := by
  obtain ⟨fuel, hdrain⟩ := h
  match pre, hdrain with
  | b0 :: b1 :: b2 :: b3 :: input, hdrain =>
    let op := orBytes b0 b1 b2 b3
    let drains : Boot := { Boot.start isOpen with op := op, pc := .drain }
    have hfirst : Runs (bootAct program) (Boot.start isOpen) (bytes32 op ++ input) drains input
        [] :=
      runs_bootGet32 (fun op b => { b with op := op, pc := .drain }) rfl (fun _ => rfl) op input
    have hbytes : bytes32 op ++ input = b0 :: b1 :: b2 :: b3 :: input := by
      simp only [op, orBytes_eq_word32, bytes32_word32]
      rfl
    have hdrained : ∃ b', Runs (bootAct program) drains input b' [] [] ∧ b'.pc = .putProgInfo ∧
        b'.got = [] := runs_drain rfl rfl hdrain
    obtain ⟨b, hruns, hpc, hgot⟩ := hdrained
    obtain ⟨_, _, word, string, strings, i, isOpen'⟩ := b
    simp only at hpc hgot
    subst hpc hgot
    have hsend : Runs (bootAct program) ⟨.putProgInfo, [], word, string, strings, i, isOpen'⟩ []
        ⟨.drainExtra, [], word, string, strings, i, isOpen'⟩ [] (bootHeader program) := by
      have hput : ∀ pc w pc', bootAct program ⟨pc, [], word, string, strings, i, isOpen'⟩ =
          bootPut32 ⟨pc, [], word, string, strings, i, isOpen'⟩ w pc' →
          Runs (bootAct program) ⟨pc, [], word, string, strings, i, isOpen'⟩ []
            ⟨pc', [], word, string, strings, i, isOpen'⟩ [] (bytes32 w) := by
        intro pc w pc' hact
        rw [← List.append_nil (bytes32 w)]
        refine Runs.head ?_ (Runs.refl _ _)
        rw [hact]
        rfl
      have h₁ := hput .putProgInfo putProgInfo .putArmbase rfl
      have h₂ := hput .putArmbase armbase .putNbytes rfl
      have h₃ := hput .putNbytes (UInt32.ofNat program.length) .putCrc rfl
      have h₄ := hput .putCrc (crc32 program) .drainExtra rfl
      rw [bootHeader]
      exact ((h₁.trans h₂).trans h₃).trans h₄
    refine ⟨⟨.drainExtra, [], word, string, strings, i, isOpen'⟩, ?_, rfl, rfl⟩
    have hall := (hfirst.trans hruns).trans hsend
    rwa [hbytes, List.nil_append, List.nil_append] at hall

/-- `boot` up to a further word. -/
theorem Repeated.runs {printed : List (List UInt8)} (h : Repeated pre printed)
    (program : List UInt8) (isOpen : Bool) :
    ∃ b, Runs (bootAct program) (Boot.start isOpen) pre b [] (bootHeader program) ∧
      b.pc = .drainExtra ∧ b.got = [] := by
  obtain ⟨request, extra, hrequest, rfl⟩ := h
  induction extra with
  | zero => simpa [wordBytes] using hrequest.runs program isOpen
  | succ extra ih =>
    obtain ⟨b, hruns, hpc, hgot⟩ := ih
    have hword : Runs (bootAct program) b (bytes32 getProgInfo ++ []) (afterExtra getProgInfo b)
        [] [] := runs_bootGet32 afterExtra hgot (fun got => by simp [bootAct, hpc]) getProgInfo []
    refine ⟨afterExtra getProgInfo b, ?_, by simpa [afterExtra] using hpc,
      by simpa [afterExtra] using hgot⟩
    rw [List.replicate_succ', wordBytes_append, wordBytes_singleton, ← List.append_assoc]
    simpa using hruns.chain hword

/-- The program is sent, a byte at a time. -/
theorem runs_sendCode {n : ℕ} (hpc : b.pc = .sendCode n) (hgot : b.got = [])
    (hn : n ≤ program.length) :
    ∃ b', Runs (bootAct program) b [] b' [] (program.drop n) ∧ b'.pc = .waitSuccess ∧
      b'.got = [] ∧ b'.i = 0 := by
  obtain ⟨_, _, op, string, printed, i, isOpen⟩ := b
  simp only at hpc hgot
  subst hpc hgot
  induction hk : program.length - n generalizing n with
  | zero =>
    have hend : program.length ≤ n := by omega
    refine ⟨⟨.waitSuccess, [], op, string, printed, 0, isOpen⟩, ?_, rfl, rfl, rfl⟩
    rw [List.drop_of_length_le hend]
    refine Runs.head_silent ?_ (Runs.refl _ _)
    simp only [bootAct, List.getElem?_eq_none hend, Act.perform]
  | succ k ih =>
    have hlt : n < program.length := by omega
    obtain ⟨b', hruns, hpc, hgot, hi⟩ := ih (n := n + 1) (by omega) (by omega)
    refine ⟨b', ?_, hpc, hgot, hi⟩
    rw [List.drop_eq_getElem_cons hlt, ← List.singleton_append]
    refine Runs.head ?_ hruns
    simp only [bootAct, List.getElem?_eq_getElem hlt, Act.perform]

/-- `boot` up to the end of the program. -/
theorem Asked.runs {printed : List (List UInt8)} (h : Asked pre printed) (program : List UInt8)
    (isOpen : Bool) :
    ∃ b, Runs (bootAct program) (Boot.start isOpen) pre b [] (bootTranscript program) ∧
      b.pc = .waitSuccess ∧ b.got = [] ∧ b.i = 0 := by
  obtain ⟨requests, hrequests, rfl⟩ := h
  obtain ⟨b, hruns, hpc, hgot⟩ := hrequests.runs program isOpen
  have hword : Runs (bootAct program) b (bytes32 getCode ++ []) (afterExtra getCode b) [] [] :=
    runs_bootGet32 afterExtra hgot (fun got => by simp [bootAct, hpc]) getCode []
  have hnext : afterExtra getCode b = { b with op := getCode, pc := .putCode } := by
    rw [afterExtra, if_neg (by decide), if_neg (by decide)]
  have hput : Runs (bootAct program) { b with op := getCode, pc := .putCode } []
      { b with op := getCode, pc := .sendCode 0 } [] (bytes32 putCode) := by
    rw [← List.append_nil (bytes32 putCode)]
    exact Runs.head rfl (Runs.refl _ _)
  have hcode : ∃ b', Runs (bootAct program) { b with op := getCode, pc := .sendCode 0 } [] b' []
      (program.drop 0) ∧ b'.pc = .waitSuccess ∧ b'.got = [] ∧ b'.i = 0 :=
    runs_sendCode rfl hgot (Nat.zero_le _)
  obtain ⟨b', hsent, hpc', hgot', hi⟩ := hcode
  refine ⟨b', ?_, hpc', hgot', hi⟩
  rw [hnext] at hword
  rw [bootTranscript]
  simpa using ((hruns.chain hword).chain hput).chain hsent

/-- `boot` up to a word of the last loop. -/
theorem Awaits.runs {printed : List (List UInt8)} {n : ℕ} (h : Awaits pre printed n)
    (program : List UInt8) (isOpen : Bool) :
    ∃ b, Runs (bootAct program) (Boot.start isOpen) pre b [] (bootTranscript program) ∧
      b.pc = .waitSuccess ∧ b.got = [] ∧ b.i.toNat = n := by
  obtain ⟨asked, ws, hasked, hws, rfl, hle, rfl⟩ := h
  induction ws using List.reverseRecOn with
  | nil =>
    obtain ⟨b, hruns, hpc, hgot, hi⟩ := hasked.runs program isOpen
    exact ⟨b, by simpa [wordBytes] using hruns, hpc, hgot, by rw [hi]; rfl⟩
  | append_singleton ws w ih =>
    rw [List.length_append, List.length_singleton] at hle
    obtain ⟨b, hruns, hpc, hgot, hi⟩ := ih (fun v hv => hws v (by simp [hv])) (by omega)
    have hword : Runs (bootAct program) b (bytes32 w ++ []) (afterSuccess w b) [] [] :=
      runs_bootGet32 afterSuccess hgot (fun got => by simp [bootAct, hpc]) w []
    have hless : ¬ 0xffff0000 < b.i := by
      rw [UInt32.lt_iff_toNat_lt]
      have hbound : (0xffff0000 : UInt32).toNat = 0xffff0000 := rfl
      omega
    have hnext : afterSuccess w b = { b with op := w, i := b.i + 1 } := by
      rw [afterSuccess, if_neg (hws w (by simp)), if_neg hless]
    rw [hnext] at hword
    refine ⟨{ b with op := w, i := b.i + 1 }, ?_, hpc, hgot, ?_⟩
    · rw [wordBytes_append, wordBytes_singleton, ← List.append_assoc]
      simpa using hruns.chain hword
    · rw [UInt32.toNat_add, List.length_append, List.length_singleton, hi]
      exact Nat.mod_eq_of_lt (by show ws.length + 1 < 2 ^ 32; omega)

theorem Repeated.requested {printed : List (List UInt8)} (h : Repeated pre printed) :
    ∃ request, Requested request printed ∧ request <+: pre := by
  obtain ⟨request, extra, hrequest, rfl⟩ := h
  exact ⟨request, hrequest, List.prefix_append _ _⟩

theorem Asked.requested {printed : List (List UInt8)} (h : Asked pre printed) :
    ∃ request, Requested request printed ∧ request <+: pre := by
  obtain ⟨requests, hrequests, rfl⟩ := h
  obtain ⟨request, hrequest, hpre⟩ := hrequests.requested
  exact ⟨request, hrequest, hpre.trans (List.prefix_append _ _)⟩

theorem Awaits.asked {printed : List (List UInt8)} {n : ℕ} (h : Awaits pre printed n) :
    ∃ asked, Asked asked printed ∧ asked <+: pre := by
  obtain ⟨asked, ws, hasked, -, -, -, rfl⟩ := h
  exact ⟨asked, hasked, List.prefix_append _ _⟩

/-- What has been sent is the beginning of the transcript, none of it in front of the request, and
nothing behind the announcement in front of the question for the code. -/
def SentWhenAsked (program pre out : List UInt8) : Prop :=
  out <+: bootTranscript program ∧
    (out ≠ [] → ∃ request printed, Requested request printed ∧ request <+: pre) ∧
    ((bootHeader program).length < out.length →
      ∃ asked printed, Asked asked printed ∧ asked <+: pre)

theorem sentWhenAsked_nil (program pre : List UInt8) : SentWhenAsked program pre [] :=
  ⟨List.nil_prefix, fun h => absurd rfl h, fun h => absurd h (Nat.not_lt_zero _)⟩

theorem sentWhenAsked_of_header {printed : List (List UInt8)} {request : List UInt8}
    (hout : out <+: bootHeader program) (hrequest : Requested request printed)
    (hpre : request <+: pre) : SentWhenAsked program pre out := by
  refine ⟨?_, fun _ => ⟨request, printed, hrequest, hpre⟩, fun h => ?_⟩
  · rw [bootTranscript, List.append_assoc]
    exact hout.trans (List.prefix_append _ _)
  · exact absurd hout.length_le (by omega)

theorem sentWhenAsked_of_asked {printed : List (List UInt8)} {asked : List UInt8}
    (hout : out <+: bootTranscript program) (hasked : Asked asked printed)
    (hpre : asked <+: pre) : SentWhenAsked program pre out := by
  obtain ⟨request, hrequest, hle⟩ := hasked.requested
  exact ⟨hout, fun _ => ⟨request, printed, hrequest, hle.trans hpre⟩,
    fun _ => ⟨asked, printed, hasked, hpre⟩⟩

theorem BootInv.sentWhenAsked (h : BootInv program pre out b) : SentWhenAsked program pre out := by
  obtain ⟨pc, word, op, string, printed, i, isOpen⟩ := b
  have hheader : bootHeader program = bytes32 putProgInfo ++ (bytes32 armbase ++
      (bytes32 (UInt32.ofNat program.length) ++ bytes32 (crc32 program))) := by
    simp [bootHeader]
  cases pc with
  | firstWord => exact h.1 ▸ sentWhenAsked_nil program pre
  | drain => exact h.1 ▸ sentWhenAsked_nil program pre
  | stringLength => exact h.1 ▸ sentWhenAsked_nil program pre
  | stringBytes left => exact h.1 ▸ sentWhenAsked_nil program pre
  | putProgInfo => exact h.1 ▸ sentWhenAsked_nil program pre
  | putArmbase =>
    obtain ⟨rfl, -, hrequest⟩ := h
    exact sentWhenAsked_of_header (by simp [hheader]) hrequest (List.prefix_refl pre)
  | putNbytes =>
    obtain ⟨rfl, -, hrequest⟩ := h
    exact sentWhenAsked_of_header (by simp [hheader]) hrequest (List.prefix_refl pre)
  | putCrc =>
    obtain ⟨rfl, -, hrequest⟩ := h
    exact sentWhenAsked_of_header (by simp [hheader]) hrequest (List.prefix_refl pre)
  | drainExtra =>
    obtain ⟨rfl, -, requests, hrequests, rfl⟩ := h
    obtain ⟨request, hrequest, hpre⟩ := hrequests.requested
    exact sentWhenAsked_of_header (List.prefix_refl _) hrequest
      (hpre.trans (List.prefix_append _ _))
  | putCode =>
    obtain ⟨rfl, -, hasked⟩ := h
    refine sentWhenAsked_of_asked ?_ hasked (List.prefix_refl pre)
    rw [bootTranscript, List.append_assoc]
    exact List.prefix_append _ _
  | sendCode n =>
    obtain ⟨rfl, -, -, hasked⟩ := h
    refine sentWhenAsked_of_asked ?_ hasked (List.prefix_refl pre)
    exact (List.prefix_append_right_inj _).mpr (List.take_prefix n program)
  | waitSuccess =>
    obtain ⟨rfl, -, waited, hwaited, rfl⟩ := h
    obtain ⟨asked, hasked, hpre⟩ := hwaited.asked
    exact sentWhenAsked_of_asked (List.prefix_refl _) hasked
      (hpre.trans (List.prefix_append _ _))
  | panicked =>
    rcases h with ⟨rfl, requests, w, hrequests, -, -, rfl⟩ | ⟨rfl, waited, w, hwaited, -, rfl⟩
    · obtain ⟨request, hrequest, hpre⟩ := hrequests.requested
      exact sentWhenAsked_of_header (List.prefix_refl _) hrequest
        (hpre.trans (List.prefix_append _ _))
    · obtain ⟨asked, hasked, hpre⟩ := hwaited.asked
      exact sentWhenAsked_of_asked (List.prefix_refl _) hasked
        (hpre.trans (List.prefix_append _ _))
  | returned =>
    obtain ⟨rfl, ⟨waited, n, hwaited, rfl⟩, -⟩ := h
    obtain ⟨asked, hasked, hpre⟩ := hwaited.asked
    exact sentWhenAsked_of_asked (List.prefix_refl _) hasked
      (hpre.trans (List.prefix_append _ _))

/-- Whatever the pi sends: `boot` has sent a beginning of the announcement, `PUT_CODE` and the
program, none of it in front of the request, and neither `PUT_CODE` nor a byte of the program in
front of the question for the code. -/
theorem boot_sendsWhenAsked
    (h : Runs (bootAct program) (Boot.start isOpen) (pre ++ rest) b rest out) :
    SentWhenAsked program pre out := by
  obtain ⟨taken, htaken, hinv⟩ := BootInv.run h
  rw [List.append_cancel_right htaken]
  exact hinv.sentWhenAsked

/-- The pi asks for a program of one byte. -/
theorem boot_sendsWhenAsked_letter :
    SentWhenAsked [0x41] (bytes32 getProgInfo ++ bytes32 getCode) (bootTranscript [0x41]) := by
  have hasked : Asked (bytes32 getProgInfo ++ bytes32 getCode) [] :=
    ⟨bytes32 getProgInfo, ⟨bytes32 getProgInfo, 0, ⟨1, by decide⟩, by decide⟩, rfl⟩
  obtain ⟨b, hruns, -⟩ := hasked.runs [0x41] false
  rw [← List.append_nil (bytes32 getProgInfo ++ bytes32 getCode)] at hruns
  exact boot_sendsWhenAsked hruns

end NaiveGfs
