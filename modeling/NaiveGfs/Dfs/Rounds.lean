import NaiveGfs.Dfs.Phases

/-!
# The rounds of the protocol

A round is a word from the mac and the answer of the pi. Each lemma takes the two programs
from one meeting, at which nothing is on the way, to the next one. `macReads` and `piReads`
say what is read at every place: the bytes that the other side sends at the matching place.
-/

namespace NaiveGfs

open LittleEndian TwoParty

variable {κ : Type}

/-- What the mac reads at each place when the pi answers the id with `answer` and claims the
id `claimed`. -/
def macReads (answer : List UInt8) (claimed : UInt8) : MacPc → List (PiPc × UInt8)
  | .ackFsIdStart => tagged .ackFsIdStart uartPutDummy
  | .ackName i => tagged (.ackWord i) uartPutDummy
  | .ackConfigInit => tagged .ackConfigInit uartPutDummy
  | .ackRequestId => tagged .ackRequestId uartPutDummy
  | .readAnswer => tagged .putAnswer answer
  | .readClaimed => tagged .putClaimed (List.replicate 4 claimed)
  | _ => []

/-- What the pi reads at each place when the mac sends the words `words` and the id word of
`id`. -/
def piReads (words : List UInt32) (id : UInt32) : PiPc → List (MacPc × UInt8)
  | .waitFsIdStart => tagged .putFsIdStart (bytes32 fsIdStart)
  | .getString i => tagged (.putName i) (bytes32 (words.getD i 0))
  | .waitConfigInit => tagged .putConfigInit (bytes32 configInit)
  | .waitRequestId => tagged .putRequestId (bytes32 requestId)
  | .getId => tagged .putId (bytes32 (0xffffff00 ||| id))
  | _ => []

/-- A configuration of the two traced programs. -/
abbrev Link (κ : Type) := TracedConfig Mac (Pi κ) UInt8 UInt8 MacPc PiPc

/-- Steps of the two traced programs. -/
abbrev LinkReaches (words : List UInt32) (env : PiEnv κ) : Link κ → Link κ → Prop :=
  Reaches (traceAct (macAct words) Mac.pc) (traceAct (piAct env) Pi.pc)

section Rounds

variable (env : PiEnv κ) {words : List UInt32} {answer : List UInt8} {claimed : UInt8}
  {id op : UInt32} {p : Pi κ} {c : Link κ}

/-- The acknowledgement that ends a round. -/
theorem mac_takes_dummy {pc pc' : MacPc} {q : PiPc}
    (hact : ∀ op got, macAct words ⟨pc, got, op, id⟩ = ackLoop ⟨pc, got, op, id⟩ pc')
    (hne : pc' ≠ pc) (hreads : macReads answer claimed pc = tagged q uartPutDummy) :
    Conforms (macAct words) Mac.pc (macReads answer claimed) ⟨pc, [], op, id⟩
      (tagged q uartPutDummy) ⟨pc', [], dummy, id⟩ [] [] := by
  rw [← List.append_nil (tagged q uartPutDummy)]
  exact mac_ack hact hne (uartPutDummy_eq ▸ hreads)

theorem fsIdStart_round
    (h : Meets (macReads answer claimed) (piReads words id) ⟨.putFsIdStart, [], op, id⟩
      { p with pc := .waitFsIdStart, out := [], op := 0 } [] c) :
    ∃ d, LinkReaches words env c d ∧
      Meets (macReads answer claimed) (piReads words id) ⟨sendStringPc words 0, [], dummy, id⟩
        { p with pc := .getString 0, out := [], op := fsIdStart, word := 0, count := 0 } [] d := by
  have hne : sendStringPc words 0 ≠ .ackFsIdStart := by
    rw [sendStringPc]
    split <;> simp
  have hwait : Conforms (piAct env) Pi.pc (piReads words id)
      { p with pc := .waitFsIdStart, out := [], op := 0 }
      (tagged .putFsIdStart (bytes32 fsIdStart))
      { p with pc := .ackFsIdStart, out := uartPutDummy, op := fsIdStart } [] [] :=
    pi_wait (fun p => { p with pc := .ackFsIdStart, out := uartPutDummy })
      (show ShowsLast 0 fsIdStart by decide) (fun _ => rfl) (by simp) rfl
  have hput : Conforms (piAct env) Pi.pc (piReads words id)
      { p with pc := .ackFsIdStart, out := uartPutDummy, op := fsIdStart } []
      { p with pc := .getString 0, out := [], op := fsIdStart, word := 0, count := 0 } []
      (tagged .ackFsIdStart uartPutDummy) :=
    pi_put rfl (by simp) rfl
  exact (mac_put rfl (by simp) rfl).roundTrip (hwait.trans hput)
    (mac_takes_dummy (fun _ _ => rfl) hne rfl) h

/-- The round of word `i`, after which `get_string` is at `p'`. -/
theorem name_round {i : ℕ} {w : UInt32} {p' : Pi κ} (hw : words.getD i 0 = w)
    (hexit : piAct env { p with
      pc := .ackWord i, out := [], word := w, count := 4, dfsName := putWord p.dfsName i w } =
        .tau p') (hne : p'.pc ≠ .ackWord i)
    (h : Meets (macReads answer claimed) (piReads words id) ⟨.putName i, [], op, id⟩
      { p with pc := .getString i, out := [], count := 0 } [] c) :
    ∃ d, LinkReaches words env c d ∧
      Meets (macReads answer claimed) (piReads words id)
        ⟨sendStringPc words (i + 1), [], dummy, id⟩ p' [] d := by
  have hpc : sendStringPc words (i + 1) ≠ .ackName i := by
    rw [sendStringPc]
    split <;> simp
  have hread : Conforms (piAct env) Pi.pc (piReads words id)
      { p with pc := .getString i, out := [], count := 0 } (tagged (.putName i) (bytes32 w))
      { p with
        pc := .ackWord i, out := uartPutDummy, word := w, count := 4,
        dfsName := putWord p.dfsName i w } [] [] :=
    pi_shift (fun k v => { p with pc := .getString i, out := [], word := v, count := k }) p.word
      (fun _ _ => rfl) (fun k hk => if_pos hk) rfl (by simp) (by rw [← hw]; rfl)
  have hput : Conforms (piAct env) Pi.pc (piReads words id)
      { p with
        pc := .ackWord i, out := uartPutDummy, word := w, count := 4,
        dfsName := putWord p.dfsName i w } [] p' [] (tagged (.ackWord i) uartPutDummy) :=
    pi_put hexit hne rfl
  exact (mac_put (by rw [← hw]; rfl) (by simp) rfl).roundTrip (hread.trans hput)
    (mac_takes_dummy (fun _ _ => rfl) hpc rfl) h

/-- The rounds of the words from `pre.length` on, the last of which is the only one of all
ones. -/
theorem name_rounds {pre ws : List UInt32} (hwords : words = pre ++ ws ++ [0xffffffff])
    (hws : ∀ w ∈ ws, w ≠ 0xffffffff) (hlen : pre.length + ws.length ≤ 6)
    (h : Meets (macReads answer claimed) (piReads words id) ⟨.putName pre.length, [], op, id⟩
      { p with pc := .getString pre.length, out := [], count := 0 } [] c) :
    ∃ d, LinkReaches words env c d ∧
      Meets (macReads answer claimed) (piReads words id) ⟨.putConfigInit, [], dummy, id⟩
        { p with
          pc := .waitConfigInit, out := [], word := 0xffffffff, count := 4,
          dfsName := putWords p.dfsName pre.length (ws ++ [0xffffffff]) } [] d := by
  induction ws generalizing pre op p c with
  | nil =>
    have hw : words.getD pre.length 0 = 0xffffffff := by simp [hwords]
    have hpc : sendStringPc words (pre.length + 1) = .putConfigInit := by
      simp [sendStringPc, hwords]
    have hexit : piAct env { p with
        pc := .ackWord pre.length, out := [], word := 0xffffffff, count := 4,
        dfsName := putWord p.dfsName pre.length 0xffffffff } = .tau { p with
          pc := .waitConfigInit, out := [], word := 0xffffffff, count := 4,
          dfsName := putWord p.dfsName pre.length 0xffffffff } := by simp [piAct]
    have hround := name_round env hw hexit (by simp) h
    rw [hpc] at hround
    exact hround
  | cons w ws ih =>
    have hw : words.getD pre.length 0 = w := by simp [hwords]
    have hpc : sendStringPc words (pre.length + 1) = .putName (pre ++ [w]).length := by
      simp [sendStringPc, hwords]
    rw [List.length_cons] at hlen
    have hmore : pre.length + 1 < maxDfsNameLen / 4 := by
      rw [maxDfsNameLen]
      omega
    have hexit : piAct env { p with
        pc := .ackWord pre.length, out := [], word := w, count := 4,
        dfsName := putWord p.dfsName pre.length w } = .tau { p with
          pc := .getString (pre.length + 1), out := [], word := w, count := 0,
          dfsName := putWord p.dfsName pre.length w } :=
      (if_neg (hws w (by simp))).trans (if_pos hmore)
    have hround := name_round env hw hexit (by simp) h
    rw [hpc] at hround
    obtain ⟨d, hcd, hd⟩ := hround
    have hnext : pre.length + 1 = (pre ++ [w]).length := by simp
    rw [hnext] at hd
    have hsplit : words = (pre ++ [w]) ++ ws ++ [0xffffffff] := by simp [hwords]
    obtain ⟨e, hde, he⟩ :=
      ih (p := { p with word := w, dfsName := putWord p.dfsName pre.length w }) hsplit
        (fun v hv => hws v (by simp [hv])) (by simp; omega) hd
    refine ⟨e, hcd.trans hde, ?_⟩
    rw [← hnext] at he
    exact he

theorem configInit_round (hop : p.op = fsIdStart)
    (h : Meets (macReads answer claimed) (piReads words id) ⟨.putConfigInit, [], op, id⟩
      { p with pc := .waitConfigInit, out := [] } [] c) :
    ∃ d, LinkReaches words env c d ∧
      Meets (macReads answer claimed) (piReads words id) ⟨.putRequestId, [], dummy, id⟩
        { p with
          pc := .waitRequestId, out := [], op := 0, vol := (env.setup p.dev).1,
          cfgClusterNo := (env.setup p.dev).2.1, dev := (env.setup p.dev).2.2 } [] d := by
  have hwait : Conforms (piAct env) Pi.pc (piReads words id)
      { p with pc := .waitConfigInit, out := [] } (tagged .putConfigInit (bytes32 configInit))
      { p with pc := .setup, out := [], op := configInit } [] [] :=
    pi_wait (fun p => { p with pc := .setup })
      (show ShowsLast p.op configInit by rw [hop]; decide) (fun _ => rfl) (by simp) rfl
  have hsetup : Conforms (piAct env) Pi.pc (piReads words id)
      { p with pc := .setup, out := [], op := configInit } []
      { p with
        pc := .ackConfigInit, out := uartPutDummy, op := configInit, vol := (env.setup p.dev).1,
        cfgClusterNo := (env.setup p.dev).2.1, dev := (env.setup p.dev).2.2 } [] [] :=
    pi_tau rfl (by simp) rfl
  have hput : Conforms (piAct env) Pi.pc (piReads words id)
      { p with
        pc := .ackConfigInit, out := uartPutDummy, op := configInit, vol := (env.setup p.dev).1,
        cfgClusterNo := (env.setup p.dev).2.1, dev := (env.setup p.dev).2.2 } []
      { p with
        pc := .waitRequestId, out := [], op := 0, vol := (env.setup p.dev).1,
        cfgClusterNo := (env.setup p.dev).2.1, dev := (env.setup p.dev).2.2 } []
      (tagged .ackConfigInit uartPutDummy) :=
    pi_put rfl (by simp) rfl
  exact (mac_put rfl (by simp) rfl).roundTrip ((hwait.trans hsetup).trans hput)
    ((mac_select rfl).trans (mac_takes_dummy (fun _ _ => rfl) (by simp) rfl)) h

theorem requestId_round
    (h : Meets (macReads answer claimed) (piReads words id) ⟨.putRequestId, [], op, id⟩
      { p with pc := .waitRequestId, out := [], op := 0 } [] c) :
    ∃ d, LinkReaches words env c d ∧
      Meets (macReads answer claimed) (piReads words id) ⟨.putId, [], dummy, id⟩
        { p with pc := .getId, out := [], op := requestId, count := 0 } [] d := by
  have hwait : Conforms (piAct env) Pi.pc (piReads words id)
      { p with pc := .waitRequestId, out := [], op := 0 }
      (tagged .putRequestId (bytes32 requestId))
      { p with pc := .ackRequestId, out := uartPutDummy, op := requestId } [] [] :=
    pi_wait (fun p => { p with pc := .ackRequestId, out := uartPutDummy })
      (show ShowsLast 0 requestId by decide) (fun _ => rfl) (by simp) rfl
  have hput : Conforms (piAct env) Pi.pc (piReads words id)
      { p with pc := .ackRequestId, out := uartPutDummy, op := requestId } []
      { p with pc := .getId, out := [], op := requestId, count := 0 } []
      (tagged .ackRequestId uartPutDummy) :=
    pi_put rfl (by simp) rfl
  exact (mac_put rfl (by simp) rfl).roundTrip (hwait.trans hput)
    (mac_takes_dummy (fun _ _ => rfl) (by simp) rfl) h

/-- The `id_if_unassigned` that `entry` passes on after the id word of `id`. -/
def offeredId (id : UInt32) : UInt32 := (0xffffff00 ||| id) &&& 0xff

theorem offeredId_eq (id : UInt32) : offeredId id = id &&& 0xff := by
  apply UInt32.toBitVec_inj.mp
  simp only [offeredId, UInt32.toBitVec_and, UInt32.toBitVec_or]
  rw [BitVec.and_comm, BitVec.and_or_distrib_left]
  simp [BitVec.and_comm]

theorem toNat_offeredId (id : UInt32) : (offeredId id).toNat = id.toNat % 256 := by
  rw [offeredId_eq, UInt32.toNat_and]
  exact Nat.and_two_pow_sub_one_eq_mod id.toNat 8

/-- The word that the pi sends when `id_for_dfs` has returned `r`. -/
def answerWord (r : ℤ) : UInt32 := if r = -1 then dummy2 else dummy

theorem answerBytes_eq (r : ℤ) : answerBytes r = bytes32 (answerWord r) := by
  rw [answerBytes, answerWord]
  split
  · exact uartPutDummy2_eq
  · exact uartPutDummy_eq

/-- The bytes of a claimed id as the word that the mac reads. -/
def claimedWord (b : UInt8) : UInt32 := word32 b b b b

theorem replicate_claimed (b : UInt8) : List.replicate 4 b = bytes32 (claimedWord b) :=
  (bytes32_word32 b b b b).symm

theorem takeAnswer_answerWord (r : ℤ) :
    takeAnswer (answerWord r) ⟨.readAnswer, [], answerWord r, id⟩ =
      ⟨.readClaimed, [], answerWord r, if r = -1 then id + 1 else id⟩ := by
  have hne : dummy ≠ dummy2 := by decide
  by_cases hr : r = -1
  · simp [takeAnswer, answerWord, hr]
  · simp [takeAnswer, answerWord, hr, hne]

/-- The mac takes the answer: it moves the counter on exactly when the answer is `DUMMY2`. -/
theorem mac_takes_answer (r : ℤ) (op : UInt32) (rest : List (PiPc × UInt8)) :
    Conforms (macAct words) Mac.pc (macReads (answerBytes r) claimed)
      ⟨.readAnswer, [], op, id⟩
      (tagged .putAnswer (answerBytes r) ++ (tagged .putClaimed (List.replicate 4 claimed) ++ rest))
      ⟨.returned, [], claimedWord claimed, if r = -1 then id + 1 else id⟩ rest [] := by
  have hanswer : Conforms (macAct words) Mac.pc (macReads (answerBytes r) claimed)
      ⟨.readAnswer, [], op, id⟩
      (tagged .putAnswer (bytes32 (answerWord r)) ++
        (tagged .putClaimed (bytes32 (claimedWord claimed)) ++ rest))
      (takeAnswer (answerWord r) ⟨.readAnswer, [], answerWord r, id⟩)
      (tagged .putClaimed (bytes32 (claimedWord claimed)) ++ rest) [] :=
    mac_get32 takeAnswer (fun _ _ => rfl) (by rw [takeAnswer_answerWord]; simp)
      (by rw [← answerBytes_eq]; rfl)
  have hclaimed : Conforms (macAct words) Mac.pc (macReads (answerBytes r) claimed)
      ⟨.readClaimed, [], answerWord r, if r = -1 then id + 1 else id⟩
      (tagged .putClaimed (bytes32 (claimedWord claimed)) ++ rest)
      ⟨.returned, [], claimedWord claimed, if r = -1 then id + 1 else id⟩ rest [] :=
    mac_get32 (fun _ m => { m with pc := .returned }) (fun _ _ => rfl) (by simp)
      (by rw [← replicate_claimed]; rfl)
  rw [takeAnswer_answerWord] at hanswer
  rw [answerBytes_eq, replicate_claimed] at *
  exact hanswer.trans hclaimed

/-- The last round: the id word, the answer of `id_for_dfs`, and the claimed id. -/
theorem id_round {r : ℤ} {dev' : κ}
    (hassign : idForDfs env.drv p.vol p.cfgClusterNo p.dfsName (offeredId id).toNat env.stack
      p.dev = some (r, dev'))
    (h : Meets (macReads (answerBytes r) (claimedByte (offeredId id) r)) (piReads words id)
      ⟨.putId, [], op, id⟩ { p with pc := .getId, out := [], count := 0 } [] c) :
    ∃ d, LinkReaches words env c d ∧
      Meets (macReads (answerBytes r) (claimedByte (offeredId id) r)) (piReads words id)
        ⟨.returned, [], claimedWord (claimedByte (offeredId id) r),
          if r = -1 then id + 1 else id⟩
        { p with
          pc := .returned, out := [], op := offeredId id, count := 4, id := r, dev := dev' }
        (tagged .putDone doneBytes) d := by
  have hread : Conforms (piAct env) Pi.pc (piReads words id)
      { p with pc := .getId, out := [], count := 0 } (tagged .putId (bytes32 (0xffffff00 ||| id)))
      { p with pc := .assign, out := [], op := offeredId id, count := 4 } [] [] :=
    pi_shift (fun k v => { p with pc := .getId, out := [], op := v, count := k }) p.op
      (fun _ _ => rfl) (fun k hk => if_pos hk) rfl (by simp) rfl
  have hcall : Conforms (piAct env) Pi.pc (piReads words id)
      { p with pc := .assign, out := [], op := offeredId id, count := 4 } []
      { p with
        pc := .putAnswer, out := answerBytes r, op := offeredId id, count := 4, id := r,
        dev := dev' } [] [] :=
    pi_tau (by simp [piAct, hassign]) (by simp) rfl
  have hanswer : Conforms (piAct env) Pi.pc (piReads words id)
      { p with
        pc := .putAnswer, out := answerBytes r, op := offeredId id, count := 4, id := r,
        dev := dev' } []
      { p with
        pc := .putClaimed, out := List.replicate 4 (claimedByte (offeredId id) r),
        op := offeredId id, count := 4, id := r, dev := dev' } []
      (tagged .putAnswer (answerBytes r)) :=
    pi_put rfl (by simp) rfl
  have hclaim : Conforms (piAct env) Pi.pc (piReads words id)
      { p with
        pc := .putClaimed, out := List.replicate 4 (claimedByte (offeredId id) r),
        op := offeredId id, count := 4, id := r, dev := dev' } []
      { p with
        pc := .putDone, out := doneBytes, op := offeredId id, count := 4, id := r,
        dev := dev' } []
      (tagged .putClaimed (List.replicate 4 (claimedByte (offeredId id) r))) :=
    pi_put rfl (by simp) rfl
  have hdone : Conforms (piAct env) Pi.pc (piReads words id)
      { p with
        pc := .putDone, out := doneBytes, op := offeredId id, count := 4, id := r,
        dev := dev' } []
      { p with
        pc := .returned, out := [], op := offeredId id, count := 4, id := r, dev := dev' } []
      (tagged .putDone doneBytes) :=
    pi_put rfl (by simp) rfl
  have hpi := (hread.trans hcall).trans (hanswer.trans (hclaim.trans hdone))
  exact (mac_put rfl (by simp) rfl).roundTrip hpi (mac_takes_answer r op _) h

end Rounds

end NaiveGfs
