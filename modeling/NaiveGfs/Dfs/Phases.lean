import NaiveGfs.Dfs.Protocol

/-!
# The phases of the protocol

What each side does between two exchanges: the mac puts a word or reads one, the pi waits
for a command, reads four bytes, or sends the bytes of its current place. The lemmas are
about the traced programs and say which bytes, from which place of the sender, are read.
-/

namespace NaiveGfs

open LittleEndian TwoParty

variable {κ : Type}

/-- Bytes sent at a place of a program. -/
def tagged {φ : Type} (pc : φ) (bs : List UInt8) : List (φ × UInt8) := bs.map fun b => (pc, b)

/-! ## The mac -/

section MacPhases

variable {words : List UInt32} {expected : MacPc → List (PiPc × UInt8)}
  {inbox : List (PiPc × UInt8)} {pc pc' : MacPc} {op id : UInt32}

theorem mac_put {w : UInt32}
    (hact : macAct words ⟨pc, [], op, id⟩ = put32 ⟨pc, [], op, id⟩ w pc') (hne : pc' ≠ pc)
    (hreads : expected pc = []) :
    Conforms (macAct words) Mac.pc expected ⟨pc, [], op, id⟩ inbox ⟨pc', [], op, id⟩ inbox
      (tagged pc (bytes32 w)) := by
  refine Conforms.of_leave fun history => ?_
  rw [show expected (Mac.pc ⟨pc, [], op, id⟩) = [] from hreads]
  simpa [tagged] using Runs.send_leave hact hne (Runs.refl _ inbox)

/-- A `get32` that reads a word and leaves its place. -/
theorem mac_get32 {w : UInt32} {q : PiPc} (next : UInt32 → Mac → Mac)
    (hact : ∀ op got, macAct words ⟨pc, got, op, id⟩ = get32 ⟨pc, got, op, id⟩ next)
    (hne : (next w ⟨pc, [], w, id⟩).pc ≠ pc) (hreads : expected pc = tagged q (bytes32 w)) :
    Conforms (macAct words) Mac.pc expected ⟨pc, [], op, id⟩ (tagged q (bytes32 w) ++ inbox)
      (next w ⟨pc, [], w, id⟩) inbox [] := by
  have hword : orBytes (byte32 w 0) (byte32 w 1) (byte32 w 2) (byte32 w 3) = w := by
    rw [orBytes_eq_word32, word32_byte32]
  refine Conforms.of_leave fun history => ?_
  rw [show expected (Mac.pc ⟨pc, [], op, id⟩) = tagged q (bytes32 w) from hreads]
  refine Runs.recv_stay (hact op []) rfl (Runs.recv_stay (hact op _) rfl
    (Runs.recv_stay (hact op _) rfl (Runs.recv_leave (hact op _) ?_ ?_)))
  · simpa [hword] using hne
  · simp only [List.nil_append, List.cons_append, hword]
    exact Runs.refl _ _

theorem mac_ack {q : PiPc}
    (hact : ∀ op got, macAct words ⟨pc, got, op, id⟩ = ackLoop ⟨pc, got, op, id⟩ pc')
    (hne : pc' ≠ pc) (hreads : expected pc = tagged q (bytes32 dummy)) :
    Conforms (macAct words) Mac.pc expected ⟨pc, [], op, id⟩ (tagged q uartPutDummy ++ inbox)
      ⟨pc', [], dummy, id⟩ inbox [] := by
  rw [uartPutDummy_eq]
  exact mac_get32 (fun op m => if op = dummy then { m with pc := pc' } else m) hact hne hreads

theorem mac_select {b : PiPc × UInt8} (hreads : expected .selectReady = []) :
    Conforms (macAct words) Mac.pc expected ⟨.selectReady, [], op, id⟩ (b :: inbox)
      ⟨.ackConfigInit, [], op, id⟩ (b :: inbox) [] := by
  refine Conforms.of_leave fun history => ?_
  rw [show expected (Mac.pc ⟨.selectReady, [], op, id⟩) = [] from hreads]
  exact Runs.await_leave rfl (by simp) (Runs.refl _ _)

end MacPhases

/-! ## The pi -/

section PiPhases

variable {env : PiEnv κ} {expected : PiPc → List (MacPc × UInt8)}
  {inbox : List (MacPc × UInt8)} {p p' : Pi κ}

theorem pi_tau (hact : piAct env p = .tau p') (hne : p'.pc ≠ p.pc)
    (hreads : expected p.pc = []) :
    Conforms (piAct env) Pi.pc expected p inbox p' inbox [] := by
  refine Conforms.of_leave fun history => ?_
  rw [hreads]
  exact Runs.tau_leave hact hne (Runs.refl _ _)

/-- The calls of `uart_put8` at one place. -/
theorem pi_out (p : Pi κ) (bs : List UInt8) (reading : List (MacPc × UInt8))
    (history : List (PiPc × List (MacPc × UInt8))) :
    Runs (traceAct (piAct env) Pi.pc) ⟨{ p with out := bs }, reading, history⟩ inbox
      ⟨{ p with out := [] }, reading, history⟩ inbox (tagged p.pc bs) := by
  induction bs with
  | nil => exact Runs.refl _ _
  | cons b bs ih =>
    have hact : piAct env { p with out := b :: bs } = .send [b] { p with out := bs } := rfl
    exact Runs.send_stay hact rfl ih

/-- A place that sends bytes and is then left. -/
theorem pi_put (hact : piAct env { p with out := [] } = .tau p') (hne : p'.pc ≠ p.pc)
    (hreads : expected p.pc = []) :
    Conforms (piAct env) Pi.pc expected p inbox p' inbox (tagged p.pc p.out) := by
  refine Conforms.of_leave fun history => ?_
  rw [hreads, ← List.append_nil (tagged p.pc p.out)]
  exact (pi_out p p.out [] history).trans (Runs.tau_leave hact hne (Runs.refl _ _))

/-- A place that shifts four bytes into a window and is then left. -/
theorem pi_shift (st : ℕ → UInt32 → Pi κ) (op : UInt32) {w : UInt32} {pc : PiPc} {q : MacPc}
    (hpc : ∀ k v, (st k v).pc = pc)
    (hrecv : ∀ k < 4, piAct env (st k (window op w k)) =
      .recv fun b => st (k + 1) (shiftIn (window op w k) b))
    (htau : piAct env (st 4 w) = .tau p') (hne : p'.pc ≠ pc)
    (hreads : expected pc = tagged q (bytes32 w)) :
    Conforms (piAct env) Pi.pc expected (st 0 op) (tagged q (bytes32 w)) p' [] [] := by
  refine Conforms.of_leave fun history => ?_
  rw [hpc, hreads]
  have hstep : ∀ k (_ : k < 4) {reading rest : List (MacPc × UInt8)}
      {t : Traced (Pi κ) PiPc (MacPc × UInt8)} {out : List (PiPc × UInt8)},
      Runs (traceAct (piAct env) Pi.pc)
        ⟨st (k + 1) (window op w (k + 1)), reading ++ [(q, byte32 w k)], history⟩ rest
        t [] out →
      Runs (traceAct (piAct env) Pi.pc) ⟨st k (window op w k), reading, history⟩
        ((q, byte32 w k) :: rest) t [] out := by
    intro k hk reading rest t out h
    rw [window_succ op w hk] at h
    exact Runs.recv_stay (hrecv k hk) ((hpc _ _).trans (hpc _ _).symm) h
  refine hstep 0 (by decide) (hstep 1 (by decide) (hstep 2 (by decide) (hstep 3 (by decide) ?_)))
  rw [window_four]
  refine Runs.tau_leave htau (by rwa [hpc]) ?_
  rw [hpc]
  exact Runs.refl _ _

/-- The window of a wait loop does not show the command before its last byte. -/
def ShowsLast (op cmd : UInt32) : Prop := ∀ k < 4, window op cmd k ≠ cmd

instance (op cmd : UInt32) : Decidable (ShowsLast op cmd) :=
  inferInstanceAs (Decidable (∀ k < 4, _))

/-- A wait loop that reads its command and ends on it. -/
theorem pi_wait {cmd : UInt32} {q : MacPc} (next : Pi κ → Pi κ) (hshows : ShowsLast p.op cmd)
    (hact : ∀ op, piAct env { p with op := op } =
      waitFor { p with op := op } cmd (next { p with op := op }))
    (hne : (next { p with op := cmd }).pc ≠ p.pc)
    (hreads : expected p.pc = tagged q (bytes32 cmd)) :
    Conforms (piAct env) Pi.pc expected p (tagged q (bytes32 cmd)) (next { p with op := cmd })
      [] [] := by
  refine pi_shift (fun _ op => { p with op := op }) p.op (fun _ _ => rfl) (fun k hk => ?_) ?_
    hne hreads
  · rw [hact, waitFor, if_neg (hshows k hk)]
  · rw [hact, waitFor, if_pos rfl]

end PiPhases

end NaiveGfs
