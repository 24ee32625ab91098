import NaiveGfs.Dfs.IdExchange

/-!
# The protocol runs in lockstep

The whole of `dfs_boot` against `entry`, for a name that ends at a word. One schedule, the
rounds one after the other, leads to the end, and the steps of the two sides commute: no
interleaving gets stuck before, and in none does a side read anything but the bytes that the
other one sent for that place.
-/

namespace NaiveGfs

open LittleEndian TwoParty

variable {κ : Type}

/-- Both sides in front of their first statement. -/
def bootStart (id : UInt32) (dfsName : Fin 30 → UInt8) (vol : Volume) (dev : κ) : Link κ :=
  TracedConfig.start (Mac.start id) (Pi.start dfsName vol dev)

/-- What holds of a configuration that has been reached when the pi answers the id with
`answer` and claims the id `claimed`. -/
structure InStep (words : List UInt32) (env : PiEnv κ) (id : UInt32) (answer : List UInt8)
    (claimed : UInt8) (c : Link κ) : Prop where
  done_of_stuck : Stuck (traceAct (macAct words) Mac.pc) (traceAct (piAct env) Pi.pc) c →
    Done (TracedConfig.erase c)
  can_finish : ∃ t, LinkReaches words env c t ∧ Done (TracedConfig.erase t)
  pi_reads : Reads (piReads words id) c.right.history
  mac_reads : Reads (macReads answer claimed) c.left.history
  claimedId : c.left.state.pc = .returned → c.left.state.claimedId = claimed.toUInt32

theorem stuck_of_meets {words : List UInt32} (env : PiEnv κ) {id : UInt32} {answer : List UInt8}
    {claimed : UInt8} {m : Mac} {p : Pi κ} {rest : List (PiPc × UInt8)} {t : Link κ}
    (h : Meets (macReads answer claimed) (piReads words id) m p rest t) (hm : m.pc = .returned)
    (hp : p.pc = .returned) (hout : p.out = []) :
    Stuck (traceAct (macAct words) Mac.pc) (traceAct (piAct env) Pi.pc) t := by
  have hmac : macAct words t.left.state = .halt := by
    rw [h.left_state, macAct, hm]
  have hpi : piAct env t.right.state = .halt := by
    simp only [h.right_state, piAct, hout, hp]
  refine ⟨?_, ?_⟩
  · rw [traceAct_of_halt hmac]
    rfl
  · rw [traceAct_of_halt hpi]
    rfl

/-- Where one schedule has read what it should up to the end, every other one is in step. -/
theorem inStep_of_meets {words : List UInt32} {env : PiEnv κ} {id : UInt32} {answer : List UInt8}
    {claimed : UInt8} {m : Mac} {p : Pi κ} {rest : List (PiPc × UInt8)} {s t c : Link κ}
    (h : Meets (macReads answer claimed) (piReads words id) m p rest t) (hm : m.pc = .returned)
    (hp : p.pc = .returned) (hout : p.out = []) (hclaimed : m.claimedId = claimed.toUInt32)
    (ht : LinkReaches words env s t) (hc : LinkReaches words env s c) :
    InStep words env id answer claimed c := by
  have hstuck := stuck_of_meets env h hm hp hout
  have hct : LinkReaches words env c t := ht.of_final hstuck hc
  have hdone : Done (TracedConfig.erase t) := by
    refine ⟨?_, ?_, ?_⟩
    · exact (congrArg Mac.pc h.left_state).trans hm
    · exact (congrArg Pi.pc h.right_state).trans hp
    · exact (congrArg Pi.out h.right_state).trans hout
  obtain ⟨hleft, hright⟩ := Reaches.history_prefix hct
  refine ⟨fun hstuck' => ?_, ⟨t, hct, hdone⟩, fun e he => ?_, fun e he => ?_, fun hpc => ?_⟩
  · rw [ht.eq_of_stuck hstuck hc hstuck']
    exact hdone
  · exact h.right_reads e (hright.subset he)
  · exact h.left_reads e (hleft.subset he)
  · have hhalt : macAct words c.left.state = .halt := by rw [macAct, hpc]
    rw [← hct.left_eq_of_halt (traceAct_of_halt hhalt), h.left_state]
    exact hclaimed

/-- The schedule that runs the rounds one after the other. -/
theorem exists_bootRun {words ws : List UInt32} (hwords : words = ws ++ [0xffffffff])
    (hws : ∀ w ∈ ws, w ≠ 0xffffffff) (hlen : ws.length ≤ 6) (env : PiEnv κ) (id : UInt32)
    (dfsName : Fin 30 → UInt8) (vol : Volume) (dev : κ) :
    ∃ r dev', idForDfs env.drv (env.setup dev).1 (env.setup dev).2.1
        (putWords dfsName 0 words) (offeredId id).toNat env.stack (env.setup dev).2.2 =
          some (r, dev') ∧
      ∃ t m p rest, LinkReaches words env (bootStart id dfsName vol dev) t ∧
        Meets (macReads (answerBytes r) (claimedByte (offeredId id) r)) (piReads words id)
          m p rest t ∧
        m.pc = .returned ∧ m.claimedId = (claimedByte (offeredId id) r).toUInt32 ∧
        p.pc = .returned ∧ p.out = [] := by
  have hoffered : ((offeredId id).toNat : ℤ) ≠ -1 := by omega
  obtain ⟨r, dev', hassign⟩ := exists_idForDfs env.drv (env.setup dev).1 (env.setup dev).2.1
    (putWords dfsName 0 words) hoffered env.stack (env.setup dev).2.2
  refine ⟨r, dev', hassign, ?_⟩
  have hstart : Meets (macReads (answerBytes r) (claimedByte (offeredId id) r))
      (piReads words id) (Mac.start id) (Pi.start dfsName vol dev) []
      (bootStart id dfsName vol dev) := Meets.start _ _
  obtain ⟨c₁, hc₁, h₁⟩ := fsIdStart_round env (p := Pi.start dfsName vol dev) hstart
  have hfirst : sendStringPc words 0 = .putName ([] : List UInt32).length := by
    simp [sendStringPc, hwords]
  rw [hfirst] at h₁
  have hsplit : words = [] ++ ws ++ [0xffffffff] := hwords
  obtain ⟨c₂, hc₂, h₂⟩ :=
    name_rounds env (p := { Pi.start dfsName vol dev with op := fsIdStart }) hsplit hws
      (by simpa using hlen) h₁
  rw [← hwords] at h₂
  -- what the pi holds behind the name, and behind `dfs_init_config`
  let named : Pi κ := { Pi.start dfsName vol dev with
    op := fsIdStart, word := 0xffffffff, count := 4, dfsName := putWords dfsName 0 words }
  let mounted : Pi κ := { named with
    op := requestId, vol := (env.setup dev).1, cfgClusterNo := (env.setup dev).2.1,
    dev := (env.setup dev).2.2 }
  obtain ⟨c₃, hc₃, h₃⟩ := configInit_round env (p := named) rfl h₂
  obtain ⟨c₄, hc₄, h₄⟩ := requestId_round env (p := mounted) h₃
  obtain ⟨c₅, hc₅, h₅⟩ := id_round env (p := mounted) hassign h₄
  exact ⟨c₅, _, _, _, (((hc₁.trans hc₂).trans hc₃).trans hc₄).trans hc₅, h₅, rfl,
    word32_and_ff _ _ _ _, rfl, rfl⟩

/-- The two programs themselves: whatever they reach is a traced configuration in step, without
its tags and histories. -/
theorem exists_inStep {words ws : List UInt32} (hwords : words = ws ++ [0xffffffff])
    (hws : ∀ w ∈ ws, w ≠ 0xffffffff) (hlen : ws.length ≤ 6) {env : PiEnv κ} {id : UInt32}
    {dfsName : Fin 30 → UInt8} {vol : Volume} {dev : κ} {c : Config Mac (Pi κ) UInt8 UInt8}
    (hc : Reaches (macAct words) (piAct env)
      ⟨Mac.start id, Pi.start dfsName vol dev, [], []⟩ c) :
    ∃ answer claimed d, LinkReaches words env (bootStart id dfsName vol dev) d ∧
      TracedConfig.erase d = c ∧ InStep words env id answer claimed d := by
  obtain ⟨r, dev', -, t, m, p, rest, ht, hmeets, hm, hclaimed, hp, hout⟩ :=
    exists_bootRun hwords hws hlen env id dfsName vol dev
  have hstart : Reaches (macAct words) (piAct env)
      (TracedConfig.erase (bootStart id dfsName vol dev)) c := hc
  obtain ⟨d, hd, herase⟩ := hstart.exists_traced Mac.pc Pi.pc
  exact ⟨_, _, d, hd, herase, inStep_of_meets hmeets hm hp hout hclaimed ht hd⟩

/-- For a name that ends at a word, no interleaving of the two sides gets stuck before both
have returned, every place reads the bytes sent for it, and the mac reports the id byte that
the pi sent. -/
theorem boot_inStep {name : List UInt8} (hname : ∀ b ∈ name, ¬ IsEnd b)
    (hfour : name.length % 4 = 0) (hlow : 4 ≤ name.length) (hhigh : name.length ≤ 24)
    (env : PiEnv κ) (id : UInt32) (dfsName : Fin 30 → UInt8) (vol : Volume) (dev : κ) :
    ∃ r dev', idForDfs env.drv (env.setup dev).1 (env.setup dev).2.1
        (putWords dfsName 0 (sentWords name)) (offeredId id).toNat env.stack (env.setup dev).2.2 =
          some (r, dev') ∧
      ∀ c, LinkReaches (sentWords name) env (bootStart id dfsName vol dev) c →
        InStep (sentWords name) env id (answerBytes r) (claimedByte (offeredId id) r) c := by
  have hws := ne_ones_of_mem hname (n := name.length / 4) (fun i hi => by omega)
  obtain ⟨r, dev', hassign, t, m, p, rest, ht, hmeets, hm, hclaimed, hp, hout⟩ :=
    exists_bootRun (sentWords_of_aligned hname hfour) hws (by simp; omega) env id dfsName vol dev
  exact ⟨r, dev', hassign, fun c hc => inStep_of_meets hmeets hm hp hout hclaimed ht hc⟩

theorem boot_inStep_part :
    ∃ r dev', idForDfs sampleEnv.drv smallVolume 2
        (putWords (fun _ => 0) 0 (sentWords [0x70, 0x61, 0x72, 0x74])) (offeredId 3).toNat
        sampleEnv.stack ⟨fun _ => blankSector, []⟩ = some (r, dev') ∧
      ∀ c, LinkReaches (sentWords [0x70, 0x61, 0x72, 0x74]) sampleEnv
          (bootStart 3 (fun _ => 0) smallVolume ⟨fun _ => blankSector, []⟩) c →
        InStep (sentWords [0x70, 0x61, 0x72, 0x74]) sampleEnv 3 (answerBytes r)
          (claimedByte (offeredId 3) r) c :=
  boot_inStep (List.all_iff_forall_prop.mp (by decide)) (by decide) (by decide) (by decide)
    sampleEnv 3
    (fun _ => 0) smallVolume ⟨fun _ => blankSector, []⟩

end NaiveGfs
