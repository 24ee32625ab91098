import NaiveGfs.Mac.GetPiOutput
import NaiveGfs.Words.PrefixMatcher

/-!
# Whose exit string it is

`pi_done_scan` keeps one position for all pies. The pies are read one after the other, each
until it is reaped, so the matcher works on the bytes of all of them since one was last done
(`carried`). A completed string leaves the position behind its last letter, and from there on
bytes are compared with the terminating zero and the memory behind the array; the matcher
starts over at the first byte that differs (`scannedBytes`). So a pi is reaped on its own exit
string if no string is put together from the bytes of several pies, and none is lost because
its first letters are taken for that memory.
-/

namespace NaiveGfs

open PrefixMatcher

variable {behind : ℕ → UInt8} {pies : List MacPi} {reads : List PiRead} {s s' : OutputState}

/-! ## The streams -/

/-- All the bytes that have been read from a pi. -/
def piStream (reads : List PiRead) (pi : ℕ) : List UInt8 :=
  (reads.filter fun r => r.pi == pi).flatMap PiRead.data

/-- The exit string is somewhere in the bytes of the pi, once `r` has been read. -/
def Completes (reads : List PiRead) (r : PiRead) : Prop :=
  exitString <:+: piStream reads r.pi ++ r.data

instance (reads : List PiRead) (r : PiRead) : Decidable (Completes reads r) :=
  inferInstanceAs (Decidable (_ <:+: _))

/-- The bytes of all pies since one of them last completed its own exit string, and whether
one of them has. -/
structure Carried where
  reads : List PiRead
  exited : Bool
  bytes : List UInt8

/-- One more read. -/
def carryRead (acc : Carried) (r : PiRead) : Carried :=
  if Completes acc.reads r then ⟨acc.reads ++ [r], true, []⟩
  else ⟨acc.reads ++ [r], acc.exited, acc.bytes ++ r.data⟩

/-- What is carried over from some reads to the next one. -/
def carried (reads : List PiRead) : Carried := reads.foldl carryRead ⟨[], false, []⟩

/-- The bytes without those in front that equal the memory at `exit_string + i`. -/
def skipMemory (behind : ℕ → UInt8) : ℕ → List UInt8 → List UInt8
  | _, [] => []
  | i, c :: bytes =>
    if c = exitByte behind i then skipMemory behind (i + 1) bytes else c :: bytes

/-- The bytes in which the scan looks for the exit string. Once one has been completed, it
begins behind the bytes that equal the memory behind the letters of the string. -/
def scannedBytes (behind : ℕ → UInt8) (exited : Bool) (bytes : List UInt8) : List UInt8 :=
  if exited then skipMemory behind exitString.length bytes else bytes

/-- The bytes in which the scan looks for the exit string during a read. -/
def scannedAt (behind : ℕ → UInt8) (before : List PiRead) (r : PiRead) : List UInt8 :=
  scannedBytes behind (carried before).exited ((carried before).bytes ++ r.data)

/-- Every property `P` of a read and the reads before it holds of all reads. -/
def AtEachRead (reads : List PiRead) (P : List PiRead → PiRead → Prop) : Prop :=
  ∀ before r after, reads = before ++ r :: after → P before r

/-- Each pi is reaped by the check for the exit string in the read that delivers the end of
the first exit string in its own bytes, and in no other. -/
def OwnExits (reads : List PiRead) : Prop :=
  AtEachRead reads fun before r =>
    r.done = true ↔ ¬ exitString <:+: piStream before r.pi ∧ Completes before r

/-- No exit string is put together from the bytes of several pies: where a read completes one
in the bytes of all pies since one was last done, it completes one of its own. -/
def NoForeignExit (behind : ℕ → UInt8) (reads : List PiRead) : Prop :=
  AtEachRead reads fun before r => exitString <:+: scannedAt behind before r → Completes before r

/-- No exit string of a pi begins in bytes that equal the memory behind the array: where a read
completes one of its own, it is in the bytes behind these. -/
def NoLostExit (behind : ℕ → UInt8) (reads : List PiRead) : Prop :=
  AtEachRead reads fun before r => Completes before r → exitString <:+: scannedAt behind before r

theorem atEachRead_concat {r : PiRead} {P : List PiRead → PiRead → Prop} :
    AtEachRead (reads ++ [r]) P ↔ AtEachRead reads P ∧ P reads r :=
  forall_split_concat

theorem reads_foldl_carryRead (reads : List PiRead) :
    ∀ acc, (reads.foldl carryRead acc).reads = acc.reads ++ reads := by
  induction reads with
  | nil => simp
  | cons r reads ih =>
    intro acc
    have hone : (carryRead acc r).reads = acc.reads ++ [r] := by
      rw [carryRead]
      split <;> rfl
    rw [List.foldl_cons, ih, hone, List.append_assoc]
    rfl

theorem carried_concat (reads : List PiRead) (r : PiRead) :
    carried (reads ++ [r]) =
      if Completes reads r then ⟨reads ++ [r], true, []⟩
      else ⟨reads ++ [r], (carried reads).exited, (carried reads).bytes ++ r.data⟩ := by
  have hreads : (carried reads).reads = reads := reads_foldl_carryRead reads _
  have hstep : carried (reads ++ [r]) = carryRead (carried reads) r := by
    rw [carried, List.foldl_append]
    rfl
  rw [hstep, carryRead, hreads]

theorem piStream_concat_self (reads : List PiRead) (r : PiRead) :
    piStream (reads ++ [r]) r.pi = piStream reads r.pi ++ r.data := by
  simp [piStream]

theorem piStream_concat_of_ne (reads : List PiRead) {r : PiRead} {pi : ℕ} (h : r.pi ≠ pi) :
    piStream (reads ++ [r]) pi = piStream reads pi := by
  simp [piStream, h]

/-! ## The scan of a chunk -/

/-- The first letter of the exit string occurs once. -/
theorem exitString_first : (0x44 : UInt8) ∉ ([0x4f, 0x4e, 0x45, 0x21, 0x21, 0x21, 0x0a] :
    List UInt8) := by decide

/-- One call is one letter of the matcher, unless the string is complete and the byte is the
zero behind it. -/
theorem piDoneScan_eq_advance (behind : ℕ → UInt8) {idx : ℕ} (hidx : idx ≤ exitString.length)
    {c : UInt8} (hc : idx = exitString.length → c ≠ 0) :
    piDoneScan behind idx c =
      (advance exitString idx c, advance exitString idx c == exitString.length) := by
  have hzero : 0 < exitString.length := by decide
  have hfirst : (exitString[0]? = some c) = (c = exitByte behind 0) := by
    rw [exitByte, dif_pos hzero, List.getElem?_eq_getElem hzero, Option.some.injEq,
      eq_comm (a := c)]
  have hnext : (exitString[idx]? = some c) = (c = exitByte behind idx) := by
    by_cases hlt : idx < exitString.length
    · rw [exitByte, dif_pos hlt, List.getElem?_eq_getElem hlt, Option.some.injEq,
        eq_comm (a := c)]
    · obtain rfl : idx = exitString.length := by omega
      have hend : exitByte behind exitString.length = 0 := by simp [exitByte]
      simp [hend, hc rfl]
  rw [piDoneScan, advance]
  simp only [hfirst, hnext]

theorem piDoneScan_of_lt {idx : ℕ} (hidx : idx < exitString.length) (c : UInt8) :
    piDoneScan behind idx c =
      (advance exitString idx c, advance exitString idx c == exitString.length) :=
  piDoneScan_eq_advance behind hidx.le fun he => absurd he hidx.ne

/-- Inside the string the loop over a chunk is the matcher. -/
theorem scanData_of_lt (behind : ℕ → UInt8) {idx : ℕ} (hidx : idx < exitString.length)
    (data : List UInt8) :
    scanData behind idx data = PrefixMatcher.scan exitString idx data := by
  induction data generalizing idx with
  | nil => rfl
  | cons c data ih =>
    rw [scanData, PrefixMatcher.scan, piDoneScan_of_lt hidx]
    by_cases hfull : advance exitString idx c = exitString.length
    · rw [if_pos hfull, hfull]
      rfl
    · have hne : (advance exitString idx c == exitString.length) = false := by simpa using hfull
      have hlt : advance exitString idx c < exitString.length := by
        have hle : advance exitString idx c ≤ exitString.length := by
          rw [advance]
          split
          · omega
          · split <;> decide
        omega
      rw [if_neg hfull, hne]
      exact ih hlt

/-- Behind the string the scan takes the bytes that equal the memory there for letters, and
starts over at the first one that does not. -/
theorem scanData_memory (behind : ℕ → UInt8) {i : ℕ} (hi : exitString.length ≤ i)
    (data : List UInt8) :
    (skipMemory behind i data = [] ∧ scanData behind i data = (i + data.length, false)) ∨
      (skipMemory behind i data ≠ [] ∧
        scanData behind i data = scanData behind 0 (skipMemory behind i data)) := by
  induction data generalizing i with
  | nil => exact Or.inl ⟨rfl, rfl⟩
  | cons c data ih =>
    rw [skipMemory]
    by_cases hc : c = exitByte behind i
    · have hover : (i + 1 == exitString.length) = false := by
        simp only [beq_eq_false_iff_ne]
        omega
      have hstep : scanData behind i (c :: data) = scanData behind (i + 1) data := by
        rw [scanData, piDoneScan, if_pos hc, hover]
      rw [if_pos hc, hstep, List.length_cons, Nat.add_comm data.length, ← Nat.add_assoc]
      exact ih (by omega)
    · have hsame : piDoneScan behind i c = piDoneScan behind 0 c := by
        rw [piDoneScan, piDoneScan, if_neg hc]
        by_cases hfirst : c = exitByte behind 0
        · simp [hfirst]
        · simp [hfirst]
      rw [if_neg hc]
      exact Or.inr ⟨List.cons_ne_nil c data, by rw [scanData, scanData, hsame]⟩

theorem skipMemory_append (behind : ℕ → UInt8) (i : ℕ) (xs ys : List UInt8) :
    skipMemory behind i (xs ++ ys) =
      if skipMemory behind i xs = [] then skipMemory behind (i + xs.length) ys
      else skipMemory behind i xs ++ ys := by
  induction xs generalizing i with
  | nil => simp [skipMemory]
  | cons c xs ih =>
    rw [List.cons_append, skipMemory, skipMemory, List.length_cons]
    by_cases hc : c = exitByte behind i
    · rw [if_pos hc, if_pos hc, ih, Nat.add_comm xs.length, ← Nat.add_assoc]
    · rw [if_neg hc, if_neg hc, if_neg (List.cons_ne_nil c xs), List.cons_append]

/-! ## Runs -/

/-- What `idx` says of the bytes that are carried over: all of them behind a completed string
have been taken for the memory there, or `idx` letters of the string end those that were
scanned. -/
def Matching (behind : ℕ → UInt8) (exited : Bool) (bytes : List UInt8) (idx : ℕ) : Prop :=
  (exited = true ∧ skipMemory behind exitString.length bytes = [] ∧
    idx = exitString.length + bytes.length) ∨
  (idx < exitString.length ∧
    (exited = true → skipMemory behind exitString.length bytes ≠ []) ∧
    Tracks exitString (scannedBytes behind exited bytes) idx ∧
    ¬ exitString <:+: scannedBytes behind exited bytes)

/-- Once a byte has differed from the memory, all that follow are scanned. -/
theorem scannedBytes_append {exited : Bool} {bytes : List UInt8}
    (h : exited = true → skipMemory behind exitString.length bytes ≠ []) (data : List UInt8) :
    scannedBytes behind exited (bytes ++ data) = scannedBytes behind exited bytes ++ data := by
  rw [scannedBytes, scannedBytes]
  cases exited with
  | false => rfl
  | true => rw [if_pos rfl, if_pos rfl, skipMemory_append, if_neg (h rfl)]

/-- The check of a chunk reports the exit string exactly when the bytes that are scanned
contain it, and otherwise still says what it has seen. -/
theorem Matching.scanData {exited : Bool} {bytes : List UInt8} {idx : ℕ}
    (h : Matching behind exited bytes idx) (data : List UInt8) :
    (scanData behind idx data = (exitString.length, true) ∧
      exitString <:+: scannedBytes behind exited (bytes ++ data)) ∨
    ∃ k, scanData behind idx data = (k, false) ∧ Matching behind exited (bytes ++ data) k ∧
      ¬ exitString <:+: scannedBytes behind exited (bytes ++ data) := by
  rcases h with ⟨rfl, hskip, rfl⟩ | ⟨hlt, hmore, htracks, hnot⟩
  · have happend := skipMemory_append behind exitString.length bytes data
    rw [if_pos hskip] at happend
    rw [scannedBytes, if_pos rfl, happend]
    rcases scanData_memory behind (Nat.le_add_right _ bytes.length) data with
      ⟨hnil, hscan⟩ | ⟨hsome, hscan⟩
    · -- still in the memory behind the array
      rw [hnil, List.infix_nil]
      refine Or.inr ⟨_, hscan, Or.inl ⟨rfl, happend.trans hnil, ?_⟩, by decide⟩
      rw [List.length_append, Nat.add_assoc]
    · rw [hscan, scanData_of_lt behind (by decide)]
      rcases (Tracks.nil exitString).scan exitString_first (by decide) (by decide)
          (skipMemory behind (exitString.length + bytes.length) data) with
        ⟨hfound, hin⟩ | ⟨k, hfound, hlt, htracks, hnot⟩
      · exact Or.inl ⟨hfound, hin⟩
      · refine Or.inr ⟨k, hfound, Or.inr ⟨hlt, fun _ => happend ▸ hsome, ?_, ?_⟩, hnot⟩
        · rw [scannedBytes, if_pos rfl, happend]
          exact htracks
        · rw [scannedBytes, if_pos rfl, happend]
          exact hnot
  · have happend := scannedBytes_append hmore data
    rw [happend, scanData_of_lt behind hlt]
    rcases htracks.scan exitString_first hlt hnot data with
      ⟨hfound, hin⟩ | ⟨k, hfound, hlt, htracks, hnot⟩
    · exact Or.inl ⟨hfound, hin⟩
    · refine Or.inr ⟨k, hfound, Or.inr ⟨hlt, fun hexited => ?_, ?_, ?_⟩, hnot⟩
      · rw [skipMemory_append, if_neg (hmore hexited)]
        exact List.append_ne_nil_of_left_ne_nil (hmore hexited) data
      · rw [happend]
        exact htracks
      · rw [happend]
        exact hnot

/-- What holds between two steps while every pi has been reaped on its own exit string: the
pies are read in order, and the one whose turn it is has not sent the exit string. -/
structure OutputInv (behind : ℕ → UInt8) (reads : List PiRead) (s : OutputState) : Prop where
  matching : Matching behind (carried reads).exited (carried reads).bytes s.idx
  selected : ∀ k, s.Selected k → firstOpen s.pies = some k
  active : ∀ k, firstOpen s.pies = some k → ¬ exitString <:+: piStream reads k
  fresh : ∀ k, firstOpen s.pies = some k → ∀ q, k < q → piStream reads q = []

/-- The bytes of the selected pi do not contain the exit string yet. -/
theorem OutputInv.not_infix (h : OutputInv behind reads s) {k : ℕ} (hk : s.Selected k) :
    ¬ exitString <:+: piStream reads k :=
  h.active k (h.selected k hk)

/-- Reaping the pi whose turn it is passes the turn to one that has not been read. -/
theorem OutputInv.reaped (h : OutputInv behind reads s) {k m : ℕ} (hk : s.Selected k)
    (hm : firstOpen (reapPi s.pies k) = some m) : k < m ∧ ∀ q, m ≤ q → piStream reads q = [] := by
  have hlt := firstOpen_reapPi (h.selected k hk) hm
  exact ⟨hlt, fun q hq => h.fresh k (h.selected k hk) q (by omega)⟩

/-- One read while the property holds: the pi is reaped exactly on its own exit string if and
only if the bytes that are scanned contain the exit string when its own do. -/
theorem OutputInv.read_iff (h : OutputInv behind reads s) {r : PiRead} (hk : s.Selected r.pi)
    (hdone : r.done = (NaiveGfs.scanData behind s.idx r.data).2) :
    (r.done = true ↔ ¬ exitString <:+: piStream reads r.pi ∧ Completes reads r) ↔
      (exitString <:+: scannedAt behind reads r → Completes reads r) ∧
        (Completes reads r → exitString <:+: scannedAt behind reads r) := by
  have hreport : r.done = true ↔ exitString <:+: scannedAt behind reads r := by
    rw [hdone, scannedAt]
    rcases h.matching.scanData r.data with ⟨hscan, hin⟩ | ⟨k, hscan, -, hin⟩
    · simp [hscan, hin]
    · simp [hscan, hin]
  rw [hreport, and_iff_right (h.not_infix hk)]
  exact iff_def

/-- A chunk read while the property holds keeps the invariant. -/
theorem OutputInv.read (h : OutputInv behind reads s) {r : PiRead} (hk : s.Selected r.pi)
    (hdone : r.done = (NaiveGfs.scanData behind s.idx r.data).2)
    (hown : r.done = true ↔ ¬ exitString <:+: piStream reads r.pi ∧ Completes reads r)
    (hidx : s'.idx = (NaiveGfs.scanData behind s.idx r.data).1)
    (hnext : if (NaiveGfs.scanData behind s.idx r.data).2 then
        s'.pies = reapPi s.pies r.pi ∧ ∀ m, ¬ s'.Selected m
      else s'.pies = s.pies ∧ ∀ m, s'.Selected m → m = r.pi) :
    OutputInv behind (reads ++ [r]) s' := by
  rcases h.matching.scanData r.data with ⟨hscan, -⟩ | ⟨k, hscan, hmatching, -⟩
  · -- the pi has completed its own exit string, and the turn passes on
    rw [hscan] at hdone hidx hnext
    rw [if_pos rfl] at hnext
    have hc : Completes reads r := (hown.mp hdone).2
    have hfresh : ∀ m, firstOpen s'.pies = some m → ∀ q, m ≤ q →
        piStream (reads ++ [r]) q = [] := by
      intro m hm q hq
      rw [hnext.1] at hm
      obtain ⟨hlt, hlater⟩ := h.reaped hk hm
      rw [piStream_concat_of_ne _ (by omega)]
      exact hlater q hq
    refine ⟨?_, fun m hm => absurd hm (hnext.2 m), fun m hm => ?_, fun m hm q hq => ?_⟩
    · rw [carried_concat, if_pos hc, hidx]
      exact Or.inl ⟨rfl, rfl, rfl⟩
    · rw [hfresh m hm m (le_refl m)]
      decide
    · exact hfresh m hm q hq.le
  · -- the bytes are carried over, and it stays this pi's turn
    rw [hscan] at hdone hidx hnext
    rw [if_neg (by simp)] at hnext
    have hc : ¬ Completes reads r := by
      intro hc
      rw [hdone] at hown
      exact absurd (hown.mpr ⟨h.not_infix hk, hc⟩) (by simp)
    have hturn := h.selected r.pi hk
    refine ⟨?_, fun m hm => ?_, fun m hm => ?_, fun m hm q hq => ?_⟩
    · rw [carried_concat, if_neg hc, hidx]
      exact hmatching
    · rw [hnext.1, hnext.2 m hm]
      exact hturn
    · rw [hnext.1, hturn] at hm
      obtain rfl := Option.some.inj hm
      rw [piStream_concat_self]
      exact hc
    · rw [hnext.1, hturn] at hm
      obtain rfl := Option.some.inj hm
      rw [piStream_concat_of_ne _ (by omega)]
      exact h.fresh r.pi hturn q hq

/-- The invariant holds after every run in which each pi was reaped on its own exit string. -/
theorem OutputRun.inv (hrun : OutputRun behind pies reads s) (hown : OwnExits reads) :
    OutputInv behind reads s := by
  induction hrun with
  | start =>
    have hlt : (OutputState.start pies).idx < exitString.length := Nat.zero_lt_succ _
    have hnone : scannedBytes behind (carried []).exited (carried []).bytes = [] := rfl
    refine ⟨Or.inr ⟨hlt, fun hexited => ?_, Tracks.nil _, ?_⟩, ?_, ?_, ?_⟩
    · exact absurd hexited (by decide)
    · rw [hnone]
      decide
    · exact fun k hk => absurd hk not_selected_enterRound
    · exact fun k _ => by simp [piStream, exitString]
    · exact fun _ _ _ _ => rfl
  | @step reads s s' r hrun hstep ih =>
    rcases OutputState.step_cases hstep with
      ⟨k, data, hk, -, hreads, hidx, hnext⟩ | ⟨hreads, hidx, hsel, k, hk, hpies⟩ |
      ⟨hreads, hidx, hpies, hsel⟩
    · rw [hreads] at hown ⊢
      obtain ⟨hown, hlast⟩ := atEachRead_concat.mp hown
      exact (ih hown).read hk rfl hlast hidx hnext
    · -- a pi that cannot be read is reaped, and the turn passes on
      rw [hreads, List.append_nil] at hown ⊢
      have h := ih hown
      refine ⟨by rw [hidx]; exact h.matching, fun m hm => absurd hm (hsel m), ?_, ?_⟩
      · intro m hm
        rw [hpies] at hm
        rw [(h.reaped hk hm).2 m (le_refl m)]
        decide
      · intro m hm q hq
        rw [hpies] at hm
        exact (h.reaped hk hm).2 q hq.le
    · rw [hreads, List.append_nil] at hown ⊢
      have h := ih hown
      refine ⟨by rw [hidx]; exact h.matching, ?_, ?_, ?_⟩
      · intro m hm
        rw [hpies]
        exact (hsel m hm).elim (h.selected m) id
      · rw [hpies]
        exact h.active
      · rw [hpies]
        exact h.fresh

/-- In every run of `get_pi_output`, whatever lies behind the array of the scan, each pi is
reaped by the check exactly on the end of the first exit string of its own, if and only if no
exit string is put together from the bytes of several pies and none is lost because it begins
in bytes that equal the memory behind the array. -/
theorem output_ownExits_iff (hrun : OutputRun behind pies reads s) :
    OwnExits reads ↔ NoForeignExit behind reads ∧ NoLostExit behind reads := by
  induction hrun with
  | start =>
    have hnone : ∀ P, AtEachRead [] P := by
      intro P before r after he
      simp at he
    exact ⟨fun _ => ⟨hnone _, hnone _⟩, fun _ => hnone _⟩
  | @step reads s s' r hrun hstep ih =>
    rcases OutputState.step_cases hstep with ⟨k, data, hk, -, hreads, -, -⟩ | ⟨hreads, -⟩ |
      ⟨hreads, -⟩
    · rw [hreads, OwnExits, NoForeignExit, NoLostExit, atEachRead_concat, atEachRead_concat,
        atEachRead_concat]
      constructor
      · rintro ⟨hown, hlast⟩
        obtain ⟨hforeign, hlost⟩ := ih.mp hown
        obtain ⟨hforeign', hlost'⟩ := ((hrun.inv hown).read_iff hk rfl).mp hlast
        exact ⟨⟨hforeign, hforeign'⟩, hlost, hlost'⟩
      · rintro ⟨⟨hforeign, hforeign'⟩, hlost, hlost'⟩
        have hown := ih.mpr ⟨hforeign, hlost⟩
        exact ⟨hown, ((hrun.inv hown).read_iff hk rfl).mpr ⟨hforeign', hlost'⟩⟩
    · rw [hreads, List.append_nil]
      exact ih
    · rw [hreads, List.append_nil]
      exact ih

/-! ## Two pies -/

/-- Two pies that are open. -/
def twoPies : List MacPi := [⟨true, 3⟩, ⟨true, 4⟩]

/-- They are booted and the first one is about to be read. -/
theorem twoPies_run (behind : ℕ → UInt8) :
    OutputRun behind twoPies [] ⟨twoPies, 0, .read 0 0⟩ := by
  have hstart : OutputRun behind twoPies [] ⟨twoPies, 0, .selectAll 0⟩ := .start
  exact hstart.step (r := .ready 1) rfl

/-- The second pi sends a zero in front of its exit string, behind that of the first. -/
def zeroBehindExit : List PiRead := [⟨0, exitString, true⟩, ⟨1, 0 :: exitString, true⟩]

theorem output_ownExits_iff_twoPies :
    OwnExits zeroBehindExit ↔
      NoForeignExit (fun _ => 0) zeroBehindExit ∧ NoLostExit (fun _ => 0) zeroBehindExit := by
  have hfirst : OutputRun (fun _ => 0) twoPies [⟨0, exitString, true⟩]
      ⟨[⟨false, 3⟩, ⟨true, 4⟩], 8, .selectAll 1⟩ :=
    (twoPies_run _).step (r := .readData exitString) rfl
  have hturn : OutputRun (fun _ => 0) twoPies [⟨0, exitString, true⟩]
      ⟨[⟨false, 3⟩, ⟨true, 4⟩], 8, .read 1 1⟩ := hfirst.step (r := .ready 1) rfl
  have hrun : OutputRun (fun _ => 0) twoPies zeroBehindExit
      ⟨[⟨false, 3⟩, ⟨false, 4⟩], 8, .returned⟩ :=
    hturn.step (r := .readData (0 :: exitString)) rfl
  exact output_ownExits_iff hrun

/-- The first pi sends `DONE` and cannot be read any more, and the second one is reaped when it
sends `!!!`. -/
theorem halfExit_reapsOther :
    OutputRun (fun _ => 0) twoPies
        [⟨0, [0x44, 0x4f, 0x4e, 0x45], false⟩, ⟨1, [0x21, 0x21, 0x21, 0x0a], true⟩]
        ⟨[⟨false, 3⟩, ⟨false, 4⟩], 8, .returned⟩ ∧
      ¬ OwnExits [⟨0, [0x44, 0x4f, 0x4e, 0x45], false⟩, ⟨1, [0x21, 0x21, 0x21, 0x0a], true⟩] := by
  constructor
  · have hhalf : OutputRun (fun _ => 0) twoPies [⟨0, [0x44, 0x4f, 0x4e, 0x45], false⟩]
        ⟨twoPies, 4, .selectOne 0 0⟩ :=
      (twoPies_run _).step (r := .readData [0x44, 0x4f, 0x4e, 0x45]) rfl
    have hmore : OutputRun (fun _ => 0) twoPies [⟨0, [0x44, 0x4f, 0x4e, 0x45], false⟩]
        ⟨twoPies, 4, .read 0 0⟩ := hhalf.step (r := .ready 1) rfl
    have hfailed : OutputRun (fun _ => 0) twoPies [⟨0, [0x44, 0x4f, 0x4e, 0x45], false⟩]
        ⟨[⟨false, 3⟩, ⟨true, 4⟩], 4, .selectAll 1⟩ := hmore.step (r := .readFailed) rfl
    have hother : OutputRun (fun _ => 0) twoPies [⟨0, [0x44, 0x4f, 0x4e, 0x45], false⟩]
        ⟨[⟨false, 3⟩, ⟨true, 4⟩], 4, .read 1 1⟩ := hfailed.step (r := .ready 1) rfl
    exact hother.step (r := .readData [0x21, 0x21, 0x21, 0x0a]) rfl
  · intro h
    have hown := (h [⟨0, [0x44, 0x4f, 0x4e, 0x45], false⟩] _ [] rfl).mp rfl
    exact absurd hown.2 (by decide)

end NaiveGfs
