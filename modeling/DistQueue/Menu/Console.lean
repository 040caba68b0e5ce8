import DistQueue.Menu.Servers
import DistQueue.Server.Console
import DistQueue.Server.Faults
import DistQueue.Server.Identity
import DistQueue.Server.Memory

/-!
# What the main server shows

The commands at the console look at the server while its threads go on, each
under the mutex of what it shows: `printHistoryJobs` at the history,
`printQueueJobs` at one queue. The number of a queue is checked against
`NUM_QUEUE_MAX`, whatever `atoi` makes of what was typed.

The times in the listing of the history are left out, as they are in its
records.
-/

namespace DistQueue

open DistQueue.Lib
open Client (atoi)

/-! ## The history -/

namespace History

/-- The loop of `printHistoryJobs` with `n` rounds to go: index and record. -/
def printRecords (h : History) : (n i : Nat) → Except Fault (List (Nat × JobHistory))
  | 0, _ => .ok []
  | n + 1, i => do
      let job ← h.record i
      let lines ← h.printRecords n (i + 1)
      .ok ((i, job) :: lines)

def printHistoryJobs (h : History) : Except Fault (List (Nat × JobHistory)) :=
  let idx := if jobHistoryMax ≤ h.putIdx.toNat then jobHistoryMax else h.putIdx.toNat
  h.printRecords idx 0

/-- What the lines say about an id. -/
def lookup (lines : List (Nat × JobHistory)) (jobid : UInt16) : Option JobStateMsg :=
  (lines.find? fun line => line.2.id = jobid).map fun line =>
    { state := line.2.state, jobid := jobid, exitValue := line.2.exitStatus }

section Print

variable {h : History} {n : Nat} {lines : List (Nat × JobHistory)}

/-- As long as the slots are filled, the loop prints them one by one. -/
theorem printRecords_ok : ∀ {n i : Nat}, (∀ c, i ≤ c → c < i + n → ∃ job, h.slot c = some job) →
    ∃ lines, h.printRecords n i = .ok lines ∧ lines.map Prod.fst = List.range' i n ∧
      ∀ line ∈ lines, h.slot line.1 = some line.2 := by
  intro n
  induction n with
  | zero => intro i _; exact ⟨[], rfl, rfl, fun line hline => by cases hline⟩
  | succ n ih =>
      intro i hfilled
      obtain ⟨job, hjob⟩ := hfilled i (Nat.le_refl _) (by omega)
      obtain ⟨lines, hlines, hidx, hslots⟩ :=
        ih (i := i + 1) fun c hc hlt => hfilled c (by omega) (by omega)
      have hrecord : h.record i = .ok job := by
        rw [record, slot_eq_some.mp hjob]
      refine ⟨(i, job) :: lines, ?_, ?_, ?_⟩
      · rw [printRecords, hrecord]
        show (h.printRecords n (i + 1)).bind _ = _
        rw [hlines]
        rfl
      · rw [List.map_cons, hidx, List.range'_succ]
      · intro line hline
        rcases List.mem_cons.mp hline with rfl | hline
        · exact hjob
        · exact hslots line hline

/-- The lines have the record of an id if they have its slot. -/
theorem lookup_eq (hinv : h.Inv n) {k : Nat} (hidx : lines.map Prod.fst = List.range k)
    (hslots : ∀ line ∈ lines, h.slot line.1 = some line.2) (jobid : UInt16) :
    lookup lines jobid = if slotOf jobid < k then (h.retained jobid).map fun job =>
      { state := job.state, jobid := jobid, exitValue := job.exitStatus } else none := by
  have hmem : ∀ line ∈ lines, line.2.id = jobid →
      line.1 = slotOf jobid ∧ h.retained jobid = some line.2 := by
    rintro ⟨c, job⟩ hline rfl
    have hc := hinv.congr c job (hslots _ hline)
    exact ⟨hc.symm, retained_eq_some.mpr ⟨hc ▸ hslots _ hline, rfl⟩⟩
  unfold lookup
  cases hfind : lines.find? fun line => line.2.id = jobid with
  | some line =>
      obtain ⟨hid, hline⟩ : line.2.id = jobid ∧ line ∈ lines :=
        ⟨by simpa using List.find?_some hfind, List.mem_of_find?_eq_some hfind⟩
      obtain ⟨hc, hret⟩ := hmem line hline hid
      have hlt : slotOf jobid < k := by
        rw [← hc, ← List.mem_range, ← hidx]
        exact List.mem_map_of_mem hline
      rw [if_pos hlt, hret]
      rfl
  | none =>
      split
      · next hlt =>
          cases hret : h.retained jobid with
          | none => rfl
          | some job =>
              obtain ⟨hslot, hid⟩ := retained_eq_some.mp hret
              rw [← List.mem_range, ← hidx] at hlt
              obtain ⟨line, hline, hc⟩ := List.mem_map.mp hlt
              have hjob := hslots line hline
              rw [hc, hslot] at hjob
              have hnot := List.find?_eq_none.mp hfind line hline
              rw [← Option.some.inj hjob, hid] at hnot
              exact absurd (decide_eq_true rfl) hnot
      · rfl

/-- `printHistoryJobs` prints a record for each of the first slots, and its list
says of every id what `jobState` answers, unless `history_putidx` has come round
and is below `JOB_HISTORY_MAX` again. -/
theorem printHistoryJobs_spec (hinv : h.Inv n) :
    ∃ lines, h.printHistoryJobs = .ok lines ∧
      lines.map Prod.fst = List.range (min jobHistoryMax (n % 2 ^ 32)) ∧
      (∀ line ∈ lines, h.slot line.1 = some line.2) ∧
      ((∀ jobid, h.jobState jobid = .ok (lookup lines jobid)) ↔
        n < 2 ^ 32 ∨ jobHistoryMax ≤ n % 2 ^ 32) := by
  have hputIdx : h.putIdx.toNat = n % 2 ^ 32 := by
    rw [hinv.next, UInt32.toNat_ofNat']
  have hcount : (if jobHistoryMax ≤ h.putIdx.toNat then jobHistoryMax else h.putIdx.toNat) =
      min jobHistoryMax (n % 2 ^ 32) := by
    rw [hputIdx, Nat.min_def]
  have hfilled : ∀ c, c < jobHistoryMax → c < n → ∃ job, h.slot c = some job := fun c hc hn =>
    Option.ne_none_iff_exists'.mp fun hnone => absurd ((hinv.filled c hc).mp hnone) (by omega)
  have hmod : n % 2 ^ 32 ≤ n := Nat.mod_le _ _
  obtain ⟨lines, hlines, hidx, hslots⟩ :=
    @printRecords_ok h (min jobHistoryMax (n % 2 ^ 32)) 0 fun c _ hc =>
      hfilled c (by omega) (by omega)
  rw [← List.range_eq_range'] at hidx
  refine ⟨lines, by rw [printHistoryJobs, hcount, hlines], hidx, hslots, ?_⟩
  have hlookup := lookup_eq hinv hidx hslots
  constructor
  · intro hall
    by_contra hwrapped
    -- The last slot is filled and not printed.
    obtain ⟨job, hjob⟩ := hfilled (jobHistoryMax - 1) (by decide) (by
      have : jobHistoryMax = 10 := rfl
      omega)
    have hslot := hinv.congr _ _ hjob
    have hret : h.retained job.id = some job :=
      retained_eq_some.mpr ⟨hslot.symm ▸ hjob, rfl⟩
    have hanswer := hall job.id
    rw [jobState_eq hinv, hret, hlookup, if_neg (by omega)] at hanswer
    cases hanswer
  · intro hwhole jobid
    rw [jobState_eq hinv, hlookup]
    split
    · rfl
    · next hnot =>
        have hlt := slotOf_lt jobid
        have hnone : h.slot (slotOf jobid) = none := (hinv.filled _ hlt).mpr (by omega)
        have hret : h.retained jobid = none := by
          rw [retained, hnone]
          rfl
        rw [hret]
        rfl

end Print

end History

/-- Whatever the server has been through, the list of its history is there to be
printed, and agrees with the answers its clients get exactly as long as no more
than `2 ^ 32` submissions were made, or the index has gone past the array
again. -/
theorem history_printed {N : Nat} [NeZero N] {s : Sys N}
    (h : Reach Sys.step anyStep (· = Sys.init N) s) :
    ∃ lines, s.server.history.printHistoryJobs = .ok lines ∧
      lines.map Prod.fst = List.range (min jobHistoryMax (submissions s.ops % 2 ^ 32)) ∧
      (∀ line ∈ lines, s.server.history.slot line.1 = some line.2) ∧
      ((∀ jobid, s.server.history.jobState jobid = .ok (History.lookup lines jobid)) ↔
        submissions s.ops < 2 ^ 32 ∨ jobHistoryMax ≤ submissions s.ops % 2 ^ 32) :=
  History.printHistoryJobs_spec (linked_of_reach h).inv

/-- Behind eleven submissions the list has the last ten. -/
theorem history_printed_eleven :
    ∃ s : Sys numQueueMax, submissions s.ops = 11 ∧
      ∃ lines, s.server.history.printHistoryJobs = .ok lines ∧
        lines.map Prod.fst = List.range (min jobHistoryMax (submissions s.ops % 2 ^ 32)) ∧
        (∀ line ∈ lines, s.server.history.slot line.1 = some line.2) ∧
        ((∀ jobid, s.server.history.jobState jobid = .ok (History.lookup lines jobid)) ↔
          submissions s.ops < 2 ^ 32 ∨ jobHistoryMax ≤ submissions s.ops % 2 ^ 32) := by
  obtain ⟨s, hr, heleven⟩ : ∃ s : Sys numQueueMax,
      Reach Sys.step anyStep (· = Sys.init numQueueMax) s ∧ submissions s.ops = 11 :=
    @reach_of_checkedRun _ _ _ _ _ _ elevenRun _ _ _ rfl (by decide +kernel)
  exact ⟨s, heleven, history_printed hr⟩

/-! ## The commands -/

/-- What a command prints. -/
inductive Shown
  | nothing
  | total (total : Int)
  | history (lines : List (Nat × JobHistory))
  | queue (listing : Listing)
  | badCommand
  deriving DecidableEq, Repr

/-- `int cmd = atoi(buff)`. For a number that an `int` has no room for the library
may give any other. -/
def atoiInt (wide : List UInt8 → Int32) (buff : List UInt8) : Int :=
  let value := atoi buff
  if -2 ^ 31 ≤ value ∧ value < 2 ^ 31 then value else (wide buff).toInt

/-- The branches of the loop in `main_server.c`. The total is printed with
`"%d"`; `behind` is what memory holds behind a block. -/
def ConsoleCommand.output {N : Nat} [NeZero N] (s : Sys N) (behind : Ptr → List UInt8)
    (wide : List UInt8 → Int32) : ConsoleCommand → Except Fault Shown
  | .stop => .ok .nothing
  | .total => .ok (.total s.server.history.putIdx.toInt32.toInt)
  | .jobs => s.server.history.printHistoryJobs.map .history
  | .queue buff =>
      if sizeofBuffer ≤ buff.length then .error .invalidAccess
      else
        let cmd := atoiInt wide buff
        if cmd < 0 ∨ (N : Int) ≤ cmd then .ok .badCommand
        else
          let listing := printQueueJobs (s.server.queue (queueAt cmd.toNat)) s.heap behind
          match listing.fault with
          | none => .ok (.queue listing)
          | some fault => .error fault
  | .bad => .ok .badCommand

section Shows

variable {N : Nat} [NeZero N] {s : Sys N} {behind : Ptr → List UInt8} {wide : List UInt8 → Int32}
  {arg : List UInt8}

end Shows

-- `2 ^ 32` is no queue's number, but an `int` may make it one.
example : atoi (chars ['4', '2', '9', '4', '9', '6', '7', '2', '9', '6']) = 2 ^ 32 ∧
    atoiInt (fun arg => .ofInt (atoi arg))
      (chars ['4', '2', '9', '4', '9', '6', '7', '2', '9', '6']) = 0 := by decide

end DistQueue
