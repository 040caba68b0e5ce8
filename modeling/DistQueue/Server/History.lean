import DistQueue.Proto.Setters
import DistQueue.Server.Queue

/-!
# The history

`job_array` and `history_putidx` with the sections that run under
`job_hist_mtx`. A record is owned by the one slot that points to it, so the
array holds the records themselves. The times are left out: they are written
and printed, and decide nothing.

`history_putidx` has 32 bits and the id it gives has 16. Everything that looks
a job up goes through `findJob`, which scans the array from slot 0 to the first
empty slot.
-/

namespace DistQueue

/-- `JOB_HISTORY_MAX` -/
def jobHistoryMax : Nat := 10

instance : NeZero jobHistoryMax := ⟨by decide⟩

/-- `JobHistory_t`. Every record is made together with a job; `addr` says with
which, and is what tells two submissions of one id apart. -/
structure JobHistory where
  addr : Ptr
  id : UInt16
  ipaddr : UInt32
  state : UInt8
  exitStatus : UInt8
  queueIdx : UInt8
  deriving DecidableEq, Repr

/-- `exit_status` is left as `malloc` returned it, and so is `id` until
`newJob` has the lock. -/
def setParamsNewJobHistory (jobHistory : JobHistory) (queueIdx : UInt16) (ipaddr : UInt32) :
    JobHistory :=
  { jobHistory with
    queueIdx := queueIdx.toUInt8
    ipaddr := ipaddr
    state := JobState.wait.toByte }

structure History where
  jobArray : Vector (Option JobHistory) jobHistoryMax
  putIdx : UInt32
  deriving DecidableEq, Repr

namespace History

/-- The part of `MainServerInit` that is about the history. -/
def init : History where
  jobArray := Vector.replicate jobHistoryMax none
  putIdx := 0

/-- The loop of `findJob` with `n` rounds to go. -/
def findFrom (jobArray : Vector (Option JobHistory) jobHistoryMax) (jobid : UInt16) :
    (n i : Nat) → Option Nat
  | 0, _ => none
  | n + 1, i =>
      match jobArray[i]? with
      | some (some job) => if job.id = jobid then some i else findFrom jobArray jobid n (i + 1)
      | _ => none

/-- `findJob`; `none` is its -1. -/
def findJob (h : History) (jobid : UInt16) : Option Nat :=
  findFrom h.jobArray jobid jobHistoryMax 0

/-- `job_array[idx]->…` -/
def record (h : History) (idx : Nat) : Except Fault JobHistory :=
  match h.jobArray[idx]? with
  | some (some job) => .ok job
  | _ => .error .invalidAccess

def setRecord (h : History) (idx : Nat) (job : JobHistory) : History :=
  { h with jobArray := h.jobArray.setIfInBounds idx (some job) }

/-- What the locked section of `newJob` leaves: the id it gave, and the record
it passed to `free`. -/
structure Numbering where
  history : History
  id : UInt16
  freed : Option JobHistory

/-- The test is made on the 16-bit id, so the first submissions after it wraps
free nothing. -/
def newJob (h : History) (jobHistory : JobHistory) : Numbering :=
  let id := h.putIdx.toUInt16
  have _h : id.toNat % jobHistoryMax < jobHistoryMax := Nat.mod_lt _ (Nat.pos_of_neZero _)
  { history :=
      { jobArray := h.jobArray.set (id.toNat % jobHistoryMax) (some { jobHistory with id := id })
        putIdx := h.putIdx + 1 }
    id := id
    freed := if jobHistoryMax ≤ id.toNat then h.jobArray[id.toNat % jobHistoryMax] else none }

/-- The section of `jobState`: what it puts in its reply, `none` for
`setBadParams`. -/
def jobState (h : History) (jobid : UInt16) : Except Fault (Option JobStateMsg) :=
  match h.findJob jobid with
  | none => .ok none
  | some idx => do
      let job ← h.record idx
      .ok (some { state := job.state, jobid := jobid, exitValue := job.exitStatus })

/-- The first section of `unsubmit`: the queue its job is in, if it is one that
can be given up. -/
def waitingIn (h : History) (jobid : UInt16) : Except Fault (Option JobHistory) :=
  match h.findJob jobid with
  | none => .ok none
  | some idx => do
      let job ← h.record idx
      .ok (if job.state = JobState.wait.toByte then some job else none)

/-- The last section of `unsubmit`, which uses what `findJob` returns as it
is. -/
def markUnsubmited (h : History) (jobid : UInt16) : Except Fault History :=
  match h.findJob jobid with
  | none => .error .invalidAccess
  | some idx => do
      let job ← h.record idx
      .ok (h.setRecord idx { job with state := JobState.unsubmited.toByte })

/-- The states the `switch` of `changeStateJob` has a case for. -/
def Reportable (state : UInt8) : Prop :=
  state = JobState.finished.toByte ∨ state = JobState.signaled.toByte ∨
    state = JobState.error.toByte ∨ state = JobState.run.toByte

instance (state : UInt8) : Decidable (Reportable state) :=
  inferInstanceAs (Decidable (_ ∨ _))

def changeStateJob (h : History) (jobid : UInt16) (state exitValue : UInt8) :
    Except Fault History :=
  match h.findJob jobid with
  | none => .ok h
  | some idx => do
      let job ← h.record idx
      if Reportable state then
        .ok (h.setRecord idx { job with state := state, exitStatus := exitValue })
      else .error .assertion

/-- The section of `putJobBack`; `none` sends it to `free(job)`. -/
def putJobBack (h : History) (jobid : UInt16) (queueIdx : UInt8) :
    Except Fault (Option History) :=
  match h.findJob jobid with
  | none => .ok none
  | some idx => do
      let job ← h.record idx
      .ok (some (h.setRecord idx { job with queueIdx := queueIdx }))

end History

end DistQueue
