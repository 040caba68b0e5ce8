import DistQueue.Lib.Ring
import DistQueue.Proto.Layout

/-!
# One queue

`Queue_t` and the three critical sections that touch it. Each section is a
function of the queue as it is when the mutex is taken: `putJob` and `getJob`
(the dequeue inside `sendJob`) answer `none` when their guard sends the caller
to `pthread_cond_wait`, `removeJob` runs its two loops as the source has them.

The queue holds pointers. Job blocks live on a heap of their own, where `free`
leaves the block in place and marks it: reading a freed block is a fault of
the model, not a value.
-/

namespace DistQueue

open DistQueue.Lib

/-- `MAX_JOBS_QUEUE` -/
def maxJobsQueue : Nat := 15

instance : NeZero maxJobsQueue := ⟨by decide⟩

/-- Why a step has no result. -/
inductive Fault
  /-- A freed or never assigned pointer, or an index outside of its array. -/
  | invalidAccess
  /-- `assert(0)` -/
  | assertion
  deriving DecidableEq, Repr

/-- `Job_t` -/
structure Job where
  id : UInt16
  port : UInt16
  ipaddr : UInt32
  execFile : List UInt8
  workingDir : List UInt8
  deriving DecidableEq, Repr

/-! ## The heap of jobs -/

/-- What `malloc` returned for a job: its position in the order of the calls. -/
abbrev Ptr := Nat

structure Cell where
  job : Job
  freed : Bool
  deriving DecidableEq, Repr

abbrev Heap := List Cell

/-- Reading through a pointer; `none` for a block that is not allocated. -/
def Heap.load (heap : Heap) (p : Ptr) : Option Job :=
  match heap[p]? with
  | some ⟨job, false⟩ => some job
  | _ => none

/-- `job->…` -/
def Heap.deref (heap : Heap) (p : Ptr) : Except Fault Job :=
  match heap.load p with
  | some job => .ok job
  | none => .error .invalidAccess

/-- `malloc` and the initialising stores. -/
def Heap.malloc (heap : Heap) (job : Job) : Heap := heap ++ [⟨job, false⟩]

def Heap.store (heap : Heap) (p : Ptr) (job : Job) : Heap := heap.set p ⟨job, false⟩

/-- `free`; the contents stay for the record, out of reach of `load`. -/
def Heap.free (heap : Heap) (p : Ptr) : Heap :=
  heap.modify p fun c => { c with freed := true }

/-! ## The queue -/

/-- A slot that was never written holds `none`; the two condition variables
and the mutex are the business of the threads. -/
structure Queue where
  jobs : Vector (Option Ptr) maxJobsQueue
  putIdx : UInt32
  getIdx : UInt32
  state : UInt8
  deriving DecidableEq, Repr

/-- `QueueInit` -/
def Queue.init : Queue where
  jobs := Vector.replicate maxJobsQueue none
  putIdx := 0
  getIdx := 0
  state := QueueState.avail.toByte

namespace Queue

/-- `put_idx - get_idx`, in the unsigned arithmetic of the source. -/
def count (q : Queue) : Nat := (q.putIdx - q.getIdx).toNat

/-- The slot an index names. -/
def slot (i : UInt32) : Nat := i.toNat % maxJobsQueue

theorem slot_lt (i : UInt32) : slot i < maxJobsQueue := Nat.mod_lt _ (Nat.pos_of_neZero _)

/-- The pointer in the slot that an index names. -/
def jobAt (q : Queue) (i : UInt32) : Option Ptr :=
  have _h := slot_lt i
  q.jobs[slot i]

/-- The live slots in queue order: `jobs[(get_idx + i) % MAX_JOBS_QUEUE]`. -/
def live (q : Queue) : List (Option Ptr) :=
  (List.range q.count).map fun i => q.jobAt (q.getIdx + UInt32.ofNat i)

/-- `putJob` past its guard. -/
def put (q : Queue) (newJob : Ptr) : Queue where
  jobs := q.jobs.set (slot q.putIdx) (some newJob) (slot_lt _)
  putIdx := q.putIdx + 1
  getIdx := q.getIdx
  state := if q.count = maxJobsQueue - 1 then QueueState.full.toByte else q.state

/-- `putJob`, one attempt; `none` is the wait on `put_condv`. -/
def putJob (q : Queue) (newJob : Ptr) : Option Queue :=
  if q.count = maxJobsQueue then none else some (q.put newJob)

/-- A queue that is no longer full says so. -/
def leaveFull (state : UInt8) : UInt8 :=
  if state = QueueState.full.toByte then QueueState.avail.toByte else state

/-- The dequeue in `sendJob`, one attempt; `none` is the wait on
`get_condv`. -/
def getJob (q : Queue) : Option (Option Ptr × Queue) :=
  if q.count = 0 then none
  else some (q.jobAt q.getIdx, { q with getIdx := q.getIdx + 1, state := leaveFull q.state })

/-! ### `removeJob`

`idx` is compared with `put_idx % MAX_JOBS_QUEUE` by the first loop and with
`put_idx % MAX_JOBS_QUEUE - 1` by the second, both unsigned: the second bound
is `2 ^ 32 - 1` when `put_idx` sits on slot 0. Each loop runs `bound - idx`
more times unless it breaks, which is the number that drives the recursion. -/

/-- The first loop, with `n` rounds to go: where it stopped, and the job it
found there. -/
def search (jobs : Vector (Option Ptr) maxJobsQueue) (heap : Heap) (jobid : UInt16) :
    (n idx : Nat) → Except Fault (Nat × Option Ptr)
  | 0, idx => .ok (idx, none)
  | n + 1, idx =>
      match jobs[idx]? with
      | some (some p) =>
          match heap.load p with
          | none => .error .invalidAccess
          | some job =>
              if job.id = jobid then .ok (idx, some p)
              else search jobs heap jobid n (idx + 1)
      | _ => .error .invalidAccess

/-- The second loop: `jobs[idx] = jobs[idx+1]`. -/
def shift (jobs : Vector (Option Ptr) maxJobsQueue) :
    (n idx : Nat) → Except Fault (Vector (Option Ptr) maxJobsQueue)
  | 0, _ => .ok jobs
  | n + 1, idx =>
      if h : idx + 1 < maxJobsQueue then
        shift (jobs.set idx jobs[idx + 1]) n (idx + 1)
      else .error .invalidAccess

/-- What the section of `removeJob` leaves: the queue, the block it freed, and
whether it got to the signal. -/
structure Removal where
  queue : Queue
  freed : Option Ptr
  signals : Bool

def removeJob (q : Queue) (heap : Heap) (jobid : UInt16) : Except Fault Removal :=
  if q.count = 0 then .ok ⟨q, none, false⟩
  else do
    let bound := q.putIdx % UInt32.ofNat maxJobsQueue
    let idx := slot q.getIdx
    let (idx, freed) ← search q.jobs heap jobid (bound.toNat - idx) idx
    let jobs ← shift q.jobs ((bound - 1).toNat - idx) idx
    .ok
      { queue :=
          { jobs := jobs
            putIdx := q.putIdx - 1
            getIdx := q.getIdx
            state := leaveFull q.state }
        freed := freed
        signals := true }

end Queue

end DistQueue
