import DistQueue.Lib.Runs
import DistQueue.Proto.Transfer
import DistQueue.Server.HistoryRuns

/-!
# The main server

Any number of `attendClient` and `attendExecServ` threads over one
`MainServer_t`. A thread is where it stands in its handler together with the
locals it still needs; between two critical sections anything the other
threads do can happen. One action runs one critical section, or one call that
leaves the process (`sendMsg`, `checkServerStatus`), with the thread-local code
around it.

What the outside decides comes in with the action: the message received,
whether a call on the socket went through, what uninitialised memory holds,
which waiter `pthread_cond_signal` picks.

The number of queues is a parameter; the source builds with one. The log is
not part of the program: it is what the statements about runs are about.
-/

namespace DistQueue

open DistQueue.Lib

/-- `NUM_QUEUE_MAX` -/
def numQueueMax : Nat := 1

instance : NeZero numQueueMax := ⟨by decide⟩

/-! ## State -/

/-- The two ways into `putJob`, which are the two ways on from it. -/
inductive Caller
  | newJob
  | putJobBack (queueIdx : Nat)
  deriving DecidableEq, Repr

/-- A thread at a `pthread_cond_wait` loop: about to lock the mutex, inside
the wait, or let out of it and not yet holding the mutex again. -/
inductive Wait
  | ready | blocked | woken
  deriving DecidableEq, Repr

/-- The messages that end a request. -/
inductive Answer
  | badParams
  | jobState (jobState : JobStateMsg)
  | queueState (queueState : QueueStateMsg)
  | unsubmit (jobid : UInt16) (found : Ptr)
  deriving DecidableEq, Repr

def Answer.msg (msg : Msg) : Answer → Msg
  | .badParams => setBadParams msg
  | .jobState reported => setJobState msg reported
  | .queueState reported => setQueueState msg reported
  | .unsubmit jobid _ => setUnsubmit msg jobid

/-- Where a thread stands. In `unsubmit`, `found` is the record its first
section saw; no code reads it. -/
inductive Pc (N : Nat)
  | attendClient
  | attendExecServ
  | closed
  | newJob (job : Ptr)
  | numberJob (job : Ptr) (queueIdx : UInt16)
  | submittedResponse (job : Ptr) (queueIdx newJobid : UInt16)
  | putJob (caller : Caller) (queue : Fin N) (job : Ptr) (wait : Wait)
  | jobState (jobid : UInt16)
  | queueState (queueid : UInt8)
  | unsubmit (jobid : UInt16)
  | unsubmitQueue (jobid : UInt16) (qIdx : UInt8) (found : Ptr)
  | removeJob (jobid : UInt16) (queue : Fin N) (found : Ptr)
  | markUnsubmited (jobid : UInt16) (found : Ptr)
  | reply (answer : Answer)
  | sendJob
  | getJob (queue : Fin N) (wait : Wait)
  | checkServerStatus (job : Ptr)
  | sendMsg (job : Ptr)
  | putJobBack (job : Ptr)
  | relabel (queueIdx : Nat) (job : Ptr)
  | changeStateJob (jobid : UInt16) (state exitValue : UInt8)
  deriving DecidableEq, Repr

/-- What happened, for the record; the first argument is the thread. -/
inductive Event (N : Nat)
  | accepted (t : Nat) (job : Ptr)
  | history (t : Nat) (op : HistOp)
  | answered (t : Nat) (job : Ptr) (jobid : UInt16) (wire : List UInt8)
  | put (t : Nat) (caller : Caller) (queue : Fin N) (job : Ptr)
  | got (t : Nat) (queue : Fin N) (job : Ptr)
  | sent (t : Nat) (job : Ptr) (wire : List UInt8)
  | removed (t : Nat) (queue : Fin N) (jobid : UInt16) (found : Ptr)
      (gone : List (Option Ptr))
  | replied (t : Nat) (answer : Answer) (wire : List UInt8)
  deriving DecidableEq, Repr

structure MainServer (N : Nat) where
  history : History
  queue : Fin N → Queue
  queue2put : UInt32
  queue2get : UInt32

/-- `MainServerInit` -/
def MainServer.init (N : Nat) : MainServer N where
  history := History.init
  queue := fun _ => Queue.init
  queue2put := 0
  queue2get := 0

def MainServer.setQueue {N : Nat} (server : MainServer N) (i : Fin N) (q : Queue) :
    MainServer N :=
  { server with queue := Function.update server.queue i q }

/-- The whole process: memory that is shared, the threads, the log, and a fault
if a step had no defined result. -/
structure Sys (N : Nat) where
  server : MainServer N
  heap : Heap
  threads : List (Pc N)
  log : List (Event N)
  fault : Option Fault

def Sys.init (N : Nat) : Sys N where
  server := MainServer.init N
  heap := []
  threads := []
  log := []
  fault := none

/-! ## Condition variables -/

/-- `put_condv` and `get_condv` of a queue. -/
inductive Condv (N : Nat)
  | put (queue : Fin N)
  | get (queue : Fin N)
  deriving DecidableEq, Repr

section Condvs

variable {N : Nat}

def Pc.blockedOn : Pc N → Option (Condv N)
  | .putJob _ q _ .blocked => some (.put q)
  | .getJob q .blocked => some (.get q)
  | _ => none

/-- Leaving `pthread_cond_wait`, signalled or not. -/
def Pc.wake : Pc N → Pc N
  | .putJob caller q job .blocked => .putJob caller q job .woken
  | .getJob q .blocked => .getJob q .woken
  | pc => pc

/-- `pthread_cond_signal`: lets one waiter out if there is one, `pick` if that
is a waiter. -/
def signal (threads : List (Pc N)) (pick : Nat) (condv : Condv N) : List (Pc N) :=
  if threads[pick]?.bind Pc.blockedOn = some condv then threads.modify pick Pc.wake
  else
    match threads.findIdx? fun pc => pc.blockedOn = some condv with
    | some i => threads.modify i Pc.wake
    | none => threads

end Condvs

/-! ## Sections -/

/-- What the outside contributes to one step. -/
structure Env where
  /-- Whether the call the step makes on the socket succeeds. -/
  ok : Bool
  pick : Nat
  /-- What the local `Msg` holds before its setter runs. -/
  stack : Msg
  /-- What `malloc` returns for a record. -/
  blank : JobHistory

/-- What one step of a thread leaves. -/
structure Result (N : Nat) where
  server : MainServer N
  heap : Heap
  pc : Pc N
  events : List (Event N)
  signals : Option (Condv N)

section Sections

variable {N : Nat} [NeZero N] (server : MainServer N) (heap : Heap) (t : Nat) (env : Env)

/-- `queue[i % NUM_QUEUE_MAX]` -/
def queueAt (i : Nat) : Fin N := Fin.ofNat N i

/-- A step that only goes on. -/
def stay (pc : Pc N) : Result N := ⟨server, heap, pc, [], none⟩

/-- `newJob` under `main_server_mtx`. -/
def newJobSection (job : Ptr) : Result N :=
  let queueIdx := UInt16.ofNat (server.queue2put.toNat % N)
  ⟨{ server with queue2put := server.queue2put + 1 }, heap, .numberJob job queueIdx, [], none⟩

/-- `newJob` under `job_hist_mtx`. -/
def numberJobSection (job : Ptr) (queueIdx : UInt16) : Except Fault (Result N) := do
  let newJob ← heap.deref job
  let blank := { env.blank with addr := job }
  let r := server.history.newJob (setParamsNewJobHistory blank queueIdx newJob.ipaddr)
  .ok
    { server := { server with history := r.history }
      heap := heap
      pc := .submittedResponse job queueIdx r.id
      events := [.history t (.newJob blank queueIdx newJob.ipaddr)]
      signals := none }

/-- `submittedResponse` and `new_job->id = new_jobid`. -/
def submittedResponseStep (job : Ptr) (queueIdx newJobid : UInt16) :
    Except Fault (Result N) := do
  let newJob ← heap.deref job
  .ok
    { server := server
      heap := heap.store job { newJob with id := newJobid }
      pc := .putJob .newJob (queueAt queueIdx.toNat) job .ready
      events :=
        if env.ok then [.answered t job newJobid (setJobID env.stack newJobid).wire] else []
      signals := none }

/-- Behind `putJob`. -/
def Caller.next (job : Ptr) : Caller → Pc N
  | .newJob => .attendClient
  | .putJobBack queueIdx => .relabel queueIdx job

def putJobSection (caller : Caller) (i : Fin N) (job : Ptr) : Result N :=
  match (server.queue i).putJob job with
  | none => stay server heap (.putJob caller i job .blocked)
  | some q =>
      { server := server.setQueue i q
        heap := heap
        pc := caller.next job
        events := [.put t caller i job]
        signals := some (.get i) }

def jobStateSection (jobid : UInt16) : Except Fault (Result N) := do
  let jobState ← server.history.jobState jobid
  .ok
    { server := server
      heap := heap
      pc := .reply (jobState.elim .badParams .jobState)
      events := [.history t (.jobState jobid)]
      signals := none }

def queueStateSection (queueid : UInt8) : Result N :=
  if h : queueid.toNat < N then
    stay server heap
      (.reply (.queueState { state := (server.queue ⟨queueid.toNat, h⟩).state, queueid := queueid }))
  else stay server heap (.reply .badParams)

/-- `unsubmit`, first section. -/
def unsubmitSection (jobid : UInt16) : Except Fault (Result N) := do
  let job ← server.history.waitingIn jobid
  .ok
    (match job with
    | none => stay server heap (.reply .badParams)
    | some job => stay server heap (.unsubmitQueue jobid job.queueIdx job.addr))

/-- `unsubmit` under `main_server_mtx`; `q_idx` is used as it is. -/
def unsubmitQueueSection (jobid : UInt16) (qIdx : UInt8) (found : Ptr) :
    Except Fault (Result N) :=
  if h : qIdx.toNat < N then .ok (stay server heap (.removeJob jobid ⟨qIdx.toNat, h⟩ found))
  else .error .invalidAccess

def removeJobSection (jobid : UInt16) (i : Fin N) (found : Ptr) : Except Fault (Result N) := do
  let r ← (server.queue i).removeJob heap jobid
  .ok
    { server := server.setQueue i r.queue
      heap := r.freed.elim heap heap.free
      pc := .markUnsubmited jobid found
      events := [.removed t i jobid found ((server.queue i).live.diff r.queue.live)]
      signals := if r.signals then some (.put i) else none }

/-- `unsubmit`, last section. -/
def markUnsubmitedSection (jobid : UInt16) (found : Ptr) : Except Fault (Result N) := do
  let history ← server.history.markUnsubmited jobid
  .ok
    { server := { server with history := history }
      heap := heap
      pc := .reply (.unsubmit jobid found)
      events := [.history t (.unsubmit jobid)]
      signals := none }

def replyStep (answer : Answer) : Result N :=
  { server := server
    heap := heap
    pc := .attendClient
    events := if env.ok then [.replied t answer (answer.msg env.stack).wire] else []
    signals := none }

/-- `sendJob` under `main_server_mtx`. -/
def sendJobSection : Result N :=
  ⟨{ server with queue2get := server.queue2get + 1 }, heap,
    .getJob (queueAt (server.queue2get.toNat % N)) .ready, [], none⟩

/-- `sendJob` under `queue_mtx`. A slot that was never written has no job to
go on with. -/
def getJobSection (i : Fin N) : Except Fault (Result N) :=
  match (server.queue i).getJob with
  | none => .ok (stay server heap (.getJob i .blocked))
  | some (none, _) => .error .invalidAccess
  | some (some job, q) =>
      .ok
        { server := server.setQueue i q
          heap := heap
          pc := .checkServerStatus job
          events := [.got t i job]
          signals := some (.put i) }

def checkServerStatusStep (job : Ptr) : Result N :=
  stay server heap (if env.ok then .sendMsg job else .putJobBack job)

/-- The message `sendJob` builds for a job. -/
def Job.msg (msg : Msg) (job : Job) : Msg :=
  if job.ipaddr = 0 then setFileExecNoInter msg job.execFile job.workingDir job.id
  else setFileExecInter msg job.execFile job.workingDir job.ipaddr job.port job.id

/-- `sendJob` from the reads of the job to `free(job)`. -/
def sendMsgStep (job : Ptr) : Except Fault (Result N) := do
  let contents ← heap.deref job
  .ok
    (if env.ok then
      { server := server
        heap := heap.free job
        pc := .attendExecServ
        events := [.sent t job (contents.msg env.stack).wire]
        signals := none }
    else stay server heap (.putJobBack job))

/-- `putJobBack` under `main_server_mtx`. -/
def putJobBackSection (job : Ptr) : Result N :=
  let queueIdx := server.queue2put.toNat % N
  ⟨{ server with queue2put := server.queue2put + 1 }, heap,
    .putJob (.putJobBack queueIdx) (queueAt queueIdx) job .ready, [], none⟩

/-- `putJobBack` under `job_hist_mtx`, with the `free(job)` behind it. -/
def relabelSection (queueIdx : Nat) (job : Ptr) : Except Fault (Result N) := do
  let contents ← heap.deref job
  let history ← server.history.putJobBack contents.id (UInt8.ofNat queueIdx)
  let event : Event N := .history t (.putJobBack contents.id (UInt8.ofNat queueIdx))
  .ok
    (match history with
    | none => ⟨server, heap.free job, .closed, [event], none⟩
    | some history => ⟨{ server with history := history }, heap, .closed, [event], none⟩)

def changeStateJobSection (jobid : UInt16) (state exitValue : UInt8) :
    Except Fault (Result N) := do
  let history ← server.history.changeStateJob jobid state exitValue
  .ok
    { server := { server with history := history }
      heap := heap
      pc := .attendExecServ
      events := [.history t (.changeStateJob jobid state exitValue)]
      signals := none }

/-- The next step of a thread; `none` for one that waits to be let out of
`recvMsg` or of `pthread_cond_wait`. -/
def Pc.run : Pc N → Option (Except Fault (Result N))
  | .attendClient | .attendExecServ | .closed => none
  | .putJob _ _ _ .blocked | .getJob _ .blocked => none
  | .newJob job => some (.ok (newJobSection server heap job))
  | .numberJob job queueIdx => some (numberJobSection server heap t env job queueIdx)
  | .submittedResponse job queueIdx newJobid =>
      some (submittedResponseStep server heap t env job queueIdx newJobid)
  | .putJob caller i job _ => some (.ok (putJobSection server heap t caller i job))
  | .jobState jobid => some (jobStateSection server heap t jobid)
  | .queueState queueid => some (.ok (queueStateSection server heap queueid))
  | .unsubmit jobid => some (unsubmitSection server heap jobid)
  | .unsubmitQueue jobid qIdx found =>
      some (unsubmitQueueSection server heap jobid qIdx found)
  | .removeJob jobid i found => some (removeJobSection server heap t jobid i found)
  | .markUnsubmited jobid found => some (markUnsubmitedSection server heap t jobid found)
  | .reply answer => some (.ok (replyStep server heap t env answer))
  | .sendJob => some (.ok (sendJobSection server heap))
  | .getJob i _ => some (getJobSection server heap t i)
  | .checkServerStatus job => some (.ok (checkServerStatusStep server heap env job))
  | .sendMsg job => some (sendMsgStep server heap t env job)
  | .putJobBack job => some (.ok (putJobBackSection server heap job))
  | .relabel queueIdx job => some (relabelSection server heap t queueIdx job)
  | .changeStateJob jobid state exitValue =>
      some (changeStateJobSection server heap t jobid state exitValue)

end Sections

/-! ## The `switch` of each handler -/

section Receive

variable {N : Nat}

/-- `submitNoInter` up to `newJob`; `blank` is the block `malloc` returned. -/
def submitNoInter (pkg : Msg) (blank : Job) : Job :=
  { blank with
    execFile := strncpy (szPath * numPath) (getExecFileExecExecfile pkg)
    workingDir := strncpy szPath (getExecFileExecWdir pkg)
    port := 0
    ipaddr := 0 }

/-- `submitInter` up to `newJob`. -/
def submitInter (pkg : Msg) (blank : Job) : Job :=
  { blank with
    execFile := strncpy (szPath * numPath) (getExecAddrFileExecExecfile pkg)
    workingDir := strncpy szPath (getExecAddrFileExecWdir pkg)
    port := getExecAddrPort pkg
    ipaddr := getExecAddrIpadd pkg }

/-- `attendClient` on a message: the job it allocates, and where it goes. -/
def receiveClient (heap : Heap) (pkg : Msg) (blank : Job) : Option Job × Pc N :=
  let type := getType pkg
  if type = MsgType.subNoInter.toByte then
    (some (submitNoInter pkg blank), .newJob heap.length)
  else if type = MsgType.subInteractive.toByte then
    (some (submitInter pkg blank), .newJob heap.length)
  else if type = MsgType.jobstate.toByte then (none, .jobState (getJobID pkg))
  else if type = MsgType.questate.toByte then (none, .queueState (getQueueID pkg))
  else if type = MsgType.unsub.toByte then (none, .unsubmit (getJobID pkg))
  else if type = MsgType.clientClosed.toByte then (none, .closed)
  else (none, .attendClient)

/-- `attendExecServ` on a message. -/
def receiveExecServ (pkg : Msg) : Pc N :=
  let type := getType pkg
  if type = MsgType.jobReq.toByte then .sendJob
  else if type = MsgType.jobRun.toByte ∨ type = MsgType.jobDone.toByte ∨
      type = MsgType.jobSig.toByte then
    .changeStateJob (getJobStateID pkg) (getJobStateState pkg) (getJobStateExitValue pkg)
  else if type = MsgType.serverClosed.toByte then .closed
  else .attendExecServ

end Receive

/-! ## Steps -/

inductive Action
  | acceptClient
  | acceptExecServ
  /-- `recvMsg` returned 1. -/
  | receive (t : Nat) (pkg : Msg) (blank : Job)
  /-- `recvMsg` returned 0 or -1. -/
  | hangup (t : Nat)
  | run (t : Nat) (env : Env)
  /-- A wait that returns without a signal. -/
  | wakeup (t : Nat)

/-! Actions with nothing remarkable about them, for writing runs down. -/

namespace Action

def blankJob : Job := ⟨0, 0, 0, [], []⟩

def env (ok : Bool) : Env := ⟨ok, 0, Msg.fill 0, ⟨0, 0, 0, 0, 0, 0⟩⟩

def go (t : Nat) : Action := .run t (env true)

/-- The call on the socket fails. -/
def fail (t : Nat) : Action := .run t (env false)

def submit (t : Nat) : Action :=
  .receive t (setFileExecNoInterClient (Msg.fill 0) [] [] 0) blankJob

def cancel (t : Nat) (jobid : UInt16) : Action :=
  .receive t (setUnsubmitClient (Msg.fill 0) jobid) blankJob

def request (t : Nat) : Action := .receive t (setJobReq (Msg.fill 0)) blankJob

def report (t : Nat) (msg : Msg) : Action := .receive t msg blankJob

end Action

section Steps

variable {N : Nat} [NeZero N]

/-- The state behind a step of thread `t`. -/
def Sys.commit (s : Sys N) (t pick : Nat) (r : Result N) : Sys N where
  server := r.server
  heap := r.heap
  threads := r.signals.elim (s.threads.set t r.pc) (signal (s.threads.set t r.pc) pick)
  log := s.log ++ r.events
  fault := none

/-- A message for thread `t`, which is in `recvMsg`. -/
def Sys.receive (s : Sys N) (t : Nat) (pkg : Msg) (blank : Job) : Option (Sys N) :=
  match s.threads[t]? with
  | some .attendClient =>
      match receiveClient s.heap pkg blank with
      | (none, pc) => some { s with threads := s.threads.set t pc }
      | (some job, pc) =>
          some
            { s with
              heap := s.heap.malloc job
              threads := s.threads.set t pc
              log := s.log ++ [.accepted t s.heap.length] }
  | some .attendExecServ => some { s with threads := s.threads.set t (receiveExecServ pkg) }
  | _ => none

def Sys.hangup (s : Sys N) (t : Nat) : Option (Sys N) :=
  match s.threads[t]? with
  | some .attendClient | some .attendExecServ =>
      some { s with threads := s.threads.set t .closed }
  | _ => none

def Sys.run (s : Sys N) (t : Nat) (env : Env) : Option (Sys N) :=
  match s.threads[t]? with
  | none => none
  | some pc =>
      match pc.run s.server s.heap t env with
      | none => none
      | some (.error fault) => some { s with fault := some fault }
      | some (.ok r) => some (s.commit t env.pick r)

def Sys.wakeup (s : Sys N) (t : Nat) : Option (Sys N) :=
  match s.threads[t]?.bind Pc.blockedOn with
  | none => none
  | some _ => some { s with threads := s.threads.modify t Pc.wake }

/-- One step; none is taken behind a fault. -/
def Sys.step (s : Sys N) (a : Action) : Option (Sys N) :=
  if s.fault = none then
    match a with
    | .acceptClient => some { s with threads := s.threads ++ [.attendClient] }
    | .acceptExecServ => some { s with threads := s.threads ++ [.attendExecServ] }
    | .receive t pkg blank => s.receive t pkg blank
    | .hangup t => s.hangup t
    | .run t env => s.run t env
    | .wakeup t => s.wakeup t
  else none

end Steps

end DistQueue
