import DistQueue.Exec.Job
import DistQueue.Lib.Runs
import DistQueue.Proto.Stream
import DistQueue.Server.System

/-!
# The two ends of one connection

`attendExecServ` with `sendJob` and `checkServerStatus` on one side of a
connection, `exec_server.c` on the other, and a stream in each direction. A
step is one call of `send` or `recv`, or one of the other calls that wait
(`select`, `fork`, `wait`, the commands, the wait for a job), and then what the
process does up to the next of them.

What the calls answer comes in with the step. So does what a block on the stack
holds before it is written.

The state also keeps a record. Every byte on its way to the exec server is
labelled with the call of `sendJob` that put it in, every call of `execJob`
with the labels of the bytes it works on.
-/

namespace DistQueue.Handshake

open DistQueue.Lib

/-! ## Where the two processes stand -/

inductive MainPc
  /-- In the `recvMsg` of the loop. -/
  | attendExecServ (st : RecvSt)
  /-- In `sendJob`, before it has a job. -/
  | getJob
  | checkServerStatus (job : Job) (pkg : Msg) (st : SendSt)
  | select (job : Job) (pkg : Msg)
  | recvAck (job : Job) (st : RecvSt)
  | sendJob (job : Job) (pkg : Msg) (st : SendSt)
  | closed
  deriving DecidableEq

/-- The calls of `sendMsg` in the exec server. Behind `error_fork` it goes on
as behind the second message of `fatherJobRoutine`. -/
inductive Sends
  | jobRequest
  | closeConnecMain
  | sendAck
  | runMsg (jobid : UInt16)
  | doneMsg
  deriving DecidableEq, Repr

inductive ExecPc
  | command
  | sendMsg (what : Sends) (pkg : Msg) (st : SendSt)
  /-- In the `recvMsg` of `exec_server_protocol`. -/
  | execServerProtocol (st : RecvSt)
  | execJob (pkg : Msg)
  | wait (jobid : UInt16)
  | closed
  deriving DecidableEq

/-! ## The record -/

/-- A call of `sendJob` that has returned. -/
structure SendJob where
  job : Job
  ret : Int
  putJobBack : Bool
  deriving DecidableEq

/-- A call of `execJob`. -/
structure Execution where
  pkg : Msg
  /-- The calls of `sendJob` that put in the bytes of `pkg`. -/
  carriers : List Nat
  /-- Whether `fork` went well. -/
  fork : Option Bool
  /-- Its calls of `sendMsg`, with the bytes of the message and the result. -/
  reports : List (List UInt8 × Int)
  deriving DecidableEq

/-- The branches for a message that was not expected, by the function they are
in, and a store outside of a message. -/
inductive Mishap
  | attendExecServ
  | checkServerStatus
  | execServerProtocol
  | execServerProtocolFather
  | errorFork
  | overflow
  deriving DecidableEq, Repr

structure Conn where
  main : MainPc
  exec : ExecPc
  toMain : List UInt8
  toExec : List UInt8
  /-- A call on the exec server's socket has failed. -/
  execFailed : Bool
  /-- The labels of the bytes in `toExec`. -/
  carriers : List Nat
  /-- The labels of what `exec_server_protocol` has of its message. -/
  taken : List Nat
  sendJobs : List SendJob
  executed : List Execution
  /-- The call of `execJob` the exec server is in. -/
  current : Option Execution
  mishaps : List Mishap
  deriving DecidableEq

def Conn.executions (s : Conn) : List Execution := s.executed ++ s.current.toList

/-- The handler has been started, and the exec server waits for a command. -/
def Conn.init (stack : Msg) : Conn where
  main := .attendExecServ (.start stack)
  exec := .command
  toMain := []
  toExec := []
  execFailed := false
  carriers := []
  taken := []
  sendJobs := []
  executed := []
  current := none
  mishaps := []

/-! ## What comes in from outside -/

inductive Select
  | readable
  | timeout
  | error
  deriving DecidableEq, Repr

inductive Command
  | job
  | stop
  | bad
  deriving DecidableEq, Repr

structure Env where
  /-- What the call of `send` or `recv` returns. -/
  result : IoResult
  stack : Msg
  around : Int → UInt8
  /-- The job the handler gets. -/
  job : Job
  select : Select
  command : Command
  fork : Bool
  wait : WaitStatus

inductive Action
  | main (env : Env)
  | exec (env : Env)

namespace Conn

variable (s : Conn) (env : Env)

def mishap (m : Mishap) : Conn := { s with mishaps := s.mishaps ++ [m] }

/-! ## The handler -/

/-- `sendJob` behind a failure: `putJobBack`, and 0 for `attendExecServ`, which
leaves its loop. -/
def sendJobFails (job : Job) : Conn :=
  { s with
    main := .closed
    sendJobs := s.sendJobs ++ [⟨job, 0, true⟩] }

/-- What a call of `send` put in, under the number of the call of `sendJob`
that is under way. -/
def putIn (bs : List UInt8) : Conn :=
  { s with
    toExec := s.toExec ++ bs
    carriers := s.carriers ++ List.replicate bs.length s.sendJobs.length }

/-- `attendExecServ` on a message. `changeStateJob` makes no call on the
connection. -/
def attend (pkg : Msg) : Conn :=
  match (receiveExecServ pkg : Pc numQueueMax) with
  | .sendJob => { s with main := .getJob }
  | .changeStateJob _ _ _ => { s with main := .attendExecServ (.start pkg) }
  | .closed => { s with main := .closed }
  | _ => { s.mishap .attendExecServ with main := .attendExecServ (.start pkg) }

def attendExecServStep (st : RecvSt) : Conn :=
  match recvLoop [env.result] s.toMain st with
  | .blocked st toMain => { s with main := .attendExecServ st, toMain := toMain }
  | .ret code pkg toMain =>
      let s := { s with toMain := toMain }
      if code = 1 then s.attend pkg else { s with main := .closed }
  | .overflow => { s.mishap .overflow with main := .closed }

/-- `sendJob` has a job and goes to `checkServerStatus`. -/
def getJobStep : Conn :=
  let pkg := setCheckExecServer env.stack
  { s with main := .checkServerStatus env.job pkg (.start pkg) }

def checkServerStatusStep (job : Job) (pkg : Msg) (st : SendSt) : Conn :=
  let out := sendCall (pkg.mem env.around) env.result st
  let s := s.putIn out.1
  match out.2 with
  | .blocked st => { s with main := .checkServerStatus job pkg st }
  | .ret code =>
      if code = -1 ∨ code = 0 then s.sendJobFails job else { s with main := .select job pkg }

def selectStep (job : Job) (pkg : Msg) : Conn :=
  match env.select with
  | .readable => { s with main := .recvAck job (.start pkg) }
  | .timeout | .error => s.sendJobFails job

/-- `sendJob` behind a `checkServerStatus` that returned 1. -/
def sendJob (job : Job) : Conn :=
  let pkg := job.msg env.stack
  { s with main := .sendJob job pkg (.start pkg) }

def recvAckStep (job : Job) (st : RecvSt) : Conn :=
  match recvLoop [env.result] s.toMain st with
  | .blocked st toMain => { s with main := .recvAck job st, toMain := toMain }
  | .ret code pkg toMain =>
      let s := { s with toMain := toMain }
      if code = -1 ∨ code = 0 then s.sendJobFails job
      else if getType pkg ≠ MsgType.chExecSerAck.toByte then
        (s.mishap .checkServerStatus).sendJobFails job
      else s.sendJob env job
  | .overflow => { s.mishap .overflow with main := .closed }

/-- Behind a `sendJob` that returns 1 the loop starts over. -/
def sendJobStep (job : Job) (pkg : Msg) (st : SendSt) : Conn :=
  let out := sendCall (pkg.mem env.around) env.result st
  let s := s.putIn out.1
  match out.2 with
  | .blocked st => { s with main := .sendJob job pkg st }
  | .ret code =>
      if code = -1 ∨ code = 0 then s.sendJobFails job
      else
        { s with
          main := .attendExecServ (.start env.stack)
          sendJobs := s.sendJobs ++ [⟨job, 1, false⟩] }

def mainStep : Option Conn :=
  match s.main with
  | .attendExecServ st => some (s.attendExecServStep env st)
  | .getJob => some (s.getJobStep env)
  | .checkServerStatus job pkg st => some (s.checkServerStatusStep env job pkg st)
  | .select job pkg => some (s.selectStep env job pkg)
  | .recvAck job st => some (s.recvAckStep env job st)
  | .sendJob job pkg st => some (s.sendJobStep env job pkg st)
  | .closed => none

/-! ## The exec server -/

/-- `sendMsg(socket, &pkg)` -/
def send (what : Sends) (pkg : Msg) : Conn := { s with exec := .sendMsg what pkg (.start pkg) }

def commandStep : Conn :=
  match env.command with
  | .job => s.send .jobRequest (setJobReq env.stack)
  | .stop => s.send .closeConnecMain (setClosedConnectionExecServer env.stack)
  | .bad => s

/-- `sendMsg` has returned for a report. -/
def reported (pkg : Msg) (code : Int) : Conn :=
  { s with
    current := s.current.map fun (e : Execution) =>
      { e with reports := e.reports ++ [(pkg.wire, code)] } }

def forked (ok : Bool) : Conn :=
  { s with current := s.current.map fun (e : Execution) => { e with fork := some ok } }

/-- Behind `execJob`, which returns 1 to the loop of `main` whatever became of
its messages. -/
def finish : Conn :=
  { s with exec := .command, executed := s.executed ++ s.current.toList, current := none }

/-- `exec_server_protocol` -/
def protocol : Conn := { s with exec := .execServerProtocol (.start env.stack), taken := [] }

/-- Where the exec server goes on when `sendMsg` has returned. -/
def sent (pkg : Msg) (code : Int) : Sends → Conn
  | .jobRequest | .sendAck =>
      if code = -1 ∨ code = 0 then { s with exec := .closed } else s.protocol env
  | .closeConnecMain => { s with exec := .closed }
  | .runMsg jobid => { s.reported pkg code with exec := .wait jobid }
  | .doneMsg => (s.reported pkg code).finish

def sendMsgStep (what : Sends) (pkg : Msg) (st : SendSt) : Conn :=
  let out := sendCall (pkg.mem env.around) env.result st
  let s := { s with toMain := s.toMain ++ out.1 }
  match out.2 with
  | .blocked st => { s with exec := .sendMsg what pkg st }
  | .ret code => sent { s with execFailed := s.execFailed || code ≠ 1 } env pkg code what

/-- `exec_server_protocol` on a message. -/
def dispatch (pkg : Msg) : Conn :=
  let type := getType pkg
  if type = MsgType.sendjobNointer.toByte ∨ type = MsgType.sendjobInter.toByte then
    { s with exec := .execJob pkg, taken := [], current := some ⟨pkg, s.taken, none, []⟩ }
  else if type = MsgType.chExecSer.toByte then
    { s with taken := [] }.send .sendAck (setCheckExecServerAck env.stack)
  else { s.mishap .execServerProtocol with exec := .closed }

/-- A call of `recv` took the stream down to `toExec`. -/
def takeOut (toExec : List UInt8) : Conn :=
  let k := s.toExec.length - toExec.length
  { s with
    toExec := toExec
    taken := s.taken ++ s.carriers.take k
    carriers := s.carriers.drop k }

def execServerProtocolStep (st : RecvSt) : Conn :=
  match recvLoop [env.result] s.toExec st with
  | .blocked st toExec => { s.takeOut toExec with exec := .execServerProtocol st }
  | .ret code pkg toExec =>
      let s := s.takeOut toExec
      if code = 1 then s.dispatch env pkg else { s with exec := .closed, execFailed := true }
  | .overflow => { s.mishap .overflow with exec := .closed }

/-- `execJob` behind its `fork`, in the process that called it. -/
def execJobStep (pkg : Msg) : Conn :=
  let s := s.forked env.fork
  if env.fork then
    match execJobID pkg with
    | some jobid => s.send (.runMsg jobid) (setJobRun env.stack jobid)
    | none => (s.mishap .execServerProtocolFather).finish
  else
    match execJobID pkg with
    | some jobid => s.send .doneMsg (setJobDone env.stack jobid 41)
    | none => (s.mishap .errorFork).send .doneMsg env.stack

/-- The message for `wstatus`. -/
def waitStep (jobid : UInt16) : Conn :=
  match env.wait with
  | .exited status => s.send .doneMsg (setJobDone env.stack jobid status)
  | .signaled sig => s.send .doneMsg (setJobSignaled env.stack jobid sig)

def execStep : Option Conn :=
  match s.exec with
  | .command => some (s.commandStep env)
  | .sendMsg what pkg st => some (s.sendMsgStep env what pkg st)
  | .execServerProtocol st => some (s.execServerProtocolStep env st)
  | .execJob pkg => some (s.execJobStep env pkg)
  | .wait jobid => some (s.waitStep env jobid)
  | .closed => none

def step : Action → Option Conn
  | .main env => s.mainStep env
  | .exec env => s.execStep env

end Conn

/-! ## Runs -/

def IoFails (r : IoResult) : Prop := r = .error ∨ r = .moved 0

instance (r : IoResult) : Decidable (IoFails r) := inferInstanceAs (Decidable (_ ∨ _))

/-- No call is interrupted, and behind a failed call on its socket those of the
exec server fail too. The handler makes none behind a failed one. -/
def Regular (s : Conn) : Action → Prop
  | .main env => env.result ≠ .eintr
  | .exec env => env.result ≠ .eintr ∧ (s.execFailed = true → IoFails env.result)

instance (s : Conn) : (a : Action) → Decidable (Regular s a)
  | .main env => inferInstanceAs (Decidable (env.result ≠ .eintr))
  | .exec env => inferInstanceAs
      (Decidable (env.result ≠ .eintr ∧ (s.execFailed = true → IoFails env.result)))

/-- A new connection. -/
def Fresh (s : Conn) : Prop := ∃ stack, s = .init stack

end DistQueue.Handshake
