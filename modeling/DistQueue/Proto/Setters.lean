import DistQueue.Proto.Layout

/-!
# Setters

Every setter writes a handful of fields of a message it is given and leaves
the other bytes as they were. What it is given is in general an uninitialised
local or a message that was used before, so the setters are functions of the
old contents. The fields of one setter are apart, so the order of its writes
(some setters fill in `sz8` last) does not show.

A string argument is the list of bytes from the pointer on; the end of the
list, like a NUL, ends the string.
-/

namespace DistQueue

open DistQueue.Lib

/-- `Job_State` -/
structure JobStateMsg where
  state : UInt8
  jobid : UInt16
  exitValue : UInt8
  deriving DecidableEq, Repr

/-- `Queue_State` -/
structure QueueStateMsg where
  state : UInt8
  queueid : UInt8
  deriving DecidableEq, Repr

section Access

variable {n k : Nat} (m : Msg)

def Msg.put8 (f : Field 1) (v : UInt8) : Msg := m.put f [v] rfl

def Msg.put16 (f : Field 2) (v : UInt16) : Msg := m.put f (store16 v) rfl

def Msg.put32 (f : Field 4) (v : UInt32) : Msg := m.put f (store32 v) rfl

def Msg.putStr (f : Field n) (src : List UInt8) : Msg :=
  m.put f (strncpy n src) (length_strncpy n src)

@[simp] theorem Msg.get_put8 (f : Field 1) (v : UInt8) : (m.put8 f v).get f = [v] :=
  Msg.get_put_self ..

@[simp] theorem Msg.get_put16 (f : Field 2) (v : UInt16) :
    (m.put16 f v).get f = store16 v := Msg.get_put_self ..

@[simp] theorem Msg.get_put32 (f : Field 4) (v : UInt32) :
    (m.put32 f v).get f = store32 v := Msg.get_put_self ..

@[simp] theorem Msg.get_putStr (f : Field n) (src : List UInt8) :
    (m.putStr f src).get f = strncpy n src := Msg.get_put_self ..

theorem Msg.get_put8_apart {f : Field 1} {g : Field k} (v : UInt8) (hfg : f.Apart g) :
    (m.put8 f v).get g = m.get g := Msg.get_put_apart m _ _ hfg

theorem Msg.get_put16_apart {f : Field 2} {g : Field k} (v : UInt16)
    (hfg : f.Apart g) : (m.put16 f v).get g = m.get g := Msg.get_put_apart m _ _ hfg

theorem Msg.get_put32_apart {f : Field 4} {g : Field k} (v : UInt32)
    (hfg : f.Apart g) : (m.put32 f v).get g = m.get g := Msg.get_put_apart m _ _ hfg

theorem Msg.get_putStr_apart {f : Field n} {g : Field k} (src : List UInt8)
    (hfg : f.Apart g) : (m.putStr f src).get g = m.get g :=
  Msg.get_put_apart m _ _ hfg

end Access

/-- The three header writes every setter starts with, `sz8` being the
hand-summed size it passes to `htons`. -/
def Msg.header (msg : Msg) (type : MsgType) (sz8 : Nat) : Msg :=
  ((msg.put16 .version (htons ver1)).put8 .type type.toByte).put16 .sz8
    (htons (UInt16.ofNat sz8))

/-! ## Main server -/

def setFileExecNoInter (msg : Msg) (fileEx workingDir : List UInt8)
    (jobId : UInt16) : Msg :=
  let msg := msg.header .sendjobNointer (sizeofHeader + sizeofJobID + sizeofFileExec)
  let msg := msg.putStr .execFile fileEx
  let msg := msg.putStr .execWorkingDir workingDir
  msg.put16 .jobid (htons jobId)

def setFileExecInter (msg : Msg) (fileEx workingDir : List UInt8) (addr : UInt32)
    (port : UInt16) (jobId : UInt16) : Msg :=
  let msg := msg.header .sendjobInter
    (sizeofHeader + sizeofJobID + 4 + 2 + sizeofFileExec)
  let msg := msg.putStr .addrExecFile fileEx
  let msg := msg.putStr .addrWorkingDir workingDir
  let msg := msg.put16 .jobid (htons jobId)
  let msg := msg.put32 .addrIpaddr addr
  msg.put16 .addrPort port

def setJobState (msg : Msg) (jobState : JobStateMsg) : Msg :=
  let msg := msg.header .jobstateResp (sizeofHeader + sizeofJobState)
  let msg := msg.put16 .jobStateJobid (htons jobState.jobid)
  let msg := msg.put8 .jobState jobState.state
  msg.put8 .jobStateExitValue jobState.exitValue

def setQueueState (msg : Msg) (queueState : QueueStateMsg) : Msg :=
  let msg := msg.header .questateResp (sizeofHeader + sizeofQueueState)
  let msg := msg.put8 .queueStateQueueid queueState.queueid
  msg.put8 .queueState queueState.state

/-- The setters whose whole payload is a job id. -/
def Msg.withJobID (msg : Msg) (type : MsgType) (jobid : UInt16) : Msg :=
  (msg.header type (sizeofHeader + sizeofJobID)).put16 .jobid (htons jobid)

def setUnsubmit (msg : Msg) (jobid : UInt16) : Msg := msg.withJobID .unsubResp jobid

def setBadParams (msg : Msg) : Msg := msg.header .badParams sizeofHeader

def setCheckExecServer (msg : Msg) : Msg := msg.header .chExecSer sizeofHeader

/-! ## Client -/

def setFileExecNoInterClient (msg : Msg) (fileEx workingDir : List UInt8)
    (jobId : UInt16) : Msg :=
  let msg := msg.header .subNoInter (sizeofHeader + sizeofJobID + sizeofFileExec)
  let msg := msg.putStr .execFile fileEx
  let msg := msg.putStr .execWorkingDir workingDir
  msg.put16 .jobid (htons jobId)

def setFileExecInterClient (msg : Msg) (fileEx workingDir : List UInt8)
    (addr : UInt32) (port : UInt16) (jobId : UInt16) : Msg :=
  let msg := msg.header .subInteractive
    (sizeofHeader + sizeofJobID + 4 + 2 + sizeofFileExec)
  let msg := msg.putStr .addrExecFile fileEx
  let msg := msg.putStr .addrWorkingDir workingDir
  let msg := msg.put16 .jobid (htons jobId)
  let msg := msg.put32 .addrIpaddr addr
  msg.put16 .addrPort port

def setClosedConnection (msg : Msg) : Msg := msg.header .clientClosed sizeofHeader

def setJobID (msg : Msg) (jobid : UInt16) : Msg := msg.withJobID .subResp jobid

def setJobStateClient (msg : Msg) (jobid : UInt16) : Msg := msg.withJobID .jobstate jobid

def setQueueStateClient (msg : Msg) (queueid : UInt8) : Msg :=
  (msg.header .questate (sizeofHeader + sizeofQueueID)).put8 .queueid queueid

def setUnsubmitClient (msg : Msg) (jobid : UInt16) : Msg := msg.withJobID .unsub jobid

/-! ## Exec server -/

def setClosedConnectionExecServer (msg : Msg) : Msg :=
  msg.header .serverClosed sizeofHeader

def setJobReq (msg : Msg) : Msg := msg.header .jobReq sizeofHeader

/-- The three reports: a job id, a state and an exit value. -/
def Msg.withReport (msg : Msg) (type : MsgType) (jobId : UInt16) (state : JobState)
    (exitValue : UInt8) : Msg :=
  let msg := msg.header type (sizeofHeader + sizeofJobState)
  let msg := msg.put16 .jobStateJobid (htons jobId)
  let msg := msg.put8 .jobState state.toByte
  msg.put8 .jobStateExitValue exitValue

def setJobRun (msg : Msg) (jobId : UInt16) : Msg := msg.withReport .jobRun jobId .run 0

/-- 40 is a child that could not be started, 41 a `fork` that failed. -/
def doneState (eStatus : UInt8) : JobState :=
  if eStatus = 40 ∨ eStatus = 41 then .error else .finished

def setJobDone (msg : Msg) (jobId : UInt16) (eStatus : UInt8) : Msg :=
  msg.withReport .jobDone jobId (doneState eStatus) eStatus

def setJobSignaled (msg : Msg) (jobId : UInt16) (eStatus : UInt8) : Msg :=
  msg.withReport .jobSig jobId .signaled eStatus

def setCheckExecServerAck (msg : Msg) : Msg := msg.header .chExecSerAck sizeofHeader

end DistQueue
