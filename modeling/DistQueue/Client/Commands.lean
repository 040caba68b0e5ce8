import DistQueue.Proto.Wire

/-!
# The client

The loop of `main` in `client.c`, one command at a time: what it sends before
it calls `client_protocol`, which takes one message from the server. Whether
something was sent decides nothing about that call.

What the user types behind a command, and what the library calls answer, comes
in from the outside.
-/

namespace DistQueue.Client

open DistQueue.Lib

/-! ## Arguments -/

/-- `isspace` -/
def isSpace (c : UInt8) : Bool := c = 32 || (9 ≤ c && c ≤ 13)

def isDigit (c : UInt8) : Bool := 48 ≤ c && c ≤ 57

/-- The digits at the front, behind a number that has been read. -/
def digits (n : Nat) : List UInt8 → Nat
  | [] => n
  | c :: cs => if isDigit c then digits (10 * n + (c - 48).toNat) cs else n

/-- `atoi`, where the value fits an `int`. -/
def atoi (s : List UInt8) : Int :=
  match s.dropWhile isSpace with
  | 45 :: cs => - (digits 0 cs : Int)
  | 43 :: cs => digits 0 cs
  | cs => digits 0 cs

/-- `uint16_t job_id = atoi(…)` -/
def toJobid (arg : List UInt8) : UInt16 := UInt16.ofInt (atoi arg)

/-- `uint8_t queue_id = atoi(…)` -/
def toQueueid (arg : List UInt8) : UInt8 := UInt8.ofInt (atoi arg)

/-! ## Commands -/

inductive Command
  | submit
  | submiti
  | statejob (arg : List UInt8)
  | statequeue (arg : List UInt8)
  | unsubmit (arg : List UInt8)
  | stop
  | bad
  deriving DecidableEq, Repr

/-- What the calls made for one command answer; `none` is -1 or `NULL`. The
address and the port are those of the socket `getArgsSubmitInt` opens. -/
structure Calls where
  getline : Option (List UInt8)
  getcwd : Option (List UInt8)
  addr : UInt32
  port : UInt16
  deriving DecidableEq, Repr

/-- Where the loop stands. -/
inductive Pc
  | command
  | clientProtocol (interactive : Bool)
  | clientAccept
  | stopped
  deriving DecidableEq, Repr

/-- `getArgsSubmit`, which returns early when a call fails. -/
def getArgsSubmit (calls : Calls) : Option SetterCall :=
  match calls.getline with
  | none => none
  | some line =>
      match calls.getcwd with
      | none => none
      | some buff => some (.fileExecNoInterClient line buff 0)

/-- `getArgsSubmitInt`, likewise. -/
def getArgsSubmitInt (calls : Calls) : Option SetterCall :=
  match calls.getline with
  | none => none
  | some line =>
      match calls.getcwd with
      | none => none
      | some buff => some (.fileExecInterClient line buff calls.addr calls.port 0)

/-- A round of the loop up to the call of `client_protocol`: the message that
was sent, and where the round goes on. -/
def run (calls : Calls) : Command → Option SetterCall × Pc
  | .submit => (getArgsSubmit calls, .clientProtocol false)
  | .submiti => (getArgsSubmitInt calls, .clientProtocol true)
  | .statejob arg => (some (.jobStateClient (toJobid arg)), .clientProtocol false)
  | .statequeue arg => (some (.queueStateClient (toQueueid arg)), .clientProtocol false)
  | .unsubmit arg => (some (.unsubmitClient (toJobid arg)), .clientProtocol false)
  | .stop => (some .closedConnection, .stopped)
  | .bad => (none, .command)

/-- Where a round goes on behind `client_protocol`. -/
def afterProtocol (interactive : Bool) : Pc := if interactive then .clientAccept else .command

/-! ## Requests and replies -/

/-- The messages that ask for a reply. -/
def Request : SetterCall → Prop
  | .fileExecNoInterClient .. | .fileExecInterClient .. | .jobStateClient _ | .queueStateClient _
  | .unsubmitClient _ => True
  | _ => False

def Submits : SetterCall → Prop
  | .fileExecNoInterClient .. | .fileExecInterClient .. => True
  | _ => False

/-- `wire` is a reply to `request`: of the type that belongs to it, and about
the id it names, or `BAD_PARAMS`. -/
def AnsweredBy (wire : List UInt8) : SetterCall → Prop
  | .fileExecNoInterClient .. | .fileExecInterClient .. =>
      ∃ jobid, wire = (SetterCall.jobID jobid).wire
  | .jobStateClient jobid =>
      wire = SetterCall.badParams.wire ∨
        ∃ state exitValue, wire = (SetterCall.jobState ⟨state, jobid, exitValue⟩).wire
  | .queueStateClient queueid =>
      wire = SetterCall.badParams.wire ∨
        ∃ state, wire = (SetterCall.queueState ⟨state, queueid⟩).wire
  | .unsubmitClient jobid =>
      wire = SetterCall.badParams.wire ∨ wire = (SetterCall.unsubmit jobid).wire
  | _ => False

/-- The calls a `submit` depends on go through. -/
def Calls.Ready (calls : Calls) : Command → Prop
  | .submit | .submiti => calls.getline ≠ none ∧ calls.getcwd ≠ none
  | _ => True

instance (calls : Calls) (command : Command) : Decidable (calls.Ready command) := by
  unfold Calls.Ready
  split <;> infer_instance

/-- Then a round sends one request and waits for one reply, or ends the
session, or does nothing. -/
theorem run_cases {calls : Calls} {command : Command} (h : calls.Ready command) :
    (∃ request interactive, Request request ∧
      run calls command = (some request, .clientProtocol interactive)) ∨
      run calls command = (some .closedConnection, .stopped) ∨
      run calls command = (none, .command) := by
  cases command with
  | submit =>
      obtain ⟨hline, hcwd⟩ := h
      obtain ⟨line, hline⟩ := Option.ne_none_iff_exists'.mp hline
      obtain ⟨buff, hcwd⟩ := Option.ne_none_iff_exists'.mp hcwd
      refine .inl ⟨.fileExecNoInterClient line buff 0, false, trivial, ?_⟩
      rw [run, getArgsSubmit, hline, hcwd]
  | submiti =>
      obtain ⟨hline, hcwd⟩ := h
      obtain ⟨line, hline⟩ := Option.ne_none_iff_exists'.mp hline
      obtain ⟨buff, hcwd⟩ := Option.ne_none_iff_exists'.mp hcwd
      refine .inl ⟨.fileExecInterClient line buff calls.addr calls.port 0, true, trivial, ?_⟩
      rw [run, getArgsSubmitInt, hline, hcwd]
  | statejob arg => exact .inl ⟨.jobStateClient (toJobid arg), false, trivial, rfl⟩
  | statequeue arg => exact .inl ⟨.queueStateClient (toQueueid arg), false, trivial, rfl⟩
  | unsubmit arg => exact .inl ⟨.unsubmitClient (toJobid arg), false, trivial, rfl⟩
  | stop => exact .inr (.inl rfl)
  | bad => exact .inr (.inr rfl)

end DistQueue.Client
