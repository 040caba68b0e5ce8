import DistQueue.Lib.Words
import DistQueue.Proto.RoundTrip

/-!
# A job in the exec server

`execJob` and what comes of it: a child that sets up its descriptors and its
directory and turns into the command, and a father that waits and reports. The
child has one way to tell anything, its wait status, and most of the calls that
can go wrong on its way tell nothing: the function that made the call returns,
and `consumeJob` goes on to `execvp`.

The results of the system calls come in from outside. So does what lies in
memory behind `line_cpy` and behind the message, which is what a reader of an
unterminated field gets to see.
-/

namespace DistQueue

open DistQueue.Lib

/-- `ARG_MAX`, as the protocol header redefines it. -/
def argMax : Nat := 20

/-- Where a standard stream leads. -/
inductive Target
  | inherited
  | coutLog (jobid : UInt16)
  | cerrLog (jobid : UInt16)
  | devNull
  | client (port : UInt16) (address : UInt32)
  deriving DecidableEq, Repr

/-- What `execvp` hands over to the command. Without a `chdir` the directory is
the exec server's. -/
structure Proc where
  stdin : Target
  stdout : Target
  stderr : Target
  wdir : Option (List UInt8)
  args : List (List UInt8)
  deriving DecidableEq, Repr

/-- The child as `fork` made it. -/
def Proc.forked : Proc := ⟨.inherited, .inherited, .inherited, none, []⟩

/-- `wstatus` -/
inductive WaitStatus
  | exited (status : UInt8)
  | signaled (sig : UInt8)
  deriving DecidableEq, Repr

/-- The results of the system calls made for one job; `true` is success. The
two `dup2` triples share their entries, as a job makes only one of them. -/
structure Calls where
  fork : Bool
  openCout : Bool
  openCerr : Bool
  openDevNull : Bool
  socket : Bool
  gethostbyaddr : Bool
  connect : Bool
  dupStdout : Bool
  dupStderr : Bool
  dupStdin : Bool
  chdir : Bool
  execvp : Bool
  /-- A signal that ends the child before it has become the command. -/
  killed : Option UInt8
  /-- How the command ends, once it runs. -/
  command : WaitStatus
  deriving DecidableEq, Repr

/-- What memory holds behind `line_cpy` and behind the message. -/
structure Behind where
  line : List UInt8
  pkg : List UInt8
  deriving DecidableEq, Repr

/-! ## The argument vector -/

/-- The separators `consumeJob` gives to `strtok_r`. -/
def isSep (b : UInt8) : Bool := b = 32 || b = 10

/-- The loop of `consumeJob` with `n` rounds to go: `s` is what `strtok_r` goes
on with, whether that is `line_cpy` or where `saveptr` points. -/
def fillArgs : (n i : Nat) → Vector (Option (List UInt8)) argMax → List UInt8 →
    Vector (Option (List UInt8)) argMax
  | 0, _, args, _ => args
  | n + 1, i, args, s =>
      match cutWord isSep s with
      | none => args.setIfInBounds i none
      | some (token, s) =>
          let args := args.setIfInBounds i (some token)
          if i + 1 = argMax then args.setIfInBounds (argMax - 1) none
          else fillArgs n (i + 1) args s

/-- The arguments up to the `NULL` that ends them. -/
def argv (args : Vector (Option (List UInt8)) argMax) : List (List UInt8) :=
  (args.toList.takeWhile Option.isSome).filterMap id

/-- What `consumeJob` gives `execvp` for a line. -/
def parseLine (line behind : List UInt8) : List (List UInt8) :=
  argv (fillArgs argMax 0 (Vector.replicate argMax none)
    (cstr (strncpy (szPath * numPath) line ++ behind)))

/-! ## The child -/

section Child

variable (calls : Calls) (behind : Behind) (pkg : Msg)

/-- A path in a message, read from its first byte to wherever a NUL comes. -/
def pathAt {n : Nat} (f : Field n) : List UInt8 := cstr (pkg.bytes.drop f.off ++ behind.pkg)

/-- Each failing call returns, with what was done so far done. -/
def setFDsNoIter (proc : Proc) : Proc :=
  if !calls.openCout then proc
  else if !calls.openCerr then proc
  else if !calls.openDevNull then proc
  else if !calls.dupStdout then proc
  else
    let proc := { proc with stdout := .coutLog (getJobIDNoIter pkg) }
    if !calls.dupStderr then proc
    else
      let proc := { proc with stderr := .cerrLog (getJobIDNoIter pkg) }
      if !calls.dupStdin then proc
      else
        let proc := { proc with stdin := .devNull }
        if !calls.chdir then proc
        else { proc with wdir := some (pathAt behind pkg .execWorkingDir) }

/-- The socket, `none` for the -1 of a failed `connect`, or the status the
child exits with. A `connect` on a socket that was not opened fails. -/
def socketPortConnect (port : UInt16) (address : UInt32) : Except UInt8 (Option Target) :=
  if !calls.gethostbyaddr then .error 0
  else if calls.socket && calls.connect then .ok (some (.client port address))
  else .ok none

/-- `dup2` of -1 fails like any other. -/
def setFDsIter (proc : Proc) : Except UInt8 Proc := do
  let sockClient ← socketPortConnect calls (getExecAddrPort pkg) (getExecAddrIpadd pkg)
  .ok
    (match sockClient with
    | none => proc
    | some sockClient =>
        if !calls.dupStdout then proc
        else
          let proc := { proc with stdout := sockClient }
          if !calls.dupStderr then proc
          else
            let proc := { proc with stderr := sockClient }
            if !calls.dupStdin then proc
            else
              let proc := { proc with stdin := sockClient }
              if !calls.chdir then proc
              else { proc with wdir := some (pathAt behind pkg .addrWorkingDir) })

/-- What becomes of the child when no signal ends it first. -/
inductive ChildEnd
  | exec (proc : Proc)
  | exit (status : UInt8)
  | abort
  deriving DecidableEq, Repr

/-- `exec_server_protocol_child` on a process that is set up; when `execvp`
fails it comes back, and `execJob` exits with 40. -/
def execLine (proc : Proc) (line : List UInt8) : ChildEnd :=
  if calls.execvp then .exec { proc with args := parseLine line behind.line } else .exit 40

def consumeJob : ChildEnd :=
  if getType pkg = MsgType.sendjobNointer.toByte then
    execLine calls behind (setFDsNoIter calls behind pkg .forked) (getExecFileExecExecfile pkg)
  else if getType pkg = MsgType.sendjobInter.toByte then
    match setFDsIter calls behind pkg .forked with
    | .error status => .exit status
    | .ok proc => execLine calls behind proc (getExecAddrFileExecExecfile pkg)
  else .abort

/-- What `wait` returns for the child. -/
def waitStatus : WaitStatus :=
  match calls.killed with
  | some sig => .signaled sig
  | none =>
      match consumeJob calls behind pkg with
      | .exec _ => calls.command
      | .exit status => .exited status
      | .abort => .signaled 6

/-! ## The father -/

/-- The id `execJob` reports under; it is only called with the two kinds of
job. -/
def execJobID : Option UInt16 :=
  if getType pkg = MsgType.sendjobNointer.toByte then some (getJobIDNoIter pkg)
  else if getType pkg = MsgType.sendjobInter.toByte then some (getJobIDIter pkg)
  else none

def errorFork (jobid : UInt16) : List SetterCall := [.jobDone jobid 41]

/-- The two messages around the `wait`. -/
def fatherJobRoutine (jobid : UInt16) : WaitStatus → List SetterCall
  | .exited status => [.jobRun jobid, .jobDone jobid status]
  | .signaled sig => [.jobRun jobid, .jobSignaled jobid sig]

/-- The reports that go out for a job. -/
def execJob : List SetterCall :=
  (execJobID pkg).elim [] fun jobid =>
    if calls.fork then fatherJobRoutine jobid (waitStatus calls behind pkg) else errorFork jobid

end Child

/-! ## The argument vector is the words of the line -/

section Args

variable {n i : Nat} {args : Vector (Option (List UInt8)) argMax} {ws : List (List UInt8)}
  {s : List UInt8}

/-- The first arguments are `ws`, and nothing is stored behind them. -/
def Stored (args : Vector (Option (List UInt8)) argMax) (ws : List (List UInt8)) : Prop :=
  args.toList = ws.map some ++ List.replicate (argMax - ws.length) none

theorem argv_of_stored (h : Stored args ws) : argv args = ws := by
  have hall : ∀ a ∈ ws.map some, Option.isSome a = true := fun a ha => by
    obtain ⟨w, -, rfl⟩ := List.mem_map.mp ha
    rfl
  have hrest : (List.replicate (argMax - ws.length) (none : Option (List UInt8))).takeWhile
      Option.isSome = [] := by
    cases argMax - ws.length <;> rfl
  rw [argv, h, List.takeWhile_append_of_pos hall, hrest, List.append_nil, List.filterMap_map]
  simp

theorem Stored.none (h : Stored args ws) :
    Stored (args.setIfInBounds ws.length none) ws := by
  rw [Stored, Vector.toList_setIfInBounds, h, List.set_append_right _ _ (by simp)]
  congr 1
  simp

theorem Stored.some (h : Stored args ws) (hi : ws.length < argMax) (w : List UInt8) :
    Stored (args.setIfInBounds ws.length (.some w)) (ws ++ [w]) := by
  obtain ⟨k, hk⟩ : ∃ k, argMax - ws.length = k + 1 := ⟨argMax - ws.length - 1, by omega⟩
  have hk' : argMax - (ws ++ [w]).length = k := by
    rw [List.length_append, List.length_singleton]
    omega
  rw [Stored, Vector.toList_setIfInBounds, h, List.set_append_right _ _ (by simp), hk', hk]
  simp [List.replicate_succ]

/-- The loop stores the words of the line, and no more than fit in front of the
`NULL` at the end. -/
theorem fillArgs_stored : ∀ {n : Nat} {ws : List (List UInt8)}
    {args : Vector (Option (List UInt8)) argMax} {s : List UInt8},
    Stored args ws → ws.length + (n + 1) = argMax →
      Stored (fillArgs (n + 1) ws.length args s) (ws ++ (words isSep s).take n) := by
  intro n
  induction n with
  | zero =>
      intro ws args s h hn
      rw [List.take_zero, List.append_nil, fillArgs]
      cases hcut : cutWord isSep s with
      | none => exact h.none
      | some cut =>
          -- The token of the last round is stored and overwritten.
          have hlast : argMax - 1 = ws.length := by omega
          simp only [if_pos hn, hlast, Vector.setIfInBounds_setIfInBounds]
          exact h.none
  | succ n ih =>
      intro ws args s h hn
      have hlt : ws.length < argMax := by omega
      rw [fillArgs]
      cases hcut : cutWord isSep s with
      | none =>
          rw [words_of_cutWord_none hcut, List.take_nil, List.append_nil]
          exact h.none
      | some cut =>
          obtain ⟨token, rest⟩ := cut
          have hmore : ¬ ws.length + 1 = argMax := by omega
          have hlen : ws.length + 1 = (ws ++ [token]).length := by simp
          have hstored := @ih _ _ rest (h.some hlt token) (by rw [← hlen]; omega)
          rw [words_of_cutWord hcut, List.take_succ_cons]
          simp only [if_neg hmore]
          rw [hlen]
          rw [List.append_assoc] at hstored
          exact hstored

theorem parseLine_eq (line behind : List UInt8) :
    parseLine line behind =
      (words isSep (cstr (strncpy (szPath * numPath) line ++ behind))).take (argMax - 1) := by
  have h : Stored (Vector.replicate argMax none) [] := rfl
  exact argv_of_stored (fillArgs_stored h rfl)

end Args

end DistQueue
