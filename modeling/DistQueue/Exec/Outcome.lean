import DistQueue.Exec.Job
import DistQueue.Proto.Wire
import DistQueue.Server.Reports

/-!
# What is reported of a job

The reports of `fatherJobRoutine` and `errorFork` go over the wire to
`changeStateJob`, and what `jobState` answers then is taken from the last of
them. The answer is about the child, and the child is the submitted command
only if everything on its way to `execvp` went through. Two exit values are
read as a start that failed, and they are the only ones that are.
-/

namespace DistQueue

open DistQueue.Lib

/-! ## Was the command executed as it was submitted -/

/-- The process that a job asks for. -/
def submitted (pkg : Msg) : Proc :=
  if getType pkg = MsgType.sendjobNointer.toByte then
    { stdin := .devNull
      stdout := .coutLog (getJobIDNoIter pkg)
      stderr := .cerrLog (getJobIDNoIter pkg)
      wdir := some (cstr (getExecFileExecWdir pkg))
      args := words isSep (cstr (getExecFileExecExecfile pkg)) }
  else
    let sockClient := .client (getExecAddrPort pkg) (getExecAddrIpadd pkg)
    { stdin := sockClient
      stdout := sockClient
      stderr := sockClient
      wdir := some (cstr (getExecAddrFileExecWdir pkg))
      args := words isSep (cstr (getExecAddrFileExecExecfile pkg)) }

section Outcome

variable (calls : Calls) (behind : Behind) (pkg : Msg)

/-- The submitted command has been executed. -/
def Started : Prop :=
  calls.fork = true ∧ calls.killed = none ∧ consumeJob calls behind pkg = .exec (submitted pkg)

/-- The calls between `fork` and `execvp` succeed. -/
def SetUp : Prop :=
  calls.dupStdout = true ∧ calls.dupStderr = true ∧ calls.dupStdin = true ∧ calls.chdir = true ∧
    if getType pkg = MsgType.sendjobNointer.toByte then
      calls.openCout = true ∧ calls.openCerr = true ∧ calls.openDevNull = true
    else calls.gethostbyaddr = true ∧ calls.socket = true ∧ calls.connect = true

/-- The first `ARG_MAX - 1` words from `line_cpy` on are all the words of the
line. -/
def LineLegible (line behind : List UInt8) : Prop :=
  (words isSep (cstr (strncpy (szPath * numPath) line ++ behind))).take (argMax - 1) =
    words isSep (cstr line)

/-- The path that starts with a field ends in it. -/
def PathLegible {n : Nat} (f : Field n) : Prop :=
  cstr (pkg.bytes.drop f.off ++ behind.pkg) = cstr (pkg.get f)

def Legible : Prop :=
  if getType pkg = MsgType.sendjobNointer.toByte then
    LineLegible (getExecFileExecExecfile pkg) behind.line ∧
      PathLegible behind pkg .execWorkingDir
  else
    LineLegible (getExecAddrFileExecExecfile pkg) behind.line ∧
      PathLegible behind pkg .addrWorkingDir

/-- The two exit values that `setJobDone` takes for a failed start. -/
def WaitStatus.Reserved (status : WaitStatus) : Prop := status = .exited 40 ∨ status = .exited 41

/-- The result is reported as it is: without a child; or with a child that
neither a signal nor the `exit(0)` of `socketPortConnect` ends early and that
cannot become the command, or becomes the command as submitted, or something
else that ends with a reserved value. -/
def Reported : Prop :=
  calls.fork = false ∨
    calls.killed = none ∧
      (getType pkg = MsgType.sendjobNointer.toByte ∨ calls.gethostbyaddr = true) ∧
      (calls.execvp = true → (SetUp calls pkg ∧ Legible behind pkg ↔ ¬ calls.command.Reserved))

/-- The state and the value of a wait status in its report. -/
def WaitStatus.report : WaitStatus → JobState × UInt8
  | .exited status => (doneState status, status)
  | .signaled sig => (.signaled, sig)

/-- The state and the value in the last report of a job. -/
def lastReport : JobState × UInt8 :=
  if calls.fork then (waitStatus calls behind pkg).report else (.error, 41)

/-- What `jobState` says of a job is what happened to it. -/
structure JobStateMsg.Truthful (answer : JobStateMsg) : Prop where
  finished : ∀ c, answer.state = JobState.finished.toByte ∧ answer.exitValue = c ↔
    Started calls behind pkg ∧ calls.command = .exited c
  signaled : ∀ sig, answer.state = JobState.signaled.toByte ∧ answer.exitValue = sig ↔
    Started calls behind pkg ∧ calls.command = .signaled sig
  error : answer.state = JobState.error.toByte ↔ ¬ Started calls behind pkg

end Outcome

/-! ## Terminated fields -/

/-- A terminated line is legible up to nineteen words. -/
theorem lineLegible_iff {line : List UInt8} (hlen : line.length = szPath * numPath)
    (hnul : 0 ∈ line) (behind : List UInt8) :
    LineLegible line behind ↔ (words isSep (cstr line)).length ≤ argMax - 1 := by
  have hcopy : cstr (strncpy (szPath * numPath) line ++ behind) = cstr line := by
    rw [cstr_append_of_nul (nul_mem_strncpy hlen hnul), cstr_strncpy_field hlen]
  rw [LineLegible, hcopy, List.take_eq_self_iff]

theorem pathLegible_of_nul {n : Nat} {pkg : Msg} {f : Field n} (hnul : 0 ∈ pkg.get f)
    (behind : Behind) : PathLegible behind pkg f := by
  rw [PathLegible, pkg.drop_off f, List.append_assoc, cstr_append_of_nul hnul]

/-! ## The child -/

section Child

variable {calls : Calls} {behind : Behind} {pkg : Msg}

theorem execLine_eq_exec {proc proc' : Proc} {line : List UInt8} :
    execLine calls behind proc line = .exec proc' ↔
      calls.execvp = true ∧ { proc with args := parseLine line behind.line } = proc' := by
  unfold execLine
  split
  · next h => simp [h]
  · next h => simp [h]

/-- The directory is changed last, so it tells whether everything went through. -/
theorem setFDsNoIter_cases (hpkg : getType pkg = MsgType.sendjobNointer.toByte) :
    (SetUp calls pkg ∧ setFDsNoIter calls behind pkg .forked =
      { stdin := .devNull
        stdout := .coutLog (getJobIDNoIter pkg)
        stderr := .cerrLog (getJobIDNoIter pkg)
        wdir := some (pathAt behind pkg .execWorkingDir)
        args := [] }) ∨
    (¬ SetUp calls pkg ∧ (setFDsNoIter calls behind pkg .forked).wdir = none) := by
  unfold SetUp setFDsNoIter
  rw [if_pos hpkg]
  cases calls.openCout
  · exact .inr ⟨by simp, rfl⟩
  cases calls.openCerr
  · exact .inr ⟨by simp, rfl⟩
  cases calls.openDevNull
  · exact .inr ⟨by simp, rfl⟩
  cases calls.dupStdout
  · exact .inr ⟨by simp, rfl⟩
  cases calls.dupStderr
  · exact .inr ⟨by simp, rfl⟩
  cases calls.dupStdin
  · exact .inr ⟨by simp, rfl⟩
  cases calls.chdir
  · exact .inr ⟨by simp, rfl⟩
  · exact .inl ⟨by simp, rfl⟩

theorem setFDsIter_cases (hpkg : getType pkg ≠ MsgType.sendjobNointer.toByte)
    (hhost : calls.gethostbyaddr = true) :
    ∃ proc, setFDsIter calls behind pkg .forked = .ok proc ∧
      ((SetUp calls pkg ∧ proc =
        { stdin := .client (getExecAddrPort pkg) (getExecAddrIpadd pkg)
          stdout := .client (getExecAddrPort pkg) (getExecAddrIpadd pkg)
          stderr := .client (getExecAddrPort pkg) (getExecAddrIpadd pkg)
          wdir := some (pathAt behind pkg .addrWorkingDir)
          args := [] }) ∨
      (¬ SetUp calls pkg ∧ proc.wdir = none)) := by
  unfold SetUp setFDsIter socketPortConnect
  rw [if_neg hpkg, hhost]
  cases calls.socket
  · exact ⟨_, rfl, .inr ⟨by simp, rfl⟩⟩
  cases calls.connect
  · exact ⟨_, rfl, .inr ⟨by simp, rfl⟩⟩
  cases calls.dupStdout
  · exact ⟨_, rfl, .inr ⟨by simp, rfl⟩⟩
  cases calls.dupStderr
  · exact ⟨_, rfl, .inr ⟨by simp, rfl⟩⟩
  cases calls.dupStdin
  · exact ⟨_, rfl, .inr ⟨by simp, rfl⟩⟩
  cases calls.chdir
  · exact ⟨_, rfl, .inr ⟨by simp, rfl⟩⟩
  · exact ⟨_, rfl, .inl ⟨by simp, rfl⟩⟩

/-- How far the child comes: it exits early, does not get through `execvp`, or
becomes some command, which is the submitted one exactly when nothing went
wrong before. -/
theorem consumeJob_cases (hpkg : execJobID pkg ≠ none) :
    (¬ (getType pkg = MsgType.sendjobNointer.toByte ∨ calls.gethostbyaddr = true) ∧
      consumeJob calls behind pkg = .exit 0) ∨
    (getType pkg = MsgType.sendjobNointer.toByte ∨ calls.gethostbyaddr = true) ∧
      ((calls.execvp = false ∧ consumeJob calls behind pkg = .exit 40) ∨
        (calls.execvp = true ∧ ∃ proc, consumeJob calls behind pkg = .exec proc ∧
          (proc = submitted pkg ↔ SetUp calls pkg ∧ Legible behind pkg))) := by
  unfold execJobID at hpkg
  by_cases hno : getType pkg = MsgType.sendjobNointer.toByte
  · right
    unfold consumeJob
    rw [if_pos hno]
    refine ⟨.inl hno, ?_⟩
    cases hexec : calls.execvp
    · exact .inl ⟨rfl, by rw [execLine, hexec]; rfl⟩
    · refine .inr ⟨rfl, _, by rw [execLine, hexec]; rfl, ?_⟩
      unfold submitted Legible
      rw [if_pos hno, if_pos hno, LineLegible, ← parseLine_eq]
      rcases @setFDsNoIter_cases calls behind _ hno with ⟨hset, heq⟩ | ⟨hset, hdir⟩
      · rw [heq]
        simp [hset, and_comm, pathAt, PathLegible, getExecFileExecWdir]
      · refine ⟨fun heq => ?_, fun hok => absurd hok.1 hset⟩
        have hwdir := congrArg Proc.wdir heq
        rw [hdir] at hwdir
        cases hwdir
  · rw [if_neg hno] at hpkg
    have hinter : getType pkg = MsgType.sendjobInter.toByte := by
      by_contra hne
      rw [if_neg hne] at hpkg
      exact hpkg rfl
    unfold consumeJob
    rw [if_neg hno, if_pos hinter]
    cases hhost : calls.gethostbyaddr
    · left
      refine ⟨by simp [hno], ?_⟩
      unfold setFDsIter socketPortConnect
      rw [hhost]
      rfl
    · right
      refine ⟨.inr rfl, ?_⟩
      obtain ⟨proc, hproc, hcases⟩ := @setFDsIter_cases _ behind _ hno hhost
      rw [hproc]
      cases hexec : calls.execvp
      · exact .inl ⟨rfl, by simp only [execLine, hexec]; rfl⟩
      · refine .inr ⟨rfl, _, by simp only [execLine, hexec]; rfl, ?_⟩
        unfold submitted Legible
        rw [if_neg hno, if_neg hno, LineLegible, ← parseLine_eq]
        rcases hcases with ⟨hset, rfl⟩ | ⟨hset, hdir⟩
        · simp [hset, and_comm, pathAt, PathLegible, getExecAddrFileExecWdir]
        · refine ⟨fun heq => ?_, fun hok => absurd hok.1 hset⟩
          have hwdir := congrArg Proc.wdir heq
          rw [hdir] at hwdir
          cases hwdir

end Child

/-! ## The answer -/

section Answer

variable {calls : Calls} {behind : Behind} {pkg : Msg} {answer : JobStateMsg}

theorem toByte_inj {state state' : JobState} : state.toByte = state'.toByte ↔ state = state' := by
  cases state <;> cases state' <;> decide

theorem report_error {status : WaitStatus} : status.report.1 = .error ↔ status.Reserved := by
  cases status with
  | signaled sig => simp [WaitStatus.report, WaitStatus.Reserved]
  | exited c =>
      simp only [WaitStatus.report, doneState, WaitStatus.Reserved, WaitStatus.exited.injEq]
      split
      · next h => simp [h]
      · next h => simp [h]

/-- About a command that was started, all but the two reserved values are
reported as they are. -/
theorem truthful_of_started (hstart : Started calls behind pkg)
    (hstate : answer.state = calls.command.report.1.toByte)
    (hvalue : answer.exitValue = calls.command.report.2) :
    answer.Truthful calls behind pkg ↔ ¬ calls.command.Reserved := by
  constructor
  · intro htrue hres
    refine htrue.error.mp ?_ hstart
    rw [hstate, report_error.mpr hres]
  · intro hres
    have herror := mt report_error.mp hres
    refine ⟨fun c => ?_, fun sig => ?_, ?_⟩
    · rw [hstate, hvalue, toByte_inj, and_iff_right hstart]
      cases hcmd : calls.command with
      | signaled s => simp [WaitStatus.report]
      | exited d =>
          rw [hcmd] at herror
          simp only [WaitStatus.report, doneState] at herror ⊢
          split at herror
          · exact absurd rfl herror
          · next hd => simp [hd]
    · rw [hstate, hvalue, toByte_inj, and_iff_right hstart]
      cases hcmd : calls.command with
      | signaled s => simp [WaitStatus.report]
      | exited d =>
          simp only [WaitStatus.report, doneState]
          split <;> simp
    · rw [hstate, toByte_inj]
      simp [herror, hstart]

/-- About anything else, only a failed start is true. -/
theorem truthful_of_not_started (hstart : ¬ Started calls behind pkg) :
    answer.Truthful calls behind pkg ↔ answer.state = JobState.error.toByte := by
  constructor
  · intro htrue
    exact htrue.error.mpr hstart
  · intro herror
    refine ⟨fun c => ?_, fun sig => ?_, ?_⟩
    · rw [herror, toByte_inj]
      simp [hstart]
    · rw [herror, toByte_inj]
      simp [hstart]
    · simp [herror, hstart]

/-- An answer out of the last report is true exactly when the result is
reported as it is. -/
theorem truthful_iff (hpkg : execJobID pkg ≠ none)
    (hstate : answer.state = (lastReport calls behind pkg).1.toByte)
    (hvalue : answer.exitValue = (lastReport calls behind pkg).2) :
    answer.Truthful calls behind pkg ↔ Reported calls behind pkg := by
  unfold lastReport at hstate hvalue
  cases hfork : calls.fork
  · -- No child, and the value that says so.
    have hstart : ¬ Started calls behind pkg := fun h => by simp [Started, hfork] at h
    rw [hfork] at hstate
    rw [truthful_of_not_started hstart, hstate]
    exact ⟨fun _ => .inl hfork, fun _ => rfl⟩
  rw [hfork, if_pos rfl] at hstate hvalue
  unfold waitStatus at hstate hvalue
  unfold Reported
  rw [hfork]
  cases hkilled : calls.killed with
  | some sig =>
      have hstart : ¬ Started calls behind pkg := fun h => by simp [Started, hkilled] at h
      rw [hkilled] at hstate
      rw [truthful_of_not_started hstart, hstate]
      simp [WaitStatus.report, toByte_inj]
  | none =>
      rw [hkilled] at hstate hvalue
      have hiff : Started calls behind pkg ↔ consumeJob calls behind pkg = .exec (submitted pkg) := by
        simp [Started, hfork, hkilled]
      rcases @consumeJob_cases calls behind _ hpkg with
        ⟨hhost, hend⟩ | ⟨hhost, ⟨hexec, hend⟩ | ⟨hexec, proc, hend, hproc⟩⟩
      · have hstart : ¬ Started calls behind pkg := fun h => by
          rw [hiff, hend] at h
          cases h
        rw [hend] at hstate
        rw [truthful_of_not_started hstart, hstate]
        simp [hhost, WaitStatus.report, doneState, toByte_inj]
      · have hstart : ¬ Started calls behind pkg := fun h => by
          rw [hiff, hend] at h
          cases h
        rw [hend] at hstate
        rw [truthful_of_not_started hstart, hstate]
        simp [hhost, hexec, WaitStatus.report, doneState]
      · rw [hend] at hstate hvalue hiff
        have hwell : Started calls behind pkg ↔ SetUp calls pkg ∧ Legible behind pkg := by
          rw [hiff, ← hproc, ChildEnd.exec.injEq]
        by_cases hset : SetUp calls pkg ∧ Legible behind pkg
        · rw [truthful_of_started (hwell.mpr hset) hstate hvalue]
          simp [hhost, hexec, hset]
        · rw [truthful_of_not_started (mt hwell.mp hset), hstate, toByte_inj, report_error]
          simp only [hhost, hexec, hset, false_iff, not_not, forall_const, true_and,
            Bool.true_eq_false, false_or]

end Answer

/-! ## Through the main server -/

section Reports

variable {calls : Calls} {behind : Behind} {pkg : Msg} {jobid : UInt16}

/-- What `attendExecServ` calls `changeStateJob` with. -/
def Msg.reportOp (pkg : Msg) : HistOp :=
  .changeStateJob (getJobStateID pkg) (getJobStateState pkg) (getJobStateExitValue pkg)

theorem reportOp_jobRun (h : SetterCall.Arrived (.jobRun jobid) pkg) :
    pkg.reportOp = .changeStateJob jobid JobState.run.toByte 0 := by
  obtain ⟨hid, hstate, hvalue⟩ := h.readBack trivial
  rw [Msg.reportOp, hid, hstate, hvalue]

theorem reportOp_jobDone {status : UInt8} (h : SetterCall.Arrived (.jobDone jobid status) pkg) :
    pkg.reportOp = .changeStateJob jobid (doneState status).toByte status := by
  obtain ⟨hid, hstate, hvalue⟩ := h.readBack trivial
  rw [Msg.reportOp, hid, hstate, hvalue]

theorem reportOp_jobSignaled {sig : UInt8} (h : SetterCall.Arrived (.jobSignaled jobid sig) pkg) :
    pkg.reportOp = .changeStateJob jobid JobState.signaled.toByte sig := by
  obtain ⟨hid, hstate, hvalue⟩ := h.readBack trivial
  rw [Msg.reportOp, hid, hstate, hvalue]

/-- The report that comes last is the last one to be written. -/
theorem reportOps (hjob : execJobID pkg = some jobid) {received : List Msg}
    (h : List.Forall₂ SetterCall.Arrived (execJob calls behind pkg) received) :
    ∃ earlier, received.map Msg.reportOp = earlier ++
      [.changeStateJob jobid (lastReport calls behind pkg).1.toByte
        (lastReport calls behind pkg).2] := by
  unfold execJob at h
  unfold lastReport
  rw [hjob] at h
  simp only [Option.elim_some] at h
  split at h
  · next hfork =>
      rw [if_pos hfork]
      cases hstatus : waitStatus calls behind pkg with
      | exited status =>
          rw [hstatus] at h
          obtain - | ⟨hrun, - | ⟨hdone, ⟨⟩⟩⟩ := h
          refine ⟨[.changeStateJob jobid JobState.run.toByte 0], ?_⟩
          rw [List.map_cons, List.map_cons, reportOp_jobRun hrun, reportOp_jobDone hdone]
          rfl
      | signaled sig =>
          rw [hstatus] at h
          obtain - | ⟨hrun, - | ⟨hsig, ⟨⟩⟩⟩ := h
          refine ⟨[.changeStateJob jobid JobState.run.toByte 0], ?_⟩
          rw [List.map_cons, List.map_cons, reportOp_jobRun hrun, reportOp_jobSignaled hsig]
          rfl
  · next hfork =>
      rw [if_neg hfork]
      obtain - | ⟨hdone, ⟨⟩⟩ := h
      refine ⟨[], ?_⟩
      rw [List.map_cons, reportOp_jobDone hdone]
      rfl

theorem mem_execJob_type {c : SetterCall} (h : c ∈ execJob calls behind pkg) :
    c.type = .jobRun ∨ c.type = .jobDone ∨ c.type = .jobSig := by
  unfold execJob at h
  cases hjob : execJobID pkg with
  | none => rw [hjob] at h; cases h
  | some jobid =>
      rw [hjob] at h
      simp only [Option.elim_some] at h
      split at h
      · cases hstatus : waitStatus calls behind pkg with
        | exited status =>
            rw [hstatus] at h
            simp only [fatherJobRoutine, List.mem_cons, List.not_mem_nil, or_false] at h
            rcases h with rfl | rfl <;> simp [SetterCall.type]
        | signaled sig =>
            rw [hstatus] at h
            simp only [fatherJobRoutine, List.mem_cons, List.not_mem_nil, or_false] at h
            rcases h with rfl | rfl <;> simp [SetterCall.type]
      · simp only [errorFork, List.mem_singleton] at h
        subst h
        simp [SetterCall.type]

/-- Whatever an exec server sends of a job, `attendExecServ` takes for a report. -/
theorem reports_of_execJob {received : List Msg}
    (h : List.Forall₂ SetterCall.Arrived (execJob calls behind pkg) received) {m : Msg}
    (hm : m ∈ received) : m.Reports := by
  obtain ⟨c, hc, hreceived⟩ : ∃ c ∈ execJob calls behind pkg, c.Arrived m := by
    obtain ⟨i, hi, rfl⟩ := List.getElem_of_mem hm
    have hlen := h.length_eq
    exact ⟨_, List.getElem_mem (by omega), h.get (by omega) hi⟩
  unfold Msg.Reports
  rw [hreceived.getType]
  rcases mem_execJob_type hc with htype | htype | htype
  · exact .inl (by rw [htype])
  · exact .inr (.inl (by rw [htype]))
  · exact .inr (.inr (by rw [htype]))

end Reports

namespace History

instance (jobid : UInt16) : (op : HistOp) → Decidable (WritesTo jobid op)
  | .unsubmit jobid' => decidable_of_iff (jobid' = jobid) (by simp [WritesTo])
  | .changeStateJob jobid' _ _ => decidable_of_iff (jobid' = jobid) (by simp [WritesTo])
  | .newJob .. => isFalse (by simp [WritesTo])
  | .jobState _ => isFalse (by simp [WritesTo])
  | .putJobBack .. => isFalse (by simp [WritesTo])

/-- What is written for an id is in the operations that write to it. -/
theorem filterMap_written {written : UInt16 → HistOp → Option UInt8} {jobid : UInt16}
    (hnone : ∀ op, ¬ WritesTo jobid op → written jobid op = none) (post : List HistOp) :
    (post.filter (WritesTo jobid ·)).filterMap (written jobid) =
      post.filterMap (written jobid) := by
  rw [List.filterMap_filter]
  congr 1
  funext op
  split
  · rfl
  · next hop => exact (hnone op (by simpa using hop)).symm

theorem stateWritten_none {jobid : UInt16} (op : HistOp) (h : ¬ WritesTo jobid op) :
    stateWritten jobid op = none := by
  cases op with
  | newJob | jobState | putJobBack => rfl
  | unsubmit jobid' =>
      exact if_neg fun heq => h (.inl (by rw [heq]))
  | changeStateJob jobid' state exitValue =>
      exact if_neg fun heq => h (.inr ⟨state, exitValue, by rw [heq]⟩)

theorem exitWritten_none {jobid : UInt16} (op : HistOp) (h : ¬ WritesTo jobid op) :
    exitWritten jobid op = none := by
  cases op with
  | newJob | jobState | putJobBack | unsubmit => rfl
  | changeStateJob jobid' state exitValue =>
      exact if_neg fun heq => h (.inr ⟨state, exitValue, by rw [heq]⟩)

end History

section Runs

variable {N : Nat} [NeZero N]

/-- In every state of every run: when the last writes to a record that is still
there are those of the reports of one job, every one of which came in as a
report, `jobState` has an answer, and the answer is true exactly when the result
of the job is reported as it is. -/
theorem outcome_reported_iff {s : Sys N} (h : Reach Sys.step anyStep (· = Sys.init N) s)
    {calls : Calls} {behind : Behind} {pkg : Msg} {jobid : UInt16}
    (hjob : execJobID pkg = some jobid) {received : List Msg}
    (hreceived : List.Forall₂ SetterCall.Arrived (execJob calls behind pkg) received)
    {pre post earlier : List HistOp} {r : JobHistory} {q : UInt16} {a : UInt32}
    (hlatest : History.Latest s.ops (History.slotOf jobid) pre r q a post)
    (hid : History.idOf (submissions pre) = jobid)
    (hwrites : post.filter (History.WritesTo jobid ·) = earlier ++ received.map Msg.reportOp) :
    (∀ m ∈ received, (receiveExecServ m : Pc N) =
      .changeStateJob (getJobStateID m) (getJobStateState m) (getJobStateExitValue m)) ∧
    ∃ answer, s.server.history.jobState jobid = .ok (some answer) ∧
      (answer.Truthful calls behind pkg ↔ Reported calls behind pkg) := by
  obtain ⟨before, hops⟩ := reportOps hjob hreceived
  have hlast : ∀ {written : UInt16 → HistOp → Option UInt8} {v : UInt8},
      (∀ op, ¬ History.WritesTo jobid op → written jobid op = none) →
      written jobid (.changeStateJob jobid (lastReport calls behind pkg).1.toByte
        (lastReport calls behind pkg).2) = some v →
      (post.filterMap (written jobid)).getLast? = some v := by
    intro written v hnone hv
    rw [← History.filterMap_written hnone, hwrites, hops, ← List.append_assoc,
      List.filterMap_append, List.filterMap_cons_some hv, List.filterMap_nil]
    exact List.getLast?_concat
  refine ⟨fun m hm => receiveExecServ_reports (reports_of_execJob hreceived hm),
    _, History.jobState_latest (linked_of_reach h) hlatest hid, ?_⟩
  refine truthful_iff (by rw [hjob]; exact Option.some_ne_none _) ?_ ?_
  · rw [hlast History.stateWritten_none (if_pos rfl)]
    rfl
  · rw [hlast History.exitWritten_none (if_pos rfl)]
    rfl

/-- The job `ls` in `/`. -/
def lsJob : Msg := setFileExecNoInter (Msg.fill 0) [108, 115, 10] [47] 0

/-- Its two reports, as they arrive when the child has exited. -/
def lsReports (status : UInt8) : List Msg :=
  [(Msg.fill 0).over (SetterCall.jobRun 0).wire,
    (Msg.fill 0).over (SetterCall.jobDone 0 status).wire]

/-- A client submits it, an exec server fetches it, and reports on it. -/
def lsRun (status : UInt8) : List Action :=
  [.acceptClient,
    .receive 0 (setFileExecNoInterClient (Msg.fill 0) [108, 115, 10] [47] 0) Action.blankJob,
    .go 0, .go 0, .go 0, .go 0, .acceptExecServ, .request 1, .go 1, .go 1, .go 1, .go 1] ++
  (lsReports status).flatMap fun m => [.report 1 m, .go 1]

/-- Every call succeeds, and `ls` exits with `status`. -/
def lsCalls (status : UInt8) : Calls where
  fork := true
  openCout := true
  openCerr := true
  openDevNull := true
  socket := true
  gethostbyaddr := true
  connect := true
  dupStdout := true
  dupStderr := true
  dupStdin := true
  chdir := true
  execvp := true
  killed := none
  command := .exited status

theorem lsReports_arrived {calls : Calls} {status : UInt8} (hfork : calls.fork = true)
    (hstatus : waitStatus calls ⟨[], []⟩ lsJob = .exited status) :
    List.Forall₂ SetterCall.Arrived (execJob calls ⟨[], []⟩ lsJob) (lsReports status) := by
  have hjob : execJobID lsJob = some 0 := by decide +kernel
  rw [execJob, hjob, Option.elim_some, if_pos hfork, hstatus]
  exact .cons ⟨_, rfl⟩ (.cons ⟨_, rfl⟩ .nil)

theorem outcome_reported_iff_ls :
    ∃ s : Sys numQueueMax, Reach Sys.step anyStep (· = Sys.init numQueueMax) s ∧
      ∃ answer, s.server.history.jobState 0 = .ok (some answer) ∧
        answer.Truthful (lsCalls 7) ⟨[], []⟩ lsJob := by
  obtain ⟨s, hr, hops⟩ :
      ∃ s, Reach Sys.step anyStep (· = Sys.init numQueueMax) s ∧
        s.ops = [.newJob ⟨0, 0, 0, 0, 0, 0⟩ 0 0, .changeStateJob 0 JobState.run.toByte 0,
          .changeStateJob 0 JobState.finished.toByte 7] :=
    @reach_of_checkedRun _ _ _ _ _ _ (lsRun 7) _ _ _ rfl (by decide +kernel)
  have hlatest : History.Latest s.ops (History.slotOf 0) [] ⟨0, 0, 0, 0, 0, 0⟩ 0 0
      [.changeStateJob 0 JobState.run.toByte 0,
        .changeStateJob 0 JobState.finished.toByte 7] :=
    ⟨hops, rfl, fun mid r q a post' heq => by
      have hmem : HistOp.newJob r q a ∈ mid ++ .newJob r q a :: post' := by simp
      rw [← heq] at hmem
      simp at hmem⟩
  have hstatus : waitStatus (lsCalls 7) ⟨[], []⟩ lsJob = .exited 7 := by decide +kernel
  have hwrites : [.changeStateJob 0 JobState.run.toByte 0,
        .changeStateJob 0 JobState.finished.toByte 7].filter (History.WritesTo 0 ·) =
      [] ++ (lsReports 7).map Msg.reportOp := by decide +kernel
  obtain ⟨-, answer, hanswer, hiff⟩ := outcome_reported_iff hr (by decide +kernel)
    (lsReports_arrived rfl hstatus) hlatest rfl hwrites
  refine ⟨s, hr, answer, hanswer, hiff.mpr (.inr ⟨rfl, .inl (by decide +kernel), fun _ => ?_⟩)⟩
  unfold SetUp Legible LineLegible PathLegible WaitStatus.Reserved
  decide +kernel

/-- `chdir` fails, `ls` runs elsewhere, and is reported as finished. -/
theorem failed_chdir_reported_finished :
    ∃ s : Sys numQueueMax, Reach Sys.step anyStep (· = Sys.init numQueueMax) s ∧ s.Bounded ∧
      s.fault = none ∧ .sent 1 0 lsJob.wire ∈ s.log ∧
      List.Forall₂ SetterCall.Arrived
        (execJob { lsCalls 0 with chdir := false } ⟨[], []⟩ lsJob) (lsReports 0) ∧
      s.ops = .newJob ⟨0, 0, 0, 0, 0, 0⟩ 0 0 :: (lsReports 0).map Msg.reportOp ∧
      ∃ answer, s.server.history.jobState 0 = .ok (some answer) ∧
        ¬ answer.Truthful { lsCalls 0 with chdir := false } ⟨[], []⟩ lsJob := by
  obtain ⟨s, hr, hb, hfault, hsent, hops, hanswer⟩ :
      ∃ s, Reach Sys.step anyStep (· = Sys.init numQueueMax) s ∧ s.Bounded ∧ s.fault = none ∧
        .sent 1 0 lsJob.wire ∈ s.log ∧
        s.ops = .newJob ⟨0, 0, 0, 0, 0, 0⟩ 0 0 :: (lsReports 0).map Msg.reportOp ∧
        s.server.history.jobState 0 = .ok (some ⟨JobState.finished.toByte, 0, 0⟩) :=
    @reach_of_checkedRun _ _ _ _ _ _ (lsRun 0) _ _ _ rfl (by decide +kernel)
  refine ⟨s, hr, hb, hfault, hsent, lsReports_arrived rfl (by decide +kernel), hops, _, hanswer,
    fun htrue => ?_⟩
  obtain ⟨⟨-, -, hexec⟩, -⟩ := (htrue.finished 0).mp ⟨rfl, rfl⟩
  exact absurd hexec (by decide +kernel)

end Runs

end DistQueue
