import DistQueue.Server.Retention

/-!
# Reports from the network

`attendExecServ` picks out a report by the type in its header, and
`changeStateJob` goes by the state byte in its payload. Nobody compares the two.
The state byte is written into the record before it is looked at, and the only
answer to an unknown one is the `assert` that ends the process.

The two times of a record take part here, because a report that is taken stamps
one of them: they stand beside the array, by slots.
-/

namespace DistQueue

open DistQueue.Lib

/-- `startProcTime` and `endProcTime` -/
structure ProcTimes where
  startProc : Int
  endProc : Int
  deriving DecidableEq, Repr

/-- The `switch` of `changeStateJob`, `now` being what `time` returns. -/
def ProcTimes.stamp (times : ProcTimes) (state : UInt8) (now : Int) : ProcTimes :=
  if state = JobState.run.toByte then { times with startProc := now }
  else if History.Reportable state then { times with endProc := now }
  else times

/-- `changeStateJob` on a message. It has a result when it comes to the unlock at
its end. -/
def History.takeReport (h : History) (times : Nat → ProcTimes) (pkg : Msg) (now : Int) :
    Except Fault (History × (Nat → ProcTimes)) := do
  let jobid := getJobStateID pkg
  let state := getJobStateState pkg
  let history ← h.changeStateJob jobid state (getJobStateExitValue pkg)
  .ok
    (history,
      match h.findJob jobid with
      | none => times
      | some idx => Function.update times idx ((times idx).stamp state now))

/-- A message that `attendExecServ` hands to `changeStateJob`. -/
def Msg.Reports (pkg : Msg) : Prop :=
  getType pkg = MsgType.jobRun.toByte ∨ getType pkg = MsgType.jobDone.toByte ∨
    getType pkg = MsgType.jobSig.toByte

/-- The state byte is one that goes with the type. -/
def Msg.Denotes (pkg : Msg) : Prop :=
  (getType pkg = MsgType.jobRun.toByte ∧ getJobStateState pkg = JobState.run.toByte) ∨
  (getType pkg = MsgType.jobDone.toByte ∧
    (getJobStateState pkg = JobState.finished.toByte ∨
      getJobStateState pkg = JobState.error.toByte)) ∨
  (getType pkg = MsgType.jobSig.toByte ∧ getJobStateState pkg = JobState.signaled.toByte)

instance (pkg : Msg) : Decidable pkg.Denotes := inferInstanceAs (Decidable (_ ∨ _ ∨ _))

theorem Msg.Denotes.reportable {pkg : Msg} (h : pkg.Denotes) :
    History.Reportable (getJobStateState pkg) := by
  rcases h with ⟨-, hs⟩ | ⟨-, hs | hs⟩ | ⟨-, hs⟩
  · exact .inr (.inr (.inr hs))
  · exact .inl hs
  · exact .inr (.inr (.inl hs))
  · exact .inr (.inl hs)

theorem receiveExecServ_reports {N : Nat} {pkg : Msg} (h : pkg.Reports) :
    (receiveExecServ pkg : Pc N) =
      .changeStateJob (getJobStateID pkg) (getJobStateState pkg) (getJobStateExitValue pkg) := by
  have hreq : getType pkg ≠ MsgType.jobReq.toByte := by
    rcases h with h | h | h <;> rw [h] <;> decide
  unfold receiveExecServ
  dsimp only
  rw [if_neg hreq]
  exact if_pos h

namespace History

variable {h : History} {n : Nat} {times : Nat → ProcTimes} {pkg : Msg} {now : Int}

/-- The report is dealt with: without the `assert`, the record of the id takes a
state that goes with the type, and nothing is touched otherwise. -/
def DealtWith (h : History) (times : Nat → ProcTimes) (pkg : Msg) (now : Int) : Prop :=
  ∃ h' times', h.takeReport times pkg now = .ok (h', times') ∧
    (pkg.Denotes → ∀ c, h'.slot c = (h.slot c).map fun job =>
      if job.id = getJobStateID pkg then
        { job with state := getJobStateState pkg, exitStatus := getJobStateExitValue pkg }
      else job) ∧
    (¬ pkg.Denotes → h' = h ∧ times' = times)

/-- The report says what the record says, down to the time. -/
def Repeats (times : Nat → ProcTimes) (pkg : Msg) (now : Int) (job : JobHistory) : Prop :=
  Reportable (getJobStateState pkg) ∧ job.state = getJobStateState pkg ∧
    job.exitStatus = getJobStateExitValue pkg ∧
    (times (slotOf job.id)).stamp (getJobStateState pkg) now = times (slotOf job.id)

theorem setRecord_inj {idx : Nat} {job job' : JobHistory} (hidx : idx < jobHistoryMax)
    (hslot : h.slot idx = some job) (heq : h.setRecord idx job' = h) : job' = job := by
  have hnew := slot_setRecord (h := h) hidx job' idx
  rw [heq, hslot, if_pos rfl] at hnew
  injection hnew with hnew
  exact hnew.symm

theorem setRecord_self {idx : Nat} {job : JobHistory} (hslot : h.slot idx = some job) :
    h.setRecord idx job = h := by
  have hcell : h.jobArray[idx]? = some (some job) := slot_eq_some.mp hslot
  obtain ⟨hlt, hget⟩ := Vector.getElem?_eq_some_iff.mp hcell
  have hsame : h.jobArray.setIfInBounds idx (some job) = h.jobArray := by
    refine Vector.ext fun i hi => ?_
    rw [Vector.getElem_setIfInBounds hi]
    split
    · next heq =>
        subst heq
        exact hget.symm
    · rfl
  rw [setRecord, hsame]

/-- A report is dealt with exactly when its state goes with its type, when there
is no record of its id, or when it only repeats the record. -/
theorem dealtWith_iff (hinv : h.Inv n) :
    h.DealtWith times pkg now ↔
      pkg.Denotes ∨ ∀ job, h.retained (getJobStateID pkg) = some job →
        Repeats times pkg now job := by
  have hfind := findJob_eq hinv (getJobStateID pkg)
  have hchange := changeStateJob_eq hinv (getJobStateID pkg) (getJobStateState pkg)
    (getJobStateExitValue pkg)
  rw [DealtWith, takeReport, hchange, hfind]
  cases hret : h.retained (getJobStateID pkg) with
  | none =>
      refine ⟨fun _ => .inr fun job hjob => (by cases hjob), fun _ => ⟨h, times, rfl, ?_, ?_⟩⟩
      · exact fun _ c => slot_keep hinv hret (fun job =>
          { job with state := getJobStateState pkg, exitStatus := getJobStateExitValue pkg }) c
      · exact fun _ => ⟨rfl, rfl⟩
  | some job =>
      obtain ⟨hslot, hid⟩ := retained_eq_some.mp hret
      have hlt := slotOf_lt (getJobStateID pkg)
      by_cases hstate : Reportable (getJobStateState pkg)
      · simp only [if_pos hstate, Option.map_some, bind, Except.bind]
        constructor
        · rintro ⟨h', times', hok, -, hkeep⟩
          injection hok with hok
          injection hok with hh htimes
          by_cases hden : pkg.Denotes
          · exact .inl hden
          · right
            obtain ⟨hh', htimes'⟩ := hkeep hden
            rintro _ ⟨rfl⟩
            have hjob := setRecord_inj hlt hslot (hh.trans hh')
            have htime := congrFun (htimes.trans htimes') (slotOf (getJobStateID pkg))
            rw [Function.update_self] at htime
            refine ⟨hstate, ?_, ?_, ?_⟩
            · exact (congrArg JobHistory.state hjob).symm
            · exact (congrArg JobHistory.exitStatus hjob).symm
            · rw [hid]
              exact htime
        · intro hcond
          refine ⟨_, _, rfl, fun _ c => ?_, fun hnot => ?_⟩
          · exact slot_change hinv hret (fun job =>
              { job with state := getJobStateState pkg, exitStatus := getJobStateExitValue pkg }) c
          · obtain ⟨-, hs, he, ht⟩ := hcond.resolve_left hnot job rfl
            rw [hid] at ht
            refine ⟨?_, ?_⟩
            · rw [← hs, ← he]
              exact setRecord_self hslot
            · rw [ht]
              exact Function.update_eq_self _ _
      · simp only [if_neg hstate, bind, Except.bind]
        constructor
        · rintro ⟨h', times', hok, -⟩
          cases hok
        · rintro (hden | hrepeats)
          · exact absurd hden.reportable hstate
          · exact absurd (hrepeats job rfl).1 hstate

end History

section Runs

variable {N : Nat} [NeZero N]

/-- In every state of every run, a report that comes in goes to `changeStateJob`,
which deals with it exactly when its state goes with its type, or there is no
record of its id, or it only repeats the record. -/
theorem report_dealt_with_iff {s : Sys N} (h : Reach Sys.step anyStep (· = Sys.init N) s)
    {pkg : Msg} (hpkg : pkg.Reports) (times : Nat → ProcTimes) (now : Int) :
    (receiveExecServ pkg : Pc N) =
        .changeStateJob (getJobStateID pkg) (getJobStateState pkg) (getJobStateExitValue pkg) ∧
      (s.server.history.DealtWith times pkg now ↔
        pkg.Denotes ∨ ∀ job, s.server.history.retained (getJobStateID pkg) = some job →
          History.Repeats times pkg now job) :=
  ⟨receiveExecServ_reports hpkg, History.dealtWith_iff (linked_of_reach h).inv⟩

/-- A report that job 0 runs. -/
theorem report_dealt_with_iff_run :
    ∃ s : Sys numQueueMax, Reach Sys.step anyStep (· = Sys.init numQueueMax) s ∧
      s.server.history.findJob 0 ≠ none ∧
      s.server.history.DealtWith (fun _ => ⟨0, 0⟩) (setJobRun (Msg.fill 0) 0) 1 := by
  obtain ⟨s, hr, hfind⟩ :
      ∃ s, Reach Sys.step anyStep (· = Sys.init numQueueMax) s ∧
        s.server.history.findJob 0 ≠ none :=
    @reach_of_checkedRun _ _ _ _ _ _ waitingRun _ _ _ rfl (by decide +kernel)
  have htype : getType (setJobRun (Msg.fill 0) 0) = MsgType.jobRun.toByte := by decide +kernel
  have hstate : getJobStateState (setJobRun (Msg.fill 0) 0) = JobState.run.toByte := by
    decide +kernel
  exact ⟨s, hr, hfind, (report_dealt_with_iff hr (.inl htype) _ _).2.mpr
    (.inl (.inl ⟨htype, hstate⟩))⟩

/-- `JOB_RUN` for job 0, with the state byte of a job that waits. -/
def waitingReport : Msg := (setJobRun (Msg.fill 0) 0).put8 .jobState JobState.wait.toByte

/-- The report ends the server. -/
theorem report_stops_server :
    ∃ s : Sys numQueueMax, Reach Sys.step anyStep (· = Sys.init numQueueMax) s ∧ s.Bounded ∧
      s.fault = none ∧ waitingReport.Reports ∧
      ((checkedRun Sys.step anyStep s
        [.acceptExecServ, .report 1 waitingReport, .go 1]).bind Sys.fault) = some .assertion ∧
      ∀ times now, ¬ s.server.history.DealtWith times waitingReport now := by
  obtain ⟨s, hr, hb, hfault, hend, hchange⟩ :
      ∃ s, Reach Sys.step anyStep (· = Sys.init numQueueMax) s ∧ s.Bounded ∧ s.fault = none ∧
        ((checkedRun Sys.step anyStep s
          [.acceptExecServ, .report 1 waitingReport, .go 1]).bind Sys.fault) = some .assertion ∧
        s.server.history.changeStateJob (getJobStateID waitingReport)
          (getJobStateState waitingReport) (getJobStateExitValue waitingReport) =
            .error .assertion :=
    @reach_of_checkedRun _ _ _ _ _ _ waitingRun _ _ _ rfl (by decide +kernel)
  refine ⟨s, hr, hb, hfault, .inl (by decide +kernel), hend, fun times now hdealt => ?_⟩
  obtain ⟨h', times', hok, -⟩ := hdealt
  rw [History.takeReport, hchange] at hok
  cases hok

end Runs

end DistQueue
