import DistQueue.Exec.Kind
import DistQueue.Server.Unsubmit

/-!
# Jobs at the exec servers

An exec server has one job at a time and reports its start and then its end, or
that it could not fork. What the server knows of this is in the log: the job it
has sent last on a connection, and the reports that have come back since. A step
either leaves that alone, or sends a job, or stores a report; `Course` lists
what it does to the records along with it.
-/

namespace DistQueue

open DistQueue.Lib

variable {N : Nat}

/-! ## What an exec server reports -/

/-- What `attendExecServ` makes of a report. -/
def SetterCall.report : SetterCall → Option HistOp
  | .jobRun jobid => some (.changeStateJob jobid JobState.run.toByte 0)
  | .jobDone jobid eStatus => some (.changeStateJob jobid (doneState eStatus).toByte eStatus)
  | .jobSignaled jobid eStatus => some (.changeStateJob jobid JobState.signaled.toByte eStatus)
  | _ => none

/-- `op` is a report that may come behind those of `done`, from the exec server
that has the job of this id. -/
def ComesNext (jobid : UInt16) : List HistOp → HistOp → Prop
  | [], .changeStateJob jobid' state exitValue =>
      jobid' = jobid ∧
        (state = JobState.run.toByte ∧ exitValue = 0 ∨
          state = (doneState 41).toByte ∧ exitValue = 41)
  | [first], .changeStateJob jobid' state exitValue =>
      first = .changeStateJob jobid JobState.run.toByte 0 ∧ jobid' = jobid ∧
        (state = (doneState exitValue).toByte ∨ state = JobState.signaled.toByte)
  | _, _ => False

instance (jobid : UInt16) : (done : List HistOp) → (op : HistOp) →
    Decidable (ComesNext jobid done op)
  | [], .changeStateJob .. => inferInstanceAs (Decidable (_ ∧ _))
  | [_], .changeStateJob .. => inferInstanceAs (Decidable (_ ∧ _ ∧ _))
  | _ :: _ :: _, _ => inferInstanceAs (Decidable False)
  | [], .newJob .. | [], .jobState _ | [], .unsubmit _ | [], .putJobBack ..
  | [_], .newJob .. | [_], .jobState _ | [_], .unsubmit _ | [_], .putJobBack .. =>
      inferInstanceAs (Decidable False)

theorem eq_of_pair {α : Type*} {a b x : α} {before after : List α}
    (h : [a, b] = before ++ x :: after) : (before = [] ∧ x = a) ∨ (before = [a] ∧ x = b) := by
  match before with
  | [] => exact .inl ⟨rfl, (List.cons.inj h).1.symm⟩
  | [c] =>
      obtain ⟨rfl, hrest⟩ := List.cons.inj h
      exact .inr ⟨rfl, (List.cons.inj hrest).1.symm⟩
  | _ :: _ :: before =>
      have hlen := congrArg List.length h
      simp at hlen

/-- The reports of `execJob` come in this order. -/
theorem comesNext_execJob {calls : Calls} {behind : Behind} {pkg : Msg} {jobid : UInt16}
    (hid : execJobID pkg = some jobid) {before after : List HistOp} {op : HistOp}
    (hops : (execJob calls behind pkg).filterMap SetterCall.report = before ++ op :: after) :
    ComesNext jobid before op := by
  rw [execJob, hid, Option.elim_some] at hops
  split at hops
  · cases hwait : waitStatus calls behind pkg with
    | exited status =>
        rw [hwait] at hops
        rcases eq_of_pair hops with ⟨rfl, rfl⟩ | ⟨rfl, rfl⟩
        · exact ⟨rfl, .inl ⟨rfl, rfl⟩⟩
        · exact ⟨rfl, rfl, .inl rfl⟩
    | signaled sig =>
        rw [hwait] at hops
        rcases eq_of_pair hops with ⟨rfl, rfl⟩ | ⟨rfl, rfl⟩
        · exact ⟨rfl, .inl ⟨rfl, rfl⟩⟩
        · exact ⟨rfl, rfl, .inr rfl⟩
  · cases before with
    | nil =>
        obtain ⟨rfl, -⟩ := List.cons.inj hops
        exact ⟨rfl, .inr ⟨rfl, rfl⟩⟩
    | cons _ before =>
        have hlen := congrArg List.length hops
        simp [errorFork, SetterCall.report] at hlen

/-- The job an exec server was sent last, and what it has reported since. -/
structure Serving where
  job : Ptr
  wire : List UInt8
  reports : List HistOp
  deriving DecidableEq, Repr

/-- One event more, seen from the thread of the exec server. -/
def serve (t : Nat) (serving : Option Serving) : Event N → Option Serving
  | .sent t' job wire => if t' = t then some ⟨job, wire, []⟩ else serving
  | .history t' (.changeStateJob jobid state exitValue) =>
      if t' = t then
        serving.map fun x =>
          { x with reports := x.reports ++ [.changeStateJob jobid state exitValue] }
      else serving
  | _ => serving

def Sys.serving (s : Sys N) (t : Nat) : Option Serving := s.log.foldl (serve t) none

def Pc.report : Pc N → Option HistOp
  | .changeStateJob jobid state exitValue => some (.changeStateJob jobid state exitValue)
  | _ => none

/-- The exec server may report `op`. -/
def Serving.Awaits (x : Serving) (op : HistOp) : Prop :=
  ∃ jobid ∈ execJobID ((Msg.fill 0).over x.wire), ComesNext jobid x.reports op

instance (x : Serving) (op : HistOp) : Decidable (x.Awaits op) :=
  inferInstanceAs (Decidable (∃ jobid ∈ _, _))

/-- A report that is received comes from an exec server that behaves. -/
def Sys.Conforms (s : Sys N) : Action → Prop
  | .receive t pkg _ =>
      s.threads[t]? = some .attendExecServ →
        ∀ op ∈ (receiveExecServ pkg : Pc N).report, ∃ x ∈ s.serving t, x.Awaits op
  | _ => True

instance (s : Sys N) : (a : Action) → Decidable (s.Conforms a)
  | .receive t pkg _ => inferInstanceAs (Decidable (s.threads[t]? = some .attendExecServ →
      ∀ op ∈ (receiveExecServ pkg : Pc N).report, ∃ x ∈ s.serving t, x.Awaits op))
  | .acceptClient | .acceptExecServ | .hangup _ | .run _ _ | .wakeup _ =>
      inferInstanceAs (Decidable True)

/-! ## The record that is meant -/

/-- The record that a section finds under an id. -/
def History.foundUnder (h : History) (jobid : UInt16) : Option JobHistory :=
  (h.findJob jobid).bind fun idx => (h.record idx).toOption

/-- A report is stored into the record of the job it is about, and an `unsubmit`
marks the record it has seen. -/
def Sys.OwnRecord (s : Sys N) : Action → Prop
  | .run t _ =>
      match s.threads[t]? with
      | some (.changeStateJob jobid _ _) =>
          ∀ record ∈ s.server.history.foundUnder jobid,
            (s.serving t).map Serving.job = some record.addr
      | some (.markUnsubmited jobid found) =>
          ∀ record ∈ s.server.history.foundUnder jobid, record.addr = found
      | _ => True
  | _ => True

instance (s : Sys N) : (a : Action) → Decidable (s.OwnRecord a)
  | .run t _ =>
      decidable_of_iff
        ((match s.threads[t]? with
          | some (.changeStateJob jobid _ _) =>
              decide (∀ record ∈ s.server.history.foundUnder jobid,
                (s.serving t).map Serving.job = some record.addr)
          | some (.markUnsubmited jobid found) =>
              decide (∀ record ∈ s.server.history.foundUnder jobid, record.addr = found)
          | _ => true) = true)
        (by simp only [Sys.OwnRecord]; split <;> simp)
  | .acceptClient | .acceptExecServ | .receive .. | .hangup _ | .wakeup _ =>
      inferInstanceAs (Decidable True)

/-- The steps of a run in which the exec servers behave, and in which every
removal, mark and report gets the job it is for. -/
def Sys.Steady (s : Sys N) (a : Action) : Prop := s.Conforms a ∧ s.Accurate a ∧ s.OwnRecord a

instance (s : Sys N) (a : Action) : Decidable (s.Steady a) :=
  inferInstanceAs (Decidable (_ ∧ _ ∧ _))

theorem History.foundUnder_eq {h : History} {n : Nat} (hinv : h.Inv n) (jobid : UInt16) :
    h.foundUnder jobid = h.retained jobid := by
  rw [foundUnder, findJob_eq hinv]
  cases hret : h.retained jobid with
  | none => rfl
  | some job =>
      show (h.record (slotOf jobid)).toOption = some job
      rw [record_retained hret]
      rfl

/-! ## What a step does to the records -/

/-- The ways of a step with the records and with what is known of the exec
servers. -/
inductive Course (s s' : Sys N) : Action → Prop
  | quiet {a : Action} : (∀ t, s'.serving t = s.serving t) →
      (∀ c record', s'.server.history.slot c = some record' →
        ∃ record, s.server.history.slot c = some record ∧ record'.addr = record.addr ∧
          record'.state = record.state) →
      Course s s' a
  | number {t : Nat} {env : Env} {p : Ptr} {queueIdx : UInt16} :
      s.threads[t]? = some (.numberJob p queueIdx) → (∀ t, s'.serving t = s.serving t) →
      (∀ c record', s'.server.history.slot c = some record' →
        s.server.history.slot c = some record' ∨
          record'.addr = p ∧ record'.state = JobState.wait.toByte) →
      Course s s' (.run t env)
  | mark {t : Nat} {env : Env} {jobid : UInt16} {found : Ptr} :
      s.threads[t]? = some (.markUnsubmited jobid found) → (∀ t, s'.serving t = s.serving t) →
      (∀ c record', s'.server.history.slot c = some record' →
        ∃ record, s.server.history.slot c = some record ∧
          record' = record.after (.unsubmit jobid)) →
      Course s s' (.run t env)
  | report {t : Nat} {env : Env} {jobid : UInt16} {state exitValue : UInt8} :
      s.threads[t]? = some (.changeStateJob jobid state exitValue) →
      (∀ t', t' ≠ t → s'.serving t' = s.serving t') →
      s'.serving t = (s.serving t).map (fun x =>
        { x with reports := x.reports ++ [.changeStateJob jobid state exitValue] }) →
      (∀ c record', s'.server.history.slot c = some record' →
        ∃ record, s.server.history.slot c = some record ∧
          record' = record.after (.changeStateJob jobid state exitValue)) →
      Course s s' (.run t env)
  | dispatch {t : Nat} {env : Env} {p : Ptr} {contents : Job} :
      s.threads[t]? = some (.sendMsg p) → s.heap.load p = some contents →
      (∀ t', t' ≠ t → s'.serving t' = s.serving t') →
      s'.serving t = some ⟨p, (contents.msg env.stack).wire, []⟩ →
      s'.server.history = s.server.history → 0 < s'.sent p →
      Course s s' (.run t env)

section Runs

variable [NeZero N]

omit [NeZero N] in
theorem Sys.serving_append {s s' : Sys N} {events : List (Event N)}
    (hlog : s'.log = s.log ++ events) (t : Nat) :
    s'.serving t = events.foldl (serve t) (s.serving t) := by
  rw [serving, hlog, List.foldl_append, serving]

omit [NeZero N] in
theorem Sys.serving_commit (s : Sys N) (t pick : Nat) (r : Result N) (t' : Nat) :
    (s.commit t pick r).serving t' = r.events.foldl (serve t') (s.serving t') :=
  serving_append rfl t'

omit [NeZero N] in
/-- A step that leaves the history alone, and whose events say nothing about an
exec server. -/
theorem Course.of_history {s s' : Sys N} {a : Action} {events : List (Event N)}
    (hlog : s'.log = s.log ++ events) (hevents : ∀ t x, events.foldl (serve t) x = x)
    (hhist : s'.server.history = s.server.history) : Course s s' a := by
  refine .quiet (fun t => ?_) fun c record' hslot => ?_
  · rw [Sys.serving_append hlog, hevents]
  · rw [hhist] at hslot
    exact ⟨record', hslot, rfl, rfl⟩

omit [NeZero N] in
/-- What an operation other than `newJob` leaves in a slot. -/
theorem slot_after {h h' : History} {n : Nat} (hinv : h.Inv n) {op : HistOp}
    (hop : h.apply op = .ok h') (hjob : op.job = none) {c : Nat} {record' : JobHistory}
    (hslot : h'.slot c = some record') :
    ∃ record, h.slot c = some record ∧ record' = record.after op := by
  rw [History.apply_slot hinv hop c] at hslot
  cases op with
  | newJob => cases hjob
  | _ =>
      obtain ⟨record, hrecord, rfl⟩ := Option.map_eq_some_iff.mp hslot
      exact ⟨record, hrecord, rfl⟩

theorem course_of_step {s s' : Sys N} {a : Action} (hl : s.Linked) (h : s.step a = some s') :
    Course s s' a := by
  obtain ⟨-, hstep⟩ := step_cases h
  cases hstep with
  | accept | moved | wakeup | faulted =>
      exact .of_history (List.append_nil _).symm (fun _ _ => rfl) rfl
  | accepted => exact .of_history rfl (fun _ _ => rfl) rfl
  | @ran t env pc r ht hran =>
      cases hran with
      | newJob | putJobWait | queueState | unsubmitRefused | unsubmit | unsubmitQueue | sendJob
      | getJobWait | serverReady | serverGone | sendFailed | putJobBack =>
          exact .of_history rfl (fun _ _ => rfl) rfl
      | putJob | removeJob | getJob => exact .of_history rfl (fun _ _ => rfl) rfl
      | submittedResponse | reply =>
          refine .of_history rfl (fun t x => ?_) rfl
          dsimp only
          split <;> rfl
      | @numberJob job queueIdx contents blank history hload haddr hop =>
          refine .number ht (s.serving_commit t env.pick _) fun c record' hslot => ?_
          have hslot' : history.slot c = some record' := hslot
          rw [History.apply_slot hl.inv hop c] at hslot'
          simp only [History.slotAfter] at hslot'
          split at hslot'
          · obtain rfl := Option.some.inj hslot'
            exact .inr ⟨haddr, rfl⟩
          · exact .inl hslot'
      | jobState hop hanswer =>
          refine .quiet (s.serving_commit t env.pick _) fun c record' hslot => ?_
          obtain ⟨record, hrecord, hafter⟩ := slot_after hl.inv hop rfl hslot
          exact ⟨record, hrecord, congrArg JobHistory.addr hafter,
            congrArg JobHistory.state hafter⟩
      | relabelLost => exact .of_history rfl (fun _ _ => rfl) rfl
      | relabel hload hop =>
          refine .quiet (s.serving_commit t env.pick _) fun c record' hslot => ?_
          obtain ⟨record, hrecord, rfl⟩ := slot_after hl.inv hop rfl hslot
          refine ⟨record, hrecord, JobHistory.after_addr _ _, ?_⟩
          simp only [JobHistory.after]
          split <;> rfl
      | markUnsubmited hop =>
          exact .mark ht (s.serving_commit t env.pick _) fun c record' hslot =>
            slot_after hl.inv hop rfl hslot
      | @changeStateJob jobid state exitValue history hop =>
          refine .report ht (fun t' ht' => ?_) ?_ fun c record' hslot =>
            slot_after hl.inv hop rfl hslot
          · rw [Sys.serving_commit]
            exact if_neg (Ne.symm ht')
          · rw [Sys.serving_commit]
            exact if_pos rfl
      | @sent job contents hload =>
          refine .dispatch ht hload (fun t' ht' => ?_) ?_ rfl ?_
          · rw [Sys.serving_commit]
            exact if_neg (Ne.symm ht')
          · rw [Sys.serving_commit]
            exact if_pos rfl
          · simp [Sys.sent, Sys.commit, tally_append, Event.sentJob, one]

/-! ## Reports on their way -/

omit [NeZero N] in
theorem Pc.report_wake (pc : Pc N) : pc.wake.report = pc.report := by
  unfold Pc.wake
  split <;> rfl

omit [NeZero N] in
theorem Pc.wake_of_report {pc : Pc N} {op : HistOp} (h : pc.report = some op) : pc.wake = pc := by
  cases pc with
  | changeStateJob => rfl
  | _ => cases h

omit [NeZero N] in
theorem receiveClient_report (heap : Heap) (pkg : Msg) (blank : Job) :
    (receiveClient heap pkg blank : Option Job × Pc N).2.report = none := by
  unfold receiveClient
  dsimp only
  split_ifs <;> rfl

theorem Ran.report {server : MainServer N} {heap : Heap} {t : Nat} {env : Env} {pc : Pc N}
    {r : Result N} (h : Ran server heap t env pc r) : r.pc.report = none := by
  cases h with
  | @putJob caller => cases caller <;> rfl
  | _ => rfl

/-- A section of another thread says nothing about this one's exec server. -/
theorem Ran.serve_other {server : MainServer N} {heap : Heap} {t t' : Nat} {env : Env} {pc : Pc N}
    {r : Result N} (h : Ran server heap t env pc r) (ht : t ≠ t') (x : Option Serving) :
    r.events.foldl (serve t') x = x := by
  cases h with
  | sent => exact if_neg ht
  | changeStateJob => exact if_neg ht
  | submittedResponse | reply =>
      dsimp only
      split <;> rfl
  | _ => rfl

/-- A thread with a report has had it, or a message has come for the thread. -/
theorem Step.report_back {s s' : Sys N} {a : Action} (h : Step s a s') {t : Nat} {pc : Pc N}
    {op : HistOp} (ht : s'.threads[t]? = some pc) (hop : pc.report = some op) :
    (s.threads[t]? = some pc ∨ a.message = some t) ∧ s'.serving t = s.serving t := by
  cases h with
  | @accept a pc₀ _ hpc₀ =>
      refine ⟨.inl ?_, rfl⟩
      rcases Nat.lt_or_ge t s.threads.length with hlt | hge
      · rwa [List.getElem?_append_left hlt] at ht
      · rw [List.getElem?_append_right hge] at ht
        obtain rfl := List.mem_singleton.mp (List.mem_of_getElem? ht)
        rcases hpc₀ with rfl | rfl <;> cases hop
  | @accepted t₀ =>
      refine ⟨?_, @Sys.serving_append _ s _ [.accepted t₀ s.heap.length] rfl t⟩
      rcases getElem?_set_cases ht with ⟨rfl, -⟩ | ⟨-, hpc⟩
      · exact .inr rfl
      · exact .inl hpc
  | moved ha =>
      refine ⟨?_, rfl⟩
      rcases getElem?_set_cases ht with ⟨rfl, -⟩ | ⟨-, hpc⟩
      · exact .inr ha
      · exact .inl hpc
  | wakeup ht₀ =>
      refine ⟨.inl ?_, rfl⟩
      rcases getElem?_set_cases ht with ⟨rfl, rfl⟩ | ⟨-, hpc⟩
      · rw [Pc.report_wake] at hop
        rw [Pc.wake_of_report hop]
        exact ht₀
      · exact hpc
  | @ran t₀ env pc₀ r ht₀ hran =>
      have hpc : (s.threads.set t₀ r.pc)[t]? = some pc := by
        rcases commit_threads s t₀ env.pick r t with heq | ⟨pc₁, hpc₁, heq⟩
        · rw [← heq]
          exact ht
        · rw [heq] at ht
          obtain rfl := Option.some.inj ht
          rw [Pc.report_wake] at hop
          rw [Pc.wake_of_report hop]
          exact hpc₁
      rcases getElem?_set_cases hpc with ⟨rfl, rfl⟩ | ⟨hne, hpc⟩
      · rw [hran.report] at hop
        cases hop
      · rw [Sys.serving_commit, hran.serve_other hne]
        exact ⟨.inl hpc, rfl⟩
  | faulted => exact ⟨.inl ht, rfl⟩

/-- A message that leads to a report came from an exec server. -/
theorem report_received {s s' : Sys N} {a : Action} (h : s.step a = some s') {t : Nat}
    (ha : a.message = some t) {pc : Pc N} {op : HistOp} (ht : s'.threads[t]? = some pc)
    (hop : pc.report = some op) :
    ∃ pkg blank, a = .receive t pkg blank ∧ s.threads[t]? = some .attendExecServ ∧
      pc = receiveExecServ pkg := by
  -- The thread is where the message has put it, and only a report can be there.
  have hself : ∀ {pc₀ : Pc N}, (s.threads.set t pc₀)[t]? = some pc → pc = pc₀ := by
    intro pc₀ hpc
    rcases getElem?_set_cases hpc with ⟨-, heq⟩ | ⟨hne, -⟩
    · exact heq
    · exact absurd rfl hne
  have hnone : ∀ {pc₀ : Pc N}, pc₀.report = none → pc ≠ pc₀ := by
    rintro pc₀ hpc₀ rfl
    rw [hpc₀] at hop
    cases hop
  unfold Sys.step at h
  split at h
  case isFalse => cases h
  cases a with
  | receive t₀ pkg blank =>
      obtain rfl := Option.some.inj ha
      dsimp only [Sys.receive] at h
      split at h
      · have hclient := @receiveClient_report N s.heap pkg blank
        generalize receiveClient s.heap pkg blank = res at h hclient
        obtain ⟨job, pc₀⟩ := res
        cases job with
        | none =>
            obtain rfl := Option.some.inj h
            exact absurd (hself ht) (hnone hclient)
        | some job =>
            obtain rfl := Option.some.inj h
            exact absurd (hself ht) (hnone hclient)
      · next hexec =>
          obtain rfl := Option.some.inj h
          exact ⟨pkg, blank, rfl, hexec, hself ht⟩
      · cases h
  | hangup t₀ =>
      obtain rfl := Option.some.inj ha
      dsimp only [Sys.hangup] at h
      split at h
      · obtain rfl := Option.some.inj h
        exact absurd (hself ht) (hnone rfl)
      · obtain rfl := Option.some.inj h
        exact absurd (hself ht) (hnone rfl)
      · cases h
  | acceptClient | acceptExecServ | run | wakeup => cases ha

end Runs

end DistQueue
