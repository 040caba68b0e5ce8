import DistQueue.Cluster.Executions
import DistQueue.Exec.Paths
import DistQueue.Exec.Kind

/-!
# From the line to the process

A line that a client submits goes through the main server, the connection of
whatever exec server asks for it, and the parser of the child. What the child
becomes is the command of the line, in the directory of the client, on the
streams of the submission.
-/

namespace DistQueue

open DistQueue.Lib Handshake

/-- Behind the calls that set the child up it is in the directory of the
message. -/
theorem consumeJob_wdir {calls : Calls} {behind : Behind} {pkg : Msg} {proc : Proc}
    (hset : SetUp calls pkg) (hexec : consumeJob calls behind pkg = .exec proc) :
    proc.wdir ≠ none := by
  unfold consumeJob execLine at hexec
  split at hexec
  · next hno =>
      split at hexec
      · injection hexec with hexec
        rcases @setFDsNoIter_cases calls behind pkg hno with ⟨-, hproc⟩ | ⟨hnot, -⟩
        · rw [← hexec, hproc]
          exact fun h => by cases h
        · exact absurd hset hnot
      · cases hexec
  · next hno =>
      split at hexec
      · have hhost : calls.gethostbyaddr = true := by
          obtain ⟨-, -, -, -, hrest⟩ := hset
          rw [if_neg hno] at hrest
          exact hrest.1
        obtain ⟨proc₀, hproc₀, hcases⟩ := @setFDsIter_cases calls behind pkg hno hhost
        rw [hproc₀] at hexec
        dsimp only at hexec
        split at hexec
        · injection hexec with hexec
          rcases hcases with ⟨-, hproc⟩ | ⟨hnot, -⟩
          · rw [← hexec, hproc]
            exact fun h => by cases h
          · exact absurd hset hnot
        · cases hexec
      · cases hexec

variable {N : Nat} [NeZero N] {line wdir : List UInt8} {c : SetterCall} {pkg : Msg}

theorem server_of_run {ok : Cluster N → ClusterAction → Prop} {s s' : Cluster N}
    (h : Reach Cluster.step ok (· = s) s') :
    Reach Sys.step anyStep (· = s.server) s'.server := by
  refine h.project (fun s hs => congrArg Cluster.server hs) fun s a s' _ _ hs => ?_
  rcases cluster_step_server hs with ⟨-, hrest⟩ | ⟨sa, -, hstep⟩
  · exact .inl hrest
  · exact .inr ⟨sa, trivial, hstep⟩

/-- The fields of a message end, and hold the two strings. -/
theorem ends_strings (hline : (cstr line).length < szPath * numPath)
    (hwdir : (cstr wdir).length < szPath) :
    (FileExec.ofStrings line wdir).copy.Ends ∧
      cstr (FileExec.ofStrings line wdir).copy.execFile = cstr line ∧
      cstr (FileExec.ofStrings line wdir).copy.workingDir = cstr wdir := by
  refine ⟨FileExec.ends_copy.mpr (FileExec.ends_ofStrings.mpr ⟨hline, hwdir⟩), ?_, ?_⟩
  · rw [FileExec.cstr_execFile_copy]
    show cstr (strncpy _ line) = _
    rw [cstr_strncpy, cstr_take, List.take_of_length_le (Nat.le_of_lt hline)]
  · rw [FileExec.cstr_workingDir_copy]
    show cstr (strncpy _ wdir) = _
    rw [cstr_strncpy, cstr_take, List.take_of_length_le (Nat.le_of_lt hwdir)]

/-- Whatever an exec server forks for a job that was taken in has arrived as the
message of this job, under the number it got. -/
theorem executed_arrived {s s₁ s₂ : Cluster N}
    (h : Reach Cluster.step Cluster.Regular (· = .init N) s) {t : Nat} {blank job : Job}
    (hreceived : (receiveClient s.server.heap pkg blank : Option Job × Pc N) =
      (some job, .newJob s.server.heap.length))
    (h₁ : s.step (.server (.receive t pkg blank)) = some s₁)
    (h₂ : Reach Cluster.step Cluster.Regular (· = s₁) s₂) (hb : s₂.server.Bounded)
    {link : Link} (hlink : link ∈ s₂.links) {e : Execution} (he : e ∈ link.conn.executions)
    (hjob : link.jobOf s₂.server e = some s.server.heap.length) :
    ∃ id, s₂.server.Numbered s.server.heap.length id ∧
      ({ job with id := id } : Job).call.Arrived e.pkg := by
  have hserver : Reach Sys.step anyStep (· = Sys.init N) s.server :=
    server_of_reach (fun _ _ _ _ _ => trivial) h
  obtain ⟨ht, hserver₁⟩ : s.server.threads[t]? = some .attendClient ∧
      s.server.step (.receive t pkg blank) = some s₁.server := by
    cases (cluster_step_cases h₁).2 with
    | server hown hstep => exact ⟨hown, hstep⟩
  -- The job that is allocated for the submission, wherever it goes.
  have hfollows := follows_of_run (.step hserver trivial hserver₁)
    (follows_of_receive hserver ht hreceived hserver₁) (server_of_run h₂)
  -- The execution, and the bytes it is of.
  have hreach : Reach Cluster.step Cluster.Regular (· = .init N) s₂ :=
    .trans (.step (a := .server (.receive t pkg blank)) h trivial h₁) h₂
  have hcarries := carries_of_reach (fun _ _ h => h.1) (cluster_indexOk hreach hb)
  have hinv := inv_of_reach (connected_of_reach (fun _ _ h => h) hreach link hlink)
  obtain ⟨n, p, job', hran⟩ := (hcarries link hlink).ran hinv he
  obtain rfl : p = s.server.heap.length := Option.some.inj (hran.jobOf.symm.trans hjob)
  obtain ⟨id, hnumbered, hwire⟩ := hfollows.sent _ hran.sent _ _ rfl
  obtain ⟨buf, hbuf⟩ := hran.arrived
  exact ⟨id, hnumbered, buf, by rw [hbuf, hwire]⟩

/-- In a run that stays inside its memory, what is executed for a submission is
the line that was submitted: its words are the arguments, as many as there is
room for, and no other directory than the client's is entered. -/
theorem executed_as_typed {s s₁ s₂ : Cluster N}
    (h : Reach Cluster.step Cluster.Safe (· = .init N) s) (hc : c.Submits line wdir)
    (hline : (cstr line).length < szPath * numPath) (hwdir : (cstr wdir).length < szPath)
    (hpkg : c.Arrived pkg) {t : Nat} {blank : Job}
    (h₁ : s.step (.server (.receive t pkg blank)) = some s₁)
    (h₂ : Reach Cluster.step Cluster.Safe (· = s₁) s₂) (hb : s₂.server.Bounded)
    {link : Link} (hlink : link ∈ s₂.links) {e : Execution} (he : e ∈ link.conn.executions)
    (hjob : link.jobOf s₂.server e = some s.server.heap.length) :
    ∃ id, s₂.server.Numbered s.server.heap.length id ∧ execJobID e.pkg = some id ∧
      ∀ calls behind proc, consumeJob calls behind e.pkg = .exec proc →
        proc.args = (words isSep (cstr line)).take (argMax - 1) ∧
        (∀ dir, proc.wdir = some dir → dir = cstr wdir) ∧
        (SetUp calls e.pkg → proc.wdir = some (cstr wdir)) := by
  obtain ⟨hsubmission, hpaths⟩ := submittedFileExec_arrived hc hpkg
  obtain ⟨job, hreceived, hhas⟩ := @receiveClient_paths _ N hsubmission s.server.heap blank
  rw [hpaths] at hhas
  obtain ⟨id, hnumbered, harrived⟩ := executed_arrived (Cluster.regular_of_safe h) hreceived h₁
    (Cluster.regular_of_safe h₂) hb hlink he hjob
  have hpaths' : Job.HasPaths { job with id := id } (.ofStrings line wdir) := ⟨hhas.1, hhas.2⟩
  have hsent := sentFileExec_arrived hpaths' harrived
  obtain ⟨hends, hfile, hdir⟩ := ends_strings hline hwdir
  refine ⟨id, hnumbered, (arrived_job harrived).2, fun calls behind proc hexec => ?_⟩
  obtain ⟨hchanged, hargs⟩ := consumeJob_ends (hsent ▸ hends) hexec
  rw [hsent, hdir] at hchanged
  rw [hsent, hfile] at hargs
  refine ⟨hargs, hchanged, fun hset => ?_⟩
  obtain ⟨dir, hproc⟩ := Option.ne_none_iff_exists'.mp (consumeJob_wdir hset hexec)
  rw [hproc, hchanged dir hproc]

/-- `ls` is executed in `/`. -/
theorem executed_as_typed_ls :
    ∃ s : Cluster numQueueMax, ∃ link ∈ s.links, ∃ e ∈ link.conn.executions,
      ∀ calls behind proc, consumeJob calls behind e.pkg = .exec proc →
        proc.args = [[108, 115]] ∧ (∀ dir, proc.wdir = some dir → dir = [47]) ∧
        (SetUp calls e.pkg → proc.wdir = some [47]) := by
  obtain ⟨s, hr, hstep⟩ : ∃ s : Cluster numQueueMax,
      Reach Cluster.step Cluster.Safe (· = .init numQueueMax) s ∧
      (s.step (.server (.receive 0 ((Msg.fill 0).over lsCall.wire) Action.blankJob))).any (fun s₁ =>
        decide (s.server.heap.length = 0 ∧
          (checkedRun Cluster.step Cluster.Safe s₁ (executedRun.drop 2)).any (fun s₂ =>
            decide (s₂.server.Bounded ∧ ∃ link ∈ s₂.links, ∃ e ∈ link.conn.executions,
              link.jobOf s₂.server e = some 0)) = true)) = true :=
    @reach_of_checkedRun _ _ _ _ _ _ (executedRun.take 1) _ _ _ rfl (by decide +kernel)
  obtain ⟨s₁, h₁, hrest⟩ := (Option.any_eq_true _ _).mp hstep
  obtain ⟨hheap, hrun⟩ := of_decide_eq_true hrest
  obtain ⟨s₂, h₂, hb, link, hlink, e, he, hjob⟩ :=
    @reach_of_checkedRun _ _ _ _ (· = s₁) _ _ _ _ _ rfl hrun
  rw [← hheap] at hjob
  obtain ⟨id, -, -, hexec⟩ := executed_as_typed hr (.inl ⟨0, rfl⟩) (by decide) (by decide)
    ⟨Msg.fill 0, rfl⟩ h₁ h₂ hb hlink he hjob
  exact ⟨s₂, link, hlink, e, he, hexec⟩

/-! ## Streams -/

/-- The standard streams of a process. -/
structure Streams where
  stdin : Target
  stdout : Target
  stderr : Target
  deriving DecidableEq, Repr

def Proc.streams (proc : Proc) : Streams := ⟨proc.stdin, proc.stdout, proc.stderr⟩

/-- The files under an id. -/
def Streams.logs (id : UInt16) : Streams := ⟨.devNull, .coutLog id, .cerrLog id⟩

/-- The one connection to a client. -/
def Streams.client (port : UInt16) (addr : UInt32) : Streams :=
  ⟨.client port addr, .client port addr, .client port addr⟩

/-- Whatever stream is not the exec server's is the one of `own`. -/
structure Streams.Within (streams own : Streams) : Prop where
  stdin : streams.stdin = .inherited ∨ streams.stdin = own.stdin
  stdout : streams.stdout = .inherited ∨ streams.stdout = own.stdout
  stderr : streams.stderr = .inherited ∨ streams.stderr = own.stderr

def Job.streams (job : Job) : Streams :=
  if job.ipaddr = 0 then .logs job.id else .client job.port job.ipaddr

/-- The streams of a submission with the number `id`. An interactive one of a
client without an address is not told apart from the others. -/
def SetterCall.streams (id : UInt16) : SetterCall → Streams
  | .fileExecInterClient _ _ addr port _ => if addr = 0 then .logs id else .client port addr
  | _ => .logs id

section SetUp

variable {calls : Calls} {behind : Behind}

/-- However far the child comes with its descriptors. -/
theorem setFDsNoIter_within :
    (setFDsNoIter calls behind pkg .forked).streams.Within (.logs (getJobIDNoIter pkg)) := by
  unfold setFDsNoIter
  cases calls.openCout
  · exact ⟨.inl rfl, .inl rfl, .inl rfl⟩
  cases calls.openCerr
  · exact ⟨.inl rfl, .inl rfl, .inl rfl⟩
  cases calls.openDevNull
  · exact ⟨.inl rfl, .inl rfl, .inl rfl⟩
  cases calls.dupStdout
  · exact ⟨.inl rfl, .inl rfl, .inl rfl⟩
  cases calls.dupStderr
  · exact ⟨.inl rfl, .inr rfl, .inl rfl⟩
  cases calls.dupStdin
  · exact ⟨.inl rfl, .inr rfl, .inr rfl⟩
  cases calls.chdir <;> exact ⟨.inr rfl, .inr rfl, .inr rfl⟩

theorem setFDsIter_within {proc : Proc} (h : setFDsIter calls behind pkg .forked = .ok proc) :
    proc.streams.Within (.client (getExecAddrPort pkg) (getExecAddrIpadd pkg)) := by
  unfold setFDsIter socketPortConnect at h
  cases hhost : calls.gethostbyaddr with
  | false =>
      rw [hhost] at h
      cases h
  | true =>
      rw [hhost] at h
      cases hconnect : (calls.socket && calls.connect) <;> rw [hconnect] at h <;> injection h with h
      · exact h ▸ ⟨.inl rfl, .inl rfl, .inl rfl⟩
      · rw [← h]
        cases calls.dupStdout
        · exact ⟨.inl rfl, .inl rfl, .inl rfl⟩
        cases calls.dupStderr
        · exact ⟨.inl rfl, .inr rfl, .inl rfl⟩
        cases calls.dupStdin
        · exact ⟨.inl rfl, .inr rfl, .inr rfl⟩
        cases calls.chdir <;> exact ⟨.inr rfl, .inr rfl, .inr rfl⟩

/-- What a child becomes keeps the streams it has set up. -/
theorem execLine_streams {proc proc' : Proc} {line : List UInt8}
    (h : execLine calls behind proc' line = .exec proc) : proc.streams = proc'.streams := by
  obtain ⟨-, rfl⟩ := execLine_eq_exec.mp h
  rfl

/-- A child that was sent a job has no stream but the job's own, and all of
them when nothing goes wrong on the way. -/
theorem consumeJob_streams {job : Job} (h : job.call.Arrived pkg) {proc : Proc}
    (hexec : consumeJob calls behind pkg = .exec proc) :
    proc.streams.Within job.streams ∧ (SetUp calls pkg → proc.streams = job.streams) := by
  unfold consumeJob at hexec
  by_cases hip : job.ipaddr = 0
  · obtain ⟨htype, -, -, hid⟩ := arrived_noInter hip h
    rw [if_pos htype] at hexec
    rw [execLine_streams hexec, Job.streams, if_pos hip, ← hid]
    refine ⟨setFDsNoIter_within, fun hset => ?_⟩
    rcases @setFDsNoIter_cases calls behind _ htype with ⟨-, hproc⟩ | ⟨hnot, -⟩
    · rw [hproc]
      rfl
    · exact absurd hset hnot
  · obtain ⟨htype, -, -, -, hport, hipaddr⟩ := arrived_inter hip h
    have hno : getType pkg ≠ MsgType.sendjobNointer.toByte := by rw [htype]; decide
    have hport' : getExecAddrPort pkg = job.port := by
      rw [getExecAddrPort, Msg.get16, hport, load16_store16]
    have hipaddr' : getExecAddrIpadd pkg = job.ipaddr := by
      rw [getExecAddrIpadd, Msg.get32, hipaddr, load32_store32]
    rw [if_neg hno, if_pos htype] at hexec
    rw [Job.streams, if_neg hip, ← hport', ← hipaddr']
    cases hsetFDs : setFDsIter calls behind pkg .forked with
    | error status =>
        rw [hsetFDs] at hexec
        cases hexec
    | ok proc' =>
        rw [hsetFDs] at hexec
        rw [execLine_streams hexec]
        refine ⟨setFDsIter_within hsetFDs, fun hset => ?_⟩
        have hhost : calls.gethostbyaddr = true := by
          have hrest := hset.2.2.2.2
          rw [if_neg hno] at hrest
          exact hrest.1
        obtain ⟨proc'', hproc, ⟨-, rfl⟩ | ⟨hnot, -⟩⟩ := @setFDsIter_cases _ behind _ hno hhost
        · obtain rfl : proc' = _ := Except.ok.inj (hsetFDs.symm.trans hproc)
          rfl
        · exact absurd hset hnot

end SetUp

omit [NeZero N] in
/-- The job that is allocated for a submission has its streams, under whatever
number. -/
theorem receiveClient_streams (hc : Client.Submits c) (hpkg : c.Arrived pkg) (heap : Heap)
    (blank : Job) :
    ∃ job, (receiveClient heap pkg blank : Option Job × Pc N) = (some job, .newJob heap.length) ∧
      ∀ id, ({ job with id := id } : Job).streams = c.streams id := by
  cases c with
  | fileExecNoInterClient line wdir jobid =>
      exact ⟨_, submitNoInter_taken hpkg.getType heap blank, fun id => rfl⟩
  | fileExecInterClient line wdir addr port jobid =>
      refine ⟨_, submitInter_taken hpkg.getType heap blank, fun id => ?_⟩
      have hsize : (SetterCall.fileExecInterClient line wdir addr port jobid).size = 525 := rfl
      have hport : getExecAddrPort pkg = port := by
        rw [getExecAddrPort, Msg.get16, hpkg.get hsize (by decide)]
        simp only [SetterCall.apply, setFileExecInterClient, Msg.get_put16, load16_store16]
      have hipaddr : getExecAddrIpadd pkg = addr := by
        rw [getExecAddrIpadd, Msg.get32, hpkg.get hsize (by decide)]
        simp (disch := decide) only [SetterCall.apply, setFileExecInterClient, Msg.get_put16_apart,
          Msg.get_put32, load32_store32]
      rw [← hport, ← hipaddr]
      rfl
  | _ => exact hc.elim

/-- In a run that stays inside its memory, what is executed for a submission
writes into the files of the number it got or talks to the client that made it,
and never to anything of another submission. -/
theorem executed_on_own_streams {s s₁ s₂ : Cluster N}
    (h : Reach Cluster.step Cluster.Safe (· = .init N) s) (hc : Client.Submits c)
    (hpkg : c.Arrived pkg) {t : Nat} {blank : Job}
    (h₁ : s.step (.server (.receive t pkg blank)) = some s₁)
    (h₂ : Reach Cluster.step Cluster.Safe (· = s₁) s₂) (hb : s₂.server.Bounded)
    {link : Link} (hlink : link ∈ s₂.links) {e : Execution} (he : e ∈ link.conn.executions)
    (hjob : link.jobOf s₂.server e = some s.server.heap.length) :
    ∃ id, s₂.server.Numbered s.server.heap.length id ∧ execJobID e.pkg = some id ∧
      ∀ calls behind proc, consumeJob calls behind e.pkg = .exec proc →
        proc.streams.Within (c.streams id) ∧
        (SetUp calls e.pkg → proc.streams = c.streams id) := by
  obtain ⟨job, hreceived, hstreams⟩ := @receiveClient_streams N _ _ hc hpkg s.server.heap blank
  obtain ⟨id, hnumbered, harrived⟩ := executed_arrived (Cluster.regular_of_safe h) hreceived h₁
    (Cluster.regular_of_safe h₂) hb hlink he hjob
  refine ⟨id, hnumbered, (arrived_job harrived).2, fun calls behind proc hexec => ?_⟩
  rw [← hstreams id]
  exact consumeJob_streams harrived hexec

/-- `sh` of a client on this host. -/
def localSh : Msg := (Msg.fill 0).over (shCall 16777343).wire

/-- A call of the handler of link 0 on the job it becomes. -/
def shHandler : ClusterAction :=
  .handler 0 { goWell with job := { submitInter localSh Action.blankJob with id := 0 } }
    (Action.env true)

/-- The job is numbered and queued, and an exec server asks for it, is checked,
takes it and executes it. -/
def shRun : List ClusterAction :=
  [.server (Action.go 0), .server (Action.go 0), .server (Action.go 0), .server (Action.go 0),
    .connect (Msg.fill 0), lsExec, lsExec, shHandler, .server (Action.go 1), .server (Action.go 1),
    shHandler, shHandler, shHandler, lsExec, lsExec, shHandler, shHandler, lsExec, lsExec]

/-- All three streams of the shell are the connection to its client. -/
theorem executed_on_own_streams_sh :
    ∃ s : Cluster numQueueMax, ∃ link ∈ s.links, ∃ e ∈ link.conn.executions,
      ∃ id, execJobID e.pkg = some id ∧
        ∀ calls behind proc, consumeJob calls behind e.pkg = .exec proc →
          proc.streams.Within (.client 80 16777343) ∧
          (SetUp calls e.pkg → proc.streams = .client 80 16777343) := by
  obtain ⟨s, hr, hstep⟩ : ∃ s : Cluster numQueueMax,
      Reach Cluster.step Cluster.Safe (· = .init numQueueMax) s ∧
      (s.step (.server (.receive 0 localSh Action.blankJob))).any (fun s₁ =>
        decide (s.server.heap.length = 0 ∧
          (checkedRun Cluster.step Cluster.Safe s₁ shRun).any (fun s₂ =>
            decide (s₂.server.Bounded ∧ ∃ link ∈ s₂.links, ∃ e ∈ link.conn.executions,
              link.jobOf s₂.server e = some 0)) = true)) = true :=
    @reach_of_checkedRun _ _ _ _ _ _ [.server .acceptClient] _ _ _ rfl (by decide +kernel)
  obtain ⟨s₁, h₁, hrest⟩ := (Option.any_eq_true _ _).mp hstep
  obtain ⟨hheap, hrun⟩ := of_decide_eq_true hrest
  obtain ⟨s₂, h₂, hb, link, hlink, e, he, hjob⟩ :=
    @reach_of_checkedRun _ _ _ _ (· = s₁) _ _ _ _ _ rfl hrun
  rw [← hheap] at hjob
  obtain ⟨id, -, hid, hexec⟩ := @executed_on_own_streams numQueueMax _ (shCall 16777343) localSh
    _ _ _ hr trivial ⟨Msg.fill 0, rfl⟩ _ _ h₁ h₂ hb _ hlink _ he hjob
  exact ⟨s₂, link, hlink, e, he, id, hid, hexec⟩

end DistQueue
