import DistQueue.Cluster.Steps

/-!
# The two views of a handler

A thread that attends to an exec server is at one of its sections, and its
handler at one of the calls of `Exec/Handshake`. `Stands` says which belong
together: the call-by-call view is inside the step that the thread is about to
make, and has read the job that the thread holds.

This is what makes the cluster one system. Each call of a handler is possible
whenever the thread is where the call is made, and the step it ends is one the
thread can make.
-/

namespace DistQueue

open DistQueue.Lib Handshake

variable {N : Nat}

/-- Behind the last call on the connection. -/
def Pc.Gone : Pc N → Prop
  | .closed | .putJobBack _ | .putJob (.putJobBack _) _ _ _ | .relabel _ _ => True
  | _ => False

/-- The job whose exec server is being checked. -/
def Handshake.MainPc.checked : MainPc → Option Job
  | .checkServerStatus job _ _ | .select job _ | .recvAck job _ => some job
  | _ => none

inductive Stands (heap : Heap) : Pc N → MainPc → Prop
  | attends {st : RecvSt} : Stands heap .attendExecServ (.attendExecServ st)
  | reports {jobid : UInt16} {state exitValue : UInt8} {st : RecvSt} :
      Stands heap (.changeStateJob jobid state exitValue) (.attendExecServ st)
  | sendJob : Stands heap .sendJob .getJob
  | getJob {i : Fin N} {wait : Wait} : Stands heap (.getJob i wait) .getJob
  | got {p : Ptr} : Stands heap (.checkServerStatus p) .getJob
  | checks {p : Ptr} {job : Job} {main : MainPc} (hmain : main.checked = some job)
      (hjob : heap.contents p = some job) : Stands heap (.checkServerStatus p) main
  | sends {p : Ptr} {job : Job} {pkg : Msg} {st : SendSt} (hjob : heap.contents p = some job) :
      Stands heap (.sendMsg p) (.sendJob job pkg st)
  | gone {pc : Pc N} (hpc : pc.Gone) : Stands heap pc .closed

section Stands

variable {heap heap' : Heap} {pc : Pc N} {main : MainPc}

theorem Pc.Gone.wake (h : pc.Gone) : pc.wake.Gone := by
  cases pc with
  | putJob caller i job wait =>
      cases caller with
      | newJob => exact h.elim
      | putJobBack queueIdx => cases wait <;> trivial
  | closed | putJobBack | relabel => exact h
  | _ => exact h.elim

theorem Stands.wake (h : Stands heap pc main) : Stands heap pc.wake main := by
  cases h with
  | attends => exact .attends
  | reports => exact .reports
  | sendJob => exact .sendJob
  | @getJob i wait => cases wait <;> exact .getJob
  | got => exact .got
  | checks hmain hjob => exact .checks hmain hjob
  | sends hjob => exact .sends hjob
  | gone hpc => exact .gone hpc.wake

/-- What the handler has read of a job that its thread holds is still there. -/
theorem Stands.kept (h : Stands heap pc main)
    (hkept : ∀ p, 0 < pc.holds p → pc.drafts ≠ some p → heap'.contents p = heap.contents p) :
    Stands heap' pc main := by
  have hone : ∀ p, 0 < one (some p) p := fun p => by rw [one, if_pos rfl]; exact Nat.one_pos
  cases h with
  | attends => exact .attends
  | reports => exact .reports
  | sendJob => exact .sendJob
  | getJob => exact .getJob
  | got => exact .got
  | @checks p job main hmain hjob =>
      refine .checks hmain ((hkept p ?_ fun hdrafts => by cases hdrafts).trans hjob)
      exact Nat.lt_of_lt_of_le (hone p) (Nat.le_add_left ..)
  | @sends p job pkg st hjob =>
      refine .sends ((hkept p ?_ fun hdrafts => by cases hdrafts).trans hjob)
      exact Nat.lt_of_lt_of_le (hone p) (Nat.le_add_left ..)
  | gone hpc => exact .gone hpc

theorem Stands.not_client (h : Stands heap pc main) : pc ≠ .attendClient := by
  rintro rfl
  cases h with
  | gone hpc => exact hpc.elim

/-- A section that is no call on the connection. -/
theorem Stands.ran [NeZero N] {server : MainServer N} {t : Nat} {env : DistQueue.Env} {r : Result N}
    (h : Stands heap pc main) (hwire : pc.onWire = false) (hran : Ran server heap t env pc r) :
    Stands r.heap r.pc main := by
  cases h with
  | attends | got | checks | sends => cases hwire
  | reports => cases hran; exact .attends
  | sendJob => cases hran; exact .getJob
  | getJob =>
      cases hran with
      | getJobWait => exact .getJob
      | getJob => exact .got
  | gone hpc =>
      cases hran with
      | putJobBack | relabelLost | relabel => exact .gone trivial
      | @putJobWait caller =>
          cases caller with
          | newJob => exact hpc.elim
          | putJobBack => exact .gone trivial
      | @putJob caller =>
          cases caller with
          | newJob => exact hpc.elim
          | putJobBack => exact .gone trivial
      | _ => exact hpc.elim

end Stands

/-! ## The calls of a handler -/

/-- What a handler's call comes to: the step of the thread it ends, if any, and
where the handler stands behind it. -/
inductive Handled (heap : Heap) (link : Link) (env : DistQueue.Env) (conn : Conn) :
    Pc N → Option Action → Prop
  | goesOn {pc : Pc N} : Stands heap pc conn.main → conn.main ≠ .closed →
      conn.sendJobs = link.conn.sendJobs → Handled heap link env conn pc none
  | message {st : RecvSt} {pkg : Msg} {rest : List UInt8} :
      link.conn.main = .attendExecServ st →
      conn = Conn.attend { link.conn with toMain := rest } pkg →
      Handled heap link env conn .attendExecServ
        (some (.receive link.thread pkg Action.blankJob))
  | hangup : conn.main = .closed → conn.sendJobs = link.conn.sendJobs →
      Handled heap link env conn .attendExecServ (some (.hangup link.thread))
  | ready {p : Ptr} {job : Job} {pkg : Msg} {st : SendSt} : heap.contents p = some job →
      conn.main = .sendJob job pkg st → conn.sendJobs = link.conn.sendJobs →
      Handled heap link env conn (.checkServerStatus p)
        (some (.run link.thread { env with ok := true }))
  | sent {p : Ptr} {job : Job} {st : RecvSt} : heap.contents p = some job →
      conn.main = .attendExecServ st →
      conn.sendJobs = link.conn.sendJobs ++ [⟨job, 1, false⟩] →
      Handled heap link env conn (.sendMsg p) (some (.run link.thread { env with ok := true }))
  | failed {pc : Pc N} {p : Ptr} : pc = .checkServerStatus p ∨ pc = .sendMsg p →
      conn.main = .closed →
      (∀ (n : Nat) (call : SendJob), conn.sendJobs[n]? = some call → call.ret = 1 →
        link.conn.sendJobs[n]? = some call) →
      Handled heap link env conn pc (some (.run link.thread { env with ok := false }))

section Calls

variable {heap : Heap} {link : Link} {call : Handshake.Env} {env : DistQueue.Env} {conn : Conn}
  {pc : Pc N} {s : Conn} {p : Ptr} {job : Job}

/-- A call of `sendJob` that fails adds nothing that went through. -/
theorem sendJobFails_ret (s : Conn) (job : Job) (n : Nat) (c : SendJob)
    (hc : (s.sendJobFails job).sendJobs[n]? = some c) (hret : c.ret = 1) :
    s.sendJobs[n]? = some c := by
  have hc' : (s.sendJobs ++ [⟨job, 0, true⟩])[n]? = some c := hc
  rcases Nat.lt_or_ge n s.sendJobs.length with hlt | hge
  · rwa [List.getElem?_append_left hlt] at hc'
  · rw [List.getElem?_append_right hge] at hc'
    obtain rfl := List.mem_singleton.mp (List.mem_of_getElem? hc')
    cases hret

theorem handled_attends {st : RecvSt} (hmain : link.conn.main = .attendExecServ st)
    (hstep : link.conn.mainStep call = some conn) :
    Handled heap link env conn (.attendExecServ : Pc N) (link.act call env conn) := by
  rw [Conn.mainStep, hmain] at hstep
  injection hstep with hstep
  subst hstep
  rw [Link.act, hmain, Conn.attendExecServStep]
  dsimp only
  cases recvLoop [call.result] link.conn.toMain st with
  | blocked st' rest => exact .goesOn .attends (fun h => by cases h) rfl
  | overflow => exact .hangup rfl rfl
  | ret code pkg rest =>
      dsimp only
      by_cases hcode : code = 1
      · rw [if_pos hcode, if_pos hcode]
        exact .message hmain rfl
      · rw [if_neg hcode, if_neg hcode]
        exact .hangup rfl rfl

theorem handled_checks {main : MainPc} (hmain : link.conn.main = main)
    (hjob : main.checked = some job) (hheap : heap.contents p = some job)
    (hstep : link.conn.mainStep call = some conn) :
    Handled heap link env conn (.checkServerStatus p : Pc N) (link.act call env conn) := by
  rw [Conn.mainStep, hmain] at hstep
  rw [Link.act, hmain]
  cases main with
  | checkServerStatus job' pkg st =>
      injection hjob with hjob
      subst hjob
      injection hstep with hstep
      subst hstep
      simp only [Conn.checkServerStatusStep]
      cases (sendCall (pkg.mem call.around) call.result st).2 with
      | blocked st' => exact .goesOn (.checks rfl hheap) (fun h => by cases h) rfl
      | ret code =>
          dsimp only
          split
          · exact .failed (.inl rfl) rfl (sendJobFails_ret _ _)
          · exact .goesOn (.checks rfl hheap) (fun h => by cases h) rfl
  | select job' pkg =>
      injection hjob with hjob
      subst hjob
      injection hstep with hstep
      subst hstep
      simp only [Conn.selectStep]
      cases call.select with
      | readable => exact .goesOn (.checks rfl hheap) (fun h => by cases h) rfl
      | timeout | error => exact .failed (.inl rfl) rfl (sendJobFails_ret _ _)
  | recvAck job' st =>
      injection hjob with hjob
      subst hjob
      injection hstep with hstep
      subst hstep
      simp only [Conn.recvAckStep]
      cases recvLoop [call.result] link.conn.toMain st with
      | blocked st' rest => exact .goesOn (.checks rfl hheap) (fun h => by cases h) rfl
      | overflow => exact .failed (.inl rfl) rfl fun n c hc _ => hc
      | ret code pkg rest =>
          dsimp only
          split
          · exact .failed (.inl rfl) rfl (sendJobFails_ret _ _)
          split
          · exact .failed (.inl rfl) rfl (sendJobFails_ret _ _)
          · exact .ready hheap rfl rfl
  | _ => cases hjob

theorem handled_sends {pkg : Msg} {st : SendSt} (hmain : link.conn.main = .sendJob job pkg st)
    (hheap : heap.contents p = some job) (hstep : link.conn.mainStep call = some conn) :
    Handled heap link env conn (.sendMsg p : Pc N) (link.act call env conn) := by
  rw [Conn.mainStep, hmain] at hstep
  injection hstep with hstep
  subst hstep
  rw [Link.act, hmain]
  simp only [Conn.sendJobStep]
  cases (sendCall (pkg.mem call.around) call.result st).2 with
  | blocked st' => exact .goesOn (.sends hheap) (fun h => by cases h) rfl
  | ret code =>
      dsimp only
      split
      · exact .failed (.inr rfl) rfl (sendJobFails_ret _ _)
      · exact .sent hheap rfl rfl

theorem handled_of_step (hst : Stands heap pc link.conn.main) (hwire : pc.onWire = true)
    (hhas : pc.Has heap call.job) (hstep : link.conn.mainStep call = some conn) :
    Handled heap link env conn pc (link.act call env conn) := by
  generalize hmain : link.conn.main = main at hst
  cases hst with
  | attends => exact handled_attends hmain hstep
  | reports | sendJob | getJob => cases hwire
  | got =>
      rw [Conn.mainStep, hmain] at hstep
      injection hstep with hstep
      subst hstep
      rw [Link.act, hmain]
      exact .goesOn (.checks rfl hhas) (fun h => by cases h) rfl
  | checks hjob hheap => exact handled_checks hmain hjob hheap hstep
  | sends hheap => exact handled_sends hmain hheap hstep
  | gone hpc =>
      rw [Conn.mainStep, hmain] at hstep
      cases hstep

end Calls

/-! ## The threads of the exec servers -/

section Threads

variable [NeZero N]

/-- Every link has a thread of its own, which is where its handler is. -/
structure Cluster.Placed (s : Cluster N) : Prop where
  distinct : (s.links.map Link.thread).Nodup
  stands : ∀ link ∈ s.links, ∃ pc, s.server.threads[link.thread]? = some pc ∧
    Stands s.server.heap pc link.conn.main

omit [NeZero N] in
theorem Cluster.Placed.init : (Cluster.init N).Placed :=
  ⟨List.nodup_nil, fun _ h => by cases h⟩

/-- The heap keeps what the handlers have read. -/
theorem Stands.step {s s' : Sys N} {a : Action} (hs : s.Sound) (h : s.step a = some s') {t : Nat}
    {pc pc' : Pc N} {main : MainPc} (ht : s.threads[t]? = some pc)
    (hst : Stands s.heap pc' main) (hpc : ∀ p, 0 < pc'.holds p → 0 < pc.holds p)
    (hdrafts : ∀ p, pc.drafts = some p → pc'.drafts = some p) : Stands s'.heap pc' main := by
  refine hst.kept fun p hholds hnot => ?_
  exact (stamped_step (stamped_of_holds hs ht (hpc p hholds) fun hd => hnot (hdrafts p hd)) h).2

/-- A thread that is not called on goes on in its own sections. -/
theorem Stands.own {s s' : Sys N} {a : Action} (hs : s.Sound) (h : s.step a = some s') {t : Nat}
    {pc : Pc N} {main : MainPc} (ht : s.threads[t]? = some pc) (hst : Stands s.heap pc main)
    (hmessage : a.message = some t → pc = .attendClient)
    (hrun : ∀ env, a = .run t env → pc.onWire = false) :
    ∃ pc', s'.threads[t]? = some pc' ∧ Stands s'.heap pc' main := by
  have hkept := hst.step hs h ht (fun _ hp => hp) fun _ hp => hp
  rcases (step_cases h).2.thread ht with hsame | ⟨hm, -⟩ | ⟨env, r, ha, hran, hs'⟩
  · rcases hsame with hsame | hsame
    · exact ⟨pc, hsame, hkept⟩
    · exact ⟨pc.wake, hsame, hkept.wake⟩
  · exact absurd (hmessage hm) hst.not_client
  · have hst' := hst.ran (hrun env ha) hran
    subst hs'
    rcases commit_self ht env.pick r with hself | hself
    · exact ⟨r.pc, hself, hst'⟩
    · exact ⟨r.pc.wake, hself, hst'.wake⟩

omit [NeZero N] in
theorem Cluster.Placed.other {s : Cluster N} (hp : s.Placed) {i j : Nat} {link link' : Link}
    (hlink : s.links[i]? = some link) (hlink' : s.links[j]? = some link') (hij : i ≠ j) :
    link'.thread ≠ link.thread := by
  intro hthread
  have hi : (s.links.map Link.thread)[i]? = some link.thread := by
    rw [List.getElem?_map, hlink]; rfl
  have hj : (s.links.map Link.thread)[j]? = some link.thread := by
    rw [List.getElem?_map, hlink', ← hthread]; rfl
  obtain ⟨hlt, hi⟩ := List.getElem?_eq_some_iff.mp hi
  obtain ⟨hlt', hj⟩ := List.getElem?_eq_some_iff.mp hj
  exact hij (hp.distinct.getElem_inj_iff.mp (hi.trans hj.symm))

/-! ### The steps that end calls -/

section Ends

variable {s s' : Sys N} {t : Nat}

theorem receive_step {pkg : Msg} {blank : Job} (h : s.step (.receive t pkg blank) = some s')
    (ht : s.threads[t]? = some .attendExecServ) :
    s' = { s with threads := s.threads.set t (receiveExecServ pkg) } := by
  unfold Sys.step at h
  split at h
  · simp only [Sys.receive, ht] at h
    injection h with h
    exact h.symm
  · cases h

theorem hangup_step (h : s.step (.hangup t) = some s')
    (ht : s.threads[t]? = some .attendExecServ) :
    s' = { s with threads := s.threads.set t .closed } := by
  unfold Sys.step at h
  split at h
  · simp only [Sys.hangup, ht] at h
    injection h with h
    exact h.symm
  · cases h

theorem checked_step {env : DistQueue.Env} {p : Ptr} (h : s.step (.run t env) = some s')
    (ht : s.threads[t]? = some (.checkServerStatus p)) :
    s' = { s with
      threads := s.threads.set t (if env.ok then .sendMsg p else .putJobBack p) } := by
  have hfault := (step_cases h).1
  rcases step_run_eq h ht with ⟨r, hrun, rfl⟩ | ⟨fault, hrun, -⟩
  · injection hrun with hrun
    injection hrun with hrun
    subst hrun
    simp only [Sys.commit, checkServerStatusStep, stay, List.append_nil, Option.elim_none, ← hfault]
  · cases hrun

/-- The step behind a `sendMsg` of a job, unless the job is not there. -/
theorem sendMsg_step {env : DistQueue.Env} {p : Ptr} (h : s.step (.run t env) = some s')
    (ht : s.threads[t]? = some (.sendMsg p)) (hok : s'.fault = none) :
    ∃ contents, s.heap.load p = some contents ∧
      s' = if env.ok then
        { s with
          heap := s.heap.free p
          threads := s.threads.set t .attendExecServ
          log := s.log ++ [.sent t p (contents.msg env.stack).wire] }
      else { s with threads := s.threads.set t (.putJobBack p) } := by
  have hfault := (step_cases h).1
  rcases step_run_eq h ht with ⟨r, hrun, rfl⟩ | ⟨fault, -, rfl⟩
  · injection hrun with hrun
    obtain ⟨contents, hload, hrun⟩ := bind_ok hrun
    injection hrun with hrun
    subst hrun
    refine ⟨contents, deref_ok hload, ?_⟩
    cases env.ok with
    | true =>
        simp only [Sys.commit, if_true, Option.elim_none, hfault]
    | false =>
        simp only [Sys.commit, stay, Bool.false_eq_true, if_false, Option.elim_none,
          List.append_nil, hfault]
  · cases hok

end Ends

omit [NeZero N] in
/-- The thread and the handler take a message the same way. -/
theorem attend_stands (heap : Heap) (s : Conn) (pkg : Msg) :
    Stands heap (receiveExecServ pkg : Pc N) (s.attend pkg).main := by
  unfold Conn.attend receiveExecServ
  dsimp only
  split_ifs
  · exact .sendJob
  · exact .reports
  · exact .gone trivial
  · exact .attends

/-- A call that ends something, and the step of the thread with it. -/
inductive Followed (s : Sys N) (link : Link) (conn : Conn) : Action → Sys N → Prop
  | message {st : RecvSt} {pkg : Msg} {rest : List UInt8} {blank : Job}
      (ht : s.threads[link.thread]? = some .attendExecServ)
      (hmain : link.conn.main = .attendExecServ st)
      (hconn : conn = Conn.attend { link.conn with toMain := rest } pkg) :
      Followed s link conn (.receive link.thread pkg blank)
        { s with threads := s.threads.set link.thread (receiveExecServ pkg) }
  | hangup (ht : s.threads[link.thread]? = some .attendExecServ) (hmain : conn.main = .closed)
      (hsends : conn.sendJobs = link.conn.sendJobs) :
      Followed s link conn (.hangup link.thread)
        { s with threads := s.threads.set link.thread .closed }
  | ready {env : DistQueue.Env} {p : Ptr} {job : Job} {pkg : Msg} {st : SendSt}
      (ht : s.threads[link.thread]? = some (.checkServerStatus p))
      (hjob : s.heap.contents p = some job) (hmain : conn.main = .sendJob job pkg st)
      (hsends : conn.sendJobs = link.conn.sendJobs) :
      Followed s link conn (.run link.thread env)
        { s with threads := s.threads.set link.thread (.sendMsg p) }
  | sent {env : DistQueue.Env} {p : Ptr} {job : Job} {st : RecvSt}
      (ht : s.threads[link.thread]? = some (.sendMsg p)) (hload : s.heap.load p = some job)
      (hmain : conn.main = .attendExecServ st)
      (hsends : conn.sendJobs = link.conn.sendJobs ++ [⟨job, 1, false⟩]) :
      Followed s link conn (.run link.thread env)
        { s with
          heap := s.heap.free p
          threads := s.threads.set link.thread .attendExecServ
          log := s.log ++ [.sent link.thread p job.call.wire] }
  | failed {env : DistQueue.Env} {pc : Pc N} {p : Ptr}
      (ht : s.threads[link.thread]? = some pc) (hpc : pc = .checkServerStatus p ∨ pc = .sendMsg p)
      (hmain : conn.main = .closed)
      (hsends : ∀ (n : Nat) (call : SendJob), conn.sendJobs[n]? = some call → call.ret = 1 →
        link.conn.sendJobs[n]? = some call) :
      Followed s link conn (.run link.thread env)
        { s with threads := s.threads.set link.thread (.putJobBack p) }

omit [NeZero N] in
theorem Cluster.Placed.handled {s : Cluster N} (hp : s.Placed) {i : Nat} {call : Handshake.Env}
    {env : DistQueue.Env} {link : Link} {pc : Pc N} {conn : Conn}
    (hcalls : s.Calls i call link pc conn) :
    Handled s.server.heap link env conn pc (link.act call env conn) := by
  obtain ⟨pc', hpc, hst⟩ := hp.stands link (List.mem_of_getElem? hcalls.found)
  obtain rfl := Option.some.inj (hpc.symm.trans hcalls.thread)
  exact handled_of_step hst hcalls.onWire hcalls.has hcalls.step

omit [NeZero N] in
theorem Cluster.Placed.goesOn {s : Cluster N} (hp : s.Placed) {i : Nat} {call : Handshake.Env}
    {env : DistQueue.Env} {link : Link} {pc : Pc N} {conn : Conn}
    (hcalls : s.Calls i call link pc conn) (hact : link.act call env conn = none) :
    Stands s.server.heap pc conn.main ∧ conn.sendJobs = link.conn.sendJobs := by
  have hhandled : Handled s.server.heap link env conn pc (link.act call env conn) :=
    hp.handled hcalls
  rw [hact] at hhandled
  cases hhandled with
  | goesOn hst _ hsends => exact ⟨hst, hsends⟩

theorem Cluster.Placed.followed {s : Cluster N} (hp : s.Placed) {i : Nat} {call : Handshake.Env}
    {env : DistQueue.Env} {link : Link} {pc : Pc N} {conn : Conn} {a : Action} {server : Sys N}
    (hcalls : s.Calls i call link pc conn) (hact : link.act call env conn = some a)
    (h : s.server.step a = some server) (hfault : server.fault = none) :
    Followed s.server link conn a server := by
  have hhandled : Handled s.server.heap link env conn pc (link.act call env conn) :=
    hp.handled hcalls
  have ht := hcalls.thread
  rw [hact] at hhandled
  cases hhandled with
  | message hmain hconn =>
      rw [receive_step h ht]
      exact .message ht hmain hconn
  | hangup hmain hsends =>
      rw [hangup_step h ht]
      exact .hangup ht hmain hsends
  | ready hjob hmain hsends =>
      rw [checked_step h ht]
      exact .ready ht hjob hmain hsends
  | @sent p job st hjob hmain hsends =>
      obtain ⟨contents, hload, hs'⟩ := sendMsg_step h ht hfault
      obtain rfl : contents = job := Option.some.inj ((Heap.contents_of_load hload).symm.trans hjob)
      rw [hs', Job.wire_call]
      exact .sent ht hload hmain hsends
  | @failed _ p hpc hmain hsends =>
      rcases hpc with rfl | rfl
      · rw [checked_step h ht]
        exact .failed ht (.inl rfl) hmain hsends
      · obtain ⟨contents, hload, hs'⟩ := sendMsg_step h ht hfault
        rw [hs']
        exact .failed ht (.inr rfl) hmain hsends

omit [NeZero N] in
theorem Followed.stands {s s' : Sys N} {link : Link} {conn : Conn} {a : Action}
    (h : Followed s link conn a s') :
    ∃ pc, s'.threads[link.thread]? = some pc ∧ Stands s'.heap pc conn.main := by
  have hset : ∀ {pc : Pc N} (pc' : Pc N), s.threads[link.thread]? = some pc →
      (s.threads.set link.thread pc')[link.thread]? = some pc' := fun pc' ht =>
    List.getElem?_set_self (List.getElem?_eq_some_iff.mp ht).1
  cases h with
  | message ht _ hconn => exact ⟨_, hset _ ht, hconn ▸ attend_stands _ _ _⟩
  | hangup ht hmain => exact ⟨_, hset _ ht, hmain ▸ .gone trivial⟩
  | ready ht hjob hmain => exact ⟨_, hset _ ht, hmain ▸ .sends hjob⟩
  | sent ht _ hmain => exact ⟨_, hset _ ht, hmain ▸ .attends⟩
  | failed ht _ hmain => exact ⟨_, hset _ ht, hmain ▸ .gone trivial⟩

omit [NeZero N] in
theorem Followed.thread {s s' : Sys N} {link : Link} {conn : Conn} {a : Action}
    (h : Followed s link conn a s') : a.thread = some link.thread := by
  cases h <;> rfl

theorem accept_step {s s' : Sys N} (h : s.step .acceptExecServ = some s') :
    s' = { s with threads := s.threads ++ [.attendExecServ] } := by
  unfold Sys.step at h
  split at h
  · injection h with h
    exact h.symm
  · cases h

omit [NeZero N] in
theorem map_thread_set {links : List Link} {i : Nat} {link : Link} (h : links[i]? = some link)
    (conn : Conn) : (links.set i ⟨link.thread, conn⟩).map Link.thread = links.map Link.thread := by
  refine List.ext_getElem? fun j => ?_
  rw [List.getElem?_map, List.getElem?_map, List.getElem?_set]
  split
  · next hij =>
      subst hij
      obtain ⟨hlt, -⟩ := List.getElem?_eq_some_iff.mp h
      rw [if_pos hlt, h]
      rfl
  · rfl

omit [NeZero N] in
/-- After a step of link `i`, a link is that one or another one from before. -/
theorem mem_set_links {links : List Link} {i : Nat} {link' x : Link} (h : x ∈ links.set i link') :
    x = link' ∨ ∃ j, i ≠ j ∧ links[j]? = some x := by
  obtain ⟨j, hj⟩ := List.mem_iff_getElem?.mp h
  rcases getElem?_set_cases hj with ⟨-, rfl⟩ | ⟨hij, hj⟩
  · exact .inl rfl
  · exact .inr ⟨j, hij, hj⟩

omit [NeZero N] in
theorem Sys.Own.message {s : Sys N} {a : Action} (h : s.Own a) {t : Nat} {pc : Pc N}
    (hm : a.message = some t) (ht : s.threads[t]? = some pc) : pc = .attendClient := by
  cases a with
  | receive t' pkg blank | hangup t' =>
      injection hm with hm
      subst hm
      exact Option.some.inj (ht.symm.trans h)
  | _ => cases hm

/-- A section without a defined result leaves everything as it was. -/
theorem fault_step {s s' : Sys N} {a : Action} (h : s.step a = some s') (hfault : s'.fault ≠ none) :
    s' = { s with fault := s'.fault } := by
  obtain ⟨hnone, hstep⟩ := step_cases h
  cases hstep with
  | faulted => rfl
  | ran => exact absurd rfl hfault
  | _ => exact absurd hnone hfault

theorem Cluster.Placed.step {s s' : Cluster N} {a : ClusterAction} (hp : s.Placed)
    (hs : s.server.Sound) (h : s.step a = some s') : s'.Placed := by
  cases (cluster_step_cases h).2 with
  | connect hserver =>
      rw [accept_step hserver]
      have hlt : ∀ link ∈ s.links, link.thread < s.server.threads.length := fun link hlink => by
        obtain ⟨pc, hpc, -⟩ := hp.stands link hlink
        exact (List.getElem?_eq_some_iff.mp hpc).1
      refine ⟨?_, fun link hlink => ?_⟩
      · rw [List.map_append, List.nodup_append]
        refine ⟨hp.distinct, List.nodup_singleton _, fun t ht t' ht' => ?_⟩
        obtain ⟨link, hlink, rfl⟩ := List.mem_map.mp ht
        obtain rfl := List.mem_singleton.mp ht'
        exact Nat.ne_of_lt (hlt link hlink)
      · rcases List.mem_append.mp hlink with hlink | hlink
        · obtain ⟨pc, hpc, hst⟩ := hp.stands link hlink
          exact ⟨pc, (List.getElem?_append_left (hlt link hlink)).trans hpc, hst⟩
        · obtain rfl := List.mem_singleton.mp hlink
          exact ⟨.attendExecServ, List.getElem?_concat_length, .attends⟩
  | server hown hserver =>
      refine ⟨hp.distinct, fun link hlink => ?_⟩
      obtain ⟨pc, hpc, hst⟩ := hp.stands link hlink
      refine hst.own hs hserver hpc (fun hm => hown.message hm hpc) fun env ha => ?_
      subst ha
      exact hown pc hpc
  | @goesOn i call env link pc conn hcalls hact =>
      refine ⟨(map_thread_set hcalls.found conn).symm ▸ hp.distinct, fun x hx => ?_⟩
      rcases mem_set_links hx with rfl | ⟨j, -, hj⟩
      · exact ⟨pc, hcalls.thread, (hp.goesOn hcalls hact).1⟩
      · exact hp.stands x (List.mem_of_getElem? hj)
  | @ends i call env link pc conn sa server hcalls hact hserver hfault =>
      refine ⟨(map_thread_set hcalls.found conn).symm ▸ hp.distinct, fun x hx => ?_⟩
      have hfollowed := hp.followed hcalls hact hserver hfault
      rcases mem_set_links hx with rfl | ⟨j, hij, hj⟩
      · exact hfollowed.stands
      · obtain ⟨pcx, hpcx, hstx⟩ := hp.stands x (List.mem_of_getElem? hj)
        have hne := hp.other hcalls.found hj hij
        have hthread := hfollowed.thread
        refine hstx.own hs hserver hpcx (fun hm => ?_) fun env' ha => ?_
        · rw [Action.thread_of_message hm] at hthread
          exact absurd (Option.some.inj hthread) hne
        · rw [ha] at hthread
          exact absurd (Option.some.inj hthread) hne
  | faulted hcalls hact hserver hfault =>
      rw [fault_step hserver hfault]
      exact ⟨hp.distinct, hp.stands⟩
  | @exec i call link conn hlink hexec =>
      refine ⟨(map_thread_set hlink conn).symm ▸ hp.distinct, fun x hx => ?_⟩
      rcases mem_set_links hx with rfl | ⟨j, -, hj⟩
      · obtain ⟨pc, hpc, hst⟩ := hp.stands link (List.mem_of_getElem? hlink)
        refine ⟨pc, hpc, ?_⟩
        show Stands _ pc conn.main
        rw [(Conn.execStep_main hexec).1]
        exact hst
      · exact hp.stands x (List.mem_of_getElem? hj)

end Threads

end DistQueue
