import DistQueue.Cluster.Executions
import DistQueue.Server.Lifecycle

/-!
# Reports in the cluster

What the main server has received of the job it sent last on a connection, and
what is still on the stream, is what the exec server has told of that job. So
the exec servers of the cluster behave as `Sys.Conforms` asks of exec servers
that are not modelled, and a record says nothing that has not happened.
-/

namespace DistQueue

open DistQueue.Lib Handshake

variable {N : Nat}

/-! ## What the main server has received -/

/-- The reports of the job thread `t` has sent last: those that are stored, and
the one that is about to be. -/
def Sys.received (s : Sys N) (t : Nat) : List HistOp :=
  (s.serving t).elim [] Serving.reports ++ (s.threads[t]?.bind Pc.report).toList

/-- The job an exec server has is the last that was sent to it. -/
theorem serving_dispatched (s : Sys N) (t : Nat) :
    (s.serving t).map (fun x => (x.job, x.wire)) = (s.dispatched t).getLast? := by
  rw [Sys.serving, Sys.dispatched]
  induction s.log using List.reverseRecOn with
  | nil => rfl
  | append_singleton log e ih =>
      rw [List.foldl_append, List.filterMap_append, List.foldl_cons, List.foldl_nil]
      have hkept : ∀ {x : Option Serving}, x.map (fun x => (x.job, x.wire)) =
          (log.filterMap (Event.dispatch t)).getLast? → e.dispatch t = none →
          x.map (fun x => (x.job, x.wire)) =
            (log.filterMap (Event.dispatch t) ++ [e].filterMap (Event.dispatch t)).getLast? := by
        intro x hx hnone
        rw [List.filterMap_cons_none hnone, List.filterMap_nil, List.append_nil, hx]
      cases e with
      | sent t' job wire =>
          by_cases ht : t' = t
          · subst ht
            rw [List.filterMap_cons_some (Event.dispatch_self ..), List.filterMap_nil,
              List.getLast?_append]
            simp [serve]
          · refine hkept ?_ (Event.dispatch_other ht ..)
            rw [serve, if_neg ht]
            exact ih
      | history t' op =>
          refine hkept ?_ rfl
          cases op with
          | changeStateJob jobid state exitValue =>
              rw [serve]
              split
              · rw [Option.map_map]
                exact ih
              · exact ih
          | _ => exact ih
      | _ => exact hkept ih rfl

theorem receive_report_eq {N' : Nat} (pkg : Msg) :
    (receiveExecServ pkg : Pc N).report = (receiveExecServ pkg : Pc N').report := by
  unfold receiveExecServ
  dsimp only
  split_ifs <;> rfl

section Received

variable [NeZero N] {s s' : Sys N} {a : Action} {t : Nat} {pc : Pc N}

theorem Ran.serve_self {server : MainServer N} {heap : Heap} {env : DistQueue.Env}
    {r : Result N} (h : Ran server heap t env pc r) (hwire : pc.onWire = false)
    (x : Option Serving) :
    r.events.foldl (serve t) x =
      pc.report.elim x fun op => x.map fun x => { x with reports := x.reports ++ [op] } := by
  cases h with
  | sent => cases hwire
  | changeStateJob => exact if_pos rfl
  | submittedResponse | reply =>
      dsimp only
      split <;> rfl
  | _ => rfl

omit [NeZero N] in
theorem received_same (ht : s.threads[t]? = some pc) (hlog : s'.serving t = s.serving t)
    (hpc : s'.threads[t]? = some pc ∨ s'.threads[t]? = some pc.wake) :
    s'.received t = s.received t := by
  rw [Sys.received, Sys.received, hlog, ht]
  rcases hpc with hpc | hpc <;> rw [hpc]
  rw [Option.bind_some, Option.bind_some, Pc.report_wake]

/-- A section of its own, and the thread has stored what it had received. -/
theorem received_ran {env : DistQueue.Env} {r : Result N} (ht : s.threads[t]? = some pc)
    (hran : Ran s.server s.heap t env pc r) (hwire : pc.onWire = false)
    (hserving : pc.report ≠ none → s.serving t ≠ none) :
    (s.commit t env.pick r).received t = s.received t := by
  have hnone : ((s.commit t env.pick r).threads[t]?.bind Pc.report) = none := by
    rcases commit_self ht env.pick r with hself | hself
    · rw [hself, Option.bind_some, hran.report]
    · rw [hself, Option.bind_some, Pc.report_wake, hran.report]
  rw [Sys.received, Sys.received, hnone, Sys.serving_commit, hran.serve_self hwire, ht,
    Option.bind_some]
  cases hop : pc.report with
  | none => rfl
  | some op =>
      obtain ⟨x, hx⟩ := Option.ne_none_iff_exists'.mp
        (hserving fun hnone => by rw [hop] at hnone; cases hnone)
      rw [hx, Option.elim_some, Option.toList_some, Option.toList_none, List.append_nil]
      rfl

/-- The thread goes on with a report that it has received. -/
theorem received_own (h : s.step a = some s') (ht : s.threads[t]? = some pc)
    (hmessage : a.message ≠ some t) (hwire : ∀ env, a = .run t env → pc.onWire = false)
    (hserving : pc.report ≠ none → s.serving t ≠ none) : s'.received t = s.received t := by
  obtain ⟨-, hstep⟩ := step_cases h
  rcases hstep.thread ht with hpc | ⟨hm, -⟩ | ⟨env, r, rfl, hran, rfl⟩
  · cases hstep with
    | @accepted t' => exact received_same ht (@Sys.serving_append _ s _ [.accepted t' _] rfl t) hpc
    | @ran t' env pc' r ht' hran =>
        by_cases htt : t' = t
        · subst htt
          obtain rfl := Option.some.inj (ht'.symm.trans ht)
          exact received_ran ht hran (hwire env rfl) hserving
        · exact received_same ht ((s.serving_commit t' env.pick r t).trans (hran.serve_other htt _))
            hpc
    | _ => exact received_same ht rfl hpc
  · exact absurd hm hmessage
  · exact received_ran ht hran (hwire env rfl) hserving

end Received

/-! ## What is received is what was told -/

/-- While the handler listens, all that has been told of the job sent last has
been received, or is on the stream. -/
structure Link.Hears (s : Sys N) (link : Link) : Prop where
  onLatest : link.conn.OnLatest
  received : ∃ whole, link.conn.Speaks whole ∧ (link.conn.main ≠ .closed →
    s.received link.thread ++ whole.filterMap SetterCall.report = link.conn.latest)

section Hears

variable {s s' : Sys N} {link : Link} {call : Handshake.Env} {env : DistQueue.Env} {conn : Conn}
  {pc : Pc N}

theorem heard_of_goesOn (hact : link.act call env conn = none) : link.conn.heard call = none := by
  rw [Link.act] at hact
  rw [Conn.heard]
  split
  · next st hmain =>
      rw [hmain] at hact
      dsimp only at hact
      split at hact
      · next hrecv => rw [hrecv]
      · cases hact
      · cases hact
  · rfl

theorem heard_of_message {t : Nat} {pkg : Msg} {blank : Job}
    (hact : link.act call env conn = some (.receive t pkg blank)) :
    t = link.thread ∧ link.conn.heard call = (receiveExecServ pkg : Pc N).report := by
  rw [Link.act] at hact
  rw [Conn.heard]
  split
  · next st hmain =>
      rw [hmain] at hact
      dsimp only at hact
      split at hact
      · cases hact
      · next code pkg' rest hrecv =>
          rw [hrecv]
          injection hact with hact
          split at hact
          · next hcode =>
              injection hact with ht hpkg
              subst ht hpkg
              exact ⟨rfl, (if_pos hcode).trans (receive_report_eq _)⟩
          · cases hact
      · cases hact
  · next hmain =>
      exfalso
      split at hact
      · next st hst => exact hmain st hst
      · obtain ⟨ok, -, hok⟩ := Option.map_eq_some_iff.mp hact
        cases hok

theorem Stands.heard {heap : Heap} (h : Stands heap pc link.conn.main)
    (hpc : pc ≠ .attendExecServ) (hreport : pc.report = none) : link.conn.heard call = none := by
  rw [Conn.heard]
  generalize link.conn.main = main at h
  cases h with
  | attends => exact absurd rfl hpc
  | reports => cases hreport
  | checks hmain =>
      cases main with
      | attendExecServ => cases hmain
      | _ => rfl
  | _ => rfl

/-- A call of the handler that is not the end of a `sendJob`. -/
theorem Link.Hears.called (h : link.Hears s) (hinv : link.conn.Inv) (hr : call.result ≠ .eintr)
    (hstep : link.conn.mainStep call = some conn)
    (hsends : conn.main ≠ .closed → conn.sendJobs = link.conn.sendJobs)
    (hreceived : conn.main ≠ .closed →
      s'.received link.thread = s.received link.thread ++ (link.conn.heard call).toList) :
    Link.Hears s' ⟨link.thread, conn⟩ := by
  obtain ⟨whole, hspeaks, htold⟩ := h.received
  obtain ⟨whole', hspeaks', hwhole⟩ := hspeaks.mainStep hr hstep
  obtain ⟨-, hexecutions, -, -⟩ := Conn.mainStep_exec hstep
  refine ⟨h.onLatest.mainStep hinv hstep, whole', hspeaks', fun hopen => ?_⟩
  have hlatest : conn.latest = link.conn.latest := by
    rw [Conn.latest, Conn.latest, Conn.told, Conn.told, hexecutions, hsends hopen]
  show s'.received link.thread ++ _ = conn.latest
  rw [hreceived hopen, List.append_assoc, ← hwhole hopen, hlatest]
  exact htold (Conn.open_of_step hstep)

theorem Followed.hears {a : Action} (hf : Followed s link conn a s') (h : link.Hears s)
    (hinv : link.conn.Inv) (hst : ∀ pc, s.threads[link.thread]? = some pc →
      Stands s.heap pc link.conn.main)
    (hr : call.result ≠ .eintr) (hstep : link.conn.mainStep call = some conn)
    (hact : link.act call env conn = some a) : Link.Hears s' ⟨link.thread, conn⟩ := by
  have hnothing : ∀ pc : Pc N, s.threads[link.thread]? = some pc → pc ≠ .attendExecServ →
      pc.report = none → link.conn.heard call = none := fun pc hpc hne hreport =>
    (hst pc hpc).heard hne hreport
  have hset : ∀ {pc : Pc N} (pc' : Pc N), s.threads[link.thread]? = some pc →
      (s.threads.set link.thread pc')[link.thread]? = some pc' := fun pc' ht =>
    List.getElem?_set_self (List.getElem?_eq_some_iff.mp ht).1
  cases hf with
  | @message st pkg rest blank ht hmain hconn =>
      refine h.called hinv hr hstep (fun _ => ?_) fun _ => ?_
      · obtain ⟨main, mishaps, hattend, -⟩ := Conn.attend_eq { link.conn with toMain := rest } pkg
        rw [hconn, hattend]
      · rw [(heard_of_message hact).2, Sys.received, Sys.received, hset _ ht, ht]
        simp only [Option.bind_some]
        rw [show (Pc.attendExecServ : Pc N).report = none from rfl, Option.toList_none,
          List.append_nil]
        rfl
  | hangup ht hmain hsends =>
      exact h.called hinv hr hstep (fun _ => hsends) (fun hopen => absurd hmain hopen)
  | ready ht hjob hmain hsends =>
      refine h.called hinv hr hstep (fun _ => hsends) fun _ => ?_
      rw [hnothing _ ht (fun h => by cases h) rfl, Sys.received, Sys.received, hset _ ht, ht,
        Option.toList_none, List.append_nil]
      rfl
  | @sent env p job st ht hload hmain hsends =>
      obtain ⟨whole, hspeaks, -⟩ := h.received
      obtain ⟨whole', hspeaks', hwhole⟩ := hspeaks.mainStep hr hstep
      obtain ⟨-, hexecutions, -, -⟩ := Conn.mainStep_exec hstep
      obtain ⟨job', pkg, st', hpc⟩ : ∃ job' pkg st', link.conn.main = .sendJob job' pkg st' := by
        have hstands := hst _ ht
        generalize link.conn.main = main at hstands
        cases hstands with
        | sends => exact ⟨_, _, _, rfl⟩
        | gone hgone => exact hgone.elim
      have hopen : conn.main ≠ .closed := fun hclosed => by rw [hmain] at hclosed; cases hclosed
      have hsilent : whole = [] := hspeaks.silent (hinv.sending hpc).2
      have hwhole' := hwhole hopen
      rw [hsilent, List.filterMap_nil] at hwhole'
      refine ⟨h.onLatest.mainStep hinv hstep, whole', hspeaks', fun _ => ?_⟩
      have hlatest : conn.latest = [] := by
        rw [Conn.latest, hsends, List.length_append]
        rw [Conn.told, hexecutions]
        exact hinv.told_nil (Nat.le_refl _)
      show Sys.received _ link.thread ++ _ = conn.latest
      rw [hlatest, (List.append_eq_nil_iff.mp hwhole'.symm).2, List.append_nil]
      rw [Sys.received, hset _ ht, Sys.serving_append rfl, List.foldl_cons, List.foldl_nil, serve,
        if_pos rfl]
      rfl
  | failed ht hpc hmain hsends =>
      exact h.called hinv hr hstep (fun hopen => absurd hmain hopen)
        (fun hopen => absurd hmain hopen)

/-- A thread that has a report has sent a job. -/
theorem Link.Hears.serving (h : link.Hears s) (hc : link.Carries s) (hinv : link.conn.Inv)
    (ht : s.threads[link.thread]? = some pc) (hst : Stands s.heap pc link.conn.main)
    (hreport : pc.report ≠ none) : s.serving link.thread ≠ none := by
  intro hnone
  obtain ⟨op, hop⟩ := Option.ne_none_iff_exists'.mp hreport
  have hopen : link.conn.main ≠ .closed := by
    generalize link.conn.main = main at hst
    cases hst with
    | gone hgone =>
        cases pc with
        | changeStateJob => exact hgone.elim
        | _ => cases hop
    | reports => exact fun hclosed => by cases hclosed
    | _ => cases hop
  have hdispatched := serving_dispatched s link.thread
  rw [hnone] at hdispatched
  have hlen : link.conn.sendJobs.length = 0 := by
    rw [← hc.count hopen, List.getLast?_eq_none_iff.mp hdispatched.symm]
    rfl
  obtain ⟨whole, -, htold⟩ := h.received
  have hlatest := htold hopen
  rw [Conn.latest, hlen, hinv.told_nil (Nat.le_of_eq hlen), Sys.received, ht, Option.bind_some,
    hop] at hlatest
  simp at hlatest

end Hears

section Steps

variable [NeZero N]

def Cluster.Hears (s : Cluster N) : Prop := ∀ link ∈ s.links, link.Hears s.server

omit [NeZero N] in
theorem Link.Hears.same {s s' : Sys N} {link : Link} (h : link.Hears s)
    (hreceived : s'.received link.thread = s.received link.thread) : link.Hears s' := by
  refine ⟨h.onLatest, ?_⟩
  rw [hreceived]
  exact h.received

/-- The thread of the link is not the one that makes the step. -/
theorem Link.Hears.own {s s' : Sys N} {a : Action} {link : Link} {pc : Pc N} (h : link.Hears s)
    (hc : link.Carries s) (hinv : link.conn.Inv) (hs : s.step a = some s')
    (ht : s.threads[link.thread]? = some pc) (hst : Stands s.heap pc link.conn.main)
    (hmessage : a.message ≠ some link.thread)
    (hwire : ∀ env, a = .run link.thread env → pc.onWire = false) : link.Hears s' :=
  h.same (received_own hs ht hmessage hwire (h.serving hc hinv ht hst))

theorem Cluster.Hears.step {s s' : Cluster N} {a : ClusterAction} (hh : s.Hears) (hp : s.Placed)
    (hc : s.Carries) (hknown : s.server.SendersKnown) (hinv : ∀ link ∈ s.links, link.conn.Inv)
    (hinv' : ∀ link ∈ s'.links, link.conn.Inv) (hok : s.Regular a) (h : s.step a = some s') :
    s'.Hears := by
  cases (cluster_step_cases h).2 with
  | @connect stack server hserver =>
      intro link hlink
      rcases List.mem_append.mp hlink with hlink | hlink
      · obtain ⟨pc, hpc, hst⟩ := hp.stands link hlink
        exact (hh link hlink).own (hc link hlink) (hinv link hlink) hserver hpc hst
          (fun hm => by cases hm) (fun env ha => by cases ha)
      · obtain rfl := List.mem_singleton.mp hlink
        refine ⟨fun _ e he => (by cases he), [], Conn.speaks_init stack, fun _ => ?_⟩
        have hnone : s.server.serving s.server.threads.length = none := by
          have hdispatched := serving_dispatched s.server s.server.threads.length
          rw [hknown.dispatched (Nat.le_refl _)] at hdispatched
          exact Option.map_eq_none_iff.mp hdispatched
        have hreceived : server.received s.server.threads.length = [] := by
          rw [accept_step hserver, Sys.received]
          show (s.server.serving _).elim [] _ ++ _ = _
          rw [hnone, List.getElem?_concat_length]
          rfl
        rw [hreceived]
        rfl
  | server hown hserver =>
      intro link hlink
      obtain ⟨pc, hpc, hst⟩ := hp.stands link hlink
      refine (hh link hlink).own (hc link hlink) (hinv link hlink) hserver hpc hst
        (fun hm => hst.not_client (hown.message hm hpc)) fun env ha => ?_
      subst ha
      exact hown pc hpc
  | @goesOn i call env link pc conn hcalls hact =>
      intro x hx
      rcases mem_set_links hx with rfl | ⟨j, -, hj⟩
      · have hmem := List.mem_of_getElem? hcalls.found
        obtain ⟨-, hsends⟩ := hp.goesOn hcalls hact
        refine (hh link hmem).called (hinv link hmem) hok hcalls.step (fun _ => hsends) fun _ => ?_
        rw [heard_of_goesOn hact, Option.toList_none, List.append_nil]
      · exact hh x (List.mem_of_getElem? hj)
  | @ends i call env link pc conn sa server hcalls hact hserver hfault =>
      have hfollowed := hp.followed hcalls hact hserver hfault
      intro x hx
      rcases mem_set_links hx with rfl | ⟨j, hij, hj⟩
      · have hmem := List.mem_of_getElem? hcalls.found
        refine hfollowed.hears (hh link hmem) (hinv link hmem) (fun pc' hpc' => ?_) hok hcalls.step
          hact
        obtain ⟨pc₀, hpc₀, hst⟩ := hp.stands link hmem
        obtain rfl := Option.some.inj (hpc₀.symm.trans hpc')
        exact hst
      · have hmem := List.mem_of_getElem? hj
        obtain ⟨pcx, hpcx, hstx⟩ := hp.stands x hmem
        have hne := hp.other hcalls.found hj hij
        have hthread := hfollowed.thread
        refine (hh x hmem).own (hc x hmem) (hinv x hmem) hserver hpcx hstx (fun hm => ?_)
          fun env' ha => ?_
        · rw [Action.thread_of_message hm] at hthread
          exact hne (Option.some.inj hthread)
        · rw [ha] at hthread
          exact absurd (Option.some.inj hthread) hne
  | faulted hcalls hact hserver hfault =>
      rw [fault_step hserver hfault]
      exact fun link hlink => (hh link hlink).same rfl
  | @exec i call link conn hlink hexec =>
      intro x hx
      rcases mem_set_links hx with rfl | ⟨j, -, hj⟩
      · have hmem := List.mem_of_getElem? hlink
        obtain ⟨hregular, hfails⟩ := hok link hlink
        obtain ⟨hmain, hsends, -⟩ := Conn.execStep_main hexec
        obtain ⟨whole, hspeaks, htold⟩ := (hh link hmem).received
        obtain ⟨whole', ops, hspeaks', htells, hwhole⟩ :=
          hspeaks.execStep (hinv link hmem) hregular hfails hexec
        refine ⟨(hh link hmem).onLatest.execStep (hinv link hmem) (hinv' _ hx) hexec, whole',
          hspeaks', fun hopen => ?_⟩
        have hopen₀ : link.conn.main ≠ .closed := hmain ▸ hopen
        show s.server.received link.thread ++ _ = conn.latest
        rw [htells.latest (hinv link hmem) (hh link hmem).onLatest hopen₀ hsends, hwhole,
          ← List.append_assoc, htold hopen₀]
      · exact hh x (List.mem_of_getElem? hj)

end Steps

/-! ## Exec servers that behave -/

section Conforms

variable {s : Sys N} {link : Link} {call : Handshake.Env} {conn : Conn} {op : HistOp}

/-- An execution behind a report of the job sent last, and that job. -/
structure Link.Told (s : Sys N) (link : Link) (x : Serving) (e : Execution)
    (jobid : UInt16) : Prop where
  serving : s.serving link.thread = some x
  execution : e ∈ link.conn.executions
  jobOf : link.jobOf s e = some x.job
  sent : execJobID ((Msg.fill 0).over x.wire) = some jobid
  reports : e.Reported jobid ∨ e.Reporting jobid
  latest : link.conn.latest = e.told

/-- What has been told of the job sent last is told by one execution, which is
of that job. -/
theorem Link.Carries.told (hc : link.Carries s) (hinv : link.conn.Inv)
    (hopen : link.conn.main ≠ .closed) (hlatest : link.conn.latest ≠ []) :
    ∃ x e jobid, link.Told s x e jobid := by
  obtain ⟨op, hop⟩ := List.exists_mem_of_ne_nil _ hlatest
  obtain ⟨e, he, hop⟩ := List.mem_flatMap.mp hop
  split at hop
  case isFalse => cases hop
  next hlast =>
  obtain ⟨n, p, job, hran⟩ := hc.ran hinv he
  obtain rfl := hran.labels _ hlast
  obtain ⟨up, down, pend, debt, hholds⟩ := id hinv
  have hdispatched := serving_dispatched s link.thread
  rw [List.getLast?_eq_getElem?, hc.count hopen, hran.dispatched] at hdispatched
  obtain ⟨x, hx, hjob⟩ := Option.map_eq_some_iff.mp hdispatched
  obtain ⟨rfl, hwire⟩ := Prod.ext_iff.mp hjob
  have hid := (arrived_job hran.arrived).2
  have hsent : execJobID ((Msg.fill 0).over x.wire) = some job.id := by
    rw [show x.wire = job.call.wire from hwire]
    exact (arrived_job ⟨Msg.fill 0, rfl⟩).2
  refine ⟨x, e, job.id, hx, he, hran.jobOf, hsent, ?_, hinv.told_eq he hlast⟩
  rcases List.mem_append.mp he with hover | hcurrent
  · obtain ⟨jobid, hjobid, hreported⟩ := hholds.reported e hover
    rw [hid] at hjobid
    obtain rfl := Option.some.inj hjobid
    exact .inl hreported
  · have hdoing := hholds.doing
    rw [Option.mem_toList.mp hcurrent] at hdoing
    obtain ⟨jobid, hjobid, hreporting⟩ := hdoing.reporting
    rw [hid] at hjobid
    obtain rfl := Option.some.inj hjobid
    exact .inr hreporting

theorem attend_open (s : Conn) {pkg : Msg}
    (h : (receiveExecServ pkg : Pc numQueueMax).report = some op) :
    (s.attend pkg).main ≠ .closed := by
  unfold Conn.attend
  generalize (receiveExecServ pkg : Pc numQueueMax) = pc at h
  cases pc with
  | closed => cases h
  | _ => exact fun hclosed => by cases hclosed

/-- A report that is heard is the next one of the job sent last. -/
theorem Link.Hears.awaits (hh : link.Hears s) (hc : link.Carries s) (hinv : link.conn.Inv)
    (hr : call.result ≠ .eintr) (hstep : link.conn.mainStep call = some conn)
    (hopen : conn.main ≠ .closed) (ht : s.threads[link.thread]? = some .attendExecServ)
    (hheard : link.conn.heard call = some op) : ∃ x ∈ s.serving link.thread, x.Awaits op := by
  obtain ⟨whole, hspeaks, htold⟩ := hh.received
  obtain ⟨whole', -, hwhole⟩ := hspeaks.mainStep hr hstep
  have hopen₀ := Conn.open_of_step hstep
  have hlatest := htold hopen₀
  rw [hwhole hopen, hheard, Option.toList_some, Sys.received, ht] at hlatest
  obtain ⟨x, e, jobid, hx⟩ := hc.told hinv hopen₀ fun hnil => by
    rw [hnil] at hlatest
    simp at hlatest
  have htold : e.told = x.reports ++ op :: whole'.filterMap SetterCall.report := by
    rw [← hx.latest, ← hlatest, hx.serving]
    simp [Pc.report]
  exact ⟨x, hx.serving, jobid, hx.sent, Execution.comesNext hx.reports htold⟩

variable [NeZero N]

theorem Cluster.Hears.conforms {s s' : Cluster N} {a : ClusterAction} (hh : s.Hears) (hp : s.Placed)
    (hc : s.Carries) (hinv : ∀ link ∈ s.links, link.conn.Inv) (hok : s.Regular a)
    (h : s.step a = some s') : s.Serves Sys.Conforms a := by
  have hcalls : ∀ {i : Nat} {call : Handshake.Env} {env : DistQueue.Env} {link : Link} {pc : Pc N}
      {conn : Conn} {sa : Action}, s.Calls i call link pc conn → call.result ≠ .eintr →
      link.act call env conn = some sa → s.server.Conforms sa := by
    intro i call env link pc conn sa hcalls hr hact
    have hhandled : Handled s.server.heap link env conn pc (link.act call env conn) :=
      hp.handled hcalls
    rw [hact] at hhandled
    cases hhandled with
    | @message st pkg rest hmain hconn =>
        intro ht op hop
        have hmem := List.mem_of_getElem? hcalls.found
        have hheard := (@heard_of_message N link call env conn _ _ _ hact).2.trans hop
        have hopen : conn.main ≠ .closed := by
          rw [hconn]
          exact attend_open _ ((receive_report_eq pkg).symm.trans hop)
        exact (hh link hmem).awaits (hc link hmem) (hinv link hmem) hr hcalls.step hopen ht hheard
    | _ => trivial
  intro sa hsa
  cases (cluster_step_cases h).2 with
  | connect =>
      obtain rfl := Option.some.inj hsa
      trivial
  | @server a _ hown =>
      obtain rfl := Option.some.inj hsa
      cases a with
      | receive t pkg blank =>
          intro ht
          rw [show s.server.threads[t]? = some .attendClient from hown] at ht
          cases ht
      | _ => trivial
  | goesOn hc hact =>
      rw [serverAction_handler hc, hact] at hsa
      cases hsa
  | ends hc hact | faulted hc hact =>
      rw [serverAction_handler hc] at hsa
      exact hcalls hc hok hsa
  | exec => cases hsa

end Conforms

/-! ## Runs -/

section Runs

variable [NeZero N] {ok : Cluster N → ClusterAction → Prop} {s : Cluster N}

theorem inv_of_cluster (hreg : ∀ s a, ok s a → s.Regular a)
    (h : Reach Cluster.step ok (· = .init N) s) : ∀ link ∈ s.links, link.conn.Inv :=
  fun link hlink => inv_of_reach (connected_of_reach hreg h link hlink)

theorem hears_of_reach (hreg : ∀ s a, ok s a → s.Regular a)
    (hle : ∀ s a, ok s a → s.Serves Sys.IndexOk a)
    (h : Reach Cluster.step ok (· = .init N) s) : s.Hears :=
  h.invariant (fun _ hs => hs ▸ fun _ hlink => by cases hlink) fun _ a _ hr hh hok hs =>
    hh.step (placed_of_reach hle hr) (carries_of_reach hle hr)
      (sendersKnown_of_reach (server_of_reach hle hr)) (inv_of_cluster hreg hr)
      (inv_of_cluster hreg (.step hr hok hs)) (hreg _ a hok) hs

theorem serves_conforms {s' : Cluster N} {a : ClusterAction} (hreg : ∀ s a, ok s a → s.Regular a)
    (hle : ∀ s a, ok s a → s.Serves Sys.IndexOk a)
    (h : Reach Cluster.step ok (· = .init N) s) (hok : ok s a) (hs : s.step a = some s') :
    s.Serves Sys.Conforms a :=
  (hears_of_reach hreg hle h).conforms (placed_of_reach hle h) (carries_of_reach hle h)
    (inv_of_cluster hreg h) (hreg s a hok) hs

theorem conforms_of_reach {ok' : Sys N → Action → Prop} (hreg : ∀ s a, ok s a → s.Regular a)
    (hle : ∀ s a, ok s a → s.Serves Sys.IndexOk a) (hok' : ∀ s a, ok s a → s.Serves ok' a)
    (h : Reach Cluster.step ok (· = .init N) s) :
    Reach Sys.step (fun s a => s.Conforms a ∧ ok' s a) (· = Sys.init N) s.server := by
  refine h.project (fun s hs => congrArg Cluster.server hs) fun s a s' hr hok hs => ?_
  rcases cluster_step_server hs with ⟨-, hrest⟩ | ⟨sa, hsa, hstep⟩
  · exact .inl hrest
  · exact .inr ⟨sa, ⟨serves_conforms hreg hle hr hok hs sa hsa, hok' s a hok sa hsa⟩, hstep⟩

/-- The exec servers that `exec_server.c` is are such as the main server relies
on: a report comes from the exec server that has the job, under its id, the
start before the end and neither twice. -/
theorem exec_servers_conform (h : Reach Cluster.step Cluster.Regular (· = .init N) s)
    (hb : s.server.Bounded) : Reach Sys.step Sys.Conforms (· = Sys.init N) s.server := by
  have hserver : Reach Sys.step (fun s a => s.Conforms a ∧ anyStep s a) (· = Sys.init N)
      s.server :=
    conforms_of_reach (fun _ _ h => h.2) (fun _ _ h => h.1) (fun _ _ _ _ _ => trivial)
      (cluster_indexOk h hb)
  exact hserver.mono fun _ _ h => h.1

/-- A job is on its way to an exec server only when that has no other, and when
every report of the one before has been stored. -/
theorem sent_when_reported (h : Reach Cluster.step Cluster.Regular (· = .init N) s)
    (hb : s.server.Bounded) {link : Link} (hlink : link ∈ s.links) {job : Job} {pkg : Msg}
    {st : SendSt} (hsending : link.conn.main = .sendJob job pkg st) :
    link.conn.current = none ∧
      (s.server.serving link.thread).elim [] Serving.reports = link.conn.latest ∧
      ∀ e ∈ link.conn.executions, ∃ jobid, execJobID e.pkg = some jobid ∧ e.Reported jobid := by
  have hindex := cluster_indexOk h hb
  have hinv := inv_of_cluster (fun _ _ h => h) h link hlink
  obtain ⟨hcurrent, htoMain⟩ := hinv.sending hsending
  obtain ⟨whole, hspeaks, htold⟩ :=
    (hears_of_reach (fun _ _ h => h.2) (fun _ _ h => h.1) hindex link hlink).received
  obtain ⟨pc, hpc, hst⟩ := (placed_of_reach (fun _ _ h => h.1) hindex).stands link hlink
  have hlatest := htold (by rw [hsending]; exact fun hclosed => by cases hclosed)
  rw [hspeaks.silent htoMain, Sys.received, hpc] at hlatest
  refine ⟨hcurrent, ?_, fun e he => ?_⟩
  · rw [← hlatest]
    rw [hsending] at hst
    cases hst with
    | checks hmain => cases hmain
    | sends => simp [Pc.report]
  · obtain ⟨up, down, pend, debt, hholds⟩ := hinv
    rw [Conn.executions, hcurrent] at he
    exact hholds.reported e (by simpa using he)

end Runs

/-! ## Records that are right -/

section Records

variable [NeZero N]

/-- Every removal, mark and report gets the job it is for. -/
def Sys.Meant (s : Sys N) (a : Action) : Prop := s.Accurate a ∧ s.OwnRecord a

instance (s : Sys N) (a : Action) : Decidable (s.Meant a) :=
  inferInstanceAs (Decidable (_ ∧ _))

def Cluster.Meant (s : Cluster N) (a : ClusterAction) : Prop := s.Regular a ∧ s.Serves Sys.Meant a

instance (s : Cluster N) (a : ClusterAction) : Decidable (s.Meant a) :=
  inferInstanceAs (Decidable (_ ∧ _))

omit [NeZero N] in
theorem Cluster.Meant.indexOk {s : Cluster N} {a : ClusterAction} (h : s.Meant a) :
    s.Serves Sys.IndexOk a := fun sa hsa => (h.2 sa hsa).1.1

theorem steady_of_reach {s : Cluster N} (h : Reach Cluster.step Cluster.Meant (· = .init N) s) :
    Reach Sys.step Sys.Steady (· = Sys.init N) s.server :=
  conforms_of_reach (fun _ _ h => h.1) (fun _ _ h => h.indexOk) (fun _ _ h => h.2) h

/-- Nothing is left to assume of the exec servers for the states of a record to
follow their course. -/
theorem record_advances {s s' : Cluster N} {a : ClusterAction}
    (h : Reach Cluster.step Cluster.Meant (· = .init N) s) (hok : s.Meant a)
    (hs : s.step a = some s') : s.server.Advances s'.server := by
  rcases cluster_step_server hs with ⟨-, hrest⟩ | ⟨sa, hsa, hstep⟩
  · rw [hrest]
    exact fun c record hslot => .inr ⟨record, hslot, rfl, .inl rfl⟩
  · have hconforms := serves_conforms (fun _ _ h => h.1) (fun _ _ h => h.indexOk) h hok hs
    exact advances_of_reach (steady_of_reach h) ⟨hconforms sa hsa, hok.2 sa hsa⟩ hstep

/-- The record of the job that an exec server has is in the state that has been
reported last; and when its stream is empty and its thread idle, that is the
last thing the exec server has told of the job. -/
theorem record_up_to_date {s : Cluster N} (h : Reach Cluster.step Cluster.Meant (· = .init N) s)
    {link : Link} (hlink : link ∈ s.links) (hopen : link.conn.main ≠ .closed) {x : Serving}
    (hx : s.server.serving link.thread = some x) {c : Nat} {record : JobHistory}
    (hslot : s.server.server.history.slot c = some record) (haddr : record.addr = x.job) :
    record.state = x.state ∧ x.reports <+: link.conn.latest ∧
      (link.conn.toMain = [] → (∀ pc ∈ s.server.threads[link.thread]?, pc.report = none) →
        x.reports = link.conn.latest) := by
  obtain ⟨whole, hspeaks, htold⟩ :=
    (hears_of_reach (fun _ _ h => h.1) (fun _ _ h => h.indexOk) h link hlink).received
  have hlatest := htold hopen
  rw [Sys.received, hx, Option.elim_some, List.append_assoc] at hlatest
  refine ⟨(tracked_of_reach (steady_of_reach h)).served link.thread x hx c record hslot haddr,
    ⟨_, hlatest⟩, fun htoMain hidle => ?_⟩
  rw [← hlatest, hspeaks.silent htoMain]
  cases hpc : s.server.threads[link.thread]? with
  | none => simp
  | some pc => simp [hidle pc hpc]

/-! ### What a record says has happened -/

omit [NeZero N] in
/-- What the record says has been told in an execution of its job. -/
def Cluster.Backs (s : Cluster N) (record : JobHistory) : Prop :=
  ∃ link ∈ s.links, ∃ e ∈ link.conn.executions,
    link.jobOf s.server e = some record.addr ∧
      .changeStateJob record.id record.state record.exitStatus ∈ e.told

/-- How a record came to what it says: as before, by `unsubmit`, at the start,
or by a report. -/
inductive Sys.Writes (s : Sys N) (record' : JobHistory) : Action → Prop
  | kept {a : Action} {c : Nat} {record : JobHistory} : s.server.history.slot c = some record →
      record'.addr = record.addr → record'.id = record.id → record'.state = record.state →
      record'.exitStatus = record.exitStatus → Writes s record' a
  | waits {a : Action} : record'.state = JobState.wait.toByte → Writes s record' a
  | marked {a : Action} : record'.state = JobState.unsubmited.toByte → Writes s record' a
  | reported {t : Nat} {env : DistQueue.Env} {jobid : UInt16} {state exitValue : UInt8} {c : Nat}
      {record : JobHistory} : s.threads[t]? = some (.changeStateJob jobid state exitValue) →
      s.server.history.slot c = some record → record.id = jobid →
      record' = record.after (.changeStateJob jobid state exitValue) →
      Writes s record' (.run t env)

theorem writes_of_step {s s' : Sys N} {a : Action} (hl : s.Linked) (h : s.step a = some s')
    {c : Nat} {record' : JobHistory} (hslot : s'.server.history.slot c = some record') :
    s.Writes record' a := by
  have hkept : ∀ {h : History}, h = s.server.history → h.slot c = some record' →
      s.Writes record' a := fun heq hslot => .kept (heq ▸ hslot) rfl rfl rfl rfl
  have hsame : ∀ {record : JobHistory} {op : HistOp}, s.server.history.slot c = some record →
      record' = record.after op → (record.after op).state = record.state →
      (record.after op).exitStatus = record.exitStatus → s.Writes record' a :=
    fun hrecord hafter hstate hexit => .kept hrecord (by rw [hafter, JobHistory.after_addr])
      (by rw [hafter, JobHistory.after_id]) (hafter ▸ hstate) (hafter ▸ hexit)
  obtain ⟨-, hstep⟩ := step_cases h
  cases hstep with
  | accept | accepted | moved | wakeup | faulted => exact hkept rfl hslot
  | @ran t env pc r ht hran =>
      cases hran with
      | @numberJob job queueIdx contents blank history hload haddr hop =>
          have hslot' : history.slot c = some record' := hslot
          rw [History.apply_slot hl.inv hop c] at hslot'
          simp only [History.slotAfter] at hslot'
          split at hslot'
          · obtain rfl := Option.some.inj hslot'
            exact .waits rfl
          · exact .kept hslot' rfl rfl rfl rfl
      | jobState hop hanswer =>
          obtain ⟨record, hrecord, hafter⟩ := slot_after hl.inv hop rfl hslot
          exact hsame hrecord hafter rfl rfl
      | relabel hload hop =>
          obtain ⟨record, hrecord, hafter⟩ := slot_after hl.inv hop rfl hslot
          refine hsame hrecord hafter ?_ ?_ <;> simp only [JobHistory.after] <;> split <;> rfl
      | @markUnsubmited jobid found history hop =>
          obtain ⟨record, hrecord, hafter⟩ := slot_after hl.inv hop rfl hslot
          by_cases hid : record.id = jobid
          · refine .marked ?_
            rw [hafter, JobHistory.after_unsubmit, if_pos hid]
          · refine hsame hrecord hafter ?_ ?_ <;> simp only [JobHistory.after, if_neg hid]
      | @changeStateJob jobid state exitValue history hop =>
          obtain ⟨record, hrecord, hafter⟩ := slot_after hl.inv hop rfl hslot
          by_cases hid : record.id = jobid
          · exact .reported ht hrecord hid hafter
          · refine hsame hrecord hafter ?_ ?_ <;> simp only [JobHistory.after, if_neg hid]
      | _ => exact hkept rfl hslot

omit [NeZero N] in
theorem Sys.jobOf_mono {s s' : Sys N} {link link' : Link} {e e' : Execution} {p : Ptr}
    (hlog : ∃ events, s'.log = s.log ++ events) (hthread : link'.thread = link.thread)
    (hcarriers : e'.carriers = e.carriers) (h : link.jobOf s e = some p) :
    link'.jobOf s' e' = some p := by
  obtain ⟨events, hlog⟩ := hlog
  obtain ⟨n, hn, hp⟩ := Option.bind_eq_some_iff.mp h
  obtain ⟨x, hx, hxp⟩ := Option.map_eq_some_iff.mp hp
  rw [Link.jobOf, hcarriers, hn, Option.bind_some, hthread, Sys.dispatched_append hlog,
    List.getElem?_append_left (List.getElem?_eq_some_iff.mp hx).1, hx, Option.map_some, hxp]

/-- An execution is still there behind a step, and what it has told. -/
theorem cluster_grows {s s' : Cluster N} {a : ClusterAction} (hh : s.Hears)
    (hinv : ∀ link ∈ s.links, link.conn.Inv) (hok : s.Regular a) (h : s.step a = some s')
    {link : Link} (hlink : link ∈ s.links) {e : Execution} (he : e ∈ link.conn.executions) :
    ∃ link' ∈ s'.links, link'.thread = link.thread ∧ ∃ e' ∈ link'.conn.executions,
      e'.carriers = e.carriers ∧ e.told <+: e'.told := by
  have hset : ∀ {links : List Link} {i : Nat} {link₀ : Link} {conn : Conn},
      links[i]? = some link₀ → link ∈ links →
      (∃ e' ∈ conn.executions, e'.carriers = e.carriers ∧ e.told <+: e'.told) ∨ link ≠ link₀ →
      ∃ link' ∈ links.set i ⟨link₀.thread, conn⟩, link'.thread = link.thread ∧
        ∃ e' ∈ link'.conn.executions, e'.carriers = e.carriers ∧ e.told <+: e'.told := by
    intro links i link₀ conn hi hmem hcase
    obtain ⟨j, hj⟩ := List.mem_iff_getElem?.mp hmem
    by_cases hij : i = j
    · subst hij
      obtain rfl := Option.some.inj (hi.symm.trans hj)
      rcases hcase with he' | hne
      · exact ⟨_, List.mem_set (List.getElem?_eq_some_iff.mp hi).1 _, rfl, he'⟩
      · exact absurd rfl hne
    · exact ⟨link, List.mem_of_getElem? ((List.getElem?_set_ne hij).trans hj), rfl, e, he, rfl,
        List.prefix_refl _⟩
  cases (cluster_step_cases h).2 with
  | connect =>
      exact ⟨link, List.mem_append_left _ hlink, rfl, e, he, rfl, List.prefix_refl _⟩
  | server | faulted => exact ⟨link, hlink, rfl, e, he, rfl, List.prefix_refl _⟩
  | @goesOn i call env link₀ pc conn hcalls | @ends i call env link₀ pc conn _ _ hcalls =>
      refine hset hcalls.found hlink ?_
      by_cases heq : link = link₀
      · subst heq
        refine .inl ⟨e, ?_, rfl, List.prefix_refl _⟩
        rw [(Conn.mainStep_exec hcalls.step).2.1]
        exact he
      · exact .inr heq
  | @exec i call link₀ conn hfound hexec =>
      refine hset hfound hlink ?_
      by_cases heq : link = link₀
      · subst heq
        obtain ⟨hregular, hfails⟩ := hok link hfound
        obtain ⟨whole, hspeaks, -⟩ := (hh link hlink).received
        obtain ⟨-, ops, -, htells, -⟩ :=
          hspeaks.execStep (hinv link hlink) hregular hfails hexec
        obtain ⟨e', he', hcarriers, -, htold⟩ := htells.grows he
        exact .inl ⟨e', he', hcarriers, htold⟩
      · exact .inr heq

omit [NeZero N] in
/-- Jobs go out on the connections that there are. -/
def Cluster.Senders (s : Cluster N) : Prop :=
  ∀ t, s.server.dispatched t ≠ [] → t ∈ s.links.map Link.thread

theorem Cluster.Senders.step {s s' : Cluster N} {a : ClusterAction} (hsenders : s.Senders)
    (hp : s.Placed) (h : s.step a = some s') : s'.Senders := by
  intro t ht
  cases (cluster_step_cases h).2 with
  | connect hserver =>
      rw [accept_step hserver] at ht
      rw [List.map_append]
      exact List.mem_append_left _ (hsenders t ht)
  | server hown hserver => exact hsenders t (hown.dispatched hserver t ▸ ht)
  | goesOn hcalls =>
      rw [map_thread_set hcalls.found]
      exact hsenders t ht
  | @ends i call env link pc conn sa server hcalls hact hserver hfault =>
      rw [map_thread_set hcalls.found]
      by_cases htt : t = link.thread
      · rw [htt]
        exact List.mem_map_of_mem (List.mem_of_getElem? hcalls.found)
      · rw [(hp.followed hcalls hact hserver hfault).dispatched htt] at ht
        exact hsenders t ht
  | faulted hcalls hact hserver hfault =>
      rw [fault_step hserver hfault] at ht
      exact hsenders t ht
  | exec hlink =>
      rw [map_thread_set hlink]
      exact hsenders t ht

omit [NeZero N] in
/-- The report that a thread is about to store has been told of the job that the
thread has sent last. -/
theorem Cluster.Hears.backs {s : Cluster N} (hh : s.Hears) (hp : s.Placed) (hc : s.Carries)
    (hsenders : s.Senders) (hinv : ∀ link ∈ s.links, link.conn.Inv) {t : Nat} {jobid : UInt16}
    {state exitValue : UInt8}
    (ht : s.server.threads[t]? = some (.changeStateJob jobid state exitValue)) {p : Ptr}
    (hjob : (s.server.serving t).map Serving.job = some p) :
    ∃ link ∈ s.links, ∃ e ∈ link.conn.executions, link.jobOf s.server e = some p ∧
      .changeStateJob jobid state exitValue ∈ e.told := by
  obtain ⟨x, hx, rfl⟩ := Option.map_eq_some_iff.mp hjob
  have hdispatched := serving_dispatched s.server t
  rw [hx] at hdispatched
  obtain ⟨link, hlink, rfl⟩ := List.mem_map.mp (hsenders t fun hnil => by
    rw [hnil] at hdispatched
    cases hdispatched)
  obtain ⟨pc, hpc, hst⟩ := hp.stands link hlink
  obtain rfl := Option.some.inj (hpc.symm.trans ht)
  have hopen : link.conn.main ≠ .closed := by
    generalize link.conn.main = main at hst
    cases hst with
    | reports => exact fun hclosed => by cases hclosed
    | gone hgone => exact hgone.elim
  obtain ⟨whole, -, htold⟩ := (hh link hlink).received
  have hlatest := htold hopen
  rw [Sys.received, ht] at hlatest
  have hmem : .changeStateJob jobid state exitValue ∈ link.conn.latest := by
    rw [← hlatest]
    simp [Pc.report]
  obtain ⟨x', e, jobid', hx'⟩ :=
    (hc link hlink).told (hinv link hlink) hopen (List.ne_nil_of_mem hmem)
  obtain rfl := Option.some.inj (hx.symm.trans hx'.serving)
  exact ⟨link, hlink, e, hx'.execution, hx'.jobOf, hx'.latest ▸ hmem⟩

def Cluster.Backed (s : Cluster N) : Prop :=
  ∀ c record, s.server.server.history.slot c = some record →
    record.state = JobState.wait.toByte ∨ record.state = JobState.unsubmited.toByte ∨
      s.Backs record

theorem Cluster.Backed.step {s s' : Cluster N} {a : ClusterAction} (hb : s.Backed) (hh : s.Hears)
    (hp : s.Placed) (hc : s.Carries) (hsenders : s.Senders) (hl : s.server.Linked)
    (hinv : ∀ link ∈ s.links, link.conn.Inv) (hok : s.Regular a) (hown : s.Serves Sys.OwnRecord a)
    (h : s.step a = some s') : s'.Backed := by
  -- What has been told before the step, told it is behind it.
  have hbacks : ∀ {p : Ptr} {op : HistOp}, (∃ link ∈ s.links,
      ∃ e ∈ link.conn.executions, link.jobOf s.server e = some p ∧ op ∈ e.told) →
      ∃ link ∈ s'.links, ∃ e ∈ link.conn.executions, link.jobOf s'.server e = some p ∧
        op ∈ e.told := by
    rintro p op ⟨link, hlink, e, he, hjob, hop⟩
    obtain ⟨link', hlink', hthread, e', he', hcarriers, htold⟩ :=
      cluster_grows hh hinv hok h hlink he
    have hlog : ∃ events, s'.server.log = s.server.log ++ events := by
      rcases cluster_step_server h with ⟨-, hrest⟩ | ⟨sa, -, hstep⟩
      · exact ⟨[], by rw [hrest, List.append_nil]⟩
      · exact step_log hstep
    exact ⟨link', hlink', e', he', Sys.jobOf_mono hlog hthread hcarriers hjob, htold.subset hop⟩
  intro c record' hslot
  rcases cluster_step_server h with ⟨-, hrest⟩ | ⟨sa, hsa, hstep⟩
  · rw [hrest] at hslot
    rcases hb c record' hslot with hwait | hmarked | hbacked
    · exact .inl hwait
    · exact .inr (.inl hmarked)
    · exact .inr (.inr (hbacks hbacked))
  · cases writes_of_step hl hstep hslot with
    | waits hwait => exact .inl hwait
    | marked hmarked => exact .inr (.inl hmarked)
    | @kept _ c record hrecord haddr hid hstate hexit =>
        rw [hstate]
        rcases hb c record hrecord with hwait | hmarked | hbacked
        · exact .inl hwait
        · exact .inr (.inl hmarked)
        · refine .inr (.inr ?_)
          rw [Backs, haddr, hid, hstate, hexit]
          exact hbacks hbacked
    | @reported t env jobid state exitValue c record ht hrecord hid hafter =>
        have hown := hown _ hsa
        simp only [Sys.OwnRecord, ht] at hown
        have hret := retained_of_slot hl hrecord
        rw [hid] at hret
        rw [History.foundUnder_eq hl.inv] at hown
        have hbacked := hh.backs hp hc hsenders hinv ht (hown record hret)
        refine .inr (.inr ?_)
        have hvalues : record'.addr = record.addr ∧ record'.id = jobid ∧ record'.state = state ∧
            record'.exitStatus = exitValue := by
          rw [hafter]
          simp [JobHistory.after, hid]
        obtain ⟨haddr, hid', hstate, hexit⟩ := hvalues
        rw [Backs, haddr, hid', hstate, hexit]
        exact hbacks hbacked

/-- Every report is stored into the record of the job it is about. -/
def Cluster.OwnRecord (s : Cluster N) (a : ClusterAction) : Prop :=
  s.Regular a ∧ s.Serves Sys.OwnRecord a

instance (s : Cluster N) (a : ClusterAction) : Decidable (s.OwnRecord a) :=
  inferInstanceAs (Decidable (_ ∧ _))

theorem backed_of_reach {ok : Cluster N → ClusterAction → Prop} {s : Cluster N}
    (hle : ∀ s a, ok s a → s.Serves Sys.IndexOk a ∧ s.OwnRecord a)
    (h : Reach Cluster.step ok (· = .init N) s) : s.Senders ∧ s.Backed := by
  have hindex : ∀ s a, ok s a → s.Serves Sys.IndexOk a := fun s a h => (hle s a h).1
  refine h.invariant (I := fun s => s.Senders ∧ s.Backed) (fun s hs => ?_)
    fun s a s' hr hb hok hs => ?_
  · subst hs
    refine ⟨fun t ht => absurd rfl ht, fun c record hslot => ?_⟩
    cases (History.slot_init c).symm.trans hslot
  · obtain ⟨-, hregular, hown⟩ := hle s a hok
    exact ⟨hb.1.step (placed_of_reach hindex hr) hs,
      hb.2.step (hears_of_reach (fun s a h => (hle s a h).2.1) hindex hr)
        (placed_of_reach hindex hr) (carries_of_reach hindex hr) hb.1
        (linked_of_reach (server_of_reach hindex hr))
        (inv_of_cluster (fun s a h => (hle s a h).2.1) hr) hregular hown hs⟩

/-- A record says that its job runs, or has ended, only if an exec server has
executed that job and told so. -/
theorem no_false_outcome {s : Cluster N}
    (h : Reach Cluster.step Cluster.OwnRecord (· = .init N) s) (hb : s.server.Bounded) {c : Nat}
    {record : JobHistory} (hslot : s.server.server.history.slot c = some record)
    (hwait : record.state ≠ JobState.wait.toByte)
    (hmarked : record.state ≠ JobState.unsubmited.toByte) :
    ∃ link ∈ s.links, ∃ e ∈ link.conn.executions,
      link.jobOf s.server e = some record.addr ∧
        .changeStateJob record.id record.state record.exitStatus ∈ e.told := by
  obtain ⟨-, hbacked⟩ := backed_of_reach (fun _ _ h => h) (cluster_indexOk h hb)
  rcases hbacked c record hslot with h | h | h
  · exact absurd h hwait
  · exact absurd h hmarked
  · exact h

theorem exec_servers_conform_ls :
    ∃ s : Cluster numQueueMax, s.executed = [0] ∧
      Reach Sys.step Sys.Conforms (· = Sys.init numQueueMax) s.server := by
  obtain ⟨s, hr, hexecuted, hb⟩ : ∃ s : Cluster numQueueMax,
      Reach Cluster.step Cluster.Regular (· = .init numQueueMax) s ∧
      s.executed = [0] ∧ s.server.Bounded :=
    @reach_of_checkedRun _ _ _ _ _ _ executedRun _ _ _ rfl (by decide +kernel)
  exact ⟨s, hexecuted, exec_servers_conform hr hb⟩

/-- The second job. -/
def nextJob : Job := { queuedJob with id := 1 }

def nextHandler : ClusterAction := .handler 0 { goWell with job := nextJob } (Action.env true)

/-- `lsCall` once more behind `executedRun`, up to where it is sent. -/
def nextRun : List ClusterAction :=
  executedRun ++
    [.server (.receive 0 ((Msg.fill 0).over lsCall.wire) Action.blankJob),
      .server (Action.go 0), .server (Action.go 0), .server (Action.go 0), .server (Action.go 0),
      lsExec, lsExec, nextHandler, .server (Action.go 1), .server (Action.go 1), nextHandler,
      nextHandler, nextHandler, lsExec, lsExec, nextHandler]

theorem sent_when_reported_ls :
    ∃ s : Cluster numQueueMax, ∃ link ∈ s.links, link.conn.executions.length = 1 ∧
      link.conn.current = none ∧
      (s.server.serving link.thread).elim [] Serving.reports = link.conn.latest ∧
      ∀ e ∈ link.conn.executions, ∃ jobid, execJobID e.pkg = some jobid ∧ e.Reported jobid := by
  obtain ⟨s, hr, hb, link, hlink, hlength, hsending⟩ : ∃ s : Cluster numQueueMax,
      Reach Cluster.step Cluster.Regular (· = .init numQueueMax) s ∧ s.server.Bounded ∧
        ∃ link ∈ s.links, link.conn.executions.length = 1 ∧
          link.conn.main = .sendJob nextJob (nextJob.msg (Msg.fill 0))
            (.start (nextJob.msg (Msg.fill 0))) :=
    @reach_of_checkedRun _ _ _ _ _ _ nextRun _ _ _ rfl (by decide +kernel)
  exact ⟨s, link, hlink, hlength, sent_when_reported hr hb hlink hsending⟩

/-- The end of the job has been reported, and is about to be stored. -/
theorem record_advances_ls :
    ∃ s s' : Cluster numQueueMax, s.server.stateAt 0 = some (0, JobState.run.toByte) ∧
      s'.server.stateAt 0 = some (0, JobState.finished.toByte) ∧ s.server.Advances s'.server := by
  obtain ⟨s, hr, hstate, hok, hstep⟩ : ∃ s : Cluster numQueueMax,
      Reach Cluster.step Cluster.Meant (· = .init numQueueMax) s ∧
      s.server.stateAt 0 = some (0, JobState.run.toByte) ∧ s.Meant (.server (Action.go 1)) ∧
      (s.step (.server (Action.go 1))).any (fun s' =>
        decide (s'.server.stateAt 0 = some (0, JobState.finished.toByte))) = true :=
    @reach_of_checkedRun _ _ _ _ _ _ executedRun.dropLast _ _ _ rfl (by decide +kernel)
  obtain ⟨s', hs', hstate'⟩ := (Option.any_eq_true _ _).mp hstep
  exact ⟨s, s', hstate, of_decide_eq_true hstate', record_advances hr hok hs'⟩

theorem record_up_to_date_ls :
    ∃ (s : Cluster numQueueMax) (link : Link) (x : Serving) (record : JobHistory),
      link.conn.toMain = [] ∧ x.reports.length = 2 ∧ record.state = JobState.finished.toByte ∧
      record.state = x.state ∧ x.reports <+: link.conn.latest ∧
      (link.conn.toMain = [] → (∀ pc ∈ s.server.threads[link.thread]?, pc.report = none) →
        x.reports = link.conn.latest) := by
  obtain ⟨s, hr, link, hlink, hopen, hempty, x, hx, hlen, record, hslot, haddr, hstate⟩ :
      ∃ s : Cluster numQueueMax, Reach Cluster.step Cluster.Meant (· = .init numQueueMax) s ∧
        ∃ link ∈ s.links, link.conn.main ≠ .closed ∧ link.conn.toMain = [] ∧
          ∃ x ∈ s.server.serving link.thread, x.reports.length = 2 ∧
            ∃ record ∈ s.server.server.history.slot 0, record.addr = x.job ∧
              record.state = JobState.finished.toByte :=
    @reach_of_checkedRun _ _ _ _ _ _ executedRun _ _ _ rfl (by decide +kernel)
  exact ⟨s, link, x, record, hempty, hlen, hstate, record_up_to_date hr hlink hopen hx hslot haddr⟩

theorem no_false_outcome_ls :
    ∃ (s : Cluster numQueueMax) (record : JobHistory), record.state = JobState.finished.toByte ∧
      ∃ link ∈ s.links, ∃ e ∈ link.conn.executions,
        link.jobOf s.server e = some record.addr ∧
          .changeStateJob record.id record.state record.exitStatus ∈ e.told := by
  obtain ⟨s, hr, hb, record, hslot, hstate⟩ : ∃ s : Cluster numQueueMax,
      Reach Cluster.step Cluster.OwnRecord (· = .init numQueueMax) s ∧ s.server.Bounded ∧
        ∃ record ∈ s.server.server.history.slot 0,
          record.state = JobState.finished.toByte :=
    @reach_of_checkedRun _ _ _ _ _ _ executedRun _ _ _ rfl (by decide +kernel)
  have hne : record.state ≠ JobState.wait.toByte ∧ record.state ≠ JobState.unsubmited.toByte := by
    rw [hstate]
    decide
  exact ⟨s, record, hstate, no_false_outcome hr hb hslot hne.1 hne.2⟩

end Records

end DistQueue
