import DistQueue.Cluster.Handlers

/-!
# Executions in the cluster

What an exec server forks for is a message that one call of `sendJob` put into
its connection, and the main server's log has an entry for each such call that
went through. So executions can be counted in the log, and there a job occurs
once: it is not executed twice, on whatever exec server, and not at all while it
is in the server or when it has been removed.
-/

namespace DistQueue

open DistQueue.Lib Handshake

variable {N : Nat}

/-! ## What went out on a connection -/

def Event.dispatch (t : Nat) : Event N → Option (Ptr × List UInt8)
  | .sent t' job wire => if t' = t then some (job, wire) else none
  | _ => none

theorem Event.dispatch_self (t : Nat) (p : Ptr) (wire : List UInt8) :
    (Event.sent t p wire : Event N).dispatch t = some (p, wire) := if_pos rfl

theorem Event.dispatch_other {t t' : Nat} (ht : t' ≠ t) (p : Ptr) (wire : List UInt8) :
    (Event.sent t' p wire : Event N).dispatch t = none := if_neg ht

/-- The jobs sent by thread `t`, in order. -/
def Sys.dispatched (s : Sys N) (t : Nat) : List (Ptr × List UInt8) :=
  s.log.filterMap (Event.dispatch t)

theorem Sys.dispatched_append {s s' : Sys N} {events : List (Event N)}
    (hlog : s'.log = s.log ++ events) (t : Nat) :
    s'.dispatched t = s.dispatched t ++ events.filterMap (Event.dispatch t) := by
  rw [dispatched, hlog, List.filterMap_append, dispatched]

theorem mem_dispatched {s : Sys N} {t : Nat} {x : Ptr × List UInt8} (h : x ∈ s.dispatched t) :
    .sent t x.1 x.2 ∈ s.log := by
  obtain ⟨e, he, hx⟩ := List.mem_filterMap.mp h
  cases e with
  | sent t' job wire =>
      rw [Event.dispatch] at hx
      split at hx
      · next ht =>
          injection hx with hx
          subst ht hx
          exact he
      · cases hx
  | _ => cases hx

theorem Event.dispatch_le (t : Nat) (p : Ptr) (e : Event N) :
    (if (e.dispatch t).map Prod.fst = some p then 1 else 0) ≤ e.sentJob p := by
  cases e with
  | sent t' job wire =>
      simp only [dispatch, sentJob, one]
      split <;> simp_all
  | _ => exact Nat.zero_le _

theorem Sys.count_dispatched (s : Sys N) (t : Nat) (p : Ptr) :
    ((s.dispatched t).map Prod.fst).count p =
      tally (fun e => if (e.dispatch t).map Prod.fst = some p then 1 else 0) s.log := by
  rw [dispatched, List.map_filterMap, count_filterMap]

/-- Two threads share what has been sent of a job. -/
theorem Sys.count_dispatched_add (s : Sys N) {t t' : Nat} (ht : t ≠ t') (p : Ptr) :
    ((s.dispatched t).map Prod.fst).count p + ((s.dispatched t').map Prod.fst).count p ≤
      s.sent p := by
  rw [count_dispatched, count_dispatched, ← tally_add]
  refine tally_mono fun e => ?_
  cases e with
  | sent i job wire =>
      simp only [Event.dispatch, Event.sentJob, one]
      by_cases hi : i = t
      · subst hi
        simp [ht]
      · by_cases hi' : i = t'
        · subst hi'
          simp [hi]
        · simp [hi, hi']
  | _ => exact Nat.zero_le _

theorem Sys.count_dispatched_le (s : Sys N) (t : Nat) (p : Ptr) :
    ((s.dispatched t).map Prod.fst).count p ≤ s.sent p := by
  rw [count_dispatched]
  exact tally_mono (Event.dispatch_le t p)

section Steps

variable [NeZero N]

/-- Only behind `sendMsg` is a job sent. -/
theorem Ran.dispatch_nil {server : MainServer N} {heap : Heap} {t : Nat} {env : DistQueue.Env}
    {pc : Pc N} {r : Result N} (h : Ran server heap t env pc r) (hwire : pc.onWire = false)
    (t' : Nat) : r.events.filterMap (Event.dispatch t') = [] := by
  refine List.filterMap_eq_nil_iff.mpr fun e he => ?_
  cases h.emits he with
  | sent => cases hwire
  | _ => rfl

theorem Sys.Own.dispatched {s s' : Sys N} {a : Action} (hown : s.Own a) (h : s.step a = some s')
    (t : Nat) : s'.dispatched t = s.dispatched t := by
  cases (step_cases h).2 with
  | accepted => exact (dispatched_append rfl t).trans (List.append_nil _)
  | @ran i env pc r ht hran =>
      rw [dispatched_append rfl t]
      exact (congrArg _ (hran.dispatch_nil (hown pc ht) t)).trans (List.append_nil _)
  | _ => rfl

theorem Step.length_threads {s s' : Sys N} {a : Action} (h : Step s a s') :
    s.threads.length ≤ s'.threads.length := by
  cases h with
  | accept =>
      rw [List.length_append]
      exact Nat.le_add_right ..
  | accepted | moved | wakeup => exact Nat.le_of_eq List.length_set.symm
  | faulted => exact Nat.le_refl _
  | @ran t env pc r ht hran =>
      cases hsig : r.signals with
      | none =>
          simp only [Sys.commit, hsig, Option.elim_none, List.length_set]
          exact Nat.le_refl _
      | some condv =>
          simp only [Sys.commit, hsig, Option.elim_some]
          rcases signal_cases (s.threads.set t r.pc) env.pick condv with h | ⟨i, pc', -, h⟩
          · rw [h, List.length_set]
          · rw [h, List.length_set, List.length_set]

/-- Jobs are sent by threads there are. -/
def Sys.SendersKnown (s : Sys N) : Prop :=
  ∀ e ∈ s.log, ∀ t p wire, e = .sent t p wire → t < s.threads.length

theorem sendersKnown_of_reach {ok : Sys N → Action → Prop} {s : Sys N}
    (h : Reach Sys.step ok (· = Sys.init N) s) : s.SendersKnown := by
  refine h.invariant (fun s hs e he => ?_) fun s a s' _ hold _ hs => ?_
  · subst hs
    cases he
  · obtain ⟨-, hstep⟩ := step_cases hs
    refine log_step hstep hold (fun e he t p wire heq => ?_) (fun t i p wire heq => by cases heq)
      fun t env pc r ha ht hran _ e he t' p wire heq => ?_
    · exact Nat.lt_of_lt_of_le (he t p wire heq) hstep.length_threads
    · subst heq
      cases hran.emits he with
      | sent =>
          exact Nat.lt_of_lt_of_le (List.getElem?_eq_some_iff.mp ht).1 hstep.length_threads

omit [NeZero N] in
theorem Sys.SendersKnown.dispatched {s : Sys N} (h : s.SendersKnown) {t : Nat}
    (ht : s.threads.length ≤ t) : s.dispatched t = [] := by
  refine List.eq_nil_iff_forall_not_mem.mpr fun x hx => ?_
  exact absurd (h _ (mem_dispatched hx) t x.1 x.2 rfl) (Nat.not_lt.mpr ht)

end Steps

/-! ## The calls of `sendJob` on a connection -/

/-- The calls of `sendJob` that went through are the jobs its thread has sent. -/
structure Link.Carries (s : Sys N) (link : Link) : Prop where
  carried : ∀ (n : Nat) (call : SendJob), link.conn.sendJobs[n]? = some call → call.ret = 1 →
    ∃ p, (s.dispatched link.thread)[n]? = some (p, call.job.call.wire)
  count : link.conn.main ≠ .closed →
    (s.dispatched link.thread).length = link.conn.sendJobs.length

section Carries

variable [NeZero N] {s s' : Sys N} {link : Link} {conn : Conn}

omit [NeZero N] in
theorem Link.Carries.same (h : link.Carries s) (hlog : s'.dispatched link.thread =
    s.dispatched link.thread) (hsends : conn.sendJobs = link.conn.sendJobs)
    (hmain : conn.main ≠ .closed → link.conn.main ≠ .closed) :
    Link.Carries s' ⟨link.thread, conn⟩ := by
  refine ⟨fun n call hn hret => ?_, fun hne => ?_⟩
  · rw [hlog]
    exact h.carried n call (hsends ▸ hn) hret
  · rw [hlog, hsends]
    exact h.count (hmain hne)

omit [NeZero N] in
/-- Behind the step a call has ended. -/
theorem Followed.carries {a : Action} (hf : Followed s link conn a s') (h : link.Carries s)
    (hopen : link.conn.main ≠ .closed) : Link.Carries s' ⟨link.thread, conn⟩ := by
  cases hf with
  | @message st pkg rest blank ht hmain hconn =>
      have hsends : conn.sendJobs = link.conn.sendJobs := by
        obtain ⟨main, mishaps, hattend, -⟩ := Conn.attend_eq { link.conn with toMain := rest } pkg
        rw [hconn, hattend]
      exact h.same rfl hsends fun _ => hopen
  | hangup ht hmain hsends => exact h.same rfl hsends fun _ => hopen
  | ready ht hjob hmain hsends => exact h.same rfl hsends fun _ => hopen
  | @sent env p job st ht hload hmain hsends =>
      have hcount := h.count hopen
      have hlog : ∀ s' : Sys N, s'.log = s.log ++ [.sent link.thread p job.call.wire] →
          s'.dispatched link.thread = s.dispatched link.thread ++ [(p, job.call.wire)] :=
        fun s' hs' => by
          rw [Sys.dispatched_append hs', List.filterMap_cons_some (Event.dispatch_self ..),
            List.filterMap_nil]
      refine ⟨fun n call hn hret => ?_, fun _ => ?_⟩
      · rw [hlog _ rfl]
        rw [hsends] at hn
        rcases Nat.lt_or_ge n link.conn.sendJobs.length with hlt | hge
        · rw [List.getElem?_append_left hlt] at hn
          rw [List.getElem?_append_left (hcount.symm ▸ hlt)]
          exact h.carried n call hn hret
        · rw [List.getElem?_append_right hge] at hn
          rw [List.getElem?_append_right (hcount.symm ▸ hge), hcount]
          obtain ⟨hlt, hcall⟩ := List.getElem?_eq_some_iff.mp hn
          obtain hzero : n - link.conn.sendJobs.length = 0 := Nat.lt_one_iff.mp hlt
          rw [hzero] at hn ⊢
          injection hn with hn
          subst hn
          exact ⟨p, rfl⟩
      · rw [hlog _ rfl, hsends, List.length_append, List.length_append, hcount]
        rfl
  | failed ht hpc hmain hsends =>
      refine ⟨fun n call hn hret => h.carried n call (hsends n call hn hret) hret, fun hne => ?_⟩
      exact absurd hmain hne

omit [NeZero N] in
/-- Another thread has not sent anything. -/
theorem Followed.dispatched {a : Action} (hf : Followed s link conn a s') {t : Nat}
    (ht : t ≠ link.thread) : s'.dispatched t = s.dispatched t := by
  cases hf with
  | sent =>
      refine (Sys.dispatched_append rfl t).trans ?_
      rw [List.filterMap_cons_none (Event.dispatch_other ht.symm ..), List.filterMap_nil,
        List.append_nil]
  | _ => rfl

def Cluster.Carries (s : Cluster N) : Prop := ∀ link ∈ s.links, link.Carries s.server

theorem Cluster.Carries.step {s s' : Cluster N} {a : ClusterAction} (hc : s.Carries)
    (hp : s.Placed) (hknown : s.server.SendersKnown) (h : s.step a = some s') : s'.Carries := by
  have hsame : ∀ {server : Sys N} {link : Link}, link ∈ s.links →
      server.dispatched link.thread = s.server.dispatched link.thread → link.Carries server :=
    fun hlink hlog => (hc _ hlink).same hlog rfl id
  cases (cluster_step_cases h).2 with
  | @connect stack server hserver =>
      have hlog : ∀ t, server.dispatched t = s.server.dispatched t := fun t => by
        rw [accept_step hserver]
        rfl
      intro link hlink
      rcases List.mem_append.mp hlink with hlink | hlink
      · exact hsame hlink (hlog _)
      · obtain rfl := List.mem_singleton.mp hlink
        have hnil := (hlog _).trans (hknown.dispatched (Nat.le_refl s.server.threads.length))
        exact ⟨fun n call hn => (by cases hn), fun _ => congrArg List.length hnil⟩
  | server hown hserver => exact fun link hlink => hsame hlink (hown.dispatched hserver _)
  | @goesOn i call env link pc conn hcalls hact =>
      intro x hx
      rcases mem_set_links hx with rfl | ⟨j, -, hj⟩
      · obtain ⟨-, hsends⟩ := hp.goesOn hcalls hact
        exact (hc link (List.mem_of_getElem? hcalls.found)).same rfl hsends fun _ =>
          Conn.open_of_step hcalls.step
      · exact hsame (List.mem_of_getElem? hj) rfl
  | @ends i call env link pc conn sa server hcalls hact hserver hfault =>
      have hfollowed := hp.followed hcalls hact hserver hfault
      intro x hx
      rcases mem_set_links hx with rfl | ⟨j, hij, hj⟩
      · exact hfollowed.carries (hc link (List.mem_of_getElem? hcalls.found))
          (Conn.open_of_step hcalls.step)
      · exact hsame (List.mem_of_getElem? hj) (hfollowed.dispatched (hp.other hcalls.found hj hij))
  | faulted hcalls hact hserver hfault =>
      rw [fault_step hserver hfault]
      exact fun link hlink => hsame hlink rfl
  | @exec i call link conn hlink hexec =>
      obtain ⟨hmain, hsends, -⟩ := Conn.execStep_main hexec
      intro x hx
      rcases mem_set_links hx with rfl | ⟨j, -, hj⟩
      · exact (hc link (List.mem_of_getElem? hlink)).same rfl hsends fun hne => hmain ▸ hne
      · exact hsame (List.mem_of_getElem? hj) rfl

end Carries

/-! ## Runs -/

section Runs

variable [NeZero N]

theorem sound_of_cluster {ok : Cluster N → ClusterAction → Prop} {s : Cluster N}
    (hle : ∀ s a, ok s a → s.Serves Sys.IndexOk a)
    (h : Reach Cluster.step ok (· = .init N) s) : s.server.Sound :=
  sound_of_reach (fun _ _ h => h) (server_of_reach hle h)

theorem placed_of_reach {ok : Cluster N → ClusterAction → Prop} {s : Cluster N}
    (hle : ∀ s a, ok s a → s.Serves Sys.IndexOk a)
    (h : Reach Cluster.step ok (· = .init N) s) : s.Placed :=
  h.invariant (fun _ hs => hs ▸ Cluster.Placed.init) fun _ _ _ hr hp _ hs =>
    hp.step (sound_of_cluster hle hr) hs

theorem carries_of_reach {ok : Cluster N → ClusterAction → Prop} {s : Cluster N}
    (hle : ∀ s a, ok s a → s.Serves Sys.IndexOk a)
    (h : Reach Cluster.step ok (· = .init N) s) : s.Carries :=
  h.invariant (fun _ hs => hs ▸ fun _ hlink => by cases hlink) fun _ _ _ hr hc _ hs =>
    hc.step (placed_of_reach hle hr) (sendersKnown_of_reach (server_of_reach hle hr)) hs

theorem cluster_bounded_back {s s' : Cluster N} {a : ClusterAction} (h : s.step a = some s')
    (hb : s'.server.Bounded) : s.server.Bounded := by
  rcases cluster_step_server h with ⟨-, hrest⟩ | ⟨sa, -, hstep⟩
  · exact hrest ▸ hb
  · exact hb.back hstep

/-- For `2 ^ 32` puts no index comes round. -/
theorem cluster_indexOk {ok : Cluster N → ClusterAction → Prop} {s : Cluster N}
    (h : Reach Cluster.step ok (· = .init N) s) (hb : s.server.Bounded) :
    Reach Cluster.step (fun s a => s.Serves Sys.IndexOk a ∧ ok s a) (· = .init N) s :=
  h.invariant_while hb (fun _ _ _ h hb => cluster_bounded_back h hb) (fun _ h => .start h)
    fun _ _ _ _ hr hok h hb => by
      have hcounted := counted_of_reach (fun _ _ h => h) (server_of_reach (fun _ _ h => h.1) hr)
      exact .step hr ⟨fun sa _ => hcounted.indexOk (cluster_bounded_back h hb) sa, hok⟩ h

/-- What is sent of a job is what is there of it. -/
def Sys.SentWhole (s : Sys N) : Prop :=
  ∀ e ∈ s.log, ∀ t p wire, e = .sent t p wire →
    0 < s.sent p ∧ ∃ job, s.heap.contents p = some job ∧ wire = job.call.wire

theorem sentWhole_step {s s' : Sys N} {a : Action} (hs : s.Sound) (hold : s.SentWhole)
    (h : s.step a = some s') : s'.SentWhole := by
  refine log_step (step_cases h).2 hold (fun e he t p wire heq => ?_)
    (fun t i p wire heq => by cases heq) fun t env pc r ha ht hran hs' e he t' p wire heq => ?_
  · obtain ⟨hsent, job, hjob, hwire⟩ := he t p wire heq
    have hplaced : 0 < s.inQueues p + s.sent p + s.gone p := by omega
    have hkept := (stamped_step (stamped_of_placed hs hplaced) h).2
    exact ⟨hsent.trans_le (tally_log_mono h _), job, hkept.trans hjob, hwire⟩
  · subst heq hs'
    cases hran.emits he with
    | sent hload =>
        cases hran with
        | sendFailed => cases he
        | sent hload' =>
            obtain rfl := Option.some.inj (hload.symm.trans hload')
            refine ⟨?_, _, Heap.contents_free.trans (Heap.contents_of_load hload),
              Job.wire_call _ env.stack⟩
            simp [Sys.sent, Sys.commit, tally_append, Event.sentJob, one]

theorem sentWhole_of_reach {ok : Sys N → Action → Prop} {s : Sys N}
    (hle : ∀ s a, ok s a → s.IndexOk a) (h : Reach Sys.step ok (· = Sys.init N) s) :
    s.SentWhole :=
  h.invariant (fun _ hs => hs ▸ fun _ he => by cases he) fun _ _ _ hr hold _ hs =>
    sentWhole_step (sound_of_reach hle hr) hold hs

/-- The job an execution is of: the one its bytes have been sent for. -/
def Link.jobOf (s : Sys N) (link : Link) (e : Execution) : Option Ptr :=
  e.carriers.head?.bind fun n => (s.dispatched link.thread)[n]?.map Prod.fst

/-- The jobs that have been executed, whether or not `fork` went well. -/
def Cluster.executed (s : Cluster N) : List Ptr :=
  s.links.flatMap fun link => link.conn.executions.filterMap (link.jobOf s.server)

/-- An execution and the call of `sendJob` behind it. -/
structure Link.Ran (s : Sys N) (link : Link) (e : Execution) (n : Nat) (p : Ptr) (job : Job) :
    Prop where
  labels : ∀ m ∈ e.carriers, m = n
  bytes : e.carriers ≠ []
  dispatched : (s.dispatched link.thread)[n]? = some (p, job.call.wire)
  arrived : job.call.Arrived e.pkg

omit [NeZero N] in
theorem Link.Ran.jobOf {s : Sys N} {link : Link} {e : Execution} {n : Nat} {p : Ptr} {job : Job}
    (h : link.Ran s e n p job) : link.jobOf s e = some p := by
  obtain ⟨m, rest, hcarriers⟩ := List.exists_cons_of_ne_nil h.bytes
  obtain rfl : m = n := h.labels m (by rw [hcarriers]; exact List.mem_cons_self)
  rw [Link.jobOf, hcarriers, List.head?_cons, Option.bind_some, h.dispatched]
  rfl

omit [NeZero N] in
theorem Link.Carries.ran {s : Sys N} {link : Link} (hc : link.Carries s) (hinv : link.conn.Inv)
    {e : Execution} (he : e ∈ link.conn.executions) : ∃ n p job, link.Ran s e n p job := by
  obtain ⟨up, down, pend, debt, hinv⟩ := hinv
  obtain ⟨n, call, hcarried, -⟩ := hinv.book.carried _ (List.mem_map_of_mem he)
  obtain ⟨p, hp⟩ := hc.carried n call hcarried.numbered hcarried.ret
  exact ⟨n, p, call.job, hcarried.labels, hcarried.bytes, hp, hcarried.arrived⟩

omit [NeZero N] in
theorem Link.Ran.sent {s : Sys N} {link : Link} {e : Execution} {n : Nat} {p : Ptr} {job : Job}
    (h : link.Ran s e n p job) : .sent link.thread p job.call.wire ∈ s.log :=
  mem_dispatched (List.mem_of_getElem? h.dispatched)

omit [NeZero N] in
/-- One exec server does not execute a job twice. -/
theorem Link.Carries.nodup {s : Sys N} {link : Link} (hc : link.Carries s) (hinv : link.conn.Inv)
    (hs : ∀ p, s.sent p ≤ 1) : (link.conn.executions.filterMap (link.jobOf s)).Nodup := by
  have hdistinct : ((s.dispatched link.thread).map Prod.fst).Nodup :=
    List.nodup_iff_count_le_one.mpr fun p => (s.count_dispatched_le link.thread p).trans (hs p)
  obtain ⟨up, down, pend, debt, hholds⟩ := id hinv
  refine List.pairwise_filterMap.mpr ((List.pairwise_map.mp hholds.book.once).imp_of_mem ?_)
  intro e e' he he' hlt p hp p' hp' hpp
  obtain ⟨n, q, job, hran⟩ := hc.ran hinv he
  obtain ⟨n', q', job', hran'⟩ := hc.ran hinv he'
  have hp : q = p := Option.some.inj (hran.jobOf.symm.trans hp)
  have hp' : q' = p' := Option.some.inj (hran'.jobOf.symm.trans hp')
  subst hp hp' hpp
  obtain ⟨m, hm⟩ := List.exists_mem_of_ne_nil _ hran.bytes
  obtain ⟨m', hm'⟩ := List.exists_mem_of_ne_nil _ hran'.bytes
  have hnn := hlt m hm m' hm'
  rw [hran.labels m hm, hran'.labels m' hm'] at hnn
  have hfst : ∀ {n job}, (s.dispatched link.thread)[n]? = some (q, job) →
      ((s.dispatched link.thread).map Prod.fst)[n]? = some q := fun hn => by
    rw [List.getElem?_map, hn]
    rfl
  have hget := hfst hran.dispatched
  have heq := hget.trans (hfst hran'.dispatched).symm
  exact Nat.ne_of_lt hnn
    ((List.getElem?_inj (List.getElem?_eq_some_iff.mp hget).1 hdistinct).mp heq)

omit [NeZero N] in
theorem mem_jobOf {s : Sys N} {link : Link} {p : Ptr}
    (h : p ∈ link.conn.executions.filterMap (link.jobOf s)) :
    0 < ((s.dispatched link.thread).map Prod.fst).count p := by
  obtain ⟨e, -, he⟩ := List.mem_filterMap.mp h
  obtain ⟨n, -, hn⟩ := Option.bind_eq_some_iff.mp he
  obtain ⟨x, hx, rfl⟩ := Option.map_eq_some_iff.mp hn
  exact List.count_pos_iff.mpr (List.mem_map_of_mem (List.mem_of_getElem? hx))

omit [NeZero N] in
theorem executed_nodup {s : Cluster N} (hp : s.Placed) (hc : s.Carries)
    (hinv : ∀ link ∈ s.links, link.conn.Inv) (hs : ∀ p, s.server.sent p ≤ 1) :
    s.executed.Nodup := by
  refine List.nodup_flatMap.mpr
    ⟨fun link hlink => (hc link hlink).nodup (hinv link hlink) hs, ?_⟩
  refine (List.pairwise_map.mp hp.distinct).imp fun hne p hmem hmem' => ?_
  have hle := s.server.count_dispatched_add hne p
  have hpos := mem_jobOf hmem
  have hpos' := mem_jobOf hmem'
  have := hs p
  omega

/-- In a run that stays inside its memory, whatever an exec server forks for is
the message of a submission that has left the server for good, and no other
execution is of that submission. -/
theorem executed_once {s : Cluster N}
    (h : Reach Cluster.step Cluster.Safe (· = .init N) s) (hb : s.server.Bounded) :
    s.executed.Nodup ∧
    ∀ link ∈ s.links, ∀ e ∈ link.conn.executions, ∃ p job, link.jobOf s.server e = some p ∧
      s.server.heap.contents p = some job ∧ s.server.Numbered p job.id ∧
      job.call.Arrived e.pkg ∧ s.server.sent p = 1 ∧ s.server.held p = 0 ∧
      s.server.inQueues p = 0 ∧ s.server.gone p = 0 := by
  have hregular := Cluster.regular_of_safe h
  have hreach := cluster_indexOk hregular hb
  have hle : ∀ (s : Cluster N) (a : ClusterAction),
      s.Serves Sys.IndexOk a ∧ s.Regular a → s.Serves Sys.IndexOk a := fun _ _ h => h.1
  have hserver := server_of_reach hle hreach
  have hsound := sound_of_cluster hle hreach
  have hcarries := carries_of_reach hle hreach
  have hinv : ∀ link ∈ s.links, link.conn.Inv := fun link hlink =>
    inv_of_reach (connected_of_reach (fun _ _ h => h) hregular link hlink)
  have hone : ∀ p, s.server.sent p ≤ 1 := fun p => by
    rcases Nat.eq_zero_or_pos (s.server.sent p) with hz | hpos
    · omega
    · have := (hsound.lt_of_placed (by omega : 0 < s.server.held p + s.server.inQueues p +
        s.server.sent p + s.server.gone p)).2
      omega
  refine ⟨executed_nodup (placed_of_reach hle hreach) hcarries hinv hone, fun link hlink e he => ?_⟩
  obtain ⟨n, p, job, hran⟩ := (hcarries link hlink).ran (hinv link hlink) he
  obtain ⟨hsent, contents, hjob, hwire⟩ :=
    sentWhole_of_reach (fun _ _ h => h) hserver _ hran.sent _ _ _ rfl
  have hplaced := (hsound.lt_of_placed (by omega : 0 < s.server.held p + s.server.inQueues p +
    s.server.sent p + s.server.gone p)).2
  obtain ⟨contents', hcontents, hnumbered⟩ := (ids_of_reach hserver).stamped p
    (stamped_of_placed hsound (by omega))
  obtain rfl := Option.some.inj (hcontents.symm.trans hjob)
  have harrived : contents'.call.Arrived e.pkg := by
    obtain ⟨buf, hbuf⟩ := hran.arrived
    exact ⟨buf, by rw [hbuf, hwire]⟩
  exact ⟨p, contents', hran.jobOf, hjob, hnumbered, harrived, by omega, by omega, by omega,
    by omega⟩

/-- What `lsCall` submits, as the first job. -/
def queuedJob : Job :=
  { submitNoInter ((Msg.fill 0).over lsCall.wire) Action.blankJob with id := 0 }

/-- A call of the handler of link 0. -/
def lsHandler : ClusterAction :=
  .handler 0 { goWell with job := queuedJob } (Action.env true)

def lsExec : ClusterAction := .exec 0 goWell

/-- `lsCall` is submitted and queued; an exec server asks for it, is checked,
takes it and executes it, and its two reports come in. -/
def executedRun : List ClusterAction :=
  [.server .acceptClient,
    .server (.receive 0 ((Msg.fill 0).over lsCall.wire) Action.blankJob),
    .server (Action.go 0), .server (Action.go 0), .server (Action.go 0), .server (Action.go 0),
    .connect (Msg.fill 0), lsExec, lsExec, lsHandler, .server (Action.go 1), .server (Action.go 1),
    lsHandler, lsHandler, lsHandler, lsExec, lsExec, lsHandler, lsHandler, lsExec, lsExec, lsExec,
    lsExec, lsHandler, lsHandler, .server (Action.go 1), lsExec, lsExec, lsHandler, lsHandler,
    .server (Action.go 1)]

theorem executed_once_ls :
    ∃ s : Cluster numQueueMax, Reach Cluster.step Cluster.Safe (· = .init numQueueMax) s ∧
      s.executed = [0] ∧ s.executed.Nodup ∧
      ∀ link ∈ s.links, ∀ e ∈ link.conn.executions, ∃ p job, link.jobOf s.server e = some p ∧
        s.server.heap.contents p = some job ∧ s.server.Numbered p job.id ∧
        job.call.Arrived e.pkg ∧ s.server.sent p = 1 ∧ s.server.held p = 0 ∧
        s.server.inQueues p = 0 ∧ s.server.gone p = 0 := by
  obtain ⟨s, hr, hexecuted, hb⟩ : ∃ s : Cluster numQueueMax,
      Reach Cluster.step Cluster.Safe (· = .init numQueueMax) s ∧
      s.executed = [0] ∧ s.server.Bounded :=
    @reach_of_checkedRun _ _ _ _ _ _ executedRun _ _ _ rfl (by decide +kernel)
  exact ⟨s, hr, hexecuted, executed_once hr hb⟩

end Runs

end DistQueue
