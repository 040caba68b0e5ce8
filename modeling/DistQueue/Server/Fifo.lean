import DistQueue.Lib.Fifo
import DistQueue.Server.Memory

/-!
# The ring queue is a bounded queue

As long as nothing is removed from the middle, the puts and dequeues of each
queue, in the order of their sections, are a trace of the bounded queue of the
library, and the live slots are its contents. The waits add nothing: a thread
that is let out, by a signal or by itself, looks at the guard again.

The jobs of one client connection are put one after the other, because the
handler has put a job before it reads the next message. So they are dequeued in
that order.
-/

namespace DistQueue

open DistQueue.Lib

/-! ## Slots -/

namespace Queue

variable {q q' : Queue}

/-- The slots of the live jobs, in queue order. -/
def liveSlots (q : Queue) : List Nat :=
  (List.range q.count).map fun i => slot (q.getIdx + UInt32.ofNat i)

theorem slot_add (h : q.Straight) {i : Nat} (hi : i < q.count) :
    slot (q.getIdx + UInt32.ofNat i) = (q.getIdx.toNat + i) % maxJobsQueue := by
  have hin := h.2
  have hi32 : (UInt32.ofNat i).toNat = i := by
    rw [UInt32.toNat_ofNat', Nat.mod_eq_of_lt (by omega)]
  have hlt : q.getIdx.toNat + i < 2 ^ 32 := by omega
  rw [slot, UInt32.toNat_add, hi32, Nat.mod_eq_of_lt hlt]

/-- A put writes next to the live slots. -/
theorem putJob_slot {p : Ptr} (h : q.Straight) (hwrap : q.putIdx = 0 → q.count = 0)
    (hput : q.putJob p = some q') : slot q.putIdx ∉ q.liveSlots := by
  obtain ⟨hcap, -, -⟩ := putJob_live h hwrap hput
  obtain ⟨hp, -⟩ := putIdx_toNat_of_room h hwrap
  intro hmem
  obtain ⟨i, hi, hslot⟩ := List.mem_map.mp hmem
  have hi := List.mem_range.mp hi
  rw [slot_add h hi, slot, hp] at hslot
  exact mod_ne_of_lt hi (by omega) hslot

/-- A dequeue reads the first live slot. -/
theorem getJob_slot {x : Option Ptr} (hget : q.getJob = some (x, q')) :
    q.liveSlots.head? = some (slot q.getIdx) := by
  unfold getJob at hget
  split at hget
  · cases hget
  · next hne =>
      obtain ⟨n, hn⟩ := Nat.exists_eq_succ_of_ne_zero hne
      rw [liveSlots, hn, List.range_succ_eq_map, List.map_cons, List.head?_cons]
      have hzero : q.getIdx + UInt32.ofNat 0 = q.getIdx := UInt32.add_zero _
      rw [hzero]

end Queue

/-! ## The trace of a queue -/

variable {N : Nat}

/-- What an event means for queue `i`. -/
def Event.fifoOp (i : Fin N) : Event N → Option (Fifo.Op Ptr)
  | .put _ _ j job => if j = i then some (.put job) else none
  | .got _ j job => if j = i then some (.get job) else none
  | _ => none

def Sys.fifoOps (s : Sys N) (i : Fin N) : List (Fifo.Op Ptr) := s.log.filterMap (Event.fifoOp i)

/-- No `removeJob` runs. -/
def Sys.NoRemoval (s : Sys N) (a : Action) : Prop :=
  match s.running a with
  | some (.removeJob _ _ _) => False
  | _ => True

instance (s : Sys N) (a : Action) : Decidable (s.NoRemoval a) :=
  decidable_of_iff (s.removal a = none) (by unfold Sys.NoRemoval Sys.removal; split <;> simp [*])

def Sys.Traced (s : Sys N) : Prop :=
  ∀ i, ∃ jobs, (s.server.queue i).live = jobs.map some ∧
    Fifo.Trace maxJobsQueue (s.fifoOps i) jobs

section Runs

variable [NeZero N]

/-- A section that removes nothing is one operation on a queue, or none. -/
theorem Ran.fifo {server : MainServer N} {heap : Heap} {t : Nat} {env : Env} {pc : Pc N}
    {r : Result N} (h : Ran server heap t env pc r) (hs : ∀ i, (server.queue i).Straight)
    (hroom : pc.IndexOk server) (hno : ∀ jobid i found, pc ≠ .removeJob jobid i found)
    (i : Fin N) {jobs : List Ptr} (hlive : (server.queue i).live = jobs.map some) :
    (r.events.filterMap (Event.fifoOp i) = [] ∧ (r.server.queue i).live = jobs.map some) ∨
      ∃ op jobs', r.events.filterMap (Event.fifoOp i) = [op] ∧
        Fifo.Step maxJobsQueue jobs op jobs' ∧ (r.server.queue i).live = jobs'.map some := by
  cases h with
  | @putJob caller j job wait q hput =>
      by_cases hij : j = i
      · subst hij
        obtain ⟨hcap, happ, -⟩ := Queue.putJob_live (hs j) hroom hput
        have hlen : jobs.length < maxJobsQueue := by
          rw [← Queue.length_live, hlive, List.length_map] at hcap
          exact hcap
        refine .inr ⟨.put job, jobs ++ [job], ?_, .put hlen, ?_⟩
        · simp [Event.fifoOp]
        · rw [setQueue_same, happ, hlive, List.map_append, List.map_singleton]
      · refine .inl ⟨?_, ?_⟩
        · simp [Event.fifoOp, hij]
        · rw [setQueue_other q (Ne.symm hij)]
          exact hlive
  | @getJob j wait job q hget =>
      by_cases hij : j = i
      · subst hij
        obtain ⟨hhead, -⟩ := Queue.getJob_live (hs j) hget
        rw [hlive] at hhead
        cases jobs with
        | nil => cases hhead
        | cons job' jobs =>
            injection hhead with hjob htail
            injection hjob with hjob
            subst hjob
            refine .inr ⟨.get job', jobs, ?_, .get, ?_⟩
            · simp [Event.fifoOp]
            · rw [setQueue_same, htail]
      · refine .inl ⟨?_, ?_⟩
        · simp [Event.fifoOp, hij]
        · rw [setQueue_other q (Ne.symm hij)]
          exact hlive
  | @removeJob jobid j found => exact absurd rfl (hno jobid j found)
  | submittedResponse | reply => refine .inl ⟨?_, hlive⟩; dsimp only; split <;> rfl
  | _ => exact .inl ⟨rfl, hlive⟩

theorem traced_step {s s' : Sys N} {a : Action} (htr : s.Traced) (hs : s.Sound)
    (hroom : s.IndexOk a) (hno : s.NoRemoval a) (h : s.step a = some s') : s'.Traced := by
  intro i
  obtain ⟨jobs, hlive, htrace⟩ := htr i
  rcases (step_cases h).2.server_cases with ⟨hserver, hlog⟩ | ⟨t, env, pc, r, rfl, ht, hran, rfl⟩
  · have hops : s'.fifoOps i = s.fifoOps i := by
      rcases hlog with hlog | ⟨t, hlog⟩
      · rw [Sys.fifoOps, hlog, Sys.fifoOps]
      · rw [Sys.fifoOps, hlog, List.filterMap_append, Sys.fifoOps]
        exact List.append_nil _
    exact ⟨jobs, by rw [hserver]; exact hlive, by rw [hops]; exact htrace⟩
  · have hops : (s.commit t env.pick r).fifoOps i =
        s.fifoOps i ++ r.events.filterMap (Event.fifoOp i) := List.filterMap_append
    have hno' : ∀ jobid i found, pc ≠ .removeJob jobid i found := by
      intro jobid j found hpc
      rw [hpc] at ht
      simp only [Sys.NoRemoval, Sys.running, ht] at hno
    rw [hops]
    rcases hran.fifo hs.queues (hroom pc ht) hno' i hlive with
      ⟨hnone, hlive'⟩ | ⟨op, jobs', hone, hstep, hlive'⟩
    · rw [hnone, List.append_nil]
      exact ⟨jobs, hlive', htrace⟩
    · rw [hone]
      exact ⟨jobs', hlive', htrace.step hstep⟩

theorem traced_of_reach {ok : Sys N → Action → Prop} {s : Sys N}
    (hle : ∀ s a, ok s a → s.IndexOk a ∧ s.NoRemoval a)
    (h : Reach Sys.step ok (· = Sys.init N) s) : s.Traced := by
  refine h.invariant ?_ fun s a s' hr htr hok h =>
    traced_step htr (sound_of_reach (fun s a h => (hle s a h).1) hr) (hle s a hok).1
      (hle s a hok).2 h
  intro s h i
  subst h
  exact ⟨[], Queue.live_init, .empty⟩

/-! ## The jobs of one connection -/

/-- A job that has been put is in no `newJob`'s hands. -/
def Sys.Settled (s : Sys N) (p : Ptr) : Prop :=
  p < s.heap.length ∧ ∀ (t : Nat) (pc : Pc N), s.threads[t]? = some pc → pc.inNewJob ≠ some p

/-- The first put of `p` by its `newJob` comes before every put of `p'`. -/
def PutBefore (log : List (Event N)) (t : Nat) (p p' : Ptr) : Prop :=
  ∃ pre post, log = pre ++ post ∧ (∃ i, .put t .newJob i p ∈ pre) ∧
    ∀ t' caller i, .put t' caller i p' ∉ pre

/-- What is known about the puts of `newJob`: a job that was accepted is still
in the hands of its handler or has been put by it; it is put once; and the first
of two jobs of one handler is put before the second. -/
structure Sys.Submitted (s : Sys N) : Prop where
  started : ∀ t p, .accepted t p ∈ s.log →
    (∃ pc : Pc N, s.threads[t]? = some pc ∧ pc.inNewJob = some p) ∨
      ∃ i, .put t .newJob i p ∈ s.log
  settled : ∀ t caller i p, .put t caller i p ∈ s.log → s.Settled p
  once : ∀ t t' i i' p, .put t .newJob i p ∈ s.log → .put t' .newJob i' p ∈ s.log → i = i'
  ordered : ∀ t p p', [.accepted t p, .accepted t p'].Sublist s.log → PutBefore s.log t p p'

section Ran

variable {server : MainServer N} {heap : Heap} {t : Nat} {env : Env} {pc : Pc N} {r : Result N}

/-- A handler keeps its job until it has put it. -/
theorem Ran.inNewJob (h : Ran server heap t env pc r) {p : Ptr} (hp : pc.inNewJob = some p) :
    r.pc.inNewJob = some p ∨ ∃ i, .put t .newJob i p ∈ r.events := by
  cases h with
  | newJob | numberJob | submittedResponse => exact .inl hp
  | @putJobWait caller i => cases caller <;> exact .inl hp
  | @putJob caller i job =>
      cases caller with
      | newJob =>
          injection hp with hp
          subst hp
          exact .inr ⟨i, List.mem_singleton.mpr rfl⟩
      | putJobBack queueIdx => cases hp
  | _ => cases hp

theorem Ran.inNewJob_back (h : Ran server heap t env pc r) {p : Ptr}
    (hp : r.pc.inNewJob = some p) : pc.inNewJob = some p := by
  cases h with
  | newJob | numberJob | submittedResponse => exact hp
  | @putJobWait caller => cases caller <;> exact hp
  | @putJob caller => cases caller <;> cases hp
  | _ => cases hp

/-- A put is made by the thread that has the job, into the queue it says. -/
theorem Ran.put_mem (h : Ran server heap t env pc r) {t' : Nat} {caller : Caller} {i : Fin N}
    {p : Ptr} (he : .put t' caller i p ∈ r.events) :
    t' = t ∧ ∃ wait q, pc = .putJob caller i p wait ∧ (server.queue i).putJob p = some q ∧
      r.server = server.setQueue i q ∧ r.events = [.put t caller i p] := by
  cases h.emits he with
  | @put _ _ _ wait q _ hput hserver hevents => exact ⟨rfl, wait, q, rfl, hput, hserver, hevents⟩

end Ran

omit [NeZero N] in
/-- A job in a queue is in nobody's hands. -/
theorem Sys.Sound.not_inNewJob {s : Sys N} (hs : s.Sound) {i : Fin N} {p : Ptr}
    (hp : some p ∈ (s.server.queue i).live) {t : Nat} {pc : Pc N} (ht : s.threads[t]? = some pc) :
    pc.inNewJob ≠ some p := by
  intro hpc
  have hpos := inQueues_pos hp
  obtain ⟨-, hsum⟩ := hs.lt_of_placed (p := p) (by omega)
  have hle : pc.holds p ≤ s.held p := le_tally (f := Pc.holds p) ht
  rw [Pc.holds, hpc, one, if_pos rfl] at hle
  omega

/-- Behind its put a job is live in its queue. -/
theorem live_of_put {s : Sys N} (hs : s.Sound) {t : Nat} {env : Env} {pc : Pc N} {r : Result N}
    (ht : s.threads[t]? = some pc) (hroom : s.IndexOk (.run t env))
    (hran : Ran s.server s.heap t env pc r) {t' : Nat} {caller : Caller} {i : Fin N} {p : Ptr}
    (he : .put t' caller i p ∈ r.events) : some p ∈ (r.server.queue i).live := by
  obtain ⟨-, wait, q, hpc, hput, hserver, -⟩ := hran.put_mem he
  subst hpc
  obtain ⟨-, happ, -⟩ := Queue.putJob_live (hs.queues i) (hroom _ ht) hput
  rw [hserver, setQueue_same, happ]
  exact List.mem_append_right _ (List.mem_singleton.mpr rfl)

theorem Sys.Settled.step {s s' : Sys N} {a : Action} {p : Ptr} (hp : s.Settled p)
    (h : Step s a s') : s'.Settled p := by
  obtain ⟨hlt, hthreads⟩ := hp
  refine ⟨Nat.lt_of_lt_of_le hlt h.length_heap, ?_⟩
  refine threads_step h hthreads (fun _ _ h => h) ?_ ?_ ?_ ?_
  · intro t pc hpc
    rwa [Pc.inNewJob_wake]
  · intro t pc hpc
    rw [hpc.inNewJob]
    exact fun h => by cases h
  · intro t hnew
    injection hnew with hnew
    exact Nat.ne_of_gt hlt hnew
  · intro t env pc r _ ht hran _ hr
    exact hthreads t pc ht (hran.inNewJob_back hr)

/-- A put settles its job. -/
theorem settled_of_put {s : Sys N} (hs : s.Sound) {t : Nat} {env : Env} {pc : Pc N}
    {r : Result N} (ht : s.threads[t]? = some pc) (hroom : s.IndexOk (.run t env))
    (hs' : (s.commit t env.pick r).Sound) (hran : Ran s.server s.heap t env pc r) {t' : Nat}
    {caller : Caller} {i : Fin N} {p : Ptr} (he : .put t' caller i p ∈ r.events) :
    (s.commit t env.pick r).Settled p := by
  have hlive : some p ∈ ((s.commit t env.pick r).server.queue i).live :=
    live_of_put hs ht hroom hran he
  have hpos := inQueues_pos hlive
  exact ⟨(hs'.lt_of_placed (p := p) (by omega)).1, fun t' pc' ht' => hs'.not_inNewJob hlive ht'⟩

/-- A handler that accepts a job has no other one. -/
theorem Step.accepts {s s' : Sys N} {a : Action} (h : Step s a s') :
    (∃ events, s'.log = s.log ++ events ∧ ∀ t p, .accepted t p ∉ events) ∨
      ∃ t, s.threads[t]? = some .attendClient ∧
        s'.threads[t]? = some (.newJob s.heap.length) ∧
        s'.log = s.log ++ [.accepted t s.heap.length] := by
  cases h with
  | @accepted t _ _ _ ht =>
      exact .inr ⟨t, ht, List.getElem?_set_self (List.getElem?_eq_some_iff.mp ht).1, rfl⟩
  | @ran t env pc r ht hran =>
      refine .inl ⟨r.events, rfl, fun t' p he => ?_⟩
      cases hran.emits he
  | _ => exact .inl ⟨[], (List.append_nil _).symm, fun _ _ he => (by cases he)⟩

/-- A put in the log of the state behind a step was there before, or is what
the step did. -/
theorem Step.put_mem {s s' : Sys N} {a : Action} (h : Step s a s') {t : Nat} {caller : Caller}
    {i : Fin N} {p : Ptr} (he : .put t caller i p ∈ s'.log) :
    .put t caller i p ∈ s.log ∨
      ∃ env wait r, a = .run t env ∧ s.threads[t]? = some (.putJob caller i p wait) ∧
        Ran s.server s.heap t env (.putJob caller i p wait) r ∧ s' = s.commit t env.pick r ∧
        .put t caller i p ∈ r.events := by
  cases h with
  | accepted ht =>
      rcases List.mem_append.mp he with hin | hnew
      · exact .inl hin
      · cases List.mem_singleton.mp hnew
  | @ran t' env pc r ht hran =>
      rcases List.mem_append.mp he with hin | hnew
      · exact .inl hin
      · obtain ⟨rfl, wait, q, rfl, -⟩ := hran.put_mem hnew
        exact .inr ⟨env, wait, r, rfl, ht, hran, rfl, hnew⟩
  | _ => exact .inl he

/-- What a handler has accepted it keeps, until it puts it. -/
theorem Step.started {s s' : Sys N} {a : Action} (h : Step s a s') {t : Nat} {pc : Pc N} {p : Ptr}
    (ht : s.threads[t]? = some pc) (hp : pc.inNewJob = some p) :
    (∃ pc' : Pc N, s'.threads[t]? = some pc' ∧ pc'.inNewJob = some p) ∨
      ∃ i, .put t .newJob i p ∈ s'.log := by
  rcases h.thread ht with (ht' | ht') | ⟨-, rfl | rfl⟩ | ⟨env, r, -, hran, rfl⟩
  · exact .inl ⟨pc, ht', hp⟩
  · exact .inl ⟨pc.wake, ht', by rw [Pc.inNewJob_wake, hp]⟩
  · cases hp
  · cases hp
  · rcases hran.inNewJob hp with hp' | ⟨i, he⟩
    · left
      rcases commit_self ht env.pick r with hself | hself
      · exact ⟨r.pc, hself, hp'⟩
      · exact ⟨r.pc.wake, hself, by rw [Pc.inNewJob_wake, hp']⟩
    · exact .inr ⟨i, List.mem_append_right _ he⟩

omit [NeZero N] in
theorem PutBefore.append {log : List (Event N)} {t : Nat} {p p' : Ptr}
    (h : PutBefore log t p p') (events : List (Event N)) :
    PutBefore (log ++ events) t p p' := by
  obtain ⟨pre, post, hlog, hput, hnot⟩ := h
  exact ⟨pre, post ++ events, by rw [hlog, List.append_assoc], hput, hnot⟩

omit [NeZero N] in
/-- Two entries in order, the later one of which is not new. -/
theorem sublist_of_append {log events : List (Event N)} {e e' : Event N} (he : e' ∉ events)
    (h : [e, e'].Sublist (log ++ events)) : [e, e'].Sublist log := by
  obtain ⟨l₁, l₂, hl, h₁, h₂⟩ := List.sublist_append_iff.mp h
  cases l₂ with
  | nil =>
      rw [List.append_nil] at hl
      exact hl ▸ h₁
  | cons x l₂ =>
      refine absurd (h₂.subset (List.getLast_mem (List.cons_ne_nil x l₂))) ?_
      have hlast : (l₁ ++ x :: l₂).getLast? = some e' := by rw [← hl]; rfl
      rw [List.getLast?_append_of_ne_nil _ (List.cons_ne_nil x l₂),
        List.getLast?_eq_some_getLast (List.cons_ne_nil x l₂)] at hlast
      injection hlast with hlast
      rwa [hlast]

omit [NeZero N] in
theorem mem_of_sublist_concat {log : List (Event N)} {e e' : Event N}
    (h : [e, e'].Sublist (log ++ [e'])) : e ∈ log := by
  have hrev := List.reverse_sublist.mpr h
  rw [List.reverse_append] at hrev
  have htail : [e].Sublist log.reverse := List.cons_sublist_cons.mp hrev
  exact List.mem_reverse.mp (List.singleton_sublist.mp htail)

theorem Sys.Submitted.step {s s' : Sys N} {a : Action} (hsub : s.Submitted) (hs : s.Sound)
    (hroom : s.IndexOk a) (h : s.step a = some s') : s'.Submitted := by
  have hs' := hs.step h hroom
  have hstep := (step_cases h).2
  obtain ⟨events, hlog⟩ := step_log h
  have hold : ∀ e ∈ s.log, e ∈ s'.log := fun e he => by
    rw [hlog]
    exact List.mem_append_left _ he
  have hkept : ∀ t p, .accepted t p ∈ s.log →
      (∃ pc : Pc N, s'.threads[t]? = some pc ∧ pc.inNewJob = some p) ∨
        ∃ i, .put t .newJob i p ∈ s'.log := by
    intro t p he
    rcases hsub.started t p he with ⟨pc, ht, hp⟩ | ⟨i, he⟩
    · exact hstep.started ht hp
    · exact .inr ⟨i, hold _ he⟩
  refine ⟨?_, ?_, ?_, ?_⟩
  · intro t p he
    rcases hstep.accepts with ⟨events', hlog', hno⟩ | ⟨t', -, ht', hlog'⟩
    · rw [hlog'] at he
      rcases List.mem_append.mp he with hin | hnew
      · exact hkept t p hin
      · exact absurd hnew (hno t p)
    · rw [hlog'] at he
      rcases List.mem_append.mp he with hin | hnew
      · exact hkept t p hin
      · have hnew := List.mem_singleton.mp hnew
        injection hnew with htt hp
        subst htt hp
        exact .inl ⟨_, ht', rfl⟩
  · intro t caller i p he
    rcases hstep.put_mem he with hin | ⟨env, wait, r, rfl, ht, hran, rfl, hnew⟩
    · exact (hsub.settled t caller i p hin).step hstep
    · exact settled_of_put hs ht hroom hs' hran hnew
  · intro t t' i i' p he he'
    rcases hstep.put_mem he with hin | ⟨env, wait, r, ha, ht, hran, heq, hin⟩
    · rcases hstep.put_mem he' with hin' | ⟨env', wait', r', ha', ht', -⟩
      · exact hsub.once t t' i i' p hin hin'
      · exact absurd rfl ((hsub.settled t _ i p hin).2 t' _ ht')
    · rcases hstep.put_mem he' with hin' | ⟨env', wait', r', ha', ht', -⟩
      · exact absurd rfl ((hsub.settled t' _ i' p hin').2 t _ ht)
      · rw [ha] at ha'
        injection ha' with htt
        subst htt
        rw [ht] at ht'
        injection ht' with ht'
        injection ht'
  · intro t p p' hsublist
    rcases hstep.accepts with ⟨events', hlog', hno⟩ | ⟨t', ht', -, hlog'⟩
    · rw [hlog'] at hsublist ⊢
      exact (hsub.ordered t p p' (sublist_of_append (hno t p') hsublist)).append events'
    · rw [hlog'] at hsublist ⊢
      by_cases hnew : (.accepted t p' : Event N) = .accepted t' s.heap.length
      · -- The handler is back in `recvMsg`: it has put the first job.
        injection hnew with htt hp
        subst htt hp
        have hin := mem_of_sublist_concat hsublist
        rcases hsub.started t p hin with ⟨pc, ht, hpc⟩ | hput
        · rw [ht'] at ht
          injection ht with ht
          subst ht
          cases hpc
        · refine ⟨s.log, _, rfl, hput, fun t' caller i he => ?_⟩
          exact Nat.lt_irrefl _ (hsub.settled t' caller i _ he).1
      · refine (hsub.ordered t p p' (sublist_of_append ?_ hsublist)).append _
        exact fun he => hnew (List.mem_singleton.mp he)

theorem submitted_of_reach {ok : Sys N → Action → Prop} {s : Sys N}
    (hle : ∀ s a, ok s a → s.IndexOk a) (h : Reach Sys.step ok (· = Sys.init N) s) :
    s.Submitted := by
  refine h.invariant ?_ fun s a s' hr hsub hok h =>
    hsub.step (sound_of_reach hle hr) (hle s a hok) h
  intro s h
  subst h
  exact ⟨fun t p he => (by cases he), fun t caller i p he => (by cases he),
    fun t t' i i' p he => (by cases he), fun t p p' he => (by cases he)⟩

/-! ## The refinement -/

omit [NeZero N] in
theorem mem_puts_of_mem {log : List (Event N)} {t : Nat} {caller : Caller} {i : Fin N} {p : Ptr}
    (he : .put t caller i p ∈ log) : p ∈ Fifo.puts (log.filterMap (Event.fifoOp i)) := by
  refine List.mem_filterMap.mpr ⟨.put p, List.mem_filterMap.mpr ⟨_, he, ?_⟩, rfl⟩
  simp [Event.fifoOp]

omit [NeZero N] in
theorem mem_of_mem_puts {log : List (Event N)} {i : Fin N} {p : Ptr}
    (hp : p ∈ Fifo.puts (log.filterMap (Event.fifoOp i))) :
    ∃ t caller, .put t caller i p ∈ log := by
  obtain ⟨op, hop, hpop⟩ := List.mem_filterMap.mp hp
  obtain ⟨e, he, heop⟩ := List.mem_filterMap.mp hop
  cases e with
  | put t caller j job =>
      dsimp only [Event.fifoOp] at heop
      split at heop
      · next hji =>
          injection heop with heop
          subst heop
          injection hpop with hpop
          subst hji hpop
          exact ⟨t, caller, he⟩
      · cases heop
  | got t j job =>
      dsimp only [Event.fifoOp] at heop
      split at heop
      · injection heop with heop
        subst heop
        cases hpop
      · cases heop
  | _ => cases heop

/-- In a run without removals and with fewer than `2 ^ 32` puts, each queue is a
bounded FIFO: its puts and dequeues are a trace of one, of which the live slots
are the contents, so that the jobs dequeued are the first of those put. A put
writes next to the live slots, a dequeue reads the first of them. Of two jobs of
one connection, the first of them submitted to this queue, the second is not
dequeued before the first. -/
theorem queue_refines_fifo {s : Sys N}
    (h : Reach Sys.step Sys.NoRemoval (· = Sys.init N) s) (hb : s.Bounded) (i : Fin N) :
    (∃ jobs, (s.server.queue i).live = jobs.map some ∧
      Fifo.Trace maxJobsQueue (s.fifoOps i) jobs ∧
      Fifo.puts (s.fifoOps i) = Fifo.gets (s.fifoOps i) ++ jobs ∧
      jobs.length ≤ maxJobsQueue) ∧
    (∀ job q, (s.server.queue i).putJob job = some q →
      Queue.slot (s.server.queue i).putIdx ∉ (s.server.queue i).liveSlots ∧
        q.live = (s.server.queue i).live ++ [some job]) ∧
    (∀ x q, (s.server.queue i).getJob = some (x, q) →
      (s.server.queue i).liveSlots.head? = some (Queue.slot (s.server.queue i).getIdx) ∧
        (s.server.queue i).live = x :: q.live) ∧
    (∀ t p p', [.accepted t p, .accepted t p'].Sublist s.log →
      .put t .newJob i p ∈ s.log → p' ∈ Fifo.gets (s.fifoOps i) →
        p ∈ Fifo.gets (s.fifoOps i) ∧
          (Fifo.gets (s.fifoOps i)).idxOf p < (Fifo.gets (s.fifoOps i)).idxOf p') := by
  have hr := reach_indexOk h hb
  have hs := sound_of_reach (fun _ _ h => h.1) hr
  have hsub := submitted_of_reach (fun _ _ h => h.1) hr
  obtain ⟨jobs, hlive, htrace⟩ := traced_of_reach (fun _ _ h => h) hr i
  refine ⟨⟨jobs, hlive, htrace, htrace.puts_eq, htrace.length_le⟩, ?_, ?_, ?_⟩
  · intro job q hput
    have hroom := (counted_of_reach (fun _ _ h => h.1) hr).room hb i
    exact ⟨Queue.putJob_slot (hs.queues i) hroom hput,
      (Queue.putJob_live (hs.queues i) hroom hput).2.1⟩
  · intro x q hget
    exact ⟨Queue.getJob_slot hget, (Queue.getJob_live (hs.queues i) hget).1⟩
  · intro t p p' hsublist hput hgot
    obtain ⟨pre, post, hlog, ⟨j, hpre⟩, hnot⟩ := hsub.ordered t p p' hsublist
    have hji : j = i := by
      refine hsub.once t t j i p ?_ hput
      rw [hlog]
      exact List.mem_append_left _ hpre
    subst hji
    have hputs : Fifo.puts (s.fifoOps j) =
        Fifo.puts (pre.filterMap (Event.fifoOp j)) ++
          Fifo.puts (post.filterMap (Event.fifoOp j)) := by
      rw [Sys.fifoOps, hlog, List.filterMap_append, Fifo.puts_append]
    have hprefix := htrace.gets_prefix
    rw [hputs] at hprefix
    refine Fifo.idxOf_lt_of_prefix hprefix (mem_puts_of_mem hpre) (fun hp => ?_) hgot
    obtain ⟨t', caller, he⟩ := mem_of_mem_puts hp
    exact hnot t' caller j he

end Runs

/-- Two jobs of one client, both sent. -/
def inOrderRun : List Action :=
  [.acceptClient, .acceptExecServ,
    .submit 0, .go 0, .go 0, .go 0, .go 0, .submit 0, .go 0, .go 0, .go 0, .go 0,
    .request 1, .go 1, .go 1, .go 1, .go 1, .request 1, .go 1, .go 1]

theorem queue_refines_fifo_in_order :
    ∃ s : Sys numQueueMax, Reach Sys.step Sys.NoRemoval (· = Sys.init numQueueMax) s ∧
      (Fifo.gets (s.fifoOps 0)).idxOf 0 < (Fifo.gets (s.fifoOps 0)).idxOf 1 := by
  obtain ⟨s, hr, hb, hlog, hput, hgot⟩ :
      ∃ s, Reach Sys.step Sys.NoRemoval (· = Sys.init numQueueMax) s ∧ s.Bounded ∧
        [.accepted 0 0, .accepted 0 1].Sublist s.log ∧ .put 0 .newJob 0 0 ∈ s.log ∧
        1 ∈ Fifo.gets (s.fifoOps 0) :=
    @reach_of_checkedRun _ _ _ _ _ _ inOrderRun _ _ _ rfl (by decide +kernel)
  exact ⟨s, hr, ((queue_refines_fifo hr hb 0).2.2.2 0 0 1 hlog hput hgot).2⟩

end DistQueue
