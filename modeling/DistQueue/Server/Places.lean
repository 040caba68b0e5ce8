import DistQueue.Server.Steps
import DistQueue.Server.QueueSpec

/-!
# Where a job is

A job is in the hands of its `newJob` call, in a live slot, in the hands of a
`sendJob` or `putJobBack` call, sent, or taken out by a `removeJob`. Each of
these is a number, and no step changes their sum: it is 1 for every job that
was ever allocated and 0 for any other pointer.

What this rests on is that the queues stay straight, which they do until a put
index comes round to 0 with jobs in its queue; that takes `2 ^ 32` puts.
-/

namespace DistQueue

open DistQueue.Lib

variable {N : Nat}

/-! ## The places -/

/-- The job a `newJob` call has and has not yet put. -/
def Pc.inNewJob : Pc N → Option Ptr
  | .newJob job | .numberJob job _ | .submittedResponse job _ _ => some job
  | .putJob .newJob _ job _ => some job
  | _ => none

/-- The job whose id `newJob` has not stored yet. -/
def Pc.drafts : Pc N → Option Ptr
  | .newJob job | .numberJob job _ | .submittedResponse job _ _ => some job
  | _ => none

/-- The job a `sendJob` call has taken and neither sent nor put back. -/
def Pc.inSendJob : Pc N → Option Ptr
  | .checkServerStatus job | .sendMsg job | .putJobBack job => some job
  | .putJob (.putJobBack _) _ job _ => some job
  | _ => none

/-- 1 for the named job. -/
def one (o : Option Ptr) (p : Ptr) : Nat := if o = some p then 1 else 0

def Pc.holds (p : Ptr) (pc : Pc N) : Nat := one pc.inNewJob p + one pc.inSendJob p

def Event.sentJob (p : Ptr) : Event N → Nat
  | .sent _ job _ => one (some job) p
  | _ => 0

/-- How often a removal has taken the job out of a queue. -/
def Event.goneJob (p : Ptr) : Event N → Nat
  | .removed _ _ _ _ gone => gone.count (some p)
  | _ => 0

def Event.putOn (i : Fin N) : Event N → Nat
  | .put _ _ j _ => if j = i then 1 else 0
  | _ => 0

def MainServer.inQueues (server : MainServer N) (p : Ptr) : Nat :=
  ∑ i, (server.queue i).live.count (some p)

namespace Sys

def inNewJob (s : Sys N) (p : Ptr) : Nat := tally (fun pc => one pc.inNewJob p) s.threads

def inQueues (s : Sys N) (p : Ptr) : Nat := s.server.inQueues p

def inSendJob (s : Sys N) (p : Ptr) : Nat := tally (fun pc => one pc.inSendJob p) s.threads

def sent (s : Sys N) (p : Ptr) : Nat := tally (Event.sentJob p) s.log

def gone (s : Sys N) (p : Ptr) : Nat := tally (Event.goneJob p) s.log

/-- How many puts a queue has seen. -/
def puts (s : Sys N) (i : Fin N) : Nat := tally (Event.putOn i) s.log

def held (s : Sys N) (p : Ptr) : Nat := tally (Pc.holds p) s.threads

theorem held_eq (s : Sys N) (p : Ptr) : s.held p = s.inNewJob p + s.inSendJob p := by
  simp only [held, inNewJob, inSendJob, tally]
  induction s.threads with
  | nil => rfl
  | cons pc l ih => simp only [List.map_cons, List.sum_cons, ih, Pc.holds]; omega

end Sys

theorem Pc.inNewJob_wake (pc : Pc N) : pc.wake.inNewJob = pc.inNewJob := by
  unfold Pc.wake
  split
  · next caller _ _ => cases caller <;> rfl
  · rfl
  · rfl

theorem Pc.inSendJob_wake (pc : Pc N) : pc.wake.inSendJob = pc.inSendJob := by
  unfold Pc.wake
  split
  · next caller _ _ => cases caller <;> rfl
  · rfl
  · rfl

theorem Pc.holds_wake (p : Ptr) (pc : Pc N) : pc.wake.holds p = pc.holds p := by
  rw [Pc.holds, Pc.inNewJob_wake, Pc.inSendJob_wake, Pc.holds]

theorem Pc.Request.inNewJob {pc : Pc N} (h : pc.Request) : pc.inNewJob = none := by
  cases pc <;> first | rfl | cases h

theorem Pc.Request.inSendJob {pc : Pc N} (h : pc.Request) : pc.inSendJob = none := by
  cases pc <;> first | rfl | cases h

theorem Pc.Request.holds {pc : Pc N} (h : pc.Request) (p : Ptr) : pc.holds p = 0 := by
  rw [Pc.holds, h.inNewJob, h.inSendJob]; rfl

/-- A thread in `recvMsg` is as one that a message sent nowhere. -/
theorem Pc.request_of_idle {pc : Pc N} (h : pc = .attendClient ∨ pc = .attendExecServ) :
    pc.Request := by
  rcases h with rfl | rfl <;> trivial

/-! ## The queues -/

section Queues

variable [NeZero N] {server : MainServer N} {heap : Heap} {t : Nat} {env : Env} {pc : Pc N}
  {r : Result N}

omit [NeZero N] in
theorem setQueue_same (i : Fin N) (q : Queue) : (server.setQueue i q).queue i = q :=
  Function.update_self ..

omit [NeZero N] in
theorem setQueue_other {i j : Fin N} (q : Queue) (h : j ≠ i) :
    (server.setQueue i q).queue j = server.queue j := Function.update_of_ne h ..

/-- What a section can do to one queue: one of the three operations, which is
then all it does, or nothing. -/
inductive QueueRan (server : MainServer N) (heap : Heap) (t : Nat) (i : Fin N) :
    Pc N → Result N → Prop
  | keep {pc : Pc N} {r : Result N} (hq : r.server.queue i = server.queue i)
      (hput : tally (Event.putOn i) r.events = 0) : QueueRan server heap t i pc r
  | put {caller : Caller} {job : Ptr} {wait : Wait} {q : Queue} {r : Result N}
      (hput : (server.queue i).putJob job = some q) (hserver : r.server = server.setQueue i q)
      (hpc : r.pc = caller.next job) (hheap : r.heap = heap)
      (hevents : r.events = [.put t caller i job]) :
      QueueRan server heap t i (.putJob caller i job wait) r
  | get {wait : Wait} {job : Ptr} {q : Queue} {r : Result N}
      (hget : (server.queue i).getJob = some (some job, q))
      (hserver : r.server = server.setQueue i q) (hpc : r.pc = .checkServerStatus job)
      (hheap : r.heap = heap) (hevents : r.events = [.got t i job]) :
      QueueRan server heap t i (.getJob i wait) r
  | remove {jobid : UInt16} {found : Ptr} {rm : Queue.Removal} {r : Result N}
      (hr : (server.queue i).removeJob heap jobid = .ok rm)
      (hserver : r.server = server.setQueue i rm.queue) (hpc : r.pc = .markUnsubmited jobid found)
      (hheap : r.heap = rm.freed.elim heap heap.free)
      (hevents : r.events =
        [.removed t i jobid found ((server.queue i).live.diff rm.queue.live)]) :
      QueueRan server heap t i (.removeJob jobid i found) r

theorem Ran.queue (h : Ran server heap t env pc r) (i : Fin N) :
    QueueRan server heap t i pc r := by
  cases h with
  | @putJob caller j job wait q hput =>
      by_cases hij : i = j
      · subst hij
        exact .put hput rfl rfl rfl rfl
      · refine .keep (setQueue_other q hij) ?_
        simp [Event.putOn, Ne.symm hij]
  | @getJob j wait job q hget =>
      by_cases hij : i = j
      · subst hij
        exact .get hget rfl rfl rfl rfl
      · exact .keep (setQueue_other q hij) rfl
  | @removeJob jobid j found rm hr =>
      by_cases hij : i = j
      · subst hij
        exact .remove hr rfl rfl rfl rfl
      · exact .keep (setQueue_other rm.queue hij) rfl
  | submittedResponse | reply => refine .keep rfl ?_; dsimp only; split <;> rfl
  | _ => exact .keep rfl rfl

/-- Only a section touches what the threads share. -/
theorem Step.server_cases {s s' : Sys N} {a : Action} (h : Step s a s') :
    (s'.server = s.server ∧ (s'.log = s.log ∨ ∃ t, s'.log = s.log ++ [.accepted t s.heap.length])) ∨
      ∃ t env pc r, a = .run t env ∧ s.threads[t]? = some pc ∧
        Ran s.server s.heap t env pc r ∧ s' = s.commit t env.pick r := by
  cases h with
  | accepted ht => exact .inl ⟨rfl, .inr ⟨_, rfl⟩⟩
  | ran ht hran => exact .inr ⟨_, _, _, _, rfl, ht, hran, rfl⟩
  | _ => exact .inl ⟨rfl, .inl rfl⟩

/-- The log only grows. -/
theorem step_log {s s' : Sys N} {a : Action} (h : s.step a = some s') :
    ∃ events, s'.log = s.log ++ events := by
  rcases (step_cases h).2.server_cases with ⟨-, hlog | ⟨t, hlog⟩⟩ | ⟨t, env, pc, r, -, -, -, rfl⟩
  · exact ⟨[], by rw [hlog, List.append_nil]⟩
  · exact ⟨_, hlog⟩
  · exact ⟨r.events, rfl⟩

theorem tally_log_mono {s s' : Sys N} {a : Action} (h : s.step a = some s')
    (f : Event N → Nat) : tally f s.log ≤ tally f s'.log := by
  obtain ⟨events, hlog⟩ := step_log h
  rw [hlog, tally_append]
  exact Nat.le_add_right ..

/-- The thread that an action lets run. -/
def Sys.running (s : Sys N) : Action → Option (Pc N)
  | .run t _ => s.threads[t]?
  | _ => none

/-- What a `removeJob` is called with; `found` is the job its `unsubmit` has
found. -/
structure Removing (N : Nat) where
  jobid : UInt16
  queue : Fin N
  found : Ptr

/-- The removal that an action lets run. -/
def Sys.removal (s : Sys N) (a : Action) : Option (Removing N) :=
  match s.running a with
  | some (.removeJob jobid i found) => some ⟨jobid, i, found⟩
  | _ => none

/-- A `putJob` does not come round to index 0 with jobs in its queue: there the
put index would no longer be the get index and the count together. -/
def Pc.IndexOk (server : MainServer N) : Pc N → Prop
  | .putJob _ i _ _ => (server.queue i).putIdx = 0 → (server.queue i).count = 0
  | _ => True

instance (server : MainServer N) (pc : Pc N) : Decidable (pc.IndexOk server) := by
  unfold Pc.IndexOk
  split <;> infer_instance

def Sys.IndexOk (s : Sys N) (a : Action) : Prop :=
  ∀ pc ∈ s.running a, pc.IndexOk s.server

instance (s : Sys N) (a : Action) : Decidable (s.IndexOk a) :=
  inferInstanceAs (Decidable (∀ pc ∈ s.running a, pc.IndexOk s.server))

omit [NeZero N] in
theorem QueueRan.straight {i : Fin N} (h : QueueRan server heap t i pc r)
    (hs : (server.queue i).Straight) (hroom : pc.IndexOk server) :
    (r.server.queue i).Straight := by
  cases h with
  | keep hq hput => rw [hq]; exact hs
  | put hput hserver hpc hheap hevents =>
      rw [hserver, setQueue_same]
      exact (Queue.putJob_live hs hroom hput).2.2
  | get hget hserver hpc hheap hevents =>
      rw [hserver, setQueue_same]
      exact (Queue.getJob_live hs hget).2
  | remove hr hserver hpc hheap hevents =>
      rw [hserver, setQueue_same]
      rcases Queue.removeJob_cases hs hr with ⟨-, rfl⟩ | ⟨-, -, -, hs', -⟩
      · exact hs
      · exact hs'

theorem Step.straight {s s' : Sys N} {a : Action} (h : Step s a s')
    (hs : ∀ i, (s.server.queue i).Straight) (hroom : s.IndexOk a) :
    ∀ i, (s'.server.queue i).Straight := by
  intro i
  rcases h.server_cases with ⟨hserver, -⟩ | ⟨t, env, pc, r, rfl, ht, hran, rfl⟩
  · rw [hserver]
    exact hs i
  · exact (hran.queue i).straight (hs i) (hroom pc ht)

end Queues

/-! ## Conservation -/

section Conserve

variable [NeZero N] {server : MainServer N} {heap : Heap} {t : Nat} {env : Env} {pc : Pc N}
  {r : Result N}

omit [NeZero N] in
theorem inQueues_setQueue (server : MainServer N) (i : Fin N) (q : Queue) (p : Ptr) :
    (server.setQueue i q).inQueues p + (server.queue i).live.count (some p) =
      server.inQueues p + q.live.count (some p) :=
  sum_update (fun q : Queue => q.live.count (some p)) server.queue i q

/-- An entry more or less in a list of live slots. -/
theorem count_eraseIdx {l : List (Option Ptr)} {k : Nat} (x : Option Ptr) :
    (l.eraseIdx k).count x + (l.diff (l.eraseIdx k)).count x = l.count x := by
  have hle : (l.eraseIdx k).count x ≤ l.count x := (l.eraseIdx_sublist k).count_le x
  rw [List.count_diff]
  omega

/-- No section makes or loses a job. -/
theorem Ran.conserve (h : Ran server heap t env pc r) (hs : ∀ i, (server.queue i).Straight)
    (hroom : pc.IndexOk server) (p : Ptr) :
    pc.holds p + server.inQueues p =
      r.pc.holds p + r.server.inQueues p +
        tally (Event.sentJob p) r.events + tally (Event.goneJob p) r.events := by
  cases h with
  | @putJob caller i job wait q hput =>
      obtain ⟨-, hlive, -⟩ := Queue.putJob_live (hs i) hroom hput
      have hsum := inQueues_setQueue server i q p
      rw [hlive, List.count_append, List.count_singleton] at hsum
      have hpc : (Pc.putJob caller i job wait).holds p = if some job = some p then 1 else 0 := by
        cases caller <;> simp [Pc.holds, Pc.inNewJob, Pc.inSendJob, one]
      have hnext : (caller.next job : Pc N).holds p = 0 := by cases caller <;> rfl
      rw [hpc, hnext]
      simp only [tally_cons, tally_nil, Event.sentJob, Event.goneJob, beq_iff_eq] at hsum ⊢
      omega
  | @getJob i wait job q hget =>
      obtain ⟨hlive, -⟩ := Queue.getJob_live (hs i) hget
      have hsum := inQueues_setQueue server i q p
      rw [hlive, List.count_cons] at hsum
      have hpc : (Pc.checkServerStatus job : Pc N).holds p =
          if some job = some p then 1 else 0 := by
        simp [Pc.holds, Pc.inNewJob, Pc.inSendJob, one]
      have hbefore : (Pc.getJob i wait).holds p = 0 := rfl
      rw [hpc, hbefore]
      simp only [tally_cons, tally_nil, Event.sentJob, Event.goneJob, beq_iff_eq] at hsum ⊢
      omega
  | @removeJob jobid i found rm hr =>
      have hsum := inQueues_setQueue server i rm.queue p
      have hgone : rm.queue.live.count (some p) +
          ((server.queue i).live.diff rm.queue.live).count (some p) =
            (server.queue i).live.count (some p) := by
        rcases Queue.removeJob_cases (hs i) hr with ⟨-, rfl⟩ | ⟨-, -, -, -, k, -, hlive⟩
        · rw [List.count_diff]
          dsimp only
          omega
        · rw [hlive, count_eraseIdx]
      have hbefore : (Pc.removeJob jobid i found).holds p = 0 := rfl
      have hafter : (Pc.markUnsubmited jobid found : Pc N).holds p = 0 := rfl
      rw [hbefore, hafter]
      simp only [tally_cons, tally_nil, Event.sentJob, Event.goneJob] at hsum ⊢
      omega
  | @sent job contents hload =>
      have hbefore : (Pc.sendMsg job : Pc N).holds p = one (some job) p := Nat.zero_add _
      have hafter : (Pc.attendExecServ : Pc N).holds p = 0 := rfl
      rw [hbefore, hafter]
      simp only [tally_cons, tally_nil, Event.sentJob, Event.goneJob]
      omega
  | @putJobWait caller i job wait hput => cases caller <;> rfl
  | submittedResponse | reply =>
      dsimp only
      split <;> simp [Pc.holds, Pc.inNewJob, Pc.inSendJob, Event.sentJob, Event.goneJob]
  | _ => rfl

/-- Only a message allocates. -/
theorem Ran.length_heap (h : Ran server heap t env pc r) : r.heap.length = heap.length := by
  cases h with
  | submittedResponse => exact List.length_set ..
  | sent | relabelLost => exact List.length_modify ..
  | @removeJob jobid i found rm hr =>
      dsimp only
      cases rm.freed with
      | none => rfl
      | some p => exact List.length_modify ..
  | _ => rfl

theorem Step.length_heap {s s' : Sys N} {a : Action} (h : Step s a s') :
    s.heap.length ≤ s'.heap.length := by
  cases h with
  | accepted ht =>
      rw [Heap.malloc, List.length_append]
      exact Nat.le_add_right _ _
  | ran ht hran => exact Nat.le_of_eq hran.length_heap.symm
  | _ => exact Nat.le_refl _

/-- Every allocated job is in exactly one place. -/
def Sys.Conserved (s : Sys N) : Prop :=
  ∀ p, s.held p + s.inQueues p + s.sent p + s.gone p = if p < s.heap.length then 1 else 0

omit [NeZero N] in
theorem conserved_init : (Sys.init N).Conserved := by
  intro p
  have hq : (Sys.init N).inQueues p = 0 := by
    simp only [Sys.inQueues, MainServer.inQueues, Sys.init, MainServer.init, Queue.live_init]
    simp
  rw [hq]
  rfl

theorem conserved_step {s s' : Sys N} {a : Action} (hc : s.Conserved)
    (hs : ∀ i, (s.server.queue i).Straight) (hroom : s.IndexOk a) (h : s.step a = some s') :
    s'.Conserved := by
  intro p
  have hp := hc p
  cases (step_cases h).2 with
  | @accept a pc _ hpc =>
      have hidle := (Pc.request_of_idle hpc).holds p
      simp only [Sys.held, Sys.inQueues, Sys.sent, Sys.gone, tally_append, tally_cons,
        tally_nil] at hp ⊢
      omega
  | @accepted t pkg blank job ht =>
      have hset := tally_set (f := Pc.holds p) (b := (.newJob s.heap.length : Pc N)) ht
      have hbefore : (Pc.attendClient : Pc N).holds p = 0 := rfl
      have hnew : (Pc.newJob s.heap.length : Pc N).holds p = if s.heap.length = p then 1 else 0 := by
        simp [Pc.holds, Pc.inNewJob, Pc.inSendJob, one]
      simp only [Sys.held, Sys.inQueues, Sys.sent, Sys.gone, tally_append, tally_cons, tally_nil,
        Event.sentJob, Event.goneJob, Heap.malloc, List.length_append, List.length_singleton] at hp ⊢
      rw [hbefore, hnew] at hset
      rcases Nat.lt_trichotomy p s.heap.length with hlt | heq | hgt
      · rw [if_pos hlt] at hp
        rw [if_neg (Nat.ne_of_gt hlt)] at hset
        rw [if_pos (Nat.lt_succ_of_lt hlt)]
        omega
      · rw [if_neg (Nat.not_lt.mpr (Nat.le_of_eq heq.symm))] at hp
        rw [if_pos heq.symm] at hset
        rw [if_pos (Nat.lt_succ_of_le (Nat.le_of_eq heq))]
        omega
      · rw [if_neg (Nat.not_lt_of_gt hgt)] at hp
        rw [if_neg (Nat.ne_of_lt hgt)] at hset
        rw [if_neg (Nat.not_lt.mpr hgt)]
        omega
  | @moved a t pc pc' _ ht hpc hpc' =>
      have hset := tally_set (f := Pc.holds p) (b := pc') ht
      rw [(Pc.request_of_idle hpc).holds p, hpc'.holds p] at hset
      simp only [Sys.held, Sys.inQueues, Sys.sent, Sys.gone] at hp ⊢
      omega
  | @wakeup t pc ht =>
      have hset := tally_set (f := Pc.holds p) (b := pc.wake) ht
      rw [Pc.holds_wake] at hset
      simp only [Sys.held, Sys.inQueues, Sys.sent, Sys.gone] at hp ⊢
      omega
  | @ran t env pc r ht hran =>
      have hthreads := tally_commit (Pc.holds_wake p) ht env.pick r
      have hlocal := hran.conserve hs (hroom pc ht) p
      have hlen : (s.commit t env.pick r).heap.length = s.heap.length := hran.length_heap
      rw [hlen]
      simp only [Sys.held, Sys.inQueues, Sys.sent, Sys.gone, Sys.commit, tally_append] at hp hthreads ⊢
      omega
  | faulted => exact hp

omit [NeZero N] in
/-- What a section leaves in a queue was there before or has just been put. -/
theorem QueueRan.live_mem {i : Fin N} (h : QueueRan server heap t i pc r)
    (hs : (server.queue i).Straight) (hroom : pc.IndexOk server) {x : Option Ptr}
    (hx : x ∈ (r.server.queue i).live) :
    x ∈ (server.queue i).live ∨
      ∃ caller job wait, pc = .putJob caller i job wait ∧ x = some job := by
  cases h with
  | keep hq hput => rw [hq] at hx; exact .inl hx
  | @put caller job wait q r hput hserver hpc hheap hevents =>
      obtain ⟨-, hlive, -⟩ := Queue.putJob_live hs hroom hput
      rw [hserver, setQueue_same, hlive] at hx
      rcases List.mem_append.mp hx with hx | hx
      · exact .inl hx
      · exact .inr ⟨caller, job, wait, rfl, List.mem_singleton.mp hx⟩
  | @get wait job q r hget hserver hpc hheap hevents =>
      obtain ⟨hlive, -⟩ := Queue.getJob_live hs hget
      rw [hserver, setQueue_same] at hx
      exact .inl (hlive ▸ List.mem_cons_of_mem _ hx)
  | @remove jobid found rm r hr hserver hpc hheap hevents =>
      rw [hserver, setQueue_same] at hx
      rcases Queue.removeJob_cases hs hr with ⟨-, rfl⟩ | ⟨-, -, -, -, k, -, hlive⟩
      · exact .inl hx
      · rw [hlive] at hx
        exact .inl (List.mem_of_mem_eraseIdx hx)

/-- The state is in order: straight queues that hold jobs, and every job in one
place. -/
structure Sys.Sound (s : Sys N) : Prop where
  queues : ∀ i, (s.server.queue i).Straight
  conserved : s.Conserved
  live : ∀ i, ∀ x ∈ (s.server.queue i).live, ∃ p, x = some p

omit [NeZero N] in
/-- The places are exclusive. -/
theorem Sys.Sound.lt_of_placed {s : Sys N} (hs : s.Sound) {p : Ptr}
    (h : 0 < s.held p + s.inQueues p + s.sent p + s.gone p) :
    p < s.heap.length ∧ s.held p + s.inQueues p + s.sent p + s.gone p = 1 := by
  have hp := hs.conserved p
  split at hp
  · next hlt => exact ⟨hlt, hp⟩
  · omega

omit [NeZero N] in
theorem Sys.Sound.init : (Sys.init N).Sound where
  queues := fun _ => Queue.straight_init
  conserved := conserved_init
  live := fun i x hx => by
    rw [show ((Sys.init N).server.queue i).live = [] from Queue.live_init] at hx
    cases hx

theorem Sys.Sound.step {s s' : Sys N} {a : Action} (hs : s.Sound) (h : s.step a = some s')
    (hroom : s.IndexOk a) : s'.Sound where
  queues := (step_cases h).2.straight hs.queues hroom
  conserved := conserved_step hs.conserved hs.queues hroom h
  live := fun i x hx => by
    rcases (step_cases h).2.server_cases with ⟨hserver, -⟩ | ⟨t, env, pc, r, rfl, ht, hran, rfl⟩
    · rw [hserver] at hx
      exact hs.live i x hx
    · rcases (hran.queue i).live_mem (hs.queues i) (hroom pc ht) hx with hx | ⟨_, job, _, -, rfl⟩
      · exact hs.live i x hx
      · exact ⟨job, rfl⟩

/-- A run whose indices do not come round keeps the state in order. -/
theorem sound_of_reach {ok : Sys N → Action → Prop} {s : Sys N}
    (hle : ∀ s a, ok s a → s.IndexOk a) (h : Reach Sys.step ok (· = Sys.init N) s) : s.Sound :=
  h.invariant (fun _ h => h ▸ Sys.Sound.init) fun s a _ _ hs hok h => hs.step h (hle s a hok)

end Conserve

/-! ## Fewer than `2 ^ 32` puts -/

section Counted

variable [NeZero N]

/-- Fewer than `2 ^ 32` puts on every queue. -/
def Sys.Bounded (s : Sys N) : Prop := ∀ i, s.puts i < 2 ^ 32

instance (s : Sys N) : Decidable s.Bounded := inferInstanceAs (Decidable (∀ i, s.puts i < 2 ^ 32))

theorem Sys.Bounded.back {s s' : Sys N} {a : Action} (h : s.step a = some s')
    (hb : s'.Bounded) : s.Bounded :=
  fun i => Nat.lt_of_le_of_lt (tally_log_mono h _) (hb i)

/-- With indices below `2 ^ 32` a put index of 0 is the one of a new queue. -/
theorem count_eq_zero_of_putIdx {q : Queue} (h : q.getIdx.toNat + q.count < 2 ^ 32)
    (hput : q.putIdx = 0) : q.count = 0 := by
  have hp := q.putIdx_toNat
  rw [hput, Nat.mod_eq_of_lt h] at hp
  have : (0 : UInt32).toNat = 0 := rfl
  omega

/-- Where the window of a queue ends, puts have brought it. -/
def Sys.Counted (s : Sys N) : Prop :=
  ∀ i, (s.server.queue i).getIdx.toNat + (s.server.queue i).count ≤ s.puts i

omit [NeZero N] in
theorem Sys.Counted.room {s : Sys N} (hc : s.Counted) (hb : s.Bounded) (i : Fin N) :
    (s.server.queue i).putIdx = 0 → (s.server.queue i).count = 0 :=
  count_eq_zero_of_putIdx (Nat.lt_of_le_of_lt (hc i) (hb i))

omit [NeZero N] in
theorem Sys.Counted.indexOk {s : Sys N} (hc : s.Counted) (hb : s.Bounded) (a : Action) :
    s.IndexOk a := by
  intro pc _
  cases pc with
  | putJob caller i => exact hc.room hb i
  | _ => trivial

omit [NeZero N] in
theorem QueueRan.counted {server : MainServer N} {heap : Heap} {t : Nat} {pc : Pc N}
    {r : Result N} {i : Fin N} (h : QueueRan server heap t i pc r)
    (hs : (server.queue i).Straight) (hroom : pc.IndexOk server) :
    (r.server.queue i).getIdx.toNat + (r.server.queue i).count ≤
      (server.queue i).getIdx.toNat + (server.queue i).count + tally (Event.putOn i) r.events := by
  cases h with
  | keep hq hput => rw [hq, hput]; exact Nat.le_refl _
  | @put caller job wait q r hput hserver hpc hheap hevents =>
      obtain ⟨hcap, -⟩ := Queue.putJob_live hs hroom hput
      obtain ⟨-, hcount, rfl⟩ := Queue.putJob_next (Nat.le_of_lt hcap) hput
      have hget : ((server.queue i).put job).getIdx = (server.queue i).getIdx := rfl
      rw [hserver, setQueue_same, hevents, hget, hcount]
      simp only [tally_cons, tally_nil, Event.putOn, if_true]
      omega
  | @get wait job q r hget hserver hpc hheap hevents =>
      obtain ⟨hcount, -, hq⟩ := Queue.getJob_next hget
      have hle : q.getIdx.toNat ≤ (server.queue i).getIdx.toNat + 1 := by
        have hone : (1 : UInt32).toNat = 1 := rfl
        rw [hq]
        simp only [UInt32.toNat_add, hone]
        omega
      rw [hserver, setQueue_same, hevents]
      simp only [tally_cons, tally_nil, Event.putOn]
      omega
  | @remove jobid found rm r hr hserver hpc hheap hevents =>
      have hget := Queue.removeJob_getIdx hr
      rw [hserver, setQueue_same, hevents, hget]
      simp only [tally_cons, tally_nil, Event.putOn]
      rcases Queue.removeJob_next hr with ⟨-, rfl⟩ | ⟨hcount, -⟩
      · exact Nat.le_refl _
      · omega

theorem Sys.Counted.step {s s' : Sys N} {a : Action} (hc : s.Counted) (hs : s.Sound)
    (h : s.step a = some s') (hroom : s.IndexOk a) : s'.Counted := by
  have hmono := tally_log_mono h
  rcases (step_cases h).2.server_cases with ⟨hserver, -⟩ | ⟨t, env, pc, r, rfl, ht, hran, rfl⟩
  · intro i
    have hle : s.puts i ≤ s'.puts i := hmono _
    rw [hserver]
    exact (hc i).trans hle
  · intro i
    have hputs : (s.commit t env.pick r).puts i =
        s.puts i + tally (Event.putOn i) r.events := tally_append ..
    rw [hputs]
    exact ((hran.queue i).counted (hs.queues i) (hroom pc ht)).trans
      (Nat.add_le_add_right (hc i) _)

omit [NeZero N] in
theorem counted_init : (Sys.init N).Counted := by
  have hzero : Queue.init.getIdx.toNat + Queue.init.count = 0 := by decide
  exact fun _ => Nat.le_of_eq hzero

theorem counted_of_reach {ok : Sys N → Action → Prop} {s : Sys N}
    (hle : ∀ s a, ok s a → s.IndexOk a) (h : Reach Sys.step ok (· = Sys.init N) s) : s.Counted :=
  h.invariant (fun _ h => h ▸ counted_init) fun s a _ hr hc hok h =>
    hc.step (sound_of_reach hle hr) h (hle s a hok)

/-- For `2 ^ 32` puts no index comes round. -/
theorem reach_indexOk {ok : Sys N → Action → Prop} {s : Sys N}
    (h : Reach Sys.step ok (· = Sys.init N) s) (hb : s.Bounded) :
    Reach Sys.step (fun s a => s.IndexOk a ∧ ok s a) (· = Sys.init N) s :=
  h.invariant_while hb (fun _ _ _ h hb => hb.back h) (fun _ h => .start h)
    fun _ a _ _ hr hok h hb =>
      .step hr ⟨(counted_of_reach (fun _ _ h => h.1) hr).indexOk (hb.back h) a, hok⟩ h

end Counted

end DistQueue
