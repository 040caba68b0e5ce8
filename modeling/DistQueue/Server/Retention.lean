import DistQueue.Server.Records

/-!
# How long a job can be asked about

The history has fewer entries than the queues, and forgets by the number of
submissions and not by what has become of a job. So a job can lose its record
while it is still waiting or running. What holds, in every run, is that a job
that has been queued or sent has its own record until a later submission is
stored in the same slot; until then it is answered for, and reports about it are
taken.
-/

namespace DistQueue

open DistQueue.Lib

/-! ## What a queue can have hold of -/

namespace Queue

variable {q q' : Queue} {p : Ptr}

/-- Some slot of the array has the job in it, live or not. -/
def Holds (q : Queue) (p : Ptr) : Prop := ∃ k : Nat, q.jobs[k]? = some (some p)

theorem holds_of_jobAt {i : UInt32} (h : q.jobAt i = some p) : q.Holds p :=
  ⟨slot i, by rw [Vector.getElem?_eq_getElem (slot_lt i)]; exact congrArg some h⟩

theorem not_holds_init : ¬ init.Holds p := by
  rintro ⟨k, hk⟩
  rw [init, Vector.getElem?_replicate] at hk
  split at hk
  · injection hk with hk
    cases hk
  · cases hk

theorem holds_of_live (h : some p ∈ q.live) : q.Holds p := by
  obtain ⟨i, -, hi⟩ := List.mem_map.mp h
  exact holds_of_jobAt hi

theorem holds_of_putJob {p' : Ptr} (hput : q.putJob p' = some q') (h : q'.Holds p) :
    q.Holds p ∨ p = p' := by
  unfold putJob at hput
  split at hput
  · cases hput
  · injection hput with hput
    subst hput
    obtain ⟨k, hk⟩ := h
    rw [put, Vector.getElem?_set] at hk
    split at hk
    · injection hk with hk
      injection hk with hk
      exact .inr hk.symm
    · exact .inl ⟨k, hk⟩

theorem holds_of_getJob {x : Option Ptr} (hget : q.getJob = some (x, q')) :
    (∀ p, x = some p → q.Holds p) ∧ ∀ p, q'.Holds p → q.Holds p := by
  unfold getJob at hget
  split at hget
  · cases hget
  · injection hget with hget
    injection hget with hx hq
    subst hx hq
    exact ⟨fun p hp => holds_of_jobAt hp, fun p hp => hp⟩

/-- The shifting only copies. -/
theorem holds_of_shift {n : Nat} : ∀ {idx : Nat} {jobs jobs' : Vector (Option Ptr) maxJobsQueue},
    shift jobs n idx = .ok jobs' → ∀ {k : Nat}, jobs'[k]? = some (some p) →
      ∃ k : Nat, jobs[k]? = some (some p) := by
  induction n with
  | zero =>
      intro idx jobs jobs' h k hk
      injection h with h
      exact ⟨k, h ▸ hk⟩
  | succ n ih =>
      intro idx jobs jobs' h k hk
      rw [shift] at h
      split at h
      · next hidx =>
          obtain ⟨k', hk'⟩ := ih h hk
          rw [Vector.getElem?_set] at hk'
          split at hk'
          · exact ⟨idx + 1, by rw [Vector.getElem?_eq_getElem hidx]; exact hk'⟩
          · exact ⟨k', hk'⟩
      · cases h

theorem holds_of_removeJob {heap : Heap} {jobid : UInt16} {rm : Removal}
    (hr : q.removeJob heap jobid = .ok rm) (h : rm.queue.Holds p) : q.Holds p := by
  unfold removeJob at hr
  split at hr
  · injection hr with hr
    subst hr
    exact h
  · obtain ⟨⟨idx, freed⟩, -, hr⟩ := bind_ok hr
    obtain ⟨jobs, hshift, hr⟩ := bind_ok hr
    injection hr with hr
    subst hr
    obtain ⟨k, hk⟩ := h
    exact holds_of_shift hshift hk

end Queue

/-! ## Whatever is past its draft has its id -/

variable {N : Nat}

/-- The job a thread has, once it is past its draft. -/
def Pc.carries : Pc N → Option Ptr
  | .putJob _ _ job _ | .checkServerStatus job | .sendMsg job | .putJobBack job
  | .relabel _ job => some job
  | _ => none

/-- Nothing but a `newJob` has hold of a draft. -/
structure Sys.Past (s : Sys N) : Prop where
  threads : ∀ (t : Nat) (pc : Pc N), s.threads[t]? = some pc →
    ∀ p, pc.carries = some p → s.Stamped p
  queues : ∀ i p, (s.server.queue i).Holds p → s.Stamped p
  log : ∀ e ∈ s.log, ∀ t p wire, e = .sent t p wire → s.Stamped p

theorem Pc.carries_wake (pc : Pc N) : pc.wake.carries = pc.carries := by
  unfold Pc.wake
  split <;> rfl

theorem Pc.Request.carries {pc : Pc N} (h : pc.Request) : pc.carries = none := by
  cases pc <;> first | rfl | cases h

section Runs

variable [NeZero N]

/-- Storing the id ends the draft. -/
theorem stamped_of_response {s : Sys N} (ha : s.Apart) {t : Nat} {env : Env} {r : Result N}
    {p : Ptr} {queueIdx jobid : UInt16}
    (ht : s.threads[t]? = some (.submittedResponse p queueIdx jobid))
    (hran : Ran s.server s.heap t env (.submittedResponse p queueIdx jobid) r) :
    (s.commit t env.pick r).Stamped p := by
  have hone := ha p
  have hwake : ∀ pc : Pc N, one pc.wake.drafts p = one pc.drafts p := fun pc => by
    rw [Pc.drafts_wake]
  have htally := tally_commit (f := fun pc => one pc.drafts p) hwake ht env.pick r
  have hbefore : one (Pc.submittedResponse p queueIdx jobid : Pc N).drafts p = 1 := if_pos rfl
  have hafter : one r.pc.drafts p = 0 := by
    cases hran
    rfl
  rw [hbefore, hafter] at htally
  have hlen : (s.commit t env.pick r).heap.length = s.heap.length := hran.length_heap
  simp only [Sys.drafted] at hone
  refine ⟨?_, fun t' pc' ht' hpc' => ?_⟩
  · rw [hlen]
    split at hone
    · assumption
    · omega
  · have hle := le_tally (f := fun pc : Pc N => one pc.drafts p) ht'
    rw [hpc', one, if_pos rfl] at hle
    split at hone <;> omega

/-- What a thread has hold of behind its section it had before, or found in a
queue, or has just stored the id of. -/
theorem Ran.carries {server : MainServer N} {heap : Heap} {t : Nat} {env : Env} {pc : Pc N}
    {r : Result N} (h : Ran server heap t env pc r) {p : Ptr} (hp : r.pc.carries = some p) :
    pc.carries = some p ∨ (∃ i, (server.queue i).Holds p) ∨
      ∃ queueIdx jobid, pc = .submittedResponse p queueIdx jobid := by
  cases h with
  | @submittedResponse job queueIdx jobid =>
      injection hp with hp
      subst hp
      exact .inr (.inr ⟨queueIdx, jobid, rfl⟩)
  | @putJob caller => cases caller <;> first | exact .inl hp | cases hp
  | @getJob i wait job q hget =>
      injection hp with hp
      subst hp
      exact .inr (.inl ⟨i, (Queue.holds_of_getJob hget).1 _ rfl⟩)
  | putJobWait | serverReady | serverGone | sendFailed | putJobBack => exact .inl hp
  | _ => cases hp

/-- What a queue has hold of behind a section it had before, or a thread has put
it there. -/
theorem Ran.holds {server : MainServer N} {heap : Heap} {t : Nat} {env : Env} {pc : Pc N}
    {r : Result N} (h : Ran server heap t env pc r) {i : Fin N} {p : Ptr}
    (hp : (r.server.queue i).Holds p) : (server.queue i).Holds p ∨ pc.carries = some p := by
  cases h.queue i with
  | keep hq => exact .inl (hq ▸ hp)
  | put hput hserver =>
      rw [hserver, setQueue_same] at hp
      rcases Queue.holds_of_putJob hput hp with hp | rfl
      · exact .inl hp
      · exact .inr rfl
  | get hget hserver =>
      rw [hserver, setQueue_same] at hp
      exact .inl ((Queue.holds_of_getJob hget).2 p hp)
  | remove hr hserver =>
      rw [hserver, setQueue_same] at hp
      exact .inl (Queue.holds_of_removeJob hr hp)

theorem Ran.sent_carries {server : MainServer N} {heap : Heap} {t : Nat} {env : Env} {pc : Pc N}
    {r : Result N} (h : Ran server heap t env pc r) {t' : Nat} {p : Ptr} {wire : List UInt8}
    (he : .sent t' p wire ∈ r.events) : pc.carries = some p := by
  cases h.emits he with
  | sent => rfl

theorem Sys.Past.step {s s' : Sys N} {a : Action} (hp : s.Past) (ha : s.Apart)
    (h : s.step a = some s') : s'.Past := by
  have hstep := (step_cases h).2
  have hmono : ∀ p, s.Stamped p → s'.Stamped p := fun p hst => (stamped_step hst h).1
  refine ⟨?_, ?_, ?_⟩
  · refine threads_step hstep hp.threads (fun t pc hpc p hc => hmono p (hpc p hc)) ?_ ?_ ?_ ?_
    · intro t pc hpc p hc
      exact hpc p (by rwa [Pc.carries_wake] at hc)
    · intro t pc hpc p hc
      rw [hpc.carries] at hc
      cases hc
    · intro t p hc
      cases hc
    · intro t env pc r _ ht hran heq p hc
      rcases hran.carries hc with hc | ⟨i, hc⟩ | ⟨queueIdx, jobid, rfl⟩
      · exact hmono p (hp.threads t pc ht p hc)
      · exact hmono p (hp.queues i p hc)
      · rw [heq]
        exact stamped_of_response ha ht hran
  · intro i p hc
    rcases hstep.server_cases with ⟨hserver, -⟩ | ⟨t, env, pc, r, -, ht, hran, rfl⟩
    · rw [hserver] at hc
      exact hmono p (hp.queues i p hc)
    · rcases hran.holds hc with hc | hc
      · exact hmono p (hp.queues i p hc)
      · exact hmono p (hp.threads t pc ht p hc)
  · refine log_step hstep hp.log (fun e he t p wire heq => hmono p (he t p wire heq)) ?_ ?_
    · intro t t' p wire heq
      cases heq
    · intro t env pc r _ ht hran _ e he t' p wire heq
      subst heq
      exact hmono p (hp.threads t pc ht p (hran.sent_carries he))

theorem past_of_reach {ok : Sys N → Action → Prop} {s : Sys N}
    (h : Reach Sys.step ok (· = Sys.init N) s) : s.Past := by
  refine h.invariant ?_ fun s a s' hr hp hok h => hp.step (apart_of_reach hr) h
  intro s h
  subst h
  exact ⟨fun t pc ht => (by cases ht), fun i p hp => absurd hp Queue.not_holds_init,
    fun e he => (by cases he)⟩

/-! ## Having a record -/

namespace History

variable {h : History} {n : Nat} {jobid : UInt16}

/-- A report for an id that has a record is taken. -/
theorem changeStateJob_taken (hinv : h.Inv n) {job : JobHistory}
    (hret : h.retained jobid = some job) {state : UInt8} (exitValue : UInt8)
    (hstate : Reportable state) :
    ∃ h', h.changeStateJob jobid state exitValue = .ok h' ∧
      h'.jobState jobid =
        .ok (some { state := state, jobid := jobid, exitValue := exitValue }) := by
  have hchange : h.changeStateJob jobid state exitValue =
      .ok (h.setRecord (slotOf jobid) { job with state := state, exitStatus := exitValue }) := by
    rw [changeStateJob_eq hinv, hret]
    exact if_pos hstate
  refine ⟨_, hchange, ?_⟩
  have hop : h.apply (.changeStateJob jobid state exitValue) = .ok _ := hchange
  have hinv' := apply_inv hinv hop
  rw [jobState_eq hinv', retained, slot_setRecord (slotOf_lt jobid), if_pos rfl,
    Option.filter_some, if_pos (decide_eq_true (retained_eq_some.mp hret).2)]
  rfl

/-- The record that `findJob` leads to. -/
theorem record_iff (hinv : h.Inv n) {P : JobHistory → Prop} :
    (∃ idx record, h.findJob jobid = some idx ∧ h.record idx = .ok record ∧ P record) ↔
      ∃ job, h.retained jobid = some job ∧ P job := by
  rw [findJob_eq hinv]
  cases hret : h.retained jobid with
  | none =>
      constructor
      · rintro ⟨idx, record, hfind, -⟩
        cases hfind
      · rintro ⟨job, hjob, -⟩
        cases hjob
  | some job =>
      constructor
      · rintro ⟨idx, record, hfind, hrecord, hP⟩
        injection hfind with hfind
        subst hfind
        rw [record_retained hret] at hrecord
        injection hrecord with hrecord
        exact ⟨job, rfl, hrecord ▸ hP⟩
      · rintro ⟨job', hjob, hP⟩
        exact ⟨_, job, rfl, record_retained hret, by injection hjob with hjob; exact hjob ▸ hP⟩

end History

/-- The job waits in a queue, or has been sent. -/
def Sys.Underway (s : Sys N) (p : Ptr) : Prop :=
  (∃ i, some p ∈ (s.server.queue i).live) ∨ ∃ t wire, .sent t p wire ∈ s.log

omit [NeZero N] in
theorem Sys.Past.stamped {s : Sys N} (hp : s.Past) {p : Ptr} (h : s.Underway p) : s.Stamped p := by
  rcases h with ⟨i, hlive⟩ | ⟨t, wire, he⟩
  · exact hp.queues i p (Queue.holds_of_live hlive)
  · exact hp.log _ he t p wire rfl

omit [NeZero N] in
/-- The number of a submission. -/
theorem Sys.Numbered.index {s : Sys N} {p : Ptr} {jobid : UInt16} (h : s.Numbered p jobid) :
    ∃ n : Nat, (jobsOf s.ops)[n]? = some p ∧ History.idOf n = jobid := by
  obtain ⟨pre, r, q, a, post, hops, haddr, hid⟩ := h
  exact ⟨submissions pre, History.getElem?_jobsOf.mpr ⟨pre, r, q, a, post, hops, rfl, haddr⟩, hid⟩

/-- In every run, a job that waits in a queue or was sent has its own record,
under the id that is in the job, exactly as long as no later submission has been
stored in the same slot. Until then `jobState` answers for it and a report about
it is taken. -/
theorem job_has_record_until_replaced {s : Sys N}
    (h : Reach Sys.step anyStep (· = Sys.init N) s) {p : Ptr} (hp : s.Underway p) :
    ∃ (n : Nat) (job : Job), (jobsOf s.ops)[n]? = some p ∧ s.heap.contents p = some job ∧
      job.id = History.idOf n ∧
      ((∃ idx record, s.server.history.findJob job.id = some idx ∧
        s.server.history.record idx = .ok record ∧ record.addr = p) ↔
          History.Unreplaced s.ops n) ∧
      (History.Unreplaced s.ops n →
        (∃ answer, s.server.history.jobState job.id = .ok (some answer)) ∧
        ∀ state exitValue, History.Reportable state →
          ∃ history, s.server.history.changeStateJob job.id state exitValue = .ok history ∧
            history.jobState job.id =
              .ok (some { state := state, jobid := job.id, exitValue := exitValue })) := by
  have hst := (past_of_reach h).stamped hp
  have hl := linked_of_reach h
  obtain ⟨job, hcont, hnum⟩ := (ids_of_reach h).stamped p hst
  obtain ⟨n, hn, hid⟩ := hnum.index
  have hown := History.retained_own hl (recorded_of_reach h).nodup hn
  rw [hid] at hown
  refine ⟨n, job, hn, hcont, hid.symm, ?_, ?_⟩
  · rw [← hown]
    exact History.record_iff hl.inv
  · intro hlast
    obtain ⟨record, hret, -⟩ := hown.mpr hlast
    refine ⟨?_, fun state exitValue hstate =>
      History.changeStateJob_taken hl.inv hret exitValue hstate⟩
    rw [History.jobState_eq hl.inv, hret]
    exact ⟨_, rfl⟩

end Runs

/-- A client submits a job and nothing takes it. -/
def waitingRun : List Action := [.acceptClient, .submit 0, .go 0, .go 0, .go 0, .go 0]

theorem job_has_record_until_replaced_waiting :
    ∃ s : Sys numQueueMax, Reach Sys.step anyStep (· = Sys.init numQueueMax) s ∧
      ∃ (n : Nat) (job : Job), (jobsOf s.ops)[n]? = some 0 ∧ s.heap.contents 0 = some job ∧
        ((∃ idx record, s.server.history.findJob job.id = some idx ∧
          s.server.history.record idx = .ok record ∧ record.addr = 0) ↔
            History.Unreplaced s.ops n) := by
  obtain ⟨s, hr, hlive⟩ :
      ∃ s, Reach Sys.step anyStep (· = Sys.init numQueueMax) s ∧
        some 0 ∈ (s.server.queue 0).live :=
    @reach_of_checkedRun _ _ _ _ _ _ waitingRun _ _ _ rfl (by decide +kernel)
  obtain ⟨n, job, hn, hcont, -, hiff, -⟩ := job_has_record_until_replaced hr (.inl ⟨0, hlive⟩)
  exact ⟨s, hr, n, job, hn, hcont, hiff⟩

/-- A client submits eleven jobs and nothing takes them. -/
def elevenRun : List Action :=
  .acceptClient :: (List.replicate 11 [.submit 0, .go 0, .go 0, .go 0, .go 0]).flatten

/-- The first of eleven waiting jobs cannot be asked about, and nothing has gone
wrong. -/
theorem waiting_job_has_no_record :
    ∃ s : Sys numQueueMax, Reach Sys.step anyStep (· = Sys.init numQueueMax) s ∧ s.Bounded ∧
      s.fault = none ∧ some 0 ∈ (s.server.queue 0).live ∧
      (s.heap.contents 0).map Job.id = some 0 ∧ s.server.history.findJob 0 = none ∧
      s.server.history.jobState 0 = .ok none :=
  @reach_of_checkedRun _ _ _ _ _ _ elevenRun _ _ _ rfl (by decide +kernel)

end DistQueue
