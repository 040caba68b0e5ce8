import DistQueue.Server.Faults

/-!
# No accepted job is lost

An `unsubmit` reads the state of its job under one lock and takes a job out of
the queue under another, and what it takes out is decided by the shape of the
window as much as by the id. So a job can leave a queue because somebody
cancelled another one: a job that is not queued yet, that a `sendJob` has just
taken, or that sits in a window running around the end of the array.

In a run in which every removal takes out a job of its own id, an answered job
is in exactly one place from then on.
-/

namespace DistQueue

open DistQueue.Lib

/-! ## Removals that take out the right job -/

/-- The queue is empty, or `removeJob` stays inside the array and the job it
takes out has the id it was asked for. -/
def Queue.RemovesOwn (q : Queue) (heap : Heap) (jobid : UInt16) : Prop :=
  q.count = 0 ∨ (Queue.slot q.putIdx ≠ 0 ∧
    (Queue.jobOf heap (q.givesUp heap jobid)).any (fun job => job.id = jobid) = true)

instance (q : Queue) (heap : Heap) (jobid : UInt16) : Decidable (q.RemovesOwn heap jobid) :=
  inferInstanceAs (Decidable (_ ∨ _))

variable {N : Nat}

def Sys.RemovesOwn (s : Sys N) (a : Action) : Prop :=
  match s.running a with
  | some (.removeJob jobid i _) => (s.server.queue i).RemovesOwn s.heap jobid
  | _ => True

instance (s : Sys N) (a : Action) : Decidable (s.RemovesOwn a) :=
  decidable_of_iff (∀ r ∈ s.removal a, (s.server.queue r.queue).RemovesOwn s.heap r.jobid)
    (by unfold Sys.RemovesOwn Sys.removal; split <;> simp [*])

/-- The steps of a run in which no request does harm to a job it is not
about. -/
def Sys.Orderly (s : Sys N) (a : Action) : Prop :=
  s.RecordKept a ∧ s.RemovesOwn a ∧ s.MarksFound a

instance (s : Sys N) (a : Action) : Decidable (s.Orderly a) :=
  inferInstanceAs (Decidable (_ ∧ _ ∧ _))

theorem Sys.RemovesOwn.inside {s : Sys N} {a : Action} (h : s.RemovesOwn a) :
    s.RemovesInside a := by
  unfold Sys.RemovesInside
  split
  · next jobid i found hpc =>
      simp only [Sys.RemovesOwn, hpc] at h
      exact h.imp_right And.left
  · trivial

/-! ## What has been taken out -/

/-- How often an `unsubmit` of `jobid` has taken the job out of a queue. -/
def Event.cancelledJob (p : Ptr) (jobid : UInt16) : Event N → Nat
  | .removed _ _ jobid' _ gone => if jobid' = jobid then gone.count (some p) else 0
  | _ => 0

def Sys.cancelled (s : Sys N) (p : Ptr) (jobid : UInt16) : Nat :=
  tally (Event.cancelledJob p jobid) s.log

/-- The job is past its draft and has this id. -/
def Sys.HasId (s : Sys N) (p : Ptr) (jobid : UInt16) : Prop :=
  s.Stamped p ∧ ∃ job, s.heap.contents p = some job ∧ job.id = jobid

section Runs

variable [NeZero N]

theorem Sys.HasId.step {s s' : Sys N} {a : Action} {p : Ptr} {jobid : UInt16}
    (hp : s.HasId p jobid) (h : s.step a = some s') : s'.HasId p jobid := by
  obtain ⟨hst, job, hcont, hid⟩ := hp
  obtain ⟨hst', hcont'⟩ := stamped_step hst h
  exact ⟨hst', job, by rw [hcont', hcont], hid⟩

/-- An event that names a job and an id names the id of that job. -/
def Event.Truthful (s : Sys N) : Event N → Prop
  | .answered _ p jobid _ => s.HasId p jobid
  | .removed _ _ jobid _ gone => ∀ x ∈ gone, ∃ p, x = some p ∧ s.HasId p jobid
  | _ => True

theorem Event.Truthful.step {s s' : Sys N} {a : Action} {e : Event N} (he : e.Truthful s)
    (h : s.step a = some s') : e.Truthful s' := by
  cases e with
  | answered t p jobid wire => exact Sys.HasId.step he h
  | removed t i jobid found gone =>
      intro x hx
      obtain ⟨p, hp, hid⟩ := he x hx
      exact ⟨p, hp, hid.step h⟩
  | _ => trivial

/-- `newJob` answers with the id it is about to store. -/
theorem hasId_answered {s s' : Sys N} {a : Action} (hs : s.Sound) (h : s.step a = some s')
    (hroom : s.IndexOk a) {t : Nat} {env : Env} {job : Ptr} {queueIdx jobid : UInt16} {contents : Job}
    {events : List (Event N)} (ht : s.threads[t]? = some (.submittedResponse job queueIdx jobid))
    (hload : s.heap.load job = some contents)
    (hs' : s' = s.commit t env.pick
      ⟨s.server, s.heap.store job { contents with id := jobid },
        .putJob .newJob (queueAt queueIdx.toNat) job .ready, events, none⟩) :
    s'.HasId job jobid := by
  have hsound := hs.step h hroom
  have hpc : s'.threads[t]? = some (.putJob .newJob (queueAt queueIdx.toNat) job .ready) := by
    rw [hs']
    exact List.getElem?_set_self (List.getElem?_eq_some_iff.mp ht).1
  have hholds : 0 < (Pc.putJob .newJob (queueAt queueIdx.toNat) job .ready : Pc N).holds job := by
    simp [Pc.holds, Pc.inNewJob, one]
  refine ⟨stamped_of_holds hsound hpc hholds (fun h => by cases h),
    { contents with id := jobid }, ?_, rfl⟩
  rw [hs']
  refine Heap.contents_of_load (Heap.load_eq_some.mpr ?_)
  exact List.getElem?_set_self (Heap.lt_of_load hload)

omit [NeZero N] in
/-- What a removal of the right job takes out has the id it was asked for. -/
theorem hasId_removed {s : Sys N} (hs : s.Sound) {i : Fin N} {jobid : UInt16}
    {rm : Queue.Removal} (hr : (s.server.queue i).removeJob s.heap jobid = .ok rm)
    (hown : (s.server.queue i).RemovesOwn s.heap jobid) {x : Option Ptr}
    (hx : x ∈ (s.server.queue i).live.diff rm.queue.live) :
    ∃ p, x = some p ∧ s.HasId p jobid := by
  have hlive : x ∈ (s.server.queue i).live := List.diff_subset _ _ hx
  have hgone := Queue.removeJob_gone (hs.queues i) hr hx
  obtain ⟨p, hp⟩ := hs.live i x hlive
  subst hp
  rcases hown with hzero | ⟨-, hmatch⟩
  · have hlen : (s.server.queue i).live.length = 0 := by rw [Queue.length_live, hzero]
    rw [List.length_eq_zero_iff.mp hlen] at hlive
    cases hlive
  · rw [← hgone] at hmatch
    rw [Option.any_eq_true] at hmatch
    obtain ⟨job, hjob, hid⟩ := hmatch
    have hpos := inQueues_pos hlive
    exact ⟨p, rfl, stamped_of_placed hs (by omega), job, Heap.contents_of_load hjob,
      of_decide_eq_true hid⟩

theorem truthful_step {s s' : Sys N} {a : Action} (hs : s.Sound) (hroom : s.IndexOk a)
    (hown : s.RemovesOwn a) (h : s.step a = some s') (hold : ∀ e ∈ s.log, e.Truthful s) :
    ∀ e ∈ s'.log, e.Truthful s' := by
  obtain ⟨-, hstep⟩ := step_cases h
  cases hstep with
  | @ran t env pc r ht hran =>
      intro e he
      rcases List.mem_append.mp he with he | he
      · exact (hold e he).step h
      · cases hran.emits he with
        | answered =>
            cases hran with
            | submittedResponse hload => exact hasId_answered hs h hroom ht hload rfl
        | removed hrm =>
            intro x hx
            simp only [Sys.RemovesOwn, Sys.running, ht] at hown
            obtain ⟨p, hp, hid⟩ := hasId_removed hs hrm hown hx
            exact ⟨p, hp, hid.step h⟩
        | _ => trivial
  | accepted =>
      intro e he
      rcases List.mem_append.mp he with he | he
      · exact (hold e he).step h
      · have he := List.mem_singleton.mp he
        subst he
        trivial
  | _ => exact fun e he => (hold e he).step h

theorem truthful_of_reach {ok : Sys N → Action → Prop} {s : Sys N}
    (hle : ∀ s a, ok s a → s.IndexOk a ∧ s.RemovesOwn a)
    (h : Reach Sys.step ok (· = Sys.init N) s) : ∀ e ∈ s.log, e.Truthful s := by
  refine h.invariant (I := fun s => ∀ e ∈ s.log, e.Truthful s) ?_ ?_
  · intro s h e he
    subst h
    cases he
  intro s a s' hr hold hok h
  exact truthful_step (sound_of_reach (fun s a h => (hle s a h).1) hr) (hle s a hok).1
    (hle s a hok).2 h hold

omit [NeZero N] in
/-- With every removal under its own id, what is gone is cancelled. -/
theorem gone_eq_cancelled {s : Sys N} {p : Ptr} {jobid : UInt16} (hp : s.HasId p jobid) :
    ∀ {log : List (Event N)}, (∀ e ∈ log, e.Truthful s) →
      tally (Event.goneJob p) log = tally (Event.cancelledJob p jobid) log := by
  intro log
  induction log with
  | nil => exact fun _ => rfl
  | cons e log ih =>
      intro h
      rw [tally_cons, tally_cons, ih fun e' he' => h e' (List.mem_cons_of_mem _ he')]
      congr 1
      cases e with
      | removed t i jobid' found gone =>
          show gone.count (some p) = if jobid' = jobid then gone.count (some p) else 0
          split
          · rfl
          · next hne =>
              rw [List.count_eq_zero]
              intro hmem
              obtain ⟨p', hp', -, job', hcont', hid'⟩ :=
                h _ List.mem_cons_self (some p) hmem
              injection hp' with hp'
              subst hp'
              obtain ⟨-, job, hcont, hid⟩ := hp
              rw [hcont] at hcont'
              injection hcont' with hjob
              exact hne (hid' ▸ hjob ▸ hid)
      | _ => rfl

/-- In a run of orderly steps no invalid access happens, an answered job is in
exactly one place, and a removal only takes out jobs of the id that was asked
for. -/
theorem each_job_in_one_place {s : Sys N}
    (h : Reach Sys.step Sys.Orderly (· = Sys.init N) s) (hb : s.Bounded) :
    s.fault ≠ some .invalidAccess ∧
    (∀ t p jobid wire, .answered t p jobid wire ∈ s.log →
      s.inNewJob p + s.inQueues p + s.inSendJob p + s.sent p + s.cancelled p jobid = 1) ∧
    (∀ t i jobid found gone, .removed t i jobid found gone ∈ s.log →
      ∀ x ∈ gone, ∃ p job, x = some p ∧ s.heap.contents p = some job ∧ job.id = jobid) := by
  have h := reach_indexOk h hb
  have hs := sound_of_reach (fun _ _ h => h.1) h
  have htruthful := truthful_of_reach (fun _ _ h => ⟨h.1, h.2.2.1⟩) h
  refine ⟨no_fault_of_reach (fun s a h => ⟨h.1, h.2.1, h.2.2.1.inside, h.2.2.2⟩) h, ?_, ?_⟩
  · intro t p jobid wire he
    have hid : s.HasId p jobid := htruthful _ he
    have hp := hs.conserved p
    rw [if_pos hid.1.1, s.held_eq] at hp
    have hgone : s.gone p = s.cancelled p jobid := gone_eq_cancelled hid htruthful
    omega
  · intro t i jobid found gone he x hx
    obtain ⟨p, hp, -, job, hcont, hid⟩ := htruthful _ he x hx
    exact ⟨p, job, hp, hcont, hid⟩

end Runs

/-! ## Two runs -/

/-- A job is cancelled while it waits, another one is sent. -/
def cancelledRun : List Action :=
  [.acceptClient, .acceptExecServ,
    .submit 0, .go 0, .go 0, .go 0, .go 0, .submit 0, .go 0, .go 0, .go 0, .go 0,
    .cancel 0 1, .go 0, .go 0, .go 0, .go 0, .go 0,
    .request 1, .go 1, .go 1, .go 1, .go 1]

theorem each_job_in_one_place_cancelled :
    ∃ s : Sys numQueueMax, Reach Sys.step Sys.Orderly (· = Sys.init numQueueMax) s ∧
      s.cancelled 1 1 = 1 ∧
      s.inNewJob 1 + s.inQueues 1 + s.inSendJob 1 + s.sent 1 + s.cancelled 1 1 = 1 := by
  obtain ⟨s, hr, hb, hanswered, hcancelled⟩ :
      ∃ s, Reach Sys.step Sys.Orderly (· = Sys.init numQueueMax) s ∧ s.Bounded ∧
        .answered 0 1 1 (setJobID (Msg.fill 0) 1).wire ∈ s.log ∧ s.cancelled 1 1 = 1 :=
    @reach_of_checkedRun _ _ _ _ _ _ cancelledRun _ _ _ rfl (by decide +kernel)
  exact ⟨s, hr, hcancelled, (each_job_in_one_place hr hb).2.1 0 1 1 _ hanswered⟩

/-- Job 0 has its record and its answer but is not queued yet when it is
cancelled: job 1, which is queued, is the one that is lost. -/
def lostRun : List Action :=
  [.acceptClient, .acceptClient, .acceptClient,
    .submit 0, .go 0, .go 0, .go 0, .submit 1, .go 1, .go 1, .go 1, .go 1,
    .cancel 2 0, .go 2, .go 2, .go 2]

theorem unsubmit_loses_another_job :
    ∃ s : Sys numQueueMax, Reach Sys.step anyStep (· = Sys.init numQueueMax) s ∧ s.Bounded ∧
      s.fault = none ∧ .answered 1 1 1 (setJobID (Msg.fill 0) 1).wire ∈ s.log ∧
      s.inNewJob 1 + s.inQueues 1 + s.inSendJob 1 + s.sent 1 + s.cancelled 1 1 = 0 ∧
      .removed 2 0 0 0 [some 1] ∈ s.log :=
  @reach_of_checkedRun _ _ _ _ _ _ lostRun _ _ _ rfl (by decide +kernel)

end DistQueue
