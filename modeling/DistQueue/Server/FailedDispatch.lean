import DistQueue.Server.Faults

/-!
# A failed dispatch gives the job back

A `sendJob` that cannot deliver its job puts it into a queue again, and goes on
using it: it looks the record up by the id in the job, and frees the job when
there is no record. Both are mistakes once the job is published. The record may
have been evicted while the dispatch was under way, and then a queued job is
freed; or another `sendJob` may have sent and freed the job in the meantime, and
then its id is read from a freed block.

In the runs where neither happens, and where no `removeJob` leaves its array, a
dispatched job is never freed before it is sent or cancelled, keeps its
contents, and is back in exactly one queue behind the put.
-/

namespace DistQueue

open DistQueue.Lib

variable {N : Nat} [NeZero N]

/-- A dispatch that fails, at the check or at the message, goes to `putJobBack`
with the job as it is. -/
theorem dispatch_fails {s s' : Sys N} {t : Nat} {env : Env} {job : Ptr} {pc : Pc N}
    (ht : s.threads[t]? = some pc) (hpc : pc = .checkServerStatus job ∨ pc = .sendMsg job)
    (hload : ∃ contents, s.heap.load job = some contents) (henv : env.ok = false)
    (h : s.step (.run t env) = some s') :
    s' = { s with threads := s.threads.set t (.putJobBack job) } := by
  obtain ⟨contents, hload⟩ := hload
  have hderef : s.heap.deref job = .ok contents := by rw [Heap.deref, hload]
  have hfault := (step_cases h).1
  have hrun : pc.run s.server s.heap t env =
      some (.ok (stay s.server s.heap (.putJobBack job))) := by
    rcases hpc with rfl | rfl
    · simp only [Pc.run, checkServerStatusStep, henv]
      rfl
    · simp only [Pc.run, sendMsgStep, hderef, henv]
      rfl
  unfold Sys.step at h
  rw [if_pos hfault] at h
  dsimp only [Sys.run] at h
  simp only [ht, hrun] at h
  injection h with h
  rw [← h]
  simp only [Sys.commit, stay, Option.elim_none, List.append_nil, hfault]

/-- The put of a `putJobBack` either waits or leaves the job in one queue and in
nobody's hands, with the memory as it was. -/
theorem putBack_puts {s s' : Sys N} (hs : s.Sound) {t : Nat} {env : Env}
    {queueIdx : Nat} {i : Fin N} {job : Ptr} {wait : Wait}
    (ht : s.threads[t]? = some (.putJob (.putJobBack queueIdx) i job wait))
    (hroom : s.IndexOk (.run t env)) (h : s.step (.run t env) = some s') :
    s'.heap = s.heap ∧
      (s'.threads[t]? = some (.putJob (.putJobBack queueIdx) i job .blocked) ∨
        (s'.threads[t]? = some (.relabel queueIdx job) ∧
          some job ∈ (s'.server.queue i).live ∧ s'.inQueues job = 1 ∧ s'.inSendJob job = 0)) := by
  have hs' := hs.step h hroom
  rcases step_run h ht with ⟨r, hran, heq⟩ | ⟨fault, hrun, -⟩
  · cases hran with
    | putJobWait hput =>
        refine ⟨by rw [heq]; rfl, .inl ?_⟩
        rw [heq]
        exact List.getElem?_set_self (List.getElem?_eq_some_iff.mp ht).1
    | @putJob _ _ _ _ q hput =>
        obtain ⟨-, hlive, -⟩ := Queue.putJob_live (hs.queues i) (hroom _ ht) hput
        have hself := commit_self ht env.pick
          ⟨s.server.setQueue i q, s.heap, Caller.next job (.putJobBack queueIdx),
            [.put t (.putJobBack queueIdx) i job], some (.get i)⟩
        have hmem : some job ∈ (s'.server.queue i).live := by
          rw [heq]
          show some job ∈ ((s.server.setQueue i q).queue i).live
          rw [setQueue_same, hlive]
          exact List.mem_append_right _ List.mem_cons_self
        have hpos := inQueues_pos hmem
        obtain ⟨-, hsum⟩ := hs'.lt_of_placed (p := job) (by omega)
        rw [Sys.held_eq] at hsum
        refine ⟨by rw [heq]; rfl, .inr ⟨?_, hmem, by omega, by omega⟩⟩
        rw [heq]
        rcases hself with hself | hself
        · exact hself
        · exact hself
  · cases wait with
    | blocked => cases hrun
    | _ => injection hrun with hrun; cases hrun

/-- With its record kept, the look-up behind the put changes nothing but that
record. -/
theorem putBack_relabels {s s' : Sys N} {t : Nat} {env : Env} {queueIdx : Nat} {job : Ptr}
    (hl : s.Linked) (ht : s.threads[t]? = some (.relabel queueIdx job))
    (hkept : s.RecordKept (.run t env)) (h : s.step (.run t env) = some s') :
    s'.heap = s.heap ∧ s'.server.queue = s.server.queue ∧ s'.threads[t]? = some .closed ∧
      s'.fault = none := by
  simp only [Sys.RecordKept, Sys.running, ht] at hkept
  rcases step_run h ht with ⟨r, hran, rfl⟩ | ⟨fault, hrun, rfl⟩
  · cases hran with
    | relabelLost hload hfind =>
        simp only [hload] at hkept
        exact absurd hfind hkept
    | relabel hload hop =>
        refine ⟨rfl, rfl, ?_, rfl⟩
        exact List.getElem?_set_self (List.getElem?_eq_some_iff.mp ht).1
  · injection hrun with hrun
    cases hload : s.heap.load job with
    | none => simp only [hload] at hkept
    | some contents =>
        have hderef : s.heap.deref job = .ok contents := by rw [Heap.deref, hload]
        rw [relabelSection, hderef] at hrun
        rcases bind_error hrun with hrun | ⟨contents', hok, hrun⟩
        · cases hrun
        · injection hok with hok
          subst hok
          rcases bind_error hrun with hrun | ⟨history, -, hrun⟩
          · rw [History.putJobBack_eq hl.inv] at hrun
            cases hrun
          · cases hrun

/-- The steps of a run that keeps the records of its put-backs, and whose
removals stay inside the array. -/
def Sys.Returning (s : Sys N) (a : Action) : Prop :=
  s.IndexOk a ∧ s.RecordKept a ∧ s.RemovesInside a

instance (s : Sys N) (a : Action) : Decidable (s.Returning a) :=
  inferInstanceAs (Decidable (_ ∧ _ ∧ _))

/-- In a run that keeps the records, a failed dispatch gives its job back: no
job is freed while a slot refers to it or a `sendJob` has it, the put leaves it
in exactly one queue, the look-up behind the put frees nothing, and its contents
stay what they were, whatever else happens. -/
theorem failed_dispatch_gives_back {s : Sys N}
    (h : Reach Sys.step Sys.Returning (· = Sys.init N) s) :
    (∀ i, ∀ x ∈ (s.server.queue i).live, ∃ p job, x = some p ∧ s.heap.load p = some job) ∧
    (∀ (t : Nat) (pc : Pc N) (p : Ptr), s.threads[t]? = some pc → pc.inSendJob = some p →
      (∃ job, s.heap.load p = some job) ∧
      (∀ env s', pc = .checkServerStatus p ∨ pc = .sendMsg p → env.ok = false →
        s.step (.run t env) = some s' →
          s' = { s with threads := s.threads.set t (.putJobBack p) }) ∧
      (∀ env s' queueIdx i wait, pc = .putJob (.putJobBack queueIdx) i p wait →
        s.IndexOk (.run t env) → s.step (.run t env) = some s' → s'.heap = s.heap ∧
          (s'.threads[t]? = some (.putJob (.putJobBack queueIdx) i p .blocked) ∨
            (s'.threads[t]? = some (.relabel queueIdx p) ∧
              some p ∈ (s'.server.queue i).live ∧ s'.inQueues p = 1 ∧ s'.inSendJob p = 0))) ∧
      ∀ s', Reach Sys.step anyStep (· = s) s' → s'.heap.contents p = s.heap.contents p) ∧
    (∀ (t : Nat) (queueIdx : Nat) (p : Ptr) env s',
      s.threads[t]? = some (.relabel queueIdx p) → s.RecordKept (.run t env) →
      s.step (.run t env) = some s' →
        s'.heap = s.heap ∧ s'.server.queue = s.server.queue ∧
          s'.threads[t]? = some .closed ∧ s'.fault = none) := by
  have hs := sound_of_reach (fun _ _ h => h.1) h
  have hf := freedGone_of_reach (fun _ _ h => ⟨h.1, h.2.1⟩) h
  refine ⟨fun i x hx => load_of_live hs hf hx, fun t pc p ht hp => ?_,
    fun t queueIdx p env s' ht hkept hstep => putBack_relabels (linked_of_reach h) ht hkept hstep⟩
  have hholds : 0 < pc.holds p := by
    rw [Pc.holds, hp]
    simp [one]
  have hload := load_of_holds hs hf ht hholds
  refine ⟨hload, fun env s' hpc henv hstep => dispatch_fails ht hpc hload henv hstep, ?_, ?_⟩
  · intro env s' queueIdx i wait hpc hroom hstep
    subst hpc
    exact putBack_puts hs ht hroom hstep
  · intro s' hrun
    refine (stamped_run (stamped_of_holds hs ht hholds fun hd => ?_) hrun).2
    cases pc with
    | newJob | numberJob | submittedResponse => cases hp
    | _ => cases hd

/-- A job is dispatched to a server that is gone, and put back. -/
def putBackRun : List Action :=
  [.acceptClient, .acceptExecServ, .submit 0, .go 0, .go 0, .go 0, .go 0,
    .request 1, .go 1, .go 1, .fail 1, .go 1]

theorem failed_dispatch_gives_back_put :
    ∃ s : Sys numQueueMax, Reach Sys.step Sys.Returning (· = Sys.init numQueueMax) s ∧
      ∀ env s', s.step (.run 1 env) = some s' → s'.heap = s.heap ∧
        (s'.threads[1]? = some (.putJob (.putJobBack 0) 0 0 .blocked) ∨
          (s'.threads[1]? = some (.relabel 0 0) ∧
            some 0 ∈ (s'.server.queue 0).live ∧ s'.inQueues 0 = 1 ∧ s'.inSendJob 0 = 0)) := by
  obtain ⟨s, hr, ht, hput⟩ :
      ∃ s, Reach Sys.step Sys.Returning (· = Sys.init numQueueMax) s ∧
        s.threads[1]? = some (.putJob (.putJobBack 0) 0 0 .ready) ∧
        (s.server.queue 0).putIdx = 1 :=
    @reach_of_checkedRun _ _ _ _ _ _ putBackRun _ _ _ rfl (by decide +kernel)
  refine ⟨s, hr, fun env s' hstep => ?_⟩
  have hroom : s.IndexOk (.run 1 env) := by
    intro pc hpc
    rw [Option.mem_def, Sys.running, ht] at hpc
    injection hpc with hpc
    subst hpc
    intro hzero
    rw [hput] at hzero
    cases hzero
  exact ((failed_dispatch_gives_back hr).2.1 1 _ 0 ht rfl).2.2.1 env s' 0 0 .ready rfl hroom hstep

/-- While job 0 is being dispatched, ten more jobs are submitted and its record
is evicted; then the dispatch fails. -/
def evictedRun : List Action :=
  [.acceptClient, .acceptExecServ, .submit 0, .go 0, .go 0, .go 0, .go 0,
    .request 1, .go 1, .go 1] ++
  (List.replicate 10 [.submit 0, .go 0, .go 0, .go 0, .go 0]).flatten ++
  [.fail 1, .go 1, .go 1, .go 1]

/-- The put-back frees a job that is in the queue. -/
theorem failed_dispatch_frees_queued :
    ∃ s : Sys numQueueMax, Reach Sys.step anyStep (· = Sys.init numQueueMax) s ∧
      s.Bounded ∧ s.fault = none ∧ s.threads[1]? = some .closed ∧ some 0 ∈ (s.server.queue 0).live ∧
      s.heap.load 0 = none :=
  @reach_of_checkedRun _ _ _ _ _ _ evictedRun _ _ _ rfl (by decide +kernel)

end DistQueue
