import DistQueue.Server.Faults

/-!
# Answered and refused cancellations

`unsubmit` looks at its record under one lock, takes a job out of a queue under
a second and marks the record under a third. `STATE_WAIT`, which is all the
first section asks for, covers jobs that are not queued yet and jobs that a
`sendJob` has already taken; for these there is nothing in the queue to remove,
and the answer says otherwise.

In the runs in which the job that was looked up is the one that leaves the
queue, or has left it for good before, and in which no section leaves its array,
an answered cancellation is final. A refused one changes nothing in any run.
-/

namespace DistQueue

open DistQueue.Lib

variable {N : Nat}

/-- A removal on its way takes out the job that the first section of its
`unsubmit` found, unless an earlier removal has. Where the second loop of
`removeJob` runs off the array, no job leaves the queue as it should. -/
def Sys.TakesFound (s : Sys N) (a : Action) : Prop :=
  match s.running a with
  | some (.removeJob jobid i found) =>
      ((s.server.queue i).count ≠ 0 ∧ (s.server.queue i).RemovesInside ∧
        (s.server.queue i).givesUp s.heap jobid = some found) ∨ 0 < s.gone found
  | _ => True

instance (s : Sys N) (a : Action) : Decidable (s.TakesFound a) :=
  decidable_of_iff
    (∀ r ∈ s.removal a, ((s.server.queue r.queue).count ≠ 0 ∧
      (s.server.queue r.queue).RemovesInside ∧
      (s.server.queue r.queue).givesUp s.heap r.jobid = some r.found) ∨ 0 < s.gone r.found)
    (by unfold Sys.TakesFound Sys.removal; split <;> simp [*])

/-- The steps of a run in which every removal is of the right job and no section
touches memory that is not there. -/
def Sys.Accurate (s : Sys N) (a : Action) : Prop :=
  s.IndexOk a ∧ s.InBounds a ∧ s.TakesFound a

instance (s : Sys N) (a : Action) : Decidable (s.Accurate a) :=
  inferInstanceAs (Decidable (_ ∧ _ ∧ _))

/-- The id and the job of an `unsubmit` that has found its record. -/
def Pc.cancels : Pc N → Option (UInt16 × Ptr)
  | .unsubmitQueue jobid _ found | .removeJob jobid _ found | .markUnsubmited jobid found
  | .reply (.unsubmit jobid found) => some (jobid, found)
  | _ => none

/-- The job of an `unsubmit` that is past its removal. -/
def Pc.removed : Pc N → Option Ptr
  | .markUnsubmited _ found => some found
  | .reply (.unsubmit _ found) => some found
  | _ => none

def Event.cancels : Event N → Option (UInt16 × Ptr)
  | .replied _ (.unsubmit jobid found) _ => some (jobid, found)
  | _ => none

/-- The job of an `unsubmit` has its id, and what has been removed, or is said
to be, is gone. -/
structure Sys.Cancelled (s : Sys N) : Prop where
  named : ∀ (t : Nat) (pc : Pc N), s.threads[t]? = some pc →
    ∀ c, pc.cancels = some c → s.Numbered c.2 c.1
  threads : ∀ (t : Nat) (pc : Pc N), s.threads[t]? = some pc →
    ∀ p, pc.removed = some p → 0 < s.gone p
  log : ∀ e ∈ s.log, ∀ c, e.cancels = some c → s.Numbered c.2 c.1 ∧ 0 < s.gone c.2

theorem Pc.cancels_wake (pc : Pc N) : pc.wake.cancels = pc.cancels := by
  unfold Pc.wake
  split <;> rfl

theorem Pc.removed_wake (pc : Pc N) : pc.wake.removed = pc.removed := by
  unfold Pc.wake
  split <;> rfl

theorem Pc.Request.cancels {pc : Pc N} (h : pc.Request) : pc.cancels = none := by
  cases pc with
  | unsubmitQueue | removeJob | markUnsubmited | reply => cases h
  | _ => rfl

theorem Pc.removed_cancels {pc : Pc N} {p : Ptr} (h : pc.removed = some p) :
    ∃ jobid, pc.cancels = some (jobid, p) := by
  cases pc with
  | markUnsubmited jobid found => injection h with h; subst h; exact ⟨jobid, rfl⟩
  | reply answer =>
      cases answer with
      | unsubmit jobid found => injection h with h; subst h; exact ⟨jobid, rfl⟩
      | _ => cases h
  | _ => cases h

section Runs

variable [NeZero N]

omit [NeZero N] in
theorem removed_gone {s : Sys N} (hs : s.Sound) {i : Fin N} {jobid : UInt16} {found : Ptr}
    {rm : Queue.Removal} (hr : (s.server.queue i).removeJob s.heap jobid = .ok rm)
    (hne : (s.server.queue i).count ≠ 0)
    (hgives : (s.server.queue i).givesUp s.heap jobid = some found) :
    ((s.server.queue i).live.diff rm.queue.live).count (some found) = 1 := by
  rcases Queue.removeJob_cases (hs.queues i) hr with ⟨hzero, -⟩ | ⟨-, -, -, -, k, hk, hlive⟩
  · exact absurd hzero hne
  · have hentry := hk.eq_givesUp
    rw [hgives] at hentry
    rw [hlive, count_diff_eraseIdx hentry]

/-- A thread in `unsubmit` keeps its id and its job; it gets them from a record
that is there. -/
theorem ran_cancels {s : Sys N} (hl : s.Linked) {t : Nat} {env : Env} {pc : Pc N} {r : Result N}
    (hran : Ran s.server s.heap t env pc r) {c : UInt16 × Ptr} (hc : r.pc.cancels = some c) :
    pc.cancels = some c ∨ s.Numbered c.2 c.1 := by
  cases hran with
  | @unsubmit jobid job hwait =>
      injection hc with hc
      subst hc
      rw [History.waitingIn_eq hl.inv] at hwait
      injection hwait with hwait
      have hret := (Option.filter_eq_some_iff.mp hwait).1
      obtain ⟨hslot, hid⟩ := History.retained_eq_some.mp hret
      have hnum := numbered_of_slot hl (History.slotOf_lt jobid) hslot
      rw [hid] at hnum
      exact .inr hnum
  | unsubmitQueue | removeJob | markUnsubmited => exact .inl hc
  | jobState hop hanswer =>
      rcases hanswer with rfl | ⟨reported, rfl⟩ <;> cases hc
  | queueState hanswer =>
      rcases hanswer with rfl | ⟨reported, rfl⟩ <;> cases hc
  | @putJob caller => cases caller <;> cases hc
  | _ => cases hc

/-- It is past its removal when it was before, or has just made it. -/
theorem ran_removed {s : Sys N} (hs : s.Sound) {t : Nat} {env : Env} {pc : Pc N} {r : Result N}
    (ht : s.threads[t]? = some pc) (htakes : s.TakesFound (.run t env))
    (hran : Ran s.server s.heap t env pc r) {p : Ptr} (hp : r.pc.removed = some p) :
    pc.removed = some p ∨ 0 < (s.commit t env.pick r).gone p := by
  cases hran with
  | @removeJob jobid i found rm hr =>
      injection hp with hp
      subst hp
      right
      simp only [Sys.TakesFound, Sys.running, ht] at htakes
      simp only [Sys.gone, Sys.commit, tally_append, tally_cons, tally_nil, Event.goneJob]
      rcases htakes with ⟨hne, -, hgives⟩ | hgone
      · rw [removed_gone hs hr hne hgives]
        omega
      · exact Nat.add_pos_left hgone _
  | markUnsubmited => exact .inl hp
  | jobState hop hanswer =>
      rcases hanswer with rfl | ⟨reported, rfl⟩ <;> cases hp
  | queueState hanswer =>
      rcases hanswer with rfl | ⟨reported, rfl⟩ <;> cases hp
  | @putJob caller => cases caller <;> cases hp
  | _ => cases hp

/-- Only the last step of an `unsubmit` answers that it is done. -/
theorem ran_cancelAnswered {server : MainServer N} {heap : Heap} {t : Nat} {env : Env}
    {pc : Pc N} {r : Result N} (hran : Ran server heap t env pc r) {e : Event N}
    (he : e ∈ r.events) {c : UInt16 × Ptr} (hc : e.cancels = some c) :
    pc.cancels = some c ∧ pc.removed = some c.2 := by
  cases hran.emits he with
  | @replied answer =>
      cases answer with
      | unsubmit jobid found =>
          injection hc with hc
          subst hc
          exact ⟨rfl, rfl⟩
      | _ => cases hc
  | _ => cases hc

theorem Sys.Cancelled.step {s s' : Sys N} {a : Action} (hc : s.Cancelled) (hs : s.Sound)
    (hl : s.Linked) (htakes : s.TakesFound a) (h : s.step a = some s') : s'.Cancelled := by
  have hmono : ∀ p, 0 < s.gone p → 0 < s'.gone p := fun p hp =>
    Nat.lt_of_lt_of_le hp (tally_log_mono h _)
  obtain ⟨-, hstep⟩ := step_cases h
  refine ⟨?_, ?_, ?_⟩
  · refine threads_step hstep hc.named (fun t pc hpc c hcc => (hpc c hcc).step h)
      (fun t pc hpc c hcc => hpc c (by rwa [Pc.cancels_wake] at hcc))
      (fun t pc hpc c hcc => by rw [hpc.cancels] at hcc; cases hcc)
      (fun t c hcc => by cases hcc) ?_
    intro t env pc r _ ht hran _ c hcc
    rcases ran_cancels hl hran hcc with hcc | hnum
    · exact (hc.named t pc ht c hcc).step h
    · exact hnum.step h
  · refine threads_step hstep hc.threads (fun t pc hpc p hp => hmono p (hpc p hp))
      (fun t pc hpc p hp => hpc p (by rwa [Pc.removed_wake] at hp)) ?_
      (fun t p hp => by cases hp) ?_
    · intro t pc hpc p hp
      obtain ⟨jobid, hcc⟩ := Pc.removed_cancels hp
      rw [hpc.cancels] at hcc
      cases hcc
    · intro t env pc r ha ht hran heq p hp
      subst ha
      rcases ran_removed hs ht htakes hran hp with hp | hgone
      · exact hmono p (hc.threads t pc ht p hp)
      · rw [heq]
        exact hgone
  · refine log_step hstep hc.log
      (fun e he c hcc => ⟨(he c hcc).1.step h, hmono c.2 (he c hcc).2⟩)
      (fun t c hcc => by cases hcc) ?_
    intro t env pc r _ ht hran _ e he c hcc
    obtain ⟨hcancels, hremoved⟩ := ran_cancelAnswered hran he hcc
    exact ⟨(hc.named t pc ht c hcancels).step h, hmono c.2 (hc.threads t pc ht c.2 hremoved)⟩

theorem cancelled_of_reach {ok : Sys N → Action → Prop} {s : Sys N}
    (hle : ∀ s a, ok s a → s.Accurate a) (h : Reach Sys.step ok (· = Sys.init N) s) :
    s.Cancelled := by
  refine h.invariant ?_ fun s a s' hr hc hok h =>
    hc.step (sound_of_reach (fun s a h => (hle s a h).1) hr) (linked_of_reach hr)
      (hle s a hok).2.2 h
  intro s h
  subst h
  exact ⟨fun t pc ht => (by cases ht), fun t pc ht => (by cases ht), fun e he => (by cases he)⟩

/-! ## Refusals -/

/-- The step leaves the queues and the history as they are. -/
def Untouched (s s' : Sys N) : Prop :=
  s'.server.queue = s.server.queue ∧ s'.server.history = s.server.history

/-- A thread outside of the wait loops only moves when it is its turn. -/
theorem step_other {s s' : Sys N} {a : Action} (h : s.step a = some s') {t : Nat} {pc : Pc N}
    (ha : a.thread ≠ some t) (ht : s.threads[t]? = some pc) (hpc : pc.wake = pc) :
    s'.threads[t]? = some pc := by
  rcases (step_cases h).2.thread ht with (h | h) | ⟨hm, -⟩ | ⟨env, r, rfl, -, -⟩
  · exact h
  · rwa [hpc] at h
  · exact absurd (Action.thread_of_message hm) ha
  · exact absurd rfl ha

/-- Behind its removal, or behind its answer, an `unsubmit` does not refuse. -/
def Pc.Past : Pc N → Prop
  | .unsubmitQueue _ _ _ | .removeJob _ _ _ | .markUnsubmited _ _ | .reply (.unsubmit _ _)
  | .attendClient => True
  | _ => False

omit [NeZero N] in
theorem Pc.Past.wake {pc : Pc N} (h : pc.Past) : pc.wake = pc := by
  cases pc with
  | putJob | getJob => cases h
  | _ => rfl

theorem Pc.Past.ran {server : MainServer N} {heap : Heap} {t : Nat} {env : Env} {pc : Pc N}
    {r : Result N} (h : pc.Past) (hran : Ran server heap t env pc r) : r.pc.Past := by
  cases hran with
  | unsubmitQueue | removeJob | markUnsubmited | reply => trivial
  | _ => cases h

/-- The actions of a run that brings thread `t` no further message. -/
def Unanswered (t : Nat) (acts : List Action) : Prop := ∀ a ∈ acts, a.message ≠ some t

/-- A step of thread `t` itself, when it gets no message and does not wait. -/
theorem step_self {s s' : Sys N} {a : Action} (h : s.step a = some s') {t : Nat} {pc : Pc N}
    (hm : a.message ≠ some t) (ha : a.thread = some t) (ht : s.threads[t]? = some pc)
    (hb : pc.blockedOn = none) :
    ∃ env, a = .run t env ∧
      ((∃ r, Ran s.server s.heap t env pc r ∧ s' = s.commit t env.pick r) ∨
        ∃ fault, pc.run s.server s.heap t env = some (.error fault) ∧
          s' = { s with fault := some fault }) := by
  cases a with
  | acceptClient | acceptExecServ => cases ha
  | receive i pkg blank => exact absurd ha hm
  | hangup i => exact absurd ha hm
  | run i env =>
      injection ha with ha
      subst ha
      exact ⟨env, rfl, step_run h ht⟩
  | wakeup i =>
      injection ha with ha
      subst ha
      unfold Sys.step at h
      split at h
      · dsimp only [Sys.wakeup] at h
        rw [ht, Option.bind_some, hb] at h
        cases h
      · cases h

/-- A run of all kinds of steps. -/
def Leads (s : Sys N) (acts : List Action) (s' : Sys N) : Prop :=
  checkedRun Sys.step anyStep s acts = some s'

theorem leads_cons {s s' : Sys N} {a : Action} {rest : List Action} :
    Leads s (a :: rest) s' ↔ ∃ s₁, s.step a = some s₁ ∧ Leads s₁ rest s' :=
  checkedRun_cons.trans (and_iff_right trivial)

/-- A thread that is past refusing stays so until it gets a message. -/
theorem past_run {t : Nat} {acts : List Action} : ∀ {s s' : Sys N} {pc : Pc N},
    Unanswered t acts → Leads s acts s' → s.threads[t]? = some pc → pc.Past →
      ∃ pc', s'.threads[t]? = some pc' ∧ pc'.Past := by
  induction acts with
  | nil =>
      intro s s' pc _ h ht hpc
      injection h with h
      exact ⟨pc, h ▸ ht, hpc⟩
  | cons a rest ih =>
      intro s s' pc hun h ht hpc
      obtain ⟨s₁, hstep, h⟩ := leads_cons.mp h
      have hun' : Unanswered t rest := fun a ha => hun a (List.mem_cons_of_mem _ ha)
      by_cases ha : a.thread = some t
      · have hb : pc.blockedOn = none := by
          cases pc with
          | putJob | getJob => cases hpc
          | _ => rfl
        obtain ⟨env, -, ⟨r, hran, rfl⟩ | ⟨fault, -, rfl⟩⟩ :=
          step_self hstep (hun a List.mem_cons_self) ha ht hb
        · have hpast := hpc.ran hran
          rcases commit_self ht env.pick r with hself | hself
          · exact ih hun' h hself hpast
          · rw [hpast.wake] at hself
            exact ih hun' h hself hpast
        · exact ih hun' h ht hpc
      · exact ih hun' h (step_other hstep ha ht hpc.wake) hpc

/-- From the start of an `unsubmit` to its refusal, the thread itself changes
neither a queue nor a record. -/
theorem refused_run {t : Nat} {acts : List Action} : ∀ {s s' : Sys N} {pc : Pc N},
    Unanswered t acts → Leads s acts s' → s.threads[t]? = some pc →
      ((∃ jobid, pc = .unsubmit jobid) ∨ pc = .reply .badParams) →
      s'.threads[t]? = some (.reply .badParams) →
      ∀ pre env post s₁ s₂, acts = pre ++ .run t env :: post → Leads s pre s₁ →
        s₁.step (.run t env) = some s₂ → Untouched s₁ s₂ := by
  induction acts with
  | nil =>
      intro s s' pc _ _ _ _ _ pre env post s₁ s₂ hacts
      exact absurd hacts.symm (List.append_ne_nil_of_right_ne_nil _ (List.cons_ne_nil _ _))
  | cons a rest ih =>
      intro s s' pc hun h ht hpc hend pre env post s₁ s₂ hacts hpre hstep
      obtain ⟨s₃, hstep₃, h⟩ := leads_cons.mp h
      have hun' : Unanswered t rest := fun a ha => hun a (List.mem_cons_of_mem _ ha)
      have hwake : pc.wake = pc := by rcases hpc with ⟨jobid, rfl⟩ | rfl <;> rfl
      have hb : pc.blockedOn = none := by rcases hpc with ⟨jobid, rfl⟩ | rfl <;> rfl
      -- A thread that is past refusing here cannot refuse in the end.
      have hnot : ∀ {pc' : Pc N}, s₃.threads[t]? = some pc' → ¬ pc'.Past := by
        intro pc' ht₃ hpast
        obtain ⟨pc'', ht'', hpast''⟩ := past_run hun' h ht₃ hpast
        rw [hend] at ht''
        injection ht'' with ht''
        subst ht''
        exact hpast''
      have hnext : ∃ pc' : Pc N, s₃.threads[t]? = some pc' ∧
          ((∃ jobid, pc' = .unsubmit jobid) ∨ pc' = .reply .badParams) ∧
          (a.thread = some t → Untouched s s₃) := by
        by_cases ha : a.thread = some t
        · obtain ⟨env₀, -, ⟨r, hran, heq⟩ | ⟨fault, -, heq⟩⟩ :=
            step_self hstep₃ (hun a List.mem_cons_self) ha ht hb
          · have hself := commit_self ht env₀.pick r
            rw [← heq] at hself
            rcases hpc with ⟨jobid, rfl⟩ | rfl
            · cases hran with
              | unsubmit => exact absurd trivial (hnot (hself.elim id id))
              | unsubmitRefused =>
                  exact ⟨_, hself.elim id id, .inr rfl, fun _ => by rw [heq]; exact ⟨rfl, rfl⟩⟩
            · cases hran with
              | reply => exact absurd trivial (hnot (hself.elim id id))
          · exact ⟨pc, by rw [heq]; exact ht, hpc, fun _ => by rw [heq]; exact ⟨rfl, rfl⟩⟩
        · exact ⟨pc, step_other hstep₃ ha ht hwake, hpc, fun h => absurd h ha⟩
      obtain ⟨pc', ht₃, hpc', huntouched⟩ := hnext
      cases pre with
      | nil =>
          injection hacts with hacts
          injection hpre with hpre
          subst hacts hpre
          rw [hstep₃] at hstep
          injection hstep with hstep
          exact hstep ▸ huntouched rfl
      | cons b pre =>
          injection hacts with hab hacts
          subst hab
          obtain ⟨s₄, hs₄, hpre⟩ := leads_cons.mp hpre
          rw [hstep₃] at hs₄
          injection hs₄ with hs₄
          subst hs₄
          exact ih hun' h ht₃ hpc' hend pre env post s₁ s₂ hacts hpre hstep

/-- In a run in which every removal takes out the job its `unsubmit` found, an
answered cancellation is final: the job has not been sent, and is not in any
later state either. In every run, a cancellation that is refused has changed
neither a queue nor a record. -/
theorem answered_unsubmit_is_final :
    (∀ s : Sys N, Reach Sys.step Sys.Accurate (· = Sys.init N) s →
      ∀ t jobid found wire, .replied t (.unsubmit jobid found) wire ∈ s.log →
        s.Numbered found jobid ∧ s.sent found = 0) ∧
    (∀ s : Sys N, Reach Sys.step anyStep (· = Sys.init N) s →
      ∀ t jobid, s.threads[t]? = some (.unsubmit jobid) →
      ∀ acts s', Unanswered t acts → Leads s acts s' →
        s'.threads[t]? = some (.reply .badParams) →
        (∀ env s'', s'.step (.run t env) = some s'' → Untouched s' s'') ∧
        ∀ pre env post s₁ s₂, acts = pre ++ .run t env :: post → Leads s pre s₁ →
          s₁.step (.run t env) = some s₂ → Untouched s₁ s₂) := by
  refine ⟨fun s h t jobid found wire he => ?_,
    fun s h t jobid ht acts s' hun hleads hend => ⟨?_, ?_⟩⟩
  · have hs := sound_of_reach (fun _ _ h => h.1) h
    have hc := cancelled_of_reach (fun _ _ h => h) h
    obtain ⟨hnum, hgone⟩ := hc.log _ he (jobid, found) rfl
    have hgone : 0 < s.gone found := hgone
    obtain ⟨-, hsum⟩ := hs.lt_of_placed (p := found) (by omega)
    exact ⟨hnum, by omega⟩
  · intro env s'' hstep
    rcases step_run hstep hend with ⟨r, hran, rfl⟩ | ⟨fault, -, rfl⟩
    · cases hran with
      | reply => exact ⟨rfl, rfl⟩
    · exact ⟨rfl, rfl⟩
  · exact refused_run hun hleads ht (.inl ⟨jobid, rfl⟩) hend

end Runs

/-! ## Two runs -/

/-- A queued job is cancelled, and once more. -/
def answeredRun : List Action :=
  [.acceptClient, .submit 0, .go 0, .go 0, .go 0, .go 0, .cancel 0 0, .go 0, .go 0, .go 0,
    .go 0, .go 0, .cancel 0 0]

theorem answered_unsubmit_is_final_queued :
    ∃ s s' : Sys numQueueMax, Reach Sys.step Sys.Accurate (· = Sys.init numQueueMax) s ∧
      .replied 0 (.unsubmit 0 0) (setUnsubmit (Msg.fill 0) 0).wire ∈ s.log ∧
      (s.Numbered 0 0 ∧ s.sent 0 = 0) ∧ s.step (.go 0) = some s' ∧
      s'.threads[0]? = some (.reply .badParams) ∧ Untouched s s' := by
  obtain ⟨s, hr, he, ht, s', hstep, hend⟩ :
      ∃ s, Reach Sys.step Sys.Accurate (· = Sys.init numQueueMax) s ∧
        .replied 0 (.unsubmit 0 0) (setUnsubmit (Msg.fill 0) 0).wire ∈ s.log ∧
        s.threads[0]? = some (.unsubmit 0) ∧
        ∃ s' ∈ s.step (.go 0), s'.threads[0]? = some (.reply .badParams) :=
    @reach_of_checkedRun _ _ _ _ _ _ answeredRun _ _ _ rfl (by decide +kernel)
  have hstep : s.step (.go 0) = some s' := hstep
  have hun : Unanswered 0 [Action.go 0] := by simp [Unanswered, Action.go, Action.message]
  have hleads : Leads s [.go 0] s' := leads_cons.mpr ⟨s', hstep, rfl⟩
  obtain ⟨hfinal, hrefused⟩ := answered_unsubmit_is_final (N := numQueueMax)
  have hany := hr.mono fun _ _ _ => trivial
  exact ⟨s, s', hr, he, hfinal s hr 0 0 0 _ he, hstep, hend,
    (hrefused s hany 0 0 ht [.go 0] s' hun hleads hend).2 [] _ [] s s' rfl rfl hstep⟩

/-- A job that a `sendJob` has already taken is cancelled, the cancellation is
answered, and the job is sent. -/
def sentRun : List Action :=
  [.acceptClient, .acceptExecServ, .submit 0, .go 0, .go 0, .go 0, .go 0,
    .request 1, .go 1, .go 1, .cancel 0 0, .go 0, .go 0, .go 0, .go 0, .go 0, .go 1, .go 1]

theorem answered_unsubmit_is_sent :
    ∃ s : Sys numQueueMax, Reach Sys.step anyStep (· = Sys.init numQueueMax) s ∧ s.Bounded ∧
      s.fault = none ∧ s.Numbered 0 0 ∧
      .replied 0 (.unsubmit 0 0) (setUnsubmit (Msg.fill 0) 0).wire ∈ s.log ∧ s.sent 0 = 1 := by
  obtain ⟨s, hr, hb, hfault, he, hsent, hst⟩ :
      ∃ s, Reach Sys.step anyStep (· = Sys.init numQueueMax) s ∧ s.Bounded ∧ s.fault = none ∧
        .replied 0 (.unsubmit 0 0) (setUnsubmit (Msg.fill 0) 0).wire ∈ s.log ∧ s.sent 0 = 1 ∧
        (s.heap.contents 0).map Job.id = some 0 :=
    @reach_of_checkedRun _ _ _ _ _ _ sentRun _ _ _ rfl (by decide +kernel)
  have hs := sound_of_reach (fun _ _ h => h.1) (reach_indexOk hr hb)
  obtain ⟨job, hcont, hnum⟩ := (ids_of_reach hr).stamped 0 (stamped_of_placed hs (by omega))
  rw [hcont] at hst
  injection hst with hid
  exact ⟨s, hr, hb, hfault, hid ▸ hnum, he, hsent⟩

end DistQueue
