import DistQueue.Server.Identity

/-!
# Where a step can go wrong

With queues that are straight and no job freed while somebody has it, three
places are left in which a section touches memory that is not there: the loops
of `removeJob`, the unchecked index at the end of `unsubmit`, and `putJobBack`
looking up a job that it has already given away.
-/

namespace DistQueue

open DistQueue.Lib

variable {N : Nat} [NeZero N]

/-! ## Queue numbers -/

/-- The queue numbers a thread carries are numbers of queues. -/
def Pc.InRange : Pc N → Prop
  | .numberJob _ queueIdx => queueIdx.toNat < N
  | .putJob (.putJobBack queueIdx) _ _ _ | .relabel queueIdx _ => queueIdx < N
  | .unsubmitQueue _ qIdx _ => qIdx.toNat < N
  | _ => True

/-- So are the ones in the records. -/
def History.InRange (h : History) (n : Nat) : Prop :=
  ∀ c job, h.slot c = some job → job.queueIdx.toNat < n

structure Sys.InRange (s : Sys N) : Prop where
  history : s.server.history.InRange N
  threads : ∀ (t : Nat) (pc : Pc N), s.threads[t]? = some pc → pc.InRange

omit [NeZero N] in
theorem Pc.InRange.wake {pc : Pc N} (h : pc.InRange) : pc.wake.InRange := by
  unfold Pc.wake
  split
  · next caller _ _ => cases caller <;> exact h
  · trivial
  · exact h

omit [NeZero N] in
theorem Pc.Request.inRange {pc : Pc N} (h : pc.Request) : pc.InRange := by
  cases pc with
  | numberJob | putJob | relabel | unsubmitQueue => cases h
  | _ => trivial

/-- An operation whose queue number is one writes no other into a record. -/
theorem History.InRange.apply {h h' : History} {n k : Nat} (hinv : h.Inv k) (hr : h.InRange n)
    {op : HistOp} (hop : h.apply op = .ok h')
    (hnew : ∀ blank queueIdx ipaddr, op = .newJob blank queueIdx ipaddr → queueIdx.toNat < n)
    (hback : ∀ jobid queueIdx, op = .putJobBack jobid queueIdx → queueIdx.toNat < n) :
    h'.InRange n := by
  intro c job hjob
  rw [apply_slot hinv hop c] at hjob
  cases op with
  | newJob blank queueIdx ipaddr =>
      rw [slotAfter] at hjob
      split at hjob
      · injection hjob with hjob
        subst hjob
        have hlt := hnew blank queueIdx ipaddr rfl
        show queueIdx.toUInt8.toNat < n
        rw [UInt16.toNat_toUInt8]
        exact Nat.lt_of_le_of_lt (Nat.mod_le ..) hlt
      · exact hr c job hjob
  | putJobBack jobid queueIdx =>
      obtain ⟨old, hold, rfl⟩ := Option.map_eq_some_iff.mp hjob
      have hlt := hback jobid queueIdx rfl
      simp only [JobHistory.after]
      split
      · exact hlt
      · exact hr c old hold
  | unsubmit | changeStateJob =>
      obtain ⟨old, hold, rfl⟩ := Option.map_eq_some_iff.mp hjob
      simp only [JobHistory.after]
      split <;> exact hr c old hold
  | jobState =>
      obtain ⟨old, hold, rfl⟩ := Option.map_eq_some_iff.mp hjob
      exact hr c old hold

theorem inRange_step {s s' : Sys N} {a : Action} (hr : s.InRange) (hl : s.Linked)
    (h : s.step a = some s') : s'.InRange where
  history := by
    rcases step_ops h with ⟨-, hhist⟩ | ⟨t, env, pc, r, op, -, ht, hran, rfl, hevents, -, hop⟩
    · rw [hhist]
      exact hr.history
    · have hpc := hr.threads t pc ht
      refine hr.history.apply hl.inv hop ?_ ?_
      · rintro blank queueIdx ipaddr rfl
        cases hran with
        | numberJob =>
            injection hevents with hevents
            injection hevents with _ hevents
            injection hevents with _ hq
            exact hq ▸ hpc
        | submittedResponse | reply => dsimp only at hevents; split at hevents <;> cases hevents
        | _ => cases hevents
      · rintro jobid queueIdx rfl
        cases hran with
        | @relabelLost i | @relabel i =>
            injection hevents with hevents
            injection hevents with _ hevents
            injection hevents with _ hq
            rw [← hq, UInt8.toNat_ofNat']
            exact Nat.lt_of_le_of_lt (Nat.mod_le ..) hpc
        | submittedResponse | reply => dsimp only at hevents; split at hevents <;> cases hevents
        | _ => cases hevents
  threads := by
    have hmod : ∀ x, x % N < N := fun x => Nat.mod_lt _ (Nat.pos_of_neZero N)
    refine threads_step (step_cases h).2 hr.threads (fun _ _ h => h) (fun _ _ h => h.wake)
      (fun _ _ h => h.inRange) (fun _ => trivial) ?_
    intro t env pc r _ ht hran _
    have hpc := hr.threads t pc ht
    cases hran with
    | newJob =>
        show (UInt16.ofNat _).toNat < N
        rw [UInt16.toNat_ofNat']
        exact Nat.lt_of_le_of_lt (Nat.mod_le ..) (hmod _)
    | putJobBack => exact hmod _
    | @putJobWait caller => cases caller with
      | newJob => trivial
      | putJobBack i => exact hpc
    | @putJob caller => cases caller with
      | newJob => trivial
      | putJobBack i => exact hpc
    | @unsubmit jobid job hwait =>
        rw [History.waitingIn_eq hl.inv] at hwait
        injection hwait with hwait
        have hret := (Option.filter_eq_some_iff.mp hwait).1
        exact hr.history _ job (History.retained_eq_some.mp hret).1
    | _ => trivial

theorem inRange_of_reach {ok : Sys N → Action → Prop} {s : Sys N}
    (h : Reach Sys.step ok (· = Sys.init N) s) : s.InRange :=
  h.invariant
    (fun _ h => by
      subst h
      refine ⟨fun c job hjob => ?_, fun t pc ht => by cases ht⟩
      cases (History.slot_init c).symm.trans hjob)
    fun _ _ _ hreach hr _ h => inRange_step hr (linked_of_reach hreach) h

/-! ## The three places -/

/-- `removeJob` stays inside its array. -/
def Queue.RemovesInside (q : Queue) : Prop := q.count = 0 ∨ Queue.slot q.putIdx ≠ 0

instance (q : Queue) : Decidable q.RemovesInside := inferInstanceAs (Decidable (_ ∨ _))

/-- The end of an `unsubmit` still has a record to write to. -/
def Sys.MarksFound (s : Sys N) (a : Action) : Prop :=
  match s.running a with
  | some (.markUnsubmited jobid _) => s.server.history.findJob jobid ≠ none
  | _ => True

instance (s : Sys N) (a : Action) : Decidable (s.MarksFound a) :=
  decidable_of_iff
    ((match s.running a with
      | some (.markUnsubmited jobid _) => decide (s.server.history.findJob jobid ≠ none)
      | _ => true) = true)
    (by unfold Sys.MarksFound; split <;> simp)

/-- `removeJob` has a result. -/
def Sys.RemovesInside (s : Sys N) (a : Action) : Prop :=
  match s.running a with
  | some (.removeJob _ i _) => (s.server.queue i).RemovesInside
  | _ => True

instance (s : Sys N) (a : Action) : Decidable (s.RemovesInside a) :=
  decidable_of_iff (∀ r ∈ s.removal a, (s.server.queue r.queue).RemovesInside)
    (by unfold Sys.RemovesInside Sys.removal; split <;> simp [*])

/-- None of the three goes wrong: the step touches no memory that is not
there. -/
def Sys.InBounds (s : Sys N) (a : Action) : Prop :=
  s.RecordKept a ∧ s.RemovesInside a ∧ s.MarksFound a

instance (s : Sys N) (a : Action) : Decidable (s.InBounds a) :=
  inferInstanceAs (Decidable (_ ∧ _ ∧ _))

section Error

variable {server : MainServer N} {heap : Heap} {t : Nat} {env : Env}

theorem bind_error {ε α β : Type*} {x : Except ε α} {f : α → Except ε β} {e : ε}
    (h : x.bind f = .error e) : x = .error e ∨ ∃ a, x = .ok a ∧ f a = .error e := by
  cases x with
  | error e' => injection h with h; exact .inl (by rw [h])
  | ok a => exact .inr ⟨a, rfl, h⟩

theorem deref_error {heap : Heap} {p : Ptr} {fault : Fault} (h : heap.deref p = .error fault) :
    fault = .invalidAccess ∧ heap.load p = none := by
  rw [Heap.deref] at h
  split at h
  · cases h
  · next hload =>
      cases h
      exact ⟨rfl, hload⟩

/-- What has to be wrong for a section to have no result. -/
inductive Faulty (server : MainServer N) (heap : Heap) : Pc N → Fault → Prop
  | lost {pc : Pc N} {p : Ptr} (hholds : 0 < pc.holds p) (hload : heap.load p = none) :
      Faulty server heap pc .invalidAccess
  | removeJob {jobid : UInt16} {i : Fin N} {found : Ptr} {fault : Fault}
      (hr : (server.queue i).removeJob heap jobid = .error fault) :
      Faulty server heap (.removeJob jobid i found) fault
  | markUnsubmited {jobid : UInt16} {found : Ptr}
      (hfind : server.history.findJob jobid = none) :
      Faulty server heap (.markUnsubmited jobid found) .invalidAccess
  | getJob {i : Fin N} {wait : Wait} {q : Queue}
      (hget : (server.queue i).getJob = some (none, q)) :
      Faulty server heap (.getJob i wait) .invalidAccess
  | relabel {queueIdx : Nat} {job : Ptr} (hload : heap.load job = none) :
      Faulty server heap (.relabel queueIdx job) .invalidAccess
  | changeStateJob {jobid : UInt16} {state exitValue : UInt8}
      (hstate : ¬ History.Reportable state) (hfind : server.history.findJob jobid ≠ none) :
      Faulty server heap (.changeStateJob jobid state exitValue) .assertion

omit [NeZero N] in
theorem Faulty.of_deref {pc : Pc N} {p : Ptr} {fault : Fault} (hholds : 0 < pc.holds p)
    (h : heap.deref p = .error fault) : Faulty server heap pc fault := by
  obtain ⟨rfl, hload⟩ := deref_error h
  exact .lost hholds hload

theorem run_faulty {n : Nat} (hinv : server.history.Inv n) {pc : Pc N} (hpc : pc.InRange)
    {fault : Fault} (h : pc.run server heap t env = some (.error fault)) :
    Faulty server heap pc fault := by
  cases pc with
  | attendClient | attendExecServ | closed => cases h
  | newJob | queueState | reply | sendJob | checkServerStatus | putJobBack =>
      injection h with h; cases h
  | putJob caller i job wait =>
      cases wait with
      | blocked => cases h
      | _ => injection h with h; cases h
  | numberJob job | submittedResponse job =>
      injection h with h
      rcases bind_error h with h | ⟨contents, -, h⟩
      · refine .of_deref (p := job) ?_ h
        simp [Pc.holds, Pc.inNewJob, one]
      · cases h
  | sendMsg job =>
      injection h with h
      rcases bind_error h with h | ⟨contents, -, h⟩
      · refine .of_deref (p := job) ?_ h
        simp [Pc.holds, Pc.inSendJob, one]
      · cases h
  | jobState jobid =>
      injection h with h
      rcases bind_error h with h | ⟨answer, -, h⟩
      · rw [History.jobState_eq hinv] at h; cases h
      · cases h
  | unsubmit jobid =>
      injection h with h
      rcases bind_error h with h | ⟨job, -, h⟩
      · rw [History.waitingIn_eq hinv] at h; cases h
      · cases h
  | unsubmitQueue jobid qIdx found =>
      injection h with h
      rw [unsubmitQueueSection, dif_pos (show qIdx.toNat < N from hpc)] at h
      cases h
  | removeJob jobid i found =>
      injection h with h
      rcases bind_error h with h | ⟨rm, -, h⟩
      · exact .removeJob h
      · cases h
  | markUnsubmited jobid found =>
      injection h with h
      rcases bind_error h with h | ⟨history, -, h⟩
      · rw [History.markUnsubmited_eq hinv] at h
        cases hret : server.history.retained jobid with
        | none =>
            rw [hret] at h
            cases h
            refine .markUnsubmited ?_
            rw [History.findJob_eq hinv, hret]
            rfl
        | some job => rw [hret] at h; cases h
      · cases h
  | getJob i wait =>
      cases wait with
      | blocked => cases h
      | _ =>
          injection h with h
          rw [getJobSection] at h
          split at h
          · cases h
          · next q hget =>
              cases h
              exact .getJob hget
          · cases h
  | relabel queueIdx job =>
      injection h with h
      rcases bind_error h with h | ⟨contents, -, h⟩
      · obtain ⟨rfl, hload⟩ := deref_error h
        exact .relabel hload
      · rcases bind_error h with h | ⟨history, -, h⟩
        · rw [History.putJobBack_eq hinv] at h; cases h
        · cases h
  | changeStateJob jobid state exitValue =>
      injection h with h
      rcases bind_error h with h | ⟨history, -, h⟩
      · rw [History.changeStateJob_eq hinv] at h
        cases hret : server.history.retained jobid with
        | none => rw [hret] at h; cases h
        | some job =>
            simp only [hret] at h
            split at h
            · cases h
            · next hnot =>
                cases h
                refine .changeStateJob hnot ?_
                rw [History.findJob_eq hinv, hret]
                exact fun h => by cases h
      · cases h

/-- The `assert` aside, a run of steps that avoid the three places does not
fault. -/
theorem no_fault_of_reach {ok : Sys N → Action → Prop} {s : Sys N}
    (hle : ∀ s a, ok s a → s.IndexOk a ∧ s.InBounds a)
    (h : Reach Sys.step ok (· = Sys.init N) s) : s.fault ≠ some .invalidAccess := by
  refine h.invariant (I := fun s => s.fault ≠ some .invalidAccess) ?_ ?_
  · intro s h
    subst h
    exact fun h => by cases h
  intro s a s' hr _ hok hstep
  obtain ⟨-, hkept, hinside, hfound⟩ := hle s a hok
  have hs := sound_of_reach (fun s a h => (hle s a h).1) hr
  have hf := freedGone_of_reach (fun s a h => ⟨(hle s a h).1, (hle s a h).2.1⟩) hr
  have hl := linked_of_reach hr
  obtain ⟨hnone, hcases⟩ := step_cases hstep
  have hne : s.fault ≠ some .invalidAccess := by rw [hnone]; exact fun h => by cases h
  cases hcases with
  | @faulted t env pc fault ht hrun =>
      intro hfault
      injection hfault with hfault
      subst hfault
      cases run_faulty hl.inv ((inRange_of_reach hr).threads t pc ht) hrun with
      | lost hholds hload =>
          obtain ⟨job, hjob⟩ := load_of_holds hs hf ht hholds
          rw [hload] at hjob
          cases hjob
      | @removeJob jobid i found _ hrm =>
          simp only [Sys.RemovesInside, Sys.running, ht] at hinside
          obtain ⟨rm, hok⟩ := Queue.removeJob_ok (hs.queues i).1 hinside
            fun x hx => load_of_live hs hf hx
          rw [hrm] at hok
          cases hok
      | markUnsubmited hfind =>
          simp only [Sys.MarksFound, Sys.running, ht, hfind] at hfound
          exact hfound rfl
      | @getJob i wait q hget =>
          obtain ⟨hlive, -⟩ := Queue.getJob_live (hs.queues i) hget
          obtain ⟨p, hp⟩ := hs.live i none (by rw [hlive]; exact List.mem_cons_self)
          cases hp
      | relabel hload => simp only [Sys.RecordKept, Sys.running, ht, hload] at hkept
  | ran => exact fun h => by cases h
  | _ => exact hne

end Error

/-! ## The `assert` -/

/-- A report that finds its record has one of the four states. -/
def Sys.ReportsKnown (s : Sys N) (a : Action) : Prop :=
  match s.running a with
  | some (.changeStateJob jobid state _) =>
      History.Reportable state ∨ s.server.history.findJob jobid = none
  | _ => True

instance (s : Sys N) (a : Action) : Decidable (s.ReportsKnown a) :=
  decidable_of_iff
    ((match s.running a with
      | some (.changeStateJob jobid state _) =>
          decide (History.Reportable state ∨ s.server.history.findJob jobid = none)
      | _ => true) = true)
    (by unfold Sys.ReportsKnown; split <;> simp)

/-- The steps that have a defined result. -/
def Sys.Defined (s : Sys N) (a : Action) : Prop :=
  s.IndexOk a ∧ s.RecordKept a ∧ s.RemovesInside a ∧ s.MarksFound a ∧ s.ReportsKnown a

instance (s : Sys N) (a : Action) : Decidable (s.Defined a) :=
  inferInstanceAs (Decidable (_ ∧ _ ∧ _ ∧ _ ∧ _))

section Assert

theorem search_ne_assertion {jobs : Vector (Option Ptr) maxJobsQueue} {heap : Heap}
    {jobid : UInt16} : ∀ {n idx : Nat}, Queue.search jobs heap jobid n idx ≠ .error .assertion := by
  intro n
  induction n with
  | zero => exact fun h => by cases h
  | succ n ih =>
      intro idx h
      rw [Queue.search] at h
      split at h
      · split at h
        · cases h
        · split at h
          · cases h
          · exact ih h
      · cases h

theorem shift_ne_assertion {n : Nat} : ∀ {idx : Nat} {jobs : Vector (Option Ptr) maxJobsQueue},
    Queue.shift jobs n idx ≠ .error .assertion := by
  induction n with
  | zero => exact fun h => by cases h
  | succ n ih =>
      intro idx jobs h
      rw [Queue.shift] at h
      split at h
      · exact ih h
      · cases h

theorem removeJob_ne_assertion {q : Queue} {heap : Heap} {jobid : UInt16} :
    q.removeJob heap jobid ≠ .error .assertion := by
  intro h
  unfold Queue.removeJob at h
  split at h
  · cases h
  · rcases bind_error h with h | ⟨⟨idx, freed⟩, -, h⟩
    · exact search_ne_assertion h
    · rcases bind_error h with h | ⟨jobs, -, h⟩
      · exact shift_ne_assertion h
      · cases h

theorem fault_none_of_reach {s : Sys N}
    (h : Reach Sys.step Sys.Defined (· = Sys.init N) s) : s.fault = none := by
  have hle : ∀ (s : Sys N) (a : Action), s.Defined a → s.IndexOk a ∧ s.InBounds a :=
    fun s a hok => ⟨hok.1, hok.2.1, hok.2.2.1, hok.2.2.2.1⟩
  refine h.invariant (I := fun s => s.fault = none) (fun s h => by rw [h]; rfl) ?_
  intro s a s' hr hnone hok hstep
  have haccess := no_fault_of_reach hle (.step hr hok hstep)
  cases (step_cases hstep).2 with
  | @faulted t env pc fault ht hrun =>
      cases fault with
      | invalidAccess => exact absurd rfl haccess
      | assertion =>
          cases run_faulty (linked_of_reach hr).inv ((inRange_of_reach hr).threads t pc ht) hrun with
          | removeJob hrm => exact absurd hrm removeJob_ne_assertion
          | changeStateJob hnot hfind =>
              have hknown := hok.2.2.2.2
              simp only [Sys.ReportsKnown, Sys.running, ht] at hknown
              rcases hknown with hknown | hknown
              · exact absurd hknown hnot
              · exact absurd hknown hfind
  | ran => rfl
  | _ => exact hnone

end Assert

end DistQueue
