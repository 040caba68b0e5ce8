import DistQueue.Server.HistorySpec
import Mathlib.Data.List.Induction

/-!
# The history as a status map

A run of the locked sections is read off the list of operations: what a slot
holds is the latest submission that was stored there, changed by the
operations that named its id since. Nothing here depends on how often the
16-bit id has wrapped.
-/

namespace DistQueue

namespace History

/-! ## The latest submission of a slot -/

/-- In `ops` the submission between `pre` and `post` is the latest one to be
stored at slot `c`. -/
structure Latest (ops : List HistOp) (c : Nat) (pre : List HistOp) (jobHistory : JobHistory)
    (queueIdx : UInt16) (ipaddr : UInt32) (post : List HistOp) : Prop where
  split : ops = pre ++ .newJob jobHistory queueIdx ipaddr :: post
  here : slotOf (idOf (submissions pre)) = c
  last : ∀ mid jobHistory' queueIdx' ipaddr' post',
    post = mid ++ .newJob jobHistory' queueIdx' ipaddr' :: post' →
      slotOf (idOf (submissions (pre ++ .newJob jobHistory queueIdx ipaddr :: mid))) ≠ c

/-- Operation `op`, coming behind `ops`, is a submission stored at slot `c`. -/
def Stores (ops : List HistOp) (c : Nat) (op : HistOp) : Prop :=
  ∃ jobHistory queueIdx ipaddr, op = .newJob jobHistory queueIdx ipaddr ∧
    slotOf (idOf (submissions ops)) = c

theorem submissions_append (ops ops' : List HistOp) :
    submissions (ops ++ ops') = submissions ops + submissions ops' := List.countP_append

section Latest

variable {ops pre post : List HistOp} {op : HistOp} {c : Nat} {jobHistory : JobHistory}
  {queueIdx : UInt16} {ipaddr : UInt32}

theorem Latest.append (h : Latest ops c pre jobHistory queueIdx ipaddr post)
    (hop : ¬ Stores ops c op) :
    Latest (ops ++ [op]) c pre jobHistory queueIdx ipaddr (post ++ [op]) := by
  refine ⟨by rw [h.split]; simp, h.here, fun mid r q a post' hpost => ?_⟩
  rcases List.eq_nil_or_concat post' with rfl | ⟨post'', op', rfl⟩
  · -- The later submission is `op` itself.
    obtain ⟨rfl, hlast⟩ := List.append_inj' hpost rfl
    injection hlast with hlast
    rw [← h.split]
    exact fun hc => hop ⟨r, q, a, hlast, hc⟩
  · have hpost' : post ++ [op] = (mid ++ .newJob r q a :: post'') ++ [op'] := by
      rw [hpost]; simp
    obtain ⟨hpost', -⟩ := List.append_inj' hpost' rfl
    exact h.last mid r q a post'' hpost'

theorem latest_self (hc : slotOf (idOf (submissions ops)) = c) :
    Latest (ops ++ [.newJob jobHistory queueIdx ipaddr]) c ops jobHistory queueIdx ipaddr [] :=
  ⟨rfl, hc, fun mid _ _ _ _ h => by simp at h⟩

/-- One more operation either is the latest submission to be stored at `c` or
comes behind it. -/
theorem Latest.cases_append
    (h : Latest (ops ++ [op]) c pre jobHistory queueIdx ipaddr post) :
    (pre = ops ∧ op = .newJob jobHistory queueIdx ipaddr ∧ post = [] ∧ Stores ops c op) ∨
      (¬ Stores ops c op ∧
        ∃ post', post = post' ++ [op] ∧ Latest ops c pre jobHistory queueIdx ipaddr post') := by
  rcases List.eq_nil_or_concat post with rfl | ⟨post', op', rfl⟩
  · left
    obtain ⟨rfl, hop⟩ := List.append_inj' h.split rfl
    injection hop with hop
    exact ⟨rfl, hop, rfl, _, _, _, hop, h.here⟩
  · right
    have hsplit : ops ++ [op] =
        (pre ++ .newJob jobHistory queueIdx ipaddr :: post') ++ [op'] := by
      rw [h.split]; simp
    obtain ⟨hops, hop⟩ := List.append_inj' hsplit rfl
    injection hop with hop
    subst hop
    refine ⟨?_, post', by simp, hops, h.here, fun mid r q a post'' hpost => ?_⟩
    · rintro ⟨r, q, a, rfl, hc⟩
      refine h.last post' r q a [] (by simp) ?_
      rw [← hops, hc]
    · exact h.last mid r q a (post'' ++ [op]) (by rw [hpost]; simp)

end Latest

/-- The record of a submission, as the operations `post` behind it leave it. -/
def recordAfter (pre : List HistOp) (jobHistory : JobHistory) (queueIdx : UInt16)
    (ipaddr : UInt32) (post : List HistOp) : JobHistory :=
  post.foldl JobHistory.after
    { setParamsNewJobHistory jobHistory queueIdx ipaddr with id := idOf (submissions pre) }

/-- What a run has made of the array: slot `c` holds the latest submission that
was stored there, changed by what came behind it. -/
theorem run_slot {ops : List HistOp} : ∀ {h : History}, run ops = .ok h →
    h.Inv (submissions ops) ∧ ∀ c < jobHistoryMax,
      (∀ pre r q a post, Latest ops c pre r q a post →
        h.slot c = some (recordAfter pre r q a post)) ∧
      (∀ job, h.slot c = some job → ∃ pre r q a post, Latest ops c pre r q a post) := by
  induction ops using List.reverseRecOn with
  | nil =>
      intro h hrun
      injection hrun with hrun
      subst hrun
      refine ⟨inv_init, fun c hc => ⟨fun pre r q a post hl => ?_, fun job hjob => ?_⟩⟩
      · have := hl.split
        simp at this
      · rw [(inv_init.filled c hc).mpr (Nat.zero_le c)] at hjob
        cases hjob
  | append_singleton ops op ih =>
      intro h' hrun
      rw [run_append] at hrun
      cases hops : run ops with
      | error e => rw [hops] at hrun; cases hrun
      | ok h =>
          rw [hops] at hrun
          have hop : h.apply op = .ok h' := hrun
          obtain ⟨hinv, hslots⟩ := ih hops
          rw [submissions_append]
          refine ⟨apply_inv hinv hop, fun c hc => ?_⟩
          obtain ⟨hlatest, hex⟩ := hslots c hc
          have hafter := apply_slot hinv hop c
          by_cases hst : Stores ops c op
          · obtain ⟨r, q, a, rfl, hcn⟩ := hst
            rw [slotAfter, if_pos hcn.symm] at hafter
            refine ⟨fun pre r' q' a' post hl => ?_, fun _ _ =>
              ⟨ops, r, q, a, [], latest_self hcn⟩⟩
            rcases hl.cases_append with ⟨rfl, hop', rfl, -⟩ | ⟨hnot, -⟩
            · injection hop' with h1 h2 h3
              subst h1 h2 h3
              exact hafter
            · exact absurd ⟨r, q, a, rfl, hcn⟩ hnot
          · have hkeep : h'.slot c = (h.slot c).map fun job => job.after op := by
              rw [hafter]
              cases op with
              | newJob r q a =>
                  rw [slotAfter, if_neg fun hcn => hst ⟨r, q, a, rfl, hcn.symm⟩]
                  cases h.slot c <;> rfl
              | _ => rfl
            refine ⟨fun pre r q a post hl => ?_, fun job hjob => ?_⟩
            · rcases hl.cases_append with ⟨-, -, -, hst'⟩ | ⟨-, post', rfl, hl'⟩
              · exact absurd hst' hst
              · rw [hkeep, hlatest pre r q a post' hl', recordAfter, recordAfter,
                  List.foldl_append]
                rfl
            · rw [hkeep] at hjob
              obtain ⟨job', hjob', -⟩ := Option.map_eq_some_iff.mp hjob
              obtain ⟨pre, r, q, a, post, hl⟩ := hex job' hjob'
              exact ⟨pre, r, q, a, post ++ [op], hl.append hst⟩

/-! ## What the operations behind a submission have written -/

/-- The state that an operation writes into the record of an id. -/
def stateWritten (jobid : UInt16) : HistOp → Option UInt8
  | .unsubmit jobid' =>
      if jobid = jobid' then some JobState.unsubmited.toByte else none
  | .changeStateJob jobid' state _ => if jobid = jobid' then some state else none
  | _ => none

/-- The exit value that an operation writes into the record of an id. -/
def exitWritten (jobid : UInt16) : HistOp → Option UInt8
  | .changeStateJob jobid' _ exitValue => if jobid = jobid' then some exitValue else none
  | _ => none

theorem after_state (job : JobHistory) (op : HistOp) :
    (job.after op).state = (stateWritten job.id op).getD job.state := by
  cases op with
  | newJob | jobState => rfl
  | _ => simp only [JobHistory.after, stateWritten]; split <;> rfl

theorem after_exitStatus (job : JobHistory) (op : HistOp) :
    (job.after op).exitStatus = (exitWritten job.id op).getD job.exitStatus := by
  cases op with
  | newJob | jobState => rfl
  | _ => simp only [JobHistory.after, exitWritten]; split <;> rfl

/-- The last of the written values is the one a field has in the end. -/
theorem foldl_after_last {field : JobHistory → UInt8} {written : UInt16 → HistOp → Option UInt8}
    (hstep : ∀ job op, field (job.after op) = (written job.id op).getD (field job)) :
    ∀ (post : List HistOp) (job : JobHistory),
      field (post.foldl JobHistory.after job) =
        (post.filterMap (written job.id)).getLast?.getD (field job) := by
  intro post
  induction post with
  | nil => intro job; rfl
  | cons op post ih =>
      intro job
      rw [List.foldl_cons, ih, JobHistory.after_id, hstep]
      cases hw : written job.id op with
      | none => rw [List.filterMap_cons_none hw]; rfl
      | some v => rw [List.filterMap_cons_some hw, List.getLast?_cons]; rfl

@[simp] theorem foldl_after_id (post : List HistOp) (job : JobHistory) :
    (post.foldl JobHistory.after job).id = job.id := by
  induction post generalizing job with
  | nil => rfl
  | cons op post ih => rw [List.foldl_cons, ih, JobHistory.after_id]

@[simp] theorem foldl_after_addr (post : List HistOp) (job : JobHistory) :
    (post.foldl JobHistory.after job).addr = job.addr := by
  induction post generalizing job with
  | nil => rfl
  | cons op post ih => rw [List.foldl_cons, ih, JobHistory.after_addr]

/-! ## The refinement -/

/-- The operations the sections are called with: a report carries one of the
four states, and the last section of `unsubmit` finds its job again. -/
def Proper (h : History) : HistOp → Prop
  | .changeStateJob _ state _ => Reportable state
  | .unsubmit jobid => h.findJob jobid ≠ none
  | _ => True

instance (h : History) : (op : HistOp) → Decidable (h.Proper op)
  | .changeStateJob _ state _ => inferInstanceAs (Decidable (Reportable state))
  | .unsubmit jobid => inferInstanceAs (Decidable (h.findJob jobid ≠ none))
  | .newJob .. | .jobState _ | .putJobBack .. => inferInstanceAs (Decidable True)

theorem apply_ok {h : History} {n : Nat} (hinv : h.Inv n) {op : HistOp} (hop : h.Proper op) :
    ∃ h', h.apply op = .ok h' := by
  cases op with
  | newJob jobHistory queueIdx ipaddr => exact ⟨_, rfl⟩
  | jobState jobid => rw [apply, jobState_eq hinv]; exact ⟨_, rfl⟩
  | unsubmit jobid =>
      have hfound : h.findJob jobid ≠ none := hop
      rw [findJob_eq hinv] at hfound
      rw [apply, markUnsubmited_eq hinv]
      cases hret : h.retained jobid with
      | none => rw [hret] at hfound; exact absurd rfl hfound
      | some job => exact ⟨_, rfl⟩
  | changeStateJob jobid state exitValue =>
      rw [apply, changeStateJob_eq hinv]
      cases h.retained jobid with
      | none => exact ⟨_, rfl⟩
      | some job => exact ⟨_, if_pos hop⟩
  | putJobBack jobid queueIdx => rw [apply, putJobBack_eq hinv]; exact ⟨_, rfl⟩

/-- An id has a record when the latest submission stored at its slot was given
that very id. -/
theorem run_retained {ops : List HistOp} {h : History} (hrun : run ops = .ok h)
    {jobid : UInt16} {pre post : List HistOp} {r : JobHistory} {q : UInt16} {a : UInt32}
    (hl : Latest ops (slotOf jobid) pre r q a post) :
    h.retained jobid =
      if idOf (submissions pre) = jobid then some (recordAfter pre r q a post) else none := by
  obtain ⟨-, hslots⟩ := run_slot hrun
  rw [retained, (hslots _ (slotOf_lt jobid)).1 pre r q a post hl, Option.filter_some]
  simp only [recordAfter, foldl_after_id, decide_eq_true_eq]

/-- A report for `jobid`, or the write that ends an `unsubmit` of it. -/
def WritesTo (jobid : UInt16) (op : HistOp) : Prop :=
  op = .unsubmit jobid ∨ ∃ state exitValue, op = .changeStateJob jobid state exitValue

/-- What `jobState` answers is the state of the latest submission stored where
the id belongs, if that is the id it was given. -/
theorem jobState_latest {ops : List HistOp} {h : History} (hrun : run ops = .ok h)
    {jobid : UInt16} {pre post : List HistOp} {r : JobHistory} {q : UInt16} {a : UInt32}
    (hl : Latest ops (slotOf jobid) pre r q a post) (hid : idOf (submissions pre) = jobid) :
    h.jobState jobid = .ok (some
      { state := (post.filterMap (stateWritten jobid)).getLast?.getD JobState.wait.toByte
        jobid := jobid
        exitValue := (post.filterMap (exitWritten jobid)).getLast?.getD r.exitStatus }) := by
  rw [jobState_eq (run_slot hrun).1, run_retained hrun hl, if_pos hid, Option.map_some,
    recordAfter, foldl_after_last after_state, foldl_after_last after_exitStatus]
  simp only [hid, setParamsNewJobHistory]

/-- Without such a submission there is no record to answer with. -/
theorem exists_latest {ops : List HistOp} {h : History} (hrun : run ops = .ok h)
    {jobid : UInt16} {job : JobHistory} (hret : h.retained jobid = some job) :
    ∃ pre r q a post, Latest ops (slotOf jobid) pre r q a post ∧
      idOf (submissions pre) = jobid := by
  obtain ⟨hjob, -⟩ := retained_eq_some.mp hret
  obtain ⟨pre, r, q, a, post, hl⟩ :=
    ((run_slot hrun).2 _ (slotOf_lt jobid)).2 job hjob
  refine ⟨pre, r, q, a, post, hl, ?_⟩
  rw [run_retained hrun hl] at hret
  by_contra hne
  rw [if_neg hne] at hret
  cases hret

theorem apply_of_not_retained {h h' : History} {n : Nat} (hinv : h.Inv n) {jobid : UInt16}
    {op : HistOp} (hw : WritesTo jobid op) (hop : h.apply op = .ok h')
    (hret : h.retained jobid = none) : h' = h := by
  rcases hw with rfl | ⟨state, exitValue, rfl⟩
  · rw [apply, markUnsubmited_eq hinv, hret] at hop
    cases hop
  · rw [apply, changeStateJob_eq hinv, hret] at hop
    injection hop with hop
    exact hop.symm

/-- A report or an `unsubmit` write leaves every other record alone. -/
theorem apply_frame {h h' : History} {n : Nat} (hinv : h.Inv n) {jobid : UInt16} {op : HistOp}
    (hw : WritesTo jobid op) (hop : h.apply op = .ok h') {i : Nat}
    (hi : ∀ job, h.jobArray[i]? = some (some job) → job.id ≠ jobid) :
    h'.jobArray[i]? = h.jobArray[i]? := by
  have hset : ∀ job, h.retained jobid = some job → ∀ job',
      (h.setRecord (slotOf jobid) job').jobArray[i]? = h.jobArray[i]? := by
    intro job hret job'
    obtain ⟨hjob, hid⟩ := retained_eq_some.mp hret
    have hne : slotOf jobid ≠ i := by
      rintro rfl
      exact hi job (slot_eq_some.mp hjob) hid
    rw [setRecord, Vector.getElem?_setIfInBounds, if_neg hne]
  rcases hw with rfl | ⟨state, exitValue, rfl⟩
  · rw [apply, markUnsubmited_eq hinv] at hop
    cases hret : h.retained jobid with
    | none => rw [hret] at hop; cases hop
    | some job =>
        rw [hret] at hop
        injection hop with hop
        subst hop
        exact hset job hret _
  · rw [apply, changeStateJob_eq hinv] at hop
    cases hret : h.retained jobid with
    | none =>
        rw [hret] at hop
        injection hop with hop
        rw [hop]
    | some job =>
        simp only [hret] at hop
        split at hop
        · injection hop with hop
          subst hop
          exact hset job hret _
        · cases hop

/-- The history ring refines a status map. No run of the sections gets stuck;
`jobState` answers for an id exactly when the latest submission stored where
that id belongs was given that very id, with the state last written behind it
and, once there was a report, the exit value of the last one; and a write for
an id changes the record of that id and no other. -/
theorem history_refines_status_map {ops : List HistOp} {h : History}
    (hrun : run ops = .ok h) :
    (∀ op, h.Proper op → ∃ h', run (ops ++ [op]) = .ok h') ∧
    (∀ jobid, ∃ answer, h.jobState jobid = .ok answer ∧
      (answer ≠ none ↔ ∃ pre r q a post,
        Latest ops (slotOf jobid) pre r q a post ∧ idOf (submissions pre) = jobid) ∧
      ∀ pre r q a post, Latest ops (slotOf jobid) pre r q a post →
        idOf (submissions pre) = jobid →
        ∃ exitValue,
          answer = some
            { state := (post.filterMap (stateWritten jobid)).getLast?.getD JobState.wait.toByte
              jobid := jobid
              exitValue := exitValue } ∧
          ∀ v, (post.filterMap (exitWritten jobid)).getLast? = some v → exitValue = v) ∧
    (∀ jobid op h', WritesTo jobid op → h.apply op = .ok h' →
      (h.jobState jobid = .ok none → h' = h) ∧
      ∀ i : Nat, (∀ job, h.jobArray[i]? = some (some job) → job.id ≠ jobid) →
        h'.jobArray[i]? = h.jobArray[i]?) := by
  obtain ⟨hinv, -⟩ := run_slot hrun
  refine ⟨fun op hop => ?_, fun jobid => ⟨_, jobState_eq hinv jobid, ?_, ?_⟩, ?_⟩
  · obtain ⟨h', hop⟩ := apply_ok hinv hop
    exact ⟨h', by rw [run_append, hrun]; exact hop⟩
  · rw [Ne, Option.map_eq_none_iff]
    constructor
    · intro hne
      obtain ⟨job, hret⟩ := Option.ne_none_iff_exists'.mp hne
      exact exists_latest hrun hret
    · rintro ⟨pre, r, q, a, post, hl, hid⟩
      rw [run_retained hrun hl, if_pos hid]
      exact Option.some_ne_none _
  · intro pre r q a post hl hid
    refine ⟨(post.filterMap (exitWritten jobid)).getLast?.getD r.exitStatus, ?_, ?_⟩
    · have hanswer := jobState_latest hrun hl hid
      rw [jobState_eq hinv] at hanswer
      injection hanswer
    · intro v hv
      rw [hv, Option.getD_some]
  · intro jobid op h' hw hop
    refine ⟨fun hnone => ?_, fun i hi => apply_frame hinv hw hop hi⟩
    rw [jobState_eq hinv] at hnone
    injection hnone with hnone
    exact apply_of_not_retained hinv hw hop (Option.map_eq_none_iff.mp hnone)

/-- Twelve submissions, a report for the last and the cancelling of number 5:
ids 0 and 1 are the ones that have been evicted. -/
def evictingOps : List HistOp :=
  List.replicate 12 (.newJob ⟨0, 0, 0, 0, 0, 0⟩ 0 0) ++
    [.changeStateJob 11 JobState.run.toByte 0, .unsubmit 5, .jobState 11]

theorem history_refines_status_map_evicting :
    ∃ h, run evictingOps = .ok h ∧
      (∃ answer, h.jobState 1 = .ok answer ∧
        (answer ≠ none ↔ ∃ pre r q a post,
          Latest evictingOps (slotOf 1) pre r q a post ∧ idOf (submissions pre) = 1)) ∧
      ∃ h', run (evictingOps ++ [.changeStateJob 11 JobState.finished.toByte 7]) = .ok h' := by
  obtain ⟨h, hrun⟩ : ∃ h, run evictingOps = .ok h := ⟨_, rfl⟩
  obtain ⟨hmore, hanswers, -⟩ := history_refines_status_map hrun
  obtain ⟨answer, hanswer, hiff, -⟩ := hanswers 1
  exact ⟨h, hrun, ⟨answer, hanswer, hiff⟩, hmore _ (.inl rfl)⟩

end History

end DistQueue
