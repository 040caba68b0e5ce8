import DistQueue.Server.History

/-!
# What the locked sections do to the slots

Ids are given in the order of the submissions, modulo `2 ^ 16`, and id `i` is
stored at slot `i % JOB_HISTORY_MAX`. Two facts follow that hold in every run:
slot `c` holds ids congruent to `c` only, and the slots are filled from the
left. With them the scan of `findJob` is a look-up at one slot, and each
section is one equation about slots.
-/

namespace DistQueue

/-- The locked sections, one operation each. -/
inductive HistOp
  /-- `jobHistory` is the block as `malloc` returned it. -/
  | newJob (jobHistory : JobHistory) (queueIdx : UInt16) (ipaddr : UInt32)
  | jobState (jobid : UInt16)
  | unsubmit (jobid : UInt16)
  | changeStateJob (jobid : UInt16) (state exitValue : UInt8)
  | putJobBack (jobid : UInt16) (queueIdx : UInt8)
  deriving DecidableEq, Repr

/-- How many submissions are among the operations. -/
def submissions (ops : List HistOp) : Nat :=
  ops.countP fun op => match op with
    | .newJob .. => true
    | _ => false

/-- What an operation makes of a record that is already there. -/
def JobHistory.after (job : JobHistory) : HistOp → JobHistory
  | .unsubmit jobid =>
      if job.id = jobid then { job with state := JobState.unsubmited.toByte } else job
  | .changeStateJob jobid state exitValue =>
      if job.id = jobid then { job with state := state, exitStatus := exitValue } else job
  | .putJobBack jobid queueIdx =>
      if job.id = jobid then { job with queueIdx := queueIdx } else job
  | _ => job

@[simp] theorem JobHistory.after_id (job : JobHistory) (op : HistOp) :
    (job.after op).id = job.id := by
  cases op <;> simp only [JobHistory.after] <;> split <;> rfl

@[simp] theorem JobHistory.after_addr (job : JobHistory) (op : HistOp) :
    (job.after op).addr = job.addr := by
  cases op <;> simp only [JobHistory.after] <;> split <;> rfl

namespace History

def apply (h : History) : HistOp → Except Fault History
  | .newJob jobHistory queueIdx ipaddr =>
      .ok (h.newJob (setParamsNewJobHistory jobHistory queueIdx ipaddr)).history
  | .jobState jobid => (h.jobState jobid).map fun _ => h
  | .unsubmit jobid => h.markUnsubmited jobid
  | .changeStateJob jobid state exitValue => h.changeStateJob jobid state exitValue
  | .putJobBack jobid queueIdx => (h.putJobBack jobid queueIdx).map fun h' => h'.getD h

def run (ops : List HistOp) : Except Fault History := ops.foldlM apply init

theorem run_append (ops : List HistOp) (op : HistOp) :
    run (ops ++ [op]) = (run ops).bind fun h => h.apply op := by
  simp only [run, List.foldlM_append, List.foldlM_cons, List.foldlM_nil]
  cases ops.foldlM apply init with
  | error e => rfl
  | ok h =>
      show (h.apply op).bind pure = h.apply op
      cases h.apply op <;> rfl

/-! ## Slots -/

/-- What slot `c` holds. -/
def slot (h : History) (c : Nat) : Option JobHistory := (h.jobArray[c]?).join

/-- The slot of an id. -/
def slotOf (jobid : UInt16) : Nat := jobid.toNat % jobHistoryMax

theorem slotOf_lt (jobid : UInt16) : slotOf jobid < jobHistoryMax :=
  Nat.mod_lt _ (Nat.pos_of_neZero _)

/-- The id of submission number `n`, counted from 0. -/
def idOf (n : Nat) : UInt16 := UInt16.ofNat n

/-- The record of an id, if it still has one. -/
def retained (h : History) (jobid : UInt16) : Option JobHistory :=
  (h.slot (slotOf jobid)).filter fun job => job.id = jobid

theorem retained_eq_some {h : History} {jobid : UInt16} {job : JobHistory} :
    h.retained jobid = some job ↔ h.slot (slotOf jobid) = some job ∧ job.id = jobid := by
  simp [retained, Option.filter_eq_some_iff]

theorem slot_eq_some {h : History} {c : Nat} {job : JobHistory} :
    h.slot c = some job ↔ h.jobArray[c]? = some (some job) := by
  simp [slot, Option.join_eq_some_iff]

/-- `n` submissions were made: the next id is theirs, the slots are filled
from the left, and no id is in a foreign slot. -/
structure Inv (h : History) (n : Nat) : Prop where
  next : h.putIdx = UInt32.ofNat n
  filled : ∀ c < jobHistoryMax, (h.slot c = none ↔ n ≤ c)
  congr : ∀ c job, h.slot c = some job → slotOf job.id = c

theorem slot_init (c : Nat) : init.slot c = none := by
  simp only [slot, init, Vector.getElem?_replicate]
  split <;> rfl

theorem inv_init : init.Inv 0 := by
  refine ⟨rfl, fun c _ => by simp [slot_init], fun c job h => ?_⟩
  rw [slot_init] at h
  cases h

/-! ## The scan is a look-up -/

theorem findFrom_some {jobArray : Vector (Option JobHistory) jobHistoryMax} {jobid : UInt16} :
    ∀ {n i k : Nat}, findFrom jobArray jobid n i = some k →
      i ≤ k ∧ ∃ job, jobArray[k]? = some (some job) ∧ job.id = jobid := by
  intro n
  induction n with
  | zero => intro i k h; cases h
  | succ n ih =>
      intro i k h
      rw [findFrom] at h
      split at h
      · next job hjob =>
          split at h
          · next hid =>
              injection h with h
              subst h
              exact ⟨Nat.le_refl _, job, hjob, hid⟩
          · obtain ⟨hle, hk⟩ := ih h
            exact ⟨by omega, hk⟩
      · cases h

/-- The scan does not pass over a job of the id unless an empty slot comes
first. -/
theorem findFrom_of_mem {jobArray : Vector (Option JobHistory) jobHistoryMax} {jobid : UInt16}
    {k : Nat} (hk : ∃ job, jobArray[k]? = some (some job) ∧ job.id = jobid) :
    ∀ {n i : Nat}, i ≤ k → k < i + n →
      (∀ m, i ≤ m → m ≤ k → ∃ job, jobArray[m]? = some (some job)) →
      ∃ k', findFrom jobArray jobid n i = some k' := by
  intro n
  induction n with
  | zero => intro i hik hkn; omega
  | succ n ih =>
      intro i hik hkn hfilled
      obtain ⟨job, hjob⟩ := hfilled i (Nat.le_refl _) hik
      rw [findFrom]
      simp only [hjob]
      split
      · exact ⟨i, rfl⟩
      · next hne =>
          have hik' : i ≠ k := by
            rintro rfl
            obtain ⟨job', hjob', hid⟩ := hk
            rw [hjob] at hjob'
            injection hjob' with hjob'
            injection hjob' with hjob'
            exact hne (hjob' ▸ hid)
          exact ih (by omega) (by omega) fun m hm hmk => hfilled m (by omega) hmk

/-- `findJob` finds the slot of the id when that is the id stored there, and
nothing otherwise. -/
theorem findJob_eq {h : History} {n : Nat} (hinv : h.Inv n) (jobid : UInt16) :
    h.findJob jobid = (h.retained jobid).map fun _ => slotOf jobid := by
  have hslot : ∀ {k}, (∃ job, h.jobArray[k]? = some (some job) ∧ job.id = jobid) →
      k = slotOf jobid ∧ ∃ job, h.retained jobid = some job := by
    rintro k ⟨job, hjob, rfl⟩
    have hk := hinv.congr k job (slot_eq_some.mpr hjob)
    subst hk
    exact ⟨rfl, job, retained_eq_some.mpr ⟨slot_eq_some.mpr hjob, rfl⟩⟩
  cases hret : h.retained jobid with
  | none =>
      cases hfind : h.findJob jobid with
      | none => rfl
      | some k =>
          obtain ⟨-, hk⟩ := findFrom_some hfind
          obtain ⟨-, job, hjob⟩ := hslot hk
          rw [hret] at hjob
          cases hjob
  | some job =>
      obtain ⟨hjob, hid⟩ := retained_eq_some.mp hret
      have hlt := slotOf_lt jobid
      have hn : slotOf jobid < n := by
        by_contra hge
        rw [(hinv.filled _ hlt).mpr (by omega)] at hjob
        cases hjob
      obtain ⟨k, hfind⟩ : ∃ k, h.findJob jobid = some k := by
        refine findFrom_of_mem ⟨job, slot_eq_some.mp hjob, hid⟩ (Nat.zero_le _) (by omega) ?_
        intro m _ hm
        cases hcell : h.slot m with
        | none =>
            have := (hinv.filled m (by omega)).mp hcell
            omega
        | some job' => exact ⟨job', slot_eq_some.mp hcell⟩
      obtain ⟨-, hk⟩ := findFrom_some hfind
      rw [hfind, (hslot hk).1, Option.map_some]

theorem record_retained {h : History} {jobid : UInt16} {job : JobHistory}
    (hret : h.retained jobid = some job) : h.record (slotOf jobid) = .ok job := by
  rw [record, slot_eq_some.mp (retained_eq_some.mp hret).1]

theorem slot_setRecord {h : History} {idx : Nat} (hidx : idx < jobHistoryMax)
    (job : JobHistory) (c : Nat) :
    (h.setRecord idx job).slot c = if c = idx then some job else h.slot c := by
  simp only [slot, setRecord, Vector.getElem?_setIfInBounds]
  split
  · next hc =>
      subst hc
      rw [if_pos rfl]
      rfl
  · next hc => rw [if_neg fun h => hc h.symm]

/-- The slot that takes the next id. -/
theorem slot_newJob {h : History} {n : Nat} (hinv : h.Inv n) (jobHistory : JobHistory)
    (c : Nat) :
    (h.newJob jobHistory).history.slot c =
      if c = slotOf (idOf n) then some { jobHistory with id := idOf n } else h.slot c := by
  have hid : h.putIdx.toUInt16 = idOf n := by
    rw [hinv.next]
    refine UInt16.toNat_inj.mp ?_
    rw [UInt32.toNat_toUInt16, UInt32.toNat_ofNat', idOf, UInt16.toNat_ofNat']
    omega
  have hlt := slotOf_lt (idOf n)
  simp only [slot, newJob, hid, Vector.getElem?_set]
  split
  · next hc => rw [if_pos (show c = slotOf (idOf n) from hc.symm)]; rfl
  · next hc => rw [if_neg fun h => hc h.symm]

/-! ## What the sections do to the slots -/

/-- A change to the record of one id. -/
theorem slot_change {h : History} {n : Nat} (hinv : h.Inv n) {jobid : UInt16}
    {job : JobHistory} (hret : h.retained jobid = some job) (f : JobHistory → JobHistory)
    (c : Nat) :
    (h.setRecord (slotOf jobid) (f job)).slot c =
      (h.slot c).map fun job => if job.id = jobid then f job else job := by
  obtain ⟨hjob, hid⟩ := retained_eq_some.mp hret
  rw [slot_setRecord (slotOf_lt jobid)]
  split
  · next hc => rw [hc, hjob, Option.map_some, if_pos hid]
  · next hc =>
      cases hslot : h.slot c with
      | none => rfl
      | some job' =>
          have hne : job'.id ≠ jobid := by
            rintro rfl
            exact hc (hinv.congr c job' hslot).symm
          rw [Option.map_some, if_neg hne]

/-- No change without a record of the id. -/
theorem slot_keep {h : History} {n : Nat} (hinv : h.Inv n) {jobid : UInt16}
    (hret : h.retained jobid = none) (f : JobHistory → JobHistory) (c : Nat) :
    h.slot c = (h.slot c).map fun job => if job.id = jobid then f job else job := by
  cases hslot : h.slot c with
  | none => rfl
  | some job =>
      have hne : job.id ≠ jobid := by
        rintro rfl
        have hc := hinv.congr c job hslot
        subst hc
        rw [retained_eq_some.mpr ⟨hslot, rfl⟩] at hret
        cases hret
      rw [Option.map_some, if_neg hne]

section Sections

variable {h h' : History} {n : Nat}

theorem jobState_eq (hinv : h.Inv n) (jobid : UInt16) :
    h.jobState jobid = .ok ((h.retained jobid).map fun job =>
      { state := job.state, jobid := jobid, exitValue := job.exitStatus }) := by
  rw [jobState, findJob_eq hinv]
  cases hret : h.retained jobid with
  | none => rfl
  | some job => simp only [Option.map_some, record_retained hret]; rfl

theorem waitingIn_eq (hinv : h.Inv n) (jobid : UInt16) :
    h.waitingIn jobid =
      .ok ((h.retained jobid).filter fun job => job.state = JobState.wait.toByte) := by
  rw [waitingIn, findJob_eq hinv]
  cases hret : h.retained jobid with
  | none => rfl
  | some job =>
      simp only [Option.map_some, record_retained hret]
      show Except.ok _ = _
      congr 1
      by_cases hw : job.state = JobState.wait.toByte
      · rw [if_pos hw, Option.filter_some, if_pos (decide_eq_true hw)]
      · rw [if_neg hw, Option.filter_some, if_neg (by simpa using hw)]

theorem markUnsubmited_eq (hinv : h.Inv n) (jobid : UInt16) :
    h.markUnsubmited jobid =
      match h.retained jobid with
      | none => .error .invalidAccess
      | some job =>
          .ok (h.setRecord (slotOf jobid) { job with state := JobState.unsubmited.toByte }) := by
  rw [markUnsubmited, findJob_eq hinv]
  cases hret : h.retained jobid with
  | none => rfl
  | some job => simp only [Option.map_some, record_retained hret]; rfl

theorem changeStateJob_eq (hinv : h.Inv n) (jobid : UInt16) (state exitValue : UInt8) :
    h.changeStateJob jobid state exitValue =
      match h.retained jobid with
      | none => .ok h
      | some job =>
          if Reportable state then
            .ok (h.setRecord (slotOf jobid)
              { job with state := state, exitStatus := exitValue })
          else .error .assertion := by
  rw [changeStateJob, findJob_eq hinv]
  cases hret : h.retained jobid with
  | none => rfl
  | some job => simp only [Option.map_some, record_retained hret]; rfl

theorem putJobBack_eq (hinv : h.Inv n) (jobid : UInt16) (queueIdx : UInt8) :
    h.putJobBack jobid queueIdx =
      .ok ((h.retained jobid).map fun job =>
        h.setRecord (slotOf jobid) { job with queueIdx := queueIdx }) := by
  rw [putJobBack, findJob_eq hinv]
  cases hret : h.retained jobid with
  | none => rfl
  | some job => simp only [Option.map_some, record_retained hret]; rfl

/-- What slot `c` holds behind operation `op`, `n` submissions in: a submission
takes over its slot, everything else changes the record that is there. -/
def slotAfter (n c : Nat) (old : Option JobHistory) : HistOp → Option JobHistory
  | .newJob jobHistory queueIdx ipaddr =>
      if c = slotOf (idOf n) then
        some { setParamsNewJobHistory jobHistory queueIdx ipaddr with id := idOf n }
      else old
  | op => old.map fun job => job.after op

theorem apply_slot (hinv : h.Inv n) {op : HistOp} (hop : h.apply op = .ok h') (c : Nat) :
    h'.slot c = slotAfter n c (h.slot c) op := by
  cases op with
  | newJob jobHistory queueIdx ipaddr =>
      injection hop with hop
      subst hop
      exact slot_newJob hinv _ c
  | jobState jobid =>
      rw [apply, jobState_eq hinv] at hop
      injection hop with hop
      subst hop
      cases h.slot c <;> rfl
  | unsubmit jobid =>
      rw [apply, markUnsubmited_eq hinv] at hop
      cases hret : h.retained jobid with
      | none => rw [hret] at hop; cases hop
      | some job =>
          rw [hret] at hop
          injection hop with hop
          subst hop
          exact slot_change hinv hret
            (fun job => { job with state := JobState.unsubmited.toByte }) c
  | changeStateJob jobid state exitValue =>
      rw [apply, changeStateJob_eq hinv] at hop
      cases hret : h.retained jobid with
      | none =>
          rw [hret] at hop
          injection hop with hop
          subst hop
          exact slot_keep hinv hret _ c
      | some job =>
          simp only [hret] at hop
          split at hop
          · injection hop with hop
            subst hop
            exact slot_change hinv hret
              (fun job => { job with state := state, exitStatus := exitValue }) c
          · cases hop
  | putJobBack jobid queueIdx =>
      rw [apply, putJobBack_eq hinv] at hop
      injection hop with hop
      subst hop
      cases hret : h.retained jobid with
      | none => exact slot_keep hinv hret _ c
      | some job =>
          exact slot_change hinv hret (fun job => { job with queueIdx := queueIdx }) c

theorem apply_putIdx (hinv : h.Inv n) {op : HistOp} (hop : h.apply op = .ok h') :
    h'.putIdx = UInt32.ofNat (n + submissions [op]) := by
  cases op with
  | newJob jobHistory queueIdx ipaddr =>
      injection hop with hop
      subst hop
      show h.putIdx + 1 = UInt32.ofNat (n + 1)
      rw [hinv.next, UInt32.ofNat_add]
      rfl
  | jobState jobid =>
      rw [apply, jobState_eq hinv] at hop
      injection hop with hop
      exact hop ▸ hinv.next
  | unsubmit jobid =>
      rw [apply, markUnsubmited_eq hinv] at hop
      split at hop
      · cases hop
      · injection hop with hop
        exact hop ▸ hinv.next
  | changeStateJob jobid state exitValue =>
      rw [apply, changeStateJob_eq hinv] at hop
      split at hop
      · injection hop with hop
        exact hop ▸ hinv.next
      · split at hop
        · injection hop with hop
          exact hop ▸ hinv.next
        · cases hop
  | putJobBack jobid queueIdx =>
      rw [apply, putJobBack_eq hinv] at hop
      injection hop with hop
      subst hop
      cases h.retained jobid <;> exact hinv.next

/-- Submission `n` goes to the first empty slot while there is one. -/
theorem slotOf_idOf {n : Nat} (h : n < jobHistoryMax) : slotOf (idOf n) = n := by
  have h' : n < 10 := h
  rw [slotOf, idOf, UInt16.toNat_ofNat', Nat.mod_eq_of_lt (show n < 2 ^ 16 by omega)]
  exact Nat.mod_eq_of_lt h

theorem apply_inv (hinv : h.Inv n) {op : HistOp} (hop : h.apply op = .ok h') :
    h'.Inv (n + submissions [op]) := by
  have hslot := apply_slot hinv hop
  refine ⟨apply_putIdx hinv hop, fun c hc => ?_, fun c job hjob => ?_⟩
  · cases op with
    | newJob jobHistory queueIdx ipaddr =>
        show h'.slot c = none ↔ n + 1 ≤ c
        rw [hslot c]
        rw [slotAfter]
        have hold := hinv.filled c hc
        have hnext := @slotOf_idOf n
        split
        · next hcn =>
            have hn : ¬ n + 1 ≤ c := fun hle => by
              have := hnext (by omega)
              omega
            exact ⟨fun h => (by cases h), fun h => absurd h hn⟩
        · next hcn =>
            rw [hold]
            refine ⟨fun hle => ?_, fun hle => by omega⟩
            have := hnext (by omega)
            omega
    | _ => rw [hslot c]; exact Option.map_eq_none_iff.trans (hinv.filled c hc)
  · rw [hslot c] at hjob
    cases op with
    | newJob jobHistory queueIdx ipaddr =>
        rw [slotAfter] at hjob
        split at hjob
        · next hcn =>
            injection hjob with hjob
            subst hjob
            exact hcn.symm
        · exact hinv.congr c job hjob
    | _ =>
        obtain ⟨job', hjob', rfl⟩ := Option.map_eq_some_iff.mp hjob
        rw [JobHistory.after_id]
        exact hinv.congr c job' hjob'

end Sections

end History

end DistQueue
