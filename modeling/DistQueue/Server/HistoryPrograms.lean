import DistQueue.Lib.Cells
import DistQueue.Server.Steps

/-!
# The history's sections as programs

The sections under `job_hist_mtx` once more, this time as programs over
`job_array` that say each time they use an entry. None of them is given the
array. That they do what the sections do is proved function by function, and
from that for the next step of a thread, whatever it is: the step is its program,
run on the array that is there, in a server that knows nothing else of it.
-/

namespace DistQueue

open DistQueue.Lib

/-- `job_array` -/
abbrev JobArray := Vector (Option JobHistory) jobHistoryMax

abbrev HistoryProgram (β : Type) := Cells JobHistory UInt16 Fault β

def Fault.ofStop : Stop Fault → Fault
  | .access => .invalidAccess
  | .thrown fault => fault

namespace HistoryProgram

/-- `findJob` with `n` rounds to go. -/
def findJobFrom (jobid : UInt16) : (n i : Nat) → HistoryProgram Int
  | 0, _ => pure (-1)
  | n + 1, i => do
      if ← Cells.test i then
        let job ← Cells.read i none
        if job.id = jobid then pure i else findJobFrom jobid n (i + 1)
      else pure (-1)

def findJob (jobid : UInt16) : HistoryProgram Int := findJobFrom jobid jobHistoryMax 0

/-- The new id and the entry that was freed. -/
def newJob (putIdx : UInt32) (jobHistory : JobHistory) :
    HistoryProgram (UInt16 × Option JobHistory) := do
  let id := putIdx.toUInt16
  let idx := id.toNat % jobHistoryMax
  let freed ← if jobHistoryMax ≤ id.toNat then Cells.free idx else pure none
  Cells.store idx { jobHistory with id := id }
  pure (id, freed)

def jobState (jobid : UInt16) : HistoryProgram (Option JobStateMsg) := do
  let idx ← findJob jobid
  if idx < 0 ∨ jobHistoryMax ≤ idx then pure none
  else
    let state ← Cells.read idx (some jobid)
    let exitStatus ← Cells.read idx (some jobid)
    pure (some { state := state.state, jobid := jobid, exitValue := exitStatus.exitStatus })

/-- The first section of `unsubmit`. -/
def waitingIn (jobid : UInt16) : HistoryProgram (Option JobHistory) := do
  let idx ← findJob jobid
  if idx < 0 then pure none
  else
    let job ← Cells.read idx (some jobid)
    if job.state ≠ JobState.wait.toByte then pure none
    else
      let job ← Cells.read idx (some jobid)
      pure (some job)

/-- The last section of `unsubmit`. -/
def markUnsubmited (jobid : UInt16) : HistoryProgram Unit := do
  let idx ← findJob jobid
  Cells.write idx (some jobid) fun job => { job with state := JobState.unsubmited.toByte }

def changeStateJob (jobid : UInt16) (state exitValue : UInt8) : HistoryProgram Unit := do
  let idx ← findJob jobid
  if 0 ≤ idx ∧ idx < jobHistoryMax then
    Cells.write idx (some jobid) fun job => { job with state := state }
    Cells.write idx (some jobid) fun job => { job with exitStatus := exitValue }
    if History.Reportable state then
      -- `time` into one of the two times, which are not in the record here.
      Cells.write idx (some jobid) id
    else Cells.throw .assertion
  else pure ()

/-- The section of `putJobBack`, and whether it has found the record. -/
def putJobBack (jobid : UInt16) (queueIdx : UInt8) : HistoryProgram Bool := do
  let idx ← findJob jobid
  if idx < 0 ∨ jobHistoryMax ≤ idx then pure false
  else
    Cells.write idx (some jobid) fun job => { job with queueIdx := queueIdx }
    pure true

/-! ## They do what the sections do -/

/-- The result and the array behind it, or the fault. -/
def outcome {β : Type} (p : HistoryProgram β) (jobs : JobArray) : Except Fault (β × JobArray) :=
  (p.run jobs).mapError Fault.ofStop

section Outcome

variable {β γ : Type} (h : History) (jobs : JobArray) (jobid : UInt16)

@[simp] theorem outcome_pure (b : β) : outcome (pure b) jobs = .ok (b, jobs) := rfl

@[simp] theorem outcome_ofExcept (x : Except Fault β) :
    outcome (Cells.ofExcept x) jobs = x.map (·, jobs) := by
  cases x <;> rfl

@[simp] theorem outcome_bind (p : HistoryProgram β) (f : β → HistoryProgram γ) :
    outcome (p >>= f) jobs = (outcome p jobs).bind fun x => outcome (f x.1) x.2 := by
  rw [outcome, Cells.run_bind, outcome]
  cases p.run jobs <;> rfl

theorem outcome_of_run {p : HistoryProgram β} {x : β × JobArray} (hrun : p.run jobs = .ok x) :
    outcome p jobs = .ok x := by
  rw [outcome, hrun]
  rfl

@[simp] theorem read_outcome (idx : Nat) (key : Option UInt16) :
    outcome (Cells.read idx key) h.jobArray = (h.record idx).map (·, h.jobArray) := by
  simp only [outcome, Cells.read, Cells.request, Cells.run, Request.serve, entryAt_natCast,
    History.record]
  rcases h.jobArray[idx]? with _ | _ | job <;> rfl

@[simp] theorem write_outcome (idx : Nat) (key : Option UInt16) (f : JobHistory → JobHistory) :
    outcome (Cells.write idx key f) h.jobArray =
      (h.record idx).map fun job => ((), (h.setRecord idx (f job)).jobArray) := by
  simp only [outcome, Cells.write, Cells.request, Cells.run, Request.serve, entryAt_natCast,
    History.record]
  rcases h.jobArray[idx]? with _ | _ | job <;> rfl

/-- The scan stays inside the array and gives the slot, or -1. -/
theorem findJobFrom_run : ∀ n i, i + n ≤ jobHistoryMax →
    (findJobFrom jobid n i).run jobs =
      .ok ((History.findFrom jobs jobid n i).elim (-1) Nat.cast, jobs) := by
  intro n
  induction n with
  | zero => exact fun i _ => rfl
  | succ n ih =>
      intro i hi
      have hentry : jobs[i]? = some jobs[i] := Vector.getElem?_eq_getElem (by omega)
      have htest : (Cells.test i : HistoryProgram Bool).run jobs = .ok (jobs[i].isSome, jobs) :=
        Cells.run_request jobs (by rw [Request.serve, entryAt_natCast, hentry]; rfl)
      rw [findJobFrom, Cells.run_bind, htest, History.findFrom, hentry]
      cases hjob : jobs[i] with
      | none => rfl
      | some job =>
          have hread : (Cells.read i none : HistoryProgram JobHistory).run jobs = .ok (job, jobs) :=
            Cells.run_request jobs (by rw [Request.serve, entryAt_natCast, hentry, hjob]; rfl)
          show ((Cells.read i none : HistoryProgram JobHistory) >>= _).run jobs = _
          rw [Cells.run_bind, hread]
          show (if job.id = jobid then _ else _ : HistoryProgram Int).run jobs = _
          dsimp only
          split
          · rfl
          · exact ih (i + 1) (by omega)

theorem findJob_run : (findJob jobid).run h.jobArray =
    .ok ((h.findJob jobid).elim (-1) Nat.cast, h.jobArray) :=
  findJobFrom_run h.jobArray jobid jobHistoryMax 0 (by omega)

@[simp] theorem findJob_outcome : outcome (findJob jobid) h.jobArray =
    .ok ((h.findJob jobid).elim (-1) Nat.cast, h.jobArray) :=
  outcome_of_run _ (findJob_run h jobid)

/-- What `findJob` finds is a record. -/
theorem record_of_findJob {h : History} {idx : Nat} (hfind : h.findJob jobid = some idx) :
    idx < jobHistoryMax ∧ ∃ job, h.record idx = .ok job ∧ job.id = jobid := by
  obtain ⟨-, job, hjob, hid⟩ := History.findFrom_some hfind
  refine ⟨(Vector.getElem?_eq_some_iff.mp hjob).1, job, ?_, hid⟩
  rw [History.record, hjob]

/-- So the tests of the index say whether it has found one. -/
theorem tests_of_lt {idx : Nat} (hidx : idx < jobHistoryMax) :
    ¬ ((idx : Int) < 0 ∨ (jobHistoryMax : Int) ≤ idx) ∧ ¬ (idx : Int) < 0 ∧
      (0 ≤ (idx : Int) ∧ (idx : Int) < jobHistoryMax) := by
  omega

/-- Programs that begin with a look-up. -/
theorem outcome_of_none {h : History} {jobid : UInt16} (hfind : h.findJob jobid = none)
    (f : Int → HistoryProgram β) :
    outcome (findJob jobid >>= f) h.jobArray = outcome (f (-1)) h.jobArray := by
  rw [outcome_bind, findJob_outcome, hfind]
  rfl

theorem outcome_of_some {h : History} {jobid : UInt16} {idx : Nat}
    (hfind : h.findJob jobid = some idx) (f : Int → HistoryProgram β) :
    outcome (findJob jobid >>= f) h.jobArray = outcome (f idx) h.jobArray := by
  rw [outcome_bind, findJob_outcome, hfind]
  rfl

theorem jobState_outcome :
    outcome (jobState jobid) h.jobArray = (h.jobState jobid).map (·, h.jobArray) := by
  rw [jobState, History.jobState]
  cases hfind : h.findJob jobid with
  | none =>
      rw [outcome_of_none hfind]
      rfl
  | some idx =>
      obtain ⟨hidx, job, hjob, -⟩ := record_of_findJob jobid hfind
      dsimp only
      rw [outcome_of_some hfind, if_neg (tests_of_lt hidx).1, hjob]
      simp only [outcome_bind, read_outcome, hjob, Except.map, Except.bind, outcome_pure]
      rfl

theorem waitingIn_outcome :
    outcome (waitingIn jobid) h.jobArray = (h.waitingIn jobid).map (·, h.jobArray) := by
  rw [waitingIn, History.waitingIn]
  cases hfind : h.findJob jobid with
  | none =>
      rw [outcome_of_none hfind]
      rfl
  | some idx =>
      obtain ⟨hidx, job, hjob, -⟩ := record_of_findJob jobid hfind
      dsimp only
      rw [outcome_of_some hfind, if_neg (tests_of_lt hidx).2.1, hjob, outcome_bind, read_outcome,
        hjob]
      show outcome (if job.state ≠ _ then _ else _) h.jobArray =
        .ok (if job.state = _ then _ else _, _)
      by_cases hwait : job.state = JobState.wait.toByte
      · rw [if_neg (not_not_intro hwait), if_pos hwait, outcome_bind, read_outcome, hjob]
        rfl
      · rw [if_pos hwait, if_neg hwait]
        rfl

theorem markUnsubmited_outcome : outcome (markUnsubmited jobid) h.jobArray =
    (h.markUnsubmited jobid).map fun h' => ((), h'.jobArray) := by
  rw [markUnsubmited, History.markUnsubmited]
  cases hfind : h.findJob jobid with
  | none =>
      rw [outcome_of_none hfind]
      rfl
  | some idx =>
      obtain ⟨-, job, hjob, -⟩ := record_of_findJob jobid hfind
      dsimp only
      rw [outcome_of_some hfind, write_outcome, hjob]
      rfl

theorem putJobBack_outcome (queueIdx : UInt8) :
    outcome (putJobBack jobid queueIdx) h.jobArray =
      (h.putJobBack jobid queueIdx).map fun h' => (h'.isSome, (h'.getD h).jobArray) := by
  rw [putJobBack, History.putJobBack]
  cases hfind : h.findJob jobid with
  | none =>
      rw [outcome_of_none hfind]
      rfl
  | some idx =>
      obtain ⟨hidx, job, hjob, -⟩ := record_of_findJob jobid hfind
      dsimp only
      rw [outcome_of_some hfind, if_neg (tests_of_lt hidx).1, outcome_bind, write_outcome, hjob]
      rfl

theorem record_setRecord {h : History} {idx : Nat} (hidx : idx < jobHistoryMax)
    (job : JobHistory) : (h.setRecord idx job).record idx = .ok job := by
  rw [History.record, History.setRecord]
  simp only [Vector.getElem?_setIfInBounds_self_of_lt hidx]

theorem setRecord_setRecord (h : History) (idx : Nat) (job job' : JobHistory) :
    (h.setRecord idx job).setRecord idx job' = h.setRecord idx job' := by
  simp only [History.setRecord, Vector.setIfInBounds_setIfInBounds]

theorem changeStateJob_outcome (state exitValue : UInt8) :
    outcome (changeStateJob jobid state exitValue) h.jobArray =
      (h.changeStateJob jobid state exitValue).map fun h' => ((), h'.jobArray) := by
  rw [changeStateJob, History.changeStateJob]
  cases hfind : h.findJob jobid with
  | none =>
      rw [outcome_of_none hfind]
      rfl
  | some idx =>
      obtain ⟨hidx, job, hjob, -⟩ := record_of_findJob jobid hfind
      dsimp only
      rw [outcome_of_some hfind, if_pos (tests_of_lt hidx).2.2, hjob]
      simp only [outcome_bind, write_outcome, hjob, Except.map, Except.bind, record_setRecord hidx,
        setRecord_setRecord]
      show outcome (if _ then _ else _) _ = Except.map _ (if _ then _ else _)
      split
      · rw [write_outcome, record_setRecord hidx]
        simp only [Except.map, id, setRecord_setRecord]
      · rfl

theorem newJob_outcome (jobHistory : JobHistory) :
    outcome (newJob h.putIdx jobHistory) h.jobArray =
      .ok (((h.newJob jobHistory).id, (h.newJob jobHistory).freed),
        (h.newJob jobHistory).history.jobArray) := by
  have hidx : h.putIdx.toUInt16.toNat % jobHistoryMax < jobHistoryMax :=
    Nat.mod_lt _ (Nat.pos_of_neZero _)
  have hentry : h.jobArray[h.putIdx.toUInt16.toNat % jobHistoryMax]? =
      some h.jobArray[h.putIdx.toUInt16.toNat % jobHistoryMax] := Vector.getElem?_eq_getElem hidx
  have hstore : ∀ x : JobHistory,
      outcome (Cells.store ↑(h.putIdx.toUInt16.toNat % jobHistoryMax) x) h.jobArray =
        .ok ((), h.jobArray.set (h.putIdx.toUInt16.toNat % jobHistoryMax) (some x)) := by
    intro x
    refine outcome_of_run _ (Cells.run_request h.jobArray ?_)
    rw [Request.serve, entryAt_natCast, hentry, Int.toNat_natCast]
    refine congrArg (fun jobs => some ((), jobs)) (Vector.ext fun i hi => ?_)
    rw [Vector.getElem_setIfInBounds, Vector.getElem_set]
  have hfree : outcome (Cells.free ↑(h.putIdx.toUInt16.toNat % jobHistoryMax)) h.jobArray =
      .ok (h.jobArray[h.putIdx.toUInt16.toNat % jobHistoryMax], h.jobArray) := by
    refine outcome_of_run _ (Cells.run_request h.jobArray ?_)
    rw [Request.serve, entryAt_natCast, hentry]
    rfl
  rw [newJob, History.newJob]
  dsimp only
  split
  · rw [outcome_bind, hfree]
    show outcome (Cells.store _ _ >>= _) h.jobArray = _
    rw [outcome_bind, hstore]
    rfl
  · show outcome (Cells.store _ _ >>= _) h.jobArray = _
    rw [outcome_bind, hstore]
    rfl

end Outcome

end HistoryProgram

/-! ## The steps of a thread -/

variable {N : Nat}

def MainServer.withJobs (server : MainServer N) (jobs : JobArray) : MainServer N :=
  { server with history := { server.history with jobArray := jobs } }

/-- The server without what is in `job_array`. -/
def MainServer.bare (server : MainServer N) : MainServer N :=
  server.withJobs History.init.jobArray

theorem bare_queue (server : MainServer N) (i : Fin N) : server.bare.queue i = server.queue i := rfl

def Result.withJobs (r : Result N) (jobs : JobArray) : Result N :=
  { r with server := r.server.withJobs jobs }

section Programs

variable [NeZero N] (server : MainServer N) (heap : Heap) (t : Nat) (env : Env)

def numberJobProgram (job : Ptr) (queueIdx : UInt16) : HistoryProgram (Result N) := do
  let newJob ← Cells.ofExcept (heap.deref job)
  let blank := { env.blank with addr := job }
  let r ← HistoryProgram.newJob server.history.putIdx
    (setParamsNewJobHistory blank queueIdx newJob.ipaddr)
  let history := { server.history with putIdx := server.history.putIdx + 1 }
  pure
    { server := { server with history := history }
      heap := heap
      pc := .submittedResponse job queueIdx r.1
      events := [.history t (.newJob blank queueIdx newJob.ipaddr)]
      signals := none }

def jobStateProgram (jobid : UInt16) : HistoryProgram (Result N) := do
  let jobState ← HistoryProgram.jobState jobid
  pure
    { server := server
      heap := heap
      pc := .reply (jobState.elim .badParams .jobState)
      events := [.history t (.jobState jobid)]
      signals := none }

/-- `unsubmit`, first section. -/
def unsubmitProgram (jobid : UInt16) : HistoryProgram (Result N) := do
  let job ← HistoryProgram.waitingIn jobid
  pure
    (match job with
    | none => stay server heap (.reply .badParams)
    | some job => stay server heap (.unsubmitQueue jobid job.queueIdx job.addr))

/-- `unsubmit`, last section. -/
def markUnsubmitedProgram (jobid : UInt16) (found : Ptr) : HistoryProgram (Result N) := do
  HistoryProgram.markUnsubmited jobid
  pure
    { server := server
      heap := heap
      pc := .reply (.unsubmit jobid found)
      events := [.history t (.unsubmit jobid)]
      signals := none }

/-- `putJobBack` under `job_hist_mtx`, with the `free(job)` behind it. -/
def relabelProgram (queueIdx : Nat) (job : Ptr) : HistoryProgram (Result N) := do
  let contents ← Cells.ofExcept (heap.deref job)
  let found ← HistoryProgram.putJobBack contents.id (UInt8.ofNat queueIdx)
  let event : Event N := .history t (.putJobBack contents.id (UInt8.ofNat queueIdx))
  pure ⟨server, if found then heap else heap.free job, .closed, [event], none⟩

def changeStateJobProgram (jobid : UInt16) (state exitValue : UInt8) :
    HistoryProgram (Result N) := do
  HistoryProgram.changeStateJob jobid state exitValue
  pure
    { server := server
      heap := heap
      pc := .attendExecServ
      events := [.history t (.changeStateJob jobid state exitValue)]
      signals := none }

/-- The next step of a thread as a program over `job_array`; a section that the
history has no part in asks for nothing. -/
def Pc.program : Pc N → Option (HistoryProgram (Result N))
  | .numberJob job queueIdx => some (numberJobProgram server heap t env job queueIdx)
  | .jobState jobid => some (jobStateProgram server heap t jobid)
  | .unsubmit jobid => some (unsubmitProgram server heap jobid)
  | .markUnsubmited jobid found => some (markUnsubmitedProgram server heap t jobid found)
  | .relabel queueIdx job => some (relabelProgram server heap t queueIdx job)
  | .changeStateJob jobid state exitValue =>
      some (changeStateJobProgram server heap t jobid state exitValue)
  | pc => (pc.run server heap t env).map Cells.ofExcept

/-- A program run on the array of a server. -/
def Pc.performs (pc : Pc N) : Option (Except Fault (Result N)) :=
  (pc.program server.bare heap t env).map fun p =>
    (p.outcome server.history.jobArray).map fun x => x.1.withJobs x.2

end Programs

section Performs

variable [NeZero N] {server : MainServer N} {heap : Heap} {t : Nat} {env : Env} {h h' : History}
  {jobid : UInt16}

open HistoryProgram

theorem putIdx_of_markUnsubmited (hop : h.markUnsubmited jobid = .ok h') :
    h'.putIdx = h.putIdx := by
  rw [History.markUnsubmited] at hop
  split at hop
  · cases hop
  · obtain ⟨job, -, hop⟩ := bind_ok hop
    cases hop
    rfl

theorem putIdx_of_changeStateJob {state exitValue : UInt8}
    (hop : h.changeStateJob jobid state exitValue = .ok h') : h'.putIdx = h.putIdx := by
  rw [History.changeStateJob] at hop
  split at hop
  · cases hop
    rfl
  · obtain ⟨job, -, hop⟩ := bind_ok hop
    split at hop
    · cases hop
      rfl
    · cases hop

theorem putIdx_of_putJobBack {queueIdx : UInt8}
    (hop : h.putJobBack jobid queueIdx = .ok (some h')) : h'.putIdx = h.putIdx := by
  rw [History.putJobBack] at hop
  split at hop
  · cases hop
  · obtain ⟨job, -, hop⟩ := bind_ok hop
    cases hop
    rfl

omit [NeZero N] in
/-- A section that leaves the index and the program that leaves the array. -/
theorem withJobs_bare (hput : h.putIdx = server.history.putIdx) :
    server.bare.withJobs h.jobArray = { server with history := h } := by
  obtain ⟨jobs, putIdx⟩ := h
  subst hput
  rfl

theorem Pc.performs_of_program {pc : Pc N} {p : HistoryProgram (Result N)}
    {x : Except Fault (Result N)} (hprogram : pc.program server.bare heap t env = some p)
    (hrun : pc.run server heap t env = some x)
    (hx : x = (p.outcome server.history.jobArray).map fun x => x.1.withJobs x.2) :
    pc.run server heap t env = pc.performs server heap t env := by
  rw [hrun, performs, hprogram, hx]
  rfl

/-- The sections that the history has no part in. -/
theorem Pc.performs_of_run {pc : Pc N}
    (hprogram : pc.program server.bare heap t env =
      (pc.run server.bare heap t env).map Cells.ofExcept)
    (hrun : pc.run server heap t env = (pc.run server.bare heap t env).map
      (Except.map (·.withJobs server.history.jobArray))) :
    pc.run server heap t env = pc.performs server heap t env := by
  rw [hrun, performs, hprogram, Option.map_map]
  cases pc.run server.bare heap t env with
  | none => rfl
  | some x => cases x <;> rfl

/-- The next step of a thread is its program, run on the array that is there. -/
theorem Pc.run_eq_performs (pc : Pc N) :
    pc.run server heap t env = pc.performs server heap t env := by
  cases pc with
  | numberJob job queueIdx =>
      refine performs_of_program rfl rfl ?_
      rw [numberJobSection, numberJobProgram, outcome_bind, outcome_ofExcept]
      cases heap.deref job with
      | error fault => rfl
      | ok contents =>
          show _ = Except.map _ (outcome (HistoryProgram.newJob server.history.putIdx _ >>= _) _)
          rw [outcome_bind, newJob_outcome]
          rfl
  | jobState jobid =>
      refine performs_of_program rfl rfl ?_
      rw [jobStateSection, jobStateProgram, outcome_bind, jobState_outcome]
      cases server.history.jobState jobid <;> rfl
  | unsubmit jobid =>
      refine performs_of_program rfl rfl ?_
      rw [unsubmitSection, unsubmitProgram, outcome_bind, waitingIn_outcome]
      rcases server.history.waitingIn jobid with fault | _ | job <;> rfl
  | markUnsubmited jobid found =>
      refine performs_of_program rfl rfl ?_
      rw [markUnsubmitedSection, markUnsubmitedProgram, outcome_bind, markUnsubmited_outcome]
      rcases hmark : server.history.markUnsubmited jobid with fault | history
      · rfl
      · show Except.ok _ = Except.ok (Result.mk (server.bare.withJobs history.jobArray) _ _ _ _)
        rw [withJobs_bare (putIdx_of_markUnsubmited hmark)]
  | relabel queueIdx job =>
      refine performs_of_program rfl rfl ?_
      rw [relabelSection, relabelProgram, outcome_bind, outcome_ofExcept]
      cases heap.deref job with
      | error fault => rfl
      | ok contents =>
          show Except.bind (server.history.putJobBack contents.id _) _ =
            Except.map _ (outcome (HistoryProgram.putJobBack contents.id _ >>= _) _)
          rw [outcome_bind, putJobBack_outcome]
          rcases hback : server.history.putJobBack contents.id (UInt8.ofNat queueIdx) with
            fault | _ | history
          · rfl
          · rfl
          · show Except.ok _ =
              Except.ok (Result.mk (server.bare.withJobs history.jobArray) _ _ _ _)
            rw [withJobs_bare (putIdx_of_putJobBack hback)]
            rfl
  | changeStateJob jobid state exitValue =>
      refine performs_of_program rfl rfl ?_
      rw [changeStateJobSection, changeStateJobProgram, outcome_bind, changeStateJob_outcome]
      rcases hop : server.history.changeStateJob jobid state exitValue with fault | history
      · rfl
      · show Except.ok _ = Except.ok (Result.mk (server.bare.withJobs history.jobArray) _ _ _ _)
        rw [withJobs_bare (putIdx_of_changeStateJob hop)]
  | attendClient | attendExecServ | closed => exact performs_of_run rfl rfl
  | newJob | reply | sendJob | checkServerStatus | putJobBack => exact performs_of_run rfl rfl
  | putJob caller i job wait =>
      refine performs_of_run rfl ?_
      cases wait with
      | blocked => rfl
      | _ =>
          refine congrArg some ?_
          rw [putJobSection, putJobSection, bare_queue]
          cases (server.queue i).putJob job <;> rfl
  | submittedResponse job queueIdx newJobid =>
      refine performs_of_run rfl (congrArg some ?_)
      rw [submittedResponseStep, submittedResponseStep]
      cases heap.deref job <;> rfl
  | queueState queueid =>
      refine performs_of_run rfl (congrArg some ?_)
      rw [queueStateSection, queueStateSection]
      split <;> rfl
  | sendMsg job =>
      refine performs_of_run rfl (congrArg some ?_)
      rw [sendMsgStep, sendMsgStep]
      cases heap.deref job with
      | error fault => rfl
      | ok contents =>
          cases env.ok <;> rfl
  | unsubmitQueue jobid qIdx found =>
      refine performs_of_run rfl (congrArg some ?_)
      rw [unsubmitQueueSection, unsubmitQueueSection]
      split <;> rfl
  | removeJob jobid i found =>
      refine performs_of_run rfl (congrArg some ?_)
      rw [removeJobSection, removeJobSection, bare_queue]
      cases (server.queue i).removeJob heap jobid <;> rfl
  | getJob i wait =>
      refine performs_of_run rfl ?_
      cases wait with
      | blocked => rfl
      | _ =>
          refine congrArg some ?_
          rw [getJobSection, getJobSection, bare_queue]
          rcases (server.queue i).getJob with _ | ⟨_ | job, q⟩ <;> rfl

end Performs

end DistQueue
