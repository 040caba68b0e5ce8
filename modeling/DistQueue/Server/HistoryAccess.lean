import DistQueue.Server.Faults
import DistQueue.Server.HistoryPrograms

/-!
# Which entries of the history are touched

Every function that works on a record looks it up first, and all but one of the
look-ups are tested. The untested one is the second look-up of an `unsubmit`,
which trusts that what its first section found is still there.

The accesses of a section are those of its program, the ones that `findJob`
makes on its way included.
-/

namespace DistQueue

open DistQueue.Lib

/-- A use of `job_array`, and the id that was looked up to get there. -/
abbrev Access := Touch JobHistory UInt16

/-- Inside the array, at a record unless it is only compared with `NULL`, and at
the record that was looked up. What is stored is a record. -/
structure Access.Valid (a : Access) : Prop where
  inside : a.Inside jobHistoryMax
  record : a.use ≠ .test → ∃ job, a.entry = some job ∧
    ∀ jobid, a.use.key = some jobid → job.id = jobid

namespace HistoryProgram

variable {β γ : Type} {h : History} {jobs : JobArray} {jobid : UInt16} {n idx : Nat}
  {job : JobHistory}

/-- A program all of whose accesses are valid. -/
def Careful (p : HistoryProgram β) (jobs : JobArray) : Prop := ∀ a ∈ p.trace jobs, Access.Valid a

theorem careful_of_nil {p : HistoryProgram β} (htrace : p.trace jobs = []) : p.Careful jobs := by
  intro a ha
  rw [htrace] at ha
  cases ha

theorem careful_pure (b : β) : Careful (pure b) jobs := careful_of_nil rfl

theorem careful_bind {p : HistoryProgram β} {f : β → HistoryProgram γ} :
    Careful (p >>= f) jobs ↔
      p.Careful jobs ∧ ∀ x, p.run jobs = .ok x → (f x.1).Careful x.2 := by
  rw [Careful, Cells.trace_bind]
  simp only [List.mem_append, or_imp, forall_and]
  refine and_congr_right fun _ => ?_
  cases p.run jobs with
  | error stop => exact ⟨fun _ _ hx => (by cases hx), fun _ a ha => (by cases ha)⟩
  | ok x =>
      refine ⟨fun hf y hy => ?_, fun hf => hf x rfl⟩
      injection hy with hy
      exact hy ▸ hf

/-- What comes behind it asks for nothing. -/
theorem careful_map {p : HistoryProgram β} (g : β → γ) :
    Careful (p >>= fun b => pure (g b)) jobs ↔ p.Careful jobs :=
  careful_bind.trans (and_iff_left fun _ _ => careful_pure _)

theorem entryAt_of_record (hrecord : h.record idx = .ok job) :
    idx < jobHistoryMax ∧ entryAt h.jobArray (idx : Int) = some (some job) := by
  rw [entryAt_natCast]
  rw [History.record] at hrecord
  split at hrecord
  · next job' hentry =>
      injection hrecord with hrecord
      subst hrecord
      exact ⟨(Vector.getElem?_eq_some_iff.mp hentry).1, hentry⟩
  · cases hrecord

/-- A use of the record that was looked up. -/
theorem valid_at (hrecord : h.record idx = .ok job) (hid : job.id = jobid) {use : Use UInt16}
    (hkey : use.key = some jobid) : Access.Valid ⟨idx, use, some job⟩ := by
  refine ⟨⟨Int.natCast_nonneg idx, ?_⟩, fun _ => ⟨job, rfl, fun jobid' hjobid => ?_⟩⟩
  · exact Int.ofNat_lt.mpr (entryAt_of_record hrecord).1
  · rw [hkey] at hjobid
    injection hjobid with hjobid
    rw [hid, hjobid]

theorem careful_read_bind (hrecord : h.record idx = .ok job) (hid : job.id = jobid)
    {f : JobHistory → HistoryProgram β} (hf : (f job).Careful h.jobArray) :
    Careful (Cells.read idx (some jobid) >>= f) h.jobArray := by
  have hentry := (entryAt_of_record hrecord).2
  rw [careful_bind]
  constructor
  · intro a ha
    rw [Cells.read, Cells.trace_request, Request.touch, hentry] at ha
    obtain rfl := List.mem_singleton.mp ha
    exact valid_at hrecord hid rfl
  · intro x hx
    rw [Cells.read, Cells.run_request h.jobArray (x := job) (b := h.jobArray)
      (by rw [Request.serve, hentry]; rfl)] at hx
    injection hx with hx
    exact hx ▸ hf

theorem careful_write (hrecord : h.record idx = .ok job) (hid : job.id = jobid)
    (g : JobHistory → JobHistory) :
    Careful (Cells.write idx (some jobid) g) h.jobArray := by
  intro a ha
  rw [Cells.write, Cells.trace_request, Request.touch, (entryAt_of_record hrecord).2] at ha
  obtain rfl := List.mem_singleton.mp ha
  exact valid_at hrecord hid rfl

theorem careful_write_bind (hrecord : h.record idx = .ok job) (hid : job.id = jobid)
    (g : JobHistory → JobHistory) {f : Unit → HistoryProgram β}
    (hf : (f ()).Careful (h.setRecord idx (g job)).jobArray) :
    Careful (Cells.write idx (some jobid) g >>= f) h.jobArray := by
  have hentry := (entryAt_of_record hrecord).2
  rw [careful_bind]
  constructor
  · exact careful_write hrecord hid g
  · intro x hx
    rw [Cells.write, Cells.run_request h.jobArray (x := ())
      (b := (h.setRecord idx (g job)).jobArray) (by rw [Request.serve, hentry]; rfl)] at hx
    injection hx with hx
    exact hx ▸ hf

/-- `findJob` compares entries with `NULL` and reads ids. -/
theorem findJobFrom_only : ∀ n i,
    (findJobFrom jobid n i).Only fun use => use = .test ∨ use = .read none := by
  intro n
  induction n with
  | zero => exact fun _ => trivial
  | succ n ih =>
      intro i
      rw [findJobFrom]
      refine (Cells.only_request (.inl rfl)).bind fun filled => ?_
      split
      · refine (Cells.only_request (.inr rfl)).bind fun job => ?_
        split
        · trivial
        · exact ih (i + 1)
      · trivial

/-- All of them are there: the scan ends at the first `NULL` and at the end of
the array. -/
theorem careful_findJob : (findJob jobid).Careful h.jobArray := by
  intro a ha
  have hsound := Cells.sound_of_run _ _ (findJob_run h jobid) a ha
  refine ⟨hsound.inside, fun hne => ?_⟩
  rcases (findJobFrom_only jobHistoryMax 0).trace h.jobArray a ha with huse | huse
  · exact absurd huse hne
  · obtain ⟨job, hjob⟩ := Option.ne_none_iff_exists'.mp (hsound.entry (by rw [huse]; trivial))
    refine ⟨job, hjob, fun jobid' hkey => ?_⟩
    rw [huse] at hkey
    cases hkey

/-- Programs that begin with a look-up. -/
theorem careful_look (hfind : h.findJob jobid = none) {f : Int → HistoryProgram β} :
    Careful (findJob jobid >>= f) h.jobArray ↔ (f (-1)).Careful h.jobArray := by
  rw [careful_bind, and_iff_right careful_findJob, findJob_run, hfind]
  refine ⟨fun hf => hf _ rfl, fun hf x hx => ?_⟩
  injection hx with hx
  exact hx ▸ hf

theorem careful_found {f : Int → HistoryProgram β} {idx : Nat}
    (hfind : h.findJob jobid = some idx) :
    Careful (findJob jobid >>= f) h.jobArray ↔ (f idx).Careful h.jobArray := by
  rw [careful_bind, and_iff_right careful_findJob, findJob_run, hfind]
  refine ⟨fun hf => hf _ rfl, fun hf x hx => ?_⟩
  injection hx with hx
  exact hx ▸ hf

theorem careful_jobState : (jobState jobid).Careful h.jobArray := by
  rw [jobState]
  cases hfind : h.findJob jobid with
  | none => exact (careful_look hfind).mpr (careful_pure _)
  | some idx =>
      obtain ⟨hidx, job, hjob, hid⟩ := record_of_findJob jobid hfind
      rw [careful_found hfind, if_neg (tests_of_lt hidx).1]
      exact careful_read_bind hjob hid (careful_read_bind hjob hid (careful_pure _))

theorem careful_waitingIn : (waitingIn jobid).Careful h.jobArray := by
  rw [waitingIn]
  cases hfind : h.findJob jobid with
  | none => exact (careful_look hfind).mpr (careful_pure _)
  | some idx =>
      obtain ⟨hidx, job, hjob, hid⟩ := record_of_findJob jobid hfind
      rw [careful_found hfind, if_neg (tests_of_lt hidx).2.1]
      refine careful_read_bind hjob hid ?_
      split
      · exact careful_pure _
      · exact careful_read_bind hjob hid (careful_pure _)

theorem careful_changeStateJob (state exitValue : UInt8) :
    (changeStateJob jobid state exitValue).Careful h.jobArray := by
  rw [changeStateJob]
  cases hfind : h.findJob jobid with
  | none => exact (careful_look hfind).mpr (careful_pure _)
  | some idx =>
      obtain ⟨hidx, job, hjob, hid⟩ := record_of_findJob jobid hfind
      rw [careful_found hfind, if_pos (tests_of_lt hidx).2.2]
      -- Each write leaves a record of the id for the next one.
      have hjob' := record_setRecord (h := h) hidx { job with state := state }
      refine careful_write_bind hjob hid _ (careful_write_bind hjob' hid _ ?_)
      split
      · have hlast := fun h : History => record_setRecord (h := h) hidx
          { job with state := state, exitStatus := exitValue }
        exact careful_write (hlast _) hid _
      · exact careful_of_nil rfl

theorem careful_putJobBack (queueIdx : UInt8) :
    (putJobBack jobid queueIdx).Careful h.jobArray := by
  rw [putJobBack]
  cases hfind : h.findJob jobid with
  | none => exact (careful_look hfind).mpr (careful_pure _)
  | some idx =>
      obtain ⟨hidx, job, hjob, hid⟩ := record_of_findJob jobid hfind
      rw [careful_found hfind, if_neg (tests_of_lt hidx).1]
      exact careful_write_bind hjob hid _ (careful_pure _)

/-- The look-up that is not tested. -/
theorem careful_markUnsubmited_iff :
    (markUnsubmited jobid).Careful h.jobArray ↔ h.findJob jobid ≠ none := by
  rw [markUnsubmited]
  cases hfind : h.findJob jobid with
  | none =>
      rw [careful_look hfind]
      refine ⟨fun hf => ?_, fun hne => absurd rfl hne⟩
      have htouch := Cells.trace_request (ε := Fault) h.jobArray
        (.write (-1) (some jobid) fun job => { job with state := JobState.unsubmited.toByte })
      have hvalid := hf _ (by rw [Cells.write, htouch]; exact List.mem_cons_self)
      have hneg : (0 : Int) ≤ -1 := hvalid.inside.1
      exact absurd hneg (by decide)
  | some idx =>
      obtain ⟨hidx, job, hjob, hid⟩ := record_of_findJob jobid hfind
      rw [careful_found hfind]
      exact ⟨fun _ => Option.some_ne_none idx, fun _ => careful_write hjob hid _⟩

/-- What is stored is a record. -/
theorem careful_store (hidx : idx < jobHistoryMax) (job : JobHistory) :
    Careful (Cells.store idx job) jobs := by
  intro a ha
  rw [Cells.store, Cells.trace_request] at ha
  obtain rfl := List.mem_singleton.mp ha
  exact ⟨⟨Int.natCast_nonneg idx, Int.ofNat_lt.mpr hidx⟩, fun _ => ⟨job, rfl, nofun⟩⟩

theorem careful_free (hslot : h.slot idx = some job) :
    Careful (Cells.free idx) h.jobArray := by
  have hentry := History.slot_eq_some.mp hslot
  have hidx := (Vector.getElem?_eq_some_iff.mp hentry).1
  intro a ha
  rw [Cells.free, Cells.trace_request, Request.touch, entryAt_natCast, hentry] at ha
  obtain rfl := List.mem_singleton.mp ha
  exact ⟨⟨Int.natCast_nonneg idx, Int.ofNat_lt.mpr hidx⟩, fun _ => ⟨job, rfl, nofun⟩⟩

/-- Where `newJob` frees there is a record: the slots are filled from the left,
and an id that is not among the first has a predecessor there. -/
theorem careful_newJob (hinv : h.Inv n) (jobHistory : JobHistory) :
    (newJob h.putIdx jobHistory).Careful h.jobArray := by
  have hid : h.putIdx.toUInt16 = History.idOf n := putIdx_eq hinv
  have hlt := History.slotOf_lt (History.idOf n)
  have hrest : ∀ (freed : Option JobHistory) (jobs : JobArray),
      Careful (Cells.store ↑(History.slotOf (History.idOf n))
        { jobHistory with id := History.idOf n } >>= fun _ => pure (History.idOf n, freed)) jobs :=
    fun _ _ => (careful_map _).mpr (careful_store hlt _)
  rw [newJob, hid]
  dsimp only
  split
  · next hle =>
      have hn : History.slotOf (History.idOf n) < n := by
        have hmax : jobHistoryMax = 10 := rfl
        rw [History.idOf, UInt16.toNat_ofNat'] at hle
        omega
      obtain ⟨job, hslot⟩ : ∃ job, h.slot (History.slotOf (History.idOf n)) = some job :=
        Option.ne_none_iff_exists'.mp fun hnone => by
          have := (hinv.filled _ hlt).mp hnone
          omega
      exact careful_bind.mpr ⟨careful_free hslot, fun x _ => hrest x.1 x.2⟩
  · exact careful_bind.mpr ⟨careful_pure _, fun x _ => hrest x.1 x.2⟩

end HistoryProgram

/-! ## The sections -/

variable {N : Nat}

section Runs

variable [NeZero N]

/-- The accesses of a thread's next step: those of its program, which learns of
the history nothing else. -/
def Pc.accesses (server : MainServer N) (heap : Heap) (t : Nat) (env : Env) (pc : Pc N) :
    List Access :=
  ((pc.program server.bare heap t env).map fun p => p.trace server.history.jobArray).getD []

open HistoryProgram

theorem accesses_of_program {server : MainServer N} {heap : Heap} {t : Nat} {env : Env}
    {pc : Pc N} {p : HistoryProgram (Result N)}
    (hprogram : pc.program server.bare heap t env = some p) :
    (∀ a ∈ pc.accesses server heap t env, a.Valid) ↔ p.Careful server.history.jobArray := by
  rw [Pc.accesses, hprogram]
  rfl

/-- A section that the history has no part in has no accesses. -/
theorem accesses_of_run {server : MainServer N} {heap : Heap} {t : Nat} {env : Env} {pc : Pc N}
    (hprogram : pc.program server.bare heap t env =
      (pc.run server.bare heap t env).map Cells.ofExcept) :
    pc.accesses server heap t env = [] := by
  rw [Pc.accesses, hprogram]
  rcases pc.run server.bare heap t env with _ | x
  · rfl
  · exact Cells.trace_ofExcept _ x

/-- The sections behind a block that is read first. -/
theorem careful_deref {β : Type} {x : Except Fault Job} {f : Job → HistoryProgram β}
    {jobs : JobArray} (hf : ∀ job, (f job).Careful jobs) :
    Careful (Cells.ofExcept x >>= f) jobs := by
  cases x with
  | error fault => exact careful_of_nil rfl
  | ok job => exact hf job

/-- In every state of every run the next step of a thread is its program, run on
the history that is there; and this touches the history only inside the array,
at a record, and at the record of the id it looked up, with one exception: the
last section of an `unsubmit` when the record has gone. -/
theorem history_access_valid_iff {s : Sys N} (h : Reach Sys.step anyStep (· = Sys.init N) s)
    {t : Nat} {pc : Pc N} (ht : s.threads[t]? = some pc) (env : Env) :
    pc.run s.server s.heap t env = pc.performs s.server s.heap t env ∧
    ((∀ a ∈ pc.accesses s.server s.heap t env, a.Valid) ↔ s.MarksFound (.run t env)) := by
  refine ⟨pc.run_eq_performs, ?_⟩
  have hinv := (linked_of_reach h).inv
  have htrue : (∀ a ∈ pc.accesses s.server s.heap t env, a.Valid) →
      (∀ jobid found, pc ≠ .markUnsubmited jobid found) →
      ((∀ a ∈ pc.accesses s.server s.heap t env, a.Valid) ↔ s.MarksFound (.run t env)) := by
    intro hvalid hpc
    refine ⟨fun _ => ?_, fun _ => hvalid⟩
    unfold Sys.MarksFound
    split
    · next jobid found hrunning =>
        rw [Sys.running, ht] at hrunning
        injection hrunning with hrunning
        exact absurd hrunning (hpc jobid found)
    · trivial
  cases pc with
  | markUnsubmited jobid found =>
      have hmarks : s.MarksFound (.run t env) ↔ s.server.history.findJob jobid ≠ none := by
        simp only [Sys.MarksFound, Sys.running, ht]
      rw [hmarks, ← careful_markUnsubmited_iff, accesses_of_program rfl]
      exact careful_map _
  | numberJob job queueIdx =>
      refine htrue ((accesses_of_program rfl).mpr ?_) fun _ _ h => by cases h
      exact careful_deref fun contents => (careful_map _).mpr (careful_newJob hinv _)
  | jobState jobid =>
      refine htrue ((accesses_of_program rfl).mpr ?_) fun _ _ h => by cases h
      exact (careful_map _).mpr careful_jobState
  | unsubmit jobid =>
      refine htrue ((accesses_of_program rfl).mpr ?_) fun _ _ h => by cases h
      exact (careful_map _).mpr careful_waitingIn
  | changeStateJob jobid state exitValue =>
      refine htrue ((accesses_of_program rfl).mpr ?_) fun _ _ h => by cases h
      exact (careful_map _).mpr (careful_changeStateJob state exitValue)
  | relabel queueIdx job =>
      refine htrue ((accesses_of_program rfl).mpr ?_) fun _ _ h => by cases h
      exact careful_deref fun contents => (careful_map _).mpr (careful_putJobBack _)
  | _ =>
      refine htrue ?_ fun _ _ h => by cases h
      rw [accesses_of_run rfl]
      exact fun a ha => by cases ha

end Runs

/-- Job 0 is taken out of its queue by an `unsubmit`; before the `unsubmit` goes
on, ten more jobs are submitted. -/
def unmarkedRun : List Action :=
  [.acceptClient, .acceptClient, .submit 0, .go 0, .go 0, .go 0, .go 0,
    .cancel 1 0, .go 1, .go 1, .go 1] ++
  (List.replicate 10 [.submit 0, .go 0, .go 0, .go 0, .go 0]).flatten

theorem history_access_valid_iff_found :
    ∃ s : Sys numQueueMax, Reach Sys.step anyStep (· = Sys.init numQueueMax) s ∧
      s.threads[1]? = some (.markUnsubmited 0 0) ∧
      (Pc.markUnsubmited 0 0).accesses s.server s.heap 1 (Action.env true) ≠ [] ∧
      ∀ a ∈ (Pc.markUnsubmited 0 0).accesses s.server s.heap 1 (Action.env true), a.Valid := by
  obtain ⟨s, hr, ht, hne, hfound⟩ :
      ∃ s, Reach Sys.step anyStep (· = Sys.init numQueueMax) s ∧
        s.threads[1]? = some (.markUnsubmited 0 0) ∧
        (Pc.markUnsubmited 0 0).accesses s.server s.heap 1 (Action.env true) ≠ [] ∧
        s.MarksFound (.run 1 (Action.env true)) :=
    @reach_of_checkedRun _ _ _ _ _ _ (unmarkedRun.take 11) _ _ _ rfl (by decide +kernel)
  exact ⟨s, hr, ht, hne, (history_access_valid_iff hr ht (Action.env true)).2.mpr hfound⟩

/-- `job_array[-1]` is written. -/
theorem unsubmit_writes_outside :
    ∃ s : Sys numQueueMax, Reach Sys.step anyStep (· = Sys.init numQueueMax) s ∧ s.Bounded ∧
      s.fault = none ∧ s.threads[1]? = some (.markUnsubmited 0 0) ∧
      (s.step (.go 1)).bind Sys.fault = some .invalidAccess ∧
      ¬ ∀ a ∈ (Pc.markUnsubmited 0 0).accesses s.server s.heap 1 (Action.env true), a.Valid := by
  obtain ⟨s, hr, hb, hfault, ht, hstep, hacc⟩ :
      ∃ s, Reach Sys.step anyStep (· = Sys.init numQueueMax) s ∧ s.Bounded ∧ s.fault = none ∧
        s.threads[1]? = some (.markUnsubmited 0 0) ∧
        (s.step (.go 1)).bind Sys.fault = some .invalidAccess ∧
        ⟨-1, .write (some 0), none⟩ ∈
          (Pc.markUnsubmited 0 0).accesses s.server s.heap 1 (Action.env true) :=
    @reach_of_checkedRun _ _ _ _ _ _ unmarkedRun _ _ _ rfl (by decide +kernel)
  refine ⟨s, hr, hb, hfault, ht, hstep, fun hvalid => ?_⟩
  have hneg : (0 : Int) ≤ -1 := (hvalid _ hacc).inside.1
  exact absurd hneg (by decide)

end DistQueue
