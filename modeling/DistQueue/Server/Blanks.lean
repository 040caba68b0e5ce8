import DistQueue.Server.Memory
import DistQueue.Server.OwnBytes
import DistQueue.Server.Retention

/-!
# What `malloc` left in a block

`submitNoInter` and `submitInter` leave the id of a job as it was until
`newJob` stores it, and `newJob` leaves `exit_status` as it was until a report
comes in. The local messages start with whatever is on the stack.

Two runs that get the same messages and differ in nothing but these leftovers
go through the same sections with the same queues, and pass the same bytes to
`send`. The one exception is an answer about a job that no report has named:
its exit value is the leftover.
-/

namespace DistQueue

open DistQueue.Lib

/-! ## Without the leftovers

What is left of the data when the fields that `malloc` decides are cleared. -/

def JobHistory.forget (job : JobHistory) : JobHistory := { job with exitStatus := 0 }

def Job.forget (job : Job) : Job := { job with id := 0 }

def Cell.forget (cell : Cell) : Cell := { cell with job := cell.job.forget }

def Heap.forget (heap : Heap) : Heap := heap.map Cell.forget

def HistOp.forget : HistOp → HistOp
  | .newJob jobHistory queueIdx ipaddr =>
      .newJob ⟨jobHistory.addr, 0, 0, 0, 0, 0⟩ queueIdx ipaddr
  | op => op

namespace History

def forget (h : History) : History :=
  { h with jobArray := h.jobArray.map (Option.map JobHistory.forget) }

section Forget

variable (h : History) (jobid : UInt16)

theorem findFrom_forget (jobArray : Vector (Option JobHistory) jobHistoryMax) :
    ∀ n i, findFrom (jobArray.map (Option.map JobHistory.forget)) jobid n i =
      findFrom jobArray jobid n i := by
  intro n
  induction n with
  | zero => exact fun i => rfl
  | succ n ih =>
      intro i
      rw [findFrom, findFrom, Vector.getElem?_map]
      rcases jobArray[i]? with _ | _ | job
      · rfl
      · rfl
      · show (if job.id = jobid then _ else _) = if job.id = jobid then _ else _
        rw [ih]

@[simp] theorem findJob_forget : h.forget.findJob jobid = h.findJob jobid :=
  findFrom_forget jobid h.jobArray _ _

theorem record_forget (idx : Nat) : h.forget.record idx = (h.record idx).map JobHistory.forget := by
  simp only [record, forget, Vector.getElem?_map]
  rcases h.jobArray[idx]? with _ | _ | job <;> rfl

theorem setRecord_forget (idx : Nat) (job : JobHistory) :
    (h.setRecord idx job).forget = h.forget.setRecord idx job.forget := by
  simp only [setRecord, forget]
  congr 1
  ext i hi
  simp only [Vector.getElem_map, Vector.getElem_setIfInBounds]
  split <;> rfl

end Forget

theorem forget_setRecord_congr {h h' : History} (heq : h.forget = h'.forget) (idx : Nat)
    {job job' : JobHistory} (hjob : job.forget = job'.forget) :
    (h.setRecord idx job).forget = (h'.setRecord idx job').forget := by
  rw [setRecord_forget, setRecord_forget, heq, hjob]

section Congr

variable {h h' : History} (heq : h.forget = h'.forget)

include heq

theorem findJob_congr (jobid : UInt16) : h.findJob jobid = h'.findJob jobid := by
  rw [← findJob_forget, heq, findJob_forget]

/-- A section that finds its record and goes on with it. -/
theorem found_congr {α β : Type*} {f f' : JobHistory → Except Fault α} {g : α → β}
    (hf : ∀ job job' : JobHistory, job.forget = job'.forget → (f job).map g = (f' job').map g)
    (idx : Nat) : ((h.record idx).bind f).map g = ((h'.record idx).bind f').map g := by
  have hrecord : (h.record idx).map JobHistory.forget = (h'.record idx).map JobHistory.forget := by
    rw [← record_forget, heq, record_forget]
  cases hjob : h.record idx <;> cases hjob' : h'.record idx <;> rw [hjob, hjob'] at hrecord
  · injection hrecord with hrecord
    rw [hrecord]
    rfl
  · cases hrecord
  · cases hrecord
  · injection hrecord with hrecord
    exact hf _ _ hrecord

theorem waitingIn_congr (jobid : UInt16) :
    (h.waitingIn jobid).map (Option.map JobHistory.forget) =
      (h'.waitingIn jobid).map (Option.map JobHistory.forget) := by
  rw [waitingIn, waitingIn, findJob_congr heq]
  cases h'.findJob jobid with
  | none => rfl
  | some idx =>
      refine found_congr heq (fun job job' hjob => ?_) idx
      have hstate : job.forget.state = job'.forget.state := by rw [hjob]
      show Except.ok (Option.map _ (if job.forget.state = _ then _ else _)) = Except.ok
        (Option.map _ (if job'.forget.state = _ then _ else _))
      rw [hstate]
      split
      · exact congrArg (fun job => Except.ok (some job)) hjob
      · rfl

theorem markUnsubmited_congr (jobid : UInt16) :
    (h.markUnsubmited jobid).map forget = (h'.markUnsubmited jobid).map forget := by
  rw [markUnsubmited, markUnsubmited, findJob_congr heq]
  cases h'.findJob jobid with
  | none => rfl
  | some idx =>
      refine found_congr heq (fun job job' hjob => ?_) idx
      refine congrArg Except.ok (forget_setRecord_congr heq idx ?_)
      exact congrArg (fun job => { job with state := JobState.unsubmited.toByte }) hjob

theorem changeStateJob_congr (jobid : UInt16) (state exitValue : UInt8) :
    (h.changeStateJob jobid state exitValue).map forget =
      (h'.changeStateJob jobid state exitValue).map forget := by
  rw [changeStateJob, changeStateJob, findJob_congr heq]
  cases h'.findJob jobid with
  | none => exact congrArg Except.ok heq
  | some idx =>
      refine found_congr heq (fun job job' hjob => ?_) idx
      split
      · refine congrArg Except.ok (forget_setRecord_congr heq idx ?_)
        exact congrArg (fun job => { job with state := state, exitStatus := 0 }) hjob
      · rfl

theorem putJobBack_congr (jobid : UInt16) (queueIdx : UInt8) :
    (h.putJobBack jobid queueIdx).map (Option.map forget) =
      (h'.putJobBack jobid queueIdx).map (Option.map forget) := by
  rw [putJobBack, putJobBack, findJob_congr heq]
  cases h'.findJob jobid with
  | none => rfl
  | some idx =>
      refine found_congr heq (fun job job' hjob => ?_) idx
      refine congrArg (fun h => Except.ok (some h)) (forget_setRecord_congr heq idx ?_)
      exact congrArg (fun job => { job with queueIdx := queueIdx }) hjob

theorem newJob_congr {blank blank' : JobHistory} (haddr : blank.addr = blank'.addr)
    (queueIdx : UInt16) (ipaddr : UInt32) :
    (h.newJob (setParamsNewJobHistory blank queueIdx ipaddr)).history.forget =
        (h'.newJob (setParamsNewJobHistory blank' queueIdx ipaddr)).history.forget ∧
      (h.newJob (setParamsNewJobHistory blank queueIdx ipaddr)).id =
        (h'.newJob (setParamsNewJobHistory blank' queueIdx ipaddr)).id := by
  have hidx : h.forget.putIdx = h'.forget.putIdx := by rw [heq]
  have hidx : h.putIdx = h'.putIdx := hidx
  have harray : h.forget.jobArray = h'.forget.jobArray := by rw [heq]
  have hcells : h.jobArray.map (Option.map JobHistory.forget) =
      h'.jobArray.map (Option.map JobHistory.forget) := harray
  simp only [newJob, forget, Vector.map_set, hcells, hidx, setParamsNewJobHistory, Option.map_some,
    JobHistory.forget, haddr, and_self]

end Congr

/-! ### The operations without the leftovers -/

theorem submissions_forget (ops : List HistOp) :
    submissions (ops.map HistOp.forget) = submissions ops := by
  rw [submissions, submissions, List.countP_map]
  refine List.countP_congr fun op _ => ?_
  cases op <;> rfl

theorem filterMap_forget {α : Type*} {f : HistOp → Option α}
    (hf : ∀ r q a, f (.newJob r q a) = none) (ops : List HistOp) :
    (ops.map HistOp.forget).filterMap f = ops.filterMap f := by
  rw [List.filterMap_map]
  refine List.filterMap_congr fun op _ => ?_
  cases op with
  | newJob r q a => exact (hf _ q a).trans (hf r q a).symm
  | _ => rfl

theorem newJob_of_forget {op op' : HistOp} (h : op.forget = op'.forget) {r : JobHistory}
    {q : UInt16} {a : UInt32} (hop : op = .newJob r q a) :
    ∃ r', op' = .newJob r' q a ∧ r.addr = r'.addr := by
  subst hop
  cases op' with
  | newJob r' q' a' =>
      injection h with hr hq ha
      injection hr with hr
      exact ⟨r', by rw [hq, ha], hr⟩
  | _ => cases h

section Same

variable {ops ops' : List HistOp} (h : ops.map HistOp.forget = ops'.map HistOp.forget)

include h

theorem submissions_congr : submissions ops = submissions ops' := by
  rw [← submissions_forget, h, submissions_forget]

theorem split_forget {pre post : List HistOp} {r : JobHistory} {q : UInt16} {a : UInt32}
    (hsplit : ops = pre ++ .newJob r q a :: post) :
    ∃ pre' r' post', ops' = pre' ++ .newJob r' q a :: post' ∧
      pre.map HistOp.forget = pre'.map HistOp.forget ∧
      post.map HistOp.forget = post'.map HistOp.forget := by
  rw [hsplit, List.map_append, List.map_cons] at h
  obtain ⟨pre', tail', rfl, hpre, htail⟩ := List.append_eq_map_iff.mp h
  obtain ⟨op', post', rfl, hop, hpost⟩ := List.map_eq_cons_iff.mp htail
  obtain ⟨r', rfl, -⟩ := newJob_of_forget hop.symm rfl
  exact ⟨pre', r', post', rfl, hpre.symm, hpost.symm⟩

theorem latest_forget {c : Nat} {pre post : List HistOp} {r : JobHistory} {q : UInt16} {a : UInt32}
    (hl : Latest ops c pre r q a post) :
    ∃ pre' r' post', Latest ops' c pre' r' q a post' ∧
      pre.map HistOp.forget = pre'.map HistOp.forget ∧
      post.map HistOp.forget = post'.map HistOp.forget := by
  obtain ⟨pre', r', post', hsplit, hpre, hpost⟩ := split_forget h hl.split
  refine ⟨pre', r', post', ⟨hsplit, ?_, fun mid' r₁ q₁ a₁ post₁ hpost' => ?_⟩, hpre, hpost⟩
  · rw [← submissions_congr hpre]
    exact hl.here
  · obtain ⟨mid, r₂, post₂, hsplit₂, hmid, -⟩ := split_forget hpost.symm hpost'
    have hlast := hl.last mid r₂ q₁ a₁ post₂ hsplit₂
    rw [submissions_append, submissions_cons, submissions_congr hpre, submissions_congr hmid.symm]
      at hlast
    rw [submissions_append, submissions_cons]
    exact hlast

/-- A report has come in: the leftover is gone. -/
theorem jobState_congr {hist hist' : History} (hrun : run ops = .ok hist)
    (hrun' : run ops' = .ok hist') (heq : hist.forget = hist'.forget) {jobid : UInt16}
    (hreported : ∀ pre r q a post, Latest ops (slotOf jobid) pre r q a post →
      idOf (submissions pre) = jobid → post.filterMap (exitWritten jobid) ≠ []) :
    hist.jobState jobid = hist'.jobState jobid := by
  cases hret : hist.retained jobid with
  | none =>
      have hfind : hist.findJob jobid = none := by
        rw [findJob_eq (run_slot hrun).1, hret]
        rfl
      have hfind' : hist'.findJob jobid = none := by rw [← findJob_congr heq, hfind]
      rw [jobState, jobState, hfind, hfind']
  | some job =>
      obtain ⟨pre, r, q, a, post, hl, hid⟩ := exists_latest hrun hret
      obtain ⟨pre', r', post', hl', hpre, hpost⟩ := latest_forget h hl
      have hid' : idOf (submissions pre') = jobid := by rw [← submissions_congr hpre, hid]
      have hstate : post.filterMap (stateWritten jobid) = post'.filterMap (stateWritten jobid) := by
        rw [← filterMap_forget (fun _ _ _ => rfl), hpost, filterMap_forget fun _ _ _ => rfl]
      have hexit : post.filterMap (exitWritten jobid) = post'.filterMap (exitWritten jobid) := by
        rw [← filterMap_forget (fun _ _ _ => rfl), hpost, filterMap_forget fun _ _ _ => rfl]
      obtain ⟨v, hv⟩ := Option.ne_none_iff_exists'.mp
        (mt List.getLast?_eq_none_iff.mp (hreported pre r q a post hl hid))
      rw [jobState_latest hrun hl hid, jobState_latest hrun' hl' hid', ← hstate, ← hexit, hv]
      rfl

end Same

end History

/-! ## The heap -/

namespace Heap

variable {heap heap' : Heap} (heq : heap.forget = heap'.forget)

include heq

theorem length_congr : heap.length = heap'.length := by
  have h := congrArg List.length heq
  rwa [forget, forget, List.length_map, List.length_map] at h

theorem cell_congr (p : Ptr) : heap[p]?.map Cell.forget = heap'[p]?.map Cell.forget := by
  have h := congrArg (fun heap : Heap => heap[p]?) heq
  simp only [forget] at h
  rwa [List.getElem?_map, List.getElem?_map] at h

theorem load_congr (p : Ptr) : (heap.load p).map Job.forget = (heap'.load p).map Job.forget := by
  have h := cell_congr heq p
  rw [load, load]
  cases hcell : heap[p]? <;> cases hcell' : heap'[p]? <;> rw [hcell, hcell'] at h
  · cases h
  · cases h
  · next cell cell' =>
      obtain ⟨job, freed⟩ := cell
      obtain ⟨job', freed'⟩ := cell'
      injection h with h
      injection h with hjob hfreed
      subst hfreed
      cases freed
      · exact congrArg some hjob
      · rfl

/-- A block that can be read in both heaps has the same job up to the id. -/
theorem load_some {p : Ptr} {job : Job} (h : heap.load p = some job) :
    ∃ job', heap'.load p = some job' ∧ job.forget = job'.forget := by
  have hload := load_congr heq p
  rw [h] at hload
  obtain ⟨job', hjob', hforget⟩ := Option.map_eq_some_iff.mp hload.symm
  exact ⟨job', hjob', hforget.symm⟩

theorem load_same {p : Ptr} (h : heap.contents p = heap'.contents p) :
    heap.load p = heap'.load p := by
  have hforget := cell_congr heq p
  rw [contents, contents] at h
  rw [load, load]
  cases hcell : heap[p]? <;> cases hcell' : heap'[p]? <;> rw [hcell, hcell'] at h hforget
  · cases h
  · cases h
  · next cell cell' =>
      obtain ⟨job, freed⟩ := cell
      obtain ⟨job', freed'⟩ := cell'
      injection h with h
      injection hforget with hforget
      injection hforget with _ hfreed
      subst hfreed
      rw [show job = job' from h]

theorem malloc_congr {job job' : Job} (h : job.forget = job'.forget) :
    (heap.malloc job).forget = (heap'.malloc job').forget := by
  rw [forget, forget, malloc, malloc, List.map_append, List.map_append]
  refine congrArg₂ _ heq (congrArg (fun job => [Cell.mk job false]) h)

theorem store_congr {job job' : Job} (p : Ptr) (h : job.forget = job'.forget) :
    (heap.store p job).forget = (heap'.store p job').forget := by
  rw [forget, forget, store, store, List.map_set, List.map_set]
  refine congrArg₂ (fun heap cell => List.set heap p cell) heq ?_
  exact congrArg (fun job => Cell.mk job false) h

theorem free_congr (p : Ptr) : (heap.free p).forget = (heap'.free p).forget := by
  have hmap : ∀ heap : Heap, (heap.free p).forget =
      heap.forget.modify p fun cell => { cell with freed := true } := by
    intro heap
    refine List.ext_getElem? fun i => ?_
    simp only [forget, free, List.getElem?_modify, List.getElem?_map]
    cases heap[i]? with
    | none => rfl
    | some cell =>
        simp only [Option.map_some]
        split <;> rfl
  rw [hmap, hmap, heq]

end Heap

theorem Queue.search_congr {jobs : Vector (Option Ptr) maxJobsQueue} {heap heap' : Heap}
    (h : ∀ p k : Nat, jobs[k]? = some (some p) → heap.load p = heap'.load p) (jobid : UInt16) :
    ∀ n idx, search jobs heap jobid n idx = search jobs heap' jobid n idx := by
  intro n
  induction n with
  | zero => exact fun idx => rfl
  | succ n ih =>
      intro idx
      rw [search, search]
      split
      · next p hp => rw [h p idx hp, ih]
      · rfl

theorem Queue.removeJob_congr {q : Queue} {heap heap' : Heap}
    (h : ∀ p, q.Holds p → heap.load p = heap'.load p) (jobid : UInt16) :
    q.removeJob heap jobid = q.removeJob heap' jobid := by
  simp only [removeJob, search_congr (fun p k hk => h p ⟨k, hk⟩) jobid]

/-! ## Twin states -/

variable {N : Nat}

structure MainServer.Twin (server server' : MainServer N) : Prop where
  history : server.history.forget = server'.history.forget
  queue : server.queue = server'.queue
  queue2put : server.queue2put = server'.queue2put
  queue2get : server.queue2get = server'.queue2get

/-- Equal but for the leftovers. -/
structure Sys.Alike (s s' : Sys N) : Prop where
  server : s.server.Twin s'.server
  heap : s.heap.forget = s'.heap.forget
  threads : s.threads = s'.threads
  ops : s.ops.map HistOp.forget = s'.ops.map HistOp.forget
  fault : s.fault = none ↔ s'.fault = none

/-- A job that is past its draft has no leftovers. -/
structure Sys.Twin (s s' : Sys N) : Prop extends s.Alike s' where
  stamped : ∀ p, s.Stamped p → s.heap.contents p = s'.heap.contents p

structure Result.Twin (r r' : Result N) : Prop where
  server : r.server.Twin r'.server
  heap : r.heap.forget = r'.heap.forget
  pc : r.pc = r'.pc
  signals : r.signals = r'.signals
  ops : (r.events.filterMap Event.historyOp).map HistOp.forget =
    (r'.events.filterMap Event.historyOp).map HistOp.forget

section Sections

variable [NeZero N] {server server' : MainServer N} {heap heap' : Heap} {t : Nat} {env env' : Env}
  {pc : Pc N}

omit [NeZero N] in
theorem MainServer.Twin.withHistory (h : server.Twin server') {history history' : History}
    (hhist : history.forget = history'.forget) :
    MainServer.Twin { server with history := history } { server' with history := history' } :=
  ⟨hhist, h.queue, h.queue2put, h.queue2get⟩

omit [NeZero N] in
theorem MainServer.Twin.setQueue (h : server.Twin server') (i : Fin N) (q : Queue) :
    (server.setQueue i q).Twin (server'.setQueue i q) := by
  refine ⟨h.history, ?_, h.queue2put, h.queue2get⟩
  show Function.update server.queue i q = Function.update server'.queue i q
  rw [h.queue]

/-- What two states need to agree on for the next section of a thread. -/
structure Pc.Agree (pc : Pc N) (server server' : MainServer N) (heap heap' : Heap) : Prop where
  twin : server.Twin server'
  forget : heap.forget = heap'.forget
  carries : ∀ p, pc.carries = some p → heap.contents p = heap'.contents p
  queues : ∀ i p, (server.queue i).Holds p → heap.contents p = heap'.contents p
  jobState : ∀ jobid, pc = .jobState jobid →
    server.history.jobState jobid = server'.history.jobState jobid

omit [NeZero N] in
theorem map_ok_congr {α β : Type*} {g : α → β} {x x' : Except Fault α} {a : α}
    (h : x.map g = x'.map g) (ha : x = .ok a) : ∃ a', x' = .ok a' ∧ g a = g a' := by
  rw [ha] at h
  cases x' with
  | error e => cases h
  | ok a' =>
      injection h with h
      exact ⟨a', rfl, h⟩

omit [NeZero N] in
theorem filterMap_if (b : Bool) (e : Event N) (he : e.historyOp = none) :
    (if b then [e] else []).filterMap Event.historyOp = [] := by
  cases b
  · rfl
  · exact List.filterMap_cons_none he

/-- What the section leaves in the one state, it leaves in the other. -/
def Pc.Follows (pc : Pc N) (server server' : MainServer N) (heap heap' : Heap) (t : Nat)
    (env env' : Env) : Prop :=
  ∀ r, pc.run server heap t env = some (.ok r) →
    ∃ r', pc.run server' heap' t env' = some (.ok r') ∧ r.Twin r'

omit [NeZero N] in
theorem Pc.Agree.deref_ok (h : pc.Agree server server' heap heap') {p : Ptr} {job : Job}
    (hload : heap.deref p = .ok job) :
    ∃ job', heap'.deref p = .ok job' ∧ job.forget = job'.forget := by
  obtain ⟨job', hload', hjob⟩ := Heap.load_some h.forget (DistQueue.deref_ok hload)
  exact ⟨job', by rw [Heap.deref, hload'], hjob⟩

omit [NeZero N] in
theorem Pc.Agree.deref_carried (h : pc.Agree server server' heap heap') {p : Ptr}
    (hp : pc.carries = some p) : heap.deref p = heap'.deref p := by
  rw [Heap.deref, Heap.deref, Heap.load_same h.forget (h.carries p hp)]

theorem newJob_twin {job : Ptr}
    (h : Pc.Agree (.newJob job : Pc N) server server' heap heap') :
    Pc.Follows (.newJob job : Pc N) server server' heap heap' t env env' := by
  intro r hrun
  injection hrun with hrun; injection hrun with hrun; subst hrun
  refine ⟨_, rfl, ⟨h.twin.history, h.twin.queue, ?_, h.twin.queue2get⟩, h.forget, ?_, rfl, rfl⟩
  · show server.queue2put + 1 = server'.queue2put + 1
    rw [h.twin.queue2put]
  · show Pc.numberJob _ _ = Pc.numberJob _ _
    rw [h.twin.queue2put]

theorem numberJob_twin {job : Ptr} {queueIdx : UInt16}
    (h : Pc.Agree (.numberJob job queueIdx : Pc N) server server' heap heap') :
    Pc.Follows (.numberJob job queueIdx : Pc N) server server' heap heap' t env env' := by
  intro r hrun
  injection hrun with hrun
  obtain ⟨contents, hload, hrun⟩ := bind_ok hrun
  injection hrun with hrun; subst hrun
  obtain ⟨contents', hload', hjob⟩ := h.deref_ok hload
  have hipaddr : contents.ipaddr = contents'.ipaddr := by
    show contents.forget.ipaddr = contents'.forget.ipaddr
    rw [hjob]
  obtain ⟨hnew, hid⟩ := @History.newJob_congr _ _ h.twin.history
    { env.blank with addr := job } { env'.blank with addr := job } rfl queueIdx contents.ipaddr
  refine ⟨_, by rw [Pc.run, numberJobSection, hload']; rfl, ?_⟩
  refine ⟨h.twin.withHistory (hipaddr ▸ hnew), h.forget, ?_, rfl, ?_⟩
  · show Pc.submittedResponse _ _ _ = Pc.submittedResponse _ _ _
    rw [hid, hipaddr]
  · show [HistOp.newJob _ _ _] = [HistOp.newJob _ _ _]
    rw [hipaddr]

theorem submittedResponse_twin {job : Ptr} {queueIdx : UInt16} {newJobid : UInt16}
    (h : Pc.Agree (.submittedResponse job queueIdx newJobid : Pc N) server server' heap heap') :
    Pc.Follows (.submittedResponse job queueIdx newJobid : Pc N) server server' heap heap' t env
      env' := by
  intro r hrun
  injection hrun with hrun
  obtain ⟨contents, hload, hrun⟩ := bind_ok hrun
  injection hrun with hrun; subst hrun
  obtain ⟨contents', hload', hjob⟩ := h.deref_ok hload
  refine ⟨_, by rw [Pc.run, submittedResponseStep, hload']; rfl, ?_⟩
  refine ⟨h.twin, Heap.store_congr h.forget job ?_, rfl, rfl, ?_⟩
  · exact hjob
  · dsimp only
    rw [filterMap_if _ _ rfl, filterMap_if _ _ rfl]

theorem putJob_twin {caller : Caller} {i : Fin N} {job : Ptr} {wait : Wait}
    (h : Pc.Agree (.putJob caller i job wait : Pc N) server server' heap heap') :
    Pc.Follows (.putJob caller i job wait : Pc N) server server' heap heap' t env env' := by
  intro r hrun
  cases wait with
  | blocked => cases hrun
  | _ =>
      injection hrun with hrun; injection hrun with hrun; subst hrun
      refine ⟨_, rfl, ?_⟩
      rw [putJobSection, putJobSection, ← h.twin.queue]
      cases (server.queue i).putJob job with
      | none => exact ⟨h.twin, h.forget, rfl, rfl, rfl⟩
      | some q => exact ⟨h.twin.setQueue i q, h.forget, rfl, rfl, rfl⟩

theorem jobState_twin {jobid : UInt16}
    (h : Pc.Agree (.jobState jobid : Pc N) server server' heap heap') :
    Pc.Follows (.jobState jobid : Pc N) server server' heap heap' t env env' := by
  intro r hrun
  injection hrun with hrun
  obtain ⟨answer, hstate, hrun⟩ := bind_ok hrun
  injection hrun with hrun; subst hrun
  rw [h.jobState jobid rfl] at hstate
  refine ⟨_, by rw [Pc.run, jobStateSection, hstate]; rfl, ?_⟩
  exact ⟨h.twin, h.forget, rfl, rfl, rfl⟩

theorem queueState_twin {queueid : UInt8}
    (h : Pc.Agree (.queueState queueid : Pc N) server server' heap heap') :
    Pc.Follows (.queueState queueid : Pc N) server server' heap heap' t env env' := by
  intro r hrun
  injection hrun with hrun; injection hrun with hrun; subst hrun
  refine ⟨_, rfl, ?_⟩
  rw [queueStateSection, queueStateSection, ← h.twin.queue]
  split <;> exact ⟨h.twin, h.forget, rfl, rfl, rfl⟩

theorem unsubmit_twin {jobid : UInt16}
    (h : Pc.Agree (.unsubmit jobid : Pc N) server server' heap heap') :
    Pc.Follows (.unsubmit jobid : Pc N) server server' heap heap' t env env' := by
  intro r hrun
  injection hrun with hrun
  obtain ⟨job, hwait, hrun⟩ := bind_ok hrun
  injection hrun with hrun; subst hrun
  obtain ⟨job', hwait', hjob⟩ := map_ok_congr (History.waitingIn_congr h.twin.history jobid) hwait
  refine ⟨_, by rw [Pc.run, unsubmitSection, hwait']; rfl, ?_⟩
  rcases job with _ | job <;> rcases job' with _ | job'
  · exact ⟨h.twin, h.forget, rfl, rfl, rfl⟩
  · cases hjob
  · cases hjob
  · injection hjob with hjob
    injection hjob with haddr _ _ _ _ hidx
    refine ⟨h.twin, h.forget, ?_, rfl, rfl⟩
    show Pc.unsubmitQueue _ _ _ = Pc.unsubmitQueue _ _ _
    rw [haddr, hidx]

theorem unsubmitQueue_twin {jobid : UInt16} {qIdx : UInt8} {found : Ptr}
    (h : Pc.Agree (.unsubmitQueue jobid qIdx found : Pc N) server server' heap heap') :
    Pc.Follows (.unsubmitQueue jobid qIdx found : Pc N) server server' heap heap' t env env' := by
  intro r hrun
  injection hrun with hrun
  rw [unsubmitQueueSection] at hrun
  split at hrun
  · next hi =>
      injection hrun with hrun; subst hrun
      refine ⟨_, by rw [Pc.run, unsubmitQueueSection, dif_pos hi], ?_⟩
      exact ⟨h.twin, h.forget, rfl, rfl, rfl⟩
  · cases hrun

theorem removeJob_twin {jobid : UInt16} {i : Fin N} {found : Ptr}
    (h : Pc.Agree (.removeJob jobid i found : Pc N) server server' heap heap') :
    Pc.Follows (.removeJob jobid i found : Pc N) server server' heap heap' t env env' := by
  intro r hrun
  injection hrun with hrun
  obtain ⟨rm, hrm, hrun⟩ := bind_ok hrun
  injection hrun with hrun; subst hrun
  have hload : ∀ p, (server.queue i).Holds p → heap.load p = heap'.load p := fun p hp =>
    Heap.load_same h.forget (h.queues i p hp)
  rw [Queue.removeJob_congr hload, h.twin.queue] at hrm
  refine ⟨_, by rw [Pc.run, removeJobSection, hrm]; rfl, ?_⟩
  refine ⟨h.twin.setQueue i rm.queue, ?_, rfl, rfl, rfl⟩
  cases rm.freed with
  | none => exact h.forget
  | some p => exact Heap.free_congr h.forget p

theorem markUnsubmited_twin {jobid : UInt16} {found : Ptr}
    (h : Pc.Agree (.markUnsubmited jobid found : Pc N) server server' heap heap') :
    Pc.Follows (.markUnsubmited jobid found : Pc N) server server' heap heap' t env env' := by
  intro r hrun
  injection hrun with hrun
  obtain ⟨history, hop, hrun⟩ := bind_ok hrun
  injection hrun with hrun; subst hrun
  obtain ⟨history', hop', hhist⟩ :=
    map_ok_congr (History.markUnsubmited_congr h.twin.history jobid) hop
  refine ⟨_, by rw [Pc.run, markUnsubmitedSection, hop']; rfl, ?_⟩
  exact ⟨h.twin.withHistory hhist, h.forget, rfl, rfl, rfl⟩

theorem reply_twin {answer : Answer}
    (h : Pc.Agree (.reply answer : Pc N) server server' heap heap') :
    Pc.Follows (.reply answer : Pc N) server server' heap heap' t env env' := by
  intro r hrun
  injection hrun with hrun; injection hrun with hrun; subst hrun
  refine ⟨_, rfl, h.twin, h.forget, rfl, rfl, ?_⟩
  simp only [replyStep]
  rw [filterMap_if _ _ rfl, filterMap_if _ _ rfl]

theorem sendJob_twin
    (h : Pc.Agree (.sendJob : Pc N) server server' heap heap') :
    Pc.Follows (.sendJob : Pc N) server server' heap heap' t env env' := by
  intro r hrun
  injection hrun with hrun; injection hrun with hrun; subst hrun
  refine ⟨_, rfl, ⟨h.twin.history, h.twin.queue, h.twin.queue2put, ?_⟩, h.forget, ?_, rfl, rfl⟩
  · show server.queue2get + 1 = server'.queue2get + 1
    rw [h.twin.queue2get]
  · show Pc.getJob _ _ = Pc.getJob _ _
    rw [h.twin.queue2get]

theorem getJob_twin {i : Fin N} {wait : Wait}
    (h : Pc.Agree (.getJob i wait : Pc N) server server' heap heap') :
    Pc.Follows (.getJob i wait : Pc N) server server' heap heap' t env env' := by
  intro r hrun
  cases wait with
  | blocked => cases hrun
  | _ =>
      injection hrun with hrun
      rw [getJobSection, h.twin.queue] at hrun
      cases hget : (server'.queue i).getJob with
      | none =>
          rw [hget] at hrun
          injection hrun with hrun; subst hrun
          refine ⟨_, congrArg some (by rw [getJobSection, hget]), ?_⟩
          exact ⟨h.twin, h.forget, rfl, rfl, rfl⟩
      | some got =>
          obtain ⟨_ | job, q⟩ := got
          · rw [hget] at hrun
            cases hrun
          · rw [hget] at hrun
            injection hrun with hrun; subst hrun
            refine ⟨_, congrArg some (by rw [getJobSection, hget]), ?_⟩
            exact ⟨h.twin.setQueue i q, h.forget, rfl, rfl, rfl⟩

theorem checkServerStatus_twin {job : Ptr}
    (h : Pc.Agree (.checkServerStatus job : Pc N) server server' heap heap')
    (hok : env.ok = env'.ok) :
    Pc.Follows (.checkServerStatus job : Pc N) server server' heap heap' t env env' := by
  intro r hrun
  injection hrun with hrun; injection hrun with hrun; subst hrun
  refine ⟨_, rfl, h.twin, h.forget, ?_, rfl, rfl⟩
  rw [checkServerStatusStep, checkServerStatusStep, hok]
  rfl

theorem sendMsg_twin {job : Ptr}
    (h : Pc.Agree (.sendMsg job : Pc N) server server' heap heap') (hok : env.ok = env'.ok) :
    Pc.Follows (.sendMsg job : Pc N) server server' heap heap' t env env' := by
  intro r hrun
  injection hrun with hrun
  obtain ⟨contents, hload, hrun⟩ := bind_ok hrun
  have hload' : heap'.deref job = .ok contents := by rw [← h.deref_carried rfl, hload]
  cases hsent : env.ok
  · rw [hsent, if_neg Bool.false_ne_true] at hrun
    injection hrun with hrun; subst hrun
    have hrun' : sendMsgStep server' heap' t env' job =
        .ok (stay server' heap' (.putJobBack job)) := by
      simp only [sendMsgStep, hload', bind, Except.bind, ← hok, hsent, Bool.false_eq_true, if_false]
    exact ⟨_, congrArg some hrun', h.twin, h.forget, rfl, rfl, rfl⟩
  · rw [hsent, if_pos rfl] at hrun
    injection hrun with hrun; subst hrun
    have hrun' : sendMsgStep server' heap' t env' job = .ok ⟨server', heap'.free job,
        .attendExecServ, [.sent t job (contents.msg env'.stack).wire], none⟩ := by
      simp only [sendMsgStep, hload', bind, Except.bind, ← hok, hsent, if_true]
    refine ⟨_, congrArg some hrun', h.twin, Heap.free_congr h.forget job, rfl, rfl, ?_⟩
    show ([] : List HistOp) = []
    rfl

theorem putJobBack_twin {job : Ptr}
    (h : Pc.Agree (.putJobBack job : Pc N) server server' heap heap') :
    Pc.Follows (.putJobBack job : Pc N) server server' heap heap' t env env' := by
  intro r hrun
  injection hrun with hrun; injection hrun with hrun; subst hrun
  refine ⟨_, rfl, ⟨h.twin.history, h.twin.queue, ?_, h.twin.queue2get⟩, h.forget, ?_, rfl, rfl⟩
  · show server.queue2put + 1 = server'.queue2put + 1
    rw [h.twin.queue2put]
  · show Pc.putJob _ _ _ _ = Pc.putJob _ _ _ _
    rw [h.twin.queue2put]

theorem relabel_twin {queueIdx : Nat} {job : Ptr}
    (h : Pc.Agree (.relabel queueIdx job : Pc N) server server' heap heap') :
    Pc.Follows (.relabel queueIdx job : Pc N) server server' heap heap' t env env' := by
  intro r hrun
  injection hrun with hrun
  obtain ⟨contents, hload, hrun⟩ := bind_ok hrun
  obtain ⟨history, hop, hrun⟩ := bind_ok hrun
  injection hrun with hrun; subst hrun
  have hload' : heap'.deref job = .ok contents := by rw [← h.deref_carried rfl, hload]
  obtain ⟨history', hop', hhist⟩ := map_ok_congr
    (History.putJobBack_congr h.twin.history contents.id (UInt8.ofNat queueIdx)) hop
  let event : Event N := .history t (.putJobBack contents.id (UInt8.ofNat queueIdx))
  rcases history with _ | history <;> rcases history' with _ | history'
  · have hrun' : relabelSection server' heap' t queueIdx job =
        .ok ⟨server', heap'.free job, .closed, [event], none⟩ := by
      simp only [relabelSection, hload', bind, Except.bind, hop', event]
    exact ⟨_, congrArg some hrun', h.twin, Heap.free_congr h.forget job, rfl, rfl, rfl⟩
  · cases hhist
  · cases hhist
  · injection hhist with hhist
    have hrun' : relabelSection server' heap' t queueIdx job =
        .ok ⟨{ server' with history := history' }, heap', .closed, [event], none⟩ := by
      simp only [relabelSection, hload', bind, Except.bind, hop', event]
    exact ⟨_, congrArg some hrun', h.twin.withHistory hhist, h.forget, rfl, rfl, rfl⟩

theorem changeStateJob_twin {jobid : UInt16} {state : UInt8} {exitValue : UInt8}
    (h : Pc.Agree (.changeStateJob jobid state exitValue : Pc N) server server' heap heap') :
    Pc.Follows (.changeStateJob jobid state exitValue : Pc N) server server' heap heap' t env
      env' := by
  intro r hrun
  injection hrun with hrun
  obtain ⟨history, hop, hrun⟩ := bind_ok hrun
  injection hrun with hrun; subst hrun
  obtain ⟨history', hop', hhist⟩ :=
    map_ok_congr (History.changeStateJob_congr h.twin.history jobid state exitValue) hop
  refine ⟨_, by rw [Pc.run, changeStateJobSection, hop']; rfl, ?_⟩
  exact ⟨h.twin.withHistory hhist, h.forget, rfl, rfl, rfl⟩

/-- The sections of two such states leave the same. -/
theorem run_twin (h : pc.Agree server server' heap heap') (hok : env.ok = env'.ok) :
    pc.Follows server server' heap heap' t env env' := by
  cases pc with
  | attendClient | attendExecServ | closed => exact fun r hrun => by cases hrun
  | newJob => exact newJob_twin h
  | numberJob => exact numberJob_twin h
  | submittedResponse => exact submittedResponse_twin h
  | putJob => exact putJob_twin h
  | jobState => exact jobState_twin h
  | queueState => exact queueState_twin h
  | unsubmit => exact unsubmit_twin h
  | unsubmitQueue => exact unsubmitQueue_twin h
  | removeJob => exact removeJob_twin h
  | markUnsubmited => exact markUnsubmited_twin h
  | reply => exact reply_twin h
  | sendJob => exact sendJob_twin h
  | getJob => exact getJob_twin h
  | checkServerStatus => exact checkServerStatus_twin h hok
  | sendMsg => exact sendMsg_twin h hok
  | putJobBack => exact putJobBack_twin h
  | relabel => exact relabel_twin h
  | changeStateJob => exact changeStateJob_twin h

end Sections

/-! ## Twin steps -/

/-- A report for this id. -/
def HistOp.Reports (jobid : UInt16) : HistOp → Prop
  | .changeStateJob jobid' _ _ => jobid' = jobid
  | _ => False

instance (jobid : UInt16) : (op : HistOp) → Decidable (op.Reports jobid)
  | .changeStateJob jobid' _ _ => inferInstanceAs (Decidable (jobid' = jobid))
  | .newJob .. | .jobState _ | .unsubmit _ | .putJobBack .. => inferInstanceAs (Decidable False)

/-- A report has come in since the record was made. -/
def Sys.ReportedOn (s : Sys N) (record : JobHistory) : Prop :=
  ∃ op ∈ s.ops.dropWhile fun op => decide (op.job ≠ some record.addr), op.Reports record.id

instance (s : Sys N) (record : JobHistory) : Decidable (s.ReportedOn record) := by
  unfold Sys.ReportedOn
  infer_instance

/-- A `jobState` that finds a record finds one that was reported on. -/
def Sys.Reported (s : Sys N) (a : Action) : Prop :=
  match s.running a with
  | some (.jobState jobid) =>
      ∀ idx ∈ s.server.history.findJob jobid, ∀ record ∈ s.server.history.slot idx,
        s.ReportedOn record
  | _ => True

instance (s : Sys N) (a : Action) : Decidable (s.Reported a) :=
  decidable_of_iff
    ((match s.running a with
      | some (.jobState jobid) =>
          decide (∀ idx ∈ s.server.history.findJob jobid,
            ∀ record ∈ s.server.history.slot idx, s.ReportedOn record)
      | _ => true) = true)
    (by unfold Sys.Reported; split <;> simp)

/-- Nothing is read that was never written: neither a leftover nor a job that is
freed by now. -/
def Sys.Written (s : Sys N) (a : Action) : Prop := s.Reported a ∧ s.RecordKept a

instance (s : Sys N) (a : Action) : Decidable (s.Written a) :=
  inferInstanceAs (Decidable (_ ∧ _))

/-- The same message or the same step, over other leftovers. -/
def Action.Twin : Action → Action → Prop
  | .receive t m _, .receive t' m' _ =>
      t = t' ∧ ∃ c : SetterCall, c.Arrived m ∧ c.Arrived m'
  | .run t env, .run t' env' => t = t' ∧ env.ok = env'.ok ∧ env.pick = env'.pick
  | a, a' => a = a'

/-- What a step passes to `send`, and which thread does. -/
def Sys.passes (s : Sys N) : Action → List (Nat × List UInt8)
  | .run t env =>
      match s.threads[t]? with
      | some (.submittedResponse _ _ newJobid) => [(t, (setJobID env.stack newJobid).wire)]
      | some (.reply answer) => [(t, (answer.msg env.stack).wire)]
      | some (.checkServerStatus _) => [(t, (setCheckExecServer env.stack).wire)]
      | some (.sendMsg job) =>
          (s.heap.load job).toList.map fun contents => (t, (contents.msg env.stack).wire)
      | _ => []
  | _ => []

/-! ### A message of a setter -/

namespace SetterCall

variable {c : SetterCall} {m m' : Msg}

theorem Arrived.getSize8 (h : c.Arrived m) : (DistQueue.getSize8 m).toNat = c.size := by
  obtain ⟨buf, rfl⟩ := h
  have hsize := getSize8_wire_over (sized_apply buf c) buf
  rw [apply_wire] at hsize
  rw [hsize, size_apply]

theorem Arrived.same (h : c.Arrived m) (h' : c.Arrived m') : m.Same m' := by
  refine ⟨?_, ?_⟩
  · show sizeofHeader ≤ _ ∧ _ ≤ sizeofMsg
    rw [h.getSize8]
    exact ⟨(sized_size c).1, (sized_size c).2.1⟩
  · rw [h.getSize8]
    obtain ⟨buf, rfl⟩ := h
    obtain ⟨buf', rfl⟩ := h'
    rw [take_over buf buf c, take_over buf' buf c]

theorem Arrived.coversClient (h : c.Arrived m) : m.CoversClient := by
  have hcovers : (c.type.toByte = MsgType.subNoInter.toByte →
        Field.execFile.off + szPath * numPath ≤ c.size ∧
          Field.execWorkingDir.off + szPath ≤ c.size) ∧
      (c.type.toByte = MsgType.subInteractive.toByte →
        Field.addrPort.off + 2 ≤ c.size ∧ Field.addrIpaddr.off + 4 ≤ c.size ∧
          Field.addrExecFile.off + szPath * numPath ≤ c.size ∧
          Field.addrWorkingDir.off + szPath ≤ c.size) ∧
      (c.type.toByte = MsgType.jobstate.toByte ∨ c.type.toByte = MsgType.unsub.toByte →
        Field.jobid.off + 2 ≤ c.size) ∧
      (c.type.toByte = MsgType.questate.toByte → Field.queueid.off + 1 ≤ c.size) := by
    cases c <;> simp only [type, size] <;> decide
  rw [← h.getType, ← h.getSize8] at hcovers
  obtain ⟨hno, hinter, hjob, hqueue⟩ := hcovers
  refine ⟨fun htype => ?_, fun htype => ?_, hjob, hqueue⟩
  · exact ⟨.inl (hno htype).1, .inl (hno htype).2⟩
  · obtain ⟨hport, haddr, hfile, hdir⟩ := hinter htype
    exact ⟨hport, haddr, .inl hfile, .inl hdir⟩

theorem Arrived.coversExecServ (h : c.Arrived m) : m.CoversExecServ := by
  rw [Msg.CoversExecServ, h.getType]
  simp only [Msg.Covers, h.getSize8]
  cases c <;> simp only [type, size] <;> decide

end SetterCall

section Runs

variable [NeZero N]

omit [NeZero N] in
theorem receiveClient_twin {heap heap' : Heap} {m m' : Msg} {c : SetterCall} (h : c.Arrived m)
    (h' : c.Arrived m') (hlen : heap.length = heap'.length) (blank blank' : Job) :
    (receiveClient heap m blank : Option Job × Pc N).2 = (receiveClient heap' m' blank').2 ∧
      ((receiveClient heap m blank : Option Job × Pc N).1.map Job.forget) =
        (receiveClient heap' m' blank' : Option Job × Pc N).1.map Job.forget := by
  rw [receiveClient_congr (h.same h') h.coversClient]
  unfold receiveClient
  dsimp only
  split
  · exact ⟨congrArg Pc.newJob hlen, rfl⟩
  split
  · exact ⟨congrArg Pc.newJob hlen, rfl⟩
  split
  · exact ⟨rfl, rfl⟩
  split
  · exact ⟨rfl, rfl⟩
  split
  · exact ⟨rfl, rfl⟩
  split
  · exact ⟨rfl, rfl⟩
  · exact ⟨rfl, rfl⟩

omit [NeZero N] in
theorem commit_alike {s s' : Sys N} (h : s.Alike s') {r r' : Result N} (hr : r.Twin r')
    (t pick : Nat) : (s.commit t pick r).Alike (s'.commit t pick r') := by
  refine ⟨hr.server, hr.heap, ?_, ?_, Iff.rfl⟩
  · simp only [Sys.commit, h.threads, hr.pc, hr.signals]
  · rw [Sys.ops_commit, Sys.ops_commit, List.map_append, List.map_append, h.ops, hr.ops]

/-- Whether a thread can run is a matter of where it stands. -/
theorem run_eq_none {pc : Pc N} {server server' : MainServer N} {heap heap' : Heap} {t : Nat}
    {env env' : Env} (h : pc.run server heap t env = none) :
    pc.run server' heap' t env' = none := by
  cases pc with
  | attendClient | attendExecServ | closed => rfl
  | putJob caller i job wait =>
      cases wait with
      | blocked => rfl
      | _ => cases h
  | getJob i wait =>
      cases wait with
      | blocked => rfl
      | _ => cases h
  | _ => cases h

omit [NeZero N] in
theorem Pc.Agree.symm {pc : Pc N} {server server' : MainServer N} {heap heap' : Heap}
    (h : pc.Agree server server' heap heap') : pc.Agree server' server heap' heap where
  twin := ⟨h.twin.history.symm, h.twin.queue.symm, h.twin.queue2put.symm, h.twin.queue2get.symm⟩
  forget := h.forget.symm
  carries := fun p hp => (h.carries p hp).symm
  queues := fun i p hp => (h.queues i p (h.twin.queue ▸ hp)).symm
  jobState := fun jobid hpc => (h.jobState jobid hpc).symm

/-- A step of a thread that is at the same place in both. -/
theorem run_alike {s s' s₁ : Sys N} (h : s.Alike s') {t : Nat} {env env' : Env}
    (hagree : ∀ pc, s.threads[t]? = some pc → pc.Agree s.server s'.server s.heap s'.heap)
    (hok : env.ok = env'.ok) (hpick : env.pick = env'.pick) (hrun : s.run t env = some s₁) :
    ∃ s₁', s'.run t env' = some s₁' ∧ s₁.Alike s₁' := by
  unfold Sys.run at hrun
  split at hrun
  · cases hrun
  · next pc ht =>
      have hpc := hagree pc ht
      have ht' : s'.threads[t]? = some pc := by rw [← h.threads, ht]
      split at hrun
      · cases hrun
      · next fault hfault =>
          injection hrun with hrun; subst hrun
          obtain ⟨fault', hfault'⟩ : ∃ fault',
              pc.run s'.server s'.heap t env' = some (.error fault') := by
            cases hres : pc.run s'.server s'.heap t env' with
            | none =>
                rw [run_eq_none hres] at hfault
                cases hfault
            | some res =>
                cases res with
                | error fault' => exact ⟨fault', rfl⟩
                | ok r' =>
                    obtain ⟨r, hr, -⟩ := run_twin hpc.symm hok.symm r' hres
                    rw [hr] at hfault
                    cases hfault
          refine ⟨{ s' with fault := some fault' }, by simp only [Sys.run, ht', hfault'], ?_⟩
          refine ⟨h.server, h.heap, h.threads, h.ops, ?_⟩
          exact ⟨fun h => (by cases h), fun h => (by cases h)⟩
      · next r hr =>
          injection hrun with hrun; subst hrun
          obtain ⟨r', hr', htwin⟩ := run_twin hpc hok r hr
          refine ⟨s'.commit t env'.pick r', by simp only [Sys.run, ht', hr'], ?_⟩
          rw [← hpick]
          exact commit_alike h htwin t env.pick

omit [NeZero N] in
theorem receive_alike {s s' s₁ : Sys N} (h : s.Alike s') {t : Nat} {m m' : Msg} {blank blank' : Job}
    {c : SetterCall} (hc : c.Arrived m) (hc' : c.Arrived m')
    (hstep : s.receive t m blank = some s₁) :
    ∃ s₁', s'.receive t m' blank' = some s₁' ∧ s₁.Alike s₁' := by
  unfold Sys.receive at hstep ⊢
  rw [← h.threads]
  have hlen := Heap.length_congr h.heap
  split at hstep
  · obtain ⟨hpc, hjob⟩ := receiveClient_twin (N := N) hc hc' hlen blank blank'
    cases hres : (receiveClient s.heap m blank : Option Job × Pc N) with
    | mk job pc =>
        cases hres' : (receiveClient s'.heap m' blank' : Option Job × Pc N) with
        | mk job' pc' =>
            rw [hres, hres'] at hpc hjob
            rw [hres] at hstep
            subst hpc
            cases job with
            | none =>
                obtain rfl : job' = none := Option.map_eq_none_iff.mp hjob.symm
                injection hstep with hstep; subst hstep
                exact ⟨_, rfl, h.server, h.heap, rfl, h.ops, h.fault⟩
            | some job =>
                obtain ⟨job₁, rfl, hforget⟩ := Option.map_eq_some_iff.mp hjob.symm
                injection hstep with hstep; subst hstep
                refine ⟨_, rfl, h.server, Heap.malloc_congr h.heap hforget.symm, rfl, ?_, h.fault⟩
                have hops : ∀ (s : Sys N) (p : Ptr),
                    (s.log ++ [Event.accepted t p]).filterMap Event.historyOp = s.ops := fun s p => by
                  rw [List.filterMap_append, Sys.ops]
                  exact List.append_nil _
                show ((s.log ++ [_]).filterMap Event.historyOp).map HistOp.forget =
                  ((s'.log ++ [_]).filterMap Event.historyOp).map HistOp.forget
                rw [hops, hops, h.ops]
  · injection hstep with hstep; subst hstep
    refine ⟨_, rfl, h.server, h.heap, ?_, h.ops, h.fault⟩
    rw [receiveExecServ_congr (hc.same hc') hc.coversExecServ]
  · cases hstep

theorem step_alike {s s' s₁ : Sys N} {a a' : Action} (h : s.Alike s') (ha : a.Twin a')
    (hagree : ∀ pc, s.running a = some pc → pc.Agree s.server s'.server s.heap s'.heap)
    (hstep : s.step a = some s₁) : ∃ s₁', s'.step a' = some s₁' ∧ s₁.Alike s₁' := by
  have hfault := (step_cases hstep).1
  have hfault' := h.fault.mp hfault
  unfold Sys.step at hstep ⊢
  rw [if_pos hfault] at hstep
  rw [if_pos hfault']
  cases a with
  | acceptClient | acceptExecServ =>
      cases a' <;> cases ha
      injection hstep with hstep; subst hstep
      refine ⟨_, rfl, h.server, h.heap, ?_, h.ops, h.fault⟩
      rw [h.threads]
  | receive t m blank =>
      cases a' with
      | receive t' m' blank' =>
          obtain ⟨rfl, c, hc, hc'⟩ := ha
          exact receive_alike h hc hc' hstep
      | _ => cases ha
  | hangup t =>
      cases a' <;> cases ha
      dsimp only [Sys.hangup] at hstep ⊢
      rw [← h.threads]
      split at hstep
      · injection hstep with hstep; subst hstep
        exact ⟨_, rfl, h.server, h.heap, rfl, h.ops, h.fault⟩
      · injection hstep with hstep; subst hstep
        exact ⟨_, rfl, h.server, h.heap, rfl, h.ops, h.fault⟩
      · cases hstep
  | run t env =>
      cases a' with
      | run t' env' =>
          obtain ⟨rfl, hok, hpick⟩ := ha
          exact run_alike h hagree hok hpick hstep
      | _ => cases ha
  | wakeup t =>
      cases a' <;> cases ha
      dsimp only [Sys.wakeup] at hstep ⊢
      rw [← h.threads]
      split at hstep
      · cases hstep
      · injection hstep with hstep; subst hstep
        exact ⟨_, rfl, h.server, h.heap, rfl, h.ops, h.fault⟩

omit [NeZero N] in
theorem Sys.Alike.stamped {s s' : Sys N} (h : s.Alike s') {p : Ptr} :
    s.Stamped p ↔ s'.Stamped p := by
  rw [Sys.Stamped, Sys.Stamped, h.threads, Heap.length_congr h.heap]

/-- The id that ends a draft is the same in both. -/
theorem step_stamped {s s' s₁ s₁' : Sys N} {a a' : Action} (ha : s.Apart) (h : s.Twin s')
    (h₁ : s₁.Alike s₁') (hstep : s.step a = some s₁) (hstep' : s'.step a' = some s₁') :
    s₁.Twin s₁' := by
  refine ⟨h₁, fun p hp => ?_⟩
  by_cases hold : s.Stamped p
  · rw [(stamped_step hold hstep).2, (stamped_step (h.toAlike.stamped.mp hold) hstep').2]
    exact h.stamped p hold
  · obtain ⟨t, queueIdx, jobid, contents, ht, hload, hheap⟩ := newly_stamped hstep hold hp
    obtain ⟨t', queueIdx', jobid', contents', ht', hload', hheap'⟩ :=
      newly_stamped hstep' (mt h.toAlike.stamped.mpr hold) (h₁.stamped.mp hp)
    rw [← h.threads] at ht'
    obtain rfl := ha.eq ht ht' rfl rfl
    rw [ht] at ht'
    injection ht' with ht'
    injection ht' with _ _ hid
    subst hid
    obtain ⟨contents₂, hload₂, hjob⟩ := Heap.load_some h.heap hload
    rw [hload'] at hload₂
    injection hload₂ with hload₂
    subst hload₂
    have hstored : ∀ {heap : Heap} {job job' : Job}, heap.load p = some job →
        (heap.store p job').contents p = some job' := by
      intro heap job job' hload
      refine Heap.contents_of_load (Heap.load_eq_some.mpr ?_)
      exact List.getElem?_set_self (Heap.lt_of_load hload)
    rw [hheap, hheap', hstored hload, hstored hload']
    have hid : ∀ job : Job, { job with id := jobid } = { job.forget with id := jobid } :=
      fun job => rfl
    rw [hid contents, hid contents', hjob]

/-! ## Twin runs -/

omit [NeZero N] in
/-- With a report behind the record's submission there is an exit value. -/
theorem exitWritten_of_reported {s : Sys N} (hl : s.Linked) (hrec : s.Recorded) {jobid : UInt16}
    (hreported : ∀ idx ∈ s.server.history.findJob jobid,
      ∀ record ∈ s.server.history.slot idx, s.ReportedOn record)
    {pre post : List HistOp} {r : JobHistory} {q : UInt16} {a : UInt32}
    (hlatest : History.Latest s.ops (History.slotOf jobid) pre r q a post)
    (hid : History.idOf (submissions pre) = jobid) :
    post.filterMap (History.exitWritten jobid) ≠ [] := by
  have hret := History.run_retained hl hlatest
  rw [if_pos hid] at hret
  have hfind : s.server.history.findJob jobid = some (History.slotOf jobid) := by
    rw [History.findJob_eq hl.inv, hret, Option.map_some]
  obtain ⟨hslot, hrid⟩ := History.retained_eq_some.mp hret
  obtain ⟨op, hop, hrep⟩ := hreported _ hfind _ hslot
  rw [hrid] at hrep
  have haddr : (History.recordAfter pre r q a post).addr = r.addr := by
    rw [History.recordAfter, History.foldl_after_addr]
    rfl
  rw [haddr] at hop
  have hdrop : s.ops.dropWhile (fun op => decide (op.job ≠ some r.addr)) =
      .newJob r q a :: post := by
    have hnodup := hrec.nodup
    rw [hlatest.split, jobsOf, List.filterMap_append] at hnodup
    rw [hlatest.split, List.dropWhile_append_of_pos, List.dropWhile_cons_of_neg]
    · exact fun h => of_decide_eq_true h rfl
    · intro op hop
      refine decide_eq_true fun hjob => ?_
      have hmem : r.addr ∈ pre.filterMap HistOp.job := List.mem_filterMap.mpr ⟨op, hop, hjob⟩
      exact (List.nodup_append.mp hnodup).2.2 _ hmem _ List.mem_cons_self rfl
  rw [hdrop] at hop
  rcases List.mem_cons.mp hop with rfl | hop
  · cases hrep
  · intro hnil
    have hnone := List.filterMap_eq_nil_iff.mp hnil op hop
    cases op with
    | changeStateJob jobid' state exitValue =>
        rw [History.exitWritten, if_pos hrep.symm] at hnone
        cases hnone
    | _ => cases hrep

theorem agree_of_twin {s s' : Sys N} (hr : Reach Sys.step anyStep (· = Sys.init N) s)
    (hr' : Reach Sys.step anyStep (· = Sys.init N) s') (h : s.Twin s') {a : Action}
    (hok : s.Reported a) {pc : Pc N} (hpc : s.running a = some pc) :
    pc.Agree s.server s'.server s.heap s'.heap := by
  have hpast := past_of_reach hr
  refine ⟨h.server, h.heap, fun p hp => h.stamped p ?_, fun i p hp => h.stamped p ?_, ?_⟩
  · cases a with
    | run t env => exact hpast.threads t pc hpc p hp
    | _ => cases hpc
  · exact hpast.queues i p hp
  · rintro jobid rfl
    simp only [Sys.Reported, hpc] at hok
    refine History.jobState_congr h.ops (linked_of_reach hr) (linked_of_reach hr')
      h.server.history fun pre r q a post hlatest hid => ?_
    exact exitWritten_of_reported (linked_of_reach hr) (recorded_of_reach hr) hok hlatest hid

omit [NeZero N] in
theorem passes_twin {s s' : Sys N} (h : s.Twin s') (hpast : s.Past) {a a' : Action}
    (ha : a.Twin a') : s.passes a = s'.passes a' := by
  cases a with
  | run t env =>
      cases a' with
      | run t' env' =>
          obtain ⟨rfl, -, -⟩ := ha
          unfold Sys.passes
          rw [← h.threads]
          dsimp only
          split
          · exact congrArg (fun bytes => [(t, bytes)]) (SetterCall.wire_apply _ _ (.jobID _))
          · rw [Answer.wire_msg]
          · exact congrArg (fun bytes => [(t, bytes)])
              (SetterCall.wire_apply _ _ .checkExecServer)
          · next job ht =>
              rw [Heap.load_same h.heap (h.stamped job (hpast.threads t _ ht job rfl))]
              simp only [Job.wire_msg _ env.stack env'.stack]
          · rfl
      | _ => cases ha
  | receive t m blank =>
      cases a' with
      | receive t' m' blank' => rfl
      | _ => cases ha
  | _ =>
      cases a' <;> cases ha
      rfl

/-- Runs that get the same messages, each built by a setter, and differ in
leftovers only pass the same bytes to `send`, as long as no `jobState` finds a
record that no report has named and every put-back finds its record. -/
theorem sent_bytes_determined {acts acts' : List Action} {s : Sys N}
    (hsame : List.Forall₂ Action.Twin acts acts')
    (h : checkedRun Sys.step Sys.Written (Sys.init N) acts = some s) :
    outputs Sys.step Sys.passes (Sys.init N) acts =
        outputs Sys.step Sys.passes (Sys.init N) acts' ∧
      ∃ s', checkedRun Sys.step anyStep (Sys.init N) acts' = some s' := by
  have hinit : (Sys.init N).Twin (Sys.init N) :=
    ⟨⟨⟨rfl, rfl, rfl, rfl⟩, rfl, rfl, rfl, Iff.rfl⟩, fun _ _ => rfl⟩
  let R (s s' : Sys N) : Prop := Reach Sys.step anyStep (· = Sys.init N) s ∧
    Reach Sys.step anyStep (· = Sys.init N) s' ∧ s.Twin s'
  have hstep : ∀ {s s' : Sys N} {a a' : Action} {s₁ : Sys N}, R s s' → a.Twin a' →
      s.Written a → s.step a = some s₁ →
      s.passes a = s'.passes a' ∧ anyStep s' a' ∧ ∃ s₁', s'.step a' = some s₁' ∧ R s₁ s₁' := by
    rintro s s' a a' s₁ ⟨hr, hr', htwin⟩ ha hok hstep
    obtain ⟨s₁', hstep', halike⟩ := step_alike htwin.toAlike ha
      (fun pc hpc => agree_of_twin hr hr' htwin hok.1 hpc) hstep
    refine ⟨passes_twin htwin (past_of_reach hr) ha, trivial, s₁', hstep', ?_⟩
    exact ⟨.step hr trivial hstep, .step hr' trivial hstep',
      step_stamped (apart_of_reach hr) htwin halike hstep hstep'⟩
  obtain ⟨hout, s', hs', -⟩ := lockstep hstep ⟨.start rfl, .start rfl, hinit⟩ hsame h
  exact ⟨hout, s', hs'⟩

end Runs

/-! ## Two runs -/

/-- Memory full of `b`. -/
def Env.full (b : UInt8) : Env := ⟨true, 0, Msg.fill b, ⟨0, b.toUInt16, 0, 0, b, 0⟩⟩

def Action.arrive (b : UInt8) (t : Nat) (c : SetterCall) : Action :=
  .receive t ((Msg.fill b).over c.wire) ⟨b.toUInt16, 0, 0, [], []⟩

/-- A job is submitted, and its client asks for its state. -/
def askedRun (b : UInt8) : List Action :=
  [.acceptClient, .arrive b 0 (.fileExecNoInterClient [] [] 0), .run 0 (.full b),
    .run 0 (.full b), .run 0 (.full b), .run 0 (.full b),
    .arrive b 0 (.jobStateClient 0), .run 0 (.full b), .run 0 (.full b)]

/-- The job is submitted, sent and reported on before that. -/
def reportedRun (b : UInt8) : List Action :=
  [.acceptClient, .acceptExecServ, .arrive b 0 (.fileExecNoInterClient [] [] 0),
    .run 0 (.full b), .run 0 (.full b), .run 0 (.full b), .run 0 (.full b),
    .arrive b 1 .jobReq, .run 1 (.full b), .run 1 (.full b), .run 1 (.full b), .run 1 (.full b),
    .arrive b 1 (.jobRun 0), .run 1 (.full b),
    .arrive b 0 (.jobStateClient 0), .run 0 (.full b), .run 0 (.full b)]

theorem sent_bytes_determined_reported :
    outputs Sys.step Sys.passes (Sys.init numQueueMax) (reportedRun 0) =
      outputs Sys.step Sys.passes (Sys.init numQueueMax) (reportedRun 1) := by
  obtain ⟨s, hs, -⟩ :
      ∃ s, checkedRun Sys.step Sys.Written (Sys.init numQueueMax) (reportedRun 0) = some s ∧ True :=
    exists_checkedRun (by decide +kernel)
  have hmessage : ∀ t c, (Action.arrive 0 t c).Twin (.arrive 1 t c) := fun t c =>
    ⟨rfl, c, ⟨_, rfl⟩, ⟨_, rfl⟩⟩
  have hrun : ∀ t, (Action.run t (.full 0)).Twin (.run t (.full 1)) := fun t => ⟨rfl, rfl, rfl⟩
  refine (sent_bytes_determined ?_ hs).1
  unfold reportedRun
  simp only [List.forall₂_cons, hmessage, hrun, List.forall₂_nil_left_iff, and_true]
  exact ⟨rfl, rfl⟩

/-- Without a report the answer holds what `malloc` left in `exit_status`. -/
theorem unreported_exit_status_sent :
    List.Forall₂ Action.Twin (askedRun 0) (askedRun 1) ∧
      (checkedRun Sys.step anyStep (Sys.init numQueueMax) (askedRun 0)).isSome = true ∧
      (checkedRun Sys.step anyStep (Sys.init numQueueMax) (askedRun 1)).isSome = true ∧
      outputs Sys.step Sys.passes (Sys.init numQueueMax) (askedRun 0) ≠
        outputs Sys.step Sys.passes (Sys.init numQueueMax) (askedRun 1) := by
  have hmessage : ∀ t c, (Action.arrive 0 t c).Twin (.arrive 1 t c) := fun t c =>
    ⟨rfl, c, ⟨_, rfl⟩, ⟨_, rfl⟩⟩
  have hrun : ∀ t, (Action.run t (.full 0)).Twin (.run t (.full 1)) := fun t => ⟨rfl, rfl, rfl⟩
  refine ⟨?_, by decide +kernel, by decide +kernel, by decide +kernel⟩
  unfold askedRun
  simp only [List.forall₂_cons, hmessage, hrun, List.forall₂_nil_left_iff, and_true]
  rfl

end DistQueue
