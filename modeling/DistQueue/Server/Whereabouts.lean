import DistQueue.Server.Faults
import DistQueue.Server.Lifecycle
import DistQueue.Server.QueueFlag
import DistQueue.Server.Retention

/-!
# Where the history says a job is

`newJob` writes the number of the queue into the record and puts the job
afterwards; `putJobBack` puts the job first, into the queue of its own turn, and
corrects the record when it is done. In between the record names the queue the
job was in before, and of two handlers that put one job back the wrong one can
be the last to write.

Where every put-back lands in the queue that the record names already, nothing
ever has to be corrected: the number that `newJob` wrote stands as long as the
record does, every thread that has the job goes by it, and so does everyone who
looks the job up.
-/

namespace DistQueue

open DistQueue.Lib

variable {N : Nat}

/-! ## The number in the record -/

namespace History

variable {h h' : History} {p : Ptr} {k : Nat}

/-- The record of the job, if it has one, has this queue number. -/
def Names (h : History) (p : Ptr) (k : Nat) : Prop :=
  ∀ c < jobHistoryMax, ∀ record ∈ h.slot c, record.addr = p → record.queueIdx.toNat = k

instance (h : History) (p : Ptr) (k : Nat) : Decidable (h.Names p k) :=
  inferInstanceAs (Decidable (∀ c < jobHistoryMax, ∀ record ∈ h.slot c, _ → _))

theorem slot_lt_max {c : Nat} {record : JobHistory} (hslot : h.slot c = some record) :
    c < jobHistoryMax :=
  (Vector.getElem?_eq_some_iff.mp (slot_eq_some.mp hslot)).1

theorem Names.of_slot (hn : h.Names p k) {c : Nat} {record : JobHistory}
    (hslot : h.slot c = some record) (haddr : record.addr = p) : record.queueIdx.toNat = k :=
  hn c (slot_lt_max hslot) record hslot haddr

end History

theorem JobHistory.after_queueIdx (record : JobHistory) {op : HistOp}
    (hop : ∀ jobid queueIdx, op ≠ .putJobBack jobid queueIdx) :
    (record.after op).queueIdx = record.queueIdx := by
  cases op with
  | putJobBack jobid queueIdx => exact absurd rfl (hop jobid queueIdx)
  | newJob | jobState => rfl
  | unsubmit | changeStateJob =>
      simp only [JobHistory.after]
      split <;> rfl

section Runs

variable [NeZero N]

/-! ## Put-backs that have nothing to correct -/

/-- A job that is put back lands in the queue that its record names. -/
def Sys.PutsBackHome (s : Sys N) (a : Action) : Prop :=
  match s.running a with
  | some (.putJob (.putJobBack _) i job _) =>
      (s.server.queue i).count = maxJobsQueue ∨ s.server.history.Names job i
  | _ => True

instance (s : Sys N) (a : Action) : Decidable (s.PutsBackHome a) :=
  decidable_of_iff
    ((match s.running a with
      | some (.putJob (.putJobBack _) i job _) =>
          decide ((s.server.queue i).count = maxJobsQueue ∨ s.server.history.Names job i)
      | _ => true) = true)
    (by unfold Sys.PutsBackHome; split <;> simp)

/-- The record that `putJobBack` writes the queue number into is that of its own
job, or has that number already. -/
def Sys.RelabelsOwn (s : Sys N) (a : Action) : Prop :=
  match s.running a with
  | some (.relabel queueIdx job) =>
      ∀ contents ∈ s.heap.load job, ∀ record ∈ s.server.history.foundUnder contents.id,
        record.addr = job ∨ record.queueIdx = UInt8.ofNat queueIdx
  | _ => True

instance (s : Sys N) (a : Action) : Decidable (s.RelabelsOwn a) :=
  decidable_of_iff
    ((match s.running a with
      | some (.relabel queueIdx job) =>
          decide (∀ contents ∈ s.heap.load job,
            ∀ record ∈ s.server.history.foundUnder contents.id,
              record.addr = job ∨ record.queueIdx = UInt8.ofNat queueIdx)
      | _ => true) = true)
    (by unfold Sys.RelabelsOwn; split <;> simp)

def Sys.Homing (s : Sys N) (a : Action) : Prop := s.PutsBackHome a ∧ s.RelabelsOwn a

instance (s : Sys N) (a : Action) : Decidable (s.Homing a) := inferInstanceAs (Decidable (_ ∧ _))

/-- The queue a thread goes by for a job that has a record. -/
def Pc.whereabouts : Pc N → Option (Ptr × Nat)
  | .submittedResponse job queueIdx _ => some (job, queueIdx.toNat)
  | .putJob .newJob i job _ => some (job, i)
  | .relabel queueIdx job => some (job, queueIdx)
  | .unsubmitQueue _ qIdx found => some (found, qIdx.toNat)
  | .removeJob _ i found => some (found, i)
  | _ => none

/-- A job on its way back goes to the queue whose number its thread keeps. -/
def Pc.OnTurn : Pc N → Prop
  | .putJob (.putJobBack queueIdx) i _ _ => i.val = queueIdx
  | _ => True

/-- The job has been submitted, and the queue is the one that its record names,
if it still has one. -/
structure Sys.Knows (s : Sys N) (p : Ptr) (k : Nat) : Prop where
  submitted : p ∈ jobsOf s.ops
  lt : k < N
  names : s.server.history.Names p k

/-- What the threads and the queues go by is what the records say. -/
structure Sys.Agrees (s : Sys N) : Prop where
  threads : ∀ (t : Nat) (pc : Pc N), s.threads[t]? = some pc →
    pc.OnTurn ∧ ∀ p k, pc.whereabouts = some (p, k) → s.Knows p k
  queues : ∀ i p, (s.server.queue i).Holds p → s.Knows p i

/-- Everything the proof about one step starts from. -/
structure Sys.Filed (s : Sys N) : Prop where
  agrees : s.Agrees
  range : s.InRange
  linked : s.Linked
  recorded : s.Recorded
  ids : s.Ids
  past : s.Past

omit [NeZero N] in
theorem Pc.whereabouts_wake (pc : Pc N) : pc.wake.whereabouts = pc.whereabouts := by
  unfold Pc.wake
  split
  · next caller _ _ => cases caller <;> rfl
  · rfl
  · rfl

omit [NeZero N] in
theorem Pc.Request.whereabouts {pc : Pc N} (h : pc.Request) : pc.whereabouts = none := by
  cases pc <;> first | rfl | cases h

omit [NeZero N] in
theorem Sys.Numbered.mem_jobsOf {s : Sys N} {p : Ptr} {jobid : UInt16} (h : s.Numbered p jobid) :
    p ∈ jobsOf s.ops := by
  obtain ⟨n, hn, -⟩ := h.index
  exact List.mem_of_getElem? hn

/-! ## One step -/

variable {s s' : Sys N} {a : Action}

theorem mem_jobsOf_step {p : Ptr} (hp : p ∈ jobsOf s.ops) (h : s.step a = some s') :
    p ∈ jobsOf s'.ops := by
  rcases step_ops h with ⟨hops, -⟩ | ⟨_, _, _, _, op, -, -, -, -, -, hops, -⟩
  · rw [hops]
    exact hp
  · rw [hops, jobsOf, List.filterMap_append]
    exact List.mem_append_left _ hp

/-- A record behind a step has the number it had, or is the one that `newJob`
has just numbered. -/
theorem Sys.Filed.queueIdx_step (hN : N ≤ 256) (hf : s.Filed) (hown : s.RelabelsOwn a)
    (h : s.step a = some s') {c : Nat} {record' : JobHistory}
    (hslot : s'.server.history.slot c = some record') :
    (∃ record, s.server.history.slot c = some record ∧ record'.addr = record.addr ∧
      record'.queueIdx = record.queueIdx) ∨
    ∃ t env queueIdx, a = .run t env ∧ s.threads[t]? = some (.numberJob record'.addr queueIdx) ∧
      record'.queueIdx = queueIdx.toUInt8 := by
  have hkeep : ∀ {op : HistOp}, s.server.history.apply op = .ok s'.server.history → op.job = none →
      (∀ jobid queueIdx, op ≠ .putJobBack jobid queueIdx) →
      ∃ record, s.server.history.slot c = some record ∧ record'.addr = record.addr ∧
        record'.queueIdx = record.queueIdx := by
    intro op hop hjob hnot
    obtain ⟨record, hrecord, rfl⟩ := slot_after hf.linked.inv hop hjob hslot
    exact ⟨record, hrecord, record.after_addr op, record.after_queueIdx hnot⟩
  rcases step_ops h with ⟨-, hhist⟩ | ⟨t, env, pc, r, op, rfl, ht, hran, rfl, hevents, -, hop⟩
  · rw [hhist] at hslot
    exact .inl ⟨record', hslot, rfl, rfl⟩
  cases hran with
  | @numberJob job queueIdx contents blank history hload haddr hop' =>
      have hslot' : history.slot c = some record' := hslot
      rw [History.apply_slot hf.linked.inv hop' c] at hslot'
      simp only [History.slotAfter] at hslot'
      split at hslot'
      · obtain rfl := Option.some.inj hslot'
        refine .inr ⟨t, env, queueIdx, rfl, ?_, rfl⟩
        rw [ht]
        exact congrArg (fun p => some (Pc.numberJob p queueIdx)) haddr.symm
      · exact .inl ⟨record', hslot', rfl, rfl⟩
  | jobState hop' => exact .inl (hkeep hop' rfl fun _ _ h => by cases h)
  | markUnsubmited hop' => exact .inl (hkeep hop' rfl fun _ _ h => by cases h)
  | changeStateJob hop' => exact .inl (hkeep hop' rfl fun _ _ h => by cases h)
  | relabelLost => exact .inl ⟨record', hslot, rfl, rfl⟩
  | @relabel queueIdx job contents history hload hop' =>
      obtain ⟨record, hrecord, rfl⟩ := slot_after hf.linked.inv hop' rfl hslot
      refine .inl ⟨record, hrecord, record.after_addr _, ?_⟩
      simp only [JobHistory.after]
      split
      · next hid =>
          have hfound : s.server.history.foundUnder contents.id = some record := by
            rw [History.foundUnder_eq hf.linked.inv, ← hid, retained_of_slot hf.linked hrecord]
          simp only [Sys.RelabelsOwn, Sys.running, ht] at hown
          rcases hown contents hload record hfound with haddr | hsame
          · have hknows := (hf.agrees.threads t _ ht).2 job queueIdx rfl
            have hname := hknows.names.of_slot hrecord haddr
            have hlt : queueIdx < N := hf.range.threads t _ ht
            refine UInt8.toNat_inj.mp ?_
            rw [hname, UInt8.toNat_ofNat', Nat.mod_eq_of_lt (Nat.lt_of_lt_of_le hlt hN)]
          · exact hsame.symm
      · rfl
  | submittedResponse | reply => dsimp only at hevents; split at hevents <;> cases hevents
  | _ => cases hevents

/-- What is known of a job stays so. -/
theorem Sys.Knows.step (hN : N ≤ 256) (hf : s.Filed) (hown : s.RelabelsOwn a)
    (h : s.step a = some s') {p : Ptr} {k : Nat} (hk : s.Knows p k) : s'.Knows p k := by
  refine ⟨mem_jobsOf_step hk.submitted h, hk.lt, fun c _ record' hslot haddr => ?_⟩
  rcases hf.queueIdx_step hN hown h hslot with
    ⟨record, hrecord, haddr', hidx⟩ | ⟨t, env, queueIdx, -, ht, -⟩
  · rw [hidx]
    exact hk.names.of_slot hrecord (haddr'.symm.trans haddr)
  · rw [haddr] at ht
    exact absurd rfl ((hf.recorded.fresh p hk.submitted).2 t _ ht)

/-- `newJob` knows where its job will be. -/
theorem Sys.Filed.knows_new (hN : N ≤ 256) (hf : s.Filed) {t : Nat} {env : Env} {pc : Pc N}
    {r : Result N} (hown : s.RelabelsOwn (.run t env)) (ht : s.threads[t]? = some pc)
    (hran : Ran s.server s.heap t env pc r)
    (h : s.step (.run t env) = some (s.commit t env.pick r)) {p : Ptr} {queueIdx jobid : UInt16}
    (hr : r.pc = .submittedResponse p queueIdx jobid) :
    (s.commit t env.pick r).Knows p queueIdx.toNat := by
  have hnum := numbered_of_numberJob hf.linked hran hr
  obtain rfl : pc = .numberJob p queueIdx := by
    cases hran with
    | numberJob =>
        injection hr with hp hq _
        rw [hp, hq]
    | @putJob caller => cases caller <;> cases hr
    | _ => cases hr
  have hlt : queueIdx.toNat < N := hf.range.threads t _ ht
  refine ⟨hnum.mem_jobsOf, hlt, fun c _ record' hslot haddr => ?_⟩
  rcases hf.queueIdx_step hN hown h hslot with
    ⟨record, hrecord, haddr', -⟩ | ⟨t', env', queueIdx', heq, ht', hidx⟩
  · have hmem := (hf.linked.numbered hrecord).mem_jobsOf
    rw [← haddr', haddr] at hmem
    exact absurd rfl ((hf.recorded.fresh p hmem).2 t _ ht)
  · injection heq with heq _
    subst heq
    rw [ht] at ht'
    injection ht' with ht'
    injection ht' with _ hq
    rw [hidx, ← hq, UInt16.toNat_toUInt8]
    exact Nat.mod_eq_of_lt (Nat.lt_of_lt_of_le hlt hN)

omit [NeZero N] in
theorem Sys.Filed.submitted (hf : s.Filed) {t : Nat} {pc : Pc N} (ht : s.threads[t]? = some pc)
    {p : Ptr} (hp : pc.carries = some p) : p ∈ jobsOf s.ops := by
  obtain ⟨job, -, hnum⟩ := hf.ids.stamped p (hf.past.threads t pc ht p hp)
  exact hnum.mem_jobsOf

omit [NeZero N] in
/-- A put goes where the record says. -/
theorem Sys.Filed.knows_put (hf : s.Filed) {t : Nat} {env : Env} {caller : Caller} {i : Fin N}
    {job : Ptr} {wait : Wait} {q : Queue}
    (ht : s.threads[t]? = some (.putJob caller i job wait))
    (hhome : s.PutsBackHome (.run t env)) (hput : (s.server.queue i).putJob job = some q) :
    s.Knows job i := by
  cases caller with
  | newJob => exact (hf.agrees.threads t _ ht).2 job i rfl
  | putJobBack queueIdx =>
      refine ⟨hf.submitted ht rfl, i.isLt, ?_⟩
      simp only [Sys.PutsBackHome, Sys.running, ht] at hhome
      refine hhome.resolve_left fun hfull => ?_
      rw [Queue.putJob_eq_none.mpr hfull] at hput
      cases hput

/-- What a thread goes by behind its section. -/
theorem Sys.Filed.ran (hN : N ≤ 256) (hf : s.Filed) {t : Nat} {env : Env} {pc : Pc N}
    {r : Result N} (hok : s.Homing (.run t env)) (ht : s.threads[t]? = some pc)
    (hran : Ran s.server s.heap t env pc r)
    (h : s.step (.run t env) = some (s.commit t env.pick r)) :
    r.pc.OnTurn ∧ ∀ p k, r.pc.whereabouts = some (p, k) → (s.commit t env.pick r).Knows p k := by
  have hstep : ∀ {p k}, s.Knows p k → (s.commit t env.pick r).Knows p k := fun hk =>
    hk.step hN hf hok.2 h
  obtain ⟨hturn, hpc⟩ := hf.agrees.threads t pc ht
  have hrange := hf.range.threads t pc ht
  cases hran with
  | @numberJob job queueIdx contents blank history hload haddr hop =>
      refine ⟨trivial, fun p k hp => ?_⟩
      injection hp with hp
      injection hp with hp hk
      subst hp hk
      exact hf.knows_new hN hok.2 ht (.numberJob hload haddr hop) h rfl
  | @submittedResponse job queueIdx newJobid contents hload =>
      refine ⟨trivial, fun p k hp => ?_⟩
      injection hp with hp
      injection hp with hp hk
      have hknows := hpc job queueIdx.toNat rfl
      have hsame : (queueAt queueIdx.toNat : Fin N).val = queueIdx.toNat :=
        Nat.mod_eq_of_lt hknows.lt
      rw [← hp, ← hk, hsame]
      exact hstep hknows
  | @putJobWait caller i job wait hput =>
      cases caller with
      | newJob => exact ⟨trivial, fun p k hp => hstep (hpc p k hp)⟩
      | putJobBack queueIdx => exact ⟨hturn, fun p k hp => by cases hp⟩
  | @putJob caller i job wait q hput =>
      cases caller with
      | newJob => exact ⟨trivial, fun p k hp => by cases hp⟩
      | putJobBack queueIdx =>
          refine ⟨trivial, fun p k hp => ?_⟩
          injection hp with hp
          injection hp with hp hk
          have hi : i.val = queueIdx := hturn
          subst hi
          rw [← hp, ← hk]
          exact hstep (hf.knows_put ht hok.1 hput)
  | putJobBack => exact ⟨Nat.mod_mod _ N, fun p k hp => by cases hp⟩
  | @unsubmit jobid record hwait =>
      refine ⟨trivial, fun p k hp => ?_⟩
      injection hp with hp
      injection hp with hp hk
      rw [History.waitingIn_eq hf.linked.inv] at hwait
      injection hwait with hwait
      have hret := (Option.filter_eq_some_iff.mp hwait).1
      have hslot := (History.retained_eq_some.mp hret).1
      rw [← hp, ← hk]
      refine hstep ⟨(hf.linked.numbered hslot).mem_jobsOf, hf.range.history _ record hslot, ?_⟩
      intro c _ record' hslot' haddr
      have hc := slot_inj hf.linked hf.recorded hslot hslot' haddr
      subst hc
      rw [hslot] at hslot'
      rw [Option.some.inj hslot']
  | @unsubmitQueue jobid qIdx found i hi =>
      refine ⟨trivial, fun p k hp => hstep (hpc p k ?_)⟩
      rw [← hp]
      exact congrArg (fun k => some (found, k)) hi
  | _ => exact ⟨trivial, fun p k hp => by cases hp⟩

theorem Sys.Filed.step (hN : N ≤ 256) (hf : s.Filed) (hok : s.Homing a)
    (h : s.step a = some s') : s'.Agrees := by
  have hstep : ∀ {p k}, s.Knows p k → s'.Knows p k := fun hk => hk.step hN hf hok.2 h
  constructor
  · refine threads_step (step_cases h).2 hf.agrees.threads
      (fun t pc hpc => ⟨hpc.1, fun p k hp => hstep (hpc.2 p k hp)⟩) ?_ ?_ ?_ ?_
    · intro t pc hpc
      refine ⟨?_, fun p k hp => hpc.2 p k (pc.whereabouts_wake ▸ hp)⟩
      obtain ⟨hturn, -⟩ := hpc
      unfold Pc.wake
      split
      · next caller _ _ => cases caller <;> exact hturn
      · trivial
      · exact hturn
    · intro t pc hpc
      refine ⟨?_, fun p k hp => ?_⟩
      · cases pc with
        | putJob => cases hpc
        | _ => trivial
      · rw [hpc.whereabouts] at hp
        cases hp
    · exact fun t => ⟨trivial, fun p k hp => by cases hp⟩
    · rintro t env pc r rfl ht hran rfl
      exact hf.ran hN hok ht hran h
  · intro i p hp
    rcases (step_cases h).2.server_cases with ⟨hserver, -⟩ | ⟨t, env, pc, r, rfl, ht, hran, rfl⟩
    · rw [hserver] at hp
      exact hstep (hf.agrees.queues i p hp)
    · have hp' : (r.server.queue i).Holds p := hp
      cases hran.queue i with
      | keep hkeep => exact hstep (hf.agrees.queues i p (hkeep ▸ hp'))
      | @put caller job wait q _ hput hserver =>
          rw [hserver, setQueue_same] at hp'
          rcases Queue.holds_of_putJob hput hp' with hold | rfl
          · exact hstep (hf.agrees.queues i p hold)
          · exact hstep (hf.knows_put ht hok.1 hput)
      | get hget hserver =>
          rw [hserver, setQueue_same] at hp'
          exact hstep (hf.agrees.queues i p ((Queue.holds_of_getJob hget).2 p hp'))
      | remove hr hserver =>
          rw [hserver, setQueue_same] at hp'
          exact hstep (hf.agrees.queues i p (Queue.holds_of_removeJob hr hp'))

/-! ## Runs -/

omit [NeZero N] in
theorem agrees_init : (Sys.init N).Agrees where
  threads := fun t pc ht => by cases ht
  queues := fun i p hp => absurd hp Queue.not_holds_init

theorem filed_of_reach (hN : N ≤ 256) (h : Reach Sys.step Sys.Homing (· = Sys.init N) s) :
    s.Filed := by
  have hfiled : ∀ {s : Sys N}, Reach Sys.step Sys.Homing (· = Sys.init N) s → s.Agrees →
      s.Filed := fun hr ha =>
    ⟨ha, inRange_of_reach hr, linked_of_reach hr, recorded_of_reach hr, ids_of_reach hr,
      past_of_reach hr⟩
  refine hfiled h (h.invariant (fun _ h => h ▸ agrees_init) fun s a s' hr ha hok h => ?_)
  exact (hfiled hr ha).step hN hok h

omit [NeZero N] in
/-- A put ends up in a live slot. -/
theorem live_of_putJob {q q' : Queue} {p : Ptr} (hcap : q.count ≤ maxJobsQueue)
    (hput : q.putJob p = some q') : some p ∈ q'.live := by
  obtain ⟨-, hcount, rfl⟩ := Queue.putJob_next hcap hput
  refine List.mem_map.mpr ⟨q.count, List.mem_range.mpr (by omega), ?_⟩
  have hlast : q.getIdx + UInt32.ofNat q.count = q.putIdx := by
    rw [Queue.count, UInt32.ofNat_toNat, UInt32.add_comm, UInt32.sub_add_cancel]
  show (q.put p).jobAt (q.getIdx + UInt32.ofNat q.count) = some p
  rw [hlast]
  exact Vector.getElem_set_self ..

/-- The record of every job in a live slot that still has one names the queue
it is in. -/
def Sys.PointsRight (s : Sys N) : Prop :=
  ∀ i p, some p ∈ (s.server.queue i).live → ∀ c record, s.server.history.slot c = some record →
    record.addr = p → record.queueIdx.toNat = i

/-- A put-back that lands in another queue shows at once. -/
theorem misplaced_of_not_home (hbound : ∀ i, (s.server.queue i).count ≤ maxJobsQueue)
    (hnot : ¬ s.PutsBackHome a) (h : s.step a = some s') : ¬ s'.PointsRight := by
  intro hpoints
  unfold Sys.PutsBackHome at hnot
  split at hnot
  case h_2 => exact hnot trivial
  next queueIdx i job wait hrunning =>
  obtain ⟨hroom, hnames⟩ := not_or.mp hnot
  cases a with
  | run t env =>
      have ht : s.threads[t]? = some (.putJob (.putJobBack queueIdx) i job wait) := hrunning
      rcases step_run h ht with ⟨r, hran, rfl⟩ | ⟨fault, hrun, -⟩
      · cases hran with
        | putJobWait hput => exact hroom (Queue.putJob_eq_none.mp hput)
        | @putJob _ _ _ _ q hput =>
            have hlive := live_of_putJob (hbound i) hput
            refine hnames fun c _ record hslot haddr => ?_
            refine hpoints i job ?_ c record hslot haddr
            show some job ∈ ((s.server.setQueue i q).queue i).live
            rw [setQueue_same]
            exact hlive
      · cases wait with
        | blocked => cases hrun
        | _ => injection hrun with hrun; cases hrun
  | _ => cases hrunning

/-- In every run whose put-backs land in the queue the record names, and write
into no other job's record, the record of every job in a live slot, if it still
has one, names the queue the job is in, and an `unsubmit` that is about to
search a queue for a job in a live slot searches the right one. A put-back that
lands elsewhere leaves a record that does not name the right queue. -/
theorem record_names_queue (hN : N ≤ 256)
    (h : Reach Sys.step Sys.Homing (· = Sys.init N) s) :
    s.PointsRight ∧
    (∀ (t : Nat) (jobid : UInt16) (i : Fin N) (found : Ptr),
      s.threads[t]? = some (.removeJob jobid i found) →
        (∃ c record, s.server.history.slot c = some record ∧ record.addr = found) →
          ∀ j, some found ∈ (s.server.queue j).live → i = j) ∧
    ∀ a s', ¬ s.PutsBackHome a → s.step a = some s' → ¬ s'.PointsRight := by
  have hf := filed_of_reach hN h
  refine ⟨fun i p hlive c record hslot haddr => ?_, ?_, ?_⟩
  · exact (hf.agrees.queues i p (Queue.holds_of_live hlive)).names.of_slot hslot haddr
  · rintro t jobid i found ht ⟨c, record, hslot, haddr⟩ j hlive
    have hj := (hf.agrees.queues j found (Queue.holds_of_live hlive)).names.of_slot hslot haddr
    have hi := ((hf.agrees.threads t _ ht).2 found i rfl).names.of_slot hslot haddr
    exact Fin.ext (hi.symm.trans hj)
  · exact fun a s' => misplaced_of_not_home fun i =>
      (Queue.flagged_of_reach (queue_reach h i)).bound

/-- The server as it is built has one queue, and one number for it. -/
theorem points_right_built {s : Sys numQueueMax}
    (h : Reach Sys.step anyStep (· = Sys.init numQueueMax) s) : s.PointsRight := by
  intro i p _ c record hslot _
  have hrecord : record.queueIdx.toNat < 1 := (inRange_of_reach h).history c record hslot
  have hi : i.val < 1 := i.isLt
  omega

/-- The job of the first of two submissions is put back on the third turn. -/
def homeRun : List Action :=
  [.acceptClient, .acceptExecServ, .submit 0, .go 0, .go 0, .go 0, .go 0, .submit 0, .go 0, .go 0,
    .go 0, .go 0, .request 1, .go 1, .go 1, .fail 1, .go 1, .go 1, .go 1]

theorem record_names_queue_home :
    ∃ s : Sys 2, Reach Sys.step Sys.Homing (· = Sys.init 2) s ∧
      some 0 ∈ (s.server.queue 0).live ∧ s.puts 0 = 2 ∧ s.PointsRight := by
  obtain ⟨s, hr, hlive, hputs⟩ : ∃ s : Sys 2, Reach Sys.step Sys.Homing (· = Sys.init 2) s ∧
      some 0 ∈ (s.server.queue 0).live ∧ s.puts 0 = 2 :=
    @reach_of_checkedRun _ _ _ _ _ _ homeRun _ _ _ rfl (by decide +kernel)
  exact ⟨s, hr, hlive, hputs, (record_names_queue (by decide) hr).1⟩

/-- The job is put back on the second turn, and its client cancels it before the
record is corrected. -/
def awayRun : List Action :=
  [.acceptClient, .acceptExecServ, .submit 0, .go 0, .go 0, .go 0, .go 0, .request 1, .go 1, .go 1,
    .fail 1, .go 1, .go 1, .cancel 0 0, .go 0, .go 0]

/-- The `unsubmit` is about to search the queue the job was in before. -/
theorem unsubmit_searches_another_queue :
    ∃ s : Sys 2, Reach Sys.step anyStep (· = Sys.init 2) s ∧
      some 0 ∈ (s.server.queue 1).live ∧ ¬ s.PointsRight ∧
      s.threads[0]? = some (.removeJob 0 0 0) := by
  obtain ⟨s, hr, hlive, hrecord, hthread⟩ : ∃ s : Sys 2, Reach Sys.step anyStep (· = Sys.init 2) s ∧
      some 0 ∈ (s.server.queue 1).live ∧
      (∃ record ∈ s.server.history.slot 0, record.addr = 0 ∧ record.queueIdx = 0) ∧
      s.threads[0]? = some (.removeJob 0 0 0) :=
    @reach_of_checkedRun _ _ _ _ _ _ awayRun _ _ _ rfl (by decide +kernel)
  obtain ⟨record, hslot, haddr, hidx⟩ := hrecord
  refine ⟨s, hr, hlive, fun hpoints => ?_, hthread⟩
  have hone := hpoints 1 0 hlive 0 record hslot haddr
  rw [hidx] at hone
  cases hone

end Runs

end DistQueue
