import DistQueue.Server.Records

/-!
# What the history keeps

A record is stored at its id modulo `JOB_HISTORY_MAX`, and the one that was
there is freed unless the id is among the first `JOB_HISTORY_MAX`. For the first
`2 ^ 16` submissions the ids are the numbers of the submissions: the array is a
window on the latest ones, and it frees what leaves the window, in order.

The submission after that gets id 0 again. 0 is not the slot that the oldest
record is in, and what is in it is overwritten without being freed. From then on
there is always a record that nobody will free.
-/

namespace DistQueue

open DistQueue.Lib

namespace History

/-! ## The records freed along a run -/

/-- The record that an operation passes to `free`. -/
def freedBy (h : History) : HistOp → Option JobHistory
  | .newJob jobHistory queueIdx ipaddr =>
      (h.newJob (setParamsNewJobHistory jobHistory queueIdx ipaddr)).freed
  | _ => none

def freedFrom : History → List HistOp → List JobHistory
  | _, [] => []
  | h, op :: ops =>
      (h.freedBy op).toList ++
        match h.apply op with
        | .ok h' => freedFrom h' ops
        | .error _ => []

theorem freedFrom_append (op : HistOp) : ∀ {ops : List HistOp} {h h' : History},
    ops.foldlM apply h = .ok h' →
      freedFrom h (ops ++ [op]) = freedFrom h ops ++ (h'.freedBy op).toList := by
  intro ops
  induction ops with
  | nil =>
      intro h h' hrun
      injection hrun with hrun
      subst hrun
      rw [List.nil_append, freedFrom]
      cases hop : h.apply op <;> simp [freedFrom, hop]
  | cons op' ops ih =>
      intro h h' hrun
      rw [List.foldlM_cons] at hrun
      obtain ⟨h₁, hop, hrun⟩ := bind_ok hrun
      rw [List.cons_append, freedFrom, freedFrom, hop]
      simp only [ih hrun, List.append_assoc]

variable {ops : List HistOp} {h h' : History} {n : Nat}

/-! ## The window -/

/-- The latest submissions are in the array, each at its number modulo
`JOB_HISTORY_MAX`, and the earlier ones have been freed. -/
structure Window (ops : List HistOp) (h : History) : Prop where
  kept : ∀ k p, (jobsOf ops)[k]? = some p → submissions ops ≤ k + jobHistoryMax →
    ∃ job, h.slot (k % jobHistoryMax) = some job ∧ job.addr = p
  freed : (freedFrom init ops).map JobHistory.addr =
    (jobsOf ops).take (submissions ops - jobHistoryMax)

theorem idOf_toNat (hn : n < 2 ^ 16) : (idOf n).toNat = n := by
  rw [idOf, UInt16.toNat_ofNat', Nat.mod_eq_of_lt hn]

theorem freedBy_newJob (hinv : h.Inv n) (r : JobHistory) (q : UInt16) (a : UInt32) :
    h.freedBy (.newJob r q a) =
      if jobHistoryMax ≤ (idOf n).toNat then h.slot (slotOf (idOf n)) else none := by
  have hlt := slotOf_lt (idOf n)
  simp only [freedBy, newJob, putIdx_eq hinv]
  split
  · rw [slot, Vector.getElem?_eq_getElem hlt]
    rfl
  · rfl

theorem window_init : Window [] init := ⟨fun k p h => (by cases h), rfl⟩

theorem length_freedBy (h : History) (op : HistOp) : (h.freedBy op).toList.length ≤ 1 := by
  cases h.freedBy op <;> simp

/-- An operation that is no submission. -/
theorem freedBy_of_job {op : HistOp} (hop : op.job = none) (h : History) :
    h.freedBy op = none := by
  cases op with
  | newJob r q a => cases hop
  | _ => rfl

theorem jobsOf_append (op : HistOp) : jobsOf (ops ++ [op]) = jobsOf ops ++ op.job.toList := by
  rw [jobsOf, List.filterMap_append]
  cases op <;> rfl

theorem submissions_snoc (op : HistOp) :
    submissions (ops ++ [op]) = submissions ops + op.job.toList.length := by
  rw [← length_jobsOf, jobsOf_append, List.length_append, length_jobsOf]

theorem Window.other {op : HistOp} (hw : Window ops h) (hrun : run ops = .ok h)
    (hop : h.apply op = .ok h') (hjob : op.job = none) : Window (ops ++ [op]) h' := by
  have hjobs : jobsOf (ops ++ [op]) = jobsOf ops := by rw [jobsOf_append, hjob]; simp
  have hsub : submissions (ops ++ [op]) = submissions ops := by
    rw [submissions_snoc, hjob]
    rfl
  refine ⟨?_, ?_⟩
  · intro k p hk hle
    rw [hjobs] at hk
    rw [hsub] at hle
    obtain ⟨job, hslot, haddr⟩ := hw.kept k p hk hle
    refine ⟨job.after op, ?_, by rw [JobHistory.after_addr, haddr]⟩
    rw [apply_slot (run_slot hrun).1 hop, hslot]
    cases op with
    | newJob r q a => cases hjob
    | _ => rfl
  · rw [freedFrom_append op hrun, freedBy_of_job hjob, hjobs, hsub]
    simpa using hw.freed

theorem Window.newJob {r : JobHistory} {q : UInt16} {a : UInt32} (hw : Window ops h)
    (hrun : run ops = .ok h) (hop : h.apply (.newJob r q a) = .ok h')
    (hn : submissions ops < 2 ^ 16) : Window (ops ++ [.newJob r q a]) h' := by
  obtain ⟨hinv, -⟩ := run_slot hrun
  have hmax : jobHistoryMax = 10 := rfl
  have hid := idOf_toNat hn
  have hslot : slotOf (idOf (submissions ops)) = submissions ops % jobHistoryMax := by
    rw [slotOf, hid]
  have hsub : submissions (ops ++ [.newJob r q a]) = submissions ops + 1 := submissions_snoc _
  have hjobs : jobsOf (ops ++ [.newJob r q a]) = jobsOf ops ++ [r.addr] := jobsOf_append _
  have hlen := length_jobsOf ops
  refine ⟨?_, ?_⟩
  · intro k p hk hle
    rw [hsub] at hle
    rw [hjobs] at hk
    rw [apply_slot hinv hop, slotAfter, hslot]
    rcases Nat.lt_or_ge k (submissions ops) with hlt | hge
    · -- Nothing else in the window shares the slot.
      have hne : k % jobHistoryMax ≠ submissions ops % jobHistoryMax := by
        rw [hmax] at hle ⊢
        omega
      rw [if_neg hne]
      rw [List.getElem?_append_left (by omega)] at hk
      exact hw.kept k p hk (by omega)
    · obtain rfl : k = submissions ops := by
        have := (List.getElem?_eq_some_iff.mp hk).1
        rw [List.length_append, List.length_singleton] at this
        omega
      rw [← hlen, List.getElem?_concat_length] at hk
      injection hk with hk
      rw [if_pos rfl]
      exact ⟨_, rfl, hk⟩
  · rw [freedFrom_append _ hrun, freedBy_newJob hinv, hid, hslot, hsub, hjobs, List.map_append,
      hw.freed]
    by_cases hge : jobHistoryMax ≤ submissions ops
    · obtain ⟨k, hk⟩ : ∃ k, submissions ops = k + jobHistoryMax :=
        ⟨submissions ops - jobHistoryMax, by omega⟩
      have hlt : k < (jobsOf ops).length := by omega
      obtain ⟨job, hjob, haddr⟩ :=
        hw.kept k _ (List.getElem?_eq_getElem hlt) (Nat.le_of_eq hk)
      rw [if_pos hge]
      rw [hk, Nat.add_mod_right, hjob, Nat.add_sub_cancel, Nat.add_right_comm, Nat.add_sub_cancel,
        List.take_append_of_le_length hlt, List.take_succ_eq_append_getElem hlt]
      simp [haddr]
    · have hzero : submissions ops - jobHistoryMax = 0 := by omega
      have hzero' : submissions ops + 1 - jobHistoryMax = 0 := by omega
      rw [if_neg hge, hzero, hzero']
      simp

/-- Along a run: the window for `2 ^ 16` submissions, and from then on at least
one record more that is neither there nor freed. -/
theorem run_window {ops : List HistOp} : ∀ {h : History}, run ops = .ok h →
    (submissions ops ≤ 2 ^ 16 → Window ops h) ∧
      (2 ^ 16 < submissions ops → (freedFrom init ops).length + jobHistoryMax < submissions ops) := by
  induction ops using List.reverseRecOn with
  | nil =>
      intro h hrun
      injection hrun with hrun
      subst hrun
      exact ⟨fun _ => window_init, fun h => absurd h (Nat.not_lt_zero _)⟩
  | append_singleton ops op ih =>
      intro h' hrun
      rw [run_append] at hrun
      obtain ⟨h, hops, hop⟩ := bind_ok hrun
      obtain ⟨hwindow, hlost⟩ := ih hops
      have hmax : jobHistoryMax = 10 := rfl
      rw [freedFrom_append op hops, List.length_append]
      cases hjob : op.job with
      | none =>
          have hsub : submissions (ops ++ [op]) = submissions ops := by
            rw [submissions_snoc, hjob]
            rfl
          rw [hsub, freedBy_of_job hjob]
          exact ⟨fun hle => (hwindow hle).other hops hop hjob, hlost⟩
      | some p =>
          have hsub : submissions (ops ++ [op]) = submissions ops + 1 := by
            rw [submissions_snoc, hjob]
            rfl
          cases op with
          | newJob r q a =>
              rw [hsub]
              refine ⟨fun hle => (hwindow (by omega)).newJob hops hop hle, fun hlt => ?_⟩
              have hone := length_freedBy h (.newJob r q a)
              rcases Nat.lt_or_ge (2 ^ 16) (submissions ops) with hlt' | hge
              · have := hlost hlt'
                omega
              · -- The submission that gets id 0 again frees nothing.
                have heq : submissions ops = 2 ^ 16 := by omega
                have hfreed := congrArg List.length (hwindow hge).freed
                rw [List.length_map, List.length_take, length_jobsOf] at hfreed
                have hid : ¬ jobHistoryMax ≤ (idOf (submissions ops)).toNat := by
                  rw [heq]
                  decide
                rw [freedBy_newJob (run_slot hops).1, if_neg hid]
                show _ + 0 + _ < _
                omega
          | _ => cases hjob

end History

/-! ## The server -/

variable {N : Nat}

/-- The job's record is in the array. -/
def Sys.Kept (s : Sys N) (p : Ptr) : Prop :=
  ∃ c job, s.server.history.slot c = some job ∧ job.addr = p

/-- The records that `newJob` has freed, each named by its job. -/
def Sys.freedRecords (s : Sys N) : List Ptr :=
  (History.freedFrom History.init s.ops).map JobHistory.addr

/-- The array has the records of the latest submissions, and every other record
was freed once. -/
structure Sys.KeepsLatest (s : Sys N) : Prop where
  kept : ∀ p, s.Kept p ↔ p ∈ (jobsOf s.ops).drop (submissions s.ops - jobHistoryMax)
  displaced : ∀ p ∈ jobsOf s.ops, ¬ s.Kept p → s.freedRecords.count p = 1
  spared : ∀ p, s.Kept p → s.freedRecords.count p = 0

section Runs

variable [NeZero N]

omit [NeZero N] in
/-- What is in a window is one of the latest submissions. -/
theorem kept_iff {s : Sys N} (hl : s.Linked) (hw : History.Window s.ops s.server.history)
    (p : Ptr) : s.Kept p ↔ p ∈ (jobsOf s.ops).drop (submissions s.ops - jobHistoryMax) := by
  have hmax : jobHistoryMax = 10 := rfl
  have hlen := History.length_jobsOf s.ops
  constructor
  · rintro ⟨c, job, hjob, rfl⟩
    have hc : c < jobHistoryMax := by
      by_contra hge
      rw [History.slot_eq_some, Vector.getElem?_eq_none (by omega)] at hjob
      cases hjob
    have hn : c < submissions s.ops := by
      by_contra hge
      rw [(hl.inv.filled c hc).mpr (by omega)] at hjob
      cases hjob
    -- The one number of the window that goes to slot `c`.
    obtain ⟨k, hk, hkn, hkw⟩ : ∃ k, k % jobHistoryMax = c ∧ k < submissions s.ops ∧
        submissions s.ops ≤ k + jobHistoryMax := by
      refine ⟨c + (submissions s.ops - 1 - c) / 10 * 10, ?_, ?_, ?_⟩
      · rw [hmax]
        omega
      · omega
      · rw [hmax]
        omega
    have hlt : k < (jobsOf s.ops).length := by omega
    obtain ⟨job', hjob', haddr⟩ := hw.kept k _ (List.getElem?_eq_getElem hlt) hkw
    rw [hk, hjob] at hjob'
    injection hjob' with hjob'
    rw [hjob', haddr, List.mem_iff_getElem?]
    refine ⟨k - (submissions s.ops - jobHistoryMax), ?_⟩
    rw [List.getElem?_drop, Nat.add_sub_cancel' (by omega), List.getElem?_eq_getElem hlt]
  · intro hp
    obtain ⟨i, hi⟩ := List.mem_iff_getElem?.mp hp
    rw [List.getElem?_drop] at hi
    obtain ⟨job, hjob, haddr⟩ := hw.kept _ p hi (by omega)
    exact ⟨_, job, hjob, haddr⟩

omit [NeZero N] in
theorem keepsLatest_of_window {s : Sys N} (hl : s.Linked) (hr : s.Recorded)
    (hw : History.Window s.ops s.server.history) : s.KeepsLatest := by
  have hkept := kept_iff hl hw
  have hsplit := hr.nodup
  rw [← List.take_append_drop (submissions s.ops - jobHistoryMax) (jobsOf s.ops),
    List.nodup_append] at hsplit
  obtain ⟨htake, -, hdisjoint⟩ := hsplit
  refine ⟨hkept, fun p hp hnot => ?_, fun p hp => ?_⟩
  · rw [Sys.freedRecords, hw.freed]
    refine List.count_eq_one_of_mem htake ?_
    rw [← List.take_append_drop (submissions s.ops - jobHistoryMax) (jobsOf s.ops)] at hp
    exact (List.mem_append.mp hp).resolve_right fun h => hnot ((hkept p).mpr h)
  · rw [Sys.freedRecords, hw.freed, List.count_eq_zero]
    exact fun h => hdisjoint p h p ((hkept p).mp hp) rfl

omit [NeZero N] in
/-- Each record that is not kept takes up a place in the list of the freed
ones. -/
theorem length_freed_of_keepsLatest {s : Sys N} (hr : s.Recorded) (h : s.KeepsLatest) :
    submissions s.ops ≤ (History.freedFrom History.init s.ops).length + jobHistoryMax := by
  have hsplit := hr.nodup
  rw [← List.take_append_drop (submissions s.ops - jobHistoryMax) (jobsOf s.ops),
    List.nodup_append] at hsplit
  obtain ⟨htake, -, hdisjoint⟩ := hsplit
  have hsub : (jobsOf s.ops).take (submissions s.ops - jobHistoryMax) ⊆ s.freedRecords := by
    intro p hp
    have hnot : ¬ s.Kept p := fun hk => hdisjoint p hp p ((h.kept p).mp hk) rfl
    have hone := h.displaced p (List.mem_of_mem_take hp) hnot
    exact List.count_pos_iff.mp (by omega)
  have hle := (List.subperm_of_subset htake hsub).length_le
  rw [List.length_take, History.length_jobsOf, Sys.freedRecords, List.length_map] at hle
  omega

/-- The array has the records of the latest `JOB_HISTORY_MAX` submissions, with
every other record freed exactly once, for as long as there have been no more
than `2 ^ 16` submissions, and never after that. -/
theorem history_keeps_latest {s : Sys N} (h : Reach Sys.step anyStep (· = Sys.init N) s) :
    s.KeepsLatest ↔ submissions s.ops ≤ 2 ^ 16 := by
  have hl := linked_of_reach h
  have hr := recorded_of_reach h
  obtain ⟨hwindow, hlost⟩ := History.run_window hl
  constructor
  · intro hkeeps
    by_contra hlt
    have := hlost (by omega)
    have := length_freed_of_keepsLatest hr hkeeps
    omega
  · exact fun hle => keepsLatest_of_window hl hr (hwindow hle)

/-! ## As many submissions as one likes -/

/-- A client connects and submits a job, and its thread stops behind the section
that takes the id. -/
def numberOne (t : Nat) : List Action := [.acceptClient, .submit t, .go t, .go t]

theorem load_malloc (heap : Heap) (job : Job) :
    (heap.malloc job).load heap.length = some job := by
  rw [Heap.load_eq_some, Heap.malloc, List.getElem?_concat_length]

/-- What that leaves. -/
def Sys.numbered (s : Sys N) : Sys N :=
  let job := submitNoInter (setFileExecNoInterClient (Msg.fill 0) [] [] 0) Action.blankJob
  let blank : JobHistory := ⟨s.heap.length, 0, 0, 0, 0, 0⟩
  let queueIdx := UInt16.ofNat (s.server.queue2put.toNat % N)
  let r := s.server.history.newJob (setParamsNewJobHistory blank queueIdx job.ipaddr)
  { server := { s.server with history := r.history, queue2put := s.server.queue2put + 1 }
    heap := s.heap.malloc job
    threads := s.threads ++ [.submittedResponse s.heap.length queueIdx r.id]
    log := s.log ++ [.accepted s.threads.length s.heap.length,
      .history s.threads.length (.newJob blank queueIdx job.ipaddr)]
    fault := none }

theorem numberOne_leads {s : Sys N} (hf : s.fault = none) :
    checkedRun Sys.step anyStep s (numberOne s.threads.length) = some s.numbered := by
  have htype : getType (setFileExecNoInterClient (Msg.fill 0) [] [] 0) =
      MsgType.subNoInter.toByte := by decide +kernel
  have hset : ∀ pc pc' : Pc N, (s.threads ++ [pc]).set s.threads.length pc' = s.threads ++ [pc'] := by
    intro pc pc'
    rw [List.set_append_right _ _ (Nat.le_refl _), Nat.sub_self]
    rfl
  have hget : ∀ pc : Pc N, (s.threads ++ [pc])[s.threads.length]? = some pc :=
    fun pc => List.getElem?_concat_length
  simp only [numberOne, checkedRun, anyStep, if_true, Sys.step, hf, Action.submit, Action.go,
    Sys.receive, hget, receiveClient, htype, hset, Sys.run, Pc.run, Sys.commit, newJobSection,
    Option.elim_none, List.append_nil, numberJobSection, Heap.deref, load_malloc]
  simp [Sys.numbered, bind, Except.bind, Action.env]

omit [NeZero N] in
theorem ops_numbered (s : Sys N) : ∃ r q a, s.numbered.ops = s.ops ++ [.newJob r q a] :=
  ⟨_, _, _, List.filterMap_append⟩

/-- `n` clients have submitted a job each, and `newJob` has numbered them all. -/
structure Sys.Many (s : Sys N) (n : Nat) : Prop where
  fault : s.fault = none
  threads : s.threads.length = n
  heap : s.heap.length = n
  count : submissions s.ops = n
  pending : ∀ k < n, ∃ queueIdx,
    s.threads[k]? = some (.submittedResponse k queueIdx (History.idOf k))

omit [NeZero N] in
theorem Sys.Many.numbered {s : Sys N} {n : Nat} (hl : s.Linked) (h : s.Many n) :
    s.numbered.Many (n + 1) := by
  obtain ⟨r, q, a, hops⟩ := ops_numbered s
  have hthreads : s.numbered.threads = s.threads ++ [.submittedResponse s.heap.length
      (UInt16.ofNat (s.server.queue2put.toNat % N)) s.server.history.putIdx.toUInt16] := rfl
  refine ⟨rfl, ?_, ?_, ?_, fun k hk => ?_⟩
  · rw [hthreads, List.length_append, h.threads]
    rfl
  · show (s.heap.malloc _).length = n + 1
    rw [Heap.malloc, List.length_append, h.heap]
    rfl
  · rw [hops, History.submissions_snoc, h.count]
    rfl
  · rw [hthreads]
    rcases Nat.lt_or_ge k n with hlt | hge
    · rw [List.getElem?_append_left (by rw [h.threads]; exact hlt)]
      exact h.pending k hlt
    · obtain rfl : k = n := Nat.le_antisymm (Nat.le_of_lt_succ hk) hge
      rw [putIdx_eq hl.inv, h.count, h.heap]
      refine ⟨UInt16.ofNat (s.server.queue2put.toNat % N), ?_⟩
      rw [← h.threads]
      exact List.getElem?_concat_length

/-- There are runs of any number of submissions. -/
theorem exists_many (N : Nat) [NeZero N] (n : Nat) :
    ∃ s, Reach Sys.step anyStep (· = Sys.init N) s ∧ s.Many n := by
  induction n with
  | zero =>
      exact ⟨Sys.init N, .start rfl, rfl, rfl, rfl, rfl, fun k hk => absurd hk (Nat.not_lt_zero k)⟩
  | succ n ih =>
      obtain ⟨s, hr, hmany⟩ := ih
      exact ⟨s.numbered, hr.checkedRun (numberOne_leads hmany.fault),
        hmany.numbered (linked_of_reach hr)⟩

end Runs

/-- The last submission under an id of its own. -/
theorem history_keeps_latest_last :
    ∃ s : Sys numQueueMax, Reach Sys.step anyStep (· = Sys.init numQueueMax) s ∧
      submissions s.ops = 2 ^ 16 ∧ s.KeepsLatest := by
  obtain ⟨s, hr, hmany⟩ := exists_many numQueueMax (2 ^ 16)
  exact ⟨s, hr, hmany.count, (history_keeps_latest hr).mpr (Nat.le_of_eq hmany.count)⟩

/-- Submission `2 ^ 16` displaces a record that is not the oldest one, and does
not free it. -/
theorem displaced_record_not_freed :
    ∃ s : Sys numQueueMax, Reach Sys.step anyStep (· = Sys.init numQueueMax) s ∧
      s.fault = none ∧ submissions s.ops = 2 ^ 16 + 1 ∧ ¬ s.KeepsLatest := by
  obtain ⟨s, hr, hmany⟩ := exists_many numQueueMax (2 ^ 16 + 1)
  refine ⟨s, hr, hmany.fault, hmany.count, fun hkeeps => ?_⟩
  have hlost := (History.run_window (linked_of_reach hr)).2 (by rw [hmany.count]; decide)
  have := length_freed_of_keepsLatest (recorded_of_reach hr) hkeeps
  omega

end DistQueue
