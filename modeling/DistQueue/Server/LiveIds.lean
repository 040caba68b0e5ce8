import DistQueue.Server.Delivery
import DistQueue.Server.Eviction
import DistQueue.Server.NoLoss

/-!
# Ids of live jobs

An id is a submission number modulo `2 ^ 16`, and it is all that a report, a
query or an `unsubmit` says about the job it means. As long as no submission is
numbered while the one `2 ^ 16` before it is still live, the live ones are among
the last `2 ^ 16`, which have different ids.
-/

namespace DistQueue

open DistQueue.Lib

variable {N : Nat}

/-! ## Live submissions -/

/-- A report with which a job of this id is over. -/
def HistOp.Final (jobid : UInt16) : HistOp → Prop
  | .changeStateJob jobid' state _ =>
      jobid' = jobid ∧ (state = JobState.finished.toByte ∨ state = JobState.signaled.toByte ∨
        state = JobState.error.toByte)
  | _ => False

instance (jobid : UInt16) : (op : HistOp) → Decidable (op.Final jobid)
  | .changeStateJob .. => inferInstanceAs (Decidable (_ ∧ _))
  | .newJob .. | .jobState _ | .unsubmit _ | .putJobBack .. => inferInstanceAs (Decidable False)

/-- A final report has been processed behind the job's dispatch. -/
def Sys.Over (s : Sys N) (p : Ptr) (jobid : UInt16) : Prop :=
  ∃ e ∈ s.log.dropWhile fun e => decide (e.sentJob p = 0),
    ∃ op ∈ e.historyOp, op.Final jobid

instance (s : Sys N) (p : Ptr) (jobid : UInt16) : Decidable (s.Over p jobid) := by
  unfold Sys.Over
  infer_instance

/-- Held by `newJob`, queued, held by `sendJob`, or sent and not over. -/
def Sys.Outstanding (s : Sys N) (p : Ptr) (jobid : UInt16) : Prop :=
  0 < s.inNewJob p + s.inQueues p + s.inSendJob p ∨ (0 < s.sent p ∧ ¬ s.Over p jobid)

instance (s : Sys N) (p : Ptr) (jobid : UInt16) : Decidable (s.Outstanding p jobid) :=
  inferInstanceAs (Decidable (_ ∨ _))

/-- A live submission and its id. -/
def Sys.Live (s : Sys N) (p : Ptr) (jobid : UInt16) : Prop :=
  s.Numbered p jobid ∧ s.Outstanding p jobid

/-- When a submission is numbered, the one `2 ^ 16` before it is not live. -/
def Sys.IdFree (s : Sys N) (a : Action) : Prop :=
  match s.running a with
  | some (.numberJob _ _) =>
      2 ^ 16 ≤ submissions s.ops → ∀ p ∈ (jobsOf s.ops)[submissions s.ops - 2 ^ 16]?,
        ¬ s.Outstanding p (History.idOf (submissions s.ops))
  | _ => True

instance (s : Sys N) (a : Action) : Decidable (s.IdFree a) :=
  decidable_of_iff
    ((match s.running a with
      | some (.numberJob _ _) =>
          decide (2 ^ 16 ≤ submissions s.ops →
            ∀ p ∈ (jobsOf s.ops)[submissions s.ops - 2 ^ 16]?,
              ¬ s.Outstanding p (History.idOf (submissions s.ops)))
      | _ => true) = true)
    (by
      unfold Sys.IdFree
      split
      · exact decide_eq_true_iff
      · exact iff_of_true rfl trivial)

/-- The steps of a run in which an id means one live job. -/
def Sys.Unambiguous (s : Sys N) (a : Action) : Prop := s.IndexOk a ∧ s.IdFree a ∧ s.RemovesOwn a

instance (s : Sys N) (a : Action) : Decidable (s.Unambiguous a) :=
  inferInstanceAs (Decidable (_ ∧ _ ∧ _))

theorem idOf_add (m : Nat) : History.idOf (m + 2 ^ 16) = History.idOf m := by
  refine UInt16.toNat_inj.mp ?_
  rw [History.idOf, History.idOf, UInt16.toNat_ofNat', UInt16.toNat_ofNat', Nat.add_mod_right]

theorem mod_eq_of_idOf {m n : Nat} (h : History.idOf m = History.idOf n) :
    m % 2 ^ 16 = n % 2 ^ 16 := by
  have htoNat := congrArg UInt16.toNat h
  rw [History.idOf, History.idOf, UInt16.toNat_ofNat', UInt16.toNat_ofNat'] at htoNat
  exact htoNat

/-! ## Nothing comes back to life -/

theorem mem_dropWhile_append {α : Type*} {q : α → Bool} {x : α} {l : List α} (l' : List α)
    (h : x ∈ l.dropWhile q) : x ∈ (l ++ l').dropWhile q := by
  induction l with
  | nil => cases h
  | cons y l ih =>
      rw [List.cons_append]
      by_cases hy : q y = true
      · rw [List.dropWhile_cons_of_pos hy] at h ⊢
        exact ih h
      · rw [List.dropWhile_cons_of_neg hy] at h ⊢
        exact List.mem_append_left l' h

section Runs

variable [NeZero N]

theorem Sys.Over.step {s s' : Sys N} {a : Action} {p : Ptr} {jobid : UInt16}
    (ho : s.Over p jobid) (h : s.step a = some s') : s'.Over p jobid := by
  obtain ⟨e, he, hop⟩ := ho
  obtain ⟨events, hlog⟩ := step_log h
  refine ⟨e, ?_, hop⟩
  rw [hlog]
  exact mem_dropWhile_append events he

/-- What is not live, once it has been allocated, stays so. -/
theorem outstanding_back {s s' : Sys N} {a : Action} {p : Ptr} {jobid : UInt16} (hs : s.Sound)
    (hs' : s'.Sound) (hp : p < s.heap.length) (h : s.step a = some s')
    (hlive : s'.Outstanding p jobid) : s.Outstanding p jobid := by
  by_contra hdead
  rw [Sys.Outstanding, not_or, not_and_not_right] at hdead
  obtain ⟨hplaces, hover⟩ := hdead
  have hsent : s.sent p ≤ s'.sent p := tally_log_mono h _
  have hgone : s.gone p ≤ s'.gone p := tally_log_mono h _
  have hsum := hs.conserved p
  have hsum' := hs'.conserved p
  rw [if_pos hp, s.held_eq] at hsum
  rw [if_pos (Nat.lt_of_lt_of_le hp (step_cases h).2.length_heap), s'.held_eq] at hsum'
  rcases hlive with hlive | ⟨hlive, hnot⟩
  · omega
  · exact hnot ((hover (by omega)).step h)

/-- A live submission is one of the last `2 ^ 16`. -/
def Sys.Recent (s : Sys N) : Prop :=
  ∀ (m : Nat) (p : Ptr), (jobsOf s.ops)[m]? = some p → s.Outstanding p (History.idOf m) →
    submissions s.ops ≤ m + 2 ^ 16

theorem recent_step {s s' : Sys N} {a : Action} (hrecent : s.Recent) (hs : s.Sound)
    (hs' : s'.Sound) (hrec : s.Recorded) (hfree : s.IdFree a) (h : s.step a = some s') :
    s'.Recent := by
  have hold : ∀ {m : Nat} {p : Ptr}, (jobsOf s.ops)[m]? = some p →
      s'.Outstanding p (History.idOf m) → s.Outstanding p (History.idOf m) := by
    intro m p hm hout
    exact outstanding_back hs hs' (hrec.fresh p (List.mem_of_getElem? hm)).1 h hout
  intro m p hm hout
  rcases step_ops h with ⟨hops, -⟩ | ⟨t, env, pc, r, op, rfl, ht, hran, -, hevents, hops, -⟩
  · rw [hops] at hm ⊢
    exact hrecent m p hm (hold hm hout)
  · rw [hops, History.jobsOf_append] at hm
    rw [hops, History.submissions_snoc]
    cases hjob : op.job with
    | none =>
        rw [hjob, Option.toList_none, List.append_nil] at hm
        exact hrecent m p hm (hold hm hout)
    | some p₀ =>
        rw [hjob, Option.toList_some] at hm
        have hmem : .history t op ∈ r.events := by
          rw [hevents]
          exact List.mem_singleton.mpr rfl
        obtain ⟨queueIdx, jobid, rfl, -⟩ := hran.numbers hmem hjob
        show submissions s.ops + 1 ≤ m + 2 ^ 16
        rcases Nat.lt_or_ge m (jobsOf s.ops).length with hlt | hge
        · rw [List.getElem?_append_left hlt] at hm
          have hle := hrecent m p hm (hold hm hout)
          rcases Nat.lt_or_eq_of_le hle with hlt' | heq
          · exact hlt'
          · -- The one that would be pushed out of the window is the one the step looks at.
            simp only [Sys.IdFree, Sys.running, ht] at hfree
            have hm' : submissions s.ops - 2 ^ 16 = m := by omega
            have hid : History.idOf (submissions s.ops) = History.idOf m := by
              rw [heq]
              exact idOf_add m
            rw [hm', hid] at hfree
            exact absurd (hold hm hout) (hfree (by omega) p hm)
        · rw [History.length_jobsOf] at hge
          omega

theorem recent_of_reach {s : Sys N} (h : Reach Sys.step Sys.Unambiguous (· = Sys.init N) s) :
    s.Recent := by
  refine h.invariant ?_ fun s a s' hr hrecent hok h => ?_
  · intro s h m p hm
    subst h
    cases hm
  · have hs := sound_of_reach (fun _ _ h => h.1) hr
    exact recent_step hrecent hs (hs.step h hok.1) (recorded_of_reach hr) hok.2.1 h

/-! ## One id, one live job -/

omit [NeZero N] in
theorem Sys.Live.index {s : Sys N} {p : Ptr} {jobid : UInt16} (h : s.Live p jobid) :
    ∃ n : Nat, (jobsOf s.ops)[n]? = some p ∧ n < submissions s.ops ∧ History.idOf n = jobid ∧
      s.Outstanding p (History.idOf n) := by
  obtain ⟨n, hn, hid⟩ := h.1.index
  have hlt := (List.getElem?_eq_some_iff.mp hn).1
  rw [History.length_jobsOf] at hlt
  exact ⟨n, hn, hlt, hid, hid.symm ▸ h.2⟩

omit [NeZero N] in
theorem Sys.Recent.distinct {s : Sys N} (hrecent : s.Recent) {p p' : Ptr} {jobid : UInt16}
    (h : s.Live p jobid) (h' : s.Live p' jobid) : p = p' := by
  obtain ⟨n, hn, hlt, hid, hout⟩ := h.index
  obtain ⟨n', hn', hlt', hid', hout'⟩ := h'.index
  have hle := hrecent n p hn hout
  have hle' := hrecent n' p' hn' hout'
  have hmod := mod_eq_of_idOf (hid.trans hid'.symm)
  obtain rfl : n = n' := by omega
  rw [hn] at hn'
  injection hn'

omit [NeZero N] in
/-- What `findJob` finds under the id of a live job is the job's own record. -/
theorem Sys.Recent.retained {s : Sys N} (hrecent : s.Recent) (hl : s.Linked) {p : Ptr}
    {jobid : UInt16} (h : s.Live p jobid) {record : JobHistory}
    (hret : s.server.history.retained jobid = some record) : record.addr = p := by
  obtain ⟨n, hn, hlt, hid, hout⟩ := h.index
  obtain ⟨pre, r, q, a, post, hlatest, hpre⟩ := History.exists_latest hl hret
  have hn₀ : (jobsOf s.ops)[submissions pre]? = some r.addr :=
    History.getElem?_jobsOf.mpr ⟨pre, r, q, a, post, hlatest.split, rfl, rfl⟩
  have hlt₀ := (List.getElem?_eq_some_iff.mp hn₀).1
  rw [History.length_jobsOf] at hlt₀
  have hlast := (History.unreplaced_iff hn₀).mpr
    ⟨pre, r, q, a, post, by rw [hpre]; exact hlatest, rfl⟩
  -- It is stored behind the job's own number, and the window ends before the next one alike.
  have hge : n ≤ submissions pre := by
    by_contra hnot
    exact hlast n (by omega) hlt (by rw [hid, hpre])
  have hle := hrecent n p hn hout
  have hmod := mod_eq_of_idOf (hid.trans hpre.symm)
  obtain heq : n = submissions pre := by omega
  rw [← heq, hn] at hn₀
  injection hn₀ with hn₀
  rw [History.run_retained hl hlatest, if_pos hpre] at hret
  injection hret with hret
  rw [← hret, History.recordAfter, History.foldl_after_addr]
  exact hn₀.symm

/-- The id that a section is about. -/
def Pc.names : Pc N → Option UInt16
  | .jobState jobid | .unsubmit jobid | .unsubmitQueue jobid _ _ | .removeJob jobid _ _
  | .markUnsubmited jobid _ | .changeStateJob jobid _ _ => some jobid
  | _ => none

/-- Between the two states no record but the job's own has changed, and no other
job has left a queue or come into one. -/
structure Sys.OnlyTouches (s s' : Sys N) (p : Ptr) : Prop where
  records : ∀ c record, s.server.history.slot c = some record → record.addr ≠ p →
    s'.server.history.slot c = some record
  queues : ∀ p', p' ≠ p → s'.inQueues p' = s.inQueues p'

omit [NeZero N] in
/-- A change to the records of one id leaves those of the other jobs alone. -/
theorem slot_of_names {s : Sys N} (hl : s.Linked) (hrecent : s.Recent) {p : Ptr} {jobid : UInt16}
    (hlive : s.Live p jobid) {op : HistOp} {history : History}
    (hop : s.server.history.apply op = .ok history) (hjob : op.job = none)
    (hafter : ∀ job : JobHistory, job.id ≠ jobid → job.after op = job) {c : Nat}
    {record : JobHistory} (hslot : s.server.history.slot c = some record)
    (hne : record.addr ≠ p) : history.slot c = some record := by
  have hid : record.id ≠ jobid := by
    rintro rfl
    have hc := hl.inv.congr c record hslot
    subst hc
    exact hne (hrecent.retained hl hlive (History.retained_eq_some.mpr ⟨hslot, rfl⟩))
  rw [History.apply_slot hl.inv hop c, hslot]
  cases op with
  | newJob r q a => cases hjob
  | _ => exact congrArg some (hafter record hid)

omit [NeZero N] in
theorem live_of_queued {s : Sys N} (hids : s.Ids) {p : Ptr}
    {jobid : UInt16} (hid : s.HasId p jobid) (hq : 0 < s.inQueues p) : s.Live p jobid := by
  obtain ⟨hst, job, hcont, rfl⟩ := hid
  obtain ⟨job', hcont', hn⟩ := hids.stamped p hst
  rw [hcont] at hcont'
  injection hcont' with hjob
  subst hjob
  exact ⟨hn, .inl (by omega)⟩

theorem onlyTouches_of_names {s s' : Sys N} (hs : s.Sound) (hl : s.Linked) (hrecent : s.Recent)
    (hids : s.Ids) {t : Nat} {env : Env} {pc : Pc N} {p : Ptr} {jobid : UInt16}
    (hlive : s.Live p jobid) (ht : s.threads[t]? = some pc) (hpc : pc.names = some jobid)
    (hown : s.RemovesOwn (.run t env)) (h : s.step (.run t env) = some s') :
    s.OnlyTouches s' p := by
  rcases step_run h ht with ⟨r, hran, rfl⟩ | ⟨fault, -, rfl⟩
  · cases hran with
    | jobState hop =>
        injection hpc with hpc
        subst hpc
        refine ⟨fun c record hslot hne => ?_, fun _ _ => rfl⟩
        exact slot_of_names hl hrecent hlive hop rfl (fun _ _ => rfl) hslot hne
    | markUnsubmited hop =>
        injection hpc with hpc
        subst hpc
        refine ⟨fun c record hslot hne => ?_, fun _ _ => rfl⟩
        exact slot_of_names hl hrecent hlive hop rfl (fun _ hne => if_neg hne) hslot hne
    | changeStateJob hop =>
        injection hpc with hpc
        subst hpc
        refine ⟨fun c record hslot hne => ?_, fun _ _ => rfl⟩
        exact slot_of_names hl hrecent hlive hop rfl (fun _ hne => if_neg hne) hslot hne
    | unsubmitRefused | unsubmit | unsubmitQueue => exact ⟨fun _ _ hslot _ => hslot, fun _ _ => rfl⟩
    | @removeJob _ i found rm hr =>
        injection hpc with hpc
        subst hpc
        refine ⟨fun _ _ hslot _ => hslot, fun p' hne => ?_⟩
        simp only [Sys.RemovesOwn, Sys.running, ht] at hown
        have hkept : ((s.server.queue i).live.diff rm.queue.live).count (some p') = 0 := by
          rw [List.count_eq_zero]
          intro hmem
          obtain ⟨p₀, hp₀, hid⟩ := hasId_removed hs hr hown hmem
          injection hp₀ with hp₀
          subst hp₀
          have hq := inQueues_pos (List.diff_subset _ _ hmem)
          exact hne (hrecent.distinct (live_of_queued hids hid hq) hlive)
        have hsum := inQueues_setQueue s.server i rm.queue p'
        have hcount : rm.queue.live.count (some p') = (s.server.queue i).live.count (some p') := by
          rcases Queue.removeJob_cases (hs.queues i) hr with ⟨-, rfl⟩ | ⟨-, -, -, -, k, -, hrest⟩
          · rfl
          · rw [hrest] at hkept ⊢
            have := count_eraseIdx (l := (s.server.queue i).live) (k := k) (some p')
            omega
        show (s.server.setQueue i rm.queue).inQueues p' = s.server.inQueues p'
        omega
    | _ => cases hpc
  · exact ⟨fun _ _ hslot _ => hslot, fun _ _ => rfl⟩

/-- In a run of unambiguous steps no two live submissions have one id. What is
found under the id of a live one is its own record, and what a section does
under that id it does to that submission and to no other. -/
theorem live_ids_distinct {s : Sys N}
    (h : Reach Sys.step Sys.Unambiguous (· = Sys.init N) s) :
    (∀ p p' jobid, s.Live p jobid → s.Live p' jobid → p = p') ∧
    (∀ p jobid idx record, s.Live p jobid → s.server.history.findJob jobid = some idx →
      s.server.history.record idx = .ok record → record.addr = p) ∧
    (∀ p jobid t env pc s', s.Live p jobid → s.threads[t]? = some pc → pc.names = some jobid →
      s.Unambiguous (.run t env) → s.step (.run t env) = some s' → s.OnlyTouches s' p) := by
  have hs := sound_of_reach (fun _ _ h => h.1) h
  have hl := linked_of_reach h
  have hrecent := recent_of_reach h
  refine ⟨fun p p' jobid => hrecent.distinct, ?_, ?_⟩
  · intro p jobid idx record hlive hfind hrecord
    rw [History.findJob_eq hl.inv] at hfind
    obtain ⟨record', hret, rfl⟩ := Option.map_eq_some_iff.mp hfind
    rw [History.record_retained hret] at hrecord
    injection hrecord with hrecord
    exact hrecent.retained hl hlive (hrecord ▸ hret)
  · intro p jobid t env pc s' hlive ht hpc hok hstep
    exact onlyTouches_of_names hs hl hrecent (ids_of_reach h) hlive ht hpc hok.2.2 hstep

end Runs

/-! ## Two runs -/

/-- A job is queued, and another client asks to cancel it. -/
def cancelRun : List Action :=
  [.acceptClient, .acceptClient, .submit 0, .go 0, .go 0, .go 0, .go 0, .cancel 1 0, .go 1, .go 1]

theorem live_ids_distinct_queued :
    ∃ s : Sys numQueueMax, Reach Sys.step Sys.Unambiguous (· = Sys.init numQueueMax) s ∧
      s.Live 0 0 ∧ ∃ s', s.step (.go 1) = some s' ∧ s.OnlyTouches s' 0 := by
  obtain ⟨s, hr, hn, hq, ht, hok, hstep⟩ :
      ∃ s, Reach Sys.step Sys.Unambiguous (· = Sys.init numQueueMax) s ∧
        (jobsOf s.ops)[0]? = some 0 ∧ 0 < s.inQueues 0 ∧
        s.threads[1]? = some (.removeJob 0 0 0) ∧ s.Unambiguous (.go 1) ∧
        (s.step (.go 1)).isSome = true :=
    @reach_of_checkedRun _ _ _ _ _ _ cancelRun _ _ _ rfl (by decide +kernel)
  obtain ⟨pre, r, q, a, post, hops, hpre, haddr⟩ := History.getElem?_jobsOf.mp hn
  have hlive : s.Live 0 0 := ⟨⟨pre, r, q, a, post, hops, haddr, by rw [hpre]; rfl⟩, .inl (by omega)⟩
  obtain ⟨s', hs'⟩ := Option.isSome_iff_exists.mp hstep
  exact ⟨s, hr, hlive, s', hs', (live_ids_distinct hr).2.2 0 0 1 _ _ s' hlive ht rfl hok hs'⟩

/-- Submission 0 is still in `newJob` when submission `2 ^ 16` gets its id. -/
theorem live_submissions_share_id :
    ∃ s : Sys numQueueMax, Reach Sys.step anyStep (· = Sys.init numQueueMax) s ∧
      s.fault = none ∧ s.Live 0 0 ∧ s.Live (2 ^ 16) 0 := by
  obtain ⟨s, hr, hmany⟩ := exists_many numQueueMax (2 ^ 16 + 1)
  have hlive : ∀ k < 2 ^ 16 + 1, s.Live k (History.idOf k) := by
    intro k hk
    obtain ⟨queueIdx, ht⟩ := hmany.pending k hk
    have hle := le_tally (f := fun pc : Pc numQueueMax => one pc.inNewJob k) ht
    have hone : one (Pc.submittedResponse k queueIdx (History.idOf k) : Pc numQueueMax).inNewJob k =
        1 := if_pos rfl
    have hpos : 0 < s.inNewJob k := Nat.lt_of_lt_of_le Nat.one_pos (hone ▸ hle)
    exact ⟨(ids_of_reach hr).responding k k queueIdx _ ht, .inl (by omega)⟩
  have hid : History.idOf (2 ^ 16) = 0 := by
    rw [← Nat.zero_add (2 ^ 16), idOf_add]
    rfl
  exact ⟨s, hr, hmany.fault, hlive 0 (Nat.succ_pos _),
    hid ▸ hlive (2 ^ 16) (Nat.lt_succ_self _)⟩

end DistQueue
