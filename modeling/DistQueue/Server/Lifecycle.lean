import DistQueue.Server.Serving

/-!
# The states of a record

`changeStateJob` stores what a report says, `unsubmit` stores
`STATE_UNSUBMITED`, and neither looks at the state that is there. What the
state can go through is up to the others: to the exec server, which reports the
start of a job and then its end, and to `unsubmit`, which has seen
`STATE_WAIT` two sections earlier.

It is up to time as well. A job that leaves its queue for an exec server while
an `unsubmit` is between its sections is marked while it runs.
-/

namespace DistQueue

open DistQueue.Lib

variable {N : Nat}

section Runs

variable [NeZero N]

/-! ## The invariant -/

omit [NeZero N] in
/-- What the last report says. -/
def Serving.state (x : Serving) : UInt8 :=
  match x.reports.getLast? with
  | some (.changeStateJob _ state _) => state
  | _ => JobState.wait.toByte

/-- A record waits or has been given up until its job is sent; from then on it
has the state that was reported last. -/
structure Sys.Tracked (s : Sys N) : Prop where
  unsent : ∀ c record, s.server.history.slot c = some record → s.sent record.addr = 0 →
    record.state = JobState.wait.toByte ∨
      record.state = JobState.unsubmited.toByte ∧ 0 < s.gone record.addr
  sent : ∀ t x, s.serving t = some x → 0 < s.sent x.job
  named : ∀ t x, s.serving t = some x → ∀ jobid,
    execJobID ((Msg.fill 0).over x.wire) = some jobid → s.Numbered x.job jobid
  served : ∀ t x, s.serving t = some x → ∀ c record, s.server.history.slot c = some record →
    record.addr = x.job → record.state = x.state
  single : ∀ t t' x x', s.serving t = some x → s.serving t' = some x' → x.job = x'.job → t = t'
  coming : ∀ (t : Nat) (pc : Pc N) op, s.threads[t]? = some pc → pc.report = some op →
    ∃ x, s.serving t = some x ∧ x.Awaits op

section Tracked

variable {s s' : Sys N} {a : Action}

theorem Sys.Tracked.coming_step (hk : s.Tracked) (hconf : s.Conforms a) (h : s.step a = some s') :
    ∀ (t : Nat) (pc : Pc N) op, s'.threads[t]? = some pc → pc.report = some op →
      ∃ x, s'.serving t = some x ∧ x.Awaits op := by
  intro t pc op ht hop
  obtain ⟨hback, hserving⟩ := (step_cases h).2.report_back ht hop
  rw [hserving]
  rcases hback with ht₀ | hmessage
  · exact hk.coming t pc op ht₀ hop
  · obtain ⟨pkg, blank, rfl, ht₀, rfl⟩ := report_received h hmessage ht hop
    exact hconf ht₀ op hop

omit [NeZero N] in
/-- A job that a thread has is not sent and not gone. -/
theorem Sys.Sound.only_held (hs : s.Sound) {t : Nat} {pc : Pc N} {p : Ptr}
    (ht : s.threads[t]? = some pc) (hholds : 0 < pc.holds p) : s.sent p = 0 ∧ s.gone p = 0 := by
  have hle : pc.holds p ≤ s.held p := le_tally (f := Pc.holds p) ht
  obtain ⟨-, hsum⟩ := hs.lt_of_placed (p := p) (by omega)
  omega

omit [NeZero N] in
/-- A job that is sent is not gone. -/
theorem Sys.Sound.sent_or_gone (hs : s.Sound) {p : Ptr} (hsent : 0 < s.sent p)
    (hgone : 0 < s.gone p) : False := by
  obtain ⟨-, hsum⟩ := hs.lt_of_placed (p := p) (by omega)
  omega

omit [NeZero N] in
theorem retained_of_slot (hl : s.Linked) {c : Nat} {record : JobHistory}
    (hslot : s.server.history.slot c = some record) :
    s.server.history.retained record.id = some record := by
  have hc := hl.inv.congr c record hslot
  subst hc
  exact History.retained_eq_some.mpr ⟨hslot, rfl⟩

omit [NeZero N] in
/-- A mark is put on a record whose job has been taken out of its queue. -/
theorem marked_gone (hl : s.Linked) (hcanc : s.Cancelled) {t : Nat} {env : Env} {jobid : UInt16}
    {found : Ptr} (ht : s.threads[t]? = some (.markUnsubmited jobid found))
    (hown : s.OwnRecord (.run t env)) {c : Nat} {record : JobHistory}
    (hslot : s.server.history.slot c = some record) (hid : record.id = jobid) :
    0 < s.gone record.addr := by
  simp only [Sys.OwnRecord, ht] at hown
  have hret := retained_of_slot hl hslot
  rw [hid] at hret
  rw [History.foundUnder_eq hl.inv] at hown
  rw [hown record hret]
  exact hcanc.threads t _ ht found rfl

omit [NeZero N] in
/-- A report is stored into the record of the job that was sent. -/
theorem reported_own (hl : s.Linked) {t : Nat} {env : Env} {jobid : UInt16}
    {state exitValue : UInt8} (ht : s.threads[t]? = some (.changeStateJob jobid state exitValue))
    (hown : s.OwnRecord (.run t env)) {c : Nat} {record : JobHistory}
    (hslot : s.server.history.slot c = some record) (hid : record.id = jobid) :
    ∃ x, s.serving t = some x ∧ x.job = record.addr := by
  simp only [Sys.OwnRecord, ht] at hown
  have hret := retained_of_slot hl hslot
  rw [hid] at hret
  rw [History.foundUnder_eq hl.inv] at hown
  exact Option.map_eq_some_iff.mp (hown record hret)

omit [NeZero N] in
theorem Sys.Linked.numbered (hl : s.Linked) {c : Nat} {record : JobHistory}
    (hslot : s.server.history.slot c = some record) : s.Numbered record.addr record.id := by
  have hc := hl.inv.congr c record hslot
  subst hc
  exact numbered_of_slot hl (History.slotOf_lt _) hslot

omit [NeZero N] in
/-- A submission has no two records. -/
theorem slot_inj (hl : s.Linked) (hrec : s.Recorded) {c c' : Nat} {record record' : JobHistory}
    (hslot : s.server.history.slot c = some record)
    (hslot' : s.server.history.slot c' = some record') (haddr : record'.addr = record.addr) :
    c = c' := by
  have hnum := hl.numbered hslot
  have hnum' := hl.numbered hslot'
  rw [haddr] at hnum'
  rw [← hl.inv.congr c record hslot, ← hl.inv.congr c' record' hslot',
    Sys.Numbered.unique hrec hnum hnum']

theorem Serving.Awaits.jobid {x : Serving} {jobid : UInt16} {state exitValue : UInt8}
    (h : x.Awaits (.changeStateJob jobid state exitValue)) :
    execJobID ((Msg.fill 0).over x.wire) = some jobid := by
  obtain ⟨job, wire, reports⟩ := x
  obtain ⟨jobid', hid, hnext⟩ := h
  have heq : jobid = jobid' := by
    rcases reports with - | ⟨first, - | ⟨second, rest⟩⟩
    · exact hnext.1
    · exact hnext.2.1
    · exact hnext.elim
  rw [heq]
  exact hid

omit [NeZero N] in
/-- The record of the job that was sent has the id of the report. -/
theorem report_names (hl : s.Linked) (hrec : s.Recorded) (hk : s.Tracked) {t : Nat} {jobid : UInt16}
    {state exitValue : UInt8} (ht : s.threads[t]? = some (.changeStateJob jobid state exitValue))
    {x : Serving} (hx : s.serving t = some x) {c : Nat} {record : JobHistory}
    (hslot : s.server.history.slot c = some record) (haddr : record.addr = x.job) :
    record.id = jobid := by
  obtain ⟨x', hx', hawaits⟩ := hk.coming t _ _ ht rfl
  obtain rfl := Option.some.inj (hx.symm.trans hx')
  have hnum := hl.numbered hslot
  rw [haddr] at hnum
  exact Sys.Numbered.unique hrec hnum (hk.named t x hx jobid hawaits.jobid)

theorem sent_mono (h : s.step a = some s') {p : Ptr} (hp : s'.sent p = 0) : s.sent p = 0 := by
  have hle : s.sent p ≤ s'.sent p := tally_log_mono h _
  omega

theorem gone_mono (h : s.step a = some s') {p : Ptr} (hp : 0 < s.gone p) : 0 < s'.gone p := by
  have hle : s.gone p ≤ s'.gone p := tally_log_mono h _
  omega

omit [NeZero N] in
theorem JobHistory.after_unsubmit (record : JobHistory) (jobid : UInt16) :
    (record.after (.unsubmit jobid)).state =
      if record.id = jobid then JobState.unsubmited.toByte else record.state := by
  simp only [JobHistory.after]
  split <;> rfl

omit [NeZero N] in
theorem JobHistory.after_changeStateJob (record : JobHistory) (jobid : UInt16)
    (state exitValue : UInt8) :
    (record.after (.changeStateJob jobid state exitValue)).state =
      if record.id = jobid then state else record.state := by
  simp only [JobHistory.after]
  split <;> rfl

theorem Sys.Tracked.unsent_step (hk : s.Tracked) (hl : s.Linked) (hcanc : s.Cancelled)
    (hown : s.OwnRecord a) (hcourse : Course s s' a) (h : s.step a = some s') {c : Nat}
    {record' : JobHistory} (hslot : s'.server.history.slot c = some record')
    (hsent : s'.sent record'.addr = 0) :
    record'.state = JobState.wait.toByte ∨
      record'.state = JobState.unsubmited.toByte ∧ 0 < s'.gone record'.addr := by
  have hold : ∀ {record : JobHistory}, s.server.history.slot c = some record →
      record'.addr = record.addr → record'.state = record.state →
      record'.state = JobState.wait.toByte ∨
        record'.state = JobState.unsubmited.toByte ∧ 0 < s'.gone record'.addr := by
    intro record hrecord haddr hstate
    rw [hstate, haddr]
    rw [haddr] at hsent
    rcases hk.unsent c record hrecord (sent_mono h hsent) with hwait | ⟨hunsub, hgone⟩
    · exact .inl hwait
    · exact .inr ⟨hunsub, gone_mono h hgone⟩
  cases hcourse with
  | quiet _ hslots =>
      obtain ⟨record, hrecord, haddr, hstate⟩ := hslots c record' hslot
      exact hold hrecord haddr hstate
  | number _ _ hslots =>
      rcases hslots c record' hslot with hrecord | ⟨-, hwait⟩
      · exact hold hrecord rfl rfl
      · exact .inl hwait
  | @mark t env jobid found ht _ hslots =>
      obtain ⟨record, hrecord, hafter⟩ := hslots c record' hslot
      have haddr : record'.addr = record.addr := by rw [hafter, JobHistory.after_addr]
      have hstate := JobHistory.after_unsubmit record jobid
      rw [← hafter] at hstate
      by_cases hid : record.id = jobid
      · rw [if_pos hid] at hstate
        rw [haddr]
        exact .inr ⟨hstate, gone_mono h (marked_gone hl hcanc ht hown hrecord hid)⟩
      · rw [if_neg hid] at hstate
        exact hold hrecord haddr hstate
  | @report t env jobid state exitValue ht _ _ hslots =>
      obtain ⟨record, hrecord, hafter⟩ := hslots c record' hslot
      have haddr : record'.addr = record.addr := by rw [hafter, JobHistory.after_addr]
      have hstate := JobHistory.after_changeStateJob record jobid state exitValue
      rw [← hafter] at hstate
      by_cases hid : record.id = jobid
      · obtain ⟨x, hx, hjob⟩ := reported_own hl ht hown hrecord hid
        have hpos := hk.sent t x hx
        rw [haddr] at hsent
        rw [hjob, sent_mono h hsent] at hpos
        exact absurd hpos (Nat.lt_irrefl 0)
      · rw [if_neg hid] at hstate
        exact hold hrecord haddr hstate
  | dispatch _ _ _ _ hhist =>
      rw [hhist] at hslot
      exact hold hslot rfl rfl

omit [NeZero N] in
/-- The job that an exec server has, before the step and behind it. -/
theorem serving_step (hcourse : Course s s' a) {t : Nat} {x' : Serving}
    (hx' : s'.serving t = some x') :
    (∃ x, s.serving t = some x ∧ x'.job = x.job ∧ x'.wire = x.wire) ∨
      ∃ env p contents, a = .run t env ∧ s.threads[t]? = some (.sendMsg p) ∧
        s.heap.load p = some contents ∧ x' = ⟨p, (contents.msg env.stack).wire, []⟩ := by
  cases hcourse with
  | quiet hserving | number _ hserving | mark _ hserving =>
      rw [hserving] at hx'
      exact .inl ⟨x', hx', rfl, rfl⟩
  | @report t₀ env jobid state exitValue _ hother hself =>
      by_cases htt : t = t₀
      · subst htt
        rw [hself] at hx'
        obtain ⟨x, hx, rfl⟩ := Option.map_eq_some_iff.mp hx'
        exact .inl ⟨x, hx, rfl, rfl⟩
      · rw [hother t htt] at hx'
        exact .inl ⟨x', hx', rfl, rfl⟩
  | @dispatch t₀ env p contents ht hload hother hself =>
      by_cases htt : t = t₀
      · subst htt
        rw [hself] at hx'
        exact .inr ⟨env, p, contents, rfl, ht, hload, (Option.some.inj hx').symm⟩
      · rw [hother t htt] at hx'
        exact .inl ⟨x', hx', rfl, rfl⟩

omit [NeZero N] in
theorem Sys.Sound.only_sender (hs : s.Sound) {t : Nat} {p : Ptr}
    (ht : s.threads[t]? = some (.sendMsg p)) : s.sent p = 0 ∧ s.gone p = 0 :=
  hs.only_held ht (by simp [Pc.holds, Pc.inSendJob, one])

omit [NeZero N] in
/-- What is sent of a job has the id of its record. -/
theorem dispatched_named (hs : s.Sound) (hids : s.Ids) {t : Nat} {p : Ptr} {contents : Job}
    (ht : s.threads[t]? = some (.sendMsg p)) (hload : s.heap.load p = some contents) {m : Msg}
    {jobid : UInt16} (hid : execJobID ((Msg.fill 0).over (contents.msg m).wire) = some jobid) :
    s.Numbered p jobid := by
  have hholds : 0 < (Pc.sendMsg p : Pc N).holds p := by simp [Pc.holds, Pc.inSendJob, one]
  have hst : s.Stamped p := stamped_of_holds hs ht hholds (by exact fun h => by cases h)
  obtain ⟨job, hcont, hnum⟩ := hids.stamped p hst
  obtain rfl := Option.some.inj (hcont.symm.trans (Heap.contents_of_load hload))
  rw [Job.wire_call, (arrived_job ⟨Msg.fill 0, rfl⟩).2] at hid
  obtain rfl := Option.some.inj hid
  exact hnum

theorem Sys.Tracked.sent_step (hk : s.Tracked) (hcourse : Course s s' a) (h : s.step a = some s')
    {t : Nat} {x' : Serving} (hx' : s'.serving t = some x') : 0 < s'.sent x'.job := by
  have hold : ∀ x, s.serving t = some x → x'.job = x.job → 0 < s'.sent x'.job := by
    intro x hx hjob
    have hpos := hk.sent t x hx
    have hle : s.sent x.job ≤ s'.sent x.job := tally_log_mono h _
    rw [hjob]
    omega
  rcases serving_step hcourse hx' with ⟨x, hx, hjob, -⟩ | ⟨env, p, contents, rfl, ht, -, rfl⟩
  · exact hold x hx hjob
  · cases hcourse with
    | dispatch ht' _ _ _ _ hpos =>
        injection ht'.symm.trans ht with hpc
        injection hpc with hp
        exact hp ▸ hpos
    | quiet hserving | number _ hserving | mark _ hserving =>
        rw [hserving] at hx'
        exact hold _ hx' rfl
    | report ht' =>
        rw [ht] at ht'
        cases ht'

omit [NeZero N] in
/-- What is new at an exec server, or was reported by it. -/
theorem Sys.Tracked.served_step (hk : s.Tracked) (hs : s.Sound) (hl : s.Linked) (hrec : s.Recorded)
    (hcanc : s.Cancelled) (hown : s.OwnRecord a) (hcourse : Course s s' a) {t : Nat} {x' : Serving}
    (hx' : s'.serving t = some x') {c : Nat} {record' : JobHistory}
    (hslot : s'.server.history.slot c = some record') (haddr' : record'.addr = x'.job) :
    record'.state = x'.state := by
  cases hcourse with
  | quiet hserving hslots =>
      rw [hserving] at hx'
      obtain ⟨record, hrecord, haddr, hstate⟩ := hslots c record' hslot
      rw [hstate]
      exact hk.served t x' hx' c record hrecord (haddr.symm.trans haddr')
  | @number t₀ env p queueIdx ht hserving hslots =>
      rw [hserving] at hx'
      rcases hslots c record' hslot with hrecord | ⟨hp, -⟩
      · exact hk.served t x' hx' c record' hrecord haddr'
      · -- The job of a new record has not been sent.
        have hpos := hk.sent t x' hx'
        have hholds : 0 < (Pc.numberJob p queueIdx : Pc N).holds p := by
          simp [Pc.holds, Pc.inNewJob, one]
        rw [← haddr', hp, (hs.only_held ht hholds).1] at hpos
        exact absurd hpos (Nat.lt_irrefl 0)
  | @mark t₀ env jobid found ht hserving hslots =>
      rw [hserving] at hx'
      obtain ⟨record, hrecord, hafter⟩ := hslots c record' hslot
      have haddr : record.addr = x'.job := by
        rw [← haddr', hafter, JobHistory.after_addr]
      have hstate := JobHistory.after_unsubmit record jobid
      rw [← hafter] at hstate
      by_cases hid : record.id = jobid
      · have hgone := marked_gone hl hcanc ht hown hrecord hid
        rw [haddr] at hgone
        exact (hs.sent_or_gone (hk.sent t x' hx') hgone).elim
      · rw [hstate, if_neg hid]
        exact hk.served t x' hx' c record hrecord haddr
  | @report t₀ env jobid state exitValue ht hother hself hslots =>
      obtain ⟨record, hrecord, hafter⟩ := hslots c record' hslot
      have haddr : record.addr = x'.job := by
        rw [← haddr', hafter, JobHistory.after_addr]
      have hstate := JobHistory.after_changeStateJob record jobid state exitValue
      rw [← hafter] at hstate
      by_cases htt : t = t₀
      · subst htt
        rw [hself] at hx'
        obtain ⟨x, hx, rfl⟩ := Option.map_eq_some_iff.mp hx'
        rw [hstate, if_pos (report_names hl hrec hk ht hx hrecord haddr)]
        simp [Serving.state]
      · rw [hother t htt] at hx'
        have hid : record.id ≠ jobid := by
          intro hid
          obtain ⟨x, hx, hjob⟩ := reported_own hl ht hown hrecord hid
          exact htt (hk.single t t₀ x' x hx' hx (haddr.symm.trans hjob.symm))
        rw [hstate, if_neg hid]
        exact hk.served t x' hx' c record hrecord haddr
  | @dispatch t₀ env p contents ht hload hother hself hhist hpos =>
      rw [hhist] at hslot
      by_cases htt : t = t₀
      · subst htt
        rw [hself] at hx'
        obtain rfl := Option.some.inj hx'
        have haddr : record'.addr = p := haddr'
        obtain ⟨hsent, hgone⟩ := hs.only_sender ht
        rw [← haddr] at hsent hgone
        rcases hk.unsent c record' hslot hsent with hwait | ⟨-, hpos'⟩
        · exact hwait
        · omega
      · rw [hother t htt] at hx'
        exact hk.served t x' hx' c record' hslot haddr'

theorem Sys.Tracked.step (hk : s.Tracked) (hs : s.Sound) (hl : s.Linked) (hrec : s.Recorded)
    (hids : s.Ids) (hcanc : s.Cancelled) (hok : s.Steady a) (h : s.step a = some s') :
    s'.Tracked := by
  have hcourse := course_of_step hl h
  obtain ⟨hconf, -, hown⟩ := hok
  refine {
    unsent := fun c record' hslot => hk.unsent_step hl hcanc hown hcourse h hslot
    sent := fun t x' hx' => hk.sent_step hcourse h hx'
    named := fun t x' hx' jobid hid => ?_
    served := fun t x' hx' c record' =>
      hk.served_step hs hl hrec hcanc hown hcourse hx'
    single := fun t t' x x' hx hx' hjob => ?_
    coming := hk.coming_step hconf h }
  · rcases serving_step hcourse hx' with ⟨x, hx, hjob, hwire⟩ | ⟨env, p, contents, -, ht, hload, rfl⟩
    · rw [hwire] at hid
      rw [hjob]
      exact (hk.named t x hx jobid hid).step h
    · exact (dispatched_named hs hids ht hload hid).step h
  · -- What is being sent was sent to nobody before.
    have hfresh : ∀ {t₀ t₁ : Nat} {y : Serving}, s.threads[t₀]? = some (.sendMsg y.job) →
        s.serving t₁ = some y → False := by
      intro t₀ t₁ y ht hy
      have hpos := hk.sent t₁ y hy
      rw [(hs.only_sender ht).1] at hpos
      exact Nat.lt_irrefl 0 hpos
    rcases serving_step hcourse hx with ⟨y, hy, hyjob, -⟩ | ⟨env, p, contents, ha, ht, -, rfl⟩
    · rcases serving_step hcourse hx' with ⟨y', hy', hyjob', -⟩ | ⟨env, p, contents, -, ht, -, rfl⟩
      · exact hk.single t t' y y' hy hy' (by rw [← hyjob, hjob, hyjob'])
      · have hp : y.job = p := hyjob.symm.trans hjob
        rw [← hp] at ht
        exact (hfresh ht hy).elim
    · rcases serving_step hcourse hx' with ⟨y', hy', hyjob', -⟩ | ⟨env', p', contents', ha', -⟩
      · have hp : y'.job = p := hyjob'.symm.trans hjob.symm
        rw [← hp] at ht
        exact (hfresh ht hy').elim
      · injection ha.symm.trans ha'

theorem tracked_of_reach (h : Reach Sys.step Sys.Steady (· = Sys.init N) s) : s.Tracked := by
  refine h.invariant ?_ fun s a s' hr hk hok h =>
    hk.step (sound_of_reach (fun _ _ h => h.2.1.1) hr) (linked_of_reach hr) (recorded_of_reach hr)
      (ids_of_reach hr) (cancelled_of_reach (fun _ _ h => h.2.1) hr) hok h
  intro s h
  subst h
  refine ⟨fun c record hslot => ?_, fun t x hx => (by cases hx), fun t x hx => (by cases hx),
    fun t x hx => (by cases hx), fun t t' x x' hx => (by cases hx), fun t pc op ht => (by cases ht)⟩
  cases (History.slot_init c).symm.trans hslot

end Tracked

/-! ## The lifecycle -/

/-- The changes of state that a record may go through. -/
inductive JobHistory.Moves (record record' : JobHistory) : Prop
  | run : record.state = JobState.wait.toByte → record'.state = JobState.run.toByte →
      Moves record record'
  /-- The exec server could not fork. -/
  | errorFork : record.state = JobState.wait.toByte → record'.state = JobState.error.toByte →
      record'.exitStatus = 41 → Moves record record'
  | unsubmited : record.state = JobState.wait.toByte →
      record'.state = JobState.unsubmited.toByte → Moves record record'
  | finished : record.state = JobState.run.toByte → record'.state = JobState.finished.toByte →
      Moves record record'
  | signaled : record.state = JobState.run.toByte → record'.state = JobState.signaled.toByte →
      Moves record record'
  | error : record.state = JobState.run.toByte → record'.state = JobState.error.toByte →
      Moves record record'

/-- The states a record stays in. -/
def JobHistory.Settled (record : JobHistory) : Prop :=
  record.state = JobState.finished.toByte ∨ record.state = JobState.signaled.toByte ∨
    record.state = JobState.error.toByte ∨ record.state = JobState.unsubmited.toByte

instance (record : JobHistory) : Decidable record.Settled := inferInstanceAs (Decidable (_ ∨ _))

/-- Every record of `s'` is that of a new submission and waits, or was in its
slot in `s` and has kept its state or moved on. -/
def Sys.Advances (s s' : Sys N) : Prop :=
  ∀ c record', s'.server.history.slot c = some record' →
    (record'.addr ∉ jobsOf s.ops ∧ record'.state = JobState.wait.toByte) ∨
      ∃ record, s.server.history.slot c = some record ∧ record.addr = record'.addr ∧
        (record'.state = record.state ∨ record.Moves record')

omit [NeZero N] in
theorem JobHistory.Settled.not_moves {record record' : JobHistory} (h : record.Settled) :
    ¬ record.Moves record' := by
  have hne : record.state ≠ JobState.wait.toByte ∧ record.state ≠ JobState.run.toByte := by
    rcases h with h | h | h | h <;> rw [h] <;> decide
  intro hmoves
  cases hmoves with
  | run hstate | errorFork hstate | unsubmited hstate => exact hne.1 hstate
  | finished hstate | signaled hstate | error hstate => exact hne.2 hstate

omit [NeZero N] in
/-- A report that is awaited moves a record that has the state of the last
one. -/
theorem Serving.Awaits.moves {x : Serving} {jobid : UInt16} {state exitValue : UInt8}
    (h : x.Awaits (.changeStateJob jobid state exitValue)) {record : JobHistory}
    (hstate : record.state = x.state) (hid : record.id = jobid) :
    record.Moves (record.after (.changeStateJob jobid state exitValue)) := by
  have hafter := record.after_changeStateJob jobid state exitValue
  have hexit : (record.after (.changeStateJob jobid state exitValue)).exitStatus = exitValue := by
    simp only [JobHistory.after, if_pos hid]
  rw [if_pos hid] at hafter
  obtain ⟨job, wire, reports⟩ := x
  obtain ⟨jobid', -, hnext⟩ := h
  rcases reports with - | ⟨first, - | ⟨second, rest⟩⟩
  · have hwait : record.state = JobState.wait.toByte := hstate
    obtain ⟨-, ⟨rfl, -⟩ | ⟨rfl, rfl⟩⟩ := hnext
    · exact .run hwait hafter
    · exact .errorFork hwait hafter hexit
  · obtain ⟨rfl, -, hreport⟩ := hnext
    have hrun : record.state = JobState.run.toByte := hstate
    rcases hreport with rfl | rfl
    · by_cases herror : exitValue = 40 ∨ exitValue = 41
      · rw [doneState, if_pos herror] at hafter ⊢
        exact .error hrun hafter
      · rw [doneState, if_neg herror] at hafter ⊢
        exact .finished hrun hafter
    · exact .signaled hrun hafter
  · exact hnext.elim

theorem Sys.Tracked.advances {s s' : Sys N} {a : Action} (hk : s.Tracked) (hs : s.Sound)
    (hl : s.Linked) (hrec : s.Recorded) (hcanc : s.Cancelled) (hown : s.OwnRecord a)
    (h : s.step a = some s') : s.Advances s' := by
  intro c record' hslot
  cases course_of_step hl h with
  | quiet _ hslots =>
      obtain ⟨record, hrecord, haddr, hstate⟩ := hslots c record' hslot
      exact .inr ⟨record, hrecord, haddr.symm, .inl hstate⟩
  | @number t env p queueIdx ht _ hslots =>
      rcases hslots c record' hslot with hrecord | ⟨haddr, hwait⟩
      · exact .inr ⟨record', hrecord, rfl, .inl rfl⟩
      · refine .inl ⟨fun hmem => ?_, hwait⟩
        rw [haddr] at hmem
        exact (hrec.fresh p hmem).2 t _ ht rfl
  | @mark t env jobid found ht _ hslots =>
      obtain ⟨record, hrecord, rfl⟩ := hslots c record' hslot
      refine .inr ⟨record, hrecord, (JobHistory.after_addr _ _).symm, ?_⟩
      rw [JobHistory.after_unsubmit]
      split
      · next hid =>
          have hgone := marked_gone hl hcanc ht hown hrecord hid
          have hsent : s.sent record.addr = 0 := by
            by_contra hne
            exact hs.sent_or_gone (Nat.pos_of_ne_zero hne) hgone
          rcases hk.unsent c record hrecord hsent with hwait | ⟨hunsub, -⟩
          · exact .inr (.unsubmited hwait (by rw [JobHistory.after_unsubmit, if_pos hid]))
          · exact .inl hunsub.symm
      · exact .inl rfl
  | @report t env jobid state exitValue ht _ _ hslots =>
      obtain ⟨record, hrecord, rfl⟩ := hslots c record' hslot
      refine .inr ⟨record, hrecord, (JobHistory.after_addr _ _).symm, ?_⟩
      by_cases hid : record.id = jobid
      · obtain ⟨x, hx, hjob⟩ := reported_own hl ht hown hrecord hid
        obtain ⟨x', hx', hawaits⟩ := hk.coming t _ _ ht rfl
        obtain rfl := Option.some.inj (hx.symm.trans hx')
        exact .inr (hawaits.moves (hk.served t x hx c record hrecord hjob.symm) hid)
      · rw [JobHistory.after_changeStateJob, if_neg hid]
        exact .inl rfl
  | dispatch _ _ _ _ hhist =>
      rw [hhist] at hslot
      exact .inr ⟨record', hslot, rfl, .inl rfl⟩

theorem advances_of_reach {s s' : Sys N} {a : Action}
    (hr : Reach Sys.step Sys.Steady (· = Sys.init N) s) (hok : s.Steady a)
    (h : s.step a = some s') : s.Advances s' :=
  (tracked_of_reach hr).advances (sound_of_reach (fun _ _ h => h.2.1.1) hr) (linked_of_reach hr)
    (recorded_of_reach hr) (cancelled_of_reach (fun _ _ h => h.2.1) hr) hok.2.2 h

/-- In every run in which the exec servers behave and every removal, mark and
report gets the job it is for: the record of a submission begins to wait, each
step leaves its state or changes it in one of the six ways, and once the state
is final no later step changes it. -/
theorem record_lifecycle {s : Sys N} (h : Reach Sys.step Sys.Steady (· = Sys.init N) s) :
    (∀ a s', s.Steady a → s.step a = some s' → s.Advances s') ∧
    (∀ s', Reach Sys.step Sys.Steady (· = s) s' → ∀ c c' record record',
      s.server.history.slot c = some record → s'.server.history.slot c' = some record' →
        record'.addr = record.addr → record.Settled → record'.state = record.state) := by
  refine ⟨fun a s' => advances_of_reach h, fun s' h' c c' record record' hslot hslot' haddr hsettled => ?_⟩
  have hkept : s'.Numbered record.addr record.id ∧
      ∀ c' record', s'.server.history.slot c' = some record' → record'.addr = record.addr →
        record'.state = record.state := by
    refine h'.invariant (I := fun s' : Sys N => s'.Numbered record.addr record.id ∧
      ∀ c' record', s'.server.history.slot c' = some record' → record'.addr = record.addr →
        record'.state = record.state) ?_ ?_
    · intro s' heq
      subst heq
      refine ⟨(linked_of_reach h).numbered hslot, fun c' record' hslot' haddr => ?_⟩
      obtain rfl := slot_inj (linked_of_reach h) (recorded_of_reach h) hslot hslot' haddr
      rw [hslot] at hslot'
      obtain rfl := Option.some.inj hslot'
      rfl
    · intro s₁ a s₂ hr₁ ih hok hstep
      obtain ⟨hnum, hstate⟩ := ih
      refine ⟨hnum.step hstep, fun c' record' hslot' haddr => ?_⟩
      rcases advances_of_reach (h.trans hr₁) hok hstep c' record' hslot' with
        ⟨hnew, -⟩ | ⟨record₁, hrecord₁, haddr₁, hcase⟩
      · -- The submission has been made long ago.
        obtain ⟨n, hn, -⟩ := hnum.index
        rw [haddr] at hnew
        exact absurd (List.mem_of_getElem? hn) hnew
      · have hsame := hstate c' record₁ hrecord₁ (haddr₁.trans haddr)
        rcases hcase with hcase | hmoves
        · exact hcase.trans hsame
        · have hsettled₁ : record₁.Settled := by
            unfold JobHistory.Settled
            rw [hsame]
            exact hsettled
          exact absurd hmoves hsettled₁.not_moves
  exact hkept.2 c' record' hslot' haddr

end Runs

/-! ## Two runs -/

/-- A job is sent, runs and exits. -/
def ranRun : List Action :=
  [.acceptClient, .acceptExecServ, .submit 0, .go 0, .go 0, .go 0, .go 0,
    .request 1, .go 1, .go 1, .go 1, .go 1, .report 1 (setJobRun (Msg.fill 0) 0), .go 1,
    .report 1 (setJobDone (Msg.fill 0) 0 0)]

/-- What the record in slot `c` is of, and its state. -/
def Sys.stateAt (s : Sys N) (c : Nat) : Option (Ptr × UInt8) :=
  (s.server.history.slot c).map fun record => (record.addr, record.state)

theorem record_lifecycle_ran :
    ∃ s : Sys numQueueMax, Reach Sys.step Sys.Steady (· = Sys.init numQueueMax) s ∧
      s.stateAt 0 = some (0, JobState.run.toByte) ∧
      ∃ s', s.step (.go 1) = some s' ∧ s.Advances s' ∧
        s'.stateAt 0 = some (0, JobState.finished.toByte) := by
  obtain ⟨s, hr, hstate, hok, hstep⟩ :
      ∃ s, Reach Sys.step Sys.Steady (· = Sys.init numQueueMax) s ∧
        s.stateAt 0 = some (0, JobState.run.toByte) ∧ s.Steady (.go 1) ∧
        (s.step (.go 1)).any (fun s' =>
          decide (s'.stateAt 0 = some (0, JobState.finished.toByte))) = true :=
    @reach_of_checkedRun _ _ _ _ _ _ ranRun _ _ _ rfl (by decide +kernel)
  obtain ⟨s', hs', hstate'⟩ := (Option.any_eq_true _ _).mp hstep
  exact ⟨s, hr, hstate, s', hs', (record_lifecycle hr).1 _ s' hok hs', of_decide_eq_true hstate'⟩

/-- An `unsubmit` sees a job that waits; before its next section the job is sent
and begins to run. -/
def overtakenRun : List Action :=
  [.acceptClient, .acceptExecServ, .submit 0, .go 0, .go 0, .go 0, .go 0, .cancel 0 0, .go 0,
    .request 1, .go 1, .go 1, .go 1, .go 1, .report 1 (setJobRun (Msg.fill 0) 0), .go 1,
    .go 0, .go 0]

/-- The job that runs is marked, and has finished then. -/
theorem running_job_marked :
    ∃ s s₁ s₂ : Sys numQueueMax, Reach Sys.step Sys.Conforms (· = Sys.init numQueueMax) s ∧
      s.stateAt 0 = some (0, JobState.run.toByte) ∧
      s.Conforms (.go 0) ∧ s.step (.go 0) = some s₁ ∧
      s₁.stateAt 0 = some (0, JobState.unsubmited.toByte) ∧
      Reach Sys.step Sys.Conforms (· = s₁) s₂ ∧ s₂.Bounded ∧ s₂.fault = none ∧
      s₂.stateAt 0 = some (0, JobState.finished.toByte) := by
  obtain ⟨s, hr, hstate, hok, hstep⟩ :
      ∃ s, Reach Sys.step Sys.Conforms (· = Sys.init numQueueMax) s ∧
        s.stateAt 0 = some (0, JobState.run.toByte) ∧ s.Conforms (.go 0) ∧
        (s.step (.go 0)).any (fun s₁ =>
          decide (s₁.stateAt 0 = some (0, JobState.unsubmited.toByte) ∧
            (checkedRun Sys.step Sys.Conforms s₁
              [.report 1 (setJobDone (Msg.fill 0) 0 0), .go 1]).any (fun s₂ =>
                decide (s₂.Bounded ∧ s₂.fault = none ∧
                  s₂.stateAt 0 = some (0, JobState.finished.toByte))) = true)) = true :=
    @reach_of_checkedRun _ _ _ _ _ _ overtakenRun _ _ _ rfl (by decide +kernel)
  obtain ⟨s₁, hs₁, hrest⟩ := (Option.any_eq_true _ _).mp hstep
  obtain ⟨hstate₁, hrun⟩ := of_decide_eq_true hrest
  obtain ⟨s₂, hr₂, hb, hfault, hstate₂⟩ := @reach_of_checkedRun _ _ _ _ (· = s₁) _ _ _ _ _ rfl hrun
  exact ⟨s, s₁, s₂, hr, hstate, hok, hs₁, hstate₁, hr₂, hb, hfault, hstate₂⟩

end DistQueue
