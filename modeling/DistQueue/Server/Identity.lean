import DistQueue.Server.Memory

/-!
# Records and ids

The history of a reachable state is the result of the operations in its log,
so everything `HistoryRuns` says about lists of operations is about the
server. A job gets its id in two steps: `newJob` takes the id with the lock
held and stores it into the job later, when it has answered the client. Until
then the job is a draft that no other thread knows; from then on its contents
never change, and its id is the one its record was given.
-/

namespace DistQueue

open DistQueue.Lib

variable {N : Nat}

/-! ## The operations of a log -/

def Event.historyOp : Event N → Option HistOp
  | .history _ op => some op
  | _ => none

namespace Sys

/-- The operations on the history so far. -/
def ops (s : Sys N) : List HistOp := s.log.filterMap Event.historyOp

def Linked (s : Sys N) : Prop := History.run s.ops = .ok s.server.history

end Sys

section Linked

variable [NeZero N] {server : MainServer N} {heap : Heap} {t : Nat} {env : Env} {pc : Pc N}
  {r : Result N}

/-- A section is one operation on the history, or none. -/
theorem Ran.history (h : Ran server heap t env pc r) :
    (r.events.filterMap Event.historyOp = [] ∧ r.server.history = server.history) ∨
      ∃ op, r.events = [.history t op] ∧ server.history.apply op = .ok r.server.history := by
  cases h with
  | numberJob hload haddr hop => exact .inr ⟨_, rfl, hop⟩
  | jobState hop hanswer => exact .inr ⟨_, rfl, hop⟩
  | markUnsubmited hop => exact .inr ⟨_, rfl, hop⟩
  | relabelLost hload hfind =>
      refine .inr ⟨_, rfl, ?_⟩
      rw [History.apply, History.putJobBack, hfind]
      rfl
  | relabel hload hop => exact .inr ⟨_, rfl, hop⟩
  | changeStateJob hop => exact .inr ⟨_, rfl, hop⟩
  | submittedResponse | reply => refine .inl ⟨?_, rfl⟩; dsimp only; split <;> rfl
  | _ => exact .inl ⟨rfl, rfl⟩

omit [NeZero N] in
theorem Sys.ops_commit (s : Sys N) (t pick : Nat) (r : Result N) :
    (s.commit t pick r).ops = s.ops ++ r.events.filterMap Event.historyOp :=
  List.filterMap_append

/-- What a step does to the operations and the history. -/
theorem step_ops {s s' : Sys N} {a : Action} (h : s.step a = some s') :
    (s'.ops = s.ops ∧ s'.server.history = s.server.history) ∨
      ∃ t env pc r op, a = .run t env ∧ s.threads[t]? = some pc ∧
        Ran s.server s.heap t env pc r ∧ s' = s.commit t env.pick r ∧
        r.events = [.history t op] ∧ s'.ops = s.ops ++ [op] ∧
        s.server.history.apply op = .ok s'.server.history := by
  rcases (step_cases h).2.server_cases with ⟨hserver, hlog⟩ | ⟨t, env, pc, r, ha, ht, hran, rfl⟩
  · refine .inl ⟨?_, by rw [hserver]⟩
    rcases hlog with hlog | ⟨t, hlog⟩
    · rw [Sys.ops, hlog, Sys.ops]
    · rw [Sys.ops, hlog, List.filterMap_append, Sys.ops]
      exact List.append_nil _
  · rcases hran.history with ⟨hnone, hkeep⟩ | ⟨op, hevents, hop⟩
    · exact .inl ⟨by rw [Sys.ops_commit, hnone, List.append_nil], hkeep⟩
    · exact .inr ⟨t, env, pc, r, op, ha, ht, hran, rfl, hevents,
        by rw [Sys.ops_commit, hevents]; rfl, hop⟩

theorem linked_of_reach {ok : Sys N → Action → Prop} {s : Sys N}
    (h : Reach Sys.step ok (· = Sys.init N) s) : s.Linked :=
  h.invariant (fun _ h => by subst h; rfl) fun s a s' _ hl _ h => by
    rcases step_ops h with ⟨hops, hhist⟩ | ⟨_, _, _, _, op, -, -, -, -, -, hops, hop⟩
    · rw [Sys.Linked, hops, hhist]
      exact hl
    · rw [Sys.Linked, hops, History.run_append, hl]
      exact hop

omit [NeZero N] in
theorem Sys.Linked.inv {s : Sys N} (h : s.Linked) : s.server.history.Inv (submissions s.ops) :=
  (History.run_slot h).1

end Linked

/-! ## Drafts -/

section Stamped

variable [NeZero N] {server : MainServer N} {heap : Heap} {t : Nat} {env : Env} {pc : Pc N}
  {r : Result N}

/-- The id of the job is in place. -/
def Sys.Stamped (s : Sys N) (p : Ptr) : Prop :=
  p < s.heap.length ∧ ∀ (t : Nat) (pc : Pc N), s.threads[t]? = some pc → pc.drafts ≠ some p

omit [NeZero N] in
theorem Pc.drafts_wake (pc : Pc N) : pc.wake.drafts = pc.drafts := by
  unfold Pc.wake
  split <;> rfl

omit [NeZero N] in
theorem Pc.Request.drafts {pc : Pc N} (h : pc.Request) : pc.drafts = none := by
  cases pc <;> first | rfl | cases h

omit [NeZero N] in
theorem Pc.holds_of_drafts {pc : Pc N} {p : Ptr} (h : pc.drafts = some p) : 0 < pc.holds p := by
  cases pc with
  | newJob job | numberJob job | submittedResponse job =>
      injection h with h
      subst h
      simp [Pc.holds, Pc.inNewJob, one]
  | _ => cases h

theorem Ran.drafts (h : Ran server heap t env pc r) {p : Ptr} (hp : r.pc.drafts = some p) :
    pc.drafts = some p := by
  cases h with
  | newJob | numberJob => exact hp
  | @putJob caller => cases caller <;> cases hp
  | _ => cases hp

/-- A job that is no draft stays as it is for good. -/
theorem stamped_step {s s' : Sys N} {a : Action} {p : Ptr} (hp : s.Stamped p)
    (h : s.step a = some s') : s'.Stamped p ∧ s'.heap.contents p = s.heap.contents p := by
  obtain ⟨hlt, hdrafts⟩ := hp
  have hstep := (step_cases h).2
  have hthreads : ∀ (t : Nat) (pc : Pc N), s'.threads[t]? = some pc → pc.drafts ≠ some p := by
    refine threads_step hstep hdrafts (fun _ _ h => h) ?_ ?_ ?_ ?_
    · intro t pc hpc
      rwa [Pc.drafts_wake]
    · intro t pc hpc
      rw [hpc.drafts]
      exact fun h => by cases h
    · rintro t ⟨rfl⟩
      exact Nat.lt_irrefl _ hlt
    · intro t env pc r _ ht hran _ hr
      exact hdrafts t pc ht (hran.drafts hr)
  cases hstep with
  | accepted ht =>
      refine ⟨⟨?_, hthreads⟩, Heap.contents_malloc hlt⟩
      rw [Heap.malloc, List.length_append]
      exact Nat.lt_add_right _ hlt
  | @ran t env pc r ht hran =>
      refine ⟨⟨?_, hthreads⟩, hran.contents (hdrafts t pc ht)⟩
      have hlen : (s.commit t env.pick r).heap.length = s.heap.length := hran.length_heap
      rw [hlen]
      exact hlt
  | _ => exact ⟨⟨hlt, hthreads⟩, rfl⟩

/-- The same along every run from there. -/
theorem stamped_run {ok : Sys N → Action → Prop} {s s' : Sys N} {p : Ptr} (hp : s.Stamped p)
    (h : Reach Sys.step ok (· = s) s') :
    s'.Stamped p ∧ s'.heap.contents p = s.heap.contents p :=
  h.invariant (I := fun s' => s'.Stamped p ∧ s'.heap.contents p = s.heap.contents p)
    (fun _ h => by subst h; exact ⟨hp, rfl⟩)
    fun _ _ _ _ ih _ h => by
      obtain ⟨hst, hcont⟩ := stamped_step ih.1 h
      exact ⟨hst, hcont.trans ih.2⟩

omit [NeZero N] in
/-- What a thread has beyond the draft is stamped. -/
theorem stamped_of_holds {s : Sys N} (hs : s.Sound) {p : Ptr} (ht : s.threads[t]? = some pc)
    (hholds : 0 < pc.holds p) (hdrafts : pc.drafts ≠ some p) : s.Stamped p := by
  have hle : pc.holds p ≤ s.held p := le_tally (f := Pc.holds p) ht
  obtain ⟨hlt, hsum⟩ := hs.lt_of_placed (p := p) (by omega)
  refine ⟨hlt, fun t' pc' ht' hpc' => ?_⟩
  have hholds' := Pc.holds_of_drafts hpc'
  by_cases htt : t = t'
  · subst htt
    rw [ht] at ht'
    injection ht' with ht'
    exact hdrafts (ht' ▸ hpc')
  · have hboth : pc.holds p + pc'.holds p ≤ s.held p :=
      add_le_tally (f := Pc.holds p) htt ht ht'
    omega

omit [NeZero N] in
/-- So is what no thread has. -/
theorem stamped_of_placed {s : Sys N} (hs : s.Sound) {p : Ptr}
    (h : 0 < s.inQueues p + s.sent p + s.gone p) : s.Stamped p := by
  obtain ⟨hlt, hsum⟩ := hs.lt_of_placed (p := p) (by omega)
  refine ⟨hlt, fun t pc ht hpc => ?_⟩
  have hholds := Pc.holds_of_drafts hpc
  have hle : pc.holds p ≤ s.held p := le_tally (f := Pc.holds p) ht
  omega

end Stamped

/-! ## Ids -/

section Numbered

variable [NeZero N]

/-- The job's record was numbered `jobid`. -/
def Sys.Numbered (s : Sys N) (p : Ptr) (jobid : UInt16) : Prop :=
  ∃ pre blank queueIdx ipaddr post,
    s.ops = pre ++ .newJob blank queueIdx ipaddr :: post ∧ blank.addr = p ∧
      History.idOf (submissions pre) = jobid

theorem Sys.Numbered.step {s s' : Sys N} {a : Action} {p : Ptr} {jobid : UInt16}
    (hn : s.Numbered p jobid) (h : s.step a = some s') : s'.Numbered p jobid := by
  obtain ⟨pre, blank, q, ip, post, hops, haddr, hid⟩ := hn
  rcases step_ops h with ⟨hops', -⟩ | ⟨_, _, _, _, op, -, -, -, -, -, hops', -⟩
  · exact ⟨pre, blank, q, ip, post, by rw [hops', hops], haddr, hid⟩
  · exact ⟨pre, blank, q, ip, post ++ [op], by rw [hops', hops]; simp, haddr, hid⟩

/-- The id on its way into a job, and the id in a job, is the one its record
was given. -/
structure Sys.Ids (s : Sys N) : Prop where
  responding : ∀ (t : Nat) (p : Ptr) (queueIdx jobid : UInt16),
    s.threads[t]? = some (.submittedResponse p queueIdx jobid) → s.Numbered p jobid
  stamped : ∀ p, s.Stamped p → ∃ job, s.heap.contents p = some job ∧ s.Numbered p job.id

omit [NeZero N] in
theorem Sys.Ids.init : (Sys.init N).Ids where
  responding := fun t p q id h => by cases h
  stamped := fun p h => absurd h.1 (Nat.not_lt_zero _)

theorem putIdx_eq {h : History} {n : Nat} (hinv : h.Inv n) :
    h.putIdx.toUInt16 = History.idOf n := by
  rw [hinv.next]
  refine UInt16.toNat_inj.mp ?_
  rw [UInt32.toNat_toUInt16, UInt32.toNat_ofNat', History.idOf, UInt16.toNat_ofNat']
  omega

/-- `newJob` numbers the record of its own job. -/
theorem numbered_of_numberJob {s : Sys N} (hl : s.Linked) {t : Nat} {env : Env} {pc : Pc N}
    {r : Result N} (hran : Ran s.server s.heap t env pc r) {p : Ptr} {queueIdx jobid : UInt16}
    (hr : r.pc = .submittedResponse p queueIdx jobid) :
    (s.commit t env.pick r).Numbered p jobid := by
  cases hran with
  | @numberJob job q contents blank history hload haddr hop =>
      injection hr with hp _ hid
      subst hp hid
      refine ⟨s.ops, blank, q, contents.ipaddr, [], ?_, haddr, (putIdx_eq hl.inv).symm⟩
      rw [Sys.ops_commit]
      rfl
  | @putJob caller => cases caller <;> cases hr
  | _ => cases hr

/-- A job is no longer a draft when its id has just been stored. -/
theorem newly_stamped {s s' : Sys N} {a : Action} (h : s.step a = some s') {p : Ptr}
    (hold : ¬ s.Stamped p) (hnew : s'.Stamped p) :
    ∃ (t : Nat) (queueIdx jobid : UInt16) (contents : Job),
      s.threads[t]? = some (.submittedResponse p queueIdx jobid) ∧
        s.heap.load p = some contents ∧
        s'.heap = s.heap.store p { contents with id := jobid } := by
  obtain ⟨hlt', hdrafts'⟩ := hnew
  -- Whoever had the draft is still there behind every step but its own.
  have hstill : ∀ (t : Nat) (pc : Pc N), s'.threads[t]? = some pc ∨ s'.threads[t]? = some pc.wake →
      pc.drafts ≠ some p := by
    rintro t pc (ht | ht)
    · exact hdrafts' t pc ht
    · rw [← Pc.drafts_wake]
      exact hdrafts' t _ ht
  cases (step_cases h).2 with
  | @accept _ pc _ hpc =>
      refine absurd ⟨hlt', fun t pc' ht => hstill t pc' (.inl ?_)⟩ hold
      rw [List.getElem?_append_left (List.getElem?_eq_some_iff.mp ht).1, ht]
  | @accepted t pkg blank job ht =>
      refine absurd ⟨?_, fun i pc hi => ?_⟩ hold
      · rw [Heap.malloc, List.length_append] at hlt'
        have hne : p ≠ s.heap.length := by
          rintro rfl
          refine hstill t (.newJob s.heap.length) (.inl ?_) rfl
          exact List.getElem?_set_self (List.getElem?_eq_some_iff.mp ht).1
        exact Nat.lt_of_le_of_ne (Nat.le_of_lt_succ hlt') hne
      · by_cases hti : t = i
        · subst hti
          rw [ht] at hi
          injection hi with hi
          subst hi
          exact fun h => by cases h
        · exact hstill i pc (.inl (by rw [List.getElem?_set_ne hti, hi]))
  | @moved _ t pc pc' _ ht hpc hpc' =>
      refine absurd ⟨hlt', fun i pc'' hi => ?_⟩ hold
      by_cases hti : t = i
      · subst hti
        rw [ht] at hi
        injection hi with hi
        rw [← hi, (Pc.request_of_idle hpc).drafts]
        exact fun h => by cases h
      · exact hstill i pc'' (.inl (by rw [List.getElem?_set_ne hti, hi]))
  | @wakeup t pc ht =>
      refine absurd ⟨hlt', fun i pc' hi => ?_⟩ hold
      by_cases hti : t = i
      · subst hti
        rw [ht] at hi
        injection hi with hi
        subst hi
        refine hstill t pc (.inr ?_)
        exact List.getElem?_set_self (List.getElem?_eq_some_iff.mp ht).1
      · exact hstill i pc' (.inl (by rw [List.getElem?_set_ne hti, hi]))
  | @ran t env pc r ht hran =>
      have hself := hstill t r.pc (commit_self ht env.pick r)
      have hlen : (s.commit t env.pick r).heap.length = s.heap.length := hran.length_heap
      rw [hlen] at hlt'
      by_cases hpc : pc.drafts = some p
      · cases hran with
        | @submittedResponse job q id contents hload =>
            injection hpc with hpc
            subst hpc
            exact ⟨t, q, id, contents, ht, hload, rfl⟩
        | newJob | numberJob => exact absurd hpc hself
        | _ => cases hpc
      · refine absurd ⟨hlt', fun i pc' hi => ?_⟩ hold
        by_cases hit : i = t
        · subst hit
          rw [ht] at hi
          injection hi with hi
          exact hi ▸ hpc
        · exact hstill i pc' (commit_other hit hi env.pick r)
  | faulted => exact absurd ⟨hlt', hdrafts'⟩ hold

theorem Sys.Ids.step {s s' : Sys N} {a : Action} (hi : s.Ids) (hl : s.Linked)
    (h : s.step a = some s') : s'.Ids where
  responding := by
    have hstep := (step_cases h).2
    have hthreads : ∀ (t : Nat) (pc : Pc N), s'.threads[t]? = some pc →
        ∀ p q id, pc = .submittedResponse p q id → s'.Numbered p id := by
      refine threads_step hstep (P := fun _ pc => ∀ p q id, pc = .submittedResponse p q id →
        s.Numbered p id) ?_ ?_ ?_ ?_ ?_ ?_
      · rintro t pc ht p q id rfl
        exact hi.responding t p q id ht
      · exact fun t pc hpc p q id h' => (hpc p q id h').step h
      · intro t pc hpc p q id hw
        refine hpc p q id ?_
        unfold Pc.wake at hw
        split at hw
        · cases hw
        · cases hw
        · exact hw
      · rintro t pc hpc p q id rfl
        cases hpc
      · rintro t p q id ⟨⟩
      · rintro t env pc r - ht hran rfl p q id hr
        exact numbered_of_numberJob hl hran hr
    exact fun t p q id ht => hthreads t _ ht p q id rfl
  stamped := fun p hp => by
    by_cases hold : s.Stamped p
    · obtain ⟨job, hcont, hn⟩ := hi.stamped p hold
      exact ⟨job, by rw [(stamped_step hold h).2, hcont], hn.step h⟩
    · obtain ⟨t, q, id, contents, ht, hload, hheap⟩ := newly_stamped h hold hp
      refine ⟨{ contents with id := id }, ?_, (hi.responding t p q id ht).step h⟩
      rw [hheap]
      refine Heap.contents_of_load (Heap.load_eq_some.mpr ?_)
      exact List.getElem?_set_self (Heap.lt_of_load hload)

theorem ids_of_reach {ok : Sys N → Action → Prop} {s : Sys N}
    (h : Reach Sys.step ok (· = Sys.init N) s) : s.Ids :=
  h.invariant (fun _ h => h ▸ Sys.Ids.init) fun _ _ _ hr hi _ h =>
    hi.step (linked_of_reach hr) h

omit [NeZero N] in
/-- A record that is there was numbered with its id. -/
theorem numbered_of_slot {s : Sys N} (hl : s.Linked) {c : Nat} (hc : c < jobHistoryMax)
    {job : JobHistory} (hjob : s.server.history.slot c = some job) :
    s.Numbered job.addr job.id := by
  obtain ⟨-, hslots⟩ := History.run_slot hl
  obtain ⟨pre, r, q, a, post, hlatest⟩ := (hslots c hc).2 job hjob
  have hrec := (hslots c hc).1 pre r q a post hlatest
  rw [hjob] at hrec
  injection hrec with hrec
  refine ⟨pre, r, q, a, post, hlatest.split, ?_, ?_⟩
  · rw [hrec, History.recordAfter, History.foldl_after_addr]
    rfl
  · rw [hrec, History.recordAfter, History.foldl_after_id]

end Numbered

end DistQueue
