import DistQueue.Server.Identity

/-!
# Submissions and their records

The submissions of a run are numbered in the order of the sections that take
the ids, so a run is also the list of the jobs submitted; no job is in it
twice. Submission `n` has its own record for as long as no later one has been
stored in the same slot, and that is decided by the numbers alone.

A job is in the list before any other thread can see it: whatever a queue or a
dispatch has hold of, in whatever run, is a job that has its id.
-/

namespace DistQueue

open DistQueue.Lib

/-! ## The jobs of a list of operations -/

/-- The job a submission is for. -/
def HistOp.job : HistOp → Option Ptr
  | .newJob jobHistory _ _ => some jobHistory.addr
  | _ => none

def jobsOf (ops : List HistOp) : List Ptr := ops.filterMap HistOp.job

namespace History

variable {ops pre post : List HistOp} {n : Nat} {p : Ptr}

theorem submissions_cons (r : JobHistory) (q : UInt16) (a : UInt32) (ops : List HistOp) :
    submissions (.newJob r q a :: ops) = submissions ops + 1 := List.countP_cons_of_pos rfl

theorem submissions_cons_pos (r : JobHistory) (q : UInt16) (a : UInt32) (ops : List HistOp) :
    0 < submissions (.newJob r q a :: ops) := by
  rw [submissions_cons]
  exact Nat.succ_pos _

theorem length_jobsOf (ops : List HistOp) : (jobsOf ops).length = submissions ops := by
  induction ops with
  | nil => rfl
  | cons op ops ih =>
      cases op with
      | newJob r q a => rw [submissions_cons, ← ih]; rfl
      | _ => exact ih

/-- Entry `n` is the job of the submission with `n` others before it. -/
theorem getElem?_jobsOf : ∀ {ops : List HistOp} {n : Nat}, (jobsOf ops)[n]? = some p ↔
    ∃ pre r q a post, ops = pre ++ .newJob r q a :: post ∧ submissions pre = n ∧ r.addr = p := by
  intro ops n
  constructor
  · intro h
    induction ops generalizing n with
    | nil => cases h
    | cons op ops ih =>
        have hcons : ∀ {m}, (jobsOf ops)[m]? = some p →
            ∃ pre r q a post, op :: ops = (op :: pre) ++ .newJob r q a :: post ∧
              submissions pre = m ∧ r.addr = p := by
          intro m hm
          obtain ⟨pre, r, q, a, post, hops, hsub, haddr⟩ := ih hm
          exact ⟨pre, r, q, a, post, by rw [hops]; rfl, hsub, haddr⟩
        cases op with
        | newJob r q a =>
            cases n with
            | zero =>
                injection h with h
                exact ⟨[], r, q, a, ops, rfl, rfl, h⟩
            | succ n =>
                obtain ⟨pre, r', q', a', post, hops, hsub, haddr⟩ := hcons h
                exact ⟨_, r', q', a', post, hops, by rw [submissions_cons, hsub], haddr⟩
        | _ =>
            obtain ⟨pre, r', q', a', post, hops, hsub, haddr⟩ := hcons h
            exact ⟨_, r', q', a', post, hops, hsub, haddr⟩
  · rintro ⟨pre, r, q, a, post, rfl, rfl, rfl⟩
    have happ : jobsOf (pre ++ .newJob r q a :: post) = jobsOf pre ++ r.addr :: jobsOf post :=
      List.filterMap_append
    rw [happ, ← length_jobsOf, List.getElem?_append_right (Nat.le_refl _), Nat.sub_self]
    rfl

/-- Submission `n` is the latest one stored in its slot. -/
def Unreplaced (ops : List HistOp) (n : Nat) : Prop :=
  ∀ m, n < m → m < submissions ops → slotOf (idOf m) ≠ slotOf (idOf n)

/-- That is what `Latest` says of the position it has in the run. -/
theorem unreplaced_iff (hn : (jobsOf ops)[n]? = some p) :
    Unreplaced ops n ↔ ∃ pre r q a post,
      Latest ops (slotOf (idOf n)) pre r q a post ∧ submissions pre = n := by
  constructor
  · intro hlast
    obtain ⟨pre, r, q, a, post, hops, hsub, -⟩ := getElem?_jobsOf.mp hn
    refine ⟨pre, r, q, a, post, ⟨hops, by rw [hsub], ?_⟩, hsub⟩
    intro mid r' q' a' post' hpost
    have hops' : ops = (pre ++ .newJob r q a :: mid) ++ .newJob r' q' a' :: post' := by
      rw [hops, hpost]; simp
    refine hlast _ ?_ ?_
    · rw [submissions_append, hsub]
      exact Nat.lt_add_of_pos_right (submissions_cons_pos ..)
    · rw [hops', submissions_append _ (.newJob r' q' a' :: post')]
      exact Nat.lt_add_of_pos_right (submissions_cons_pos ..)
  · rintro ⟨pre, r, q, a, post, hl, hsub⟩ m hnm hm
    have hlen : m < (jobsOf ops).length := by rw [length_jobsOf]; exact hm
    obtain ⟨pre', r', q', a', post', hops, hsub', -⟩ :=
      getElem?_jobsOf.mp (List.getElem?_eq_getElem hlen)
    have hsplit := hl.split
    rw [hops] at hsplit
    rcases List.append_eq_append_iff.mp hsplit with ⟨c, hpre, -⟩ | ⟨c, hpre, hpost⟩
    · rw [hpre, submissions_append] at hsub
      omega
    · cases c with
      | nil =>
          rw [List.append_nil] at hpre
          rw [hpre] at hsub'
          omega
      | cons x mid =>
          injection hpost with hx hpost
          subst hx
          rw [← hsub', hpre]
          exact hl.last mid r' q' a' post' hpost

/-- A submission has its own record as long as it is the latest one stored in
its slot. -/
theorem retained_own {h : History} (hrun : run ops = .ok h) (hnodup : (jobsOf ops).Nodup)
    (hn : (jobsOf ops)[n]? = some p) :
    (∃ job, h.retained (idOf n) = some job ∧ job.addr = p) ↔ Unreplaced ops n := by
  rw [unreplaced_iff hn]
  constructor
  · rintro ⟨job, hret, haddr⟩
    obtain ⟨pre, r, q, a, post, hl, hid⟩ := exists_latest hrun hret
    refine ⟨pre, r, q, a, post, hl, ?_⟩
    rw [run_retained hrun hl, if_pos hid] at hret
    injection hret with hret
    rw [← hret, recordAfter, foldl_after_addr] at haddr
    have hpre : (jobsOf ops)[submissions pre]? = some p :=
      getElem?_jobsOf.mpr ⟨pre, r, q, a, post, hl.split, rfl, haddr⟩
    have hlt := (List.getElem?_eq_some_iff.mp hpre).1
    exact (List.getElem?_inj hlt hnodup).mp (hpre.trans hn.symm)
  · rintro ⟨pre, r, q, a, post, hl, hsub⟩
    refine ⟨recordAfter pre r q a post, ?_, ?_⟩
    · rw [run_retained hrun hl, if_pos (by rw [hsub])]
    · have hpre : (jobsOf ops)[submissions pre]? = some r.addr :=
        getElem?_jobsOf.mpr ⟨pre, r, q, a, post, hl.split, rfl, rfl⟩
      rw [hsub, hn] at hpre
      injection hpre with hpre
      rw [recordAfter, foldl_after_addr]
      exact hpre.symm

end History

/-! ## No job is submitted twice -/

variable {N : Nat}

/-- The job whose record has no id yet. -/
def Pc.unnumbered : Pc N → Option Ptr
  | .newJob job | .numberJob job _ => some job
  | _ => none

def Sys.drafted (s : Sys N) (p : Ptr) : Nat := tally (fun pc => one pc.drafts p) s.threads

/-- No job is two threads' draft. -/
def Sys.Apart (s : Sys N) : Prop := ∀ p, s.drafted p ≤ if p < s.heap.length then 1 else 0

structure Sys.Recorded (s : Sys N) : Prop where
  nodup : (jobsOf s.ops).Nodup
  fresh : ∀ p ∈ jobsOf s.ops, p < s.heap.length ∧
    ∀ (t : Nat) (pc : Pc N), s.threads[t]? = some pc → pc.unnumbered ≠ some p

theorem Pc.unnumbered_wake (pc : Pc N) : pc.wake.unnumbered = pc.unnumbered := by
  unfold Pc.wake
  split <;> rfl

theorem Pc.Request.unnumbered {pc : Pc N} (h : pc.Request) : pc.unnumbered = none := by
  cases pc <;> first | rfl | cases h

theorem Pc.drafts_of_unnumbered {pc : Pc N} {p : Ptr} (h : pc.unnumbered = some p) :
    pc.drafts = some p := by
  cases pc with
  | newJob | numberJob => exact h
  | _ => cases h

section Runs

variable [NeZero N]

theorem Ran.unnumbered {server : MainServer N} {heap : Heap} {t : Nat} {env : Env} {pc : Pc N}
    {r : Result N} (h : Ran server heap t env pc r) {p : Ptr} (hp : r.pc.unnumbered = some p) :
    pc.unnumbered = some p := by
  cases h with
  | newJob => exact hp
  | @putJob caller => cases caller <;> cases hp
  | _ => cases hp

theorem apart_step {s s' : Sys N} {a : Action} (ha : s.Apart) (h : s.step a = some s') :
    s'.Apart := by
  intro p
  have hp := ha p
  have hwake : ∀ pc : Pc N, one pc.wake.drafts p = one pc.drafts p := fun pc => by
    rw [Pc.drafts_wake]
  have hidle : ∀ {pc : Pc N}, pc.Request → one pc.drafts p = 0 := fun hpc => by
    rw [hpc.drafts]; rfl
  cases (step_cases h).2 with
  | @accept a pc _ hpc =>
      have hzero := hidle (Pc.request_of_idle hpc)
      simp only [Sys.drafted, tally_append, tally_cons, tally_nil] at hp ⊢
      omega
  | @accepted t pkg blank job ht =>
      have hset := tally_set (f := fun pc => one pc.drafts p)
        (b := (.newJob s.heap.length : Pc N)) ht
      have hbefore : one (Pc.attendClient : Pc N).drafts p = 0 := rfl
      have hnew : one (Pc.newJob s.heap.length : Pc N).drafts p =
          if s.heap.length = p then 1 else 0 := by
        simp [Pc.drafts, one]
      simp only [Sys.drafted, Heap.malloc, List.length_append, List.length_singleton] at hp hset ⊢
      rw [hbefore, hnew] at hset
      rcases Nat.lt_trichotomy p s.heap.length with hlt | heq | hgt
      · rw [if_pos hlt] at hp
        rw [if_neg (Nat.ne_of_gt hlt)] at hset
        rw [if_pos (Nat.lt_succ_of_lt hlt)]
        omega
      · rw [if_neg (Nat.not_lt.mpr (Nat.le_of_eq heq.symm))] at hp
        rw [if_pos heq.symm] at hset
        rw [if_pos (Nat.lt_succ_of_le (Nat.le_of_eq heq))]
        omega
      · rw [if_neg (Nat.not_lt_of_gt hgt)] at hp
        rw [if_neg (Nat.ne_of_lt hgt)] at hset
        rw [if_neg (Nat.not_lt.mpr hgt)]
        omega
  | @moved a t pc pc' _ ht hpc hpc' =>
      have hset := tally_set (f := fun pc => one pc.drafts p) (b := pc') ht
      have hzero := hidle (Pc.request_of_idle hpc)
      have hzero' := hidle hpc'
      simp only [Sys.drafted] at hp hset ⊢
      omega
  | @wakeup t pc ht =>
      have hset := tally_set (f := fun pc => one pc.drafts p) (b := pc.wake) ht
      have hsame := hwake pc
      simp only [Sys.drafted] at hp hset ⊢
      omega
  | @ran t env pc r ht hran =>
      have hthreads := tally_commit (f := fun pc => one pc.drafts p) hwake ht env.pick r
      have hle : one r.pc.drafts p ≤ one pc.drafts p := by
        unfold one
        split
        · next hr => rw [if_pos (hran.drafts hr)]
        · exact Nat.zero_le _
      have hlen : (s.commit t env.pick r).heap.length = s.heap.length := hran.length_heap
      rw [hlen]
      simp only [Sys.drafted] at hp hthreads ⊢
      omega
  | faulted => exact hp

theorem apart_of_reach {ok : Sys N → Action → Prop} {s : Sys N}
    (h : Reach Sys.step ok (· = Sys.init N) s) : s.Apart :=
  h.invariant (fun _ h => by subst h; exact fun p => Nat.zero_le _)
    fun _ _ _ _ ha _ h => apart_step ha h

omit [NeZero N] in
/-- Two threads with one draft are one thread. -/
theorem Sys.Apart.eq {s : Sys N} (ha : s.Apart) {t t' : Nat} {pc pc' : Pc N} {p : Ptr}
    (ht : s.threads[t]? = some pc) (ht' : s.threads[t']? = some pc') (hp : pc.drafts = some p)
    (hp' : pc'.drafts = some p) : t = t' := by
  by_contra hne
  have hle : one pc.drafts p + one pc'.drafts p ≤ s.drafted p :=
    add_le_tally (f := fun pc => one pc.drafts p) hne ht ht'
  have hone := ha p
  rw [hp, hp', one, if_pos rfl] at hle
  split at hone <;> omega

/-- The section that numbers a record numbers that of its own job. -/
theorem Ran.numbers {server : MainServer N} {heap : Heap} {t : Nat} {env : Env} {pc : Pc N}
    {r : Result N} (h : Ran server heap t env pc r) {op : HistOp} {p : Ptr}
    (hop : .history t op ∈ r.events) (hp : op.job = some p) :
    ∃ queueIdx jobid, pc = .numberJob p queueIdx ∧
      r.pc = .submittedResponse p queueIdx jobid := by
  cases h.emits hop with
  | @numbered job queueIdx jobid blank ipaddr _ haddr hr =>
      injection hp with hp
      have hjob : job = p := haddr.symm.trans hp
      subst hjob
      exact ⟨queueIdx, jobid, rfl, hr⟩
  | history hother =>
      cases op with
      | newJob blank queueIdx ipaddr => exact absurd rfl (hother blank queueIdx ipaddr)
      | _ => cases hp

theorem Sys.Recorded.step {s s' : Sys N} {a : Action} (hr : s.Recorded) (ha' : s'.Apart)
    (h : s.step a = some s') : s'.Recorded := by
  have hstep := (step_cases h).2
  have hfresh : ∀ p ∈ jobsOf s.ops, p < s'.heap.length ∧
      ∀ (t : Nat) (pc : Pc N), s'.threads[t]? = some pc → pc.unnumbered ≠ some p := by
    intro p hp
    obtain ⟨hlt, hthreads⟩ := hr.fresh p hp
    refine ⟨Nat.lt_of_lt_of_le hlt hstep.length_heap, ?_⟩
    refine threads_step hstep hthreads (fun _ _ h => h) ?_ ?_ ?_ ?_
    · intro t pc hpc
      rwa [Pc.unnumbered_wake]
    · intro t pc hpc
      rw [hpc.unnumbered]
      exact fun h => by cases h
    · intro t hnew
      injection hnew with hnew
      exact Nat.ne_of_gt hlt hnew
    · intro t env pc r _ ht hran _ hp'
      exact hthreads t pc ht (hran.unnumbered hp')
  rcases step_ops h with ⟨hops, -⟩ | ⟨t, env, pc, r, op, -, ht, hran, heq, hevents, hops, -⟩
  · exact ⟨by rw [hops]; exact hr.nodup, by rw [hops]; exact hfresh⟩
  · have happ : jobsOf s'.ops = jobsOf s.ops ++ op.job.toList := by
      rw [hops, jobsOf, List.filterMap_append]
      cases op <;> rfl
    cases hjob : op.job with
    | none =>
        rw [hjob, Option.toList_none, List.append_nil] at happ
        exact ⟨by rw [happ]; exact hr.nodup, by rw [happ]; exact hfresh⟩
    | some p =>
        rw [hjob, Option.toList_some] at happ
        have hmem : .history t op ∈ r.events := by rw [hevents]; exact List.mem_singleton.mpr rfl
        obtain ⟨queueIdx, jobid, rfl, hpc⟩ := hran.numbers hmem hjob
        have hnot : p ∉ jobsOf s.ops := fun hp => (hr.fresh p hp).2 t _ ht rfl
        have hself : s'.threads[t]? = some (.submittedResponse p queueIdx jobid) := by
          rw [heq]
          rcases commit_self ht env.pick r with h | h
          · rw [h, hpc]
          · rw [h, hpc]; rfl
        have hone := ha' p
        have hdrafted : 0 < s'.drafted p := by
          have hle := le_tally (f := fun pc : Pc N => one pc.drafts p) hself
          exact Nat.lt_of_lt_of_le (by simp [Pc.drafts, one]) hle
        refine ⟨?_, ?_⟩
        · rw [happ, List.nodup_append]
          refine ⟨hr.nodup, List.nodup_singleton p, ?_⟩
          intro p₁ hp₁ p₂ hp₂ heq
          exact hnot (List.mem_singleton.mp hp₂ ▸ heq ▸ hp₁)
        · intro p₁ hp₁
          rw [happ] at hp₁
          rcases List.mem_append.mp hp₁ with hp₁ | hp₁
          · exact hfresh p₁ hp₁
          · have hp₁ := List.mem_singleton.mp hp₁
            subst hp₁
            refine ⟨?_, fun t' pc' ht' hpc' => ?_⟩
            · split at hone
              · assumption
              · omega
            · have htt := ha'.eq hself ht' rfl (Pc.drafts_of_unnumbered hpc')
              subst htt
              rw [hself] at ht'
              injection ht' with ht'
              subst ht'
              cases hpc'

theorem recorded_of_reach {ok : Sys N → Action → Prop} {s : Sys N}
    (h : Reach Sys.step ok (· = Sys.init N) s) : s.Recorded := by
  refine h.invariant ?_ fun s a s' hr hrec hok h =>
    hrec.step (apart_step (apart_of_reach hr) h) h
  intro s h
  subst h
  exact ⟨List.nodup_nil, fun p hp => by cases hp⟩

end Runs

end DistQueue
