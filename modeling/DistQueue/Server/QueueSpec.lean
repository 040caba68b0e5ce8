import DistQueue.Server.Queue
import Mathlib.Data.List.Count
import Mathlib.Data.List.Perm.Basic

/-!
# What the sections do to the list of live jobs

A queue whose index has not run past `2 ^ 32` inside its window (`Straight`)
is the library's ring, and its three sections are list operations on `live`:
`putJob` appends, `getJob` takes the head, `removeJob` erases one entry.

Which entry that is depends on raw slot numbers. In an unwrapped window (first
slot below `put_idx`'s slot) the first loop finds the first job of that id and
the second closes the gap behind it. In every other case (the window runs
around the end of the array, fills it, or holds no job of that id) neither
loop does anything, and the unconditional `put_idx--` gives up the last entry,
whoever it is. Only `put_idx` on slot 0 makes the loops leave the array.
-/

namespace DistQueue

open DistQueue.Lib

namespace Queue

variable {q q' : Queue}

/-- At most `MAX_JOBS_QUEUE` jobs, and no index past `2 ^ 32` among them. -/
def Straight (q : Queue) : Prop :=
  q.count ≤ maxJobsQueue ∧ q.getIdx.toNat + q.count ≤ 2 ^ 32

instance (q : Queue) : Decidable q.Straight := inferInstanceAs (Decidable (_ ∧ _))

theorem straight_init : init.Straight := by decide

theorem live_init : init.live = [] := by decide

theorem jobAt_eq (q : Queue) (i : UInt32) : q.jobAt i = cell q.jobs i.toNat := rfl

@[simp] theorem length_live (q : Queue) : q.live.length = q.count := by
  simp [live]

/-- `put_idx` is `count` past `get_idx`, whatever has wrapped. -/
theorem putIdx_toNat (q : Queue) :
    q.putIdx.toNat = (q.getIdx.toNat + q.count) % 2 ^ 32 := by
  have hp := q.putIdx.toNat_lt
  have hg := q.getIdx.toNat_lt
  rw [count, UInt32.toNat_sub]
  omega

theorem live_eq_ring (h : q.Straight) :
    q.live = ring q.jobs q.getIdx.toNat q.count := by
  refine List.map_congr_left ?_
  intro i hi
  have hi' : i < q.count := List.mem_range.mp hi
  have hin := h.2
  have hi32 : (UInt32.ofNat i).toNat = i := by
    rw [UInt32.toNat_ofNat', Nat.mod_eq_of_lt (by omega)]
  rw [jobAt_eq, UInt32.toNat_add, hi32, Nat.mod_eq_of_lt (by omega)]

/-- Unless index 0 would come behind index `2 ^ 32 - 1`, the next index is the
next number. -/
theorem putIdx_toNat_of_room (h : q.Straight) (hwrap : q.putIdx = 0 → q.count = 0) :
    q.putIdx.toNat = q.getIdx.toNat + q.count ∧ q.getIdx.toNat + q.count < 2 ^ 32 := by
  have hp := q.putIdx_toNat
  have hg := q.getIdx.toNat_lt
  have hin := h.2
  have hlt : q.getIdx.toNat + q.count < 2 ^ 32 := by
    rcases Nat.eq_zero_or_pos q.count with h0 | hpos
    · omega
    · have hne : q.putIdx.toNat ≠ 0 := fun hz => by
        have := hwrap (UInt32.toNat_inj.mp hz); omega
      omega
  rw [Nat.mod_eq_of_lt hlt] at hp
  exact ⟨hp, hlt⟩

theorem count_put (p : Ptr) (hcap : q.count < maxJobsQueue) :
    (q.put p).count = q.count + 1 := by
  have hg := q.getIdx.toNat_lt
  have hp := q.putIdx_toNat
  have hcap' : q.count < 15 := hcap
  have hone : (1 : UInt32).toNat = 1 := rfl
  rw [count, UInt32.toNat_sub]
  simp only [put, UInt32.toNat_add, hone]
  omega

/-- A put waits for a place in a full queue. -/
theorem putJob_eq_none {p : Ptr} : q.putJob p = none ↔ q.count = maxJobsQueue := by
  rw [putJob]
  split
  · next hfull => exact ⟨fun _ => hfull, fun _ => rfl⟩
  · next hne => exact ⟨fun h => (by cases h), fun h => absurd h hne⟩

/-- A dequeue waits for a job in an empty one. -/
theorem getJob_eq_none : q.getJob = none ↔ q.count = 0 := by
  rw [getJob]
  split
  · next hempty => exact ⟨fun _ => hempty, fun _ => rfl⟩
  · next hne => exact ⟨fun h => (by cases h), fun h => absurd h hne⟩

/-- A put goes through where there is room. -/
theorem putJob_next {p : Ptr} (hcap : q.count ≤ maxJobsQueue) (hput : q.putJob p = some q') :
    q.count < maxJobsQueue ∧ q'.count = q.count + 1 ∧ q' = q.put p := by
  unfold putJob at hput
  split at hput
  · cases hput
  · next hne =>
      have hlt : q.count < maxJobsQueue := Nat.lt_of_le_of_ne hcap hne
      injection hput with hput
      subst hput
      exact ⟨hlt, count_put p hlt, rfl⟩

/-- A put that is allowed to proceed appends. -/
theorem putJob_live {p : Ptr} (h : q.Straight) (hwrap : q.putIdx = 0 → q.count = 0)
    (hput : q.putJob p = some q') :
    q.count < maxJobsQueue ∧ q'.live = q.live ++ [some p] ∧ q'.Straight := by
  obtain ⟨hp, hlt⟩ := putIdx_toNat_of_room h hwrap
  obtain ⟨hcap, hcount, rfl⟩ := putJob_next h.1 hput
  have hstraight : (q.put p).Straight := by
    refine ⟨?_, ?_⟩
    · rw [hcount]; exact hcap
    · rw [hcount]; exact hlt
  refine ⟨hcap, ?_, hstraight⟩
  rw [live_eq_ring hstraight, live_eq_ring h, hcount]
  have hslot : slot q.putIdx = (q.getIdx.toNat + q.count) % maxJobsQueue := by
    rw [slot, hp]
  simp only [put, hslot]
  exact ring_set q.jobs hcap (some p)

/-- What a dequeue that goes through leaves. -/
theorem getJob_next {r : Option Ptr} (hget : q.getJob = some (r, q')) :
    q'.count + 1 = q.count ∧ r = q.jobAt q.getIdx ∧
      q' = { q with getIdx := q.getIdx + 1, state := leaveFull q.state } := by
  unfold getJob at hget
  split at hget
  · cases hget
  · next hne =>
      injection hget with hget
      injection hget with hr hq
      refine ⟨?_, hr.symm, hq.symm⟩
      have hg := q.getIdx.toNat_lt
      have hp := q.putIdx.toNat_lt
      have hone : (1 : UInt32).toNat = 1 := rfl
      rw [← hq]
      simp only [count, UInt32.toNat_sub, UInt32.toNat_add, hone] at hne ⊢
      omega

/-- A dequeue takes the head. -/
theorem getJob_live {r : Option Ptr} (h : q.Straight) (hget : q.getJob = some (r, q')) :
    q.live = r :: q'.live ∧ q'.Straight := by
  obtain ⟨hcount, hr, hq⟩ := getJob_next hget
  have hcap : q.count ≤ 15 := h.1
  have hin := h.2
  have hone : (1 : UInt32).toNat = 1 := rfl
  have hget' : q'.getIdx.toNat = (q.getIdx.toNat + 1) % 2 ^ 32 := by
    rw [hq]
    simp only [UInt32.toNat_add, hone]
  have hstraight : q'.Straight := by
    refine ⟨?_, ?_⟩
    · show q'.count ≤ 15; omega
    · rw [hget']; omega
  refine ⟨?_, hstraight⟩
  have hjobs : q'.jobs = q.jobs := by rw [hq]
  rw [hr, live_eq_ring h, live_eq_ring hstraight, ← hcount, ring_succ_left, hjobs]
  congr 1
  -- With one job left the window behind it is empty, wherever it starts.
  rcases Nat.eq_zero_or_pos q'.count with h0 | hpos
  · rw [h0, ring_zero, ring_zero]
  · rw [hget', Nat.mod_eq_of_lt (by omega)]

/-! ## `removeJob` -/

/-- The job a slot points to, if it can be read. -/
def jobOf (heap : Heap) (r : Option Ptr) : Option Job := r.bind heap.load

/-- A live slot whose job can be read and has this id. -/
def Matches (heap : Heap) (jobid : UInt16) (r : Option Ptr) : Prop :=
  ∃ job, jobOf heap r = some job ∧ job.id = jobid

/-- A live slot whose job can be read and has another id. -/
def Differs (heap : Heap) (jobid : UInt16) (r : Option Ptr) : Prop :=
  ∃ job, jobOf heap r = some job ∧ job.id ≠ jobid

/-- The first loop stops at the first match or behind the last slot. -/
theorem search_cases {jobs : Vector (Option Ptr) maxJobsQueue} {heap : Heap}
    {jobid : UInt16} : ∀ {n idx : Nat} {j : Nat} {hit : Option Ptr},
    search jobs heap jobid n idx = .ok (j, hit) →
    ∃ k, j = idx + k ∧ k ≤ n ∧
      (∀ i < k, ∃ r, jobs[idx + i]? = some r ∧ Differs heap jobid r) ∧
      ((k < n ∧ ∃ p, hit = some p ∧ jobs[idx + k]? = some (some p) ∧
          Matches heap jobid (some p)) ∨ (k = n ∧ hit = none)) := by
  intro n
  induction n with
  | zero =>
      intro idx j hit h
      rw [search] at h
      injection h with h
      injection h with hj hhit
      exact ⟨0, by omega, Nat.le_refl _, fun i hi => absurd hi (Nat.not_lt_zero _),
        .inr ⟨rfl, hhit.symm⟩⟩
  | succ n ih =>
      intro idx j hit h
      rw [search] at h
      split at h
      · next p hp =>
          split at h
          · cases h
          · next job hjob =>
              split at h
              · next hid =>
                  injection h with h
                  injection h with hj hhit
                  exact ⟨0, by omega, by omega,
                    fun i hi => absurd hi (Nat.not_lt_zero _),
                    .inl ⟨by omega, p, hhit.symm, hp, job, hjob, hid⟩⟩
              · next hid =>
                  obtain ⟨k, hj, hk, hbefore, hend⟩ := ih h
                  refine ⟨k + 1, by omega, by omega, ?_, ?_⟩
                  · intro i hi
                    cases i with
                    | zero => exact ⟨some p, hp, job, hjob, hid⟩
                    | succ i =>
                        have hi' := hbefore i (by omega)
                        rwa [show idx + 1 + i = idx + (i + 1) by omega] at hi'
                  · rcases hend with ⟨hlt, hhit⟩ | ⟨rfl, hhit⟩
                    · rw [show idx + 1 + k = idx + (k + 1) by omega] at hhit
                      exact .inl ⟨by omega, hhit⟩
                    · exact .inr ⟨rfl, hhit⟩
      · cases h

/-- With every slot readable the first loop has no way to fail. -/
theorem search_ok {jobs : Vector (Option Ptr) maxJobsQueue} {heap : Heap}
    {jobid : UInt16} : ∀ {n idx : Nat},
    (∀ i < n, ∃ p job, jobs[idx + i]? = some (some p) ∧ heap.load p = some job) →
    ∃ res, search jobs heap jobid n idx = .ok res := by
  intro n
  induction n with
  | zero => intro idx _; exact ⟨_, by rw [search]⟩
  | succ n ih =>
      intro idx h
      obtain ⟨p, job, hp, hjob⟩ := h 0 (by omega)
      rw [search]
      simp only [Nat.add_zero] at hp
      simp only [hp, hjob]
      split
      · exact ⟨_, rfl⟩
      · exact ih fun i hi => by
          rw [show idx + 1 + i = idx + (i + 1) by omega]
          exact h (i + 1) (by omega)

/-- The second loop moves the slots behind `idx` down by one, or leaves the
array. -/
theorem shift_cases : ∀ {n idx : Nat} {jobs jobs' : Vector (Option Ptr) maxJobsQueue},
    shift jobs n idx = .ok jobs' →
    (n = 0 ∨ idx + n < maxJobsQueue) ∧
      ∀ i, jobs'[i]? = if idx ≤ i ∧ i < idx + n then jobs[i + 1]? else jobs[i]? := by
  intro n
  induction n with
  | zero =>
      intro idx jobs jobs' h
      rw [shift] at h
      injection h with h
      subst h
      exact ⟨.inl rfl, fun i => (if_neg (by omega)).symm⟩
  | succ n ih =>
      intro idx jobs jobs' h
      rw [shift] at h
      split at h
      · next hin =>
          obtain ⟨hroom, hcells⟩ := ih h
          refine ⟨.inr (by omega), fun i => ?_⟩
          have hset : ∀ k, (jobs.set idx jobs[idx + 1])[k]? =
              if k = idx then jobs[idx + 1]? else jobs[k]? := by
            intro k
            rw [Vector.getElem?_set, Vector.getElem?_eq_getElem hin]
            split
            · next hk => rw [if_pos hk.symm]
            · next hk => rw [if_neg fun h => hk h.symm]
          rw [hcells, hset, hset]
          by_cases hi : i = idx
          · subst hi
            rw [if_neg (by omega), if_pos rfl, if_pos (by omega)]
          · by_cases hr : idx ≤ i ∧ i < idx + (n + 1)
            · rw [if_pos ⟨by omega, by omega⟩, if_neg (by omega), if_pos hr]
            · rw [if_neg (fun h => hr ⟨by omega, by omega⟩), if_neg hi, if_neg hr]
      · cases h

theorem shift_ok : ∀ {n idx : Nat} {jobs : Vector (Option Ptr) maxJobsQueue},
    (n = 0 ∨ idx + n < maxJobsQueue) → ∃ jobs', shift jobs n idx = .ok jobs' := by
  intro n
  induction n with
  | zero => intro idx jobs _; exact ⟨jobs, by rw [shift]⟩
  | succ n ih =>
      intro idx jobs h
      rw [shift, dif_pos (by omega)]
      exact ih (by omega)

/-- The window starts on a lower slot than the one `put_idx` is on. -/
def Unwrapped (q : Queue) : Prop := slot q.getIdx < slot q.putIdx

instance (q : Queue) : Decidable q.Unwrapped := inferInstanceAs (Decidable (_ < _))

/-- In an unwrapped window entry `i` sits on the `i`-th slot from the start. -/
theorem Unwrapped.count_eq (h : q.Straight) (hu : q.Unwrapped) :
    slot q.getIdx + q.count = slot q.putIdx := by
  have hp := q.putIdx_toNat
  have hcap : q.count ≤ 15 := h.1
  have hin := h.2
  have hg := q.getIdx.toNat_lt
  have hu' : q.getIdx.toNat % 15 < q.putIdx.toNat % 15 := hu
  show q.getIdx.toNat % 15 + q.count = q.putIdx.toNat % 15
  rcases Nat.lt_or_eq_of_le hin with hlt | heq
  · rw [Nat.mod_eq_of_lt hlt] at hp
    omega
  · rw [heq, Nat.mod_self] at hp
    omega

/-- Entry `i` of the window is the slot that index `get_idx + i` names. -/
theorem live_getElem? {i : Nat} (hi : i < q.count) :
    q.live[i]? = some (q.jobAt (q.getIdx + UInt32.ofNat i)) := by
  rw [live, List.getElem?_map, List.getElem?_range hi]
  rfl

/-- What the first loop runs over is live, whatever has wrapped. -/
theorem slot_live (h : q.count ≤ maxJobsQueue) {idx : Nat} (hlo : slot q.getIdx ≤ idx)
    (hhi : idx < slot q.putIdx) :
    ∃ i < q.count, slot (q.getIdx + UInt32.ofNat i) = idx := by
  have hp := q.putIdx_toNat
  have hg := q.getIdx.toNat_lt
  have hcap : q.count ≤ 15 := h
  have hlo' : q.getIdx.toNat % 15 ≤ idx := hlo
  have hhi' : idx < q.putIdx.toNat % 15 := hhi
  have hslot : ∀ i < q.count, slot (q.getIdx + UInt32.ofNat i) =
      (q.getIdx.toNat + i) % 2 ^ 32 % 15 := by
    intro i hi
    have hi32 : (UInt32.ofNat i).toNat = i := by
      rw [UInt32.toNat_ofNat', Nat.mod_eq_of_lt (by omega)]
    rw [slot, UInt32.toNat_add, hi32]
    rfl
  rcases Nat.lt_or_ge (q.getIdx.toNat + q.count) (2 ^ 32) with hlt | hge
  · rw [Nat.mod_eq_of_lt hlt] at hp
    refine ⟨idx - q.getIdx.toNat % 15, by omega, ?_⟩
    rw [hslot _ (by omega)]
    omega
  · -- Behind the wrap the window goes on at slot 0.
    refine ⟨idx + 2 ^ 32 - q.getIdx.toNat, by omega, ?_⟩
    rw [hslot _ (by omega)]
    omega

theorem live_getElem (h : q.Straight) {i : Nat} (hi : i < q.count) :
    q.live[i]? = q.jobs[(q.getIdx.toNat + i) % maxJobsQueue]? := by
  rw [live_eq_ring h, List.getElem?_eq_getElem (by rw [length_ring]; exact hi),
    getElem_ring, cell]
  simp

theorem Unwrapped.live_getElem (h : q.Straight) (hu : q.Unwrapped) {i : Nat}
    (hi : i < q.count) : q.live[i]? = q.jobs[slot q.getIdx + i]? := by
  have hcount := hu.count_eq h
  have hlt := slot_lt q.putIdx
  have hslot : slot q.getIdx = q.getIdx.toNat % maxJobsQueue := rfl
  rw [Queue.live_getElem h hi, hslot, Nat.add_mod, ← hslot,
    Nat.mod_eq_of_lt (show i < maxJobsQueue by omega), Nat.mod_eq_of_lt (by omega)]

/-- Giving up the last index of a window that is not empty. -/
theorem count_giveUp {jobs : Vector (Option Ptr) maxJobsQueue} {state : UInt8}
    (hne : q.count ≠ 0) : count ⟨jobs, q.putIdx - 1, q.getIdx, state⟩ + 1 = q.count := by
  have hg := q.getIdx.toNat_lt
  have hp := q.putIdx.toNat_lt
  have hone : (1 : UInt32).toNat = 1 := rfl
  simp only [count, UInt32.toNat_sub, hone] at hne ⊢
  omega

/-- The slots before `jobs[put_idx]` in a straight queue that gives up its
last index. -/
theorem straight_giveUp {jobs : Vector (Option Ptr) maxJobsQueue} {state : UInt8}
    (h : q.Straight) (hne : q.count ≠ 0) :
    Straight ⟨jobs, q.putIdx - 1, q.getIdx, state⟩ ∧
      count ⟨jobs, q.putIdx - 1, q.getIdx, state⟩ + 1 = q.count := by
  have hcap : q.count ≤ 15 := h.1
  have hin := h.2
  have hcount := @count_giveUp q jobs state hne
  refine ⟨⟨?_, ?_⟩, hcount⟩
  · show _ ≤ 15; omega
  · show q.getIdx.toNat + _ ≤ _; omega

/-- Which entry of the window `removeJob` gives up, given that it has a result:
the first match of an unwrapped window, freed; else the last entry, whoever it
is, not freed. -/
structure GivesUp (q : Queue) (heap : Heap) (jobid : UInt16) (k : Nat)
    (freed : Option Ptr) : Prop where
  lt : k < q.count
  entry :
    (q.Unwrapped ∧ (∃ p, freed = some p ∧ q.live[k]? = some (some p) ∧
        Matches heap jobid (some p)) ∧
      ∀ i < k, ∃ r, q.live[i]? = some r ∧ Differs heap jobid r) ∨
    (freed = none ∧ k + 1 = q.count ∧
      (q.Unwrapped → ∀ i < q.count, ∃ r, q.live[i]? = some r ∧ Differs heap jobid r))

/-- The bounds of the two loops. -/
theorem bound_toNat (q : Queue) :
    (q.putIdx % UInt32.ofNat maxJobsQueue).toNat = slot q.putIdx := by
  rw [UInt32.toNat_mod]
  rfl

theorem bound_pred_toNat (q : Queue) :
    (q.putIdx % UInt32.ofNat maxJobsQueue - 1).toNat =
      if slot q.putIdx = 0 then 2 ^ 32 - 1 else slot q.putIdx - 1 := by
  have hlt : slot q.putIdx < 15 := slot_lt q.putIdx
  have hone : (1 : UInt32).toNat = 1 := rfl
  rw [UInt32.toNat_sub, bound_toNat, hone]
  split <;> omega

/-- What a run of `removeJob` on a queue that is not empty is made of. -/
theorem removeJob_split {heap : Heap} {jobid : UInt16} {r : Removal} (hne : q.count ≠ 0)
    (hr : q.removeJob heap jobid = .ok r) :
    ∃ idx jobs,
      search q.jobs heap jobid (slot q.putIdx - slot q.getIdx) (slot q.getIdx) =
        .ok (idx, r.freed) ∧
      shift q.jobs ((if slot q.putIdx = 0 then 2 ^ 32 - 1 else slot q.putIdx - 1) - idx) idx =
        .ok jobs ∧
      r.queue = ⟨jobs, q.putIdx - 1, q.getIdx, leaveFull q.state⟩ ∧ r.signals = true := by
  rw [removeJob, if_neg hne] at hr
  simp only [bound_toNat, bound_pred_toNat] at hr
  cases hs : search q.jobs heap jobid (slot q.putIdx - slot q.getIdx) (slot q.getIdx) with
  | error e => rw [hs] at hr; cases hr
  | ok res =>
      obtain ⟨idx, freed⟩ := res
      rw [hs] at hr
      cases hsh : shift q.jobs
          ((if slot q.putIdx = 0 then 2 ^ 32 - 1 else slot q.putIdx - 1) - idx) idx with
      | error e => simp only [bind, Except.bind, hsh] at hr; cases hr
      | ok jobs =>
          simp only [bind, Except.bind, hsh] at hr
          injection hr with hr
          subst hr
          exact ⟨idx, jobs, rfl, hsh, rfl, rfl⟩

/-- `removeJob` gives up a place, unless the queue is empty. -/
theorem removeJob_next {heap : Heap} {jobid : UInt16} {r : Removal}
    (hr : q.removeJob heap jobid = .ok r) :
    (q.count = 0 ∧ r = ⟨q, none, false⟩) ∨
      (r.queue.count + 1 = q.count ∧ r.queue.state = leaveFull q.state ∧ r.signals = true) := by
  by_cases hne : q.count = 0
  · rw [removeJob, if_pos hne] at hr
    injection hr with hr
    exact .inl ⟨hne, hr.symm⟩
  · obtain ⟨_, _, -, -, hq, hsignals⟩ := removeJob_split hne hr
    rw [hq]
    exact .inr ⟨count_giveUp hne, rfl, hsignals⟩

/-- On slot 0 the second loop would have to reach slot `2 ^ 32 - 1`. -/
theorem removeJob_slot {heap : Heap} {jobid : UInt16} {r : Removal} (hne : q.count ≠ 0)
    (hr : q.removeJob heap jobid = .ok r) : slot q.putIdx ≠ 0 := by
  intro hz
  obtain ⟨idx, jobs, hsearch, hshift, -, -⟩ := removeJob_split hne hr
  obtain ⟨j, hidx, hj, -, -⟩ := search_cases hsearch
  obtain ⟨hroom, -⟩ := shift_cases hshift
  rw [if_pos hz] at hroom
  have hget : slot q.getIdx < 15 := slot_lt q.getIdx
  have hcap : maxJobsQueue = 15 := rfl
  omega

/-- With the slots as they were the last entry is the one given up. -/
theorem live_giveUp_last {jobs : Vector (Option Ptr) maxJobsQueue} {state : UInt8}
    (h : q.Straight) (hne : q.count ≠ 0) (hjobs : ∀ i : Nat, jobs[i]? = q.jobs[i]?) :
    live ⟨jobs, q.putIdx - 1, q.getIdx, state⟩ = q.live.eraseIdx (q.count - 1) := by
  obtain ⟨hs, hcount⟩ := @straight_giveUp q jobs state h hne
  have hsame : jobs = q.jobs := Vector.ext fun i hi => by
    have := hjobs i
    rwa [Vector.getElem?_eq_getElem hi, Vector.getElem?_eq_getElem hi,
      Option.some_inj] at this
  rw [live_eq_ring hs, live_eq_ring h, ← hcount, Nat.add_sub_cancel, hsame]
  rw [ring_dropLast, List.eraseIdx_eq_dropLast]
  rw [length_ring]

/-- With the gap behind entry `k` of an unwrapped window closed, that entry is
the one given up. -/
theorem live_giveUp_at {jobs : Vector (Option Ptr) maxJobsQueue} {state : UInt8} {k : Nat}
    (h : q.Straight) (hu : q.Unwrapped) (hk : k < q.count)
    (hjobs : ∀ i : Nat, jobs[i]? =
      if slot q.getIdx + k ≤ i ∧ i < slot q.putIdx - 1 then q.jobs[i + 1]? else q.jobs[i]?) :
    live ⟨jobs, q.putIdx - 1, q.getIdx, state⟩ = q.live.eraseIdx k := by
  obtain ⟨hs, hcount⟩ :=
    @straight_giveUp q jobs state h (by omega)
  have hsum := hu.count_eq h
  have hlt : slot q.putIdx < maxJobsQueue := slot_lt q.putIdx
  -- In an unwrapped window the cell of entry `i` is the `i`-th from the start.
  have hmod : ∀ i < q.count, (q.getIdx.toNat + i) % maxJobsQueue = slot q.getIdx + i := by
    intro i hi
    rw [Nat.add_mod, Nat.mod_eq_of_lt (show i < maxJobsQueue by omega)]
    exact Nat.mod_eq_of_lt (show slot q.getIdx + i < maxJobsQueue by omega)
  have hcell : ∀ (v : Vector (Option Ptr) maxJobsQueue) (i), i < q.count →
      v[slot q.getIdx + i]? = some (cell v (q.getIdx.toNat + i)) := by
    intro v i hi
    rw [← hmod i hi, cell]
    exact Vector.getElem?_eq_getElem _
  rw [live_eq_ring hs, live_eq_ring h, ← hcount]
  refine ring_erase (by omega) ?_ ?_
  · intro i hi
    have hi' := hjobs (slot q.getIdx + i)
    rwa [if_neg (by omega), hcell _ _ (by omega), hcell _ _ (by omega),
      Option.some_inj] at hi'
  · intro i hki hi
    have hi' := hjobs (slot q.getIdx + i)
    rwa [if_pos ⟨by omega, by omega⟩, hcell _ _ (by omega), Nat.add_assoc,
      hcell _ _ (by omega), Option.some_inj] at hi'

/-- `removeJob` does nothing to an empty queue, and otherwise gives up one
entry. -/
theorem removeJob_cases {heap : Heap} {jobid : UInt16} {r : Removal} (h : q.Straight)
    (hr : q.removeJob heap jobid = .ok r) :
    (q.count = 0 ∧ r = ⟨q, none, false⟩) ∨
      (q.count ≠ 0 ∧ slot q.putIdx ≠ 0 ∧ r.signals = true ∧ r.queue.Straight ∧
        ∃ k, q.GivesUp heap jobid k r.freed ∧ r.queue.live = q.live.eraseIdx k) := by
  by_cases hne : q.count = 0
  · rw [removeJob, if_pos hne] at hr
    injection hr with hr
    exact .inl ⟨hne, hr.symm⟩
  right
  obtain ⟨idx, jobs, hsearch, hshift, hq, hsig⟩ := removeJob_split hne hr
  obtain ⟨j, hidx, hj, hbefore, hend⟩ := search_cases hsearch
  obtain ⟨-, hcells⟩ := shift_cases hshift
  have hlt : slot q.putIdx < 15 := slot_lt q.putIdx
  have hslot := removeJob_slot hne hr
  rw [if_neg hslot] at hcells
  refine ⟨hne, hslot, hsig, ?_, ?_⟩
  · rw [hq]
    exact (straight_giveUp h hne).1
  rw [hq]
  by_cases hu : q.Unwrapped
  · have hsum := hu.count_eq h
    have hn : slot q.putIdx - slot q.getIdx = q.count := by omega
    rw [hn] at hj hend
    rcases hend with ⟨hk, p, hfreed, hp, hmatch⟩ | ⟨hk, hfreed⟩
    · refine ⟨j, ⟨hk, .inl ⟨hu, ⟨p, hfreed, ?_, hmatch⟩, ?_⟩⟩, ?_⟩
      · rw [hu.live_getElem h hk, hp]
      · intro i hi
        rw [hu.live_getElem h (by omega)]
        exact hbefore i hi
      · refine live_giveUp_at h hu hk fun i => ?_
        rw [hcells i, hidx]
        congr 1
        rw [show slot q.getIdx + j + (slot q.putIdx - 1 - (slot q.getIdx + j)) =
          slot q.putIdx - 1 by omega]
    · refine ⟨q.count - 1, ⟨by omega, .inr ⟨hfreed, by omega, fun _ i hi => ?_⟩⟩, ?_⟩
      · rw [hu.live_getElem h hi]
        exact hbefore i (by omega)
      · refine live_giveUp_last h hne fun i => ?_
        rw [hcells i, if_neg (by omega)]
  · -- Neither loop runs: the window starts at or above the slot of `put_idx`.
    have hge : slot q.putIdx ≤ slot q.getIdx := Nat.not_lt.mp hu
    have hfreed : r.freed = none := by
      rcases hend with ⟨hk, -⟩ | ⟨-, hfreed⟩
      · omega
      · exact hfreed
    refine ⟨q.count - 1, ⟨by omega, .inr ⟨hfreed, by omega, fun h => absurd h hu⟩⟩, ?_⟩
    refine live_giveUp_last h hne fun i => ?_
    rw [hcells i, if_neg (by omega)]

theorem removeJob_getIdx {heap : Heap} {jobid : UInt16} {r : Removal}
    (hr : q.removeJob heap jobid = .ok r) : r.queue.getIdx = q.getIdx := by
  by_cases hne : q.count = 0
  · rw [removeJob, if_pos hne] at hr
    injection hr with hr
    subst hr
    rfl
  · obtain ⟨_, _, -, -, hq, -⟩ := removeJob_split hne hr
    rw [hq]

/-- Where every live job can be read and `put_idx` is off slot 0, `removeJob`
has a result. -/
theorem removeJob_ok {heap : Heap} {jobid : UInt16} (h : q.count ≤ maxJobsQueue)
    (hslot : q.count = 0 ∨ slot q.putIdx ≠ 0)
    (hlive : ∀ r ∈ q.live, ∃ p job, r = some p ∧ heap.load p = some job) :
    ∃ r, q.removeJob heap jobid = .ok r := by
  by_cases hne : q.count = 0
  · exact ⟨_, by rw [removeJob, if_pos hne]⟩
  have hslot' : slot q.putIdx ≠ 0 := hslot.resolve_left hne
  have hlt : slot q.putIdx < 15 := slot_lt q.putIdx
  have hcap : maxJobsQueue = 15 := rfl
  obtain ⟨⟨idx, freed⟩, hs⟩ : ∃ res, search q.jobs heap jobid
      (slot q.putIdx - slot q.getIdx) (slot q.getIdx) = .ok res := by
    refine search_ok ?_
    intro i hi
    have hlo : slot q.getIdx ≤ slot q.getIdx + i := by omega
    obtain ⟨k, hk, hslotk⟩ := slot_live h hlo (by omega)
    obtain ⟨p, job, hp, hjob⟩ := hlive _ (List.mem_of_getElem? (live_getElem? hk))
    refine ⟨p, job, ?_, hjob⟩
    rw [← hslotk, Vector.getElem?_eq_getElem (slot_lt _), ← hp]
    rfl
  obtain ⟨k, hidx, hk, -, -⟩ := search_cases hs
  obtain ⟨jobs, hsh⟩ : ∃ jobs, shift q.jobs (slot q.putIdx - 1 - idx) idx = .ok jobs := by
    refine shift_ok ?_
    have hget : slot q.getIdx < 15 := slot_lt q.getIdx
    omega
  refine ⟨⟨⟨jobs, q.putIdx - 1, q.getIdx, leaveFull q.state⟩, freed, true⟩, ?_⟩
  rw [removeJob, if_neg hne]
  simp only [bound_toNat, bound_pred_toNat, if_neg hslot', hs, hsh, bind, Except.bind]

/-! ### The entry that is given up, as a function of the window -/

/-- The job that leaves a queue which is not empty: in an unwrapped window the
first of the id, else the last one. -/
def givesUp (q : Queue) (heap : Heap) (jobid : UInt16) : Option Ptr :=
  let last := q.live.getLast?.join
  if q.Unwrapped then
    (q.live.find? fun x => (jobOf heap x).any fun job => job.id = jobid).getD last
  else last

theorem GivesUp.eq_givesUp {heap : Heap} {jobid : UInt16} {k : Nat} {freed : Option Ptr}
    (h : q.GivesUp heap jobid k freed) : q.live[k]? = some (q.givesUp heap jobid) := by
  have hlt : k < q.live.length := by rw [length_live]; exact h.lt
  have hlast : k + 1 = q.count → q.live[k]? = some q.live.getLast?.join := by
    intro hk
    rw [List.getLast?_eq_getElem?, length_live, ← hk, Nat.add_sub_cancel,
      List.getElem?_eq_getElem hlt]
    rfl
  rw [givesUp]
  rcases h.entry with ⟨hu, ⟨p, -, hp, job, hjob, hid⟩, hbefore⟩ | ⟨-, hk, hdiffers⟩
  · have hfind : q.live.find? (fun x => (jobOf heap x).any fun job => job.id = jobid) =
        some (some p) := by
      rw [List.find?_eq_some_iff_getElem]
      refine ⟨by rw [hjob]; exact decide_eq_true hid, k, hlt, ?_, fun i hi => ?_⟩
      · rw [List.getElem?_eq_getElem hlt] at hp
        injection hp
      · obtain ⟨x, hx, job', hjob', hne⟩ := hbefore i hi
        obtain ⟨hi', rfl⟩ := List.getElem?_eq_some_iff.mp hx
        rw [hjob', Option.any_some, decide_eq_false hne]
        rfl
    rw [if_pos hu, hfind, Option.getD_some, hp]
  · split
    · next hu =>
        have hfind : q.live.find? (fun x => (jobOf heap x).any fun job => job.id = jobid) =
            none := by
          rw [List.find?_eq_none]
          intro x hx
          obtain ⟨i, hi, rfl⟩ := List.getElem_of_mem hx
          obtain ⟨x', hx', job', hjob', hne⟩ := hdiffers hu i (by rwa [← length_live])
          rw [List.getElem?_eq_getElem hi] at hx'
          injection hx' with hx'
          rw [hx', hjob', Option.any_some, decide_eq_true_eq]
          exact hne
        rw [hfind, Option.getD_none, hlast hk]
    · exact hlast hk

/-- What `removeJob` takes out of the window. -/
theorem removeJob_gone {heap : Heap} {jobid : UInt16} {r : Removal} (h : q.Straight)
    (hr : q.removeJob heap jobid = .ok r) {x : Option Ptr} (hx : x ∈ q.live.diff r.queue.live) :
    x = q.givesUp heap jobid := by
  rcases removeJob_cases h hr with ⟨-, rfl⟩ | ⟨-, -, -, -, k, hgives, hlive⟩
  · have := List.count_pos_iff.mpr hx
    rw [List.count_diff, Nat.sub_self] at this
    omega
  · have hk := hgives.eq_givesUp
    obtain ⟨hlt, hget⟩ := List.getElem?_eq_some_iff.mp hk
    by_contra hne
    have hcount := (List.getElem_cons_eraseIdx_perm hlt).count_eq x
    rw [List.count_cons_of_ne (by rw [hget]; exact fun h => hne h.symm)] at hcount
    have hpos := List.count_pos_iff.mpr hx
    rw [List.count_diff, hlive, hcount, Nat.sub_self] at hpos
    omega

end Queue

end DistQueue
