import DistQueue.Server.QueueFlag

/-!
# `removeJob` as a list operation

What `removeJob` is for is to take the job of one id out of the window and
leave the others as they are. It does that when the window is unwrapped and the
job is in it, or when the job happens to be the last one; a queue that is empty
it leaves alone. In every other case the wrong job goes, or the second loop
runs off the end of the array.

With the ids in the window distinct the window cannot run past index `2 ^ 32`:
indices `2 ^ 32 - 1` and 0 share slot 0.
-/

namespace DistQueue

open DistQueue.Lib

section Lists

variable {α : Type*}

/-- Where one entry alone satisfies `p`, taking it out by position and by `p`
is the same. -/
theorem eraseIdx_eq_filter {p : α → Bool} : ∀ {l : List α} {k : Nat} (hk : k < l.length),
    p l[k] = true → (∀ i (hi : i < l.length), p l[i] = true → i = k) →
    l.eraseIdx k = l.filter fun x => !p x := by
  intro l
  induction l with
  | nil => intro k hk; cases hk
  | cons a l ih =>
      intro k hk hp honly
      cases k with
      | zero =>
          have ha : p a = true := hp
          have hrest : ∀ x ∈ l, (!p x) = true := by
            intro x hx
            obtain ⟨i, hi, rfl⟩ := List.getElem_of_mem hx
            cases hpx : p l[i] with
            | false => rfl
            | true => exact absurd (honly (i + 1) (Nat.succ_lt_succ hi) hpx) (Nat.succ_ne_zero i)
          rw [List.eraseIdx_zero, List.tail_cons, List.filter_cons_of_neg (by simp [ha]),
            List.filter_eq_self.mpr hrest]
      | succ k =>
          have ha : p a = false := by
            cases hpa : p a with
            | false => rfl
            | true => exact absurd (honly 0 (Nat.succ_pos _) hpa) (Nat.succ_ne_zero k).symm
          rw [List.eraseIdx_cons_succ, List.filter_cons_of_pos (by simp [ha])]
          congr 1
          refine ih (Nat.lt_of_succ_lt_succ hk) hp fun i hi hpi => ?_
          exact Nat.succ.inj (honly (i + 1) (Nat.succ_lt_succ hi) hpi)

end Lists

namespace Queue

variable {q q' : Queue} {heap : Heap} {jobid : UInt16}

/-- A slot whose job has this id. -/
def names (heap : Heap) (jobid : UInt16) (x : Option Ptr) : Bool :=
  (jobOf heap x).any fun job => job.id = jobid

/-- The live slots refer to jobs, and no id is there twice. -/
def Distinct (q : Queue) (heap : Heap) : Prop :=
  ∃ jobs : List Job, q.live.map (jobOf heap) = jobs.map some ∧ (jobs.map Job.id).Nodup

/-- `removeJob` takes the job of that id out of the window, keeps the others in
their order, and without such a job changes nothing. -/
def RemovesById (q : Queue) (heap : Heap) (jobid : UInt16) : Prop :=
  ∃ r, q.removeJob heap jobid = .ok r ∧
    r.queue.live = q.live.filter (fun x => !names heap jobid x) ∧
    ((∀ x ∈ q.live, names heap jobid x = false) →
      r.queue.live = q.live ∧ r.queue.putIdx = q.putIdx ∧ r.queue.getIdx = q.getIdx ∧
        r.queue.state = q.state)

/-- The queue is empty, or the job is in it, the second loop stays inside the
array, and the window is unwrapped or the job its last one. -/
def Removable (q : Queue) (heap : Heap) (jobid : UInt16) : Prop :=
  q.count = 0 ∨
    slot q.putIdx ≠ 0 ∧ (∃ x ∈ q.live, names heap jobid x = true) ∧
      (q.Unwrapped ∨ q.live.getLast?.any (names heap jobid) = true)

instance : Decidable (q.Removable heap jobid) := inferInstanceAs (Decidable (_ ∨ _))

theorem Matches.names {x : Option Ptr} (h : Matches heap jobid x) :
    names heap jobid x = true := by
  obtain ⟨job, hjob, hid⟩ := h
  rw [Queue.names, hjob, Option.any_some, decide_eq_true hid]

theorem Differs.names {x : Option Ptr} (h : Differs heap jobid x) :
    names heap jobid x = false := by
  obtain ⟨job, hjob, hid⟩ := h
  rw [Queue.names, hjob, Option.any_some, decide_eq_false hid]

section DistinctIds

theorem Distinct.load (h : q.Distinct heap) :
    ∀ r ∈ q.live, ∃ p job, r = some p ∧ heap.load p = some job := by
  intro r hr
  obtain ⟨jobs, hjobs, -⟩ := h
  have hmem : jobOf heap r ∈ jobs.map some := hjobs ▸ List.mem_map_of_mem hr
  obtain ⟨job, -, hjob⟩ := List.mem_map.mp hmem
  cases r with
  | none => cases hjob
  | some p => exact ⟨p, job, rfl, hjob.symm⟩

/-- The id of a slot's job. -/
def idOf (heap : Heap) (x : Option Ptr) : Option UInt16 := (jobOf heap x).map Job.id

theorem names_iff {x : Option Ptr} : names heap jobid x = true ↔ idOf heap x = some jobid := by
  rw [names, idOf]
  cases jobOf heap x with
  | none => simp
  | some job => simp

theorem Distinct.nodup (h : q.Distinct heap) : (q.live.map (idOf heap)).Nodup := by
  obtain ⟨jobs, hjobs, hnodup⟩ := h
  have hids : q.live.map (idOf heap) = (jobs.map Job.id).map some := by
    have := congrArg (List.map (Option.map Job.id)) hjobs
    simp only [List.map_map] at this ⊢
    exact this
  rw [hids]
  exact hnodup.map (Option.some_injective _)

/-- Two entries of one id are one entry. -/
theorem Distinct.inj (h : q.Distinct heap) {i j : Nat} (hi : i < q.live.length)
    (hj : j < q.live.length) (hij : idOf heap q.live[i] = idOf heap q.live[j]) : i = j := by
  have hi' : i < (q.live.map (idOf heap)).length := by rwa [List.length_map]
  have hj' : j < (q.live.map (idOf heap)).length := by rwa [List.length_map]
  have heq : (q.live.map (idOf heap))[i] = (q.live.map (idOf heap))[j] := by
    rw [List.getElem_map, List.getElem_map]
    exact hij
  exact h.nodup.getElem_inj_iff.mp heq

/-- Indices `2 ^ 32 - 1` and 0 name the same slot, so they are not both in the
window. -/
theorem Distinct.straight (h : q.Distinct heap) (hcount : q.count ≤ maxJobsQueue) :
    q.Straight := by
  refine ⟨hcount, ?_⟩
  by_contra hwrap
  have hg := q.getIdx.toNat_lt
  have hcap : q.count ≤ 15 := hcount
  have hi : 2 ^ 32 - 1 - q.getIdx.toNat < q.live.length := by rw [length_live]; omega
  have hj : 2 ^ 32 - q.getIdx.toNat < q.live.length := by rw [length_live]; omega
  have hentry : ∀ k (hk : k < q.live.length),
      slot (q.getIdx + UInt32.ofNat k) = 0 → q.live[k] = q.jobs[0] := by
    intro k hk hslot
    have hk' := live_getElem? (by rwa [length_live] at hk)
    rw [List.getElem?_eq_getElem hk, Option.some_inj] at hk'
    rw [hk', jobAt]
    simp only [hslot]
  have hsum : ∀ k, k < 2 ^ 32 →
      (q.getIdx + UInt32.ofNat k).toNat = (q.getIdx.toNat + k) % 2 ^ 32 := by
    intro k hk
    rw [UInt32.toNat_add, UInt32.toNat_ofNat', Nat.mod_eq_of_lt hk]
  have hsame := h.inj hi hj (by
    rw [hentry _ hi (by rw [slot, hsum _ (by omega)]; show _ % 15 = 0; omega),
      hentry _ hj (by rw [slot, hsum _ (by omega)]; show _ % 15 = 0; omega)])
  omega

end DistinctIds

/-! ## By id -/

/-- The entry that is given up names the id exactly where `Removable` says. -/
theorem GivesUp.names {k : Nat} {freed : Option Ptr} (h : q.GivesUp heap jobid k freed)
    (hk : k < q.live.length) :
    names heap jobid q.live[k] = true ↔
      (∃ x ∈ q.live, names heap jobid x = true) ∧
        (q.Unwrapped ∨ q.live.getLast?.any (names heap jobid) = true) := by
  have hlast : k + 1 = q.count → q.live.getLast?.any (Queue.names heap jobid) =
      Queue.names heap jobid q.live[k] := by
    intro hlast
    rw [List.getLast?_eq_getElem?, length_live, ← hlast, Nat.add_sub_cancel,
      List.getElem?_eq_getElem hk, Option.any_some]
  have hmem : q.live[k] ∈ q.live := List.getElem_mem hk
  rcases h.entry with ⟨hu, ⟨p, -, hp, hmatch⟩, -⟩ | ⟨-, hend, hdiffers⟩
  · rw [List.getElem?_eq_getElem hk, Option.some_inj] at hp
    rw [hp]
    rw [hp] at hmem
    exact ⟨fun hnames => ⟨⟨_, hmem, hnames⟩, .inl hu⟩, fun _ => hmatch.names⟩
  · constructor
    · intro hnames
      exact ⟨⟨_, hmem, hnames⟩, .inr (by rw [hlast hend]; exact hnames)⟩
    · rintro ⟨⟨x, hx, hnames⟩, hu | hgetLast⟩
      · obtain ⟨i, hi, rfl⟩ := List.getElem_of_mem hx
        obtain ⟨x', hx', hne⟩ := hdiffers hu i (by rwa [length_live] at hi)
        rw [List.getElem?_eq_getElem hi, Option.some_inj] at hx'
        rw [hx', hne.names] at hnames
        cases hnames
      · rw [← hlast hend]
        exact hgetLast

/-- For a queue of distinct jobs, whatever its rotation and however full. -/
theorem removeJob_removes_by_id (q : Queue) (heap : Heap) (jobid : UInt16)
    (hq : Reach step anyStep (· = init) q) (hdistinct : q.Distinct heap) :
    q.RemovesById heap jobid ↔ q.Removable heap jobid := by
  have hcount := (flagged_of_reach hq).bound
  have hstraight := hdistinct.straight hcount
  have honly : ∀ {k} (hk : k < q.live.length), names heap jobid q.live[k] = true →
      q.live.eraseIdx k = q.live.filter fun x => !names heap jobid x := by
    intro k hk hnames
    refine eraseIdx_eq_filter hk hnames fun i hi hnames' => hdistinct.inj hi hk ?_
    rw [names_iff.mp hnames, names_iff.mp hnames']
  constructor
  · rintro ⟨r, hr, hlive, habsent⟩
    rcases removeJob_cases hstraight hr with ⟨hempty, -⟩ | ⟨hne, hslot, -, -, k, hgives, hlive'⟩
    · exact .inl hempty
    have hk : k < q.live.length := by rw [length_live]; exact hgives.lt
    refine .inr ⟨hslot, (hgives.names hk).mp ?_⟩
    -- Were it not the job of the id, that job would still be there, or none be missing.
    by_contra hnames
    have hmem : q.live[k] ∈ r.queue.live := by
      rw [hlive]
      exact List.mem_filter.mpr ⟨List.getElem_mem hk, by simpa using hnames⟩
    have hlen : r.queue.live.length + 1 = q.live.length := by
      rw [hlive', List.length_eraseIdx_of_lt hk]
      omega
    by_cases hex : ∃ x ∈ q.live, names heap jobid x = true
    · obtain ⟨x, hx, hxnames⟩ := hex
      obtain ⟨i, hi, rfl⟩ := List.getElem_of_mem hx
      have hik : i ≠ k := by rintro rfl; exact hnames hxnames
      have hx' : q.live[i] ∈ r.queue.live := by
        rw [hlive']
        exact List.mem_eraseIdx_iff_getElem.mpr ⟨i, hi, hik, rfl⟩
      rw [hlive] at hx'
      simpa [hxnames] using (List.mem_filter.mp hx').2
    · have hall : ∀ x ∈ q.live, names heap jobid x = false := by
        intro x hx
        cases hxn : names heap jobid x with
        | false => rfl
        | true => exact absurd ⟨x, hx, hxn⟩ hex
      rw [(habsent hall).1] at hlen
      omega
  · intro hrem
    obtain ⟨r, hr⟩ := removeJob_ok hcount (hrem.imp_right And.left) hdistinct.load
    refine ⟨r, hr, ?_⟩
    rcases removeJob_cases hstraight hr with ⟨hempty, rfl⟩ | ⟨hne, -, -, -, k, hgives, hlive⟩
    · have hnil : q.live = [] := List.eq_nil_of_length_eq_zero (by rw [length_live, hempty])
      exact ⟨by rw [hnil]; rfl, fun _ => ⟨rfl, rfl, rfl, rfl⟩⟩
    have hk : k < q.live.length := by rw [length_live]; exact hgives.lt
    obtain ⟨-, hex, hwhere⟩ := hrem.resolve_left hne
    have hnames := (hgives.names hk).mpr ⟨hex, hwhere⟩
    refine ⟨by rw [hlive, honly hk hnames], fun habsent => ?_⟩
    rw [habsent _ (List.getElem_mem hk)] at hnames
    cases hnames

/-- Job 3 waits in front of job 5 when job 3 is removed. -/
theorem removeJob_removes_by_id_head : ∃ (q : Queue) (heap : Heap), q.live = [some 0, some 1] ∧
    q.RemovesById heap 3 := by
  obtain ⟨q, hq, hlive, hrem, hjobs⟩ : ∃ q, Reach step anyStep (· = init) q ∧
      q.live = [some 0, some 1] ∧ q.Removable [⟨⟨3, 0, 0, [], []⟩, false⟩, ⟨⟨5, 0, 0, [], []⟩, false⟩] 3 ∧
      q.live.map (jobOf [⟨⟨3, 0, 0, [], []⟩, false⟩, ⟨⟨5, 0, 0, [], []⟩, false⟩]) =
        [some ⟨3, 0, 0, [], []⟩, some ⟨5, 0, 0, [], []⟩] :=
    @reach_of_checkedRun _ _ _ _ _ _ [.putJob 0, .putJob 1] _ _ _ rfl (by decide +kernel)
  exact ⟨q, _, hlive, (removeJob_removes_by_id q _ 3 hq ⟨[_, _], hjobs, by decide⟩).mpr hrem⟩

/-- Job 3 is alone in its queue, and `removeJob` of job 7 takes it out. -/
theorem removeJob_takes_another : ∃ (q : Queue) (heap : Heap),
    Reach step anyStep (· = init) q ∧ q.Distinct heap ∧ ¬ q.RemovesById heap 7 := by
  obtain ⟨q, hq, hjobs, hnames, hafter⟩ : ∃ q, Reach step anyStep (· = init) q ∧
      q.live.map (jobOf [⟨⟨3, 0, 0, [], []⟩, false⟩]) = [some ⟨3, 0, 0, [], []⟩] ∧
      (∀ x ∈ q.live, names [⟨⟨3, 0, 0, [], []⟩, false⟩] 7 x = false) ∧
      (q.step (.removeJob [⟨⟨3, 0, 0, [], []⟩, false⟩] 7)).all (fun q' => q'.putIdx ≠ q.putIdx) =
        true :=
    @reach_of_checkedRun _ _ _ _ _ _ [.putJob 0] _ _ _ rfl (by decide +kernel)
  refine ⟨q, _, hq, ⟨[_], hjobs, by decide⟩, ?_⟩
  rintro ⟨r, hr, -, habsent⟩
  rw [step, hr] at hafter
  exact of_decide_eq_true hafter (habsent hnames).2.1

/-! ## Inside the array -/

/-- The slots whose jobs the first loop compares, and the `idx` it leaves for
the second, with `n` rounds to go. A job that cannot be read goes on like one of
another id. -/
def searched (jobs : Vector (Option Ptr) maxJobsQueue) (heap : Heap) (jobid : UInt16) :
    (n idx : Nat) → List Nat × Nat
  | 0, idx => ([], idx)
  | n + 1, idx =>
      if names heap jobid jobs[idx]?.join then ([idx], idx)
      else
        let rest := searched jobs heap jobid n (idx + 1)
        (idx :: rest.1, rest.2)

/-- The slots that `removeJob` goes through: those its first loop compares, and
the values of `idx` in its second loop, which reads `jobs[idx+1]` and writes
`jobs[idx]`. -/
def accesses (q : Queue) (heap : Heap) (jobid : UInt16) : List Nat × List Nat :=
  if q.count = 0 then ([], [])
  else
    let bound := q.putIdx % UInt32.ofNat maxJobsQueue
    let idx := slot q.getIdx
    let (compared, idx) := searched q.jobs heap jobid (bound.toNat - idx) idx
    (compared, List.range' idx ((bound - 1).toNat - idx))

/-- Only live jobs are compared, only slots of the array moved, and the two
loops together make no more rounds than the array has slots. -/
structure StaysInside (q : Queue) (heap : Heap) (jobid : UInt16) : Prop where
  compared : ∀ idx ∈ (q.accesses heap jobid).1, idx < maxJobsQueue ∧
    ∃ i < q.count, slot (q.getIdx + UInt32.ofNat i) = idx
  moved : ∀ idx ∈ (q.accesses heap jobid).2, idx < maxJobsQueue ∧ idx + 1 < maxJobsQueue
  rounds : (q.accesses heap jobid).1.length + (q.accesses heap jobid).2.length ≤ maxJobsQueue

/-- The first loop compares slot after slot, the one it stops at among them. -/
theorem searched_eq {jobs : Vector (Option Ptr) maxJobsQueue} : ∀ (n idx : Nat), ∃ k ≤ n,
    searched jobs heap jobid n idx = (List.range' idx (min n (k + 1)), idx + k) := by
  intro n
  induction n with
  | zero => intro idx; exact ⟨0, Nat.le_refl _, by simp [searched]⟩
  | succ n ih =>
      intro idx
      rw [searched]
      split
      · exact ⟨0, Nat.zero_le _, by simp⟩
      · obtain ⟨k, hk, hrest⟩ := ih (idx + 1)
        refine ⟨k + 1, by omega, ?_⟩
        rw [hrest, show min (n + 1) (k + 1 + 1) = min n (k + 1) + 1 by omega, List.range'_succ,
          show idx + (k + 1) = idx + 1 + k by omega]

/-- The rounds of the two loops, the second bound as unsigned arithmetic has it. -/
theorem accesses_eq (hne : q.count ≠ 0) : ∃ k ≤ slot q.putIdx - slot q.getIdx,
    q.accesses heap jobid =
      (List.range' (slot q.getIdx) (min (slot q.putIdx - slot q.getIdx) (k + 1)),
        List.range' (slot q.getIdx + k)
          ((if slot q.putIdx = 0 then 2 ^ 32 - 1 else slot q.putIdx - 1) -
            (slot q.getIdx + k))) := by
  obtain ⟨k, hk, hsearched⟩ := @searched_eq heap jobid q.jobs
    (slot q.putIdx - slot q.getIdx) (slot q.getIdx)
  refine ⟨k, hk, ?_⟩
  rw [accesses, if_neg hne]
  simp only [bound_toNat, bound_pred_toNat, hsearched]

theorem staysInside_iff (h : q.count ≤ maxJobsQueue) :
    q.StaysInside heap jobid ↔ q.count = 0 ∨ slot q.putIdx ≠ 0 := by
  have hput : slot q.putIdx < 15 := slot_lt q.putIdx
  have hget : slot q.getIdx < 15 := slot_lt q.getIdx
  have hcap : maxJobsQueue = 15 := rfl
  by_cases hne : q.count = 0
  · refine ⟨fun _ => .inl hne, fun _ => ?_⟩
    have hnone : q.accesses heap jobid = ([], []) := by rw [accesses, if_pos hne]
    refine ⟨?_, ?_, ?_⟩ <;> simp [hnone]
  obtain ⟨k, hk, hacc⟩ := @accesses_eq q heap jobid hne
  constructor
  · intro hin
    refine .inr fun hz => ?_
    have hrounds := hin.rounds
    rw [hacc, if_pos hz] at hrounds
    simp only [List.length_range'] at hrounds
    omega
  · intro hslot
    rw [if_neg (hslot.resolve_left hne)] at hacc
    refine ⟨fun idx hidx => ?_, fun idx hidx => ?_, ?_⟩
    · rw [hacc] at hidx
      have hrange := List.mem_range'_1.mp hidx
      exact ⟨by omega, slot_live h hrange.1 (by omega)⟩
    · rw [hacc] at hidx
      have hrange := List.mem_range'_1.mp hidx
      omega
    · rw [hacc]
      simp only [List.length_range']
      omega

/-- The loops stay inside the array unless `put_idx` is on slot 0 of a queue with
jobs in it; and as long as the live jobs can be read that is when `removeJob`
has a result. -/
theorem removeJob_stays_inside (q : Queue) (heap : Heap) (jobid : UInt16)
    (hq : Reach step anyStep (· = init) q) :
    (q.StaysInside heap jobid ↔ q.count = 0 ∨ slot q.putIdx ≠ 0) ∧
      ((∀ x ∈ q.live, ∃ p job, x = some p ∧ heap.load p = some job) →
        (q.StaysInside heap jobid ↔ ∃ r, q.removeJob heap jobid = .ok r)) := by
  have hcount := (flagged_of_reach hq).bound
  have hinside := @staysInside_iff q heap jobid hcount
  refine ⟨hinside, fun hload => hinside.trans ⟨fun h => removeJob_ok hcount h hload, ?_⟩⟩
  rintro ⟨r, hr⟩
  by_cases hne : q.count = 0
  · exact .inl hne
  · exact .inr (removeJob_slot hne hr)

/-- A queue with three jobs, the middle one of which is removed. -/
theorem removeJob_stays_inside_middle : ∃ (q : Queue) (heap : Heap),
    q.live = [some 0, some 1, some 2] ∧ q.StaysInside heap 6 ∧
      ∃ r, q.removeJob heap 6 = .ok r := by
  obtain ⟨q, hq, hlive, hslot⟩ : ∃ q, Reach step anyStep (· = init) q ∧
      q.live = [some 0, some 1, some 2] ∧ slot q.putIdx ≠ 0 :=
    @reach_of_checkedRun _ _ _ _ _ _ [.putJob 3, .getJob, .putJob 0, .putJob 1, .putJob 2] _ _ _
      rfl (by decide +kernel)
  let heap : Heap := [⟨⟨5, 0, 0, [], []⟩, false⟩, ⟨⟨6, 0, 0, [], []⟩, false⟩,
    ⟨⟨7, 0, 0, [], []⟩, false⟩]
  obtain ⟨hinside, hok⟩ := removeJob_stays_inside q heap 6 hq
  have hload : ∀ x ∈ q.live, ∃ p job, x = some p ∧ heap.load p = some job := by
    rw [hlive]
    exact List.forall_mem_cons.mpr ⟨⟨0, _, rfl, rfl⟩, List.forall_mem_cons.mpr
      ⟨⟨1, _, rfl, rfl⟩, List.forall_mem_singleton.mpr ⟨2, _, rfl, rfl⟩⟩⟩
  have hstays := hinside.mpr (.inr hslot)
  exact ⟨q, heap, hlive, hstays, (hok hload).mp hstays⟩

/-- The fifteenth job of a queue's life is in slot 14 and `put_idx` back on slot
0: the second loop goes on to slot `2 ^ 32 - 1`. -/
theorem removeJob_leaves_array : ∃ (q : Queue) (heap : Heap),
    Reach step anyStep (· = init) q ∧ ¬ q.StaysInside heap 0 := by
  obtain ⟨q, hq, hcount, hslot⟩ : ∃ q, Reach step anyStep (· = init) q ∧ q.count ≠ 0 ∧
      slot q.putIdx = 0 :=
    @reach_of_checkedRun _ _ _ _ _ _ (List.replicate 15 (.putJob 0)) _ _ _ rfl
      (by decide +kernel)
  refine ⟨q, [], hq, fun h => ?_⟩
  rcases (staysInside_iff (flagged_of_reach hq).bound).mp h with hempty | hne
  · exact hcount hempty
  · exact hne hslot

end Queue

end DistQueue
