import DistQueue.Server.QueueFlag

/-!
# The indices past `2 ^ 32`

`put_idx - get_idx` does not mind that the two indices wrap, the slots do: 15
does not divide `2 ^ 32`, and indices `2 ^ 32 - 1` and 0, one behind the other,
both name slot 0. The ring is sound as long as the window, with the index the
next put takes, does not hold them both.
-/

namespace DistQueue

open DistQueue.Lib

/-- A put or a dequeue. -/
def QueueOp.Moves : QueueOp → Prop
  | .putJob _ | .getJob => True
  | .removeJob _ _ => False

namespace Queue

variable {q q' : Queue}

/-- No two live indices share a slot, and a put that goes through takes one that
is not live. -/
structure RingSound (q : Queue) : Prop where
  distinct : ∀ i < q.count, ∀ j < q.count, i ≠ j →
    slot (q.getIdx + UInt32.ofNat i) ≠ slot (q.getIdx + UInt32.ofNat j)
  fresh : q.count ≠ maxJobsQueue → ∀ i < q.count,
    slot (q.getIdx + UInt32.ofNat i) ≠ slot q.putIdx

/-- The window does not run past index `2 ^ 32 - 1`, and behind index
`2 ^ 32 - 1` no put is let through. -/
def WrapFree (q : Queue) : Prop :=
  q.getIdx.toNat + q.count ≤ 2 ^ 32 ∧
    (q.putIdx = 0 → q.count = 0 ∨ q.count = maxJobsQueue)

/-- A put takes an index below `2 ^ 32 - 1`. -/
def BelowWrap (q : Queue) : QueueOp → Prop
  | .putJob _ => q.putIdx + 1 ≠ 0
  | _ => True

instance (q : Queue) : (op : QueueOp) → Decidable (q.BelowWrap op)
  | .putJob _ => inferInstanceAs (Decidable (q.putIdx + 1 ≠ 0))
  | .getJob | .removeJob _ _ => isTrue trivial

/-- Neither index has wrapped. -/
structure Unwound (q : Queue) : Prop where
  bound : q.count ≤ maxJobsQueue
  put : q.putIdx.toNat = q.getIdx.toNat + q.count

theorem index_toNat (h : q.count ≤ maxJobsQueue) {i : Nat} (hi : i < q.count) :
    (q.getIdx + UInt32.ofNat i).toNat = (q.getIdx.toNat + i) % 2 ^ 32 := by
  have hcap : q.count ≤ 15 := h
  rw [UInt32.toNat_add, UInt32.toNat_ofNat', Nat.mod_eq_of_lt (show i < 2 ^ 32 by omega)]

theorem ringSound_iff (h : q.count ≤ maxJobsQueue) : q.RingSound ↔ q.WrapFree := by
  have hcap : q.count ≤ 15 := h
  have hg := q.getIdx.toNat_lt
  have hp := q.putIdx_toNat
  have hslot : ∀ i < q.count, slot (q.getIdx + UInt32.ofNat i) =
      (q.getIdx.toNat + i) % 2 ^ 32 % 15 := by
    intro i hi
    rw [slot, index_toNat h hi]
    rfl
  constructor
  · intro hs
    have hin : q.getIdx.toNat + q.count ≤ 2 ^ 32 := by
      by_contra hover
      have hlast := hslot (2 ^ 32 - 1 - q.getIdx.toNat) (by omega)
      have hfirst := hslot (2 ^ 32 - q.getIdx.toNat) (by omega)
      refine hs.distinct _ (by omega) _ (by omega) ?_ (hlast.trans (Eq.trans ?_ hfirst.symm))
      · omega
      · omega
    refine ⟨hin, fun hzero => ?_⟩
    by_contra hcount
    have hcount' : q.count ≠ 0 ∧ q.count ≠ maxJobsQueue := by
      constructor
      · exact fun h0 => hcount (.inl h0)
      · exact fun h15 => hcount (.inr h15)
    have hz : q.putIdx.toNat = 0 := by rw [hzero]; rfl
    refine hs.fresh hcount'.2 (q.count - 1) (by omega) ?_
    rw [hslot _ (by omega), slot, hz]
    show _ = 0
    omega
  · rintro ⟨hin, hzero⟩
    have hslot' : ∀ i < q.count, slot (q.getIdx + UInt32.ofNat i) =
        (q.getIdx.toNat + i) % maxJobsQueue := by
      intro i hi
      rw [hslot i hi, Nat.mod_eq_of_lt (show q.getIdx.toNat + i < 2 ^ 32 by omega)]
      rfl
    refine ⟨fun i hi j hj hij => ?_, fun hfull i hi => ?_⟩
    · rw [hslot' i hi, hslot' j hj]
      rcases Nat.lt_or_gt_of_ne hij with hlt | hlt
      · exact mod_ne_of_lt hlt (by show _ < _ + 15; omega)
      · exact (mod_ne_of_lt hlt (by show _ < _ + 15; omega)).symm
    · have hroom : q.count < maxJobsQueue := Nat.lt_of_le_of_ne h hfull
      rw [hslot' i hi, slot]
      rcases Nat.lt_or_eq_of_le hin with hlt | heq
      · rw [hp, Nat.mod_eq_of_lt hlt]
        exact mod_ne_of_lt hi (by omega)
      · rw [heq, Nat.mod_self] at hp
        rcases hzero (UInt32.toNat_inj.mp hp) with h0 | h15
        · omega
        · exact absurd h15 hfull

theorem Unwound.wrapFree (h : q.Unwound) : q.WrapFree := by
  have hp := q.putIdx.toNat_lt
  have hput := h.put
  refine ⟨by omega, fun hzero => .inl ?_⟩
  rw [hzero] at hput
  have hz : (0 : UInt32).toNat = 0 := rfl
  omega

theorem unwound_init : init.Unwound := ⟨by decide, by decide⟩

theorem Unwound.putJob {p : Ptr} (h : q.Unwound) (hbelow : q.BelowWrap (.putJob p))
    (hput : q.putJob p = some q') : q'.Unwound := by
  obtain ⟨hroom, hcount, rfl⟩ := putJob_next h.bound hput
  refine ⟨by omega, ?_⟩
  have hp := q.putIdx.toNat_lt
  have hwas := h.put
  have hone : (1 : UInt32).toNat = 1 := rfl
  have hnz : (q.putIdx + 1).toNat ≠ 0 := fun hz => hbelow (UInt32.toNat_inj.mp hz)
  have hnext : (q.put p).putIdx.toNat = (q.putIdx + 1).toNat := rfl
  have hsame : (q.put p).getIdx = q.getIdx := rfl
  rw [hnext, hsame, hcount]
  rw [UInt32.toNat_add, hone] at hnz ⊢
  omega

theorem Unwound.getJob {r : Option Ptr} (h : q.Unwound) (hget : q.getJob = some (r, q')) :
    q'.Unwound := by
  obtain ⟨hcount, -, hq⟩ := getJob_next hget
  have hbound := h.bound
  have hwas := h.put
  have hp := q.putIdx.toNat_lt
  have hone : (1 : UInt32).toNat = 1 := rfl
  have hget' : q'.getIdx.toNat = q.getIdx.toNat + 1 := by
    rw [hq]
    simp only [UInt32.toNat_add, hone]
    omega
  have hput' : q'.putIdx = q.putIdx := by rw [hq]
  exact ⟨by omega, by rw [hput']; omega⟩

theorem Unwound.removeJob {heap : Heap} {jobid : UInt16} {r : Removal} (h : q.Unwound)
    (hr : q.removeJob heap jobid = .ok r) : r.queue.Unwound := by
  by_cases hne : q.count = 0
  · rw [Queue.removeJob, if_pos hne] at hr
    injection hr with hr
    subst hr
    exact h
  · obtain ⟨_, jobs, -, -, hq, -⟩ := removeJob_split hne hr
    have hcount := @count_giveUp q jobs (leaveFull q.state) hne
    have hbound := h.bound
    have hwas := h.put
    have hp := q.putIdx.toNat_lt
    have hone : (1 : UInt32).toNat = 1 := rfl
    rw [hq]
    refine ⟨by omega, ?_⟩
    show (q.putIdx - 1).toNat = _
    rw [UInt32.toNat_sub, hone]
    show _ = q.getIdx.toNat + _
    omega

theorem Unwound.step {op : QueueOp} (h : q.Unwound) (hbelow : q.BelowWrap op)
    (hs : q.step op = some q') : q'.Unwound := by
  cases op with
  | putJob newJob => exact h.putJob hbelow hs
  | getJob =>
      obtain ⟨⟨r, q''⟩, hget, rfl⟩ := Option.map_eq_some_iff.mp hs
      exact h.getJob hget
  | removeJob heap jobid =>
      rw [Queue.step] at hs
      split at hs
      · next r hr =>
          injection hs with hs
          exact hs ▸ h.removeJob hr
      · cases hs

/-- The put that takes index `2 ^ 32 - 1` ends the soundness of the ring, unless
it fills the queue, and then the next dequeue does. -/
theorem put_last_index {p : Ptr} (hq : q.count ≤ maxJobsQueue) (hlast : q.putIdx + 1 = 0)
    (hput : q.putJob p = some q') :
    ∃ q'', (q'' = q' ∨ q'.step .getJob = some q'') ∧ ¬ q''.RingSound := by
  have hcap : maxJobsQueue = 15 := rfl
  obtain ⟨hroom, hcount, rfl⟩ := putJob_next hq hput
  have hzero : (q.put p).putIdx = 0 := hlast
  by_cases hfull : (q.put p).count = maxJobsQueue
  · obtain ⟨q'', hget⟩ : ∃ q'', (q.put p).getJob = some q'' :=
      ⟨_, if_neg (show (q.put p).count ≠ 0 by omega)⟩
    obtain ⟨hcount', -, hq''⟩ := @getJob_next _ q''.2 q''.1 hget
    refine ⟨q''.2, .inr (by rw [Queue.step, hget]; rfl), fun hs => ?_⟩
    have hzero' : q''.2.putIdx = 0 := by rw [hq'']; exact hzero
    rcases ((ringSound_iff (by omega)).mp hs).2 hzero' with h0 | h15
    · omega
    · omega
  · refine ⟨_, .inl rfl, fun hs => ?_⟩
    rcases ((ringSound_iff (by omega)).mp hs).2 hzero with h0 | h15
    · omega
    · exact hfull h15

/-- The ring is sound in every run in which no put takes index `2 ^ 32 - 1`, and
one that does ends that at once or at the next dequeue. Of all states, those
are sound whose window does not hold both indices. -/
theorem ring_sound_below_wrap (q : Queue) :
    (Reach step BelowWrap (· = init) q → q.RingSound) ∧
      (Reach step anyStep (· = init) q → ∀ p q', ¬ q.BelowWrap (.putJob p) →
        q.putJob p = some q' →
        ∃ q'', (q'' = q' ∨ q'.step .getJob = some q'') ∧ ¬ q''.RingSound) ∧
      (Reach step anyStep (· = init) q → (q.RingSound ↔ q.WrapFree)) := by
  refine ⟨fun h => ?_, fun h p q' hlast hput => ?_, fun h => ?_⟩
  · have hu : q.Unwound := h.invariant (fun _ h => h ▸ unwound_init)
      fun _ _ _ _ hu hbelow hs => hu.step hbelow hs
    exact (ringSound_iff hu.bound).mpr hu.wrapFree
  · exact put_last_index (flagged_of_reach h).bound (not_not.mp hlast) hput
  · exact ringSound_iff (flagged_of_reach h).bound

/-- The queue is filled, half emptied and filled again, which takes it once round
the array. -/
theorem ring_sound_below_wrap_filled : ∃ q : Queue, q.count = maxJobsQueue ∧ q.putIdx = 22 ∧
    q.RingSound := by
  obtain ⟨q, hq, hcount, hput⟩ : ∃ q, Reach step BelowWrap (· = init) q ∧
      q.count = maxJobsQueue ∧ q.putIdx = 22 :=
    @reach_of_checkedRun _ _ _ _ _ _ (List.replicate 15 (.putJob 0) ++
      List.replicate 7 .getJob ++ List.replicate 7 (.putJob 1)) _ _ _ rfl (by decide +kernel)
  exact ⟨q, hcount, hput, (ring_sound_below_wrap q).1 hq⟩

/-- Jobs put and taken one at a time. -/
theorem reach_index (n : Nat) : ∃ q, Reach step (fun _ op => op.Moves) (· = init) q ∧
    q.putIdx = UInt32.ofNat n ∧ q.getIdx = UInt32.ofNat n := by
  induction n with
  | zero => exact ⟨init, .start rfl, rfl, rfl⟩
  | succ n ih =>
      obtain ⟨q, hq, hput, hget⟩ := ih
      have hempty : q.count = 0 := by rw [count, hput, hget, UInt32.sub_self]; rfl
      have hcap : maxJobsQueue = 15 := rfl
      have hput' : q.step (.putJob 0) = some (q.put 0) :=
        if_neg (show q.count ≠ maxJobsQueue by omega)
      have hcount : (q.put 0).count = 1 := by rw [count_put 0 (by omega), hempty]
      have hget' : (q.put 0).getJob = some ((q.put 0).jobAt (q.put 0).getIdx,
          { q.put 0 with getIdx := (q.put 0).getIdx + 1, state := leaveFull (q.put 0).state }) :=
        if_neg (show (q.put 0).count ≠ 0 by omega)
      refine ⟨{ q.put 0 with
          getIdx := (q.put 0).getIdx + 1, state := leaveFull (q.put 0).state },
        .step (a := .getJob) (.step (a := .putJob 0) hq trivial hput') trivial
          (by rw [Queue.step, hget']; rfl), ?_, ?_⟩
      · show q.putIdx + 1 = _
        rw [hput, UInt32.ofNat_add]
        rfl
      · show q.getIdx + 1 = _
        rw [hget, UInt32.ofNat_add]
        rfl

/-- After `2 ^ 32 - 1` jobs put and taken the next one goes to slot 0, and so
would the one behind it. -/
theorem ring_unsound_at_wrap :
    ∃ q, Reach step (fun _ op => op.Moves) (· = init) q ∧ ¬ q.RingSound := by
  obtain ⟨q, hq, hput, hget⟩ := reach_index (2 ^ 32 - 1)
  have hempty : q.count = 0 := by rw [count, hput, hget, UInt32.sub_self]; rfl
  have hcap : maxJobsQueue = 15 := rfl
  have hput' : q.step (.putJob 0) = some (q.put 0) :=
    if_neg (show q.count ≠ maxJobsQueue by omega)
  have hcount : (q.put 0).count = 1 := by rw [count_put 0 (by omega), hempty]
  refine ⟨q.put 0, .step (a := .putJob 0) hq trivial hput', fun hs => ?_⟩
  have hzero : (q.put 0).putIdx = 0 := by
    show q.putIdx + 1 = 0
    rw [hput]
    rfl
  rcases ((ringSound_iff (by omega)).mp hs).2 hzero with h0 | h15
  · omega
  · omega

end Queue

end DistQueue
