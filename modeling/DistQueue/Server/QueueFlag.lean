import DistQueue.Server.Places

/-!
# The flag of a queue

`state` is kept up to date a step at a time: `putJob` sets it when it takes the
last place, and whoever gives up a place clears it. Each of the three sections
moves the count by one, in unsigned arithmetic, so the flag and the count agree
however often the two indices have wrapped.
-/

namespace DistQueue

open DistQueue.Lib

/-- The three sections that change a queue. -/
inductive QueueOp
  | putJob (newJob : Ptr)
  | getJob
  | removeJob (heap : Heap) (jobid : UInt16)

namespace Queue

variable {q q' : Queue}

/-- A section that goes through; `none` for one that waits, and for a `removeJob`
that leaves the array. -/
def step (q : Queue) : QueueOp → Option Queue
  | .putJob newJob => q.putJob newJob
  | .getJob => q.getJob.map Prod.snd
  | .removeJob heap jobid =>
      match q.removeJob heap jobid with
      | .ok r => some r.queue
      | .error _ => none

/-- The flag says what the count says. -/
structure Flagged (q : Queue) : Prop where
  bound : q.count ≤ maxJobsQueue
  full : q.state = QueueState.full.toByte ↔ q.count = maxJobsQueue
  avail : q.state = QueueState.full.toByte ∨ q.state = QueueState.avail.toByte

theorem flagged_init : init.Flagged := ⟨by decide, by decide, by decide⟩

theorem leaveFull_eq {state : UInt8}
    (h : state = QueueState.full.toByte ∨ state = QueueState.avail.toByte) :
    leaveFull state = QueueState.avail.toByte := by
  rcases h with rfl | rfl <;> rfl

/-- A queue that has given up a place. -/
theorem Flagged.leave (h : q.Flagged) (hcount : q'.count + 1 = q.count)
    (hstate : q'.state = leaveFull q.state) : q'.Flagged := by
  have hbound := h.bound
  have havail : q'.state = QueueState.avail.toByte := by rw [hstate, leaveFull_eq h.avail]
  refine ⟨by omega, ?_, .inr havail⟩
  rw [havail]
  exact ⟨fun h => absurd h (by decide), fun h => by omega⟩

theorem Flagged.putJob {p : Ptr} (h : q.Flagged) (hput : q.putJob p = some q') :
    q'.Flagged := by
  obtain ⟨hlt, hcount, rfl⟩ := putJob_next h.bound hput
  by_cases hlast : q.count = maxJobsQueue - 1
  · have hstate : (q.put p).state = QueueState.full.toByte := if_pos hlast
    exact ⟨by omega, ⟨fun _ => by omega, fun _ => hstate⟩, .inl hstate⟩
  · have hstate : (q.put p).state = q.state := if_neg hlast
    refine ⟨by omega, ?_, by rw [hstate]; exact h.avail⟩
    rw [hstate, h.full]
    omega

theorem Flagged.getJob {r : Option Ptr} (h : q.Flagged) (hget : q.getJob = some (r, q')) :
    q'.Flagged := by
  obtain ⟨hcount, -, hq⟩ := getJob_next hget
  exact h.leave hcount (by rw [hq])

theorem Flagged.removeJob {heap : Heap} {jobid : UInt16} {r : Removal} (h : q.Flagged)
    (hr : q.removeJob heap jobid = .ok r) : r.queue.Flagged := by
  rcases removeJob_next hr with ⟨-, rfl⟩ | ⟨hcount, hstate, -⟩
  · exact h
  · exact h.leave hcount hstate

theorem Flagged.step {op : QueueOp} (h : q.Flagged) (hs : q.step op = some q') :
    q'.Flagged := by
  cases op with
  | putJob newJob => exact h.putJob hs
  | getJob =>
      obtain ⟨⟨r, q''⟩, hget, rfl⟩ := Option.map_eq_some_iff.mp hs
      exact h.getJob hget
  | removeJob heap jobid =>
      rw [Queue.step] at hs
      split at hs
      · next r hr =>
          injection hs with hs
          exact hs ▸ h.removeJob hr
      · cases hs

theorem flagged_of_reach (h : Reach step anyStep (· = init) q) : q.Flagged :=
  h.invariant (fun _ h => h ▸ flagged_init) fun _ _ _ _ hf _ hs => hf.step hs

theorem Flagged.waits (h : q.Flagged) (p : Ptr) :
    q.putJob p = none ↔ q.state = QueueState.full.toByte := by
  rw [h.full, putJob_eq_none]

end Queue

/-! ## The queues of the server -/

variable {N : Nat}

/-- What happens to a queue of the server is a run of its sections. -/
theorem queue_reach [NeZero N] {ok : Sys N → Action → Prop} {s : Sys N}
    (h : Reach Sys.step ok (· = Sys.init N) s) (i : Fin N) :
    Reach Queue.step anyStep (· = Queue.init) (s.server.queue i) := by
  refine h.invariant (I := fun s => Reach Queue.step anyStep (· = Queue.init) (s.server.queue i))
    ?_ ?_
  · intro s h
    subst h
    exact .start rfl
  · intro s a s' _ hq _ h
    rcases (step_cases h).2.server_cases with ⟨hserver, -⟩ | ⟨t, env, pc, r, -, -, hran, rfl⟩
    · rw [hserver]
      exact hq
    · show Reach Queue.step anyStep (· = Queue.init) (r.server.queue i)
      cases hran.queue i with
      | keep hkeep => rw [hkeep]; exact hq
      | put hput hserver =>
          rw [hserver, setQueue_same]
          exact .step (a := .putJob _) hq trivial hput
      | get hget hserver =>
          rw [hserver, setQueue_same]
          exact .step (a := .getJob) hq trivial (by rw [Queue.step, hget]; rfl)
      | @remove jobid found rm r hr hserver =>
          rw [hserver, setQueue_same]
          exact .step (a := .removeJob s.heap jobid) hq trivial (by rw [Queue.step, hr])

theorem queueStateSection_eq (server : MainServer N) (heap : Heap) {i : Fin N} {queueid : UInt8}
    (hi : queueid.toNat = i) :
    queueStateSection server heap queueid =
      stay server heap (.reply (.queueState ⟨(server.queue i).state, queueid⟩)) := by
  have hlt : queueid.toNat < N := hi ▸ i.isLt
  have hsame : (⟨queueid.toNat, hlt⟩ : Fin N) = i := Fin.ext hi
  rw [queueStateSection, dif_pos hlt, hsame]

/-- After any sequence of the sections of a queue the count is at most
`MAX_JOBS_QUEUE`, and the flag is `STATE_FULL` exactly when it is that. So
`queueState` answers `STATE_FULL` exactly when a `putJob` would wait. -/
theorem flag_agrees_with_occupancy :
    (∀ q : Queue, Reach Queue.step anyStep (· = Queue.init) q →
      q.count ≤ maxJobsQueue ∧
      (q.state = QueueState.full.toByte ↔ q.count = maxJobsQueue) ∧
      (q.state = QueueState.full.toByte ∨ q.state = QueueState.avail.toByte)) ∧
    ∀ (N : Nat) [NeZero N] (s : Sys N), Reach Sys.step anyStep (· = Sys.init N) s →
      ∀ (i : Fin N) (queueid : UInt8), queueid.toNat = i → ∃ state,
        queueStateSection s.server s.heap queueid =
          stay s.server s.heap (.reply (.queueState ⟨state, queueid⟩)) ∧
        ∀ t caller job, state = QueueState.full.toByte ↔
          (s.server.queue i).putJob job = none ∧
            putJobSection s.server s.heap t caller i job =
              stay s.server s.heap (.putJob caller i job .blocked) := by
  refine ⟨fun q h => ?_, fun N _ s h i queueid hi => ?_⟩
  · have hf := Queue.flagged_of_reach h
    exact ⟨hf.bound, hf.full, hf.avail⟩
  · have hf := Queue.flagged_of_reach (queue_reach h i)
    refine ⟨_, queueStateSection_eq s.server s.heap hi, fun t caller job => ?_⟩
    rw [← hf.waits job]
    constructor
    · intro hnone
      exact ⟨hnone, by rw [putJobSection, hnone]⟩
    · exact fun h => h.1

/-- Fifteen jobs fill a queue, and a dequeue makes room again. -/
theorem flag_agrees_with_occupancy_full :
    ∃ q : Queue, Reach Queue.step anyStep (· = Queue.init) q ∧ q.count = 14 ∧
      q.state ≠ QueueState.full.toByte := by
  obtain ⟨q, hr, hcount⟩ :
      ∃ q, Reach Queue.step anyStep (· = Queue.init) q ∧ q.count = 14 :=
    @reach_of_checkedRun _ _ _ _ _ _
      (.putJob 0 :: .getJob :: List.replicate 15 (.putJob 0) ++ [.getJob]) _ _ _ rfl
      (by decide +kernel)
  refine ⟨q, hr, hcount, fun hfull => ?_⟩
  have hocc := (flag_agrees_with_occupancy.1 q hr).2.1.mp hfull
  rw [hcount] at hocc
  cases hocc

end DistQueue
