import DistQueue.Server.Faults
import DistQueue.Server.Retention

/-!
# Shutting down

`MainServerDestroy` frees what the queues and the history still have. A block
must be allocated when it goes to `free`, so that it comes through at all says
that nothing is freed twice; the rest is an account of where every block is at
the end. The threads of the connections are not told: what they hold stays
allocated, and one of them inside a wait has a mutex and a condition variable in
use, which `QueueDestroy` takes for a reason to end the process.

The blocks of the queues themselves are left out.
-/

namespace DistQueue

open DistQueue.Lib

/-! ## The code -/

/-- `free(p)`, which has to be a block that is allocated. -/
def Heap.release (heap : Heap) (p : Ptr) : Except Fault Heap :=
  match heap.load p with
  | some _ => .ok (heap.free p)
  | none => .error .invalidAccess

/-- The loop of `QueueDestroy`, over the slots it has to go through. -/
def freeJobs : Heap → List (Option Ptr) → Except Fault Heap
  | heap, [] => .ok heap
  | _, none :: _ => .error .invalidAccess
  | heap, some p :: slots => (heap.release p).bind fun heap => freeJobs heap slots

/-- Which of its three calls `QueueDestroy` gets 0 from: those for the mutex, for
`put_condv` and for `get_condv`. -/
structure DestroyCalls where
  queueMtx : Bool
  putCondv : Bool
  getCondv : Bool
  deriving DecidableEq, Repr

/-- `QueueDestroy`, and whether it comes back: each of the calls that fails is
followed by `exit(-1)`. -/
def Queue.destroy (q : Queue) (calls : DestroyCalls) (heap : Heap) : Except Fault (Heap × Bool) :=
  if calls.queueMtx then
    if calls.putCondv then
      if calls.getCondv then (freeJobs heap q.live).map (·, true) else .ok (heap, false)
    else .ok (heap, false)
  else .ok (heap, false)

/-- The loop over the queues. -/
def destroyQueues {N : Nat} (server : MainServer N) (calls : Fin N → DestroyCalls) :
    List (Fin N) → Heap → Except Fault (Heap × Bool)
  | [], heap => .ok (heap, true)
  | i :: is, heap => do
      let (heap, back) ← (server.queue i).destroy (calls i) heap
      if back then destroyQueues server calls is heap else .ok (heap, false)

/-- `limit` -/
def History.limit (h : History) : Nat :=
  if h.putIdx.toNat < jobHistoryMax then h.putIdx.toNat else jobHistoryMax

/-- The records passed to `free`, which takes a null pointer, too. -/
def History.destroy (h : History) : List JobHistory :=
  (List.range h.limit).filterMap h.slot

/-- How `MainServerDestroy` ends, and what it leaves of the heap: at its end, with
these records freed, or in an `exit`. -/
inductive Shutdown
  | done (heap : Heap) (records : List JobHistory)
  | exited (heap : Heap)
  deriving DecidableEq, Repr

def Shutdown.heap : Shutdown → Heap
  | .done heap _ | .exited heap => heap

def Shutdown.records : Shutdown → List JobHistory
  | .done _ records => records
  | .exited _ => []

/-- What `pthread_mutex_destroy` returns for the two mutexes of the server is
printed and has no other effect. -/
def mainServerDestroy {N : Nat} (server : MainServer N) (calls : Fin N → DestroyCalls)
    (heap : Heap) : Except Fault Shutdown := do
  let (heap, back) ← destroyQueues server calls (List.finRange N) heap
  .ok (if back then .done heap server.history.destroy else .exited heap)

/-! ## The loops -/

section Loops

variable {heap : Heap} {p p' : Ptr} {slots : List (Option Ptr)}

theorem Heap.freed_free (hlt : p < heap.length) :
    (heap.free p).Freed p' ↔ p' = p ∨ heap.Freed p' := by
  constructor
  · exact Heap.freed_of_free
  · rintro (rfl | ⟨job, h⟩)
    · refine ⟨heap[p'].job, ?_⟩
      rw [Heap.getElem?_free, if_pos rfl, List.getElem?_eq_getElem hlt]
      rfl
    · refine ⟨job, ?_⟩
      rw [Heap.getElem?_free]
      split
      · rw [h]
        rfl
      · exact h

theorem Heap.load_free (hne : p' ≠ p) : (heap.free p).load p' = heap.load p' := by
  rw [Heap.load, Heap.getElem?_free, if_neg hne, Heap.load]

theorem freeJobs_append (slots' : List (Option Ptr)) :
    freeJobs heap (slots ++ slots') =
      (freeJobs heap slots).bind fun heap => freeJobs heap slots' := by
  induction slots generalizing heap with
  | nil => rfl
  | cons slot slots ih =>
      cases slot with
      | none => rfl
      | some p =>
          rw [List.cons_append, freeJobs, freeJobs]
          cases heap.release p with
          | error fault => rfl
          | ok heap => exact ih

/-- Slots that all have a job of their own are freed one by one. -/
theorem freeJobs_ok (hnodup : slots.Nodup)
    (hload : ∀ x ∈ slots, ∃ p job, x = some p ∧ heap.load p = some job) :
    ∃ heap', freeJobs heap slots = .ok heap' ∧ heap'.length = heap.length ∧
      ∀ p, heap'.Freed p ↔ some p ∈ slots ∨ heap.Freed p := by
  induction slots generalizing heap with
  | nil => exact ⟨heap, rfl, rfl, fun p => by simp⟩
  | cons slot slots ih =>
      obtain ⟨p, job, rfl, hp⟩ := hload slot List.mem_cons_self
      obtain ⟨hnot, hnodup⟩ := List.nodup_cons.mp hnodup
      obtain ⟨heap', hfree, hlength, hfreed⟩ := @ih (heap.free p) hnodup fun x hx => by
        obtain ⟨p', job', rfl, hp'⟩ := hload x (List.mem_cons_of_mem _ hx)
        have hne : p' ≠ p := fun heq => hnot (heq ▸ hx)
        exact ⟨p', job', rfl, (Heap.load_free hne).trans hp'⟩
      refine ⟨heap', ?_, ?_, fun p' => ?_⟩
      · rw [freeJobs, Heap.release, hp]
        exact hfree
      · rw [hlength, Heap.free, List.length_modify]
      · rw [hfreed, Heap.freed_free (Heap.lt_of_load hp), List.mem_cons, Option.some.injEq,
          or_left_comm, or_assoc]

end Loops

/-! ## What has been freed -/

section Freed

variable {N : Nat} [NeZero N] {server : MainServer N} {heap : Heap} {t : Nat} {env : Env}
  {pc : Pc N} {r : Result N} {p : Ptr}

/-- No section brings a block back, and one that sends a job frees it. -/
theorem Ran.freed_mono (h : Ran server heap t env pc r)
    (hp : heap.Freed p ∨ 0 < tally (Event.sentJob p) r.events) : r.heap.Freed p := by
  have hold : ∀ {p' : Ptr}, heap.Freed p → (heap.free p').Freed p := by
    rintro p' ⟨job, h⟩
    refine ⟨job, ?_⟩
    rw [Heap.getElem?_free]
    split
    · rw [h]
      rfl
    · exact h
  cases h with
  | submittedResponse hload =>
      refine (Heap.freed_store hload _).mpr (hp.resolve_right fun hsent => ?_)
      split at hsent <;> simp [Event.sentJob] at hsent
  | @removeJob jobid i found rm hr =>
      have hp := hp.resolve_right (by simp [Event.sentJob])
      dsimp only
      cases rm.freed with
      | none => exact hp
      | some p' => exact hold hp
  | @sent job contents hload =>
      rcases hp with hp | hsent
      · exact hold hp
      · have heq : p = job := by
          simp only [tally_cons, tally_nil, Event.sentJob, one] at hsent
          split at hsent
          · next heq => exact (Option.some.inj heq).symm
          · exact absurd hsent (by decide)
        rw [heq]
        exact (Heap.freed_free (Heap.lt_of_load hload)).mpr (.inl rfl)
  | relabelLost => exact hold (hp.resolve_right (by simp [Event.sentJob]))
  | reply =>
      refine hp.resolve_right fun hsent => ?_
      split at hsent <;> simp [Event.sentJob] at hsent
  | _ => exact hp.resolve_right (by simp [Event.sentJob])

/-- A job that was sent has been freed. -/
theorem sent_freed_of_reach {ok : Sys N → Action → Prop} {s : Sys N}
    (h : Reach Sys.step ok (· = Sys.init N) s) (p : Ptr) (hp : 0 < s.sent p) : s.heap.Freed p := by
  refine h.invariant (I := fun s => ∀ p, 0 < s.sent p → s.heap.Freed p) ?_ ?_ p hp
  · rintro _ rfl p hp
    exact absurd hp (Nat.lt_irrefl 0)
  · intro s a s' _ hold _ h p hp
    cases (step_cases h).2 with
    | @accepted t pkg blank job ht =>
        refine Heap.freed_malloc.mpr (hold p ?_)
        simpa [Sys.sent, Event.sentJob] using hp
    | @ran t env pc r ht hran =>
        refine hran.freed_mono ?_
        have hsent : 0 < s.sent p + tally (Event.sentJob p) r.events := by
          simpa [Sys.sent, Sys.commit] using hp
        rcases Nat.add_pos_iff_pos_or_pos.mp hsent with hsent | hsent
        · exact .inl (hold p hsent)
        · exact .inr hsent
    | _ => exact hold p hp

end Freed

/-! ## The jobs -/

section Jobs

variable {N : Nat} {server : MainServer N} {heap : Heap}

/-- All three calls for a queue return 0. -/
def DestroyCalls.Succeed (calls : DestroyCalls) : Prop :=
  calls.queueMtx = true ∧ calls.putCondv = true ∧ calls.getCondv = true

instance (calls : DestroyCalls) : Decidable calls.Succeed := inferInstanceAs (Decidable (_ ∧ _))

/-- The queues whose jobs are freed: those in front of the first one with a call
that fails. -/
def cleared (calls : Fin N → DestroyCalls) : List (Fin N) :=
  (List.finRange N).takeWhile fun i => decide (calls i).Succeed

/-- The slots that the loops over these queues go through. -/
def MainServer.cleared (server : MainServer N) (calls : Fin N → DestroyCalls) :
    List (Option Ptr) :=
  (DistQueue.cleared calls).flatMap fun i => (server.queue i).live

theorem destroy_eq (q : Queue) (calls : DestroyCalls) : q.destroy calls heap =
    if calls.Succeed then (freeJobs heap q.live).map (·, true) else .ok (heap, false) := by
  obtain ⟨queueMtx, putCondv, getCondv⟩ := calls
  cases queueMtx <;> cases putCondv <;> cases getCondv <;> rfl

theorem destroyQueues_eq (calls : Fin N → DestroyCalls) : ∀ (is : List (Fin N)) (heap : Heap),
    destroyQueues server calls is heap =
      (freeJobs heap ((is.takeWhile fun i => decide (calls i).Succeed).flatMap
        fun i => (server.queue i).live)).map (·, decide (∀ i ∈ is, (calls i).Succeed)) := by
  intro is
  induction is with
  | nil => exact fun _ => by simp [destroyQueues, freeJobs, Except.map]
  | cons i is ih =>
      intro heap
      rw [destroyQueues, destroy_eq]
      by_cases hi : (calls i).Succeed
      · rw [if_pos hi, List.takeWhile_cons_of_pos (p := fun i => decide (calls i).Succeed)
          (decide_eq_true hi), List.flatMap_cons, freeJobs_append]
        have hall : decide (∀ j ∈ i :: is, (calls j).Succeed) =
            decide (∀ j ∈ is, (calls j).Succeed) := by simp [hi]
        cases freeJobs heap (server.queue i).live with
        | error fault => rfl
        | ok heap =>
            rw [hall]
            exact ih heap
      · rw [if_neg hi, List.takeWhile_cons_of_neg (p := fun i => decide (calls i).Succeed)
          (by simpa using hi)]
        have hall : decide (∀ j ∈ i :: is, (calls j).Succeed) = false := by simp [hi]
        rw [hall]
        rfl

/-- Where `MainServerDestroy` ends depends on the calls, and what it frees on the
queues in front of the one that fails. -/
theorem mainServerDestroy_eq (calls : Fin N → DestroyCalls) :
    mainServerDestroy server calls heap = (freeJobs heap (server.cleared calls)).map fun heap =>
      if ∀ i, (calls i).Succeed then .done heap server.history.destroy else .exited heap := by
  rw [mainServerDestroy, destroyQueues_eq]
  have hall : (∀ i ∈ List.finRange N, (calls i).Succeed) ↔ ∀ i, (calls i).Succeed := by simp
  show Except.bind (Except.map _ (freeJobs heap (server.cleared calls))) _ = _
  cases freeJobs heap (server.cleared calls) with
  | error fault => rfl
  | ok heap =>
      show Except.ok (if decide _ = true then _ else _) = _
      simp only [hall, decide_eq_true_eq]
      rfl

theorem mem_cleared {calls : Fin N → DestroyCalls} {x : Option Ptr} :
    x ∈ server.cleared calls ↔ ∃ i ∈ cleared calls, x ∈ (server.queue i).live :=
  List.mem_flatMap

theorem cleared_all {calls : Fin N → DestroyCalls} (h : ∀ i, (calls i).Succeed) :
    cleared calls = List.finRange N :=
  List.takeWhile_eq_self_iff.mpr fun i _ => decide_eq_true (h i)

theorem count_live (p : Ptr) :
    ((List.finRange N).flatMap fun i => (server.queue i).live).count (some p) =
      server.inQueues p := by
  rw [List.count_flatMap, MainServer.inQueues, Fin.sum_univ_def]
  rfl

theorem count_cleared_le (calls : Fin N → DestroyCalls) (p : Ptr) :
    (server.cleared calls).count (some p) ≤ server.inQueues p := by
  have hsub : List.Sublist (server.cleared calls)
      ((List.finRange N).flatMap fun i => (server.queue i).live) :=
    (List.takeWhile_sublist _).flatMap _
  exact (hsub.count_le _).trans (Nat.le_of_eq (count_live p))

theorem Sys.Sound.cleared_nodup {s : Sys N} (hs : s.Sound) (calls : Fin N → DestroyCalls) :
    (s.server.cleared calls).Nodup := by
  rw [List.nodup_iff_count_le_one]
  intro x
  by_cases hx : x ∈ s.server.cleared calls
  · obtain ⟨i, -, hi⟩ := mem_cleared.mp hx
    obtain ⟨p, rfl⟩ := hs.live i x hi
    have hle : (s.server.cleared calls).count (some p) ≤ s.server.inQueues p :=
      count_cleared_le calls p
    have hconserved := hs.conserved p
    simp only [Sys.inQueues] at hconserved
    split at hconserved <;> omega
  · rw [List.count_eq_zero.mpr hx]
    exact Nat.zero_le 1

end Jobs

section Runs

variable {N : Nat} [NeZero N] {s : Sys N}

/-- It frees no job twice and none that was freed before. -/
theorem shutdown_ok (h : Reach Sys.step Sys.InBounds (· = Sys.init N) s) (hb : s.Bounded)
    (calls : Fin N → DestroyCalls) :
    ∃ heap, mainServerDestroy s.server calls s.heap =
        .ok (if ∀ i, (calls i).Succeed then .done heap s.server.history.destroy
          else .exited heap) ∧
      heap.length = s.heap.length ∧
      ∀ p, heap.Freed p ↔ some p ∈ s.server.cleared calls ∨ s.heap.Freed p := by
  have hreach := reach_indexOk h hb
  have hs : s.Sound := sound_of_reach (fun _ _ h => h.1) hreach
  have hf : s.FreedGone := freedGone_of_reach (fun _ _ h => ⟨h.1, h.2.1⟩) hreach
  obtain ⟨heap, hfree, hlength, hfreed⟩ := freeJobs_ok (hs.cleared_nodup calls) fun x hx => by
    obtain ⟨i, -, hi⟩ := mem_cleared.mp hx
    exact load_of_live hs hf hi
  refine ⟨heap, ?_, hlength, hfreed⟩
  rw [mainServerDestroy_eq, hfree]
  rfl

/-- Whatever the server has been through inside its memory, and whatever the
calls for the queues return, `MainServerDestroy` frees no job twice and none that
was freed before. The jobs it frees are those of the queues in front of the first
one with a call that fails. When there is none, the jobs that are left over are
those a thread still has, and those that `removeJob` dropped. -/
theorem shutdown_frees_once (h : Reach Sys.step Sys.InBounds (· = Sys.init N) s)
    (hb : s.Bounded) (calls : Fin N → DestroyCalls) :
    ∃ e, mainServerDestroy s.server calls s.heap = .ok e ∧ e.heap.length = s.heap.length ∧
      (∀ p, e.heap.Freed p ↔
        (∃ i ∈ cleared calls, some p ∈ (s.server.queue i).live) ∨ s.heap.Freed p) ∧
      ((∃ heap, e = .exited heap) ↔ ∃ i, ¬ (calls i).Succeed) ∧
      ((∀ i, (calls i).Succeed) → ∀ p < e.heap.length,
        (e.heap.Freed p ↔ s.inQueues p = 1 ∨ s.heap.Freed p) ∧
        (¬ e.heap.Freed p ↔ s.held p = 1 ∨ s.gone p = 1 ∧ ¬ s.heap.Freed p)) := by
  have hreach := reach_indexOk h hb
  have hs : s.Sound := sound_of_reach (fun _ _ h => h.1) hreach
  have hf : s.FreedGone := freedGone_of_reach (fun _ _ h => ⟨h.1, h.2.1⟩) hreach
  obtain ⟨heap, hdestroy, hlength, hfreed⟩ := shutdown_ok h hb calls
  have hheap : (if ∀ i, (calls i).Succeed then Shutdown.done heap s.server.history.destroy
      else .exited heap).heap = heap := by
    split <;> rfl
  refine ⟨_, hdestroy, by rw [hheap, hlength], fun p => ?_, ?_, fun hall p hp => ?_⟩
  · rw [hheap, hfreed, mem_cleared]
  · rw [← not_forall]
    split
    · next hall => exact ⟨fun ⟨_, he⟩ => (by cases he), fun hnot => absurd hall hnot⟩
    · next hnot => exact ⟨fun _ => hnot, fun _ => ⟨heap, rfl⟩⟩
  · rw [hheap] at hp ⊢
    have hconserved := hs.conserved p
    rw [if_pos (hlength ▸ hp)] at hconserved
    have hlive : some p ∈ s.server.cleared calls ↔ s.inQueues p = 1 := by
      rw [MainServer.cleared, cleared_all hall, ← List.count_pos_iff, count_live]
      show 0 < s.inQueues p ↔ _
      omega
    have hfreed := (hfreed p).trans (or_congr hlive Iff.rfl)
    have hgone := hf p
    have hsent := sent_freed_of_reach h p
    refine ⟨hfreed, ?_⟩
    rw [hfreed]
    by_cases hold : s.heap.Freed p
    · have := hgone hold
      simp only [hold, or_true, not_true_eq_false, and_false, or_false, false_iff]
      omega
    · have hnot : s.sent p = 0 := by
        by_contra hne
        exact hold (hsent (Nat.pos_of_ne_zero hne))
      simp only [hold, or_false, not_false_eq_true, and_true]
      omega

end Runs

/-- One job is queued and another is still with its thread. -/
def heldRun : List Action :=
  [.acceptClient, .acceptClient, .submit 0, .go 0, .go 0, .go 0, .go 0, .submit 1, .go 1]

/-- The queued job is freed, unless a call for its queue fails. -/
theorem shutdown_frees_once_held :
    ∃ s : Sys numQueueMax, s.inQueues 0 = 1 ∧ s.held 1 = 1 ∧
      (∃ e, mainServerDestroy s.server (fun _ => ⟨true, true, true⟩) s.heap = .ok e ∧
        e.heap.Freed 0 ∧ ¬ e.heap.Freed 1) ∧
      ∃ e, mainServerDestroy s.server (fun _ => ⟨true, true, false⟩) s.heap = .ok e ∧
        ∃ heap, e = .exited heap := by
  obtain ⟨s, hr, hb, hqueued, hheld, hlength⟩ : ∃ s : Sys numQueueMax,
      Reach Sys.step Sys.InBounds (· = Sys.init numQueueMax) s ∧ s.Bounded ∧
        s.inQueues 0 = 1 ∧ s.held 1 = 1 ∧ s.heap.length = 2 :=
    @reach_of_checkedRun _ _ _ _ _ _ heldRun _ _ _ rfl (by decide +kernel)
  obtain ⟨e, he, hlen, -, -, hall⟩ := shutdown_frees_once hr hb fun _ => ⟨true, true, true⟩
  obtain ⟨e', he', -, -, hexited, -⟩ := shutdown_frees_once hr hb fun _ => ⟨true, true, false⟩
  have hall := hall fun _ => ⟨rfl, rfl, rfl⟩
  refine ⟨s, hqueued, hheld, ⟨e, he, ?_, ?_⟩, e', he', hexited.mpr ⟨0, by decide⟩⟩
  · exact (hall 0 (by omega)).1.mpr (.inl hqueued)
  · exact (hall 1 (by omega)).2.mpr (.inl hheld)

/-! ## The records -/

namespace History

/-- The record an operation passes to `free`. -/
def frees (h : History) : HistOp → Option JobHistory
  | .newJob jobHistory queueIdx ipaddr =>
      (h.newJob (setParamsNewJobHistory jobHistory queueIdx ipaddr)).freed
  | _ => none

/-- The record an operation overwrites the last pointer to, without a `free`. -/
def drops (h : History) : HistOp → Option JobHistory
  | .newJob .. =>
      let id := h.putIdx.toUInt16
      if jobHistoryMax ≤ id.toNat then none else h.slot (slotOf id)
  | _ => none

/-- The account of the records, as far as they are not in the array any more. -/
structure Ledger where
  history : History
  freed : List Ptr
  lost : List Ptr

def Ledger.apply (l : Ledger) (op : HistOp) : Except Fault Ledger :=
  (l.history.apply op).map fun h =>
    { history := h
      freed := l.freed ++ ((l.history.frees op).map JobHistory.addr).toList
      lost := l.lost ++ ((l.history.drops op).map JobHistory.addr).toList }

def ledger (ops : List HistOp) : Except Fault Ledger := ops.foldlM Ledger.apply ⟨init, [], []⟩

/-- How often the array has the record made for `p`. -/
def kept (h : History) (p : Ptr) : Nat :=
  tally (fun c => one ((h.slot c).map JobHistory.addr) p) (List.range jobHistoryMax)

/-- The submissions whose id is one of the first, once more. -/
def unevicting (n : Nat) : List Nat :=
  (List.range n).filter fun k => 2 ^ 16 ≤ k ∧ k % 2 ^ 16 < jobHistoryMax

theorem ledger_append (ops : List HistOp) (op : HistOp) :
    ledger (ops ++ [op]) = (ledger ops).bind fun l => l.apply op := by
  rw [ledger, List.foldlM_append, ← ledger]
  cases ledger ops with
  | error fault => rfl
  | ok l => exact bind_pure (l.apply op)

structure Ledger.Balanced (l : Ledger) (ops : List HistOp) : Prop where
  count : ∀ p, (jobsOf ops).count p = l.freed.count p + l.lost.count p + l.history.kept p
  lost : l.lost.length = (unevicting (submissions ops)).length

section Step

variable {h h' : History} {n : Nat} {p : Ptr} {op : HistOp} {ops : List HistOp} {l l' : Ledger}

theorem count_toList (o : Option Ptr) (p : Ptr) : o.toList.count p = one o p := by
  cases o with
  | none => rfl
  | some p' => simp [one, List.count_singleton]

/-- What a submission takes the place of is freed, or lost. -/
theorem replaced_eq (hinv : h.Inv n) (jobHistory : JobHistory) (queueIdx : UInt16)
    (ipaddr : UInt32) :
    h.frees (.newJob jobHistory queueIdx ipaddr) =
        (if jobHistoryMax ≤ (idOf n).toNat then h.slot (slotOf (idOf n)) else none) ∧
      h.drops (.newJob jobHistory queueIdx ipaddr) =
        (if jobHistoryMax ≤ (idOf n).toNat then none else h.slot (slotOf (idOf n))) := by
  have hid := putIdx_eq hinv
  refine ⟨?_, by rw [drops, hid]⟩
  have hlt := slotOf_lt (idOf n)
  have hslot : h.slot (slotOf (idOf n)) = h.jobArray[slotOf (idOf n)] := by
    rw [slot, Vector.getElem?_eq_getElem hlt]
    rfl
  rw [frees, newJob, hslot]
  simp only [hid]
  rfl

theorem kept_newJob (hinv : h.Inv n) {jobHistory : JobHistory} {queueIdx : UInt16}
    {ipaddr : UInt32} (hop : h.apply (.newJob jobHistory queueIdx ipaddr) = .ok h') (p : Ptr) :
    h'.kept p + one ((h.slot (slotOf (idOf n))).map JobHistory.addr) p =
      h.kept p + one (some jobHistory.addr) p := by
  have hslot := apply_slot hinv hop
  have hnew : (h'.slot (slotOf (idOf n))).map JobHistory.addr = some jobHistory.addr := by
    rw [hslot, slotAfter, if_pos rfl]
    rfl
  have hchange := tally_change (l := List.range jobHistoryMax) (a := slotOf (idOf n))
    (f := fun c => one ((h.slot c).map JobHistory.addr) p)
    (g := fun c => one ((h'.slot c).map JobHistory.addr) p) List.nodup_range
    (List.mem_range.mpr (slotOf_lt _)) fun c hc => by
      rw [hslot, slotAfter, if_neg hc]
  rw [hnew] at hchange
  exact hchange

theorem kept_other (hinv : h.Inv n) (hop : h.apply op = .ok h') (hjob : op.job = none) (p : Ptr) :
    h'.kept p = h.kept p := by
  refine tally_congr fun c _ => ?_
  rw [apply_slot hinv hop c]
  cases op with
  | newJob => cases hjob
  | _ => cases h.slot c <;> simp [slotAfter]

theorem unevicting_succ (n : Nat) :
    unevicting (n + 1) =
      unevicting n ++ if 2 ^ 16 ≤ n ∧ n % 2 ^ 16 < jobHistoryMax then [n] else [] := by
  rw [unevicting, List.range_succ, List.filter_append, ← unevicting]
  congr 1
  simp only [List.filter_cons, List.filter_nil, decide_eq_true_eq]

/-- A record is lost from the second round of the ids on. -/
theorem length_dropped (hinv : h.Inv n) :
    ((if jobHistoryMax ≤ (idOf n).toNat then none
        else h.slot (slotOf (idOf n))).map JobHistory.addr).toList.length =
      (if 2 ^ 16 ≤ n ∧ n % 2 ^ 16 < jobHistoryMax then [n] else []).length := by
  have hid : (idOf n).toNat = n % 2 ^ 16 := UInt16.toNat_ofNat'
  have hmax : jobHistoryMax = 10 := rfl
  by_cases hlarge : jobHistoryMax ≤ (idOf n).toNat
  · rw [if_pos hlarge, if_neg (by omega)]
    rfl
  · rw [if_neg hlarge]
    have hslot : slotOf (idOf n) = n % 2 ^ 16 := by
      rw [slotOf, hid]
      exact Nat.mod_eq_of_lt (by omega)
    have hfilled := hinv.filled _ (slotOf_lt (idOf n))
    rw [hslot] at hfilled ⊢
    cases hold : h.slot (n % 2 ^ 16) with
    | none =>
        have hle := hfilled.mp hold
        rw [if_neg (by omega)]
        rfl
    | some job =>
        have hnot : ¬ n ≤ n % 2 ^ 16 := fun hle => by
          rw [hfilled.mpr hle] at hold
          cases hold
        rw [if_pos (by omega)]
        rfl

theorem Ledger.Balanced.step (hb : l.Balanced ops) (hinv : l.history.Inv (submissions ops))
    (hop : l.apply op = .ok l') : l'.Balanced (ops ++ [op]) := by
  rw [Ledger.apply] at hop
  cases happly : l.history.apply op with
  | error fault =>
      rw [happly] at hop
      cases hop
  | ok h' =>
      rw [happly] at hop
      cases hop
      cases hjob : op.job with
      | none =>
          have hnothing : l.history.frees op = none ∧ l.history.drops op = none ∧
              submissions [op] = 0 := by
            cases op with
            | newJob => cases hjob
            | _ => exact ⟨rfl, rfl, rfl⟩
          obtain ⟨hfrees, hdrops, hcount⟩ := hnothing
          refine ⟨fun p => ?_, ?_⟩
          · rw [jobsOf, List.filterMap_append, List.filterMap_cons_none hjob, ← jobsOf]
            simpa [hfrees, hdrops, kept_other hinv happly hjob] using hb.count p
          · rw [submissions_append, hcount]
            simpa [hdrops] using hb.lost
      | some addr =>
          obtain ⟨blank, queueIdx, ipaddr, rfl⟩ : ∃ blank queueIdx ipaddr,
              op = .newJob blank queueIdx ipaddr := by
            cases op with
            | newJob blank queueIdx ipaddr => exact ⟨_, _, _, rfl⟩
            | _ => cases hjob
          obtain ⟨hfrees, hdrops⟩ := replaced_eq hinv blank queueIdx ipaddr
          refine ⟨fun p => ?_, ?_⟩
          · have hkept := kept_newJob hinv happly p
            have hold := hb.count p
            have hjobs : jobsOf (ops ++ [.newJob blank queueIdx ipaddr]) =
                jobsOf ops ++ (some blank.addr).toList := by
              rw [jobsOf, List.filterMap_append]
              rfl
            simp only [hjobs, hfrees, hdrops, List.count_append, count_toList]
            split
            · simp only [Option.map_none, one, reduceCtorEq, if_false] at hkept ⊢
              omega
            · simp only [Option.map_none, one, reduceCtorEq, if_false] at hkept ⊢
              omega
          · rw [submissions_append, show submissions [.newJob blank queueIdx ipaddr] = 1 from rfl,
              unevicting_succ]
            simp only [List.length_append, hb.lost, hdrops]
            congr 1
            exact length_dropped hinv

theorem ledger_ok : ∀ {ops : List HistOp} {h : History}, run ops = .ok h →
    ∃ freed lost, ledger ops = .ok ⟨h, freed, lost⟩ ∧ Ledger.Balanced ⟨h, freed, lost⟩ ops := by
  intro ops
  induction ops using List.reverseRecOn with
  | nil =>
      intro h hrun
      cases hrun
      refine ⟨[], [], rfl, fun p => ?_, rfl⟩
      have hkept : init.kept p = 0 := tally_eq_zero fun c _ => by rw [slot_init]; rfl
      rw [hkept]
      rfl
  | append_singleton ops op ih =>
      intro h' hrun
      rw [run_append] at hrun
      cases hbefore : run ops with
      | error fault =>
          rw [hbefore] at hrun
          cases hrun
      | ok h =>
          rw [hbefore] at hrun
          obtain ⟨freed, lost, hledger, hb⟩ := ih hbefore
          have hstep : Ledger.apply ⟨h, freed, lost⟩ op =
              (h.apply op).map fun h' => _ := rfl
          rw [show h.apply op = .ok h' from hrun] at hstep
          rw [ledger_append, hledger]
          exact ⟨_, _, hstep, hb.step (run_slot hbefore).1 hstep⟩

/-- The array at the end, as the loop of `MainServerDestroy` goes through it. -/
theorem count_destroy (hinv : h.Inv n) (hn : n < 2 ^ 32) (p : Ptr) :
    (h.destroy.map JobHistory.addr).count p = h.kept p := by
  have hput : h.putIdx.toNat = n := by
    rw [hinv.next, UInt32.toNat_ofNat', Nat.mod_eq_of_lt hn]
  obtain ⟨k, hk⟩ : ∃ k, jobHistoryMax = h.limit + k :=
    ⟨jobHistoryMax - h.limit, by rw [limit]; split <;> omega⟩
  -- Behind the limit there is nothing in the array.
  have hrest : ∀ c ∈ (List.range k).map (h.limit + ·),
      one ((h.slot c).map JobHistory.addr) p = 0 := by
    intro c hc
    obtain ⟨i, hi, rfl⟩ := List.mem_map.mp hc
    have hik := List.mem_range.mp hi
    have hlimit : n ≤ h.limit := by
      rw [limit] at hk ⊢
      split at hk <;> split <;> omega
    rw [(hinv.filled _ (by omega)).mpr (by omega)]
    rfl
  have hsplit : List.range jobHistoryMax =
      List.range h.limit ++ (List.range k).map (h.limit + ·) := by
    rw [hk, List.range_add]
  rw [destroy, List.map_filterMap, count_filterMap, kept, hsplit, tally_append,
    tally_eq_zero hrest, Nat.add_zero]
  rfl

end Step

end History

section Records

variable {N : Nat} [NeZero N] {s : Sys N}

/-- Up to the end of a run inside its memory, every record is freed by the
submission that takes its place, or lost to one of the first ids come round
again, or in the array. `MainServerDestroy` frees those in the array, each once,
when it gets that far, and otherwise none. -/
theorem records_freed_once (h : Reach Sys.step Sys.InBounds (· = Sys.init N) s) (hb : s.Bounded)
    (hn : submissions s.ops < 2 ^ 32) (calls : Fin N → DestroyCalls) :
    ∃ freed lost, History.ledger s.ops = .ok ⟨s.server.history, freed, lost⟩ ∧
      (freed ++ lost ++ s.server.history.destroy.map JobHistory.addr).Perm (jobsOf s.ops) ∧
      (jobsOf s.ops).Nodup ∧
      lost.length = (History.unevicting (submissions s.ops)).length ∧
      ∃ e, mainServerDestroy s.server calls s.heap = .ok e ∧
        e.records = if ∀ i, (calls i).Succeed then s.server.history.destroy else [] := by
  have hlinked := linked_of_reach h
  obtain ⟨freed, lost, hledger, hbalanced⟩ := History.ledger_ok hlinked
  obtain ⟨heap, hdestroy, -⟩ := shutdown_ok h hb calls
  refine ⟨freed, lost, hledger, ?_, (recorded_of_reach h).nodup, hbalanced.lost, _, hdestroy, ?_⟩
  · rw [List.perm_iff_count]
    intro p
    rw [List.count_append, List.count_append, History.count_destroy hlinked.inv hn]
    exact (hbalanced.count p).symm
  · split <;> rfl

end Records

/-- One submission more than the array has slots. -/
theorem records_freed_once_eleven :
    ∃ (s : Sys numQueueMax) (freed lost : List Ptr), submissions s.ops = 11 ∧
      History.ledger s.ops = .ok ⟨s.server.history, freed, lost⟩ ∧
      (freed ++ lost ++ s.server.history.destroy.map JobHistory.addr).Perm (jobsOf s.ops) ∧
      (jobsOf s.ops).Nodup ∧
      lost.length = (History.unevicting (submissions s.ops)).length ∧
      ∃ e, mainServerDestroy s.server (fun _ => ⟨true, true, true⟩) s.heap = .ok e ∧
        e.records = s.server.history.destroy := by
  obtain ⟨s, hr, hb, hn⟩ : ∃ s : Sys numQueueMax,
      Reach Sys.step Sys.InBounds (· = Sys.init numQueueMax) s ∧ s.Bounded ∧
        submissions s.ops = 11 :=
    @reach_of_checkedRun _ _ _ _ _ _ elevenRun _ _ _ rfl (by decide +kernel)
  obtain ⟨freed, lost, hledger, hperm, hnodup, hlost, e, he, hrecords⟩ :=
    records_freed_once hr hb (by rw [hn]; decide) fun _ => ⟨true, true, true⟩
  rw [if_pos fun _ => ⟨rfl, rfl, rfl⟩] at hrecords
  exact ⟨s, freed, lost, hn, hledger, hperm, hnodup, hlost, e, he, hrecords⟩

end DistQueue
