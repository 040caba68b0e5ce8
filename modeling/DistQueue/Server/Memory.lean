import DistQueue.Server.Places
import Mathlib.Data.List.Perm.Basic

/-!
# Who frees what

A block is freed by `sendJob` once its job is sent, by `removeJob` when it
finds the job it was asked for, and by `putJobBack` when the record is gone.
The first two let go of a job that is then in no queue and no hand. The third
frees a job it has just put into a queue: it is the one step that the runs of
`RecordKept` leave out, and without it a freed job is one that was sent or
removed.
-/

namespace DistQueue

open DistQueue.Lib

/-! ## Blocks -/

namespace Heap

variable {heap : Heap} {p p' : Ptr} {job : Job}

def Freed (heap : Heap) (p : Ptr) : Prop := ∃ job, heap[p]? = some ⟨job, true⟩

/-- What is in a block, freed or not. -/
def contents (heap : Heap) (p : Ptr) : Option Job := heap[p]?.map Cell.job

theorem load_eq_some : heap.load p = some job ↔ heap[p]? = some ⟨job, false⟩ := by
  unfold load
  split
  · next job' h =>
      rw [h, Option.some_inj, Option.some_inj, Cell.mk.injEq]
      exact ⟨fun h => ⟨h, rfl⟩, fun h => h.1⟩
  · next h =>
      refine ⟨fun h => (by cases h), fun h' => ?_⟩
      exact absurd h' (h job)

theorem lt_of_load (h : heap.load p = some job) : p < heap.length :=
  (List.getElem?_eq_some_iff.mp (load_eq_some.mp h)).1

theorem contents_of_load (h : heap.load p = some job) : heap.contents p = some job := by
  rw [contents, load_eq_some.mp h]; rfl

theorem load_of_not_freed (hlt : p < heap.length) (h : ¬ heap.Freed p) :
    ∃ job, heap.load p = some job := by
  have hp := List.getElem?_eq_getElem hlt
  rcases hcell : heap[p] with ⟨job, freed⟩
  rw [hcell] at hp
  cases freed with
  | true => exact absurd ⟨job, hp⟩ h
  | false => exact ⟨job, load_eq_some.mpr hp⟩

theorem freed_malloc : (heap.malloc job).Freed p ↔ heap.Freed p := by
  have hcell : ∀ job', (heap.malloc job)[p]? = some ⟨job', true⟩ ↔
      heap[p]? = some ⟨job', true⟩ := by
    intro job'
    rcases Nat.lt_trichotomy p heap.length with h | h | h
    · rw [malloc, List.getElem?_append_left h]
    · rw [malloc, h, List.getElem?_concat_length, List.getElem?_eq_none (Nat.le_refl _)]
      exact ⟨fun h => (by cases h), fun h => (by cases h)⟩
    · rw [List.getElem?_eq_none (Nat.le_of_lt h),
        List.getElem?_eq_none (by rw [malloc, List.length_append]; exact h)]
  exact exists_congr hcell

theorem freed_store (h : heap.load p = some job) (job' : Job) :
    (heap.store p job').Freed p' ↔ heap.Freed p' := by
  unfold Freed store
  rw [List.getElem?_set]
  split
  · next hp =>
      subst hp
      rw [if_pos (lt_of_load h), load_eq_some.mp h]
      exact ⟨fun ⟨_, h⟩ => (by cases h), fun ⟨_, h⟩ => (by cases h)⟩
  · exact Iff.rfl

theorem getElem?_free : (heap.free p)[p']? =
    if p' = p then heap[p']?.map (fun c => { c with freed := true }) else heap[p']? := by
  rw [free, List.getElem?_modify]
  split
  · next h => rw [if_pos h.symm]; rfl
  · next h => rw [if_neg fun h' => h h'.symm]; cases heap[p']? <;> rfl

theorem freed_of_free (h : (heap.free p).Freed p') : p' = p ∨ heap.Freed p' := by
  obtain ⟨job, h⟩ := h
  rw [getElem?_free] at h
  split at h
  · next hp => exact .inl hp
  · exact .inr ⟨job, h⟩

theorem contents_free : (heap.free p).contents p' = heap.contents p' := by
  rw [contents, getElem?_free]
  split
  · rw [Option.map_map]; rfl
  · rfl

theorem contents_store (hne : p' ≠ p) : (heap.store p job).contents p' = heap.contents p' := by
  rw [contents, store, List.getElem?_set, if_neg fun h => hne h.symm]; rfl

theorem contents_malloc (h : p < heap.length) :
    (heap.malloc job).contents p = heap.contents p := by
  rw [contents, malloc, List.getElem?_append_left h]; rfl

end Heap

/-! ## What a section does to the blocks -/

variable {N : Nat} [NeZero N] {server : MainServer N} {heap : Heap} {t : Nat} {env : Env}
  {pc : Pc N} {r : Result N}

theorem count_diff_eraseIdx {l : List (Option Ptr)} {k : Nat} {x : Option Ptr}
    (h : l[k]? = some x) : (l.diff (l.eraseIdx k)).count x = 1 := by
  obtain ⟨hk, rfl⟩ := List.getElem?_eq_some_iff.mp h
  have hcount := (List.getElem_cons_eraseIdx_perm hk).count_eq l[k]
  rw [List.count_cons_self] at hcount
  rw [List.count_diff]
  omega

/-- The job that `removeJob` frees is the one it takes out. -/
theorem removeJob_freed {q : Queue} {jobid : UInt16} {rm : Queue.Removal} {p : Ptr}
    (hs : q.Straight) (hr : q.removeJob heap jobid = .ok rm) (hp : rm.freed = some p) :
    (q.live.diff rm.queue.live).count (some p) = 1 := by
  rcases Queue.removeJob_cases hs hr with ⟨-, rfl⟩ | ⟨-, -, -, -, k, hgives, hlive⟩
  · cases hp
  · rcases hgives.entry with ⟨-, ⟨p', hp', hk, -⟩, -⟩ | ⟨hnone, -⟩
    · rw [hp] at hp'
      injection hp' with hp'
      subst hp'
      rw [hlive, count_diff_eraseIdx hk]
    · rw [hp] at hnone
      cases hnone

/-- A block freed in a section is one whose job was sent or removed in it, or
put back without a record. -/
theorem Ran.freed (h : Ran server heap t env pc r) (hs : ∀ i, (server.queue i).Straight) {p : Ptr}
    (hp : r.heap.Freed p) :
    heap.Freed p ∨ 0 < tally (Event.sentJob p) r.events + tally (Event.goneJob p) r.events ∨
      ∃ queueIdx contents, pc = .relabel queueIdx p ∧ heap.load p = some contents ∧
        server.history.findJob contents.id = none := by
  cases h with
  | submittedResponse hload => exact .inl ((Heap.freed_store hload _).mp hp)
  | @removeJob jobid i found rm hr =>
      dsimp only at hp ⊢
      cases hfreed : rm.freed with
      | none => rw [hfreed] at hp; exact .inl hp
      | some p' =>
          rw [hfreed] at hp
          rcases Heap.freed_of_free hp with rfl | hp
          · have hgone := removeJob_freed (hs i) hr hfreed
            right; left
            simp only [tally_cons, tally_nil, Event.sentJob, Event.goneJob]
            omega
          · exact .inl hp
  | sent hload =>
      rcases Heap.freed_of_free hp with rfl | hp
      · right; left
        simp [Event.sentJob, one]
      · exact .inl hp
  | @relabelLost queueIdx job contents hload hfind =>
      rcases Heap.freed_of_free hp with rfl | hp
      · exact .inr (.inr ⟨_, _, rfl, hload, hfind⟩)
      · exact .inl hp
  | _ => exact .inl hp

/-- Only `newJob` writes into a job, and only into its own draft. -/
theorem Ran.contents (h : Ran server heap t env pc r) {p : Ptr} (hp : pc.drafts ≠ some p) :
    r.heap.contents p = heap.contents p := by
  cases h with
  | submittedResponse hload =>
      refine Heap.contents_store ?_
      rintro rfl
      exact hp rfl
  | @removeJob jobid i found rm hr =>
      dsimp only
      cases rm.freed with
      | none => rfl
      | some p' => exact Heap.contents_free
  | sent | relabelLost => exact Heap.contents_free
  | _ => rfl

/-! ## Runs that keep the records -/

/-- A `putJobBack` that is about to look its job up still has a job to read,
and a record to find. -/
def Sys.RecordKept (s : Sys N) (a : Action) : Prop :=
  match s.running a with
  | some (.relabel _ job) =>
      match s.heap.load job with
      | some contents => s.server.history.findJob contents.id ≠ none
      | none => False
  | _ => True

instance (s : Sys N) (a : Action) : Decidable (s.RecordKept a) := by
  unfold Sys.RecordKept
  split
  · split <;> infer_instance
  · infer_instance

/-- A freed job was sent or removed. -/
def Sys.FreedGone (s : Sys N) : Prop := ∀ p, s.heap.Freed p → 0 < s.sent p + s.gone p

theorem freedGone_step {s s' : Sys N} {a : Action} (hf : s.FreedGone) (hs : s.Sound)
    (hkept : s.RecordKept a) (h : s.step a = some s') : s'.FreedGone := by
  have hmono : ∀ p, s.sent p + s.gone p ≤ s'.sent p + s'.gone p := fun p =>
    Nat.add_le_add (tally_log_mono h _) (tally_log_mono h _)
  intro p hp
  cases (step_cases h).2 with
  | accepted ht => exact (hf p (Heap.freed_malloc.mp hp)).trans_le (hmono p)
  | @ran t env pc r ht hran =>
      rcases hran.freed (hs.queues) hp with hp | hp | ⟨q, contents, rfl, hload, hfind⟩
      · exact (hf p hp).trans_le (hmono p)
      · simp only [Sys.sent, Sys.gone, Sys.commit, tally_append]
        omega
      · simp only [Sys.RecordKept, Sys.running, ht, hload, hfind] at hkept
        exact absurd rfl hkept
  | _ => exact (hf p hp).trans_le (hmono p)

/-- Sound, and freed jobs are gone. -/
theorem freedGone_of_reach {ok : Sys N → Action → Prop} {s : Sys N}
    (hle : ∀ s a, ok s a → s.IndexOk a ∧ s.RecordKept a)
    (h : Reach Sys.step ok (· = Sys.init N) s) : s.FreedGone := by
  refine h.invariant ?_ fun s a s' hr hf hok h =>
    freedGone_step hf (sound_of_reach (fun s a h => (hle s a h).1) hr) (hle s a hok).2 h
  intro s h p hp
  subst h
  obtain ⟨job, hp⟩ := hp
  cases hp

section Readable

variable {s : Sys N} (hs : s.Sound) (hf : s.FreedGone)

include hs hf

omit [NeZero N] in
/-- A job that somebody still has can be read. -/
theorem load_of_placed {p : Ptr} (h : 0 < s.held p + s.inQueues p) :
    ∃ job, s.heap.load p = some job := by
  obtain ⟨hlt, hsum⟩ := hs.lt_of_placed (p := p) (by omega)
  refine Heap.load_of_not_freed hlt fun hfreed => ?_
  have := hf p hfreed
  omega

omit [NeZero N] in
theorem load_of_holds {t : Nat} {pc : Pc N} {p : Ptr} (ht : s.threads[t]? = some pc)
    (hpc : 0 < pc.holds p) : ∃ job, s.heap.load p = some job := by
  have hle : pc.holds p ≤ s.held p := le_tally (f := Pc.holds p) ht
  exact load_of_placed hs hf (by omega)

omit [NeZero N] hs hf in
theorem inQueues_pos {i : Fin N} {p : Ptr} (h : some p ∈ (s.server.queue i).live) :
    0 < s.inQueues p := by
  have hcount : 0 < (s.server.queue i).live.count (some p) := List.count_pos_iff.mpr h
  have hle : (s.server.queue i).live.count (some p) ≤ s.inQueues p :=
    le_sum (fun q : Queue => q.live.count (some p)) s.server.queue i
  omega

omit [NeZero N] in
theorem load_of_live {i : Fin N} {x : Option Ptr} (h : x ∈ (s.server.queue i).live) :
    ∃ p job, x = some p ∧ s.heap.load p = some job := by
  obtain ⟨p, rfl⟩ := hs.live i x h
  have hpos := inQueues_pos h
  obtain ⟨job, hjob⟩ := load_of_placed hs hf (p := p) (by omega)
  exact ⟨p, job, rfl, hjob⟩

end Readable

end DistQueue
