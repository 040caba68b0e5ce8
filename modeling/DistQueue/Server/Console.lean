import DistQueue.Server.Delivery

/-!
# The queue on the console

`printQueueJobs` is the one place in the main server that reads the paths of a
job as strings. It runs under the mutex of the queue and goes through the live
slots, so what it prints is a function of the queue and of the blocks its slots
point to.

`printf` reads on to a NUL, wherever that is: in a `Job_t`, `exec_file` is
followed by `working_dir`, and `working_dir` by whatever memory holds behind the
block.
-/

namespace DistQueue

open DistQueue.Lib

/-- What is printed of one job; `job` is the pointer it was reached by. -/
structure Printed where
  job : Ptr
  id : UInt16
  execFile : StrRead
  workingDir : StrRead
  deriving DecidableEq, Repr

/-- What `printQueueJobs` has printed at its end, or when it came upon a slot
it cannot go on from. -/
structure Listing where
  size : Nat
  jobs : List Printed
  fault : Option Fault
  deriving DecidableEq, Repr

/-- The two `printf` of a job's paths, with `behind` in memory behind it. -/
def Job.printed (job : Job) (p : Ptr) (behind : List UInt8) : Printed where
  job := p
  id := job.id
  execFile := ⟨job.execFile, job.workingDir ++ behind⟩
  workingDir := ⟨job.workingDir, behind⟩

/-- The loop, over the slots it has to go through. -/
def printJobs (heap : Heap) (behind : Ptr → List UInt8) :
    List (Option Ptr) → List Printed × Option Fault
  | [] => ([], none)
  | none :: _ => ([], some .invalidAccess)
  | some p :: slots =>
      match heap.deref p with
      | .error fault => ([], some fault)
      | .ok job =>
          let (jobs, fault) := printJobs heap behind slots
          (job.printed p (behind p) :: jobs, fault)

def printQueueJobs (queue : Queue) (heap : Heap) (behind : Ptr → List UInt8) : Listing :=
  let (jobs, fault) := printJobs heap behind queue.live
  ⟨queue.count, jobs, fault⟩

section Loop

variable {heap : Heap} {behind : Ptr → List UInt8} {slots : List (Option Ptr)}

/-- What is printed comes out of a block that a slot points to. -/
theorem mem_printJobs {e : Printed} (he : e ∈ (printJobs heap behind slots).1) :
    some e.job ∈ slots ∧
      ∃ job, heap.load e.job = some job ∧ e = job.printed e.job (behind e.job) := by
  induction slots with
  | nil => cases he
  | cons slot slots ih =>
      cases slot with
      | none => cases he
      | some p =>
          rw [printJobs] at he
          cases hderef : heap.deref p with
          | error fault =>
              rw [hderef] at he
              cases he
          | ok job =>
              rw [hderef] at he
              rcases List.mem_cons.mp he with rfl | he
              · exact ⟨List.mem_cons_self, job, deref_ok hderef, rfl⟩
              · obtain ⟨hmem, hjob⟩ := ih he
                exact ⟨List.mem_cons_of_mem _ hmem, hjob⟩

end Loop

section Console

variable {N : Nat}

theorem putJob_init (p : Ptr) : Queue.init.putJob p = some (Queue.init.put p) :=
  if_neg (by decide)

/-- The first job a server gets comes into one of its queues. -/
theorem exists_queued [NeZero N] {pkg : Msg} {blank job : Job}
    (hjob : (receiveClient [] pkg blank : Option Job × Pc N) = (some job, .newJob 0)) :
    ∃ s s₁ s₂ : Sys N, Reach Sys.step anyStep (· = Sys.init N) s ∧
      s.threads[0]? = some .attendClient ∧ s.heap = [] ∧
      s.step (.receive 0 pkg blank) = some s₁ ∧ Reach Sys.step anyStep (· = s₁) s₂ ∧
      ∃ i queued, (s₂.server.queue i).live = [some 0] ∧ s₂.heap.load 0 = some queued ∧
        queued.execFile = job.execFile ∧ queued.workingDir = job.workingDir := by
  let i : Fin N := queueAt (UInt16.ofNat (0 % N)).toNat
  let s : Sys N := { Sys.init N with threads := [.attendClient] }
  let s₁ : Sys N :=
    { s with
      heap := [⟨job, false⟩]
      threads := [.newJob 0]
      log := [.accepted 0 0] }
  have hs : Reach Sys.step anyStep (· = Sys.init N) s :=
    .step (a := .acceptClient) (.start rfl) trivial rfl
  have h₁ : s.step (.receive 0 pkg blank) = some s₁ := by
    simp only [s, s₁, Sys.step, Sys.receive, Sys.init, if_true, List.getElem?_cons_zero, hjob]
    rfl
  have hstart : Reach Sys.step anyStep (· = s₁) s₁ := .start rfl
  -- The sections of `newJob` in front of its `putJob`.
  obtain ⟨s₂, hrun, hf, ht, hqueue, queued, hload, hfile, hdir⟩ :
      ∃ s₂, checkedRun Sys.step anyStep s₁ [.go 0, .go 0, .go 0] = some s₂ ∧ s₂.fault = none ∧
        s₂.threads[0]? = some (.putJob .newJob i 0 .ready) ∧ s₂.server.queue i = Queue.init ∧
        ∃ queued, s₂.heap.load 0 = some queued ∧ queued.execFile = job.execFile ∧
          queued.workingDir = job.workingDir :=
    ⟨_, rfl, rfl, rfl, rfl, _, rfl, rfl, rfl⟩
  let r := putJobSection s₂.server s₂.heap 0 .newJob i 0
  have hput : r = ⟨s₂.server.setQueue i (Queue.init.put 0), s₂.heap, .attendClient,
      [.put 0 .newJob i 0], some (.get i)⟩ := by
    simp only [r, putJobSection, hqueue, putJob_init]
    rfl
  have hgo : s₂.step (.go 0) = some (s₂.commit 0 0 r) := by
    simp only [Sys.step, hf, if_true, Action.go, Sys.run, ht]
    rfl
  refine ⟨s, s₁, _, hs, rfl, rfl, h₁, .step (hstart.checkedRun hrun) trivial hgo, i, queued, ?_,
    ?_, hfile, hdir⟩
  · rw [Sys.commit, hput]
    simp only [MainServer.setQueue, Function.update_self]
    decide
  · rw [Sys.commit, hput]
    exact hload

end Console

end DistQueue
