import DistQueue.Server.System
import DistQueue.Lib.Tally

/-!
# What one step can do

Every proof about runs goes through the two relations of this module. `Ran`
lists the outcomes of a thread's next section, one constructor for each way
through the code; `Step` says how such an outcome, a message, a wake-up or a
new connection changes the whole state. Both are read off the definitions
once, in `run_ran` and `step_cases`.
-/

namespace DistQueue

open DistQueue.Lib

variable {N : Nat}

/-! ## One section -/

section OneSection

variable [NeZero N]

/-- The ways through the next section of a thread, with what it leaves. -/
inductive Ran (server : MainServer N) (heap : Heap) (t : Nat) (env : Env) :
    Pc N → Result N → Prop
  | newJob {job : Ptr} :
      Ran server heap t env (.newJob job)
        ⟨{ server with queue2put := server.queue2put + 1 }, heap,
          .numberJob job (UInt16.ofNat (server.queue2put.toNat % N)), [], none⟩
  | numberJob {job : Ptr} {queueIdx : UInt16} {contents : Job} {blank : JobHistory}
      {history : History} (hload : heap.load job = some contents) (haddr : blank.addr = job)
      (hop : server.history.apply (.newJob blank queueIdx contents.ipaddr) = .ok history) :
      Ran server heap t env (.numberJob job queueIdx)
        ⟨{ server with history := history }, heap,
          .submittedResponse job queueIdx server.history.putIdx.toUInt16,
          [.history t (.newJob blank queueIdx contents.ipaddr)], none⟩
  | submittedResponse {job : Ptr} {queueIdx newJobid : UInt16} {contents : Job}
      (hload : heap.load job = some contents) :
      Ran server heap t env (.submittedResponse job queueIdx newJobid)
        ⟨server, heap.store job { contents with id := newJobid },
          .putJob .newJob (queueAt queueIdx.toNat) job .ready,
          if env.ok then [.answered t job newJobid (setJobID env.stack newJobid).wire] else [],
          none⟩
  | putJobWait {caller : Caller} {i : Fin N} {job : Ptr} {wait : Wait}
      (hput : (server.queue i).putJob job = none) :
      Ran server heap t env (.putJob caller i job wait)
        ⟨server, heap, .putJob caller i job .blocked, [], none⟩
  | putJob {caller : Caller} {i : Fin N} {job : Ptr} {wait : Wait} {q : Queue}
      (hput : (server.queue i).putJob job = some q) :
      Ran server heap t env (.putJob caller i job wait)
        ⟨server.setQueue i q, heap, caller.next job, [.put t caller i job], some (.get i)⟩
  | jobState {jobid : UInt16} {answer : Answer} {history : History}
      (hop : server.history.apply (.jobState jobid) = .ok history)
      (hanswer : answer = .badParams ∨ ∃ reported, answer = .jobState reported) :
      Ran server heap t env (.jobState jobid)
        ⟨{ server with history := history }, heap, .reply answer,
          [.history t (.jobState jobid)], none⟩
  | queueState {queueid : UInt8} {answer : Answer}
      (hanswer : answer = .badParams ∨ ∃ reported, answer = .queueState reported) :
      Ran server heap t env (.queueState queueid)
        ⟨server, heap, .reply answer, [], none⟩
  | unsubmitRefused {jobid : UInt16} (hwait : server.history.waitingIn jobid = .ok none) :
      Ran server heap t env (.unsubmit jobid) ⟨server, heap, .reply .badParams, [], none⟩
  | unsubmit {jobid : UInt16} {job : JobHistory}
      (hwait : server.history.waitingIn jobid = .ok (some job)) :
      Ran server heap t env (.unsubmit jobid)
        ⟨server, heap, .unsubmitQueue jobid job.queueIdx job.addr, [], none⟩
  | unsubmitQueue {jobid : UInt16} {qIdx : UInt8} {found : Ptr} {i : Fin N}
      (hi : qIdx.toNat = i) :
      Ran server heap t env (.unsubmitQueue jobid qIdx found)
        ⟨server, heap, .removeJob jobid i found, [], none⟩
  | removeJob {jobid : UInt16} {i : Fin N} {found : Ptr} {r : Queue.Removal}
      (hr : (server.queue i).removeJob heap jobid = .ok r) :
      Ran server heap t env (.removeJob jobid i found)
        ⟨server.setQueue i r.queue, r.freed.elim heap heap.free, .markUnsubmited jobid found,
          [.removed t i jobid found ((server.queue i).live.diff r.queue.live)],
          if r.signals then some (.put i) else none⟩
  | markUnsubmited {jobid : UInt16} {found : Ptr} {history : History}
      (hop : server.history.apply (.unsubmit jobid) = .ok history) :
      Ran server heap t env (.markUnsubmited jobid found)
        ⟨{ server with history := history }, heap, .reply (.unsubmit jobid found),
          [.history t (.unsubmit jobid)], none⟩
  | reply {answer : Answer} :
      Ran server heap t env (.reply answer)
        ⟨server, heap, .attendClient,
          if env.ok then [.replied t answer (answer.msg env.stack).wire] else [], none⟩
  | sendJob :
      Ran server heap t env .sendJob
        ⟨{ server with queue2get := server.queue2get + 1 }, heap,
          .getJob (queueAt (server.queue2get.toNat % N)) .ready, [], none⟩
  | getJobWait {i : Fin N} {wait : Wait} (hget : (server.queue i).getJob = none) :
      Ran server heap t env (.getJob i wait) ⟨server, heap, .getJob i .blocked, [], none⟩
  | getJob {i : Fin N} {wait : Wait} {job : Ptr} {q : Queue}
      (hget : (server.queue i).getJob = some (some job, q)) :
      Ran server heap t env (.getJob i wait)
        ⟨server.setQueue i q, heap, .checkServerStatus job, [.got t i job], some (.put i)⟩
  | serverReady {job : Ptr} :
      Ran server heap t env (.checkServerStatus job) ⟨server, heap, .sendMsg job, [], none⟩
  | serverGone {job : Ptr} :
      Ran server heap t env (.checkServerStatus job) ⟨server, heap, .putJobBack job, [], none⟩
  | sent {job : Ptr} {contents : Job} (hload : heap.load job = some contents) :
      Ran server heap t env (.sendMsg job)
        ⟨server, heap.free job, .attendExecServ,
          [.sent t job (contents.msg env.stack).wire], none⟩
  | sendFailed {job : Ptr} {contents : Job} (hload : heap.load job = some contents) :
      Ran server heap t env (.sendMsg job) ⟨server, heap, .putJobBack job, [], none⟩
  | putJobBack {job : Ptr} :
      Ran server heap t env (.putJobBack job)
        ⟨{ server with queue2put := server.queue2put + 1 }, heap,
          .putJob (.putJobBack (server.queue2put.toNat % N))
            (queueAt (server.queue2put.toNat % N)) job .ready, [], none⟩
  | relabelLost {queueIdx : Nat} {job : Ptr} {contents : Job}
      (hload : heap.load job = some contents)
      (hfind : server.history.findJob contents.id = none) :
      Ran server heap t env (.relabel queueIdx job)
        ⟨server, heap.free job, .closed,
          [.history t (.putJobBack contents.id (UInt8.ofNat queueIdx))], none⟩
  | relabel {queueIdx : Nat} {job : Ptr} {contents : Job} {history : History}
      (hload : heap.load job = some contents)
      (hop : server.history.apply (.putJobBack contents.id (UInt8.ofNat queueIdx)) =
        .ok history) :
      Ran server heap t env (.relabel queueIdx job)
        ⟨{ server with history := history }, heap, .closed,
          [.history t (.putJobBack contents.id (UInt8.ofNat queueIdx))], none⟩
  | changeStateJob {jobid : UInt16} {state exitValue : UInt8} {history : History}
      (hop : server.history.apply (.changeStateJob jobid state exitValue) = .ok history) :
      Ran server heap t env (.changeStateJob jobid state exitValue)
        ⟨{ server with history := history }, heap, .attendExecServ,
          [.history t (.changeStateJob jobid state exitValue)], none⟩

section Bind

variable {ε α β : Type*}

theorem bind_ok {x : Except ε α} {f : α → Except ε β} {b : β} (h : x.bind f = .ok b) :
    ∃ a, x = .ok a ∧ f a = .ok b := by
  cases x with
  | error e => cases h
  | ok a => exact ⟨a, rfl, h⟩

end Bind

theorem deref_ok {heap : Heap} {p : Ptr} {job : Job} (h : heap.deref p = .ok job) :
    heap.load p = some job := by
  rw [Heap.deref] at h
  split at h
  · next hload => injection h with h; rw [hload, h]
  · cases h

variable {server : MainServer N} {heap : Heap} {t : Nat} {env : Env}

/-- `Ran` is what `Pc.run` computes. -/
theorem run_ran {pc : Pc N} {r : Result N} (h : pc.run server heap t env = some (.ok r)) :
    Ran server heap t env pc r := by
  cases pc with
  | attendClient | attendExecServ | closed => cases h
  | newJob job =>
      injection h with h; injection h with h; subst h
      exact .newJob
  | numberJob job queueIdx =>
      injection h with h
      obtain ⟨contents, hload, h⟩ := bind_ok h
      injection h with h; subst h
      exact .numberJob (deref_ok hload) rfl rfl
  | submittedResponse job queueIdx newJobid =>
      injection h with h
      obtain ⟨contents, hload, h⟩ := bind_ok h
      injection h with h; subst h
      exact .submittedResponse (deref_ok hload)
  | putJob caller i job wait =>
      cases wait with
      | blocked => cases h
      | _ =>
          injection h with h; injection h with h; subst h
          rw [putJobSection]
          split
          · next hput => exact .putJobWait hput
          · next hput => exact .putJob hput
  | jobState jobid =>
      injection h with h
      obtain ⟨answer, hstate, h⟩ := bind_ok h
      injection h with h; subst h
      have hop : server.history.apply (.jobState jobid) = .ok server.history := by
        rw [History.apply, hstate]; rfl
      refine .jobState hop ?_
      cases answer with
      | none => exact .inl rfl
      | some reported => exact .inr ⟨reported, rfl⟩
  | queueState queueid =>
      injection h with h; injection h with h; subst h
      rw [queueStateSection]
      split
      · exact .queueState (.inr ⟨_, rfl⟩)
      · exact .queueState (.inl rfl)
  | unsubmit jobid =>
      injection h with h
      obtain ⟨job, hwait, h⟩ := bind_ok h
      injection h with h; subst h
      cases job with
      | none => exact .unsubmitRefused hwait
      | some job => exact .unsubmit hwait
  | unsubmitQueue jobid qIdx found =>
      injection h with h
      rw [unsubmitQueueSection] at h
      split at h
      · injection h with h; subst h
        exact .unsubmitQueue rfl
      · cases h
  | removeJob jobid i found =>
      injection h with h
      obtain ⟨r, hr, h⟩ := bind_ok h
      injection h with h; subst h
      exact .removeJob hr
  | markUnsubmited jobid found =>
      injection h with h
      obtain ⟨history, hop, h⟩ := bind_ok h
      injection h with h; subst h
      exact .markUnsubmited hop
  | reply answer =>
      injection h with h; injection h with h; subst h
      exact .reply
  | sendJob =>
      injection h with h; injection h with h; subst h
      exact .sendJob
  | getJob i wait =>
      cases wait with
      | blocked => cases h
      | _ =>
          injection h with h
          rw [getJobSection] at h
          split at h
          · next hget => injection h with h; subst h; exact .getJobWait hget
          · cases h
          · next hget => injection h with h; subst h; exact .getJob hget
  | checkServerStatus job =>
      injection h with h; injection h with h; subst h
      rw [checkServerStatusStep]
      split
      · exact .serverReady
      · exact .serverGone
  | sendMsg job =>
      injection h with h
      obtain ⟨contents, hload, h⟩ := bind_ok h
      injection h with h; subst h
      split
      · exact .sent (deref_ok hload)
      · exact .sendFailed (deref_ok hload)
  | putJobBack job =>
      injection h with h; injection h with h; subst h
      exact .putJobBack
  | relabel queueIdx job =>
      injection h with h
      obtain ⟨contents, hload, h⟩ := bind_ok h
      obtain ⟨history, hop, h⟩ := bind_ok h
      injection h with h; subst h
      cases history with
      | none =>
          refine .relabelLost (deref_ok hload) ?_
          rw [History.putJobBack] at hop
          split at hop
          · next hfind => exact hfind
          · obtain ⟨job', -, hop⟩ := bind_ok hop
            cases hop
      | some history =>
          refine .relabel (deref_ok hload) ?_
          rw [History.apply, hop]; rfl
  | changeStateJob jobid state exitValue =>
      injection h with h
      obtain ⟨history, hop, h⟩ := bind_ok h
      injection h with h; subst h
      exact .changeStateJob hop

/-- The event of a section, if it has one. `Ran` says how the rest follows. -/
inductive Emits (server : MainServer N) (heap : Heap) (t : Nat) (env : Env) :
    Pc N → Result N → Event N → Prop
  | numbered {job : Ptr} {queueIdx newJobid : UInt16} {blank : JobHistory} {ipaddr : UInt32}
      {r : Result N} (haddr : blank.addr = job)
      (hr : r.pc = .submittedResponse job queueIdx newJobid) :
      Emits server heap t env (.numberJob job queueIdx) r
        (.history t (.newJob blank queueIdx ipaddr))
  | history {pc : Pc N} {op : HistOp} {r : Result N} (hop : ∀ blank queueIdx ipaddr,
      op ≠ .newJob blank queueIdx ipaddr) : Emits server heap t env pc r (.history t op)
  | answered {job : Ptr} {queueIdx newJobid : UInt16} {r : Result N} :
      Emits server heap t env (.submittedResponse job queueIdx newJobid) r
        (.answered t job newJobid (setJobID env.stack newJobid).wire)
  | put {caller : Caller} {i : Fin N} {job : Ptr} {wait : Wait} {q : Queue} {r : Result N}
      (hput : (server.queue i).putJob job = some q) (hserver : r.server = server.setQueue i q)
      (hevents : r.events = [.put t caller i job]) :
      Emits server heap t env (.putJob caller i job wait) r (.put t caller i job)
  | got {i : Fin N} {wait : Wait} {job : Ptr} {r : Result N} :
      Emits server heap t env (.getJob i wait) r (.got t i job)
  | removed {jobid : UInt16} {i : Fin N} {found : Ptr} {rm : Queue.Removal} {r : Result N}
      (hrm : (server.queue i).removeJob heap jobid = .ok rm) :
      Emits server heap t env (.removeJob jobid i found) r
        (.removed t i jobid found ((server.queue i).live.diff rm.queue.live))
  | sent {job : Ptr} {contents : Job} {r : Result N} (hload : heap.load job = some contents) :
      Emits server heap t env (.sendMsg job) r (.sent t job (contents.msg env.stack).wire)
  | replied {answer : Answer} {r : Result N} :
      Emits server heap t env (.reply answer) r
        (.replied t answer (answer.msg env.stack).wire)

theorem Ran.emits {pc : Pc N} {r : Result N} (h : Ran server heap t env pc r) {e : Event N}
    (he : e ∈ r.events) : Emits server heap t env pc r e := by
  cases h with
  | newJob | putJobWait | queueState | unsubmitRefused | unsubmit | unsubmitQueue | sendJob
  | getJobWait | serverReady | serverGone | sendFailed | putJobBack => cases he
  | numberJob _ haddr _ =>
      cases List.mem_singleton.mp he
      exact .numbered haddr rfl
  | submittedResponse =>
      dsimp only at he
      split at he
      · cases List.mem_singleton.mp he
        exact .answered
      · cases he
  | putJob hput =>
      cases List.mem_singleton.mp he
      exact .put hput rfl rfl
  | removeJob hr =>
      cases List.mem_singleton.mp he
      exact .removed hr
  | reply =>
      dsimp only at he
      split at he
      · cases List.mem_singleton.mp he
        exact .replied
      · cases he
  | getJob =>
      cases List.mem_singleton.mp he
      exact .got
  | sent hload =>
      cases List.mem_singleton.mp he
      exact .sent hload
  | jobState | markUnsubmited | relabelLost | relabel | changeStateJob =>
      cases List.mem_singleton.mp he
      exact .history fun _ _ _ h => by cases h

end OneSection

/-! ## One step of the system -/

/-- Where a message that brings no job sends its thread. -/
def Pc.Request : Pc N → Prop
  | .attendClient | .attendExecServ | .closed | .jobState _ | .queueState _ | .unsubmit _
  | .sendJob | .changeStateJob _ _ _ => True
  | _ => False

/-- The thread whose `recvMsg` an action ends. -/
def Action.message : Action → Option Nat
  | .receive t _ _ | .hangup t => some t
  | _ => none

/-- The thread an action is about. -/
def Action.thread : Action → Option Nat
  | .receive t _ _ | .hangup t | .run t _ | .wakeup t => some t
  | _ => none

theorem Action.thread_of_message {a : Action} {t : Nat} (h : a.message = some t) :
    a.thread = some t := by
  cases a with
  | receive | hangup => exact h
  | _ => cases h

inductive Step [NeZero N] (s : Sys N) : Action → Sys N → Prop
  | accept {a : Action} {pc : Pc N} (ha : a.thread = none)
      (hpc : pc = .attendClient ∨ pc = .attendExecServ) :
      Step s a { s with threads := s.threads ++ [pc] }
  | accepted {t : Nat} {pkg : Msg} {blank job : Job} (ht : s.threads[t]? = some .attendClient) :
      Step s (.receive t pkg blank)
        { s with
          heap := s.heap.malloc job
          threads := s.threads.set t (.newJob s.heap.length)
          log := s.log ++ [.accepted t s.heap.length] }
  | moved {a : Action} {t : Nat} {pc pc' : Pc N} (ha : a.message = some t)
      (ht : s.threads[t]? = some pc)
      (hpc : pc = .attendClient ∨ pc = .attendExecServ) (hpc' : pc'.Request) :
      Step s a { s with threads := s.threads.set t pc' }
  | wakeup {t : Nat} {pc : Pc N} (ht : s.threads[t]? = some pc) :
      Step s (.wakeup t) { s with threads := s.threads.set t pc.wake }
  | ran {t : Nat} {env : Env} {pc : Pc N} {r : Result N} (ht : s.threads[t]? = some pc)
      (hran : Ran s.server s.heap t env pc r) : Step s (.run t env) (s.commit t env.pick r)
  | faulted {t : Nat} {env : Env} {pc : Pc N} {fault : Fault} (ht : s.threads[t]? = some pc)
      (hrun : pc.run s.server s.heap t env = some (.error fault)) :
      Step s (.run t env) { s with fault := some fault }

/-- What `attendClient` does with a message: nothing is allocated, or a job is
and the thread goes on to `newJob` with it. -/
theorem receiveClient_cases {heap : Heap} {pkg : Msg} {blank : Job} {res : Option Job × Pc N}
    (h : receiveClient heap pkg blank = res) :
    (∃ job, res = (some job, .newJob heap.length)) ∨ ∃ pc : Pc N, res = (none, pc) ∧ pc.Request := by
  subst h
  unfold receiveClient
  dsimp only
  split
  · exact .inl ⟨_, rfl⟩
  split
  · exact .inl ⟨_, rfl⟩
  right
  split
  · exact ⟨_, rfl, trivial⟩
  split
  · exact ⟨_, rfl, trivial⟩
  split
  · exact ⟨_, rfl, trivial⟩
  split
  · exact ⟨_, rfl, trivial⟩
  · exact ⟨_, rfl, trivial⟩

section Taken

variable {N : Nat} {pkg : Msg}

/-! What `attendClient` does with a message of each type. -/

theorem submitNoInter_taken (hpkg : getType pkg = MsgType.subNoInter.toByte)
    (heap : Heap) (blank : Job) :
    (receiveClient heap pkg blank : Option Job × Pc N) =
      (some (submitNoInter pkg blank), .newJob heap.length) := by
  unfold receiveClient
  dsimp only
  rw [hpkg]
  rfl

theorem submitInter_taken (hpkg : getType pkg = MsgType.subInteractive.toByte)
    (heap : Heap) (blank : Job) :
    (receiveClient heap pkg blank : Option Job × Pc N) =
      (some (submitInter pkg blank), .newJob heap.length) := by
  unfold receiveClient
  dsimp only
  rw [hpkg]
  rfl

theorem jobState_taken (hpkg : getType pkg = MsgType.jobstate.toByte) (heap : Heap)
    (blank : Job) :
    (receiveClient heap pkg blank : Option Job × Pc N) = (none, .jobState (getJobID pkg)) := by
  unfold receiveClient
  dsimp only
  rw [hpkg]
  rfl

theorem queueState_taken (hpkg : getType pkg = MsgType.questate.toByte) (heap : Heap)
    (blank : Job) :
    (receiveClient heap pkg blank : Option Job × Pc N) =
      (none, .queueState (getQueueID pkg)) := by
  unfold receiveClient
  dsimp only
  rw [hpkg]
  rfl

theorem unsubmit_taken (hpkg : getType pkg = MsgType.unsub.toByte) (heap : Heap)
    (blank : Job) :
    (receiveClient heap pkg blank : Option Job × Pc N) = (none, .unsubmit (getJobID pkg)) := by
  unfold receiveClient
  dsimp only
  rw [hpkg]
  rfl

theorem clientClosed_taken (hpkg : getType pkg = MsgType.clientClosed.toByte) (heap : Heap)
    (blank : Job) : (receiveClient heap pkg blank : Option Job × Pc N) = (none, .closed) := by
  unfold receiveClient
  dsimp only
  rw [hpkg]
  rfl

end Taken

theorem receiveExecServ_request (pkg : Msg) : (receiveExecServ pkg : Pc N).Request := by
  unfold receiveExecServ
  dsimp only
  split
  · trivial
  split
  · trivial
  split <;> trivial

/-- `Step` is what `Sys.step` computes. -/
theorem step_cases [NeZero N] {s s' : Sys N} {a : Action} (h : s.step a = some s') :
    s.fault = none ∧ Step s a s' := by
  unfold Sys.step at h
  split at h
  case isFalse => cases h
  next hfault =>
  refine ⟨hfault, ?_⟩
  cases a with
  | acceptClient => injection h with h; subst h; exact .accept rfl (.inl rfl)
  | acceptExecServ => injection h with h; subst h; exact .accept rfl (.inr rfl)
  | receive t pkg blank =>
      dsimp only [Sys.receive] at h
      split at h
      · next ht =>
          rcases receiveClient_cases rfl with ⟨job, hr⟩ | ⟨pc, hr, hpc⟩
          · rw [hr] at h
            injection h with h
            subst h
            exact .accepted ht
          · rw [hr] at h
            injection h with h
            subst h
            exact .moved rfl ht (.inl rfl) hpc
      · next ht =>
          injection h with h
          subst h
          exact .moved rfl ht (.inr rfl) (receiveExecServ_request pkg)
      · cases h
  | hangup t =>
      dsimp only [Sys.hangup] at h
      split at h
      · next ht => injection h with h; subst h; exact .moved rfl ht (.inl rfl) trivial
      · next ht => injection h with h; subst h; exact .moved rfl ht (.inr rfl) trivial
      · cases h
  | run t env =>
      dsimp only [Sys.run] at h
      split at h
      · cases h
      · next pc ht =>
          split at h
          · cases h
          · next fault hrun => injection h with h; subst h; exact .faulted ht hrun
          · next r hrun => injection h with h; subst h; exact .ran ht (run_ran hrun)
  | wakeup t =>
      dsimp only [Sys.wakeup] at h
      split at h
      · cases h
      · next hb =>
          injection h with h
          subst h
          obtain ⟨pc, ht, -⟩ := Option.bind_eq_some_iff.mp hb
          have hset : s.threads.modify t Pc.wake = s.threads.set t pc.wake := by
            rw [List.modify_eq_set_getElem?, ht]; rfl
          rw [hset]
          exact .wakeup ht

/-- A step of a thread that is known to be at `pc`. -/
theorem step_run_eq [NeZero N] {s s' : Sys N} {t : Nat} {env : Env} {pc : Pc N}
    (h : s.step (.run t env) = some s') (ht : s.threads[t]? = some pc) :
    (∃ r, pc.run s.server s.heap t env = some (.ok r) ∧ s' = s.commit t env.pick r) ∨
      ∃ fault, pc.run s.server s.heap t env = some (.error fault) ∧
        s' = { s with fault := some fault } := by
  unfold Sys.step at h
  split at h
  · dsimp only [Sys.run] at h
    simp only [ht] at h
    split at h
    · cases h
    · next fault hrun => injection h with h; exact .inr ⟨fault, hrun, h.symm⟩
    · next r hrun => injection h with h; exact .inl ⟨r, hrun, h.symm⟩
  · cases h

theorem step_run [NeZero N] {s s' : Sys N} {t : Nat} {env : Env} {pc : Pc N}
    (h : s.step (.run t env) = some s') (ht : s.threads[t]? = some pc) :
    (∃ r, Ran s.server s.heap t env pc r ∧ s' = s.commit t env.pick r) ∨
      ∃ fault, pc.run s.server s.heap t env = some (.error fault) ∧
        s' = { s with fault := some fault } :=
  (step_run_eq h ht).imp_left fun ⟨r, hrun, heq⟩ => ⟨r, run_ran hrun, heq⟩

/-! ## The threads behind a step

A signal changes nothing about its waiter but the way it waits. -/

section Threads

theorem signal_cases (threads : List (Pc N)) (pick : Nat) (condv : Condv N) :
    signal threads pick condv = threads ∨
      ∃ i pc, threads[i]? = some pc ∧ signal threads pick condv = threads.set i pc.wake := by
  have hmodify : ∀ i, threads.modify i Pc.wake = threads ∨
      ∃ j pc, threads[j]? = some pc ∧ threads.modify i Pc.wake = threads.set j pc.wake := by
    intro i
    rw [List.modify_eq_set_getElem?]
    cases hi : threads[i]? with
    | none => exact .inl rfl
    | some pc => exact .inr ⟨i, pc, hi, rfl⟩
  unfold signal
  split
  · exact hmodify pick
  split
  · next i _ => exact hmodify i
  · exact .inl rfl

/-- A share that waking up does not change is not changed by a signal. -/
theorem tally_commit [NeZero N] {f : Pc N → Nat} (hwake : ∀ pc : Pc N, f pc.wake = f pc) {s : Sys N}
    {t : Nat} {pc : Pc N} (ht : s.threads[t]? = some pc) (pick : Nat) (r : Result N) :
    tally f (s.commit t pick r).threads + f pc = tally f s.threads + f r.pc := by
  have hset := tally_set (f := f) (b := r.pc) ht
  rw [← hset]
  congr 1
  cases hsig : r.signals with
  | none => simp only [Sys.commit, hsig, Option.elim_none]
  | some condv =>
      simp only [Sys.commit, hsig, Option.elim_some]
      rcases signal_cases (s.threads.set t r.pc) pick condv with h | ⟨i, pc', hi, h⟩
      · rw [h]
      · have := tally_set (f := f) (b := pc'.wake) hi
        rw [h]
        rw [hwake] at this
        omega

/-- Each thread behind the step is the one that was set there, woken up at
most. -/
theorem commit_threads [NeZero N] (s : Sys N) (t pick : Nat) (r : Result N) (i : Nat) :
    (s.commit t pick r).threads[i]? = (s.threads.set t r.pc)[i]? ∨
      ∃ pc, (s.threads.set t r.pc)[i]? = some pc ∧
        (s.commit t pick r).threads[i]? = some pc.wake := by
  cases hsig : r.signals with
  | none => exact .inl (by simp only [Sys.commit, hsig, Option.elim_none])
  | some condv =>
      simp only [Sys.commit, hsig, Option.elim_some]
      rcases signal_cases (s.threads.set t r.pc) pick condv with h | ⟨j, pc, hj, h⟩
      · exact .inl (by rw [h])
      · rw [h]
        by_cases hji : j = i
        · subst hji
          have hlt := (List.getElem?_eq_some_iff.mp hj).1
          exact .inr ⟨pc, hj, by rw [List.getElem?_set_self hlt]⟩
        · exact .inl (List.getElem?_set_ne hji)

/-- A thread that did not run is still there. -/
theorem commit_other [NeZero N] {s : Sys N} {t i : Nat} {pc : Pc N} (hi : i ≠ t)
    (h : s.threads[i]? = some pc) (pick : Nat) (r : Result N) :
    (s.commit t pick r).threads[i]? = some pc ∨
      (s.commit t pick r).threads[i]? = some pc.wake := by
  have hset : (s.threads.set t r.pc)[i]? = some pc := by
    rw [List.getElem?_set_ne fun h => hi h.symm, h]
  rcases commit_threads s t pick r i with h' | ⟨pc', hpc', h'⟩
  · exact .inl (h'.trans hset)
  · rw [hset] at hpc'
    injection hpc' with hpc'
    exact .inr (hpc' ▸ h')

theorem commit_self [NeZero N] {s : Sys N} {t : Nat} {pc : Pc N} (h : s.threads[t]? = some pc)
    (pick : Nat) (r : Result N) :
    (s.commit t pick r).threads[t]? = some r.pc ∨
      (s.commit t pick r).threads[t]? = some r.pc.wake := by
  have hset : (s.threads.set t r.pc)[t]? = some r.pc :=
    List.getElem?_set_self (List.getElem?_eq_some_iff.mp h).1
  rcases commit_threads s t pick r t with h' | ⟨pc', hpc', h'⟩
  · exact .inl (h'.trans hset)
  · rw [hset] at hpc'
    injection hpc' with hpc'
    exact .inr (hpc' ▸ h')

/-- A thread is where it was, or out of its wait at most, unless it got a
message or ran. -/
theorem Step.thread [NeZero N] {s s' : Sys N} {a : Action} (h : Step s a s') {t : Nat} {pc : Pc N}
    (ht : s.threads[t]? = some pc) :
    (s'.threads[t]? = some pc ∨ s'.threads[t]? = some pc.wake) ∨
      (a.message = some t ∧ (pc = .attendClient ∨ pc = .attendExecServ)) ∨
      ∃ env r, a = .run t env ∧ Ran s.server s.heap t env pc r ∧ s' = s.commit t env.pick r := by
  have hset : ∀ i pc', i ≠ t → (s.threads.set i pc')[t]? = some pc := by
    intro i pc' hi
    rw [List.getElem?_set_ne hi, ht]
  cases h with
  | accept =>
      rw [List.getElem?_append_left (List.getElem?_eq_some_iff.mp ht).1]
      exact .inl (.inl ht)
  | @accepted i _ _ _ hi =>
      by_cases hit : i = t
      · subst hit
        rw [ht] at hi
        injection hi with hi
        exact .inr (.inl ⟨rfl, .inl hi⟩)
      · exact .inl (.inl (hset i _ hit))
  | @moved _ i pc' _ ha hi hpc' =>
      by_cases hit : i = t
      · subst hit
        rw [ht] at hi
        injection hi with hi
        exact .inr (.inl ⟨ha, hi ▸ hpc'⟩)
      · exact .inl (.inl (hset i _ hit))
  | @wakeup i pc' hi =>
      by_cases hit : i = t
      · subst hit
        rw [ht] at hi
        injection hi with hi
        subst hi
        exact .inl (.inr (List.getElem?_set_self (List.getElem?_eq_some_iff.mp ht).1))
      · exact .inl (.inl (hset i _ hit))
  | @ran i env pc' r hi hran =>
      by_cases hit : i = t
      · subst hit
        rw [ht] at hi
        injection hi with hi
        subst hi
        exact .inr (.inr ⟨env, r, rfl, hran, rfl⟩)
      · exact .inl (commit_other (Ne.symm hit) ht env.pick r)
  | faulted => exact .inl (.inl ht)

theorem getElem?_set_cases {α : Type*} {l : List α} {i j : Nat} {x y : α}
    (h : (l.set i x)[j]? = some y) : (i = j ∧ y = x) ∨ (i ≠ j ∧ l[j]? = some y) := by
  rw [List.getElem?_set] at h
  split at h
  · next heq =>
      split at h
      · exact .inl ⟨heq, (Option.some.inj h).symm⟩
      · cases h
  · next hne => exact .inr ⟨hne, h⟩

/-- A property of threads is kept by a step if the thread that ran has it, and
a message or a wake-up cannot take it away. -/
theorem threads_step [NeZero N] {P P' : Nat → Pc N → Prop} {s s' : Sys N} {a : Action}
    (h : Step s a s') (hold : ∀ t pc, s.threads[t]? = some pc → P t pc)
    (hmono : ∀ t pc, P t pc → P' t pc) (hwake : ∀ t pc, P' t pc → P' t pc.wake)
    (hrequest : ∀ t pc, pc.Request → P' t pc) (haccepted : ∀ t, P' t (.newJob s.heap.length))
    (hran : ∀ t env pc r, a = .run t env → s.threads[t]? = some pc → Ran s.server s.heap t env pc r →
      s' = s.commit t env.pick r → P' t r.pc) :
    ∀ t pc, s'.threads[t]? = some pc → P' t pc := by
  have hset : ∀ t pc', P' t pc' → ∀ i pc, (s.threads.set t pc')[i]? = some pc → P' i pc := by
    intro t pc' hpc' i pc hi
    rcases getElem?_set_cases hi with ⟨rfl, rfl⟩ | ⟨-, hi⟩
    · exact hpc'
    · exact hmono _ _ (hold i pc hi)
  cases h with
  | @accept _ pc' _ hpc =>
      intro i pc hi
      rcases Nat.lt_or_ge i s.threads.length with hlt | hge
      · rw [List.getElem?_append_left hlt] at hi
        exact hmono _ _ (hold i pc hi)
      · rw [List.getElem?_append_right hge] at hi
        have hpc' : pc = pc' := List.mem_singleton.mp (List.mem_of_getElem? hi)
        subst hpc'
        refine hrequest i pc ?_
        rcases hpc with rfl | rfl <;> trivial
  | @accepted t _ _ _ ht => exact hset t _ (haccepted t)
  | @moved _ t _ _ _ ht hpc hpc' => exact hset t _ (hrequest t _ hpc')
  | @wakeup t pc ht => exact hset t _ (hwake t pc (hmono t pc (hold t pc ht)))
  | @ran t env pc r ht hr =>
      have hself := hset t r.pc (hran t env pc r rfl ht hr rfl)
      intro i pc hi
      rcases commit_threads s t env.pick r i with h | ⟨pc', hpc', h⟩
      · exact hself i pc (h ▸ hi)
      · rw [h] at hi
        injection hi with hi
        exact hi ▸ hwake i pc' (hself i pc' hpc')
  | faulted => exact fun i pc hi => hmono _ _ (hold i pc hi)

/-- A property of events is kept by a step if the new events have it. -/
theorem log_step [NeZero N] {Q Q' : Event N → Prop} {s s' : Sys N} {a : Action}
    (h : Step s a s') (hold : ∀ e ∈ s.log, Q e) (hmono : ∀ e, Q e → Q' e)
    (haccepted : ∀ t, Q' (.accepted t s.heap.length))
    (hran : ∀ t env pc r, a = .run t env → s.threads[t]? = some pc → Ran s.server s.heap t env pc r →
      s' = s.commit t env.pick r → ∀ e ∈ r.events, Q' e) : ∀ e ∈ s'.log, Q' e := by
  intro e he
  cases h with
  | @accepted t _ _ _ ht =>
      rcases List.mem_append.mp he with he | he
      · exact hmono e (hold e he)
      · exact List.mem_singleton.mp he ▸ haccepted t
  | @ran t env pc r ht hr =>
      rcases List.mem_append.mp he with he | he
      · exact hmono e (hold e he)
      · exact hran t env pc r rfl ht hr rfl e he
  | _ => exact hmono e (hold e he)

end Threads

end DistQueue
