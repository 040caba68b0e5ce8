import DistQueue.Lib.Condvar
import DistQueue.Server.Places

/-!
# Nobody sleeps through a signal

Each of the three sections that change a queue signals once, whatever the
number of waiters, and a waiter that was let out may find the queue as it was:
another thread can come first. What holds all the same is that as long as a
thread is inside a wait, the threads on their way out of it are enough for all
the jobs, or all the free slots, there are. Seen from one condition variable a
step of the server is a step of a `Monitor`, and that is all the proof needs.
-/

namespace DistQueue

open DistQueue.Lib

variable {N : Nat}

/-! ## The two ends of a wait -/

/-- The wait a thread has been let out of, while it does not hold the mutex. -/
def Pc.wokenOn : Pc N → Option (Condv N)
  | .putJob _ q _ .woken => some (.put q)
  | .getJob q .woken => some (.get q)
  | _ => none

def Pc.blockedAt (c : Condv N) (pc : Pc N) : Nat := if pc.blockedOn = some c then 1 else 0

def Pc.wokenAt (c : Condv N) (pc : Pc N) : Nat := if pc.wokenOn = some c then 1 else 0

/-- What the waiters of a condition variable wait for: free slots, or jobs. -/
def MainServer.avail (server : MainServer N) : Condv N → Nat
  | .put i => maxJobsQueue - (server.queue i).count
  | .get i => (server.queue i).count

namespace Sys

/-- The threads inside `pthread_cond_wait`. -/
def blocked (s : Sys N) (c : Condv N) : Nat := tally (Pc.blockedAt c) s.threads

/-- The threads let out of `pthread_cond_wait` that have not locked the mutex
again. -/
def woken (s : Sys N) (c : Condv N) : Nat := tally (Pc.wokenAt c) s.threads

def monitor (s : Sys N) (c : Condv N) : Monitor := ⟨s.server.avail c, s.blocked c, s.woken c⟩

/-- No thread is in a wait, and no queue holds more than it has room for: all
that is asked of a state for runs to start from. -/
def Fresh (s : Sys N) : Prop :=
  (∀ pc ∈ s.threads, pc.blockedOn = none ∧ pc.wokenOn = none) ∧
    ∀ i, (s.server.queue i).count ≤ maxJobsQueue

end Sys

theorem fresh_init : (Sys.init N).Fresh :=
  ⟨fun _ h => (by cases h), fun _ => show Queue.init.count ≤ maxJobsQueue by decide⟩

/-- A thread that goes on only with a message or a signal. -/
def Pc.rests : Pc N → Bool
  | .attendClient | .attendExecServ | .closed => true
  | .putJob _ _ _ .blocked | .getJob _ .blocked => true
  | _ => false

/-- Every thread is in `recvMsg`, gone, or inside a wait. -/
def Sys.Quiescent (s : Sys N) : Prop := ∀ pc ∈ s.threads, pc.rests = true

instance (s : Sys N) : Decidable s.Quiescent :=
  inferInstanceAs (Decidable (∀ pc ∈ s.threads, pc.rests = true))

section Ends

variable {c : Condv N} {pc : Pc N}

/-- The two places where a thread is inside a wait. -/
theorem Pc.blockedOn_eq_some (h : pc.blockedOn = some c) :
    (∃ caller i job, pc = .putJob caller i job .blocked ∧ c = .put i) ∨
      ∃ i, pc = .getJob i .blocked ∧ c = .get i := by
  unfold blockedOn at h
  split at h
  · exact .inl ⟨_, _, _, rfl, (Option.some.inj h).symm⟩
  · exact .inr ⟨_, rfl, (Option.some.inj h).symm⟩
  · cases h

theorem Pc.wake_of_blocked (h : pc.blockedOn = some c) :
    pc.wokenOn = none ∧ pc.wake.blockedOn = none ∧ pc.wake.wokenOn = some c := by
  rcases blockedOn_eq_some h with ⟨caller, i, job, rfl, rfl⟩ | ⟨i, rfl, rfl⟩
  · exact ⟨rfl, rfl, rfl⟩
  · exact ⟨rfl, rfl, rfl⟩

theorem Pc.wake_of_not (h : pc.blockedOn = none) : pc.wake = pc := by
  unfold wake
  split
  · cases h
  · cases h
  · rfl

/-- A thread inside a wait does not run. -/
theorem blockedOn_of_run [NeZero N] {server : MainServer N} {heap : Heap} {t : Nat} {env : Env}
    {x : Except Fault (Result N)} (h : pc.run server heap t env = some x) :
    pc.blockedOn = none := by
  cases hpc : pc.blockedOn with
  | none => rfl
  | some c =>
      rcases Pc.blockedOn_eq_some hpc with ⟨caller, i, job, rfl, -⟩ | ⟨i, rfl, -⟩
      · cases h
      · cases h

theorem Pc.Request.unwaiting (h : pc.Request) : pc.blockedOn = none ∧ pc.wokenOn = none := by
  cases pc with
  | putJob | getJob => cases h
  | _ => exact ⟨rfl, rfl⟩

theorem Pc.blockedAt_of_none (h : pc.blockedOn = none) : pc.blockedAt c = 0 := by
  rw [blockedAt, h]
  exact if_neg (by simp)

theorem Pc.wokenAt_of_none (h : pc.wokenOn = none) : pc.wokenAt c = 0 := by
  rw [wokenAt, h]
  exact if_neg (by simp)

theorem Pc.wokenAt_le (c : Condv N) (pc : Pc N) : pc.wokenAt c ≤ 1 := by
  rw [wokenAt]
  split <;> omega

theorem Pc.wokenOn_of_rests (h : pc.rests = true) : pc.wokenOn = none := by
  unfold wokenOn
  split
  · cases h
  · cases h
  · rfl

end Ends

theorem Sys.Quiescent.woken {s : Sys N} (h : s.Quiescent) (c : Condv N) : s.woken c = 0 :=
  tally_eq_zero fun pc hpc => Pc.wokenAt_of_none (Pc.wokenOn_of_rests (h pc hpc))

/-! ## One signal -/

section Signal

variable {threads : List (Pc N)} {c : Condv N} {i : Nat} {pc : Pc N}

/-- A thread let out of its wait. -/
theorem tally_wake (hi : threads[i]? = some pc) (hpc : pc.blockedOn = some c) :
    tally (Pc.blockedAt c) (threads.set i pc.wake) + 1 = tally (Pc.blockedAt c) threads ∧
      tally (Pc.wokenAt c) (threads.set i pc.wake) = tally (Pc.wokenAt c) threads + 1 := by
  obtain ⟨hnot, hblocked, hwoken⟩ := Pc.wake_of_blocked hpc
  have hb := tally_set (f := Pc.blockedAt c) (b := pc.wake) hi
  have hw := tally_set (f := Pc.wokenAt c) (b := pc.wake) hi
  rw [Pc.blockedAt_of_none hblocked, Pc.blockedAt, if_pos hpc] at hb
  rw [Pc.wokenAt_of_none hnot, Pc.wokenAt, if_pos hwoken] at hw
  exact ⟨hb, hw⟩

/-- To the waiters of another condition variable that is nothing. -/
theorem tally_wake_other {c' : Condv N} (hi : threads[i]? = some pc)
    (hpc : pc.blockedOn = some c') (hne : c' ≠ c) :
    tally (Pc.blockedAt c) (threads.set i pc.wake) = tally (Pc.blockedAt c) threads ∧
      tally (Pc.wokenAt c) (threads.set i pc.wake) = tally (Pc.wokenAt c) threads := by
  obtain ⟨hnot, hblocked, hwoken⟩ := Pc.wake_of_blocked hpc
  have hb := tally_set (f := Pc.blockedAt c) (b := pc.wake) hi
  have hw := tally_set (f := Pc.wokenAt c) (b := pc.wake) hi
  have hne' : some c' ≠ some c := fun h => hne (Option.some.inj h)
  have hb0 : pc.blockedAt c = 0 := by rw [Pc.blockedAt, hpc, if_neg hne']
  have hw0 : pc.wake.wokenAt c = 0 := by rw [Pc.wokenAt, hwoken, if_neg hne']
  rw [Pc.blockedAt_of_none hblocked, hb0] at hb
  rw [Pc.wokenAt_of_none hnot, hw0] at hw
  exact ⟨hb, hw⟩

/-- `pthread_cond_signal` lets out one waiter, unless there is none. -/
theorem signal_waiter (threads : List (Pc N)) (pick : Nat) (c : Condv N) :
    (tally (Pc.blockedAt c) threads = 0 ∧ signal threads pick c = threads) ∨
      ∃ i pc, threads[i]? = some pc ∧ pc.blockedOn = some c ∧
        signal threads pick c = threads.set i pc.wake := by
  have hmodify : ∀ {i pc}, threads[i]? = some pc →
      threads.modify i Pc.wake = threads.set i pc.wake := by
    intro i pc hi
    rw [List.modify_eq_set_getElem?, hi]
    rfl
  unfold signal
  split
  · next hpick =>
      obtain ⟨pc, hi, hpc⟩ := Option.bind_eq_some_iff.mp hpick
      exact .inr ⟨pick, pc, hi, hpc, hmodify hi⟩
  split
  · next i hfind =>
      obtain ⟨hlt, hpc, -⟩ := List.findIdx?_eq_some_iff_getElem.mp hfind
      have hi := List.getElem?_eq_getElem hlt
      exact .inr ⟨i, threads[i], hi, of_decide_eq_true hpc, hmodify hi⟩
  · next hfind =>
      refine .inl ⟨tally_eq_zero fun pc hpc => if_neg ?_, rfl⟩
      exact of_decide_eq_false (List.findIdx?_eq_none_iff.mp hfind pc hpc)

theorem signal_other (threads : List (Pc N)) {c' : Condv N} (pick : Nat) (hne : c' ≠ c) :
    tally (Pc.blockedAt c) (signal threads pick c') = tally (Pc.blockedAt c) threads ∧
      tally (Pc.wokenAt c) (signal threads pick c') = tally (Pc.wokenAt c) threads := by
  rcases signal_waiter threads pick c' with ⟨-, h⟩ | ⟨i, pc, hi, hpc, h⟩
  · rw [h]
    exact ⟨rfl, rfl⟩
  · rw [h]
    exact tally_wake_other hi hpc hne

theorem signal_same (threads : List (Pc N)) (c : Condv N) (pick : Nat) :
    (tally (Pc.blockedAt c) threads = 0 ∧ signal threads pick c = threads) ∨
      (tally (Pc.blockedAt c) (signal threads pick c) + 1 = tally (Pc.blockedAt c) threads ∧
        tally (Pc.wokenAt c) (signal threads pick c) = tally (Pc.wokenAt c) threads + 1) := by
  rcases signal_waiter threads pick c with h | ⟨i, pc, hi, hpc, h⟩
  · exact .inl h
  · rw [h]
    exact .inr (tally_wake hi hpc)

end Signal

/-! ## One section -/

section Section

variable {server : MainServer N} {heap : Heap} {t : Nat} {env : Env} {pc : Pc N} {r : Result N}

/-- What a section can be to one condition variable. -/
inductive CondvRan (server : MainServer N) (c : Condv N) (pc : Pc N) (r : Result N) : Prop
  | keep (havail : r.server.avail c = server.avail c) (hblocked : r.pc.blockedAt c = 0)
      (hwoken : pc.wokenAt c = 0) (hsignals : r.signals ≠ some c)
  | wait (hnone : server.avail c = 0) (havail : r.server.avail c = 0)
      (hblocked : r.pc.blockedAt c = 1) (hsignals : r.signals ≠ some c)
  | take (havail : r.server.avail c + 1 = server.avail c) (hblocked : r.pc.blockedAt c = 0)
      (hsignals : r.signals ≠ some c)
  | give (havail : r.server.avail c = server.avail c + 1) (hblocked : r.pc.blockedAt c = 0)
      (hwoken : pc.wokenAt c = 0) (hsignals : r.signals = some c)

theorem Caller.next_unwaiting (caller : Caller) (job : Ptr) :
    (caller.next job : Pc N).blockedOn = none := by
  cases caller <;> rfl

theorem avail_setQueue_other {c : Condv N} {i : Fin N} (q : Queue) (hput : c ≠ .put i)
    (hget : c ≠ .get i) : (server.setQueue i q).avail c = server.avail c := by
  cases c with
  | put j =>
      have hj : j ≠ i := fun h => hput (h ▸ rfl)
      rw [MainServer.avail, setQueue_other q hj, MainServer.avail]
  | get j =>
      have hj : j ≠ i := fun h => hget (h ▸ rfl)
      rw [MainServer.avail, setQueue_other q hj, MainServer.avail]

theorem avail_put_same {i : Fin N} (q : Queue) :
    (server.setQueue i q).avail (.put i) = maxJobsQueue - q.count := by
  rw [MainServer.avail, setQueue_same]

theorem avail_get_same {i : Fin N} (q : Queue) :
    (server.setQueue i q).avail (.get i) = q.count := by
  rw [MainServer.avail, setQueue_same]

theorem Pc.wokenAt_putJob {c : Condv N} {caller : Caller} {i : Fin N} {job : Ptr} {wait : Wait}
    (h : c ≠ .put i) : (Pc.putJob caller i job wait).wokenAt c = 0 := by
  cases wait with
  | woken => exact if_neg fun h' => h (Option.some.inj h').symm
  | _ => rfl

theorem Pc.wokenAt_getJob {c : Condv N} {i : Fin N} {wait : Wait} (h : c ≠ .get i) :
    (Pc.getJob i wait).wokenAt c = 0 := by
  cases wait with
  | woken => exact if_neg fun h' => h (Option.some.inj h').symm
  | _ => rfl

variable [NeZero N]

theorem Ran.condv (h : Ran server heap t env pc r)
    (hbound : ∀ i, (server.queue i).count ≤ maxJobsQueue) (c : Condv N) :
    CondvRan server c pc r := by
  cases h with
  | @putJobWait caller i job wait hput =>
      by_cases hc : c = .put i
      · subst hc
        have hnone : server.avail (.put i) = 0 := by
          rw [MainServer.avail, Queue.putJob_eq_none.mp hput, Nat.sub_self]
        exact .wait hnone hnone (if_pos rfl) (fun h => nomatch h)
      · refine .keep rfl (if_neg fun h => hc (Option.some.inj h).symm) ?_ (fun h => nomatch h)
        exact Pc.wokenAt_putJob hc
  | @putJob caller i job wait q hput =>
      obtain ⟨hlt, hcount, -⟩ := Queue.putJob_next (hbound i) hput
      have hnext := Pc.blockedAt_of_none (c := c) (caller.next_unwaiting (N := N) job)
      by_cases hc : c = .put i
      · subst hc
        refine .take ?_ hnext (fun h => nomatch h)
        rw [avail_put_same, MainServer.avail]
        omega
      by_cases hc' : c = .get i
      · subst hc'
        refine .give ?_ hnext (Pc.wokenAt_putJob hc) rfl
        rw [avail_get_same, MainServer.avail, hcount]
      · refine .keep (avail_setQueue_other q hc hc') hnext (Pc.wokenAt_putJob hc) ?_
        exact fun h => hc' (Option.some.inj h).symm
  | @getJobWait i wait hget =>
      by_cases hc : c = .get i
      · subst hc
        have hnone : server.avail (.get i) = 0 := Queue.getJob_eq_none.mp hget
        exact .wait hnone hnone (if_pos rfl) (fun h => nomatch h)
      · refine .keep rfl (if_neg fun h => hc (Option.some.inj h).symm) ?_ (fun h => nomatch h)
        exact Pc.wokenAt_getJob hc
  | @getJob i wait job q hget =>
      obtain ⟨hcount, -⟩ := Queue.getJob_next hget
      by_cases hc : c = .get i
      · subst hc
        refine .take ?_ rfl (fun h => nomatch h)
        rw [avail_get_same, MainServer.avail, hcount]
      by_cases hc' : c = .put i
      · subst hc'
        refine .give ?_ rfl (Pc.wokenAt_getJob hc) rfl
        have := hbound i
        rw [avail_put_same, MainServer.avail]
        omega
      · refine .keep (avail_setQueue_other q hc' hc) rfl (Pc.wokenAt_getJob hc) ?_
        exact fun h => hc' (Option.some.inj h).symm
  | @removeJob jobid i found rm hr =>
      rcases Queue.removeJob_next hr with ⟨-, rfl⟩ | ⟨hcount, -, hsignals⟩
      · refine .keep ?_ rfl rfl (fun h => nomatch h)
        rw [MainServer.setQueue, Function.update_eq_self]
      have hbound := hbound i
      have hput : (if rm.signals = true then some (Condv.put i) else none) = some (.put i) :=
        if_pos hsignals
      by_cases hc : c = .put i
      · subst hc
        refine .give ?_ rfl rfl hput
        rw [avail_put_same, MainServer.avail]
        omega
      have hother : (if rm.signals = true then some (Condv.put i) else none) ≠ some c := by
        rw [hput]
        exact fun h => hc (Option.some.inj h).symm
      by_cases hc' : c = .get i
      · subst hc'
        refine .take ?_ rfl hother
        rw [avail_get_same, MainServer.avail, hcount]
      · exact .keep (avail_setQueue_other rm.queue hc hc') rfl rfl hother
  | _ => exact .keep rfl rfl rfl (fun h => nomatch h)

/-- A thread that has held the mutex is not on its way out of a wait. -/
theorem Ran.wokenOn (h : Ran server heap t env pc r) : r.pc.wokenOn = none := by
  cases h with
  | @putJob caller => cases caller <;> rfl
  | _ => rfl

/-- No section puts more into a queue than it has room for. -/
theorem Ran.count_le (h : Ran server heap t env pc r)
    (hbound : ∀ i, (server.queue i).count ≤ maxJobsQueue) (i : Fin N) :
    (r.server.queue i).count ≤ maxJobsQueue := by
  have hi := hbound i
  cases h.queue i with
  | keep hkeep => rw [hkeep]; exact hi
  | put hput hserver =>
      obtain ⟨hlt, hcount, -⟩ := Queue.putJob_next hi hput
      rw [hserver, setQueue_same]
      omega
  | get hget hserver =>
      obtain ⟨hcount, -⟩ := Queue.getJob_next hget
      rw [hserver, setQueue_same]
      omega
  | remove hr hserver =>
      rw [hserver, setQueue_same]
      rcases Queue.removeJob_next hr with ⟨-, rfl⟩ | ⟨hcount, -⟩
      · exact hi
      · omega

end Section

/-! ## One step -/

section Steps

variable [NeZero N] {s s' : Sys N} {a : Action} {c : Condv N}

omit [NeZero N] in
/-- What a signal, if there is one, is to the waiters of `c`. -/
theorem commit_waiters (s : Sys N) (t pick : Nat) (r : Result N) (c : Condv N) :
    (r.signals ≠ some c →
      (s.commit t pick r).blocked c = tally (Pc.blockedAt c) (s.threads.set t r.pc) ∧
      (s.commit t pick r).woken c = tally (Pc.wokenAt c) (s.threads.set t r.pc)) ∧
    (r.signals = some c →
      (s.commit t pick r).threads = signal (s.threads.set t r.pc) pick c) := by
  refine ⟨fun hne => ?_, fun heq => ?_⟩
  · cases hsig : r.signals with
    | none => simp only [Sys.blocked, Sys.woken, Sys.commit, hsig, Option.elim_none, and_self]
    | some c' =>
        have hother := signal_other (c := c) (s.threads.set t r.pc) pick fun h => hne (h ▸ hsig)
        simpa only [Sys.blocked, Sys.woken, Sys.commit, hsig, Option.elim_some] using hother
  · simp only [Sys.commit, heq, Option.elim_some]

/-- The thread that ran goes first, then the one that it let out. -/
theorem commit_monitor {t : Nat} {env : Env} {pc : Pc N} {r : Result N}
    (ht : s.threads[t]? = some pc) (hpc : pc.blockedOn = none)
    (hran : Ran s.server s.heap t env pc r)
    (hbound : ∀ i, (s.server.queue i).count ≤ maxJobsQueue) (c : Condv N) :
    Monitor.Step (s.monitor c) ((s.commit t env.pick r).monitor c) := by
  have hb := tally_set (f := Pc.blockedAt c) (b := r.pc) ht
  have hw := tally_set (f := Pc.wokenAt c) (b := r.pc) ht
  rw [Pc.blockedAt_of_none hpc] at hb
  rw [Pc.wokenAt_of_none hran.wokenOn] at hw
  obtain ⟨hquiet, hloud⟩ := commit_waiters s t env.pick r c
  cases hran.condv hbound c with
  | keep havail hblocked hwoken hsignals =>
      obtain ⟨hb', hw'⟩ := hquiet hsignals
      rw [hblocked] at hb
      rw [hwoken] at hw
      refine .keep ?_
      show Monitor.mk _ _ _ = Monitor.mk _ _ _
      rw [hb', hw']
      exact congr (congrArg₂ Monitor.mk havail hb) hw
  | wait hnone havail hblocked hsignals =>
      obtain ⟨hb', hw'⟩ := hquiet hsignals
      rw [hblocked] at hb
      exact .wait (pc.wokenAt c) hnone havail (hb'.trans hb) ((congrArg (· + _) hw').trans hw)
  | take havail hblocked hsignals =>
      obtain ⟨hb', hw'⟩ := hquiet hsignals
      rw [hblocked] at hb
      exact .take (pc.wokenAt c) (pc.wokenAt_le c) havail (hb'.trans hb)
        ((congrArg (· + _) hw').trans hw)
  | give havail hblocked hwoken hsignals =>
      have hthreads := hloud hsignals
      rw [hblocked] at hb
      rw [hwoken] at hw
      rcases signal_same (s.threads.set t r.pc) c env.pick with
        ⟨hnone, hsame⟩ | ⟨hb', hw'⟩
      · rw [hsame] at hthreads
        refine .give havail (hb.symm.trans hnone) ?_ ?_
        · exact (congrArg (tally _) hthreads).trans hnone
        · exact (congrArg (tally _) hthreads).trans hw
      · rw [← hthreads] at hb' hw'
        exact .signal havail (hb'.trans hb) (hw'.trans (congrArg (· + 1) hw))

omit [NeZero N] in
/-- A thread that comes to stand elsewhere, without waiting there or here. -/
theorem monitor_set {t : Nat} {pc pc' : Pc N} (ht : s.threads[t]? = some pc)
    (hpc : pc.blockedOn = none ∧ pc.wokenOn = none)
    (hpc' : pc'.blockedOn = none ∧ pc'.wokenOn = none) (c : Condv N) :
    tally (Pc.blockedAt c) (s.threads.set t pc') = s.blocked c ∧
      tally (Pc.wokenAt c) (s.threads.set t pc') = s.woken c := by
  have hb := tally_set (f := Pc.blockedAt c) (b := pc') ht
  have hw := tally_set (f := Pc.wokenAt c) (b := pc') ht
  rw [Pc.blockedAt_of_none hpc.1, Pc.blockedAt_of_none hpc'.1] at hb
  rw [Pc.wokenAt_of_none hpc.2, Pc.wokenAt_of_none hpc'.2] at hw
  exact ⟨hb, hw⟩

/-- A step of the server is a step of every monitor. -/
theorem Sys.monitor_step (hbound : ∀ i, (s.server.queue i).count ≤ maxJobsQueue)
    (h : s.step a = some s') (c : Condv N) : Monitor.Step (s.monitor c) (s'.monitor c) := by
  have hkeep : ∀ {threads : List (Pc N)}, tally (Pc.blockedAt c) threads = s.blocked c ∧
      tally (Pc.wokenAt c) threads = s.woken c →
        (⟨s.server.avail c, tally (Pc.blockedAt c) threads, tally (Pc.wokenAt c) threads⟩ :
          Monitor) = s.monitor c := fun ⟨hb, hw⟩ => by rw [hb, hw]; rfl
  cases (step_cases h).2 with
  | @accept _ pc _ hpc =>
      obtain ⟨hb, hw⟩ := (Pc.request_of_idle hpc).unwaiting
      refine .keep (hkeep ?_)
      simp only [tally_append, tally_cons, tally_nil, Pc.blockedAt_of_none hb,
        Pc.wokenAt_of_none hw, Nat.add_zero]
      exact ⟨rfl, rfl⟩
  | @accepted t pkg blank job ht =>
      exact .keep (hkeep (monitor_set ht ⟨rfl, rfl⟩ ⟨rfl, rfl⟩ c))
  | @moved _ t pc pc' _ ht hpc hpc' =>
      exact .keep (hkeep (monitor_set ht (Pc.request_of_idle hpc).unwaiting hpc'.unwaiting c))
  | @wakeup t pc ht =>
      cases hpc : pc.blockedOn with
      | none =>
          obtain ⟨hlt, rfl⟩ := List.getElem?_eq_some_iff.mp ht
          refine .keep (hkeep ?_)
          rw [Pc.wake_of_not hpc, List.set_getElem_self]
          exact ⟨rfl, rfl⟩
      | some c' =>
          by_cases hc : c' = c
          · subst hc
            obtain ⟨hb, hw⟩ := tally_wake ht hpc
            exact .spurious rfl hb hw
          · exact .keep (hkeep (tally_wake_other ht hpc hc))
  | @ran t env pc r ht hran =>
      have hpc : pc.blockedOn = none := by
        rcases step_run_eq h ht with ⟨_, hrun, -⟩ | ⟨_, hrun, -⟩
        · exact blockedOn_of_run hrun
        · exact blockedOn_of_run hrun
      exact commit_monitor ht hpc hran hbound c
  | faulted => exact .keep rfl

theorem Sys.count_le_step (hbound : ∀ i, (s.server.queue i).count ≤ maxJobsQueue)
    (h : s.step a = some s') (i : Fin N) : (s'.server.queue i).count ≤ maxJobsQueue := by
  rcases (step_cases h).2.server_cases with ⟨hserver, -⟩ | ⟨t, env, pc, r, -, -, hran, rfl⟩
  · rw [hserver]
    exact hbound i
  · exact hran.count_le hbound i

omit [NeZero N] in
theorem Sys.Fresh.awake (h : s.Fresh) (c : Condv N) : (s.monitor c).Awake :=
  Monitor.awake_of_none (tally_eq_zero fun pc hpc => Pc.blockedAt_of_none (h.1 pc hpc).1)

end Steps

/-! ## Runs -/

section Runs

variable [NeZero N] {ok : Sys N → Action → Prop} {s : Sys N}

theorem awake_of_reach (h : Reach Sys.step ok Sys.Fresh s) :
    (∀ i, (s.server.queue i).count ≤ maxJobsQueue) ∧ ∀ c, (s.monitor c).Awake :=
  h.invariant (I := fun s => (∀ i, (s.server.queue i).count ≤ maxJobsQueue) ∧
      ∀ c, (s.monitor c).Awake) (fun _ h => ⟨h.2, h.awake⟩) fun _ _ _ _ ⟨hbound, hawake⟩ _ h =>
    ⟨Sys.count_le_step hbound h, fun c => (Sys.monitor_step hbound h c).awake (hawake c)⟩

/-- Whatever the threads are doing at the start and whoever comes first
afterwards: with a thread inside the wait of `sendJob`, the threads let out of
it are no fewer than the jobs, and with one inside the wait of `putJob`, no
fewer than the free slots. Where nothing moves any more, a thread asleep means
an empty queue, or a full one. -/
theorem no_wakeup_lost (h : Reach Sys.step anyStep Sys.Fresh s) (i : Fin N) :
    (s.blocked (.get i) ≠ 0 → (s.server.queue i).count ≤ s.woken (.get i)) ∧
    (s.blocked (.put i) ≠ 0 → maxJobsQueue - (s.server.queue i).count ≤ s.woken (.put i)) ∧
    (s.Quiescent →
      (s.blocked (.get i) ≠ 0 → (s.server.queue i).count = 0) ∧
      (s.blocked (.put i) ≠ 0 → (s.server.queue i).count = maxJobsQueue)) := by
  obtain ⟨hbound, hawake⟩ := awake_of_reach h
  refine ⟨hawake (.get i), hawake (.put i), fun hq => ⟨(hawake (.get i)).rest (hq.woken _), ?_⟩⟩
  intro hb
  have hfree := (hawake (.put i)).rest (hq.woken _) hb
  exact Nat.le_antisymm (hbound i) (Nat.sub_eq_zero_iff_le.mp hfree)

/-- Two dispatchers wait, and one job is put: one of them is on its way to it. -/
theorem no_wakeup_lost_two :
    ∃ s : Sys 1, Reach Sys.step anyStep Sys.Fresh s ∧ s.blocked (.get 0) = 1 ∧
      (s.server.queue 0).count = 1 ∧ (s.server.queue 0).count ≤ s.woken (.get 0) := by
  obtain ⟨s, hr, hblocked, hcount⟩ :
      ∃ s : Sys 1, Reach Sys.step anyStep Sys.Fresh s ∧ s.blocked (.get 0) = 1 ∧
        (s.server.queue 0).count = 1 :=
    @reach_of_checkedRun _ _ _ _ _ _
      [.acceptClient, .acceptExecServ, .acceptExecServ, .request 1, .go 1, .go 1, .request 2,
        .go 2, .go 2, .submit 0, .go 0, .go 0, .go 0, .go 0] (Sys.init 1) _ _ fresh_init
      (by decide +kernel)
  exact ⟨s, hr, hblocked, hcount,
    (no_wakeup_lost hr 0).1 (by rw [hblocked]; exact Nat.one_ne_zero)⟩

end Runs

end DistQueue
