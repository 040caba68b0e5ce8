import DistQueue.Lib.Turns
import DistQueue.Server.Wakeup

/-!
# Whose turn it is

`queue2put` and `queue2get` go round the queues independently of each other,
and a thread commits itself to a queue before it has looked at it. Both
counters name the same queues in the same order, so what keeps a dispatcher
from waiting at one queue while there is work in another is only that every
job that was put is also fetched. A removal takes a job and no turn: from then
on the dispatchers are one turn behind at that queue, and no step of the server
makes up for it.
-/

namespace DistQueue

open DistQueue.Lib

variable {N : Nat}

/-! ## Turns taken -/

section Defs

variable [NeZero N]

/-- The queue that a thread with a job has been told to put it into. -/
def Pc.putsTo : Pc N → Option (Fin N)
  | .numberJob _ queueIdx | .submittedResponse _ queueIdx _ => some (queueAt queueIdx.toNat)
  | .putJob _ i _ _ => some i
  | _ => none

/-- The queue that a thread without one has been told to fetch it from. -/
def Pc.getsFrom : Pc N → Option (Fin N)
  | .getJob i _ => some i
  | _ => none

def Event.gotOn (i : Fin N) : Event N → Nat
  | .got _ j _ => if j = i then 1 else 0
  | _ => 0

/-- A `removeJob` that found the queue empty has taken nothing. -/
def Event.takenOn (i : Fin N) : Event N → Nat
  | .removed _ j _ _ gone => if j = i ∧ gone ≠ [] then 1 else 0
  | _ => 0

def Pc.heads (i : Fin N) (pc : Pc N) : Nat := if pc.putsTo = some i then 1 else 0

def Pc.fetches (i : Fin N) (pc : Pc N) : Nat := if pc.getsFrom = some i then 1 else 0

namespace Sys

/-- How many jobs `sendJob` has taken out of a queue. -/
def gots (s : Sys N) (i : Fin N) : Nat := tally (Event.gotOn i) s.log

/-- How many jobs `unsubmit` has taken out of a queue. -/
def taken (s : Sys N) (i : Fin N) : Nat := tally (Event.takenOn i) s.log

/-- The threads on their way to put a job into a queue. -/
def heading (s : Sys N) (i : Fin N) : Nat := tally (Pc.heads i) s.threads

/-- The threads on their way to take a job out of it. -/
def fetching (s : Sys N) (i : Fin N) : Nat := tally (Pc.fetches i) s.threads

end Sys

/-- The queue that either counter names at its turn `k`. -/
def turnQueue (k : Nat) : Fin N := queueAt ((UInt32.ofNat k).toNat % N)

/-- The counters have been through `a` and `g` turns, and every turn is a job
put, or taken out, or a thread on its way to do it. -/
structure Sys.InTurn (s : Sys N) (a g : Nat) : Prop where
  put : s.server.queue2put = UInt32.ofNat a
  get : s.server.queue2get = UInt32.ofNat g
  puts : ∀ i, turns turnQueue a i = s.puts i + s.heading i
  gots : ∀ i, turns turnQueue g i = s.gots i + s.fetching i

/-- What was put into a queue is in it, or was taken out. -/
def Sys.Balanced (s : Sys N) : Prop :=
  ∀ i, (s.server.queue i).count + s.gots i + s.taken i = s.puts i

end Defs

/-! ## One section -/

section Section

variable [NeZero N] {server : MainServer N} {heap : Heap} {t : Nat} {env : Env} {pc : Pc N}
  {r : Result N}

/-- What a section does about turns: it takes one, or what it had to do stays
as it was. -/
inductive TurnRan (server : MainServer N) (pc : Pc N) (r : Result N) : Prop
  | keep (hput : r.server.queue2put = server.queue2put)
      (hget : r.server.queue2get = server.queue2get)
      (hputs : ∀ i, r.pc.heads i + tally (Event.putOn i) r.events = pc.heads i)
      (hgots : ∀ i, r.pc.fetches i + tally (Event.gotOn i) r.events = pc.fetches i)
  | put (hput : r.server.queue2put = server.queue2put + 1)
      (hget : r.server.queue2get = server.queue2get)
      (hputs : ∀ i, r.pc.heads i = (if queueAt (server.queue2put.toNat % N) = i then 1 else 0) +
        pc.heads i)
      (hgots : ∀ i, r.pc.fetches i = pc.fetches i) (hevents : r.events = [])
  | get (hput : r.server.queue2put = server.queue2put)
      (hget : r.server.queue2get = server.queue2get + 1)
      (hputs : ∀ i, r.pc.heads i = pc.heads i)
      (hgots : ∀ i, r.pc.fetches i =
        (if queueAt (server.queue2get.toNat % N) = i then 1 else 0) + pc.fetches i)
      (hevents : r.events = [])

theorem Pc.heads_of_putsTo {i j : Fin N} (h : pc.putsTo = some j) :
    pc.heads i = if j = i then 1 else 0 := by
  simp only [heads, h, Option.some.injEq]

/-- `uint16_t queue_idx` has room for the number of a queue. -/
theorem queueAt_uint16 (hN : N ≤ 2 ^ 16) (k : Nat) :
    (queueAt (UInt16.ofNat (k % N)).toNat : Fin N) = queueAt (k % N) := by
  have hlt : k % N < 2 ^ 16 := Nat.lt_of_lt_of_le (Nat.mod_lt _ (Nat.pos_of_neZero N)) hN
  rw [UInt16.toNat_ofNat', Nat.mod_eq_of_lt hlt]

theorem Ran.turn (hN : N ≤ 2 ^ 16) (h : Ran server heap t env pc r) : TurnRan server pc r := by
  cases h with
  | newJob =>
      refine .put rfl rfl (fun i => ?_) (fun _ => rfl) rfl
      rw [Pc.heads_of_putsTo rfl, queueAt_uint16 hN]
      rfl
  | putJobBack =>
      refine .put rfl rfl (fun i => ?_) (fun _ => rfl) rfl
      rw [Pc.heads_of_putsTo rfl]
      rfl
  | sendJob =>
      refine .get rfl rfl (fun _ => rfl) (fun i => ?_) rfl
      simp only [Pc.fetches, Pc.getsFrom, Option.some.injEq]
      rfl
  | @putJob caller j job wait q hput =>
      refine .keep rfl rfl (fun i => ?_) (fun i => ?_)
      · have hnext : (caller.next job : Pc N).heads i = 0 := by cases caller <;> rfl
        rw [hnext, Pc.heads_of_putsTo rfl, Nat.zero_add]
        rfl
      · cases caller <;> rfl
  | @getJob j wait job q hget =>
      refine .keep rfl rfl (fun _ => rfl) (fun i => ?_)
      simp only [Pc.fetches, Pc.getsFrom, Option.some.injEq]
      exact Nat.zero_add _
  | submittedResponse | reply =>
      refine .keep rfl rfl (fun i => ?_) (fun i => ?_)
      · dsimp only
        split <;> rfl
      · dsimp only
        split <;> rfl
  | _ => exact .keep rfl rfl (fun _ => rfl) (fun _ => rfl)

section Diff

variable {α : Type*} [BEq α] [LawfulBEq α]

theorem diff_self (l : List α) : l.diff l = [] := by
  induction l with
  | nil => rfl
  | cons a l ih => rw [List.diff_cons, List.erase_cons_head, ih]

theorem length_le_diff (l l' : List α) : l.length ≤ (l.diff l').length + l'.length := by
  induction l' generalizing l with
  | nil => exact Nat.le_add_right _ _
  | cons a l' ih =>
      have herase : l.length ≤ (l.erase a).length + 1 := by
        rw [List.length_erase]
        split <;> omega
      have := ih (l.erase a)
      rw [List.diff_cons, List.length_cons]
      omega

end Diff

theorem Ran.balance (h : Ran server heap t env pc r)
    (hbound : ∀ i, (server.queue i).count ≤ maxJobsQueue) (i : Fin N) :
    (r.server.queue i).count + tally (Event.gotOn i) r.events + tally (Event.takenOn i) r.events =
      (server.queue i).count + tally (Event.putOn i) r.events := by
  cases h with
  | @putJob caller j job wait q hput =>
      obtain ⟨-, hcount, -⟩ := Queue.putJob_next (hbound j) hput
      simp only [tally_cons, tally_nil, Event.gotOn, Event.takenOn, Event.putOn]
      by_cases hij : j = i
      · subst hij
        rw [setQueue_same, if_pos rfl, hcount]
      · rw [setQueue_other q (Ne.symm hij), if_neg hij]
  | @getJob j wait job q hget =>
      obtain ⟨hcount, -⟩ := Queue.getJob_next hget
      simp only [tally_cons, tally_nil, Event.gotOn, Event.takenOn, Event.putOn]
      by_cases hij : j = i
      · subst hij
        rw [setQueue_same, if_pos rfl, ← hcount]
      · rw [setQueue_other q (Ne.symm hij), if_neg hij]
  | @removeJob jobid j found rm hr =>
      simp only [tally_cons, tally_nil, Event.gotOn, Event.takenOn, Event.putOn]
      by_cases hij : j = i
      · subst hij
        rw [setQueue_same]
        rcases Queue.removeJob_next hr with ⟨-, rfl⟩ | ⟨hcount, -⟩
        · rw [diff_self, if_neg fun h => h.2 rfl]
        · have hlost : (server.queue j).live.diff rm.queue.live ≠ [] := by
            intro hnil
            have hle := length_le_diff (server.queue j).live rm.queue.live
            rw [hnil, Queue.length_live, Queue.length_live, List.length_nil] at hle
            omega
          rw [if_pos ⟨rfl, hlost⟩, ← hcount]
      · rw [setQueue_other rm.queue (Ne.symm hij), if_neg fun h => hij h.1]
  | submittedResponse | reply =>
      dsimp only
      split <;> rfl
  | _ => rfl

end Section

/-! ## One step -/

section Steps

variable [NeZero N] {s s' : Sys N} {a : Action}

theorem Pc.heads_wake (i : Fin N) (pc : Pc N) : pc.wake.heads i = pc.heads i := by
  unfold Pc.wake
  split <;> rfl

omit [NeZero N] in
theorem Pc.fetches_wake (i : Fin N) (pc : Pc N) : pc.wake.fetches i = pc.fetches i := by
  unfold Pc.wake
  split <;> rfl

theorem Pc.Request.noTurn {pc : Pc N} (h : pc.Request) (i : Fin N) :
    pc.heads i = 0 ∧ pc.fetches i = 0 := by
  cases pc <;> first | exact ⟨rfl, rfl⟩ | cases h

theorem Sys.Balanced.step (hbound : ∀ i, (s.server.queue i).count ≤ maxJobsQueue)
    (hb : s.Balanced) (h : s.step a = some s') : s'.Balanced := by
  intro i
  have hi := hb i
  rcases (step_cases h).2.server_cases with
    ⟨hserver, hlog | ⟨t, hlog⟩⟩ | ⟨t, env, pc, r, -, -, hran, rfl⟩
  · simp only [Sys.gots, Sys.taken, Sys.puts, hserver, hlog]
    exact hi
  · simp only [Sys.gots, Sys.taken, Sys.puts, hserver, hlog, tally_append, tally_cons, tally_nil,
      Event.gotOn, Event.takenOn, Event.putOn]
    exact hi
  · have hr := hran.balance hbound i
    simp only [Sys.gots, Sys.taken, Sys.puts, Sys.commit, tally_append] at hi ⊢
    omega

omit [NeZero N] in
/-- A thread that came to stand elsewhere, with as large a share as before. -/
theorem tally_set_same {f : Pc N → Nat} {t : Nat} {pc pc' : Pc N} (ht : s.threads[t]? = some pc)
    (h : f pc' = f pc) : tally f (s.threads.set t pc') = tally f s.threads := by
  have hset := tally_set (f := f) (b := pc') ht
  omega

theorem Sys.InTurn.idle {n g : Nat} (hs : s.InTurn n g) (hserver : s'.server = s.server)
    (hheading : ∀ i, s'.heading i = s.heading i) (hfetching : ∀ i, s'.fetching i = s.fetching i)
    (hputs : ∀ i, s'.puts i = s.puts i) (hgots : ∀ i, s'.gots i = s.gots i) : s'.InTurn n g where
  put := by rw [hserver, hs.put]
  get := by rw [hserver, hs.get]
  puts := fun i => by rw [hputs, hheading, hs.puts]
  gots := fun i => by rw [hgots, hfetching, hs.gots]

/-- Behind a section the counters are where they were, or one of them is one
turn on. -/
theorem Sys.InTurn.commit {n g : Nat} (hs : s.InTurn n g) {t pick : Nat} {pc : Pc N} {r : Result N}
    (ht : s.threads[t]? = some pc) (hr : TurnRan s.server pc r) :
    (s.commit t pick r).InTurn n g ∨ (s.commit t pick r).InTurn (n + 1) g ∨
      (s.commit t pick r).InTurn n (g + 1) := by
  have hheading : ∀ i, (s.commit t pick r).heading i + pc.heads i = s.heading i + r.pc.heads i :=
    fun i => tally_commit (Pc.heads_wake i) ht pick r
  have hfetching : ∀ i,
      (s.commit t pick r).fetching i + pc.fetches i = s.fetching i + r.pc.fetches i :=
    fun i => tally_commit (Pc.fetches_wake i) ht pick r
  have hputs : ∀ i, (s.commit t pick r).puts i = s.puts i + tally (Event.putOn i) r.events :=
    fun i => tally_append ..
  have hgots : ∀ i, (s.commit t pick r).gots i = s.gots i + tally (Event.gotOn i) r.events :=
    fun i => tally_append ..
  cases hr with
  | keep hput hget hkeep hkeep' =>
      refine .inl ⟨hput.trans hs.put, hget.trans hs.get, fun i => ?_, fun i => ?_⟩
      · have := hs.puts i
        have := hkeep i
        have := hheading i
        have := hputs i
        omega
      · have := hs.gots i
        have := hkeep' i
        have := hfetching i
        have := hgots i
        omega
  | put hput hget hnew hsame hevents =>
      refine .inr (.inl ⟨?_, hget.trans hs.get, fun i => ?_, fun i => ?_⟩)
      · exact hput.trans (hs.put ▸ (UInt32.ofNat_add n 1).symm)
      · have := hs.puts i
        have := hnew i
        have := hheading i
        have hsame := hputs i
        rw [hevents, tally_nil] at hsame
        rw [turns_succ, turnQueue, ← hs.put]
        omega
      · have := hs.gots i
        have := hsame i
        have := hfetching i
        have hsame := hgots i
        rw [hevents, tally_nil] at hsame
        omega
  | get hput hget hsame hnew hevents =>
      refine .inr (.inr ⟨hput.trans hs.put, ?_, fun i => ?_, fun i => ?_⟩)
      · exact hget.trans (hs.get ▸ (UInt32.ofNat_add g 1).symm)
      · have := hs.puts i
        have := hsame i
        have := hheading i
        have hsame := hputs i
        rw [hevents, tally_nil] at hsame
        omega
      · have := hs.gots i
        have := hnew i
        have := hfetching i
        have hsame := hgots i
        rw [hevents, tally_nil] at hsame
        rw [turns_succ, turnQueue, ← hs.get]
        omega

/-- The turns behind a step. -/
theorem Sys.InTurn.step {n g : Nat} (hN : N ≤ 2 ^ 16) (hs : s.InTurn n g)
    (h : s.step a = some s') :
    s'.InTurn n g ∨ s'.InTurn (n + 1) g ∨ s'.InTurn n (g + 1) := by
  cases (step_cases h).2 with
  | @accept _ pc _ hpc =>
      have hnone := (Pc.request_of_idle hpc).noTurn
      refine .inl (hs.idle rfl (fun i => ?_) (fun i => ?_) (fun _ => rfl) (fun _ => rfl))
      · simp only [Sys.heading, tally_append, tally_cons, tally_nil, (hnone i).1, Nat.add_zero]
      · simp only [Sys.fetching, tally_append, tally_cons, tally_nil, (hnone i).2, Nat.add_zero]
  | @accepted t pkg blank job ht =>
      refine .inl (hs.idle rfl (fun i => ?_) (fun i => ?_) (fun i => ?_) (fun i => ?_))
      · exact tally_set_same ht rfl
      · exact tally_set_same ht rfl
      · exact tally_append ..
      · exact tally_append ..
  | @moved _ t pc pc' _ ht hpc hpc' =>
      have hnone := (Pc.request_of_idle hpc).noTurn
      have hnone' := hpc'.noTurn
      refine .inl (hs.idle rfl (fun i => ?_) (fun i => ?_) (fun _ => rfl) (fun _ => rfl))
      · exact tally_set_same ht ((hnone' i).1.trans (hnone i).1.symm)
      · exact tally_set_same ht ((hnone' i).2.trans (hnone i).2.symm)
  | @wakeup t pc ht =>
      refine .inl (hs.idle rfl (fun i => ?_) (fun i => ?_) (fun _ => rfl) (fun _ => rfl))
      · exact tally_set_same ht (Pc.heads_wake i pc)
      · exact tally_set_same ht (Pc.fetches_wake i pc)
  | @ran t env pc r ht hran => exact hs.commit ht (hran.turn hN)
  | faulted => exact .inl (hs.idle rfl (fun _ => rfl) (fun _ => rfl) (fun _ => rfl) (fun _ => rfl))

end Steps

/-! ## Runs -/

section Runs

variable [NeZero N] {s : Sys N}

/-- Neither counter is about to start again from 0, or it does not matter to
the queues that it names. -/
def Sys.InStep (s : Sys N) (_ : Action) : Prop :=
  N ∣ 2 ^ 32 ∨ (s.server.queue2put + 1 ≠ 0 ∧ s.server.queue2get + 1 ≠ 0)

instance (s : Sys N) (a : Action) : Decidable (s.InStep a) :=
  inferInstanceAs (Decidable (_ ∨ _))

theorem inTurn_init : (Sys.init N).InTurn 0 0 :=
  ⟨rfl, rfl, fun _ => turns_zero, fun _ => turns_zero⟩

theorem inTurn_of_reach (hN : N ≤ 2 ^ 16) (h : Reach Sys.step anyStep (· = Sys.init N) s) :
    ∃ n g, s.InTurn n g := by
  refine h.invariant (I := fun s => ∃ n g, s.InTurn n g) (fun _ h => ⟨0, 0, h ▸ inTurn_init⟩)
    fun s a s' _ hs _ h => ?_
  obtain ⟨n, g, hs⟩ := hs
  rcases hs.step hN h with h | h | h
  · exact ⟨_, _, h⟩
  · exact ⟨_, _, h⟩
  · exact ⟨_, _, h⟩

theorem lt_of_next {n : Nat} {c : UInt32} (hn : n < 2 ^ 32) (hc : c = UInt32.ofNat n)
    (hnext : c + 1 ≠ 0) : n + 1 < 2 ^ 32 := by
  refine Nat.lt_of_le_of_ne hn fun heq => hnext ?_
  rw [hc, ← UInt32.toNat_inj, UInt32.toNat_add, UInt32.toNat_ofNat', Nat.mod_eq_of_lt hn]
  have hone : (1 : UInt32).toNat = 1 := rfl
  rw [hone, heq]
  rfl

/-- The turns of a run whose counters have not started again. -/
theorem inTurn_of_reach_below (hN : N ≤ 2 ^ 16)
    (h : Reach Sys.step (fun s _ => s.server.queue2put + 1 ≠ 0 ∧ s.server.queue2get + 1 ≠ 0)
      (· = Sys.init N) s) :
    ∃ n g, s.InTurn n g ∧ n < 2 ^ 32 ∧ g < 2 ^ 32 := by
  refine h.invariant (I := fun s => ∃ n g, s.InTurn n g ∧ n < 2 ^ 32 ∧ g < 2 ^ 32)
    (fun _ h => ⟨0, 0, h ▸ inTurn_init, by decide, by decide⟩) fun s a s' _ hs hok h => ?_
  obtain ⟨n, g, hs, hn, hg⟩ := hs
  rcases hs.step hN h with h | h | h
  · exact ⟨_, _, h, hn, hg⟩
  · exact ⟨_, _, h, lt_of_next hn hs.put hok.1, hg⟩
  · exact ⟨_, _, h, hn, lt_of_next hg hs.get hok.2⟩

omit [NeZero N] in
theorem balanced_init : (Sys.init N).Balanced :=
  fun _ => show Queue.init.count + 0 + 0 = 0 by decide

theorem balanced_of_reach (h : Reach Sys.step anyStep (· = Sys.init N) s) :
    s.Balanced ∧ ∀ c, (s.monitor c).Awake := by
  have hfresh : Reach Sys.step anyStep Sys.Fresh s := (Reach.start fresh_init).trans h
  refine ⟨?_, (awake_of_reach hfresh).2⟩
  refine h.invariant (fun _ h => h ▸ balanced_init) fun s a s' hr hs _ h => ?_
  exact hs.step (awake_of_reach ((Reach.start fresh_init).trans hr)).1 h

theorem turnQueue_eq {k : Nat} (h : N ∣ 2 ^ 32 ∨ k < 2 ^ 32) :
    (turnQueue k : Fin N) = Fin.ofNat N k := by
  refine Fin.ext ?_
  show (UInt32.ofNat k).toNat % N % N = k % N
  rw [Nat.mod_mod, UInt32.toNat_ofNat']
  rcases h with h | h
  · exact Nat.mod_mod_of_dvd k h
  · rw [Nat.mod_eq_of_lt h]

theorem turns_turnQueue {n : Nat} (h : N ∣ 2 ^ 32 ∨ n < 2 ^ 32) (i : Fin N) :
    turns turnQueue n i = turns (Fin.ofNat N) n i :=
  turns_congr fun _ hk => turnQueue_eq (h.imp_right (Nat.lt_trans hk))

/-- A thread that rests on its way to a queue is in the wait there. -/
theorem Pc.turn_of_rests {pc : Pc N} (h : pc.rests = true) (i : Fin N) :
    pc.heads i = pc.blockedAt (.put i) ∧ pc.fetches i = pc.blockedAt (.get i) := by
  cases pc with
  | putJob _ _ _ wait =>
      cases wait with
      | blocked =>
          refine ⟨?_, rfl⟩
          simp only [heads, putsTo, blockedAt, blockedOn, Option.some.injEq, Condv.put.injEq]
      | _ => cases h
  | getJob _ wait =>
      cases wait with
      | blocked =>
          refine ⟨rfl, ?_⟩
          simp only [fetches, getsFrom, blockedAt, blockedOn, Option.some.injEq, Condv.get.injEq]
      | _ => cases h
  | numberJob | submittedResponse => cases h
  | _ => exact ⟨rfl, rfl⟩

/-- Where nothing moves, and a `sendJob` waits at queue `i`: how far the fetches
are behind the puts at `i`, and what being behind at another queue comes to. -/
theorem Sys.Quiescent.behind {n g : Nat} (hq : s.Quiescent) (ht : s.InTurn n g)
    (hbal : s.Balanced) (hawake : ∀ c, (s.monitor c).Awake) {i : Fin N}
    (hb : s.blocked (.get i) ≠ 0) :
    turns turnQueue n i < turns turnQueue g i + s.taken i ∧
      ∀ j k, turns turnQueue n j ≤ turns turnQueue g j + k →
        (s.server.queue j).count ≤ k - s.taken j := by
  have hheading : ∀ j, s.heading j = s.blocked (.put j) :=
    fun j => tally_congr fun pc hpc => (Pc.turn_of_rests (hq pc hpc) j).1
  have hfetching : ∀ j, s.fetching j = s.blocked (.get j) :=
    fun j => tally_congr fun pc hpc => (Pc.turn_of_rests (hq pc hpc) j).2
  have hempty : ∀ j, s.blocked (.get j) ≠ 0 → (s.server.queue j).count = 0 :=
    fun j hb => (hawake (.get j)).rest (hq.woken _) hb
  constructor
  · have hput : s.blocked (.put i) = 0 := by
      refine Decidable.byContradiction fun hput => ?_
      have hfull : maxJobsQueue - (s.server.queue i).count = 0 :=
        (hawake (.put i)).rest (hq.woken _) hput
      have hmax : maxJobsQueue = 15 := rfl
      have := hempty i hb
      omega
    have := ht.puts i
    have := ht.gots i
    have := hbal i
    have := hempty i hb
    have := hheading i
    have := hfetching i
    omega
  · intro j k hle
    by_cases hj : s.blocked (.get j) = 0
    · have := ht.puts j
      have := ht.gots j
      have := hbal j
      have := hfetching j
      omega
    · rw [hempty j hj]
      exact Nat.zero_le _

/-- Where nothing moves and a `sendJob` waits at queue `i`, all queues are empty
if `unsubmit` has taken nothing out of that queue. If it has, a queue holds at
most as many jobs as `unsubmit` has taken out of `i` more than out of it. -/
theorem sendJob_waits_behind_unsubmit (hN : N ≤ 2 ^ 16) (hq : s.Quiescent) {i : Fin N}
    (hb : s.blocked (.get i) ≠ 0) :
    (Reach Sys.step anyStep (· = Sys.init N) s → s.taken i = 0 →
      ∀ j, (s.server.queue j).count = 0) ∧
    (Reach Sys.step Sys.InStep (· = Sys.init N) s →
      ∀ j, (s.server.queue j).count ≤ s.taken i - s.taken j) := by
  constructor
  · intro h hnone j
    obtain ⟨n, g, ht⟩ := inTurn_of_reach hN h
    obtain ⟨hbal, hawake⟩ := balanced_of_reach h
    obtain ⟨hi, hj⟩ := hq.behind ht hbal hawake hb
    rw [hnone, Nat.add_zero] at hi
    have := hj j 0 (turns_le_of_lt hi j)
    omega
  · intro h j
    obtain ⟨hbal, hawake⟩ := balanced_of_reach h.any
    obtain ⟨n, g, ht, hn, hg⟩ : ∃ n g, s.InTurn n g ∧ (N ∣ 2 ^ 32 ∨ n < 2 ^ 32) ∧
        (N ∣ 2 ^ 32 ∨ g < 2 ^ 32) := by
      by_cases hdvd : N ∣ 2 ^ 32
      · obtain ⟨n, g, ht⟩ := inTurn_of_reach hN h.any
        exact ⟨n, g, ht, .inl hdvd, .inl hdvd⟩
      · obtain ⟨n, g, ht, hn, hg⟩ :=
          inTurn_of_reach_below hN (h.mono fun _ _ hok => hok.resolve_left hdvd)
        exact ⟨n, g, ht, .inr hn, .inr hg⟩
    obtain ⟨hi, hj⟩ := hq.behind ht hbal hawake hb
    refine hj j _ ?_
    rw [turns_turnQueue hn, turns_turnQueue hg] at hi ⊢
    exact turns_le_add hi j

/-- Two jobs go to two queues, the first is cancelled, and an exec server asks
for a job. -/
def strandedRun : List Action :=
  [.acceptClient, .acceptExecServ, .submit 0, .go 0, .go 0, .go 0, .go 0, .submit 0, .go 0, .go 0,
    .go 0, .go 0, .cancel 0 0, .go 0, .go 0, .go 0, .go 0, .go 0, .request 1, .go 1, .go 1]

theorem sendJob_waits_behind_unsubmit_two :
    ∃ s : Sys 2, (s.Quiescent ∧ s.blocked (.get 0) ≠ 0 ∧ (s.server.queue 1).count = 1) ∧
      (s.server.queue 1).count ≤ s.taken 0 - s.taken 1 := by
  obtain ⟨s, hr, hq, hb, hcount⟩ : ∃ s : Sys 2, Reach Sys.step Sys.InStep (· = Sys.init 2) s ∧
      s.Quiescent ∧ s.blocked (.get 0) ≠ 0 ∧ (s.server.queue 1).count = 1 :=
    @reach_of_checkedRun _ _ _ _ _ _ strandedRun _ _ _ rfl (by decide +kernel)
  exact ⟨s, ⟨hq, hb, hcount⟩, (sendJob_waits_behind_unsubmit (by decide) hq hb).2 hr 1⟩

/-- The request waits at the queue of the cancelled job, and the other job in
its queue. -/
theorem unsubmit_strands_another_job :
    ∃ s : Sys 2, Reach Sys.step anyStep (· = Sys.init 2) s ∧ s.Quiescent ∧
      s.blocked (.get 0) ≠ 0 ∧ (s.server.queue 1).count ≠ 0 :=
  @reach_of_checkedRun _ _ _ _ _ _ strandedRun _ _ _ rfl (by decide +kernel)

end Runs

end DistQueue
