import DistQueue.Client.Commands
import DistQueue.Server.Steps

/-!
# What the user typed, and what the server is asked for

`statejob`, `unsubmit` and `statequeue` hand their argument to `atoi` and what
comes back to a field of 16 or 8 bits, and nothing on the way says no: a word
is 0, a negative or large number is some number of the range. A request for an
id nobody typed is sent, and if there is such a job or queue the server serves
it.
-/

namespace DistQueue.Client

open DistQueue.Lib

/-- The commands whose argument is an id. -/
inductive Query
  | statejob
  | unsubmit
  | statequeue
  deriving DecidableEq, Repr

namespace Query

variable {N : Nat}

def command (arg : List UInt8) : Query → Command
  | .statejob => .statejob arg
  | .unsubmit => .unsubmit arg
  | .statequeue => .statequeue arg

/-- The largest id there is room for. -/
def idMax : Query → Nat
  | .statejob | .unsubmit => 65535
  | .statequeue => 255

/-- Where the server's thread goes with a request for `n`. -/
def handler (n : Nat) : Query → DistQueue.Pc N
  | .statejob => .jobState (UInt16.ofNat n)
  | .unsubmit => .unsubmit (UInt16.ofNat n)
  | .statequeue => .queueState (UInt8.ofNat n)

/-- A job in the history, or a queue below `NUM_QUEUE_MAX`. -/
def Known (server : MainServer N) (n : Nat) : Query → Prop
  | .statejob | .unsubmit => (server.history.findJob (UInt16.ofNat n)).isSome = true
  | .statequeue => n < N

instance (query : Query) (server : MainServer N) (n : Nat) : Decidable (query.Known server n) :=
  match query with
  | .statejob | .unsubmit =>
      inferInstanceAs (Decidable ((server.history.findJob (UInt16.ofNat n)).isSome = true))
  | .statequeue => inferInstanceAs (Decidable (n < N))

/-- The command sends one message, and `n` is what the server reads in it,
whatever its buffer held before. -/
def Asks (query : Query) (arg : List UInt8) (N n : Nat) : Prop :=
  n ≤ query.idMax ∧ ∃ request pc, (∀ calls, run calls (query.command arg) = (some request, pc)) ∧
    ∀ heap pkg blank, request.Arrived pkg →
      (receiveClient heap pkg blank : Option Job × DistQueue.Pc N) = (none, query.handler n)

end Query

/-! ## Numbers -/

/-- The value of digits in base ten. -/
def valueOf (cs : List UInt8) : Nat := cs.foldl (fun n c => 10 * n + (c - 48).toNat) 0

def numeral (cs : List UInt8) : Option Nat :=
  if cs ≠ [] ∧ cs.all isDigit = true then some (valueOf cs) else none

/-- The number a string is: digits, behind a sign or not. -/
def decimal : List UInt8 → Option Int
  | 45 :: cs => (numeral cs).map fun n : Nat => - (n : Int)
  | 43 :: cs => (numeral cs).map fun n : Nat => (n : Int)
  | cs => (numeral cs).map fun n : Nat => (n : Int)

theorem digits_eq_foldl : ∀ {cs : List UInt8} {n : Nat}, cs.all isDigit = true →
    digits n cs = cs.foldl (fun n c => 10 * n + (c - 48).toNat) n := by
  intro cs
  induction cs with
  | nil => intro n _; rfl
  | cons c cs ih =>
      intro n h
      obtain ⟨hc, hcs⟩ := Bool.and_eq_true_iff.mp (List.all_cons ▸ h)
      rw [digits, if_pos hc, List.foldl_cons]
      exact ih hcs

theorem digits_of_numeral {cs : List UInt8} {n : Nat} (h : numeral cs = some n) :
    digits 0 cs = n ∧ ∃ c cs', cs = c :: cs' ∧ isDigit c = true := by
  rw [numeral] at h
  split at h
  · next hcs =>
      injection h with h
      refine ⟨by rw [digits_eq_foldl hcs.2, ← h, valueOf], ?_⟩
      cases cs with
      | nil => exact absurd rfl hcs.1
      | cons c cs' => exact ⟨c, cs', rfl, (Bool.and_eq_true_iff.mp (List.all_cons ▸ hcs.2)).1⟩
  · cases h

/-- A digit is neither a space nor a sign. -/
theorem isDigit_ne {c : UInt8} (h : isDigit c = true) : isSpace c = false ∧ c ≠ 45 ∧ c ≠ 43 := by
  have hrange : 48 ≤ c ∧ c ≤ 57 := by simpa [isDigit] using h
  have hlo : 48 ≤ c.toNat := UInt8.le_iff_toNat_le.mp hrange.1
  refine ⟨?_, ?_, ?_⟩
  · have h32 : c ≠ 32 := by rintro rfl; exact absurd hlo (by decide)
    have h13 : ¬ c ≤ 13 := fun hle => by
      have hle' := UInt8.le_iff_toNat_le.mp hle
      have h13 : (13 : UInt8).toNat = 13 := rfl
      omega
    simp [isSpace, h32, h13]
  · rintro rfl; exact absurd hlo (by decide)
  · rintro rfl; exact absurd hlo (by decide)

/-- `atoi` reads the number a string is. -/
theorem atoi_of_decimal {s : List UInt8} {n : Int} (h : decimal s = some n) : atoi s = n := by
  unfold decimal at h
  split at h
  · next cs =>
      obtain ⟨m, hm, rfl⟩ := Option.map_eq_some_iff.mp h
      show - (digits 0 cs : Int) = _
      rw [(digits_of_numeral hm).1]
  · next cs =>
      obtain ⟨m, hm, rfl⟩ := Option.map_eq_some_iff.mp h
      show (digits 0 cs : Int) = _
      rw [(digits_of_numeral hm).1]
  · obtain ⟨m, hm, rfl⟩ := Option.map_eq_some_iff.mp h
    obtain ⟨hdigits, c, cs, rfl, hc⟩ := digits_of_numeral hm
    obtain ⟨hspace, hminus, hplus⟩ := isDigit_ne hc
    rw [atoi, List.dropWhile_cons_of_neg (by rw [hspace]; exact Bool.noConfusion)]
    split
    · next heq => injection heq with heq; exact absurd heq hminus
    · next heq => injection heq with heq; exact absurd heq hplus
    · rw [hdigits]

/-! ## Requests -/

namespace Query

variable {N : Nat}

/-- What `atoi` and the id field make of a string. -/
def taken (query : Query) (arg : List UInt8) : Nat :=
  (atoi arg % (query.idMax + 1 : Nat)).toNat

theorem taken_le (query : Query) (arg : List UInt8) : query.taken arg ≤ query.idMax := by
  have hpos : (0 : Int) < (query.idMax + 1 : Nat) := by omega
  have hlt := Int.emod_lt_of_pos (atoi arg) hpos
  have hnn := Int.emod_nonneg (atoi arg) (Int.ne_of_gt hpos)
  rw [taken]
  omega

theorem taken_of_decimal {query : Query} {arg : List UInt8} {n : Nat} (hn : n ≤ query.idMax)
    (h : decimal arg = some (n : Int)) : query.taken arg = n := by
  rw [taken, atoi_of_decimal h, ← Int.natCast_emod, Int.toNat_natCast,
    Nat.mod_eq_of_lt (Nat.lt_succ_of_le hn)]

/-- The message of the command. -/
def request (arg : List UInt8) : Query → SetterCall
  | .statejob => .jobStateClient (toJobid arg)
  | .unsubmit => .unsubmitClient (toJobid arg)
  | .statequeue => .queueStateClient (toQueueid arg)

theorem run_command (query : Query) (arg : List UInt8) (calls : Calls) :
    run calls (query.command arg) = (some (query.request arg), .clientProtocol false) := by
  cases query <;> rfl

/-- What arrives of the message leads the server to the id that `atoi` and the
field have made of the argument. -/
theorem receiveClient_request (query : Query) (arg : List UInt8) {pkg : Msg}
    (h : (query.request arg).Arrived pkg) (heap : Heap) (blank : Job) :
    (receiveClient heap pkg blank : Option Job × DistQueue.Pc N) =
      (none, query.handler (query.taken arg)) := by
  cases query with
  | statejob =>
      have hid : getJobID pkg = toJobid arg := h.readBack trivial
      rw [jobState_taken h.getType, hid]
      rfl
  | unsubmit =>
      have hid : getJobID pkg = toJobid arg := h.readBack trivial
      rw [unsubmit_taken h.getType, hid]
      rfl
  | statequeue =>
      have hid : getQueueID pkg = toQueueid arg := h.readBack trivial
      rw [queueState_taken h.getType, hid]
      rfl

theorem handler_inj {query : Query} {n m : Nat} (hn : n ≤ query.idMax) (hm : m ≤ query.idMax)
    (h : (query.handler n : DistQueue.Pc N) = query.handler m) : n = m := by
  have h16 : n ≤ 65535 → m ≤ 65535 → UInt16.ofNat n = UInt16.ofNat m → n = m := by
    intro hn hm h
    have := congrArg UInt16.toNat h
    rwa [UInt16.toNat_ofNat', UInt16.toNat_ofNat', Nat.mod_eq_of_lt (by omega),
      Nat.mod_eq_of_lt (by omega)] at this
  cases query with
  | statejob | unsubmit => injection h with h; exact h16 hn hm h
  | statequeue =>
      injection h with h
      have := congrArg UInt8.toNat h
      have hn' : n ≤ 255 := hn
      have hm' : m ≤ 255 := hm
      rwa [UInt8.toNat_ofNat', UInt8.toNat_ofNat', Nat.mod_eq_of_lt (by omega),
        Nat.mod_eq_of_lt (by omega)] at this

theorem asks_iff (query : Query) (arg : List UInt8) (n : Nat) :
    query.Asks arg N n ↔ n = query.taken arg := by
  constructor
  · rintro ⟨hn, request, pc, hrun, hasks⟩
    have hsent := (hrun ⟨none, none, 0, 0⟩).symm.trans (query.run_command arg _)
    injection hsent with hsent
    injection hsent with hsent
    subst hsent
    have harrived : (query.request arg).Arrived ((Msg.fill 0).over (query.request arg).wire) :=
      ⟨Msg.fill 0, rfl⟩
    have hreceived := hasks [] _ Action.blankJob harrived
    rw [receiveClient_request query arg harrived] at hreceived
    injection hreceived with _ hreceived
    exact (handler_inj (query.taken_le arg) hn hreceived).symm
  · rintro rfl
    exact ⟨query.taken_le arg, query.request arg, .clientProtocol false, query.run_command arg,
      fun heap pkg blank harrived => receiveClient_request query arg harrived heap blank⟩

/-- The server is asked for the number the user typed, or for nothing it has. -/
def NamesTyped (query : Query) (server : MainServer N) (arg : List UInt8) : Prop :=
  ∃ n, query.Asks arg N n ∧ (decimal arg = some (n : Int) ∨ ¬ query.Known server n)

/-- For every string and whatever the server holds. -/
theorem names_typed_iff (query : Query) (server : MainServer N) (arg : List UInt8) :
    query.NamesTyped server arg ↔
      (∃ n : Nat, n ≤ query.idMax ∧ decimal arg = some (n : Int)) ∨
        ¬ query.Known server (query.taken arg) := by
  constructor
  · rintro ⟨n, hasks, hn⟩
    have htaken := (asks_iff query arg n).mp hasks
    rcases hn with hdecimal | hunknown
    · exact .inl ⟨n, hasks.1, hdecimal⟩
    · exact .inr (htaken ▸ hunknown)
  · intro h
    refine ⟨query.taken arg, (asks_iff query arg _).mpr rfl, ?_⟩
    rcases h with ⟨n, hn, hdecimal⟩ | hunknown
    · exact .inl (by rw [taken_of_decimal hn hdecimal]; exact hdecimal)
    · exact .inr hunknown

/-- `unsubmit abc`, with one job submitted, asks for job 0. -/
theorem unsubmit_word_names_job : ∃ s : Sys numQueueMax,
    Reach Sys.step anyStep (· = Sys.init numQueueMax) s ∧
      ¬ Query.unsubmit.NamesTyped s.server [97, 98, 99] := by
  obtain ⟨s, hs, hknown⟩ : ∃ s : Sys numQueueMax,
      Reach Sys.step anyStep (· = Sys.init numQueueMax) s ∧ Query.unsubmit.Known s.server 0 :=
    @reach_of_checkedRun _ _ _ _ _ _
      [.acceptClient, .submit 0, .go 0, .go 0] _ _ _ rfl (by decide +kernel)
  refine ⟨s, hs, ?_⟩
  rintro ⟨n, hasks, hn⟩
  have hzero : n = 0 := (asks_iff _ _ n).mp hasks
  subst hzero
  rcases hn with hdecimal | hunknown
  · exact absurd hdecimal (by decide)
  · exact hunknown hknown

end Query

end DistQueue.Client
