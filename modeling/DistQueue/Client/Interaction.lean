import DistQueue.Lib.Relay
import DistQueue.Lib.Runs
import DistQueue.Proto.Transfer

/-!
# An interactive job and its client

Behind `submiti` the client waits for the connection of the child, and
`interaction_1` carries what the job writes to the terminal and what is typed to
the job. A round reads once and writes once. What a short `write` leaves of the
buffer is not written again: the next `read` goes over it.

The socket comes first. Only where there is nothing to read from it does a round
look at what was typed.
-/

namespace DistQueue.Client

open DistQueue.Lib

/-- `char buff[256]` -/
def sizeofBuff : Nat := 256

/-- Where `interaction_1` is. -/
inductive InteractionPc
  | select
  | returned
  /-- `assert(0)` -/
  | aborted
  deriving DecidableEq, Repr

/-- One direction: the stream that is read, what was written of it, and how many
bytes were read and not written. -/
structure Direction where
  input : List UInt8
  output : List UInt8
  lost : Nat
  deriving DecidableEq, Repr

/-- A `read` and a `write`, of one direction: whether the loop goes on. -/
def Direction.relay (read write : IoResult) (d : Direction) : Direction × InteractionPc :=
  match read with
  | .moved n =>
      let buff := d.input.take (min n sizeofBuff)
      if buff = [] then (d, .returned)
      else
        match write with
        | .moved m =>
            let written := buff.take m
            (⟨d.input.drop (min n sizeofBuff), d.output ++ written,
                d.lost + (buff.length - m)⟩,
              if written = [] then .returned else .select)
        | .eintr | .error =>
            (⟨d.input.drop (min n sizeofBuff), d.output, d.lost + buff.length⟩, .returned)
  | .eintr | .error => (d, .returned)

/-- A job, its client and the terminal. What the job and the user have written
so far is on record. -/
structure Interaction where
  pc : InteractionPc
  /-- From the socket to the standard output. -/
  shown : Direction
  /-- From the standard input to the socket. -/
  sent : Direction
  written : List UInt8
  typed : List UInt8
  deriving DecidableEq, Repr

/-- The connection has just been accepted. -/
def Interaction.init : Interaction := ⟨.select, ⟨[], [], 0⟩, ⟨[], [], 0⟩, [], []⟩

/-- The descriptors that `select` leaves in the set. -/
structure Ready where
  sockfd : Bool
  stdin : Bool
  deriving DecidableEq, Repr

inductive InteractionAction
  /-- The job writes. -/
  | job (bs : List UInt8)
  /-- The user types. -/
  | user (bs : List UInt8)
  /-- A round of `interaction_1`; `none` is a `select` of -1. -/
  | round (select : Option Ready) (read write : IoResult)
  deriving DecidableEq, Repr

namespace Interaction

/-- A round of `interaction_1`. -/
def round (s : Interaction) (select : Option Ready) (read write : IoResult) : Interaction :=
  match select with
  | none => { s with pc := .returned }
  | some ready =>
      if ready.sockfd then
        let (shown, pc) := s.shown.relay read write
        { s with shown := shown, pc := pc }
      else if ready.stdin then
        let (sent, pc) := s.sent.relay read write
        { s with sent := sent, pc := pc }
      else { s with pc := .aborted }

def step (s : Interaction) : InteractionAction → Option Interaction
  | .job bs => some { s with
      shown := { s.shown with input := s.shown.input ++ bs }
      written := s.written ++ bs }
  | .user bs => some { s with
      sent := { s.sent with input := s.sent.input ++ bs }
      typed := s.typed ++ bs }
  | .round select read write => if s.pc = .select then some (s.round select read write) else none

end Interaction

/-- Without a timeout `select` returns when there is something to read. -/
def SelectOk (_ : Interaction) : InteractionAction → Prop
  | .round (some ready) _ _ => ready.sockfd = true ∨ ready.stdin = true
  | _ => True

instance (s : Interaction) : (a : InteractionAction) → Decidable (SelectOk s a)
  | .round (some ready) _ _ =>
      inferInstanceAs (Decidable (ready.sockfd = true ∨ ready.stdin = true))
  | .round none _ _ | .job _ | .user _ => isTrue trivial

/-- A `write` takes all it is given. -/
def WholeWrites (s : Interaction) (a : InteractionAction) : Prop :=
  SelectOk s a ∧ ∀ select read write, a = .round select read write →
    ∃ m, write = .moved m ∧ sizeofBuff ≤ m

section Relay

variable {d : Direction} {whole : List UInt8} {s s' : Interaction} {a : InteractionAction}

/-- A direction carries `whole`. -/
def Direction.Carries (d : Direction) (whole : List UInt8) : Prop :=
  Carried whole d.input d.output d.lost

theorem Direction.Carries.relay (h : d.Carries whole) (read write : IoResult) :
    (d.relay read write).1.Carries whole ∧ (d.relay read write).2 ≠ .aborted := by
  unfold Direction.relay
  cases read with
  | moved n =>
      dsimp only
      split
      · exact ⟨h, fun h => by cases h⟩
      · cases write with
        | moved m =>
            refine ⟨Carried.carry h (min n sizeofBuff) m, ?_⟩
            dsimp only
            split <;> exact fun h => by cases h
        | eintr | error =>
            have hnone := Carried.carry h (min n sizeofBuff) 0
            rw [List.take_zero, List.append_nil] at hnone
            exact ⟨hnone, fun h => by cases h⟩
  | eintr | error => exact ⟨h, fun h => by cases h⟩

theorem Direction.lost_relay {write : IoResult} (hwrite : ∃ m, write = .moved m ∧ sizeofBuff ≤ m)
    (read : IoResult) (d : Direction) : (d.relay read write).1.lost = d.lost := by
  obtain ⟨m, rfl, hm⟩ := hwrite
  unfold Direction.relay
  cases read with
  | moved n =>
      dsimp only
      split
      · rfl
      · simp only [List.length_take]
        omega
  | eintr | error => rfl

/-- Both directions carry what went into them, and the `assert` is not come
to. -/
structure Interaction.Inv (s : Interaction) : Prop where
  shown : s.shown.Carries s.written
  sent : s.sent.Carries s.typed
  pc : s.pc ≠ .aborted

theorem Interaction.Inv.step (h : s.Inv) (hok : SelectOk s a) (hs : s.step a = some s') :
    s'.Inv := by
  cases a with
  | job bs =>
      obtain rfl := Option.some.inj hs
      exact ⟨Carried.feed h.shown bs, h.sent, h.pc⟩
  | user bs =>
      obtain rfl := Option.some.inj hs
      exact ⟨h.shown, Carried.feed h.sent bs, h.pc⟩
  | round select read write =>
      rw [Interaction.step] at hs
      split at hs
      · obtain rfl := Option.some.inj hs
        cases select with
        | none => exact ⟨h.shown, h.sent, fun h => by cases h⟩
        | some ready =>
            unfold Interaction.round
            dsimp only
            cases hsock : ready.sockfd with
            | true =>
                obtain ⟨hshown, hpc⟩ := h.shown.relay read write
                exact ⟨hshown, h.sent, hpc⟩
            | false =>
                cases hstdin : ready.stdin with
                | true =>
                    obtain ⟨hsent, hpc⟩ := h.sent.relay read write
                    exact ⟨h.shown, hsent, hpc⟩
                | false =>
                    rcases hok with hok | hok
                    · rw [hsock] at hok
                      cases hok
                    · rw [hstdin] at hok
                      cases hok
      · cases hs

end Relay

/-- However the job, the user and the client take turns: the terminal shows
bytes of the job only, in order and none twice, and the job gets bytes that were
typed, likewise. Nothing is missing of what was read exactly as long as no
`write` was short, and no round runs into the `assert`. -/
theorem interaction_relays {s : Interaction}
    (h : Reach Interaction.step SelectOk (· = Interaction.init) s) :
    s.shown.output.Sublist s.written ∧ s.sent.output.Sublist s.typed ∧
      (s.written = s.shown.output ++ s.shown.input ↔ s.shown.lost = 0) ∧
      (s.typed = s.sent.output ++ s.sent.input ↔ s.sent.lost = 0) ∧ s.pc ≠ .aborted := by
  have hinv : s.Inv := by
    refine h.invariant ?_ fun s a s' _ hinv hok hs => hinv.step hok hs
    rintro s rfl
    exact ⟨.start, .start, fun h => by cases h⟩
  exact ⟨hinv.shown.sublist, hinv.sent.sublist, hinv.shown.whole_iff, hinv.sent.whole_iff, hinv.pc⟩

/-- With whole writes, what was written is shown or still to be read, and what
was typed is sent or still to be read. -/
theorem interaction_whole {s : Interaction}
    (h : Reach Interaction.step WholeWrites (· = Interaction.init) s) :
    s.written = s.shown.output ++ s.shown.input ∧ s.typed = s.sent.output ++ s.sent.input := by
  have hlost : s.shown.lost = 0 ∧ s.sent.lost = 0 := by
    refine h.invariant (I := fun s => s.shown.lost = 0 ∧ s.sent.lost = 0) ?_ ?_
    · rintro s rfl
      exact ⟨rfl, rfl⟩
    · rintro s a s' - ⟨hshown, hsent⟩ hok hs
      cases a with
      | job bs | user bs =>
          obtain rfl := Option.some.inj hs
          exact ⟨hshown, hsent⟩
      | round select read write =>
          have hwrite := hok.2 select read write rfl
          rw [Interaction.step] at hs
          split at hs
          · obtain rfl := Option.some.inj hs
            unfold Interaction.round
            cases select with
            | none => exact ⟨hshown, hsent⟩
            | some ready =>
                dsimp only
                split
                · exact ⟨(Direction.lost_relay hwrite read s.shown).trans hshown, hsent⟩
                · split
                  · exact ⟨hshown, (Direction.lost_relay hwrite read s.sent).trans hsent⟩
                  · exact ⟨hshown, hsent⟩
          · cases hs
  obtain ⟨-, -, hshown, hsent, -⟩ := interaction_relays (h.mono fun _ _ hok => hok.1)
  exact ⟨hshown.mpr hlost.1, hsent.mpr hlost.2⟩

/-- The job writes three bytes, and the terminal takes two of them. -/
theorem interaction_relays_short :
    ∃ s : Interaction, s.shown.output = [104, 105] ∧ s.shown.lost = 1 ∧
      s.shown.output.Sublist s.written ∧ s.sent.output.Sublist s.typed ∧
      (s.written = s.shown.output ++ s.shown.input ↔ s.shown.lost = 0) ∧
      (s.typed = s.sent.output ++ s.sent.input ↔ s.sent.lost = 0) ∧ s.pc ≠ .aborted := by
  obtain ⟨s, hr, hshown, hlost⟩ : ∃ s : Interaction,
      Reach Interaction.step SelectOk (· = Interaction.init) s ∧ s.shown.output = [104, 105] ∧
        s.shown.lost = 1 :=
    @reach_of_checkedRun _ _ _ _ _ _
      [.job [104, 105, 10], .round (some ⟨true, false⟩) (.moved 256) (.moved 2)] _ _ _ rfl
      (by decide)
  exact ⟨s, hshown, hlost, interaction_relays hr⟩

end DistQueue.Client
