import DistQueue.Client.Commands
import DistQueue.Exec.Handshake
import DistQueue.Lib.Prompt

/-!
# What is typed at the two servers

`main` of `main_server.c` and `main` of `exec_server.c` are loops around a
`scanf("%s", …)`. It stores a word however long it is, and at the end of the
input it stores nothing: the buffer then holds the empty string that `bzero`
left, which is a bad command like any other. Only a command ends the loop.

An exec server shares its standard input with its children. What they do to it
comes in from the outside, like what its calls return.
-/

namespace DistQueue

open DistQueue.Lib
open Client (isSpace)

/-! ## Reading -/

/-- The bytes of a string literal. -/
def chars (cs : List Char) : List UInt8 := cs.map fun c => UInt8.ofNat c.toNat

/-- The buffer of a loop: 256 characters. -/
def sizeofBuffer : Nat := 256

/-- A word is stored with a NUL behind it. -/
def fitsBuffer (word : List UInt8) : Bool := word.length < sizeofBuffer

/-- `bzero` and `scanf("%s", buffer)`: the string in the buffer, and the input
that is left. There is none when the word runs over the end of the buffer. -/
def readWord (input : List UInt8) : Option (List UInt8 × List UInt8) :=
  let (word, input) := scanWord isSpace input
  if fitsBuffer word then some (cstr word, input) else none

/-- The reading of a round; a `getchar` comes behind the command's name. -/
def readCommand {C : Type} (named : List UInt8 → Operand (List UInt8) C) (input : List UInt8) :
    Option (C × List UInt8) :=
  match readWord input with
  | none => none
  | some (buffer, input) =>
      match named buffer with
      | .none c => some (c, input.tail)
      | .word f =>
          match readWord input.tail with
          | none => none
          | some (buffer, input) => some (f buffer, input)

/-- What a string in the buffer is for the words of the input. -/
def Lib.Operand.ofWord {C : Type} (named : List UInt8 → Operand (List UInt8) C)
    (word : List UInt8) : Operand (List UInt8) C :=
  match named (cstr word) with
  | .none c => .none c
  | .word f => .word fun word => f (cstr word)

/-- A word that is not read is one of the input's; what is read leaves less of
it, and no other words. -/
theorem readWord_cases (input : List UInt8) :
    (readWord input = none ∧ ∃ word ∈ words isSpace input, sizeofBuffer ≤ word.length) ∨
      ∃ word rest, readWord input = some (word, rest) ∧ rest.length ≤ input.length - 1 ∧
        ∀ word ∈ words isSpace rest.tail, word ∈ words isSpace input := by
  obtain ⟨hword, hrest, htail⟩ := @words_scanWord _ isSpace input
  unfold readWord
  dsimp only
  cases hfits : fitsBuffer (scanWord isSpace input).1 with
  | false =>
      rw [if_neg Bool.false_ne_true]
      have hlong : sizeofBuffer ≤ (scanWord isSpace input).1.length := by
        simpa [fitsBuffer] using hfits
      refine .inl ⟨rfl, _, ?_, hlong⟩
      rw [← hword] at hlong ⊢
      cases hcut : words isSpace input with
      | nil =>
          rw [hcut] at hlong
          exact absurd hlong (by decide)
      | cons word ws => exact List.mem_cons_self
  | true =>
      rw [if_pos rfl]
      refine .inr ⟨_, _, rfl, length_scanWord input, fun word hmem => ?_⟩
      rw [htail, ← hrest] at hmem
      exact List.mem_of_mem_tail hmem

/-- A round goes by the words that are still to come. -/
theorem readCommand_words {C : Type} (named : List UInt8 → Operand (List UInt8) C)
    (input : List UInt8) :
    (readCommand named input).map (fun r => (r.1, words isSpace r.2)) =
      nextCommand [] fitsBuffer (.ofWord named) (words isSpace input) := by
  obtain ⟨hword, hrest, htail⟩ := @words_scanWord _ isSpace input
  unfold readCommand nextCommand readWord Operand.ofWord
  dsimp only
  rw [hword, hrest]
  cases fitsBuffer (scanWord isSpace input).1 with
  | false => rfl
  | true =>
      rw [if_pos rfl, if_pos rfl]
      dsimp only
      cases named (cstr (scanWord isSpace input).1) with
      | none c => exact congrArg (fun ws => some (c, ws)) htail
      | word f =>
          obtain ⟨hword', hrest', -⟩ := @words_scanWord _ isSpace (scanWord isSpace input).2.tail
          rw [htail] at hword' hrest'
          dsimp only
          rw [hword', hrest']
          cases fitsBuffer (scanWord isSpace (scanWord isSpace input).2.tail).1 <;> rfl

/-! ## The loops -/

/-- What is typed at the main server. -/
inductive ConsoleCommand
  | stop
  | total
  | jobs
  | queue (arg : List UInt8)
  | bad
  deriving DecidableEq, Repr

/-- The comparisons of the loop in `main_server.c`. -/
def ConsoleCommand.named (buff : List UInt8) : Operand (List UInt8) ConsoleCommand :=
  if buff = chars ['s', 't', 'o', 'p'] then .none .stop
  else if buff = chars ['t'] then .none .total
  else if buff = chars ['j', 'o', 'b', 's'] then .none .jobs
  else if buff = chars ['q'] then .word .queue
  else .none .bad

/-- Only `stop` breaks out of the loop. -/
def ConsoleCommand.carry (c : ConsoleCommand) (input : List UInt8) : After (List UInt8) :=
  if c = .stop then .ended else .again input

/-- The loop of `main_server.c`. -/
def console (n : Nat) (input : List UInt8) : List ConsoleCommand × LoopEnd (List UInt8) :=
  rounds (readCommand ConsoleCommand.named) (fun _ => ConsoleCommand.carry) n 0 input

/-- The comparisons of the loop in `exec_server.c`. -/
def Handshake.Command.named (command : List UInt8) : Operand (List UInt8) Handshake.Command :=
  if command = chars ['j', 'o', 'b'] then .none .job
  else if command = chars ['s', 't', 'o', 'p'] then .none .stop
  else .none .bad

/-- What comes of the calls in the loop of `exec_server.c`, by round. -/
structure ExecCalls where
  /-- Whether `jobRequest` returns 1; `none` if it does not return. -/
  jobRequest : Nat → Option Bool
  /-- Whether `closeConnecMain` returns. It always returns 0. -/
  closeConnecMain : Nat → Bool
  /-- What a call of `jobRequest` leaves of the input. A child that still has the
  exec server's standard input may read from it, and its `exit` moves the offset
  of a file back. -/
  stdin : Nat → List UInt8 → List UInt8

/-- What becomes of `flag`. -/
def Handshake.Command.carry (calls : ExecCalls) (i : Nat) (c : Handshake.Command)
    (input : List UInt8) : After (List UInt8) :=
  match c with
  | .job =>
      match calls.jobRequest i with
      | none => .stays
      | some true => .again (calls.stdin i input)
      | some false => .ended
  | .stop => if calls.closeConnecMain i then .ended else .stays
  | .bad => .again input

/-- The loop of `exec_server.c`. -/
def execLoop (calls : ExecCalls) (n : Nat) (input : List UInt8) :
    List Handshake.Command × LoopEnd (List UInt8) :=
  rounds (readCommand Handshake.Command.named) (Handshake.Command.carry calls) n 0 input

/-- The input is no file, and no child reads from it. -/
def ExecCalls.Undisturbed (calls : ExecCalls) : Prop := ∀ i input, calls.stdin i input = input

/-- A call that does not return. -/
def ExecCalls.Stays (calls : ExecCalls) (i : Nat) : Handshake.Command → Prop
  | .job => calls.jobRequest i = none
  | .stop => calls.closeConnecMain i = false
  | .bad => False

/-! ## What becomes of a loop -/

section Outcome

variable {C : Type} {named : List UInt8 → Operand (List UInt8) C}
  {carry : Nat → C → List UInt8 → After (List UInt8)} {stays : Nat → C → Prop} {bad : C}

/-- A loop on a text ends with a command, or stays in one, or writes behind its
buffer, or has taken in every word and goes on with `bad` for ever; and it is
decided which by the time it has made as many rounds as there are words. -/
def Settles (loop : Nat → List UInt8 → List C × LoopEnd (List UInt8)) (stays : Nat → C → Prop)
    (bad : C) (input : List UInt8) : Prop :=
  let n := (words isSpace input).length
  match loop n input with
  | (cs, .ended) => ∀ m, loop (n + m) input = (cs, .ended)
  | (cs, .stays) => (∃ cs' c, cs = cs' ++ [c] ∧ stays cs'.length c) ∧
      ∀ m, loop (n + m) input = (cs, .stays)
  | (cs, .failed) => (∃ word ∈ words isSpace input, sizeofBuffer ≤ word.length) ∧
      ∀ m, loop (n + m) input = (cs, .failed)
  | (cs, .running _) => (∀ word ∈ words isSpace input, word.length < sizeofBuffer) ∧
      ∀ m, (loop (n + m) input).1 = cs ++ List.replicate m bad ∧
        ∃ rest, (loop (n + m) input).2 = .running rest

/-- Carrying out a command takes nothing of the input, and does not go by it. -/
def Keeps (carry : Nat → C → List UInt8 → After (List UInt8)) : Prop :=
  ∀ i c input, carry i c input = (carry i c []).map fun _ => input

theorem LoopEnd.map_eq_running {σ τ : Type} {f : σ → τ} {e : LoopEnd σ} {t : τ}
    (h : e.map f = .running t) : ∃ s, e = .running s := by
  cases e with
  | running s => exact ⟨s, rfl⟩
  | _ => cases h

/-- The words that are still to come tell what a loop goes on with. -/
theorem rounds_readCommand (hkeeps : Keeps carry) (n i : Nat) (input : List UInt8) :
    rounds (nextCommand [] fitsBuffer (.ofWord named))
        (fun i c ws => (carry i c []).map fun _ => ws) n i (words isSpace input) =
      ((rounds (readCommand named) carry n i input).1,
        (rounds (readCommand named) carry n i input).2.map (words isSpace)) := by
  refine rounds_map (readCommand_words named) fun i c input => ?_
  rw [hkeeps i c input]
  cases carry i c [] <;> rfl

theorem settles_of_words (hempty : named [] = .none bad) (hkeeps : Keeps carry)
    (hbad : ∀ i, carry i bad [] = .again []) (hstays : ∀ i c, carry i c [] = .stays → stays i c)
    (input : List UInt8) :
    Settles (fun n input => rounds (readCommand named) carry n 0 input) stays bad input := by
  have hmap := @rounds_readCommand _ named _ hkeeps
  have hnext : nextCommand [] fitsBuffer (Operand.ofWord named) [] = some (bad, []) := by
    have hcstr : cstr ([] : List UInt8) = [] := rfl
    unfold nextCommand Operand.ofWord
    simp only [List.headD_nil, hcstr, hempty]
    rfl
  have hidle : ∀ i, (carry i bad []).map (fun _ => ([] : List (List UInt8))) = .again [] :=
    fun i => by rw [hbad i]; rfl
  have hagain : ∀ {i : Nat} {c : C} {ws ws' : List (List UInt8)},
      (carry i c []).map (fun _ => ws) = .again ws' → ws' = ws := by
    intro i c ws ws' h
    cases hc : carry i c [] <;> rw [hc] at h <;> cases h
    rfl
  have hwords := @rounds_words _ _ [] fitsBuffer (Operand.ofWord named)
    (fun i c ws => (carry i c []).map fun _ => ws) rfl hagain _ 0 _
    (Nat.le_refl (words isSpace input).length)
  rw [hmap] at hwords
  unfold Settles
  dsimp only
  have hover := @rounds_over _ _ (readCommand named) carry input (words isSpace input).length 0
  have hadd := fun m => @rounds_add _ _ (readCommand named) carry m (words isSpace input).length 0
    input
  have hstayed := @rounds_stayed _ _ (readCommand named) carry (words isSpace input).length 0 input
  revert hwords hover hadd hstayed
  generalize rounds (readCommand named) carry (words isSpace input).length 0 input = r
  intro hwords hover hadd hstayed
  obtain ⟨cs, e⟩ := r
  cases e with
  | ended => exact hover rfl fun _ h => by cases h
  | stays =>
      obtain ⟨cs', c, s', hcs, hc⟩ := hstayed rfl
      rw [Nat.zero_add, hkeeps] at hc
      refine ⟨⟨cs', c, hcs, hstays _ c ?_⟩, hover rfl fun _ h => by cases h⟩
      cases hafter : carry cs'.length c [] <;> rw [hafter] at hc <;> cases hc
  | failed =>
      obtain ⟨word, hmem, hlong⟩ := hwords
      exact ⟨⟨word, hmem, by simpa [fitsBuffer] using hlong⟩, hover rfl fun _ h => by cases h⟩
  | running rest =>
      obtain ⟨hnil, hall⟩ := hwords
      refine ⟨fun word hmem => by simpa [fitsBuffer] using hall word hmem, fun m => ?_⟩
      obtain ⟨hcs, hend⟩ := Prod.mk.inj ((hmap m (0 + (words isSpace input).length) rest).symm.trans
        (hnil ▸ rounds_idle hnext hidle))
      rw [hadd]
      exact ⟨congrArg (cs ++ ·) hcs, LoopEnd.map_eq_running hend⟩

/-- The commands are those of the words. -/
theorem rounds_layout (hkeeps : Keeps carry) {input input' : List UInt8}
    (h : words isSpace input' = words isSpace input) {n i : Nat} :
    (rounds (readCommand named) carry n i input').1 =
      (rounds (readCommand named) carry n i input).1 := by
  have hmap := @rounds_readCommand _ named _ hkeeps n i
  have hinput' := hmap input'
  rw [h, hmap input] at hinput'
  exact (Prod.mk.inj hinput').1.symm

theorem ConsoleCommand.keeps : Keeps fun _ => ConsoleCommand.carry := by
  intro i c input
  dsimp only [ConsoleCommand.carry]
  split <;> rfl

theorem Handshake.Command.keeps {calls : ExecCalls} (h : calls.Undisturbed) :
    Keeps (Handshake.Command.carry calls) := by
  intro i c input
  cases c with
  | job =>
      dsimp only [Handshake.Command.carry]
      cases calls.jobRequest i with
      | none => rfl
      | some ok => cases ok <;> simp only [h i, After.map]
  | stop =>
      dsimp only [Handshake.Command.carry]
      split <;> rfl
  | bad => rfl

theorem Handshake.Command.stays_of_carry {calls : ExecCalls} {i : Nat} {c : Handshake.Command}
    {input : List UInt8} (h : c.carry calls i input = .stays) : calls.Stays i c := by
  cases c with
  | job =>
      dsimp only [Handshake.Command.carry] at h
      rw [ExecCalls.Stays]
      cases hret : calls.jobRequest i with
      | none => rfl
      | some ok =>
          rw [hret] at h
          cases ok <;> cases h
  | stop =>
      dsimp only [Handshake.Command.carry] at h
      rw [ExecCalls.Stays]
      cases hret : calls.closeConnecMain i with
      | false => rfl
      | true =>
          rw [hret] at h
          cases h
  | bad => cases h

end Outcome

/-- Whatever is typed at the main server: a command ends the loop, or a word is
written behind the buffer, or it goes on with bad commands for ever. An exec
server, on an input that its children leave alone, may also stay in a call that
does not return. Only the words decide what is carried out, not the white space
around them. -/
theorem servers_settle (input : List UInt8) :
    (Settles console (fun _ _ => False) .bad input ∧
      ∀ input', words isSpace input' = words isSpace input → ∀ n,
        (console n input').1 = (console n input).1) ∧
    ∀ calls : ExecCalls, calls.Undisturbed →
      Settles (execLoop calls) calls.Stays .bad input ∧
      ∀ input', words isSpace input' = words isSpace input → ∀ n,
        (execLoop calls n input').1 = (execLoop calls n input).1 := by
  refine ⟨⟨?_, fun input' hwords n => rounds_layout ConsoleCommand.keeps hwords⟩,
    fun calls hstdin => ⟨?_, fun input' hwords n => rounds_layout (Handshake.Command.keeps hstdin)
      hwords⟩⟩
  · refine @settles_of_words _ ConsoleCommand.named _ _ .bad rfl ConsoleCommand.keeps
      (fun _ => rfl) (fun i c h => ?_) input
    dsimp only [ConsoleCommand.carry] at h
    split at h <;> cases h
  · exact @settles_of_words _ Handshake.Command.named _ _ .bad rfl
      (Handshake.Command.keeps hstdin) (fun _ => rfl)
      (fun i c h => Handshake.Command.stays_of_carry h) input

/-- The second `jobRequest` never returns. -/
def secondStays : ExecCalls where
  jobRequest i := if i = 0 then some true else none
  closeConnecMain _ := true
  stdin _ input := input

/-- `job` twice, and nothing of the `stop` behind it. -/
theorem servers_settle_stays :
    let text := chars ['j', 'o', 'b', '\n', 'j', 'o', 'b', ' ', 's', 't', 'o', 'p', '\n']
    execLoop secondStays 3 text = ([.job, .job], .stays) ∧
      Settles (execLoop secondStays) secondStays.Stays .bad text :=
  ⟨by decide +kernel, ((servers_settle _).2 secondStays fun _ _ => rfl).1⟩

end DistQueue
