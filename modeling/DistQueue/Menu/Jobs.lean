import DistQueue.Exec.Speech
import DistQueue.Menu.Servers

/-!
# Jobs that were asked for

An exec server gets its work from the main server, and asks for it only where
somebody types `job`. However the main server answers, and whatever becomes of
the messages, a word at the prompt brings one execution at most.

The prompt is not the exec server's alone. A child whose calls fail before the
`dup2` to `STDIN_FILENO` still has the same standard input: if it leaves by
`exit`, the library gives back to a file what its copy of the buffer holds, and
the exec server reads it again; and a program that is executed can read what is
not in the buffer yet.
-/

namespace DistQueue.Handshake

open DistQueue.Lib
open Client (isSpace)

/-- Behind a `job` that has not come to an execution. -/
def ExecPc.asking : ExecPc → Nat
  | .sendMsg .jobRequest _ _ | .sendMsg .sendAck _ _ | .execServerProtocol _ => 1
  | _ => 0

/-- The words `job` in a text. -/
def typedJobs (input : List UInt8) : Nat :=
  (words isSpace input).countP fun word => cstr word = chars ['j', 'o', 'b']

/-- A connection, and what is still to come at the prompt of its exec server. -/
structure Operated where
  conn : Conn
  input : List UInt8
  /-- Standard input is a file, with an offset. -/
  seekable : Bool

namespace Operated

/-- A step of the two ends, or of a child that has the exec server's standard
input; `buffered` is how much of it the exec server has in its buffer. -/
inductive Action
  | ends (a : Handshake.Action)
  /-- A child leaves by `exit`; `again` is the text in front of the offset. -/
  | exit (buffered : Nat) (again : List UInt8)
  | read (buffered count : Nat)

def init (stack : Msg) (input : List UInt8) (seekable : Bool) : Operated :=
  ⟨.init stack, input, seekable⟩

/-- The commands are those in the input. None is carried out behind a word that
the buffer has no room for. -/
def step (s : Operated) : Action → Option Operated
  | .ends (.main env) => (s.conn.mainStep env).map fun conn => { s with conn := conn }
  | .ends (.exec env) =>
      if s.conn.exec = .command then
        match readCommand Command.named s.input with
        | none => none
        | some (command, input) =>
            (s.conn.execStep { env with command := command }).map fun conn =>
              { s with conn := conn, input := input }
      else (s.conn.execStep env).map fun conn => { s with conn := conn }
  | .exit buffered again =>
      if s.seekable then
        some { s with input := s.input.take buffered ++ again ++ s.input.drop buffered }
      else some s
  | .read buffered count =>
      some { s with input := s.input.take buffered ++ s.input.drop (buffered + count) }

/-- No child reads from the exec server's standard input. -/
def LeftAlone (_ : Operated) : Action → Prop
  | .ends _ | .exit _ _ => True
  | .read _ _ => False

instance (s : Operated) : DecidablePred s.LeftAlone
  | .ends _ | .exit _ _ => isTrue trivial
  | .read _ _ => isFalse id

end Operated

section Steps

variable {s s' : Conn} {env : Env} {input input' : List UInt8} {command : Command}

theorem Command.named_eq (buffer : List UInt8) :
    ∃ command, Command.named buffer = .none command ∧
      (command = .job → buffer = chars ['j', 'o', 'b']) := by
  unfold Command.named
  split_ifs with hjob hstop
  · exact ⟨.job, rfl, fun _ => hjob⟩
  · exact ⟨.stop, rfl, fun h => by cases h⟩
  · exact ⟨.bad, rfl, fun h => by cases h⟩

/-- A command `job` is a word of the input. -/
theorem typedJobs_read (h : readCommand Command.named input = some (command, input')) :
    typedJobs input' + (if command = .job then 1 else 0) ≤ typedJobs input := by
  have hwords := readCommand_words Command.named input
  rw [h, Option.map_some] at hwords
  unfold typedJobs
  cases hcut : words isSpace input with
  | nil =>
      rw [hcut] at hwords
      obtain ⟨rfl, hrest⟩ := Prod.mk.inj (Option.some.inj hwords)
      rw [hrest]
      exact Nat.le_refl _
  | cons word ws =>
      obtain ⟨command', hnamed, hjob⟩ := Command.named_eq (cstr word)
      have hword : Operand.ofWord Command.named word = .none command' := by
        rw [Operand.ofWord, hnamed]
      rw [hcut, nextCommand, List.headD_cons, hword] at hwords
      dsimp only at hwords
      split at hwords
      · obtain ⟨rfl, hrest⟩ := Prod.mk.inj (Option.some.inj hwords)
        rw [hrest, List.tail_cons, List.countP_cons]
        refine Nat.add_le_add_left ?_ _
        split
        · next h => rw [if_pos (decide_eq_true (hjob h))]
        · exact Nat.zero_le _
      · cases hwords

theorem Conn.sent_asking {pkg : Msg} {code : Int} {what : Sends} {st : SendSt}
    (hpc : s.exec = .sendMsg what pkg st) :
    (s.sent env pkg code what).executions.length + (s.sent env pkg code what).exec.asking ≤
      s.executions.length + s.exec.asking := by
  rw [hpc]
  cases what with
  | jobRequest | sendAck =>
      simp only [Conn.sent]
      split
      · exact Nat.le_add_right _ _
      · exact Nat.le_refl _
  | closeConnecMain => exact Nat.le_refl _
  | runMsg jobid =>
      simp only [Conn.sent, Conn.reported, Conn.executions, ExecPc.asking]
      cases s.current <;> simp
  | doneMsg =>
      simp only [Conn.sent, Conn.reported, Conn.finish, Conn.executions, ExecPc.asking]
      cases s.current <;> simp

theorem Conn.dispatch_asking (pkg : Msg) :
    (s.dispatch env pkg).executions.length + (s.dispatch env pkg).exec.asking ≤
      s.executions.length + 1 := by
  unfold Conn.dispatch
  dsimp only
  split
  · simp [Conn.executions, ExecPc.asking]
  · split
    · exact Nat.le_refl _
    · exact Nat.le_succ _

/-- Away from the prompt an execution begins only where one was asked for. -/
theorem Conn.execStep_asking (hs : s.execStep env = some s') (hpc : s.exec ≠ .command) :
    s'.executions.length + s'.exec.asking ≤ s.executions.length + s.exec.asking := by
  unfold Conn.execStep at hs
  cases hexec : s.exec with
  | command => exact absurd hexec hpc
  | sendMsg what pkg st =>
      rw [hexec] at hs
      obtain rfl := Option.some.inj hs
      unfold Conn.sendMsgStep
      dsimp only
      split
      · exact Nat.add_le_add_left (by cases what <;> exact Nat.le_refl _) _
      · rw [← hexec]
        exact Conn.sent_asking hexec
  | execServerProtocol st =>
      rw [hexec] at hs
      obtain rfl := Option.some.inj hs
      unfold Conn.execServerProtocolStep
      split
      · exact Nat.le_refl _
      · dsimp only
        split
        · exact Conn.dispatch_asking _
        · exact Nat.le_succ _
      · exact Nat.le_succ _
  | execJob pkg =>
      rw [hexec] at hs
      obtain rfl := Option.some.inj hs
      unfold Conn.execJobStep
      dsimp only
      split <;> split <;>
        simp only [Conn.forked, Conn.send, Conn.mishap, Conn.finish, Conn.executions,
          ExecPc.asking] <;>
        cases s.current <;> simp
  | wait jobid =>
      rw [hexec] at hs
      obtain rfl := Option.some.inj hs
      unfold Conn.waitStep
      split <;> exact Nat.le_refl _
  | closed =>
      rw [hexec] at hs
      cases hs

/-- At the prompt none begins, and one is asked for if the command is `job`. -/
theorem Conn.commandStep_asking (hs : s.execStep env = some s') (hpc : s.exec = .command) :
    s'.executions.length + s'.exec.asking ≤
      s.executions.length + if env.command = .job then 1 else 0 := by
  rw [Conn.execStep, hpc] at hs
  obtain rfl := Option.some.inj hs
  unfold Conn.commandStep
  cases hcommand : env.command with
  | job => exact Nat.le_refl _
  | stop => exact Nat.le_refl _
  | bad =>
      rw [hpc]
      exact Nat.le_refl _

end Steps

/-- What is executed, asked for and still to come at the prompt. -/
def Operated.budget (s : Operated) : Nat :=
  s.conn.executions.length + s.conn.exec.asking + typedJobs s.input

theorem Operated.budget_step {s s' : Operated} {a : Operated.Action} (h : s.step a = some s')
    (hseekable : s.seekable = false) (halone : s.LeftAlone a) :
    s'.budget ≤ s.budget ∧ s'.seekable = false := by
  unfold Operated.budget
  cases a with
  | ends a =>
      cases a with
      | main env =>
          obtain ⟨conn, hconn, rfl⟩ := Option.map_eq_some_iff.mp h
          obtain ⟨hexec, hexecutions, -, -⟩ := Conn.mainStep_exec hconn
          rw [hexec, hexecutions]
          exact ⟨Nat.le_refl _, hseekable⟩
      | exec env =>
          rw [Operated.step] at h
          split at h
          · next hpc =>
              split at h
              · cases h
              · next command input hread =>
                  obtain ⟨conn, hconn, rfl⟩ := Option.map_eq_some_iff.mp h
                  have hcommand := Conn.commandStep_asking hconn hpc
                  have htyped := typedJobs_read hread
                  dsimp only at hcommand ⊢
                  exact ⟨by omega, hseekable⟩
          · next hpc =>
              obtain ⟨conn, hconn, rfl⟩ := Option.map_eq_some_iff.mp h
              exact ⟨Nat.add_le_add_right (Conn.execStep_asking hconn hpc) _, hseekable⟩
  | exit buffered again =>
      rw [Operated.step, hseekable, if_neg Bool.false_ne_true] at h
      obtain rfl := Option.some.inj h
      exact ⟨Nat.le_refl _, hseekable⟩
  | read buffered count => exact halone.elim

/-- In every run on an input that is no file, and that no child reads, an exec
server has executed no more jobs than `job` was typed at its prompt. -/
theorem executions_le_typed {stack : Msg} {text : List UInt8} {s : Operated}
    (h : Reach Operated.step Operated.LeftAlone (· = .init stack text false) s) :
    s.conn.executions.length ≤ typedJobs text := by
  have hbudget : s.budget ≤ typedJobs text ∧ s.seekable = false := by
    refine h.invariant (I := fun s => s.budget ≤ typedJobs text ∧ s.seekable = false) ?_
      fun s a s' _ hs halone hstep => ?_
    · rintro s rfl
      rw [Operated.budget, Operated.init]
      simp [Conn.init, Conn.executions, ExecPc.asking]
    · obtain ⟨hle, hseekable⟩ := Operated.budget_step hstep hs.2 halone
      exact ⟨Nat.le_trans hle hs.1, hseekable⟩
  have hle := hbudget.1
  unfold Operated.budget at hle
  omega

/-- `job` is typed, and a job executed. -/
theorem executions_le_typed_job :
    ∃ s : Operated, s.conn.executions.length = 1 ∧
      s.conn.executions.length ≤ typedJobs (chars ['j', 'o', 'b', '\n']) := by
  obtain ⟨s, hr, hone⟩ : ∃ s : Operated, Reach Operated.step Operated.LeftAlone
      (· = .init (Msg.fill 0) (chars ['j', 'o', 'b', '\n']) false) s ∧
        s.conn.executions.length = 1 :=
    @reach_of_checkedRun _ _ _ _ _ _ (oneJob.map .ends ++ [.exit 0 []]) _ _ _ rfl
      (by decide +kernel)
  exact ⟨s, hone, executions_le_typed hr⟩

/-- A job that is carried out and reported. -/
def wholeJob : List Operated.Action :=
  (oneJob ++ List.replicate 4 (Action.main goWell)).map .ends

-- On a file the second of two words is read twice when the first child leaves by `exit`.
example :
    let word := chars ['j', 'o', 'b', '\n']
    let s := checkedRun Operated.step Operated.LeftAlone (.init (Msg.fill 0) (word ++ word) true)
      (wholeJob.take 14 ++ [.exit 4 word] ++ wholeJob.drop 14 ++ wholeJob ++ wholeJob)
    s.map (fun s => s.conn.executions.length) = some 3 ∧ typedJobs (word ++ word) = 2 := by
  decide +kernel

end DistQueue.Handshake
