import DistQueue.Client.Typed
import DistQueue.Menu.Servers

/-!
# What is typed at the client

The loop of `client.c` reads words like those of the servers, and behind
`submit` and `submiti` the rest of the line. One character is skipped behind
each word, so the line begins there whether that was a blank or the end of a
line.

The input is what the standard library reads; what `interaction_1` takes from
the descriptor on its own is not part of it. Behind the reading of a round stand
calls that wait for the server, or for a job: they may not return.
-/

namespace DistQueue.Client

open DistQueue.Lib

/-! ## Reading -/

/-- What a round takes in: its command, and the line `getline` finds for it. -/
structure Typed where
  command : Command
  getline : Option (List UInt8)
  deriving DecidableEq, Repr

def isNewline (c : UInt8) : Bool := c = 10

/-- The `getline` of `getArgsSubmit` and `getArgsSubmitInt`. -/
def readLine (command : Command) (input : List UInt8) : Typed × List UInt8 :=
  match scanLine isNewline input with
  | none => (⟨command, none⟩, input)
  | some (line, input) => (⟨command, some line⟩, input)

/-- `bzero`, `scanf` and `getchar` for an argument. -/
def readArg (command : List UInt8 → Command) (input : List UInt8) :
    Option (Typed × List UInt8) :=
  match readWord input with
  | none => none
  | some (buffer, input) => some (⟨command buffer, none⟩, input.tail)

/-- A round of the loop, as far as it reads. -/
def readRound (input : List UInt8) : Option (Typed × List UInt8) :=
  match readWord input with
  | none => none
  | some (command, input) =>
      let input := input.tail
      if command = chars ['s', 'u', 'b', 'm', 'i', 't'] then some (readLine .submit input)
      else if command = chars ['s', 'u', 'b', 'm', 'i', 't', 'i'] then
        some (readLine .submiti input)
      else if command = chars ['s', 't', 'a', 't', 'e', 'j', 'o', 'b'] then
        readArg .statejob input
      else if command = chars ['s', 't', 'a', 't', 'e', 'q', 'u', 'e', 'u', 'e'] then
        readArg .statequeue input
      else if command = chars ['u', 'n', 's', 'u', 'b', 'm', 'i', 't'] then
        readArg .unsubmit input
      else if command = chars ['s', 't', 'o', 'p'] then some (⟨.stop, none⟩, input)
      else some (⟨.bad, none⟩, input)

/-- What comes behind the reading. `returns i` is whether the calls of round `i`
return: its `sendMsg`, `client_protocol` and `client_accept`. -/
def Typed.carry (returns : Nat → Bool) (i : Nat) (typed : Typed) (input : List UInt8) :
    After (List UInt8) :=
  match typed.command with
  | .bad => .again input
  | .stop => if returns i then .ended else .stays
  | _ => if returns i then .again input else .stays

/-- The loop of `client.c`. -/
def loop (returns : Nat → Bool) (n : Nat) (input : List UInt8) :
    List Typed × LoopEnd (List UInt8) :=
  rounds readRound (Typed.carry returns) n 0 input

/-! ## Typing -/

/-- What somebody means to type: a submission without the end of its line, a
query, or any other word. -/
inductive Entry
  | submit (line : List UInt8)
  | submiti (line : List UInt8)
  | query (query : Query) (arg : List UInt8)
  | stop
  | bad (word : List UInt8)
  deriving DecidableEq, Repr

/-- The white space around the words of an entry. -/
structure Layout where
  before : List UInt8
  behind : UInt8
  between : List UInt8
  last : UInt8
  deriving DecidableEq, Repr

/-- A word that can be read back from the buffer. -/
structure Word (w : List UInt8) : Prop where
  found : w ≠ []
  free : ∀ c ∈ w, isSpace c = false
  string : cstr w = w
  fits : w.length < sizeofBuffer

instance (w : List UInt8) : Decidable (Word w) :=
  decidable_of_iff (w ≠ [] ∧ w.all (fun c => isSpace c = false) ∧ cstr w = w ∧
      w.length < sizeofBuffer)
    ⟨fun h => ⟨h.1, fun c hc => of_decide_eq_true (List.all_eq_true.mp h.2.1 c hc), h.2.2.1,
        h.2.2.2⟩,
      fun h => ⟨h.found, List.all_eq_true.mpr fun c hc => decide_eq_true (h.free c hc), h.string,
        h.fits⟩⟩

structure Layout.Blank (layout : Layout) : Prop where
  before : ∀ c ∈ layout.before, isSpace c = true
  behind : isSpace layout.behind = true
  between : ∀ c ∈ layout.between, isSpace c = true
  last : isSpace layout.last = true

instance (layout : Layout) : Decidable layout.Blank :=
  decidable_of_iff (layout.before.all isSpace ∧ isSpace layout.behind = true ∧
      layout.between.all isSpace ∧ isSpace layout.last = true)
    ⟨fun h => ⟨List.all_eq_true.mp h.1, h.2.1, List.all_eq_true.mp h.2.2.1, h.2.2.2⟩,
      fun h => ⟨List.all_eq_true.mpr h.before, h.behind, List.all_eq_true.mpr h.between, h.last⟩⟩

def Query.word : Query → List UInt8
  | .statejob => chars ['s', 't', 'a', 't', 'e', 'j', 'o', 'b']
  | .unsubmit => chars ['u', 'n', 's', 'u', 'b', 'm', 'i', 't']
  | .statequeue => chars ['s', 't', 'a', 't', 'e', 'q', 'u', 'e', 'u', 'e']

namespace Entry

def word : Entry → List UInt8
  | .submit _ => chars ['s', 'u', 'b', 'm', 'i', 't']
  | .submiti _ => chars ['s', 'u', 'b', 'm', 'i', 't', 'i']
  | .query q _ => q.word
  | .stop => chars ['s', 't', 'o', 'p']
  | .bad word => word

/-- The names the loop knows. -/
def names : List (List UInt8) :=
  [word (.submit []), word (.submiti []), word (.query .statejob []), word (.query .unsubmit []),
    word (.query .statequeue []), word .stop]

/-- It is one line, and in words that can be read. -/
def Typable : Entry → Prop
  | .submit line | .submiti line => ∀ c ∈ line, isNewline c = false
  | .query _ arg => Word arg
  | .stop => True
  | .bad word => Word word ∧ word ∉ names

instance : (e : Entry) → Decidable e.Typable
  | .submit line | .submiti line =>
      List.decidableBAll (fun c => isNewline c = false) line
  | .query _ arg => inferInstanceAs (Decidable (Word arg))
  | .stop => isTrue trivial
  | .bad word => inferInstanceAs (Decidable (Word word ∧ word ∉ names))

/-- What comes behind the first word of an entry and the character that ends
it. -/
def operand (layout : Layout) (rest : List UInt8) : Entry → List UInt8
  | .submit line | .submiti line => line ++ 10 :: rest
  | .query _ arg => layout.between ++ (arg ++ layout.last :: rest)
  | .stop | .bad _ => rest

/-- The text of an entry, in front of `rest`. -/
def text (e : Entry) (layout : Layout) (rest : List UInt8) : List UInt8 :=
  layout.before ++ (e.word ++ layout.behind :: e.operand layout rest)

/-- What the loop should take in for it. -/
def typed : Entry → Typed
  | .submit line => ⟨.submit, some (line ++ [10])⟩
  | .submiti line => ⟨.submiti, some (line ++ [10])⟩
  | .query q arg => ⟨q.command arg, none⟩
  | .stop => ⟨.stop, none⟩
  | .bad _ => ⟨.bad, none⟩

/-- The message an entry stands for, for a client in `dir` that listens at
`port` of `addr`. -/
def request (dir : List UInt8) (addr : UInt32) (port : UInt16) : Entry → Option SetterCall
  | .submit line => some (.fileExecNoInterClient (line ++ [10]) dir 0)
  | .submiti line => some (.fileExecInterClient (line ++ [10]) dir addr port 0)
  | .query .statejob arg => some (.jobStateClient (toJobid arg))
  | .query .unsubmit arg => some (.unsubmitClient (toJobid arg))
  | .query .statequeue arg => some (.queueStateClient (toQueueid arg))
  | .stop => some .closedConnection
  | .bad _ => none

end Entry

section Read

variable {e : Entry} {layout : Layout} {w rest sp : List UInt8} {c : UInt8}

theorem readWord_text (hsp : ∀ c ∈ sp, isSpace c = true) (hw : Word w) (hc : isSpace c = true) :
    readWord (sp ++ (w ++ c :: rest)) = some (w, c :: rest) := by
  have hended : ∀ a ∈ (c :: rest).head?, isSpace a = true := fun a ha => Option.some.inj ha ▸ hc
  unfold readWord
  rw [scanWord_append_sep hsp, scanWord_word hw.free hended hw.found]
  dsimp only
  rw [if_pos (show fitsBuffer w = true from decide_eq_true hw.fits), hw.string]

theorem readArg_text (command : List UInt8 → Command) (hlayout : layout.Blank) (hw : Word w) :
    readArg command (layout.between ++ (w ++ layout.last :: rest)) =
      some (⟨command w, none⟩, rest) := by
  unfold readArg
  rw [readWord_text hlayout.between hw hlayout.last]
  rfl

theorem readLine_text (command : Command) {line : List UInt8}
    (hline : ∀ c ∈ line, isNewline c = false) :
    readLine command (line ++ 10 :: rest) = (⟨command, some (line ++ [10])⟩, rest) := by
  unfold readLine
  rw [scanLine_line hline rfl]

theorem Entry.Typable.word (h : e.Typable) : Word e.word := by
  cases e with
  | submit line => exact (by decide +kernel : Word (chars ['s', 'u', 'b', 'm', 'i', 't']))
  | submiti line => exact (by decide +kernel : Word (chars ['s', 'u', 'b', 'm', 'i', 't', 'i']))
  | query q arg => cases q <;> rw [Entry.word] <;> decide +kernel
  | stop => exact (by decide +kernel : Word (chars ['s', 't', 'o', 'p']))
  | bad word => exact h.1

/-- A round takes an entry off the text. -/
theorem readRound_text (he : e.Typable) (hlayout : layout.Blank) :
    readRound (e.text layout rest) = some (e.typed, rest) := by
  have hread : readWord (e.text layout rest) =
      some (e.word, layout.behind :: e.operand layout rest) :=
    readWord_text hlayout.before he.word hlayout.behind
  unfold readRound
  rw [hread]
  dsimp only
  rw [List.tail_cons]
  cases e with
  | submit line =>
      rw [Entry.word, if_pos rfl]
      exact congrArg some (readLine_text _ he)
  | submiti line =>
      rw [Entry.word, if_neg (by decide), if_pos rfl]
      exact congrArg some (readLine_text _ he)
  | query query arg =>
      cases query with
      | statejob =>
          rw [Entry.word, Query.word, if_neg (by decide), if_neg (by decide), if_pos rfl]
          exact readArg_text _ hlayout he
      | statequeue =>
          rw [Entry.word, Query.word, if_neg (by decide), if_neg (by decide), if_neg (by decide),
            if_pos rfl]
          exact readArg_text _ hlayout he
      | unsubmit =>
          rw [Entry.word, Query.word, if_neg (by decide), if_neg (by decide), if_neg (by decide),
            if_neg (by decide), if_pos rfl]
          exact readArg_text _ hlayout he
  | stop =>
      rw [Entry.word, if_neg (by decide), if_neg (by decide), if_neg (by decide),
        if_neg (by decide), if_neg (by decide), if_pos rfl]
      rfl
  | bad word =>
      have hne : ∀ name ∈ Entry.names, word ≠ name := fun name hname heq =>
        he.2 (heq ▸ hname)
      simp only [Entry.names, List.forall_mem_cons, Entry.word, Query.word] at hne
      obtain ⟨hsubmit, hsubmiti, hstatejob, hunsubmit, hstatequeue, hstop, -⟩ := hne
      rw [Entry.word, if_neg hsubmit, if_neg hsubmiti, if_neg hstatejob, if_neg hstatequeue,
        if_neg hunsubmit, if_neg hstop]
      rfl

/-- What a round sends for what it took in. -/
def Typed.sends (calls : Calls) (typed : Typed) : Option SetterCall :=
  (run { calls with getline := typed.getline } typed.command).1

theorem sends_typed {calls : Calls} {dir : List UInt8} (hdir : calls.getcwd = some dir)
    (e : Entry) :
    e.typed.sends calls = e.request dir calls.addr calls.port := by
  cases e with
  | submit line | submiti line =>
      simp only [Typed.sends, Entry.typed, run, getArgsSubmit, getArgsSubmitInt, hdir,
        Entry.request]
  | query query arg => cases query <;> rfl
  | stop => rfl
  | bad word => rfl

end Read

/-- Entries that are typed one behind the other, with whatever white space, are
read as what they are, up to a `stop` and no further; and what the client sends
for them are their messages, in order, each with what the calls of its own round
answered. -/
theorem client_reads_as_typed {returns : Nat → Bool} (hreturns : ∀ i, returns i = true)
    {es : List (Entry × Layout)} (hes : ∀ e ∈ es, e.1.Typable ∧ e.2.Blank ∧ e.1 ≠ .stop)
    (rest : List UInt8) :
    loop returns es.length (es.foldr (fun e => e.1.text e.2) rest) =
      (es.map fun e => e.1.typed, .running rest) ∧
    (∀ layout : Layout, layout.Blank → ∀ n,
      loop returns (es.length + 1 + n)
          (es.foldr (fun e => e.1.text e.2) (Entry.stop.text layout rest)) =
        (es.map (fun e => e.1.typed) ++ [Entry.stop.typed], .ended)) ∧
    ∀ (calls : Nat → Calls) (dir : Nat → List UInt8), (∀ i, (calls i).getcwd = some (dir i)) →
      (es.map fun e => e.1.typed).zipIdx.filterMap (fun r => r.1.sends (calls r.2)) =
        es.zipIdx.filterMap fun r => r.1.1.request (dir r.2) (calls r.2).addr (calls r.2).port := by
  have hcarry : ∀ e ∈ es, ∀ i s, e.1.typed.carry returns i s = .again s := by
    intro e he i s
    obtain ⟨-, -, hstop⟩ := hes e he
    rcases e with ⟨e, layout⟩
    cases e with
    | stop => exact absurd rfl hstop
    | query query arg => cases query <;> exact if_pos (hreturns i)
    | bad word => rfl
    | _ => exact if_pos (hreturns i)
  have hloop : ∀ rest, loop returns es.length (es.foldr (fun e => e.1.text e.2) rest) =
      (es.map fun e => e.1.typed, .running rest) := fun rest =>
    @rounds_texts _ _ readRound _ _ (fun e : Entry × Layout => e.1.text e.2) (fun e => e.1.typed)
      es 0 rest (fun e he rest => readRound_text (hes e he).1 (hes e he).2.1) hcarry
  refine ⟨hloop rest, fun layout hlayout n => ?_, fun calls dir hdir => ?_⟩
  · rw [Nat.add_assoc, loop, rounds_add]
    have hread := hloop (Entry.stop.text layout rest)
    rw [loop] at hread
    rw [hread]
    dsimp only
    have hstop : Entry.stop.Typable := trivial
    rw [Nat.add_comm 1 n, rounds_ended (readRound_text hstop hlayout) (if_pos (hreturns _))]
  · rw [List.zipIdx_map, List.filterMap_map]
    exact List.filterMap_congr fun r _ => sends_typed (hdir r.2) r.1.1

/-- One blank behind a word, and every entry on a line of its own. -/
def oneLine : Layout := ⟨[], 32, [], 10⟩

/-- `submit ls`, `statejob 7` and `stop`. -/
theorem client_reads_as_typed_ls :
    loop (fun _ => true) 3 (chars ['s', 'u', 'b', 'm', 'i', 't', ' ', 'l', 's', '\n',
        's', 't', 'a', 't', 'e', 'j', 'o', 'b', ' ', '7', '\n', 's', 't', 'o', 'p', ' ']) =
      ([⟨.submit, some (chars ['l', 's', '\n'])⟩, ⟨.statejob (chars ['7']), none⟩,
        ⟨.stop, none⟩], .ended) :=
  (client_reads_as_typed (fun _ => rfl)
    (show ∀ e ∈ [(Entry.submit (chars ['l', 's']), oneLine),
        (.query .statejob (chars ['7']), oneLine)], e.1.Typable ∧ e.2.Blank ∧ e.1 ≠ .stop by
      decide +kernel) []).2.1 oneLine (by decide +kernel) 0

/-! ## What becomes of the loop -/

section Outcome

variable {input rest : List UInt8} {typed : Typed}

/-- A line that is taken leaves the words behind it. -/
theorem readLine_leaves (command : Command) (input : List UInt8) :
    (readLine command input).2.length ≤ input.length ∧
      ∀ word ∈ words isSpace (readLine command input).2, word ∈ words isSpace input := by
  unfold readLine
  cases hscan : scanLine isNewline input with
  | none => exact ⟨Nat.le_refl _, fun _ h => h⟩
  | some cut =>
      obtain ⟨line, rest⟩ := cut
      obtain ⟨rfl, hline⟩ := scanLine_eq_some_iff.mp hscan
      refine ⟨by simp, ?_⟩
      rcases hline with ⟨body, c, -, hc, rfl⟩ | ⟨-, -, rfl⟩
      · have hspace : isSpace c = true := by
          rw [isNewline, decide_eq_true_iff] at hc
          rw [hc]
          rfl
        intro word hmem
        rw [List.append_assoc, List.singleton_append, words_append_cons body rest hspace]
        exact List.mem_append_right _ hmem
      · intro word hmem
        cases hmem

/-- What a round leaves of the input. -/
def Leaves (input rest : List UInt8) : Prop :=
  rest.length ≤ input.length - 1 ∧ ∀ word ∈ words isSpace rest, word ∈ words isSpace input

theorem readArg_cases (command : List UInt8 → Command) (input : List UInt8) :
    (readArg command input = none ∧ ∃ word ∈ words isSpace input, sizeofBuffer ≤ word.length) ∨
      ∃ typed rest, readArg command input = some (typed, rest) ∧ Leaves input rest := by
  unfold readArg
  rcases readWord_cases input with ⟨hnone, hlong⟩ | ⟨word, rest, hsome, hless, hwords⟩
  · rw [hnone]
    exact .inl ⟨rfl, hlong⟩
  · rw [hsome]
    refine .inr ⟨_, _, rfl, ?_, hwords⟩
    rw [List.length_tail]
    omega

/-- A round fails on a word the buffer has no room for, and takes something off
the input otherwise. -/
theorem readRound_cases (input : List UInt8) :
    (readRound input = none ∧ ∃ word ∈ words isSpace input, sizeofBuffer ≤ word.length) ∨
      ∃ typed rest, readRound input = some (typed, rest) ∧ Leaves input rest := by
  unfold readRound
  rcases readWord_cases input with ⟨hnone, hlong⟩ | ⟨command, rest, hsome, hless, hwords⟩
  · rw [hnone]
    exact .inl ⟨rfl, hlong⟩
  · rw [hsome]
    dsimp only
    have htail : rest.tail.length ≤ input.length - 1 := by
      rw [List.length_tail]
      omega
    have hline : ∀ command, Leaves input (readLine command rest.tail).2 := fun command => by
      obtain ⟨hlength, hmem⟩ := readLine_leaves command rest.tail
      exact ⟨by omega, fun word h => hwords word (hmem word h)⟩
    have harg : ∀ command : List UInt8 → Command,
        (readArg command rest.tail = none ∧
          ∃ word ∈ words isSpace input, sizeofBuffer ≤ word.length) ∨
        ∃ typed rest', readArg command rest.tail = some (typed, rest') ∧ Leaves input rest' := by
      intro command
      rcases readArg_cases command rest.tail with ⟨hnone, word, hmem, hlong⟩ |
        ⟨typed, rest', hsome, hlength, hmem⟩
      · exact .inl ⟨hnone, word, hwords word hmem, hlong⟩
      · exact .inr ⟨typed, rest', hsome, by omega, fun word h => hwords word (hmem word h)⟩
    split_ifs
    · exact .inr ⟨_, _, rfl, hline _⟩
    · exact .inr ⟨_, _, rfl, hline _⟩
    · exact harg _
    · exact harg _
    · exact harg _
    · exact .inr ⟨_, _, rfl, htail, hwords⟩
    · exact .inr ⟨_, _, rfl, htail, hwords⟩

variable {returns : Nat → Bool}

/-- Behind the reading the input is left alone. -/
theorem Typed.carry_again {i : Nat} (h : typed.carry returns i input = .again rest) :
    rest = input := by
  unfold Typed.carry at h
  split at h
  · exact (After.again.inj h).symm
  · split at h <;> cases h
  · split at h
    · exact (After.again.inj h).symm
    · cases h

theorem Typed.carry_stays {i : Nat} (h : typed.carry returns i input = .stays) :
    returns i = false := by
  unfold Typed.carry at h
  split at h
  · cases h
  all_goals
    split at h
    · cases h
    · next hreturns => simpa using hreturns

/-- The loop fails on a word of its input only. -/
theorem rounds_readRound_failed : ∀ {n i : Nat} {input : List UInt8},
    (rounds readRound (Typed.carry returns) n i input).2 = .failed →
      ∃ word ∈ words isSpace input, sizeofBuffer ≤ word.length := by
  intro n
  induction n with
  | zero => intro i input h; cases h
  | succ n ih =>
      intro i input h
      rcases readRound_cases input with ⟨-, hlong⟩ | ⟨typed, rest, hsome, -, hmem⟩
      · exact hlong
      · cases hcarry : typed.carry returns i rest with
        | ended =>
            rw [rounds_ended hsome hcarry] at h
            cases h
        | stays =>
            rw [rounds_stays hsome hcarry] at h
            cases h
        | again rest' =>
            rw [rounds_succ hsome hcarry, Typed.carry_again hcarry] at h
            obtain ⟨word, hword, hlong⟩ := ih h
            exact ⟨word, hmem word hword, hlong⟩

/-- Whatever is typed at the client: by the time the loop has made as many
rounds as there are characters, a `stop` has ended it, or it is in a call that
does not return, or a word of the text has run over its buffer, or it has taken
everything in and reads bad commands for ever. -/
theorem client_settles (returns : Nat → Bool) (input : List UInt8) :
    match loop returns input.length input with
    | (typed, .ended) => ∀ m, loop returns (input.length + m) input = (typed, .ended)
    | (typed, .stays) => (∃ before last, typed = before ++ [last] ∧
          returns before.length = false) ∧
        ∀ m, loop returns (input.length + m) input = (typed, .stays)
    | (typed, .failed) => (∃ word ∈ words isSpace input, sizeofBuffer ≤ word.length) ∧
        ∀ m, loop returns (input.length + m) input = (typed, .failed)
    | (typed, .running _) => ∀ m, loop returns (input.length + m) input =
        (typed ++ List.replicate m ⟨.bad, none⟩, .running []) := by
  have hless : ∀ {s : List UInt8} {typed : Typed} {s' : List UInt8},
      readRound s = some (typed, s') → s'.length ≤ s.length - 1 := by
    intro s typed s' hsome
    rcases readRound_cases s with ⟨hnone, -⟩ | ⟨_, _, hsome', hlength, -⟩
    · rw [hnone] at hsome
      cases hsome
    · obtain ⟨-, rfl⟩ := Prod.mk.inj (Option.some.inj (hsome.symm.trans hsome'))
      exact hlength
  have hagain : ∀ {i : Nat} {typed : Typed} {s s' : List UInt8},
      typed.carry returns i s = .again s' → s'.length ≤ s.length := fun h => by
    rw [Typed.carry_again h]
  have hfailed := @rounds_readRound_failed returns input.length 0 input
  have hrunning := fun rest => @rounds_run_out _ _ readRound (Typed.carry returns) _ hless hagain
    input.length 0 input rest (Nat.le_refl _)
  have hover := @rounds_over _ _ readRound (Typed.carry returns) input input.length 0
  have hadd := fun m => @rounds_add _ _ readRound (Typed.carry returns) m input.length 0 input
  have hstayed := @rounds_stayed _ _ readRound (Typed.carry returns) input.length 0 input
  unfold loop
  revert hfailed hrunning hover hadd hstayed
  generalize rounds readRound (Typed.carry returns) input.length 0 input = r
  intro hfailed hrunning hover hadd hstayed
  obtain ⟨cs, e⟩ := r
  cases e with
  | ended => exact hover rfl fun _ h => by cases h
  | stays =>
      obtain ⟨before, last, s', hcs, hcarry⟩ := hstayed rfl
      rw [Nat.zero_add] at hcarry
      exact ⟨⟨before, last, hcs, Typed.carry_stays hcarry⟩, hover rfl fun _ h => by cases h⟩
  | failed => exact ⟨hfailed rfl, hover rfl fun _ h => by cases h⟩
  | running rest =>
      obtain rfl := List.length_eq_zero_iff.mp (hrunning rest rfl)
      intro m
      have hidle : readRound [] = some (⟨.bad, none⟩, []) := by decide
      rw [hadd]
      dsimp only
      rw [rounds_idle hidle fun _ => rfl]

-- `submit` and the end of the input: nothing was sent, and nothing comes back.
example : loop (fun _ => false) 6 (chars ['s', 'u', 'b', 'm', 'i', 't']) =
    ([⟨.submit, none⟩], .stays) := by decide

end Outcome

end DistQueue.Client
