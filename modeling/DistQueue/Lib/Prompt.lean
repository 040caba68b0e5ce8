import DistQueue.Lib.Scan

/-!
# A loop that reads commands

Each round takes a command off the input and carries it out, until one ends the
loop or does not come back. As long as nothing else moves the input, what is read
depends on its words only, however they are laid out; and a loop that has read
them all goes on with what it reads at the end of the input, for ever.
-/

namespace DistQueue.Lib

variable {σ τ C : Type*}

/-- How carrying out a command comes out. -/
inductive After (σ : Type*)
  | again (s : σ)
  | ended
  /-- It does not come back. -/
  | stays
  deriving DecidableEq, Repr

def After.map (f : σ → τ) : After σ → After τ
  | .again s => .again (f s)
  | .ended => .ended
  | .stays => .stays

/-- Where a loop is behind some of its rounds. -/
inductive LoopEnd (σ : Type*)
  | running (s : σ)
  /-- A command ended it. -/
  | ended
  /-- It is in a command that does not come back. -/
  | stays
  /-- A command could not be read. -/
  | failed
  deriving DecidableEq, Repr

def LoopEnd.map (f : σ → τ) : LoopEnd σ → LoopEnd τ
  | .running s => .running (f s)
  | .ended => .ended
  | .stays => .stays
  | .failed => .failed

/-- At most `n` rounds from round `i` on: the commands, and where the loop is.
`carry i c s` is what comes of command `c` in round `i`, and of the state it is
read in. -/
def rounds (round : σ → Option (C × σ)) (carry : Nat → C → σ → After σ) :
    (n i : Nat) → σ → List C × LoopEnd σ
  | 0, _, s => ([], .running s)
  | n + 1, i, s =>
      match round s with
      | none => ([], .failed)
      | some (c, s) =>
          match carry i c s with
          | .again s =>
              let (cs, e) := rounds round carry n (i + 1) s
              (c :: cs, e)
          | .ended => ([c], .ended)
          | .stays => ([c], .stays)

section Rounds

variable {round : σ → Option (C × σ)} {carry : Nat → C → σ → After σ} {s s' s'' : σ} {c : C}
  {n i : Nat}

theorem rounds_failed (h : round s = none) : rounds round carry (n + 1) i s = ([], .failed) := by
  rw [rounds, h]

theorem rounds_ended (h : round s = some (c, s')) (hcarry : carry i c s' = .ended) :
    rounds round carry (n + 1) i s = ([c], .ended) := by
  rw [rounds, h]
  dsimp only
  rw [hcarry]

theorem rounds_stays (h : round s = some (c, s')) (hcarry : carry i c s' = .stays) :
    rounds round carry (n + 1) i s = ([c], .stays) := by
  rw [rounds, h]
  dsimp only
  rw [hcarry]

theorem rounds_succ (h : round s = some (c, s')) (hcarry : carry i c s' = .again s'') :
    rounds round carry (n + 1) i s =
      (c :: (rounds round carry n (i + 1) s'').1, (rounds round carry n (i + 1) s'').2) := by
  rw [rounds, h]
  dsimp only
  rw [hcarry]

/-- The first round, and what comes of it. -/
theorem rounds_cases (round : σ → Option (C × σ)) (carry : Nat → C → σ → After σ) (n i : Nat)
    (s : σ) :
    (round s = none ∧ rounds round carry (n + 1) i s = ([], .failed)) ∨
      ∃ c s', round s = some (c, s') ∧
        ((carry i c s' = .ended ∧ rounds round carry (n + 1) i s = ([c], .ended)) ∨
          (carry i c s' = .stays ∧ rounds round carry (n + 1) i s = ([c], .stays)) ∨
          ∃ s'', carry i c s' = .again s'' ∧ rounds round carry (n + 1) i s =
            (c :: (rounds round carry n (i + 1) s'').1, (rounds round carry n (i + 1) s'').2)) := by
  cases hs : round s with
  | none => exact .inl ⟨rfl, rounds_failed hs⟩
  | some r =>
      obtain ⟨c, s'⟩ := r
      refine .inr ⟨c, s', rfl, ?_⟩
      cases hcarry : carry i c s' with
      | ended => exact .inl ⟨rfl, rounds_ended hs hcarry⟩
      | stays => exact .inr (.inl ⟨rfl, rounds_stays hs hcarry⟩)
      | again s'' => exact .inr (.inr ⟨s'', rfl, rounds_succ hs hcarry⟩)

/-- Loops that go by what `f` leaves of the state are in step. -/
theorem rounds_map {round' : τ → Option (C × τ)} {carry' : Nat → C → τ → After τ} {f : σ → τ}
    (h : ∀ s, (round s).map (fun r => (r.1, f r.2)) = round' (f s))
    (hcarry : ∀ i c s, (carry i c s).map f = carry' i c (f s)) :
    ∀ {n i : Nat} {s : σ}, rounds round' carry' n i (f s) =
      ((rounds round carry n i s).1, (rounds round carry n i s).2.map f) := by
  intro n
  induction n with
  | zero => intro i s; rfl
  | succ n ih =>
      intro i s
      have hround := h s
      rcases rounds_cases round carry n i s with ⟨hs, hrounds⟩ | ⟨c, s', hs, hrounds⟩
      · rw [hs, Option.map_none] at hround
        rw [hrounds, rounds_failed hround.symm]
        rfl
      · rw [hs, Option.map_some] at hround
        have hafter := (hcarry i c s').symm
        rcases hrounds with ⟨hc, hrounds⟩ | ⟨hc, hrounds⟩ | ⟨s'', hc, hrounds⟩ <;> rw [hc] at hafter
        · rw [hrounds, rounds_ended hround.symm hafter]
          rfl
        · rw [hrounds, rounds_stays hround.symm hafter]
          rfl
        · rw [hrounds, rounds_succ hround.symm hafter, ih]

/-- What was read stays read. -/
theorem rounds_add (m : Nat) : ∀ {n i : Nat} {s : σ}, rounds round carry (n + m) i s =
    match rounds round carry n i s with
    | (cs, .running s) =>
        (cs ++ (rounds round carry m (i + n) s).1, (rounds round carry m (i + n) s).2)
    | r => r := by
  intro n
  induction n with
  | zero =>
      intro i s
      rw [Nat.zero_add, rounds, Nat.add_zero]
      rfl
  | succ n ih =>
      intro i s
      rw [Nat.add_right_comm]
      rcases rounds_cases round carry n i s with ⟨hs, hrounds⟩ | ⟨c, s', hs, hrounds⟩
      · rw [hrounds, rounds_failed hs]
      · rcases hrounds with ⟨hc, hrounds⟩ | ⟨hc, hrounds⟩ | ⟨s'', hc, hrounds⟩
        · rw [hrounds, rounds_ended hs hc]
        · rw [hrounds, rounds_stays hs hc]
        · rw [hrounds, rounds_succ hs hc, ih, Nat.add_assoc i 1 n, Nat.add_comm 1 n]
          cases rounds round carry n (i + 1) s'' with
          | mk cs e => cases e <;> rfl

/-- Behind its last command a loop makes no more rounds. -/
theorem rounds_over {cs : List C} {e : LoopEnd σ} (h : rounds round carry n i s = (cs, e))
    (hover : ∀ s, e ≠ .running s) (m : Nat) : rounds round carry (n + m) i s = (cs, e) := by
  rw [rounds_add, h]
  cases e with
  | running s => exact absurd rfl (hover s)
  | _ => rfl

/-- The command a loop does not come back from is the last it read. -/
theorem rounds_stayed : ∀ {n i : Nat} {s : σ}, (rounds round carry n i s).2 = .stays →
    ∃ cs c s', (rounds round carry n i s).1 = cs ++ [c] ∧ carry (i + cs.length) c s' = .stays := by
  intro n
  induction n with
  | zero => intro i s h; cases h
  | succ n ih =>
      intro i s h
      rcases rounds_cases round carry n i s with ⟨-, hrounds⟩ | ⟨c, s', -, hrounds⟩
      · rw [hrounds] at h
        cases h
      · rcases hrounds with ⟨-, hrounds⟩ | ⟨hc, hrounds⟩ | ⟨s'', -, hrounds⟩ <;>
          rw [hrounds] at h ⊢
        · cases h
        · exact ⟨[], c, s', rfl, hc⟩
        · obtain ⟨cs, last, t, hcs, hlast⟩ := ih h
          refine ⟨c :: cs, last, t, congrArg (c :: ·) hcs, ?_⟩
          rw [List.length_cons, Nat.add_comm cs.length 1, ← Nat.add_assoc]
          exact hlast

/-- At the end of the input the same command is read over and over. -/
theorem rounds_idle (hidle : round s = some (c, s)) (hcarry : ∀ i, carry i c s = .again s) :
    ∀ {n i : Nat}, rounds round carry n i s = (List.replicate n c, .running s) := by
  intro n
  induction n with
  | zero => intro i; rfl
  | succ n ih =>
      intro i
      rw [rounds_succ hidle (hcarry i), ih]
      rfl

/-- With something taken in every round, and nothing put back, there is an end
of it. -/
theorem rounds_run_out {size : σ → Nat}
    (hless : ∀ {s c s'}, round s = some (c, s') → size s' ≤ size s - 1)
    (hcarry : ∀ {i c s s'}, carry i c s = .again s' → size s' ≤ size s) :
    ∀ {n i : Nat} {s rest : σ}, size s ≤ n → (rounds round carry n i s).2 = .running rest →
      size rest = 0 := by
  intro n
  induction n with
  | zero =>
      intro i s rest hsize h
      obtain rfl := LoopEnd.running.inj h
      omega
  | succ n ih =>
      intro i s rest hsize h
      rcases rounds_cases round carry n i s with ⟨-, hrounds⟩ | ⟨c, s', hs, hrounds⟩
      · rw [hrounds] at h
        cases h
      · have hdrop := hless hs
        rcases hrounds with ⟨-, hrounds⟩ | ⟨-, hrounds⟩ | ⟨s'', hc, hrounds⟩ <;> rw [hrounds] at h
        · cases h
        · cases h
        · have hkept := hcarry hc
          exact ih (by omega) h

/-- A text that is put together of commands is taken apart again. -/
theorem rounds_texts {A : Type*} {text : A → σ → σ} {read : A → C} :
    ∀ {as : List A} {i : Nat} {rest : σ},
      (∀ a ∈ as, ∀ s, round (text a s) = some (read a, s)) →
      (∀ a ∈ as, ∀ i s, carry i (read a) s = .again s) →
      rounds round carry as.length i (as.foldr text rest) = (as.map read, .running rest) := by
  intro as
  induction as with
  | nil => intro i rest _ _; rfl
  | cons a as ih =>
      intro i rest hread hcarry
      have hrest := @ih (i + 1) rest (fun b hb => hread b (List.mem_cons_of_mem _ hb))
        fun b hb => hcarry b (List.mem_cons_of_mem _ hb)
      rw [List.length_cons, List.foldr_cons,
        rounds_succ (hread a List.mem_cons_self _) (hcarry a List.mem_cons_self i _), hrest,
        List.map_cons]

end Rounds

/-! ## Words -/

/-- What a command needs besides its name. -/
inductive Operand (W C : Type*)
  | none (c : C)
  | word (f : W → C)

section Words

variable {W : Type*} (blank : W) (fits : W → Bool) (menu : W → Operand W C)

/-- A round on the words that are still to come; a word that is not there reads
as `blank`. -/
def nextCommand (ws : List W) : Option (C × List W) :=
  let w := ws.headD blank
  if fits w then
    match menu w with
    | .none c => some (c, ws.tail)
    | .word f =>
        let w := ws.tail.headD blank
        if fits w then some (f w, ws.tail.tail) else none
  else none

variable {blank fits menu} {carry : Nat → C → List W → After (List W)} {n i : Nat}
  {ws ws' : List W} {c : C}

/-- A round takes one word at least, and fails on a word that does not fit. -/
theorem nextCommand_cases (hblank : fits blank = true) (ws : List W) :
    (nextCommand blank fits menu ws = none ∧ ∃ w ∈ ws, fits w = false) ∨
      ∃ c k, 0 < k ∧ nextCommand blank fits menu ws = some (c, ws.drop k) ∧
        ∀ w ∈ ws.take k, fits w = true := by
  have hhead : ∀ {ws : List W}, fits (ws.headD blank) = false → ∃ w ∈ ws, fits w = false := by
    intro ws h
    cases ws with
    | nil => rw [List.headD_nil, hblank] at h; cases h
    | cons w ws => exact ⟨w, List.mem_cons_self, h⟩
  have htake : ∀ {ws : List W} {k : Nat}, fits (ws.headD blank) = true →
      (∀ w ∈ ws.tail.take k, fits w = true) → ∀ w ∈ ws.take (k + 1), fits w = true := by
    intro ws k hw hws
    cases ws with
    | nil => intro w hw; cases hw
    | cons w ws =>
        intro v hv
        rcases List.mem_cons.mp hv with rfl | hv
        · exact hw
        · exact hws v hv
  unfold nextCommand
  dsimp only
  cases hw : fits (ws.headD blank) with
  | false =>
      rw [if_neg Bool.false_ne_true]
      exact .inl ⟨rfl, hhead hw⟩
  | true =>
      rw [if_pos rfl]
      cases menu (ws.headD blank) with
      | none c =>
          refine .inr ⟨c, 1, Nat.one_pos, by rw [List.drop_one], htake hw fun w hw => ?_⟩
          cases hw
      | word f =>
          dsimp only
          cases hw' : fits (ws.tail.headD blank) with
          | false =>
              rw [if_neg Bool.false_ne_true]
              obtain ⟨v, hv, hv'⟩ := hhead hw'
              exact .inl ⟨rfl, v, List.mem_of_mem_tail hv, hv'⟩
          | true =>
              rw [if_pos rfl]
              have htail : ws.tail.tail = ws.drop 2 := by
                rw [← List.drop_one, ← List.drop_one, List.drop_drop]
              refine .inr ⟨f (ws.tail.headD blank), 2, Nat.two_pos, by rw [htail],
                htake hw (htake hw' fun w hw => ?_)⟩
              cases hw

/-- By the time there are no more words a loop is over, or has met one that does
not fit, or has taken them all. -/
theorem rounds_words (hblank : fits blank = true)
    (hcarry : ∀ {i c ws ws'}, carry i c ws = .again ws' → ws' = ws) :
    ∀ {n i : Nat} {ws : List W}, ws.length ≤ n →
      match (rounds (nextCommand blank fits menu) carry n i ws).2 with
      | .ended | .stays => True
      | .failed => ∃ w ∈ ws, fits w = false
      | .running rest => rest = [] ∧ ∀ w ∈ ws, fits w = true := by
  intro n
  induction n with
  | zero =>
      intro i ws hlength
      obtain rfl := List.length_eq_zero_iff.mp (Nat.le_zero.mp hlength)
      exact ⟨rfl, fun w hw => by cases hw⟩
  | succ n ih =>
      intro i ws hlength
      rcases @nextCommand_cases _ _ _ _ menu hblank ws with ⟨hnone, hlong⟩ |
        ⟨c, k, hk, hsome, hfits⟩
      · rw [rounds_failed hnone]
        exact hlong
      · cases hafter : carry i c (ws.drop k) with
        | ended => rw [rounds_ended hsome hafter]; trivial
        | stays => rw [rounds_stays hsome hafter]; trivial
        | again ws' =>
            have hless : (ws.drop k).length ≤ n := by
              rw [List.length_drop]
              omega
            have hrest := ih (i := i + 1) hless
            rw [rounds_succ hsome hafter, hcarry hafter]
            revert hrest
            cases (rounds (nextCommand blank fits menu) carry n (i + 1) (ws.drop k)).2 with
            | ended => exact id
            | stays => exact id
            | failed => exact fun ⟨w, hw, hwfits⟩ => ⟨w, List.mem_of_mem_drop hw, hwfits⟩
            | running rest =>
                refine fun ⟨hnil, hrest⟩ => ⟨hnil, fun w hw => ?_⟩
                rw [← List.take_append_drop k ws] at hw
                exact (List.mem_append.mp hw).elim (hfits w) (hrest w)

end Words

end DistQueue.Lib
