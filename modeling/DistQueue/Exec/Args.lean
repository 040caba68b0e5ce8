import DistQueue.Exec.Job

/-!
# The tokenising loop

The loop of `consumeJob` round by round: it stores what `strtok_r` returns
before it looks at it, hands over the line in the first round only, and when
twenty tokens are stored overwrites the last. Whatever the line, it is through
within `ARG_MAX` rounds, has written nowhere but into `args`, and leaves the
words of the line there, as many as fit in front of a `NULL`.
-/

namespace DistQueue

open DistQueue.Lib

/-- `strtok_r`: the next token of `str`, or of where `saveptr` points when that
is `NULL`, and where `saveptr` points afterwards. -/
def strtokR (str : Option (List UInt8)) (saveptr : List UInt8) :
    Option (List UInt8) × List UInt8 :=
  match cutWord isSep (str.getD saveptr) with
  | none => (none, [])
  | some (token, rest) => (some token, rest)

/-- The locals of the loop, and the indices at which it has written. -/
structure TokenSt where
  args : Vector (Option (List UInt8)) argMax
  auxline : Option (List UInt8)
  saveptr : List UInt8
  i : Nat
  writes : List Nat

/-- One round; `true` if there is another. -/
def TokenSt.round (st : TokenSt) : Bool × TokenSt :=
  let (token, saveptr) := strtokR st.auxline st.saveptr
  let st := { st with
    args := st.args.setIfInBounds st.i token
    saveptr := saveptr
    writes := st.writes ++ [st.i] }
  match token with
  | none => (false, st)
  | some _ =>
      let st := { st with auxline := none, i := st.i + 1 }
      if st.i = argMax then
        (false, { st with
          args := st.args.setIfInBounds (argMax - 1) none
          writes := st.writes ++ [argMax - 1] })
      else (true, st)

/-- The loop, and how many rounds it makes, if no more than `n`. -/
def tokenLoop : (n : Nat) → TokenSt → Option (TokenSt × Nat)
  | 0, _ => none
  | n + 1, st =>
      match st.round with
      | (false, st) => some (st, 1)
      | (true, st) => (tokenLoop n st).map fun out => (out.1, out.2 + 1)

/-- With `args` all `NULL`; nothing has been stored in `saveptr` yet. -/
def TokenSt.start (lineCpy saveptr : List UInt8) : TokenSt :=
  ⟨Vector.replicate argMax none, some lineCpy, saveptr, 0, []⟩

/-- The loop ends, with `fillArgs` in `args`, inside of the array. -/
theorem tokenLoop_eq : ∀ {n m : Nat} {st : TokenSt}, st.i + (n + 1) = argMax → n < m →
    (∀ i ∈ st.writes, i < argMax) →
    ∃ out rounds, tokenLoop m st = some (out, rounds) ∧ rounds ≤ n + 1 ∧
      out.args = fillArgs (n + 1) st.i st.args (st.auxline.getD st.saveptr) ∧
      ∀ i ∈ out.writes, i < argMax := by
  intro n
  induction n with
  | zero =>
      intro m st hn hm hwrites
      obtain ⟨m, rfl⟩ : ∃ k, m = k + 1 := ⟨m - 1, by omega⟩
      have hinside : ∀ i ∈ st.writes ++ [st.i], i < argMax := by
        intro i hi
        rcases List.mem_append.mp hi with hi | hi
        · exact hwrites i hi
        · cases List.mem_singleton.mp hi
          omega
      rw [tokenLoop, TokenSt.round, strtokR, fillArgs]
      cases hcut : cutWord isSep (st.auxline.getD st.saveptr) with
      | none => exact ⟨_, 1, rfl, Nat.le_refl _, rfl, hinside⟩
      | some cut =>
          obtain ⟨token, rest⟩ := cut
          simp only [if_pos hn]
          refine ⟨_, 1, rfl, Nat.le_refl _, rfl, fun i hi => ?_⟩
          rcases List.mem_append.mp hi with hi | hi
          · exact hinside i hi
          · cases List.mem_singleton.mp hi
            decide
  | succ n ih =>
      intro m st hn hm hwrites
      obtain ⟨m, rfl⟩ : ∃ k, m = k + 1 := ⟨m - 1, by omega⟩
      have hinside : ∀ i ∈ st.writes ++ [st.i], i < argMax := by
        intro i hi
        rcases List.mem_append.mp hi with hi | hi
        · exact hwrites i hi
        · cases List.mem_singleton.mp hi
          omega
      rw [tokenLoop, TokenSt.round, strtokR, fillArgs]
      cases hcut : cutWord isSep (st.auxline.getD st.saveptr) with
      | none => exact ⟨_, 1, rfl, by omega, rfl, hinside⟩
      | some cut =>
          obtain ⟨token, rest⟩ := cut
          have hmore : ¬ st.i + 1 = argMax := by omega
          simp only [if_neg hmore]
          obtain ⟨out, rounds, hloop, hrounds, hargs, hout⟩ := @ih m
            ⟨st.args.setIfInBounds st.i (some token), none, rest, st.i + 1, st.writes ++ [st.i]⟩
            (by show st.i + 1 + _ = _; omega) (by omega) hinside
          exact ⟨out, rounds + 1, by rw [hloop]; rfl, by omega, hargs, hout⟩

theorem tokenLoop_mono : ∀ {n m : Nat} {st : TokenSt} {r : TokenSt × Nat},
    tokenLoop n st = some r → n ≤ m → tokenLoop m st = some r := by
  intro n
  induction n with
  | zero => intro m st r h _; cases h
  | succ n ih =>
      intro m st r h hle
      obtain ⟨m, rfl⟩ : ∃ k, m = k + 1 := ⟨m - 1, by omega⟩
      rw [tokenLoop] at h ⊢
      split at h
      · exact h
      · obtain ⟨out, hout, rfl⟩ := Option.map_eq_some_iff.mp h
        rw [ih hout (Nat.le_of_succ_le_succ hle)]
        rfl

/-- A line that ends inside its field is what is read of its copy. -/
theorem cstr_copy {n : Nat} {line : List UInt8} (hline : ∀ b ∈ line, b ≠ 0)
    (hlen : line.length < n) (junk behind : List UInt8) :
    cstr (strncpy n (line ++ 0 :: junk) ++ behind) = line := by
  have hcstr : cstr (line ++ 0 :: junk) = line := by
    rw [cstr_append_of_nul_free fun hnul => hline 0 hnul rfl]
    exact List.append_nil line
  have hnul : 0 ∈ strncpy n (line ++ 0 :: junk) :=
    nul_mem_strncpy_iff.mpr (hcstr.symm ▸ hlen)
  rw [cstr_append_of_nul hnul, cstr_strncpy, cstr_take, hcstr,
    List.take_of_length_le (Nat.le_of_lt hlen)]

/-- For every command line that ends inside its field, whatever lies behind it
and whatever `saveptr` held. -/
theorem args_are_words (line junk behind saveptr : List UInt8) (hline : ∀ b ∈ line, b ≠ 0)
    (hlen : line.length < szPath * numPath) :
    ∃ out rounds, (∀ n, argMax ≤ n →
        tokenLoop n (.start (cstr (strncpy (szPath * numPath) (line ++ 0 :: junk) ++ behind))
          saveptr) = some (out, rounds)) ∧
      rounds ≤ argMax ∧ (∀ i ∈ out.writes, i < argMax) ∧
      out.args.toList = ((words isSep line).take (argMax - 1)).map some ++
        List.replicate (argMax - min (words isSep line).length (argMax - 1)) none := by
  rw [cstr_copy hline hlen]
  obtain ⟨out, rounds, hloop, hrounds, hargs, hwrites⟩ :=
    @tokenLoop_eq (argMax - 1) argMax (.start line saveptr) rfl (Nat.lt_succ_self _)
      (fun i hi => absurd hi (List.not_mem_nil))
  refine ⟨out, rounds, fun n hn => tokenLoop_mono hloop hn, hrounds, hwrites, ?_⟩
  have hempty : Stored (Vector.replicate argMax none) [] := rfl
  have hstored := @fillArgs_stored (argMax - 1) [] _ line hempty rfl
  rw [List.nil_append] at hstored
  rw [hargs]
  refine hstored.trans ?_
  rw [List.length_take, Nat.min_comm]

/-- Three words between separators. -/
theorem args_are_words_three : ∃ out rounds,
    tokenLoop argMax (.start (cstr (strncpy (szPath * numPath) ([32, 108, 32, 32, 45, 97, 32, 120,
      10] ++ [0]) ++ [])) []) = some (out, rounds) ∧
    out.args.toList.take 4 = [some [108], some [45, 97], some [120], none] := by
  obtain ⟨out, rounds, hloop, -, -, hargs⟩ :=
    args_are_words [32, 108, 32, 32, 45, 97, 32, 120, 10] [] [] [] (by simp) (by decide)
  refine ⟨out, rounds, hloop argMax (Nat.le_refl _), ?_⟩
  rw [hargs]
  decide

end DistQueue
