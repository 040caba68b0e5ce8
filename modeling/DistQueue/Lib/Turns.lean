import Mathlib.Data.Int.CardIntervalMod
import Mathlib.Data.Nat.Count

/-!
# Turns

Two parties go through one sequence of places, each at its own pace. How far
each of them has come is a number; how often it has been at a place is the
number of turns before that which fall on the place. A party that is ahead at
one place is ahead, or level, at all of them, whatever the sequence is; where
the sequence goes round and round, being ahead by some turns at one place means
being ahead by one more at the most at any other.
-/

namespace DistQueue.Lib

section Sequence

variable {ι : Type*} [DecidableEq ι] {place : Nat → ι} {m n : Nat} {i j : ι}

/-- How many of the first `n` turns fall on `i`. -/
def turns (place : Nat → ι) (n : Nat) (i : ι) : Nat := n.count fun k => place k = i

@[simp] theorem turns_zero : turns place 0 i = 0 := Nat.count_zero _

theorem turns_succ : turns place (n + 1) i = turns place n i + if place n = i then 1 else 0 :=
  Nat.count_succ _ _

theorem turns_mono (h : m ≤ n) : turns place m i ≤ turns place n i := Nat.count_monotone _ h

/-- Ahead at one place is behind at none. -/
theorem turns_le_of_lt (h : turns place m i < turns place n i) (j : ι) :
    turns place m j ≤ turns place n j := by
  refine turns_mono (Nat.le_of_lt (Nat.lt_of_not_le fun hle => ?_))
  exact absurd (turns_mono (i := i) hle) (Nat.not_le_of_gt h)

theorem turns_congr {place' : Nat → ι} (h : ∀ k < n, place k = place' k) :
    turns place n i = turns place' n i := by
  induction n with
  | zero => rw [turns_zero, turns_zero]
  | succ n ih =>
      rw [turns_succ, turns_succ, h n (Nat.lt_succ_self n),
        ih fun k hk => h k (Nat.lt_succ_of_lt hk)]

end Sequence

/-! ## Round and round -/

section Round

variable {N : Nat} [NeZero N]

theorem turns_ofNat (n : Nat) (i : Fin N) :
    turns (Fin.ofNat N) n i = n / N + if i.val < n % N then 1 else 0 := by
  have hiff : ∀ k, Fin.ofNat N k = i ↔ k ≡ i.val [MOD N] := by
    intro k
    rw [Nat.ModEq, Nat.mod_eq_of_lt i.isLt, Fin.ext_iff]
    rfl
  have hcount := Nat.count_modEq_card n (Nat.pos_of_neZero N) i.val
  rw [Nat.mod_eq_of_lt i.isLt] at hcount
  simp only [turns, hiff]
  exact hcount

/-- Over a stretch of turns no place gets two more than another. -/
theorem turns_stretch (m n : Nat) (i j : Fin N) :
    turns (Fin.ofNat N) n j + turns (Fin.ofNat N) m i ≤
      turns (Fin.ofNat N) m j + turns (Fin.ofNat N) n i + 1 := by
  simp only [turns_ofNat]
  -- whole rounds cancel; of the two rounds begun, each place is in one, both or none
  split <;> split <;> split <;> split <;> omega

/-- What a party is behind at one place, and no more, it can be behind at any
other. -/
theorem turns_le_add {m n k : Nat} {i : Fin N}
    (h : turns (Fin.ofNat N) m i < turns (Fin.ofNat N) n i + k) (j : Fin N) :
    turns (Fin.ofNat N) m j ≤ turns (Fin.ofNat N) n j + k := by
  have := turns_stretch n m i j
  omega

end Round

end DistQueue.Lib
