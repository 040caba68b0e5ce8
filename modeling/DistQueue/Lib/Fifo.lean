import Mathlib.Data.List.Basic

/-!
# A bounded first-in first-out queue

The specification of a queue is what may happen to it: an entry is put behind
the others while there is room, and the first entry is taken. A trace from the
empty queue then determines its contents: whatever has been put and not taken,
in the order of the puts.
-/

namespace DistQueue.Lib.Fifo

inductive Op (α : Type*)
  | put (x : α)
  | get (x : α)
  deriving DecidableEq, Repr

/-- What one operation does to a queue of at most `cap` entries. -/
inductive Step {α : Type*} (cap : Nat) : List α → Op α → List α → Prop
  | put {l : List α} {x : α} (hroom : l.length < cap) : Step cap l (.put x) (l ++ [x])
  | get {l : List α} {x : α} : Step cap (x :: l) (.get x) l

/-- The operations on a queue that was empty at first, and its contents. -/
inductive Trace {α : Type*} (cap : Nat) : List (Op α) → List α → Prop
  | empty : Trace cap [] []
  | step {ops : List (Op α)} {l l' : List α} {op : Op α} (h : Trace cap ops l)
      (hstep : Step cap l op l') : Trace cap (ops ++ [op]) l'

variable {α : Type*} {cap : Nat} {l : List α} {ops : List (Op α)}

def puts (ops : List (Op α)) : List α :=
  ops.filterMap fun
    | .put x => some x
    | .get _ => none

def gets (ops : List (Op α)) : List α :=
  ops.filterMap fun
    | .put _ => none
    | .get x => some x

theorem puts_append (ops ops' : List (Op α)) : puts (ops ++ ops') = puts ops ++ puts ops' :=
  List.filterMap_append

theorem gets_append (ops ops' : List (Op α)) : gets (ops ++ ops') = gets ops ++ gets ops' :=
  List.filterMap_append

/-- What was put is what was taken and what is there. -/
theorem Trace.puts_eq (h : Trace cap ops l) : puts ops = gets ops ++ l := by
  induction h with
  | empty => rfl
  | step _ hstep ih =>
      rw [puts_append, gets_append, ih]
      cases hstep with
      | put => simp [puts, gets]
      | get => simp [puts, gets]

theorem Trace.length_le (h : Trace cap ops l) : l.length ≤ cap := by
  induction h with
  | empty => exact Nat.zero_le _
  | step _ hstep ih =>
      cases hstep with
      | put hroom => rw [List.length_append]; exact hroom
      | get => exact Nat.le_of_succ_le ih

theorem Trace.gets_prefix (h : Trace cap ops l) : gets ops <+: puts ops :=
  ⟨l, h.puts_eq.symm⟩

/-- What was put before the first put of `y` is taken before the first `y`
is. -/
theorem idxOf_lt_of_prefix [DecidableEq α] {a b : List α} {x y : α} (h : l <+: a ++ b)
    (hx : x ∈ a) (hy : y ∉ a) (hyl : y ∈ l) : x ∈ l ∧ l.idxOf x < l.idxOf y := by
  obtain ⟨r, hr⟩ := h
  have hx' : (l ++ r).idxOf x < a.length := by
    rw [hr, List.idxOf_append_of_mem hx]
    exact List.idxOf_lt_length_of_mem hx
  have hy' : a.length ≤ l.idxOf y := by
    have happ : (l ++ r).idxOf y = l.idxOf y := List.idxOf_append_of_mem hyl
    rw [← happ, hr, List.idxOf_append_of_notMem hy]
    exact Nat.le_add_right _ _
  have hlt : l.idxOf y < l.length := List.idxOf_lt_length_of_mem hyl
  have hxl : x ∈ l := by
    by_contra hnot
    rw [List.idxOf_append_of_notMem hnot] at hx'
    omega
  rw [List.idxOf_append_of_mem hxl] at hx'
  exact ⟨hxl, Nat.lt_of_lt_of_le hx' hy'⟩

end DistQueue.Lib.Fifo
