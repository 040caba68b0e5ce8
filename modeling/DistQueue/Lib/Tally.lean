import Mathlib.Algebra.BigOperators.Fin
import Mathlib.Algebra.BigOperators.Group.Finset.Piecewise

/-!
# Tallies

A conserved quantity of a system of parties is a sum over the parties, and a
step changes one party at a time. These are the two laws that let a proof look
at that party alone: for parties kept in a list, and for a family indexed by
`Fin n`.
-/

namespace DistQueue.Lib

variable {α : Type*}

/-- The total of `f` over a list of parties. -/
def tally (f : α → Nat) (l : List α) : Nat := (l.map f).sum

@[simp] theorem tally_nil (f : α → Nat) : tally f [] = 0 := rfl

@[simp] theorem tally_cons (f : α → Nat) (a : α) (l : List α) :
    tally f (a :: l) = f a + tally f l := rfl

@[simp] theorem tally_append (f : α → Nat) (l l' : List α) :
    tally f (l ++ l') = tally f l + tally f l' := by
  simp [tally]

theorem tally_congr {f g : α → Nat} {l : List α} (h : ∀ a ∈ l, f a = g a) :
    tally f l = tally g l := by
  rw [tally, List.map_congr_left h, tally]

theorem tally_eq_zero {f : α → Nat} {l : List α} (h : ∀ a ∈ l, f a = 0) : tally f l = 0 := by
  rw [tally_congr h]
  induction l with
  | nil => rfl
  | cons a l ih => rw [tally_cons, ih fun b hb => h b (List.mem_cons_of_mem a hb)]

theorem tally_add (f g : α → Nat) (l : List α) :
    tally (fun a => f a + g a) l = tally f l + tally g l := by
  induction l with
  | nil => rfl
  | cons a l ih =>
      rw [tally_cons, tally_cons, tally_cons, ih]
      omega

theorem tally_mono {f g : α → Nat} {l : List α} (h : ∀ a, f a ≤ g a) : tally f l ≤ tally g l := by
  induction l with
  | nil => exact Nat.le_refl 0
  | cons a l ih => exact Nat.add_le_add (h a) ih

/-- How often something occurs in a list of contributions is a tally of the
contributors. -/
theorem count_filterMap {β : Type*} [DecidableEq β] (f : α → Option β) (b : β) (l : List α) :
    (l.filterMap f).count b = tally (fun a => if f a = some b then 1 else 0) l := by
  induction l with
  | nil => rfl
  | cons a l ih =>
      rw [tally_cons, ← ih]
      cases hfa : f a with
      | none => rw [List.filterMap_cons_none hfa, if_neg (by simp), Nat.zero_add]
      | some x =>
          rw [List.filterMap_cons_some hfa, List.count_cons]
          simp only [Option.some.injEq, beq_iff_eq]
          omega

/-- One party changed: its old share leaves the total, its new one enters. -/
theorem tally_set {f : α → Nat} {b : α} : ∀ {l : List α} {i : Nat} {a : α},
    l[i]? = some a → tally f (l.set i b) + f a = tally f l + f b := by
  intro l
  induction l with
  | nil => intro i a h; cases h
  | cons x l ih =>
      intro i a h
      cases i with
      | zero =>
          injection h with h
          subst h
          simp only [List.set_cons_zero, tally_cons]
          omega
      | succ i =>
          have := ih h
          simp only [List.set_cons_succ, tally_cons]
          omega

/-- The share of one party changed, the parties being what they were. -/
theorem tally_change {f g : α → Nat} {l : List α} {a : α} (hl : l.Nodup) (ha : a ∈ l)
    (h : ∀ b, b ≠ a → g b = f b) : tally g l + f a = tally f l + g a := by
  induction l with
  | nil => cases ha
  | cons b l ih =>
      obtain ⟨hb, hl⟩ := List.nodup_cons.mp hl
      rw [tally_cons, tally_cons]
      rcases List.mem_cons.mp ha with rfl | ha
      · have hrest : tally g l = tally f l :=
          tally_congr fun b' hb' => h b' fun heq => hb (heq ▸ hb')
        omega
      · have hrest := ih hl ha
        have hb := h b fun heq => hb (heq ▸ ha)
        omega

/-- A party's share is part of the total. -/
theorem le_tally {f : α → Nat} {l : List α} {i : Nat} {a : α} (h : l[i]? = some a) :
    f a ≤ tally f l := by
  induction l generalizing i with
  | nil => cases h
  | cons x l ih =>
      cases i with
      | zero =>
          injection h with h
          subst h
          rw [tally_cons]
          omega
      | succ i =>
          have := ih h
          rw [tally_cons]
          omega

/-- Two different parties' shares fit into the total together. -/
theorem add_le_tally {f : α → Nat} {l : List α} {i j : Nat} {a b : α} (hij : i ≠ j)
    (hi : l[i]? = some a) (hj : l[j]? = some b) : f a + f b ≤ tally f l := by
  induction l generalizing i j with
  | nil => cases hi
  | cons x l ih =>
      rw [tally_cons]
      cases i with
      | zero =>
          injection hi with hi
          subst hi
          cases j with
          | zero => exact absurd rfl hij
          | succ j =>
              have := le_tally (f := f) (l := l) (i := j) hj
              omega
      | succ i =>
          cases j with
          | zero =>
              injection hj with hj
              subst hj
              have := le_tally (f := f) (l := l) (i := i) hi
              omega
          | succ j =>
              have := ih (i := i) (j := j) (by omega) hi hj
              omega

open Finset

/-- The same law for a family with one member changed. -/
theorem sum_update {n : Nat} (f : α → Nat) (g : Fin n → α) (i : Fin n) (b : α) :
    ∑ j, f (Function.update g i b j) + f (g i) = ∑ j, f (g j) + f b := by
  have hrest : ∑ j ∈ univ.erase i, f (Function.update g i b j) =
      ∑ j ∈ univ.erase i, f (g j) := by
    refine Finset.sum_congr rfl ?_
    intro j hj
    rw [Function.update_of_ne (Finset.ne_of_mem_erase hj)]
  rw [← Finset.add_sum_erase univ _ (mem_univ i), hrest,
    ← Finset.add_sum_erase univ (fun j => f (g j)) (mem_univ i), Function.update_self]
  omega

theorem le_sum {n : Nat} (f : α → Nat) (g : Fin n → α) (i : Fin n) : f (g i) ≤ ∑ j, f (g j) := by
  rw [← Finset.add_sum_erase univ (fun j => f (g j)) (mem_univ i)]
  exact Nat.le_add_right ..

end DistQueue.Lib
