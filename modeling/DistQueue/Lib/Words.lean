import Mathlib.Data.List.TakeWhile

/-!
# Words

The maximal runs of a list that have no separator in them. A scanner that skips
separators, takes a run, and goes on behind the separator that ended it finds
exactly these, in order.
-/

namespace DistQueue.Lib

variable {α : Type*} (p : α → Bool)

/-- The maximal runs without a separator. -/
def words (xs : List α) : List (List α) := (xs.splitOnP p).filter fun w => !w.isEmpty

/-- The next word and what is left behind the separator that ends it. -/
def cutWord (xs : List α) : Option (List α × List α) :=
  match xs.dropWhile p with
  | [] => none
  | y :: ys => some ((y :: ys).takeWhile fun a => !p a, ((y :: ys).dropWhile fun a => !p a).drop 1)

variable {p} {xs ys w rest : List α} {x : α}

@[simp] theorem words_nil : words p [] = [] := rfl

theorem words_cons_sep (hx : p x = true) : words p (x :: xs) = words p xs := by
  rw [words, List.splitOnP_cons_eq_if_modifyHead, if_pos hx]
  rfl

theorem words_dropWhile (xs : List α) : words p (xs.dropWhile p) = words p xs := by
  induction xs with
  | nil => rfl
  | cons x xs ih =>
      by_cases hx : p x = true
      · rw [List.dropWhile_cons_of_pos hx, ih, words_cons_sep hx]
      · rw [List.dropWhile_cons_of_neg hx]

/-- A word that ends the list. -/
theorem words_word (hw : ∀ a ∈ w, p a = false) (hne : w ≠ []) : words p w = [w] := by
  rw [words, List.splitOnP_eq_singleton hw]
  simpa using hne

/-- A word and the separator that ends it. -/
theorem words_word_append (hw : ∀ a ∈ w, p a = false) (hne : w ≠ []) (hx : p x = true) :
    words p (w ++ x :: xs) = w :: words p xs := by
  rw [words, List.splitOnP_append_cons_of_forall_mem hw x hx, List.filter_cons_of_pos (by simpa using hne)]
  rfl

/-- The scan over separators stops on something else. -/
theorem head_of_dropWhile (h : xs.dropWhile p = x :: ys) : p x = false := by
  have hhead := List.head?_dropWhile_not p xs
  rw [h] at hhead
  exact hhead

theorem words_of_cutWord_none (h : cutWord p xs = none) : words p xs = [] := by
  rw [← words_dropWhile]
  unfold cutWord at h
  split at h
  · next hnil => rw [hnil, words_nil]
  · cases h

theorem words_of_cutWord (h : cutWord p xs = some (w, rest)) :
    words p xs = w :: words p rest := by
  rw [← words_dropWhile]
  unfold cutWord at h
  split at h
  · cases h
  · next y ys hdrop =>
      injection h with h
      injection h with hw hrest
      have hy : p y = false := head_of_dropWhile hdrop
      have hfree : ∀ a ∈ w, p a = false := fun a ha => by
        rw [← hw] at ha
        simpa using List.mem_takeWhile_imp ha
      have hne : w ≠ [] := by
        rw [← hw, List.takeWhile_cons_of_pos (by simp [hy])]
        exact List.cons_ne_nil _ _
      have hsplit : w ++ (y :: ys).dropWhile (fun a => !p a) = y :: ys := by
        rw [← hw]
        exact List.takeWhile_append_dropWhile
      rw [hdrop, ← hsplit]
      cases hd : (y :: ys).dropWhile (fun a => !p a) with
      | nil =>
          rw [hd] at hrest
          rw [← hrest, List.append_nil, words_word hfree hne]
          rfl
      | cons x xs' =>
          have hx : p x = true := by simpa using head_of_dropWhile hd
          rw [hd] at hrest
          rw [← hrest, words_word_append hfree hne hx]
          rfl

end DistQueue.Lib
