import Mathlib.Data.List.Basic

/-!
# Passing a stream on

Somebody reads a stream a piece at a time and passes on some of each piece, from
its front. What comes out is what went in with parts left out: nothing is added,
doubled or moved. With a count of what was left out it is known whether it is
all there.
-/

namespace DistQueue.Lib

variable {α : Type*}

/-- Of what went in, `rest` is still to be read, and `out` was passed on of what
was read, but for `lost` elements. -/
structure Carried (whole rest out : List α) (lost : Nat) : Prop where
  taken : ∃ taken, whole = taken ++ rest ∧ out.Sublist taken ∧ taken.length = out.length + lost

namespace Carried

variable {whole rest out piece : List α} {lost : Nat}

theorem start : Carried ([] : List α) [] [] 0 := ⟨[], rfl, .refl _, rfl⟩

/-- More goes in. -/
theorem feed (h : Carried whole rest out lost) (piece : List α) :
    Carried (whole ++ piece) (rest ++ piece) out lost := by
  obtain ⟨taken, rfl, hout, hlost⟩ := h.taken
  exact ⟨taken, List.append_assoc _ _ _, hout, hlost⟩

/-- The next `n` elements are read, and the first `m` of them passed on. -/
theorem carry (h : Carried whole rest out lost) (n m : Nat) :
    Carried whole (rest.drop n) (out ++ (rest.take n).take m)
      (lost + ((rest.take n).length - m)) := by
  obtain ⟨taken, rfl, hout, hlost⟩ := h.taken
  refine ⟨taken ++ rest.take n, ?_, hout.append (List.take_sublist _ _), ?_⟩
  · rw [List.append_assoc, List.take_append_drop]
  · simp only [List.length_append, hlost, List.length_take]
    omega

theorem sublist (h : Carried whole rest out lost) : out.Sublist whole := by
  obtain ⟨taken, rfl, hout, -⟩ := h.taken
  exact hout.trans (List.sublist_append_left _ _)

/-- It is all there exactly when nothing was lost. -/
theorem whole_iff (h : Carried whole rest out lost) : whole = out ++ rest ↔ lost = 0 := by
  obtain ⟨taken, rfl, hout, hlost⟩ := h.taken
  constructor
  · intro heq
    have hlength := congrArg List.length (List.append_cancel_right heq)
    omega
  · rintro rfl
    rw [hout.eq_of_length hlost.symm]

end Carried

end DistQueue.Lib
