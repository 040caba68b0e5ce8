import Mathlib.Data.List.Basic
import Mathlib.Data.Nat.ModEq

/-!
# A ring of cells under two growing indices

A ring buffer that never reduces its indices keeps a `get` index and a count,
and finds cell `get + i` at position `(get + i) % cap`. What the ring holds is
then a list, `ring cells get n`, and the whole theory is what the three
operations do to that list: writing one cell past the window appends, moving
`get` past the first cell drops it, and closing a gap inside an unwrapped
window erases one entry.

The one arithmetic fact is that fewer than `cap` consecutive indices never
share a position.
-/

namespace DistQueue.Lib

variable {α : Type*} {cap : Nat}

section Ring

variable [NeZero cap]

/-- The cell an index names. -/
def cell (cells : Vector α cap) (i : Nat) : α :=
  have _h : i % cap < cap := Nat.mod_lt _ (Nat.pos_of_neZero cap)
  cells[i % cap]

/-- The `n` cells from index `get` on, in order. -/
def ring (cells : Vector α cap) (get n : Nat) : List α :=
  (List.range n).map fun i => cell cells (get + i)

@[simp] theorem length_ring (cells : Vector α cap) (get n : Nat) :
    (ring cells get n).length = n := by
  simp [ring]

@[simp] theorem ring_zero (cells : Vector α cap) (get : Nat) :
    ring cells get 0 = [] := rfl

theorem getElem_ring (cells : Vector α cap) (get n i : Nat)
    (h : i < (ring cells get n).length) :
    (ring cells get n)[i] = cell cells (get + i) := by
  simp [ring]

theorem ring_succ_right (cells : Vector α cap) (get n : Nat) :
    ring cells get (n + 1) = ring cells get n ++ [cell cells (get + n)] := by
  simp [ring, List.range_succ]

theorem ring_succ_left (cells : Vector α cap) (get n : Nat) :
    ring cells get (n + 1) = cell cells get :: ring cells (get + 1) n := by
  simp only [ring, List.range_succ_eq_map, List.map_cons, List.map_map, Nat.add_zero]
  congr 1
  refine List.map_congr_left ?_
  intro i _
  simp only [Function.comp_apply]
  congr 1
  omega

omit [NeZero cap] in
/-- Fewer than `cap` consecutive indices name different cells. -/
theorem mod_ne_of_lt {get i j : Nat} (hij : i < j) (hj : j < i + cap) :
    (get + i) % cap ≠ (get + j) % cap := by
  intro h
  have hdvd : cap ∣ (get + j) - (get + i) := (Nat.modEq_iff_dvd' (by omega)).mp h
  have hle := Nat.le_of_dvd (by omega) hdvd
  omega

/-- A write one past the window appends. -/
theorem ring_set (cells : Vector α cap) {get n : Nat} (hn : n < cap) (x : α) :
    ring (cells.set ((get + n) % cap) x (Nat.mod_lt _ (Nat.pos_of_neZero cap))) get (n + 1) =
      ring cells get n ++ [x] := by
  rw [ring_succ_right]
  congr 1
  · refine List.map_congr_left ?_
    intro i hi
    have hi' : i < n := List.mem_range.mp hi
    rw [cell, cell, Vector.getElem_set_ne]
    exact (mod_ne_of_lt hi' (by omega)).symm
  · simp [cell]

/-- Giving up the last index drops the last entry. -/
theorem ring_dropLast (cells : Vector α cap) (get n : Nat) :
    ring cells get n = (ring cells get (n + 1)).dropLast := by
  rw [ring_succ_right, List.dropLast_concat]

/-- Closing the gap at entry `k`: the entries before it stay, every later one
is found one place earlier. -/
theorem ring_erase {cells cells' : Vector α cap} {get n k : Nat} (hk : k ≤ n)
    (hlo : ∀ i < k, cell cells' (get + i) = cell cells (get + i))
    (hhi : ∀ i, k ≤ i → i < n → cell cells' (get + i) = cell cells (get + (i + 1))) :
    ring cells' get n = (ring cells get (n + 1)).eraseIdx k := by
  refine List.ext_getElem ?_ ?_
  · rw [List.length_eraseIdx, length_ring, length_ring, if_pos (by omega)]
    omega
  · intro i hi _
    have hin : i < n := by simpa using hi
    rw [List.getElem_eraseIdx]
    split
    · next h => rw [getElem_ring, getElem_ring]; exact hlo i h
    · next h => rw [getElem_ring, getElem_ring]; exact hhi i (by omega) hin

end Ring

end DistQueue.Lib
