import Mathlib.Order.Basic

/-!
# Condition variables

A wait loop around a counted resource, seen from the condition variable: how
much of the resource there is, how many parties are inside the wait, and how
many have been let out of it and have not looked at the resource again. The
parties themselves do not appear; whoever takes some of the resource without
having waited takes it all the same.

A signal lets one party out. That it lets out no more than one is what makes
`Awake` worth stating: with a party still inside, those who were let out before
account for everything there is to take.
-/

namespace DistQueue.Lib

structure Monitor where
  avail : Nat
  blocked : Nat
  woken : Nat

namespace Monitor

variable {m m' : Monitor}

/-- The ways on. `was` is 1 for a party that had been let out of the wait, and 0
for one that comes from elsewhere. -/
inductive Step (m m' : Monitor) : Prop
  | keep (h : m' = m)
  | wait (was : Nat) (hnone : m.avail = 0) (havail : m'.avail = 0)
      (hblocked : m'.blocked = m.blocked + 1) (hwoken : m'.woken + was = m.woken)
  | take (was : Nat) (hwas : was ≤ 1) (havail : m'.avail + 1 = m.avail)
      (hblocked : m'.blocked = m.blocked) (hwoken : m'.woken + was = m.woken)
  | give (havail : m'.avail = m.avail + 1) (hnone : m.blocked = 0) (hblocked : m'.blocked = 0)
      (hwoken : m'.woken = m.woken)
  | signal (havail : m'.avail = m.avail + 1) (hblocked : m'.blocked + 1 = m.blocked)
      (hwoken : m'.woken = m.woken + 1)
  | spurious (havail : m'.avail = m.avail) (hblocked : m'.blocked + 1 = m.blocked)
      (hwoken : m'.woken = m.woken + 1)

/-- While a party is inside the wait, there is a party on its way out for
everything there is. -/
def Awake (m : Monitor) : Prop := m.blocked ≠ 0 → m.avail ≤ m.woken

theorem Step.awake (h : Step m m') (hm : m.Awake) : m'.Awake := by
  cases h with
  | keep h => exact h ▸ hm
  | wait was hnone havail hblocked hwoken =>
      intro _
      rw [havail]
      exact Nat.zero_le _
  | take was hwas havail hblocked hwoken =>
      intro hb
      have := hm (hblocked ▸ hb)
      omega
  | give havail hnone hblocked hwoken => exact fun hb => absurd hblocked hb
  | signal havail hblocked hwoken =>
      intro _
      have := hm (by omega)
      omega
  | spurious havail hblocked hwoken =>
      intro _
      have := hm (by omega)
      omega

theorem awake_of_none (h : m.blocked = 0) : m.Awake := fun hb => absurd h hb

/-- With nobody on the way out, nobody waits for what is there. -/
theorem Awake.rest (hm : m.Awake) (hw : m.woken = 0) (hb : m.blocked ≠ 0) : m.avail = 0 :=
  Nat.le_zero.mp (hw ▸ hm hb)

end Monitor

end DistQueue.Lib
