import Mathlib.Data.List.Basic

/-!
# Programs over an array of pointers

What a section of code does to an array of pointers, as a program of requests:
to compare an entry with `NULL`, to read or write what it points to, to free it
or to store another one. The array is no part of the program, so whatever a
program knows of an entry it has asked for, and the list of its requests is the
list of all that it touches.

A program stops where a request cannot be served: outside the array, or behind a
pointer that is `NULL`.
-/

namespace DistQueue.Lib

variable {α κ ε β γ : Type} {n : Nat}

/-- What a program asks of entry `idx`. `key` is what it has looked up to come to
that entry, if anything. -/
inductive Request (α κ : Type)
  | test (idx : Int)
  | read (idx : Int) (key : Option κ)
  | write (idx : Int) (key : Option κ) (f : α → α)
  | free (idx : Int)
  | store (idx : Int) (x : α)

/-- What comes back. -/
abbrev Request.Reply : Request α κ → Type
  | .test _ => Bool
  | .read _ _ => α
  | .free _ => Option α
  | .write _ _ _ | .store _ _ => Unit

/-- What a request does with its entry. -/
inductive Use (κ : Type)
  | test
  | read (key : Option κ)
  | write (key : Option κ)
  | free
  | store
  deriving DecidableEq, Repr

/-- The pointer is followed. -/
def Use.Follows : Use κ → Prop
  | .read _ | .write _ => True
  | .test | .free | .store => False

def Use.key : Use κ → Option κ
  | .read key | .write key => key
  | .test | .free | .store => none

def Request.use : Request α κ → Use κ
  | .test _ => .test
  | .read _ key => .read key
  | .write _ key _ => .write key
  | .free _ => .free
  | .store _ _ => .store

/-- A touch of the array: where, what for, and what was there; `none` for `NULL`
and for what is not in the array. For `store` that is what is there behind it. -/
structure Touch (α κ : Type) where
  idx : Int
  use : Use κ
  entry : Option α
  deriving DecidableEq, Repr

/-- Inside an array of length `n`. -/
def Touch.Inside (n : Nat) (t : Touch α κ) : Prop := 0 ≤ t.idx ∧ t.idx < n

/-- Inside, and not a `NULL` that is followed. -/
structure Touch.Sound (n : Nat) (t : Touch α κ) : Prop where
  inside : t.Inside n
  entry : t.use.Follows → t.entry ≠ none

/-- `a[idx]`; `none` is outside. -/
def entryAt (a : Vector (Option α) n) (idx : Int) : Option (Option α) :=
  if 0 ≤ idx then a[idx.toNat]? else none

@[simp] theorem entryAt_natCast (a : Vector (Option α) n) (i : Nat) :
    entryAt a (i : Int) = a[i]? := by
  rw [entryAt, if_pos (Int.natCast_nonneg i), Int.toNat_natCast]

theorem entryAt_eq_none {a : Vector (Option α) n} {idx : Int} :
    entryAt a idx = none ↔ ¬ (0 ≤ idx ∧ idx < n) := by
  rw [entryAt]
  split
  · next h => rw [Vector.getElem?_eq_none_iff]; omega
  · next h => simp [h]

namespace Request

variable (r : Request α κ) (a : Vector (Option α) n)

/-- The reply and the array behind it; `none` where the program stops. -/
def serve : (r : Request α κ) → Vector (Option α) n → Option (r.Reply × Vector (Option α) n)
  | .test idx, a => (entryAt a idx).map fun entry => (entry.isSome, a)
  | .read idx _, a => (entryAt a idx).join.map fun x => (x, a)
  | .write idx _ f, a =>
      (entryAt a idx).join.map fun x => ((), a.setIfInBounds idx.toNat (some (f x)))
  | .free idx, a => (entryAt a idx).map fun entry => (entry, a)
  | .store idx x, a => (entryAt a idx).map fun _ => ((), a.setIfInBounds idx.toNat (some x))

def touch : Request α κ → Vector (Option α) n → Touch α κ
  | .test idx, a => ⟨idx, .test, (entryAt a idx).join⟩
  | .read idx key, a => ⟨idx, .read key, (entryAt a idx).join⟩
  | .write idx key _, a => ⟨idx, .write key, (entryAt a idx).join⟩
  | .free idx, a => ⟨idx, .free, (entryAt a idx).join⟩
  | .store idx x, _ => ⟨idx, .store, some x⟩

theorem touch_use : (r.touch a).use = r.use := by
  cases r <;> rfl

/-- A request is served exactly when its touch is sound. -/
theorem serve_eq_none : r.serve a = none ↔ ¬ (r.touch a).Sound n := by
  have houtside : ∀ idx : Int, ∀ use : Use κ, ∀ entry : Option α, ¬ use.Follows →
      (entryAt a idx = none ↔ ¬ (Touch.mk idx use entry).Sound n) := by
    intro idx use entry huse
    rw [entryAt_eq_none, not_iff_not]
    exact ⟨fun h => ⟨h, fun hf => absurd hf huse⟩, fun h => h.inside⟩
  have hnull : ∀ idx : Int, ∀ use : Use κ, use.Follows →
      ((entryAt a idx).join = none ↔ ¬ (Touch.mk idx use (entryAt a idx).join).Sound n) := by
    intro idx use huse
    constructor
    · exact fun h hs => hs.entry huse h
    · intro h
      by_contra hne
      refine h ⟨?_, fun _ => hne⟩
      by_contra hout
      exact hne (by rw [entryAt_eq_none.mpr hout]; rfl)
  cases r with
  | test idx => exact Option.map_eq_none_iff.trans (houtside idx .test _ id)
  | read idx key => exact Option.map_eq_none_iff.trans (hnull idx (.read key) trivial)
  | write idx key f => exact Option.map_eq_none_iff.trans (hnull idx (.write key) trivial)
  | free idx => exact Option.map_eq_none_iff.trans (houtside idx .free _ id)
  | store idx x => exact Option.map_eq_none_iff.trans (houtside idx .store _ id)

end Request

/-! ## Programs -/

inductive Cells (α κ ε β : Type)
  | ret (b : β)
  | throw (e : ε)
  | ask (r : Request α κ) (next : r.Reply → Cells α κ ε β)

/-- Why a program has no result. -/
inductive Stop (ε : Type)
  | access
  | thrown (e : ε)
  deriving DecidableEq, Repr

namespace Cells

def bind : Cells α κ ε β → (β → Cells α κ ε γ) → Cells α κ ε γ
  | .ret b, f => f b
  | .throw e, _ => .throw e
  | .ask r next, f => .ask r fun x => (next x).bind f

instance : Monad (Cells α κ ε) where
  pure := .ret
  bind := .bind

def request (r : Request α κ) : Cells α κ ε r.Reply := .ask r .ret

/-- `a[idx] != NULL` -/
def test (idx : Int) : Cells α κ ε Bool := request (.test idx)

def read (idx : Int) (key : Option κ) : Cells α κ ε α := request (.read idx key)

def write (idx : Int) (key : Option κ) (f : α → α) : Cells α κ ε Unit :=
  request (.write idx key f)

/-- `free(a[idx])` -/
def free (idx : Int) : Cells α κ ε (Option α) := request (.free idx)

/-- `a[idx] = x` -/
def store (idx : Int) (x : α) : Cells α κ ε Unit := request (.store idx x)

def ofExcept : Except ε β → Cells α κ ε β
  | .ok b => .ret b
  | .error e => .throw e

def run : Cells α κ ε β → Vector (Option α) n → Except (Stop ε) (β × Vector (Option α) n)
  | .ret b, a => .ok (b, a)
  | .throw e, _ => .error (.thrown e)
  | .ask r next, a =>
      match r.serve a with
      | none => .error .access
      | some (x, a') => (next x).run a'

/-- The touches, up to the one that stops the program. -/
def trace : Cells α κ ε β → Vector (Option α) n → List (Touch α κ)
  | .ret _, _ | .throw _, _ => []
  | .ask r next, a =>
      r.touch a ::
        match r.serve a with
        | none => []
        | some (x, a') => (next x).trace a'

/-- The program makes no requests but of these kinds, whatever it is told. -/
def Only (kinds : Use κ → Prop) : Cells α κ ε β → Prop
  | .ret _ | .throw _ => True
  | .ask r next => kinds r.use ∧ ∀ x, (next x).Only kinds

variable (p : Cells α κ ε β) (f : β → Cells α κ ε γ) (a : Vector (Option α) n)

theorem run_bind : (p >>= f).run a = p.run a >>= fun x => (f x.1).run x.2 := by
  show (p.bind f).run a = _
  induction p generalizing a with
  | ret b => rfl
  | throw e => rfl
  | ask r next ih =>
      rw [bind, run, run]
      cases r.serve a with
      | none => rfl
      | some x => exact ih x.1 x.2

theorem trace_bind : (p >>= f).trace a =
    p.trace a ++ (p.run a).toOption.elim [] fun x => (f x.1).trace x.2 := by
  show (p.bind f).trace a = _
  induction p generalizing a with
  | ret b => rfl
  | throw e => rfl
  | ask r next ih =>
      rw [bind, trace, trace, run, List.cons_append]
      cases r.serve a with
      | none => rfl
      | some x => exact congrArg (r.touch a :: ·) (ih x.1 x.2)

/-- A request that is served. -/
theorem run_request {r : Request α κ} {x : r.Reply} {b : Vector (Option α) n}
    (h : r.serve a = some (x, b)) : (request r : Cells α κ ε r.Reply).run a = .ok (x, b) := by
  rw [request, run, h]
  rfl

theorem trace_request (r : Request α κ) :
    (request r : Cells α κ ε r.Reply).trace a = [r.touch a] := by
  rw [request, trace]
  cases r.serve a <;> rfl

@[simp] theorem trace_ofExcept (x : Except ε β) : (ofExcept x : Cells α κ ε β).trace a = [] := by
  cases x <;> rfl

section Only

variable {kinds : Use κ → Prop} {p : Cells α κ ε β} {f : β → Cells α κ ε γ}

theorem only_request {r : Request α κ} (hr : kinds r.use) :
    (request r : Cells α κ ε r.Reply).Only kinds := ⟨hr, fun _ => trivial⟩

theorem Only.bind (hp : p.Only kinds) (hf : ∀ b, (f b).Only kinds) :
    (p >>= f).Only kinds := by
  show (p.bind f).Only kinds
  induction p with
  | ret b => exact hf b
  | throw e => trivial
  | ask r next ih => exact ⟨hp.1, fun x => ih x (hp.2 x)⟩

theorem Only.trace (hp : p.Only kinds) : ∀ t ∈ p.trace a, kinds t.use := by
  induction p generalizing a with
  | ret b => exact fun t ht => by cases ht
  | throw e => exact fun t ht => by cases ht
  | ask r next ih =>
      intro t ht
      rw [Cells.trace] at ht
      rcases List.mem_cons.mp ht with rfl | ht
      · rw [Request.touch_use]
        exact hp.1
      · cases hserve : r.serve a with
        | none => rw [hserve] at ht; cases ht
        | some x => rw [hserve] at ht; exact ih x.1 x.2 (hp.2 x.1) t ht

end Only

/-- A program stops for an access exactly when one of its touches is not
sound. -/
theorem run_access_iff : p.run a = .error .access ↔ ∃ t ∈ p.trace a, ¬ t.Sound n := by
  induction p generalizing a with
  | ret b => simp [run, trace]
  | throw e => simp [run, trace]
  | ask r next ih =>
      rw [run, trace]
      cases hserve : r.serve a with
      | none =>
          exact ⟨fun _ => ⟨_, List.mem_cons_self, (r.serve_eq_none a).mp hserve⟩, fun _ => rfl⟩
      | some x =>
          have hsound : (r.touch a).Sound n := by
            by_contra hnot
            rw [(r.serve_eq_none a).mpr hnot] at hserve
            cases hserve
          refine (ih x.1 x.2).trans ⟨fun ⟨t, ht, hnot⟩ => ⟨t, List.mem_cons_of_mem _ ht, hnot⟩, ?_⟩
          rintro ⟨t, ht, hnot⟩
          rcases List.mem_cons.mp ht with rfl | ht
          · exact absurd hsound hnot
          · exact ⟨t, ht, hnot⟩

/-- A program with a result has touched nothing that is not there. -/
theorem sound_of_run {x : β × Vector (Option α) n} (h : p.run a = .ok x) :
    ∀ t ∈ p.trace a, t.Sound n := by
  intro t ht
  by_contra hnot
  rw [(p.run_access_iff a).mpr ⟨t, ht, hnot⟩] at h
  cases h

end Cells

end DistQueue.Lib
