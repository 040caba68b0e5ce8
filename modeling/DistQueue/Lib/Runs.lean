import Mathlib.Data.List.Basic

/-!
# Runs of a step function

A system is a partial step function on states: an action that is not possible
in a state has no successor there. `Reach` collects the states of the runs
whose every step meets a side condition, so that a fact about well-behaved
runs and a fact about all runs are proved by the same rule; `checkedRun` is
the executable form, for exhibiting a particular run.
-/

namespace DistQueue.Lib

variable {σ α : Type*} {step : σ → α → Option σ} {ok ok' : σ → α → Prop} {init : σ → Prop}

/-- The states of the runs from `init` whose steps all meet `ok`. -/
inductive Reach (step : σ → α → Option σ) (ok : σ → α → Prop) (init : σ → Prop) : σ → Prop
  | start {s : σ} : init s → Reach step ok init s
  | step {s s' : σ} {a : α} : Reach step ok init s → ok s a → step s a = some s' →
      Reach step ok init s'

/-- The side condition that allows every step. -/
def anyStep (_ : σ) (_ : α) : Prop := True

instance (s : σ) (a : α) : Decidable (anyStep s a) := inferInstanceAs (Decidable True)

namespace Reach

/-- What holds at the start and is kept by every step holds throughout. A step
may use that its first state is one of the run's. -/
theorem invariant {I : σ → Prop} {s : σ} (h : Reach step ok init s)
    (hinit : ∀ s, init s → I s)
    (hstep : ∀ s a s', Reach step ok init s → I s → ok s a → step s a = some s' → I s') :
    I s := by
  induction h with
  | start h0 => exact hinit _ h0
  | step hr hok hs ih => exact hstep _ _ _ hr ih hok hs

theorem mono {s : σ} (hle : ∀ s a, ok s a → ok' s a) (h : Reach step ok init s) :
    Reach step ok' init s := by
  induction h with
  | start h0 => exact .start h0
  | step _ hok hs ih => exact .step ih (hle _ _ hok) hs

/-- Well-behaved runs are runs. -/
theorem any {s : σ} (h : Reach step ok init s) : Reach step anyStep init s :=
  h.mono fun _ _ _ => trivial

/-- A run goes on behind a run. -/
theorem trans {s s' : σ} (h : Reach step ok init s) (h' : Reach step ok (· = s) s') :
    Reach step ok init s' := by
  induction h' with
  | start h0 => exact h0 ▸ h
  | step _ hok hs ih => exact .step ih hok hs

/-- A part of a system that moves in some of its steps, as a system of its own
would, and rests in the others, has gone through a run of that system. -/
theorem project {τ β : Type*} {step' : τ → β → Option τ} {ok' : τ → β → Prop} {init' : τ → Prop}
    {f : σ → τ} {s : σ} (h : Reach step ok init s) (hinit : ∀ s, init s → init' (f s))
    (hstep : ∀ s a s', Reach step ok init s → ok s a → step s a = some s' →
      f s' = f s ∨ ∃ b, ok' (f s) b ∧ step' (f s) b = some (f s')) :
    Reach step' ok' init' (f s) := by
  induction h with
  | start h0 => exact .start (hinit _ h0)
  | step hr hok hs ih =>
      rcases hstep _ _ _ hr hok hs with heq | ⟨b, hb, hs'⟩
      · rw [heq]
        exact ih
      · exact .step ih hb hs'

/-- The same under an assumption on the last state that holds of all the
earlier ones with it, as a bound on a counter does. -/
theorem invariant_while {I B : σ → Prop} {s : σ} (h : Reach step ok init s) (hB : B s)
    (hback : ∀ s a s', step s a = some s' → B s' → B s) (hinit : ∀ s, init s → I s)
    (hstep : ∀ s a s', Reach step ok init s → I s → ok s a → step s a = some s' → B s' → I s') :
    I s := by
  induction h with
  | start h0 => exact hinit _ h0
  | step hr hok hs ih => exact hstep _ _ _ hr (ih (hback _ _ _ hs hB)) hok hs hB

end Reach

/-- The state after a list of actions, if each is possible and meets `ok`. -/
def checkedRun (step : σ → α → Option σ) (ok : σ → α → Prop) [∀ s a, Decidable (ok s a)] :
    σ → List α → Option σ
  | s, [] => some s
  | s, a :: rest =>
      if ok s a then
        match step s a with
        | some s' => checkedRun step ok s' rest
        | none => none
      else none

theorem checkedRun_cons [∀ s a, Decidable (ok s a)] {s s' : σ} {a : α} {rest : List α} :
    checkedRun step ok s (a :: rest) = some s' ↔
      ok s a ∧ ∃ s₁, step s a = some s₁ ∧ checkedRun step ok s₁ rest = some s' := by
  rw [checkedRun]
  split
  · next hok =>
      split
      · next s₁ hs₁ =>
          exact ⟨fun h => ⟨hok, s₁, hs₁, h⟩, fun ⟨_, s₂, hs₂, h⟩ => by
            rw [hs₁] at hs₂
            injection hs₂ with hs₂
            exact hs₂ ▸ h⟩
      · next hnone => exact ⟨fun h => (by cases h), fun ⟨_, s₁, hs₁, _⟩ => by
          rw [hnone] at hs₁
          cases hs₁⟩
  · next hok => exact ⟨fun h => (by cases h), fun h => absurd h.1 hok⟩

theorem Reach.checkedRun [∀ s a, Decidable (ok s a)] : ∀ {acts : List α} {s s' : σ},
    Reach step ok init s → checkedRun step ok s acts = some s' → Reach step ok init s' := by
  intro acts
  induction acts with
  | nil =>
      intro s s' hs h
      rw [Lib.checkedRun] at h
      injection h with h
      exact h ▸ hs
  | cons a rest ih =>
      intro s s' hs h
      obtain ⟨hok, s₁, hs₁, h⟩ := checkedRun_cons.mp h
      exact ih (.step hs hok hs₁) h

theorem exists_checkedRun [∀ s a, Decidable (ok s a)] {acts : List α} {s : σ} {p : σ → Prop}
    [DecidablePred p] (h : (Lib.checkedRun step ok s acts).any (fun s' => decide (p s')) = true) :
    ∃ s', Lib.checkedRun step ok s acts = some s' ∧ p s' := by
  obtain ⟨s', hrun, hp⟩ := (Option.any_eq_true _ _).mp h
  exact ⟨s', hrun, of_decide_eq_true hp⟩

/-- What every step of a run takes something from bounds its length. -/
theorem length_le_of_checkedRun [∀ s a, Decidable (ok s a)] {I : σ → Prop} {μ : σ → Nat}
    (hstep : ∀ s a s', I s → ok s a → step s a = some s' → I s' ∧ μ s' < μ s) :
    ∀ {acts : List α} {s s' : σ}, I s → Lib.checkedRun step ok s acts = some s' →
      acts.length + μ s' ≤ μ s := by
  intro acts
  induction acts with
  | nil =>
      intro s s' _ h
      obtain rfl := Option.some.inj h
      simp
  | cons a rest ih =>
      intro s s' hs h
      obtain ⟨hok, s₁, hs₁, h⟩ := checkedRun_cons.mp h
      obtain ⟨hI, hlt⟩ := hstep _ _ _ hs hok hs₁
      have hle := ih hI h
      rw [List.length_cons]
      omega

/-- A run that can be executed and ends as `p` says reaches such a state. -/
theorem reach_of_checkedRun [∀ s a, Decidable (ok s a)] {acts : List α} {s : σ}
    {p : σ → Prop} [DecidablePred p] (h0 : init s)
    (h : (Lib.checkedRun step ok s acts).any (fun s' => decide (p s')) = true) :
    ∃ s', Reach step ok init s' ∧ p s' := by
  obtain ⟨s', hrun, hp⟩ := exists_checkedRun h
  exact ⟨s', (Reach.start h0).checkedRun hrun, hp⟩

/-! ## Two runs in step -/

/-- What the steps of a run put out, one after the other. -/
def outputs {β : Type*} (step : σ → α → Option σ) (out : σ → α → List β) : σ → List α → List β
  | _, [] => []
  | s, a :: rest => out s a ++ (step s a).elim [] fun s' => outputs step out s' rest

/-- Runs whose actions are related one by one stay related, and put out the
same, if a single step does. -/
theorem lockstep {β : Type*} [∀ s a, Decidable (ok s a)]
    [∀ s a, Decidable (ok' s a)] {R : σ → σ → Prop} {T : α → α → Prop} {out : σ → α → List β}
    (hstep : ∀ {s s' a a' s₁}, R s s' → T a a' → ok s a → step s a = some s₁ →
      out s a = out s' a' ∧ ok' s' a' ∧ ∃ s₁', step s' a' = some s₁' ∧ R s₁ s₁') :
    ∀ {acts acts' : List α} {s s' r : σ}, R s s' → List.Forall₂ T acts acts' →
      checkedRun step ok s acts = some r →
      outputs step out s acts = outputs step out s' acts' ∧
        ∃ r', checkedRun step ok' s' acts' = some r' ∧ R r r' := by
  intro acts acts' s s' r hR hT
  induction hT generalizing s s' with
  | nil =>
      intro h
      rw [checkedRun] at h
      injection h with h
      exact ⟨rfl, s', rfl, h ▸ hR⟩
  | @cons a a' acts acts' ha hrest ih =>
      intro h
      obtain ⟨hok, s₁, hs₁, h⟩ := checkedRun_cons.mp h
      obtain ⟨hout, hok', s₁', hs₁', hR₁⟩ := hstep hR ha hok hs₁
      obtain ⟨houts, r', hr', hRr⟩ := ih hR₁ h
      refine ⟨?_, r', checkedRun_cons.mpr ⟨hok', s₁', hs₁', hr'⟩, hRr⟩
      rw [outputs, outputs, hs₁, hs₁', hout]
      exact congrArg _ houts

end DistQueue.Lib
