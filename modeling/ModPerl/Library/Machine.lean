import Mathlib.Data.List.Basic
import Mathlib.Logic.Relation

/-!
# Machines driven by actions

A machine is a partial step function `step : σ → α → Option σ`: the action
carries every choice the environment makes, so that a run is determined by its
list of actions and can be evaluated.  `Reachable step ok start` are the states
reached from `start` by steps that all satisfy the guard `ok`; with the guard
`Always` these are all the reachable states.

An invariant of a machine is a predicate of the start that every guarded step
preserves (`Reachable.invariant`).  A simulation relates the states of two
machines so that every step of the first is matched by a reachable state of the
second (`Reachable.simulation`): invariants of the second machine then hold,
through the relation, of the first.
-/

namespace Machine

variable {σ τ α β : Type*}

/-- The guard that admits every step. -/
def Always : σ → α → Prop := fun _ _ => True

instance : DecidableRel (Always : σ → α → Prop) := fun _ _ => isTrue trivial

/-- The state after a list of actions, if each of them is enabled in turn. -/
def run (step : σ → α → Option σ) : σ → List α → Option σ
  | s, [] => some s
  | s, a :: as => (step s a).bind fun s' => run step s' as

/-- Every step of the run from `s` along the actions satisfies the guard. -/
def runOk (step : σ → α → Option σ) (ok : σ → α → Prop) : σ → List α → Prop
  | _, [] => True
  | s, a :: as => ok s a ∧ ∀ s' ∈ step s a, runOk step ok s' as

instance runOk.decidable (step : σ → α → Option σ) (ok : σ → α → Prop) [DecidableRel ok] :
    ∀ (s : σ) (as : List α), Decidable (runOk step ok s as)
  | _, [] => isTrue trivial
  | s, a :: as =>
      have : Decidable (∀ s' ∈ step s a, runOk step ok s' as) :=
        match h : step s a with
        | none => isTrue fun _ hs' => by simp at hs'
        | some s' =>
            match runOk.decidable step ok s' as with
            | isTrue hrest => isTrue fun _ hs => by cases hs; exact hrest
            | isFalse hrest => isFalse fun hall => hrest (hall s' rfl)
      inferInstanceAs (Decidable (_ ∧ _))

/-- The states reached from `start` by steps that all satisfy `ok`. -/
inductive Reachable (step : σ → α → Option σ) (ok : σ → α → Prop) (start : σ) : σ → Prop
  | start : Reachable step ok start start
  | step {s s' : σ} (a : α) : Reachable step ok start s → ok s a → step s a = some s' →
      Reachable step ok start s'

namespace Reachable

variable {step : σ → α → Option σ} {ok ok' : σ → α → Prop} {start s s' : σ}

/-- What holds at the start and is preserved by every guarded step holds of
every reachable state. -/
theorem invariant {I : σ → Prop} (hstart : I start)
    (hstep : ∀ s a s', Reachable step ok start s → I s → ok s a → step s a = some s' → I s')
    (h : Reachable step ok start s) : I s := by
  induction h with
  | start => exact hstart
  | step a hreach hok hs ih => exact hstep _ a _ hreach ih hok hs

/-- A weaker guard reaches at least as much, also when the guards are compared
in reachable states only. -/
theorem mono (himp : ∀ s a, Reachable step ok start s → ok s a → ok' s a)
    (h : Reachable step ok start s) : Reachable step ok' start s := by
  induction h with
  | start => exact .start
  | step a hreach hok hs ih => exact .step a ih (himp _ a hreach hok) hs

theorem always (h : Reachable step ok start s) : Reachable step Always start s :=
  h.mono fun _ _ _ _ => trivial

theorem trans (h : Reachable step ok start s) (h' : Reachable step ok s s') :
    Reachable step ok start s' := by
  induction h' with
  | start => exact h
  | step a _ hok hs ih => exact .step a ih hok hs

/-- A run whose steps all satisfy the guard ends in a reachable state. -/
theorem of_run {as : List α} (hrun : run step start as = some s) (hok : runOk step ok start as) :
    Reachable step ok start s := by
  induction as generalizing start with
  | nil =>
      rw [run, Option.some.injEq] at hrun
      exact hrun ▸ .start
  | cons a as ih =>
      obtain ⟨s₁, hs₁, hrest⟩ := Option.bind_eq_some_iff.mp hrun
      exact (Reachable.step a .start hok.1 hs₁).trans (ih hrest (hok.2 s₁ hs₁))

theorem runOk_always (as : List α) : runOk step Always start as := by
  induction as generalizing start with
  | nil => trivial
  | cons a as ih => exact ⟨trivial, fun _ _ => ih⟩

/-- A run that ends in a state with the property reaches such a state. -/
theorem exists_of_run {P : σ → Prop} [DecidablePred P] {as : List α}
    (hok : runOk step ok start as)
    (hend : (run step start as).any (fun s => decide (P s)) = true) :
    ∃ s, Reachable step ok start s ∧ P s := by
  cases hrun : run step start as with
  | none => simp [hrun] at hend
  | some s =>
      rw [hrun] at hend
      exact ⟨s, of_run hrun hok, of_decide_eq_true hend⟩

/-- Every step of the first machine is matched by the second one, so what the
first reaches is related to something the second reaches. -/
theorem simulation {step₂ : τ → β → Option τ} {ok₂ : τ → β → Prop} {start₂ : τ}
    {R : σ → τ → Prop} (hstart : R start start₂)
    (hstep : ∀ s a s' t, Reachable step₂ ok₂ start₂ t → R s t → ok s a → step s a = some s' →
      ∃ t', Reachable step₂ ok₂ t t' ∧ R s' t')
    (h : Reachable step ok start s) : ∃ t, Reachable step₂ ok₂ start₂ t ∧ R s t := by
  induction h with
  | start => exact ⟨start₂, .start, hstart⟩
  | step a _ hok hs ih =>
      obtain ⟨t, ht, hR⟩ := ih
      obtain ⟨t', ht', hR'⟩ := hstep _ a _ t ht hR hok hs
      exact ⟨t', ht.trans ht', hR'⟩

end Reachable

/-- A property that every step keeps exactly under the guard holds in all states of a run
exactly if all its steps satisfy the guard. -/
theorem forall_run_take_iff {step : σ → α → Option σ} {ok : σ → α → Prop} {I P : σ → Prop}
    (hinv : ∀ s a s', I s → step s a = some s' → I s')
    (hstep : ∀ s a s', I s → P s → step s a = some s' → (P s' ↔ ok s a))
    (hnone : ∀ s a, step s a = none → ok s a) {s : σ} (hI : I s) (hP : P s) (as : List α) :
    (∀ n, ∀ s' ∈ run step s (as.take n), P s') ↔ runOk step ok s as := by
  induction as generalizing s with
  | nil =>
      refine ⟨fun _ => trivial, fun _ n s' hs' => ?_⟩
      rw [List.take_nil] at hs'
      cases hs'
      exact hP
  | cons a as ih =>
      cases hs : step s a with
      | none =>
          refine ⟨fun _ => ⟨hnone s a hs, fun s' hs' => by cases hs.symm.trans hs'⟩,
            fun _ n s' hs' => ?_⟩
          cases n with
          | zero =>
              cases hs'
              exact hP
          | succ n =>
              rw [List.take_succ_cons, run, hs] at hs'
              cases hs'
      | some s₁ =>
          have hrun : ∀ n, run step s ((a :: as).take (n + 1)) = run step s₁ (as.take n) := by
            intro n
            rw [List.take_succ_cons, run, hs, Option.bind_some]
          have hfirst : P s₁ ↔ ok s a := hstep s a s₁ hI hP hs
          have hrest := ih (hinv s a s₁ hI hs)
          constructor
          · intro h
            have hP₁ : P s₁ := h 1 s₁ (hrun 0)
            refine ⟨hfirst.mp hP₁, fun s' hs' => ?_⟩
            cases hs.symm.trans hs'
            exact (hrest hP₁).mp fun n s' hs' => h (n + 1) s' ((hrun n).symm ▸ hs')
          · rintro ⟨hok, hall⟩ n s' hs'
            cases n with
            | zero =>
                cases hs'
                exact hP
            | succ n =>
                rw [hrun] at hs'
                exact (hrest (hfirst.mpr hok)).mpr (hall s₁ hs) n s' hs'

/-- A loop that counts: an invariant that speaks of the count and that every round takes to
the next count holds at the end, and no round fails. -/
theorem foldlM_range {f : σ → ℕ → Option σ} {I : ℕ → σ → Prop} {n : ℕ} {s : σ} (hstart : I 0 s)
    (hstep : ∀ j < n, ∀ s, I j s → ∃ s', f s j = some s' ∧ I (j + 1) s') :
    ∃ s', (List.range n).foldlM f s = some s' ∧ I n s' := by
  induction n with
  | zero => exact ⟨s, rfl, hstart⟩
  | succ n ih =>
      obtain ⟨s₁, hrun, hinv⟩ := ih fun j hj => hstep j (Nat.lt_succ_of_lt hj)
      obtain ⟨s', hlast, hinv'⟩ := hstep n (Nat.lt_succ_self n) s₁ hinv
      refine ⟨s', ?_, hinv'⟩
      rw [List.range_succ, List.foldlM_append, hrun]
      simpa using hlast

end Machine
