import Mathlib.Data.List.Basic

/-!
# Transducers

A transducer reads a text letter by letter, changes its state and emits what it has
recognised; a letter that it cannot take makes the run fail.  A run over two texts is
a run over the first and then one over the second (`feed_append_of`), and what the
transducer has begun to recognise is what it emits first (`head_of_feed`).
-/

namespace Transducer

variable {σ α β : Type*} (step : σ → α → Option (List β × σ))

/-- What is emitted while a text is read, and the state afterwards. -/
def feed : σ → List α → Option (List β × σ)
  | s, [] => some ([], s)
  | s, a :: as =>
      (step s a).bind fun (out, s') => (feed s' as).map fun (rest, t) => (out ++ rest, t)

variable {step} {s s' t : σ} {a : α} {as bs : List α} {out rest : List β}

@[simp] theorem feed_nil : feed step s [] = some ([], s) := rfl

theorem feed_cons_of (h : step s a = some (out, s')) :
    feed step s (a :: as) = (feed step s' as).map fun r => (out ++ r.1, r.2) := by
  rw [feed, h]
  rfl

/-- A letter for which nothing is emitted. -/
theorem feed_cons_silent (h : step s a = some ([], s')) :
    feed step s (a :: as) = feed step s' as := by
  rw [feed_cons_of h]
  exact Option.map_id' ..

theorem feed_cons_eq_some_iff : feed step s (a :: as) = some (out, t) ↔
    ∃ first s' rest, step s a = some (first, s') ∧ feed step s' as = some (rest, t) ∧
      out = first ++ rest := by
  rw [feed, Option.bind_eq_some_iff]
  constructor
  · rintro ⟨⟨first, s'⟩, hstep, h⟩
    obtain ⟨⟨rest, t'⟩, hrest, heq⟩ := Option.map_eq_some_iff.mp h
    cases heq
    exact ⟨first, s', rest, hstep, hrest, rfl⟩
  · rintro ⟨first, s', rest, hstep, hrest, rfl⟩
    exact ⟨(first, s'), hstep, Option.map_eq_some_iff.mpr ⟨(rest, t), hrest, rfl⟩⟩

/-- A text is read after another one. -/
theorem feed_append_of (h : feed step s as = some (out, s')) :
    feed step s (as ++ bs) = (feed step s' bs).map fun r => (out ++ r.1, r.2) := by
  induction as generalizing s out with
  | nil =>
      cases h
      simp
  | cons a as ih =>
      obtain ⟨first, s₁, rest, hstep, hrest, rfl⟩ := feed_cons_eq_some_iff.mp h
      rw [List.cons_append, feed_cons_of hstep, ih hrest, Option.map_map]
      refine congrArg (Option.map · (feed step s' bs)) (funext fun r => ?_)
      simp

/-- A text that cannot be read cannot be read in front of another one. -/
theorem feed_append_of_none (h : feed step s as = none) : feed step s (as ++ bs) = none := by
  induction as generalizing s with
  | nil => cases h
  | cons a as ih =>
      rw [List.cons_append]
      cases hstep : step s a with
      | none =>
          rw [feed, hstep]
          rfl
      | some r =>
          rw [feed_cons_of hstep, Option.map_eq_none_iff] at h
          rw [feed_cons_of hstep, ih h]
          rfl

theorem feed_append_eq_some_of (h : feed step s as = some (out, s'))
    (h' : feed step s' bs = some (rest, t)) :
    feed step s (as ++ bs) = some (out ++ rest, t) := by
  rw [feed_append_of h, h']
  rfl

/-- The rest of a run whose beginning is known. -/
theorem feed_append_eq_some_iff {all : List β} (h : feed step s as = some (out, s')) :
    feed step s (as ++ bs) = some (all, t) ↔
      ∃ rest, feed step s' bs = some (rest, t) ∧ all = out ++ rest := by
  rw [feed_append_of h, Option.map_eq_some_iff]
  constructor
  · rintro ⟨⟨rest, t'⟩, hrest, heq⟩
    cases heq
    exact ⟨rest, hrest, rfl⟩
  · rintro ⟨rest, hrest, rfl⟩
    exact ⟨(rest, t), hrest, rfl⟩

/-- In the states `I` something has begun, and what ends it is emitted first: a run that ends
in another state emits it. -/
theorem head_of_feed {I : σ → Prop} {P : β → Prop}
    (hstep : ∀ s a out s', I s → step s a = some (out, s') →
      (out = [] ∧ I s') ∨ ∃ b rest, out = b :: rest ∧ P b)
    (hI : I s) (ht : ¬I t) (h : feed step s as = some (out, t)) :
    ∃ b rest, out = b :: rest ∧ P b := by
  induction as generalizing s out with
  | nil =>
      cases h
      exact absurd hI ht
  | cons a as ih =>
      obtain ⟨first, s₁, rest, hs₁, hrest, rfl⟩ := feed_cons_eq_some_iff.mp h
      rcases hstep s a first s₁ hI hs₁ with ⟨rfl, hI₁⟩ | ⟨b, rest', rfl, hb⟩
      · exact ih hI₁ hrest
      · exact ⟨b, rest' ++ rest, rfl, hb⟩

end Transducer
