import Mathlib.Data.List.Basic

/-!
# Groupings of a chain

A chain of elements is combined two neighbours at a time; a grouping says in
which order.  What relates lists of elements to what they combine to holds of
the whole chain if it holds of the single elements and is kept by a combination
(`eval_rel`).  An associative operation gives the same for every grouping of a
chain, namely what combining from the left gives.
-/

/-- A chain of elements, in parentheses. -/
inductive Grouping (α : Type*)
  | single (x : α)
  | combine (g₁ g₂ : Grouping α)

namespace Grouping

variable {α β : Type*}

/-- The chain without the parentheses. -/
def elements : Grouping α → List α
  | single x => [x]
  | combine g₁ g₂ => g₁.elements ++ g₂.elements

/-- The elements, combined as the parentheses say. -/
def eval (op : β → β → β) (f : α → β) : Grouping α → β
  | single x => f x
  | combine g₁ g₂ => op (g₁.eval op f) (g₂.eval op f)

variable {op : β → β → β} {f : α → β} {g g' : Grouping α} {x : α} {xs : List α}

/-- What holds of single elements and is kept by a combination holds of every chain. -/
theorem eval_rel {R : List α → β → Prop} (hsingle : ∀ x, R [x] (f x))
    (hcombine : ∀ {xs ys b c}, R xs b → R ys c → R (xs ++ ys) (op b c)) (g : Grouping α) :
    R g.elements (g.eval op f) := by
  induction g with
  | single x => exact hsingle x
  | combine g₁ g₂ ih₁ ih₂ => exact hcombine ih₁ ih₂

theorem elements_ne_nil (g : Grouping α) : g.elements ≠ [] := by
  induction g with
  | single x => exact List.cons_ne_nil x []
  | combine g₁ g₂ ih₁ _ => exact List.append_ne_nil_of_left_ne_nil ih₁ _

/-- The elements are combined with what is there, one after the other. -/
theorem foldl_elements (hassoc : ∀ a b c, op (op a b) c = op a (op b c)) (g : Grouping α) (b : β) :
    g.elements.foldl (fun b x => op b (f x)) b = op b (g.eval op f) := by
  induction g generalizing b with
  | single x => rfl
  | combine g₁ g₂ ih₁ ih₂ => rw [elements, List.foldl_append, ih₁, ih₂, hassoc, eval]

/-- Every grouping gives what combining from the left gives. -/
theorem eval_eq_foldl (hassoc : ∀ a b c, op (op a b) c = op a (op b c))
    (helements : g.elements = x :: xs) :
    g.eval op f = xs.foldl (fun b x => op b (f x)) (f x) := by
  induction g generalizing x xs with
  | single y =>
      obtain ⟨rfl, rfl⟩ := List.cons.inj helements
      rfl
  | combine g₁ g₂ ih₁ _ =>
      cases helements₁ : g₁.elements with
      | nil => exact absurd helements₁ g₁.elements_ne_nil
      | cons y ys =>
          rw [elements, helements₁, List.cons_append] at helements
          obtain ⟨rfl, rfl⟩ := List.cons.inj helements
          rw [List.foldl_append, ← ih₁ helements₁, foldl_elements hassoc, eval]

/-- Two groupings of one chain give the same. -/
theorem eval_congr (hassoc : ∀ a b c, op (op a b) c = op a (op b c))
    (helements : g.elements = g'.elements) : g.eval op f = g'.eval op f := by
  cases hchain : g.elements with
  | nil => exact absurd hchain g.elements_ne_nil
  | cons x xs => rw [eval_eq_foldl hassoc hchain, eval_eq_foldl hassoc (helements ▸ hchain)]

end Grouping
