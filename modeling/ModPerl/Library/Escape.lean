import Mathlib.Data.List.Basic

/-!
# Escapes that are not undone

A text over any alphabet is written with plain letters only: a plain letter stands
for itself, any other letter is a mark, itself plain, and two more letters.  The mark
is not escaped where it occurs in the text, so that a text may be spelled like the
escape of another one.  `Alike` says how: the two texts agree but for places where one
has a letter, and the other its escape.  These are the only texts that become equal
(`escape_eq_escape_iff`).
-/

namespace Escape

variable {α : Type*}

/-- Which letters are plain, and how the others are escaped. -/
structure Code (α : Type*) where
  plain : α → Bool
  mark : α
  hi : α → α
  lo : α → α
  plain_mark : plain mark = true
  hi_ne_mark : ∀ c, hi c ≠ mark
  lo_ne_mark : ∀ c, lo c ≠ mark
  inj : ∀ c d, hi c = hi d → lo c = lo d → c = d

variable (code : Code α)

def escapeLetter (c : α) : List α :=
  if code.plain c then [c] else [code.mark, code.hi c, code.lo c]

def escape (u : List α) : List α := u.flatMap (escapeLetter code)

/-- The escape of the letter can be spelled with letters that stand for themselves. -/
def Spellable (c : α) : Prop :=
  code.plain c = false ∧ code.plain (code.hi c) = true ∧ code.plain (code.lo c) = true

/-- The texts agree, but for letters here and there that one of them has spelled out. -/
inductive Alike : List α → List α → Prop
  | nil : Alike [] []
  | cons {u v : List α} (c : α) (h : Alike u v) : Alike (c :: u) (c :: v)
  | left {u v : List α} (c : α) (hc : Spellable code c) (h : Alike u v) :
      Alike (c :: u) (code.mark :: code.hi c :: code.lo c :: v)
  | right {u v : List α} (c : α) (hc : Spellable code c) (h : Alike u v) :
      Alike (code.mark :: code.hi c :: code.lo c :: u) (c :: v)

variable {code} {u v : List α} {a c : α}

@[simp] theorem escape_nil : escape code [] = [] := rfl

theorem escape_cons : escape code (c :: u) = escapeLetter code c ++ escape code u := rfl

theorem escape_cons_plain (hc : code.plain c = true) :
    escape code (c :: u) = c :: escape code u := by
  rw [escape_cons, escapeLetter, if_pos hc, List.singleton_append]

theorem escape_cons_other (hc : code.plain c = false) :
    escape code (c :: u) = code.mark :: code.hi c :: code.lo c :: escape code u := by
  rw [escape_cons, escapeLetter, if_neg (by rw [hc]; exact Bool.false_ne_true)]
  rfl

theorem escape_append : escape code (u ++ v) = escape code u ++ escape code v :=
  List.flatMap_append

/-- A letter of the escape that is not the mark stands for itself. -/
theorem exists_of_escape_eq_cons {rest : List α} (ha : a ≠ code.mark)
    (h : escape code u = a :: rest) :
    ∃ u', u = a :: u' ∧ code.plain a = true ∧ escape code u' = rest := by
  cases u with
  | nil => cases h
  | cons c u' =>
      cases hc : code.plain c with
      | true =>
          rw [escape_cons_plain hc] at h
          obtain ⟨rfl, hrest⟩ := List.cons.inj h
          exact ⟨u', rfl, hc, hrest⟩
      | false =>
          rw [escape_cons_other hc] at h
          exact absurd (List.cons.inj h).1.symm ha

/-- The escape of a letter, met where the other text has a plain letter: it is spelled out
there. -/
theorem exists_spelled (hc : code.plain c = false) (ha : code.plain a = true)
    (h : escape code (c :: u) = escape code (a :: v)) :
    ∃ v', Spellable code c ∧ a :: v = code.mark :: code.hi c :: code.lo c :: v' ∧
      escape code u = escape code v' := by
  rw [escape_cons_other hc, escape_cons_plain ha] at h
  obtain ⟨hmark, htail⟩ := List.cons.inj h
  obtain ⟨v₁, hv, hhi, htail₁⟩ := exists_of_escape_eq_cons (code.hi_ne_mark c) htail.symm
  obtain ⟨v', hv₁, hlo, htail'⟩ := exists_of_escape_eq_cons (code.lo_ne_mark c) htail₁
  exact ⟨v', ⟨hc, hhi, hlo⟩, by rw [hmark, hv, hv₁], htail'.symm⟩

theorem Alike.symm (h : Alike code u v) : Alike code v u := by
  induction h with
  | nil => exact .nil
  | cons c _ ih => exact .cons c ih
  | left c hc _ ih => exact .right c hc ih
  | right c hc _ ih => exact .left c hc ih

theorem Alike.escape_eq (h : Alike code u v) : escape code u = escape code v := by
  have hspelled : ∀ {u v : List α} (c : α), Spellable code c → escape code u = escape code v →
      escape code (c :: u) = escape code (code.mark :: code.hi c :: code.lo c :: v) := by
    intro u v c hc h
    rw [escape_cons_other hc.1, escape_cons_plain code.plain_mark, escape_cons_plain hc.2.1,
      escape_cons_plain hc.2.2, h]
  induction h with
  | nil => rfl
  | cons c _ ih => rw [escape_cons, escape_cons, ih]
  | left c hc _ ih => exact hspelled c hc ih
  | right c hc _ ih => exact (hspelled c hc ih.symm).symm

/-- The induction is on the length of the two texts: the first letters decide which rule comes
first. -/
theorem alike_of_escape_eq (h : escape code u = escape code v) : Alike code u v := by
  induction hn : u.length + v.length using Nat.strongRecOn generalizing u v with
  | ind n ih =>
      cases u with
      | nil =>
          cases v with
          | nil => exact .nil
          | cons d v =>
              cases hd : code.plain d with
              | true => rw [escape_cons_plain hd] at h; cases h
              | false => rw [escape_cons_other hd] at h; cases h
      | cons c u =>
          cases v with
          | nil =>
              cases hc : code.plain c with
              | true => rw [escape_cons_plain hc] at h; cases h
              | false => rw [escape_cons_other hc] at h; cases h
          | cons d v =>
              simp only [List.length_cons] at hn
              cases hc : code.plain c with
              | true =>
                  cases hd : code.plain d with
                  | true =>
                      rw [escape_cons_plain hc, escape_cons_plain hd] at h
                      obtain ⟨hcd, htail⟩ := List.cons.inj h
                      rw [← hcd]
                      exact .cons c (ih _ (by omega) htail rfl)
                  | false =>
                      -- one text spells out the escape that the other one gets
                      obtain ⟨u', hspell, heq, h⟩ := exists_spelled hd hc h.symm
                      have hlen := congrArg List.length heq
                      simp only [List.length_cons] at hlen
                      rw [heq]
                      exact .right d hspell (ih _ (by omega) h.symm rfl)
              | false =>
                  cases hd : code.plain d with
                  | true =>
                      obtain ⟨v', hspell, heq, h⟩ := exists_spelled hc hd h
                      have hlen := congrArg List.length heq
                      simp only [List.length_cons] at hlen
                      rw [heq]
                      exact .left c hspell (ih _ (by omega) h rfl)
                  | false =>
                      rw [escape_cons_other hc, escape_cons_other hd] at h
                      simp only [List.cons.injEq, true_and] at h
                      obtain ⟨hhi, hlo, h⟩ := h
                      obtain rfl := code.inj c d hhi hlo
                      exact .cons c (ih _ (by omega) h rfl)

theorem escape_eq_escape_iff : escape code u = escape code v ↔ Alike code u v :=
  ⟨alike_of_escape_eq, Alike.escape_eq⟩

theorem alike_append_right_iff {w : List α} :
    Alike code (u ++ w) (v ++ w) ↔ Alike code u v := by
  rw [← escape_eq_escape_iff, escape_append, escape_append, List.append_cancel_right_eq,
    escape_eq_escape_iff]

/-- The last letters of two texts that are alike are written with the same letter at the end. -/
theorem Alike.getLast_escapeLetter {a b : α} (h : Alike code (u ++ [a]) (v ++ [b])) :
    (escapeLetter code a).getLast? = (escapeLetter code b).getLast? := by
  have hne : ∀ c, escapeLetter code c ≠ [] := by
    intro c
    rw [escapeLetter]
    split <;> exact List.cons_ne_nil _ _
  have hlast := congrArg List.getLast? h.escape_eq
  simp only [escape_append, escape_cons, escape_nil, List.append_nil] at hlast
  rwa [List.getLast?_append_of_ne_nil _ (hne a), List.getLast?_append_of_ne_nil _ (hne b)] at hlast

end Escape
