import Mathlib.Data.List.Basic

/-!
# Blocks of memory

A block holds as many elements as were allocated.  A write outside of it has no
result; writes one behind the other are one write of all that is written.
-/

namespace Block

variable {α : Type*} {block block' xs ys : List α} {place : ℕ}

/-- The elements are written from the given place on. -/
def write (block : List α) (place : ℕ) (xs : List α) : Option (List α) :=
  if place + xs.length ≤ block.length then
    some (block.take place ++ xs ++ block.drop (place + xs.length))
  else none

theorem write_nil (h : place ≤ block.length) : write block place [] = some block := by
  unfold write
  rw [List.length_nil, Nat.add_zero, if_pos h, List.append_nil, List.take_append_drop]

theorem write_eq_none (h : block.length < place + xs.length) : write block place xs = none :=
  if_neg (Nat.not_le_of_lt h)

theorem write_eq_some (h : write block place xs = some block') :
    place + xs.length ≤ block.length ∧
      block' = block.take place ++ xs ++ block.drop (place + xs.length) := by
  unfold write at h
  split_ifs at h with hfits
  exact ⟨hfits, (Option.some.inj h).symm⟩

theorem lt_of_write_eq_none (h : write block place xs = none) :
    block.length < place + xs.length := by
  unfold write at h
  split_ifs at h with hfits
  exact Nat.lt_of_not_le hfits

theorem exists_write (h : place + xs.length ≤ block.length) :
    ∃ block', write block place xs = some block' :=
  ⟨_, if_pos h⟩

theorem length_write (h : write block place xs = some block') :
    block'.length = block.length := by
  obtain ⟨hfits, rfl⟩ := write_eq_some h
  rw [List.length_append, List.length_append, List.length_take, List.length_drop]
  omega

/-- In front of the end of what was written. -/
theorem take_write (h : write block place xs = some block') :
    block'.take (place + xs.length) = block.take place ++ xs := by
  obtain ⟨hfits, rfl⟩ := write_eq_some h
  refine List.take_left' ?_
  rw [List.length_append, List.length_take]
  omega

/-- Behind it. -/
theorem drop_write (h : write block place xs = some block') :
    block'.drop (place + xs.length) = block.drop (place + xs.length) := by
  obtain ⟨hfits, rfl⟩ := write_eq_some h
  refine List.drop_left' ?_
  rw [List.length_append, List.length_take]
  omega

/-- Two writes, one behind the other. -/
theorem write_append (block : List α) (place : ℕ) (xs ys : List α) :
    write block place (xs ++ ys) =
      (write block place xs).bind fun block => write block (place + xs.length) ys := by
  cases hwrite : write block place xs with
  | none =>
      have hover := lt_of_write_eq_none hwrite
      exact write_eq_none (by rw [List.length_append]; omega)
  | some block' =>
      have hlength := length_write hwrite
      have htake := take_write hwrite
      have hdrop := drop_write hwrite
      have hbehind : block'.drop (place + xs.length + ys.length) =
          block.drop (place + xs.length + ys.length) := by
        rw [← List.drop_drop, hdrop, List.drop_drop]
      rw [Option.bind_some]
      unfold write
      rw [List.length_append, hlength, ← Nat.add_assoc, htake, hbehind,
        ← List.append_assoc (block.take place)]

end Block
