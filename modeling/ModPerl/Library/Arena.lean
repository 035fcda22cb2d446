import Mathlib.Data.List.Basic

/-!
# Arenas

The cells of an arena are allocated one after the other and keep their index; a cell
that was freed stays empty.  A cell may hold references to other things: they are
listed for the whole arena, and a cell that is replaced changes their count by what
the two of its contents refer to (`count_refs_set`), so that a count kept elsewhere can
be compared with the number of references there are.
-/

/-- Cells by their index, those that were freed empty. -/
abbrev Arena (α : Type*) := List (Option α)

namespace Arena

variable {α β : Type*} {cells : Arena α} {i j : ℕ} {a : α}

/-- What the cell at the index holds. -/
def get? (cells : Arena α) (i : ℕ) : Option α := cells[i]?.join

/-- The references that the cells hold. -/
def refs (ref : α → Option β) (cells : Arena α) : List β := cells.filterMap fun o => o.bind ref

theorem getElem?_of_get? (h : get? cells i = some a) : cells[i]? = some (some a) := by
  unfold get? at h
  cases hget : cells[i]? with
  | none =>
      rw [hget] at h
      cases h
  | some o =>
      rw [hget] at h
      exact congrArg some h

theorem lt_length (h : get? cells i = some a) : i < cells.length :=
  (List.getElem?_eq_some_iff.mp (getElem?_of_get? h)).1

theorem get?_of_length_le (h : cells.length ≤ i) : get? cells i = none := by
  rw [get?, List.getElem?_eq_none h]
  rfl

@[simp] theorem get?_length (cells : Arena α) : get? cells cells.length = none :=
  get?_of_length_le (Nat.le_refl _)

/-- A cell that is replaced, and the others. -/
theorem get?_set (hlt : i < cells.length) (o : Option α) (j : ℕ) :
    get? (cells.set i o) j = if i = j then o else get? cells j := by
  unfold get?
  rw [List.getElem?_set]
  split_ifs <;> rfl

theorem set_self (h : get? cells i = some a) : cells.set i (some a) = cells := by
  obtain ⟨hlt, hcell⟩ := List.getElem?_eq_some_iff.mp (getElem?_of_get? h)
  rw [← hcell, List.set_getElem_self]

@[simp] theorem get?_concat_length (cells : Arena α) (o : Option α) :
    get? (cells ++ [o]) cells.length = o := by
  simp [get?]

/-- A new cell changes none of the others. -/
theorem get?_concat_of_ne (o : Option α) (h : j ≠ cells.length) :
    get? (cells ++ [o]) j = get? cells j := by
  rcases Nat.lt_or_gt_of_ne h with hlt | hgt
  · unfold get?
    rw [List.getElem?_append_left hlt]
  · rw [get?_of_length_le (Nat.le_of_lt hgt), get?_of_length_le]
    rw [List.length_append]
    exact hgt

variable {ref : α → Option β} {b : β}

theorem mem_refs : b ∈ refs ref cells ↔ ∃ i a, get? cells i = some a ∧ ref a = some b := by
  rw [refs, List.mem_filterMap]
  constructor
  · rintro ⟨o, ho, hb⟩
    obtain ⟨a, rfl, ha⟩ := Option.bind_eq_some_iff.mp hb
    obtain ⟨i, hi⟩ := List.mem_iff_getElem?.mp ho
    exact ⟨i, a, by rw [get?, hi]; rfl, ha⟩
  · rintro ⟨i, a, ha, hb⟩
    exact ⟨some a, List.mem_of_getElem? (getElem?_of_get? ha), hb⟩

@[simp] theorem refs_concat (cells : Arena α) (o : Option α) :
    refs ref (cells ++ [o]) = refs ref cells ++ (o.bind ref).toList := by
  cases h : o.bind ref <;> simp [refs, h]

/-- What a cell that is replaced changes in the count of a reference. -/
theorem count_refs_set [DecidableEq β] (ref : α → Option β) (h : get? cells i = some a)
    (o : Option α) (b : β) :
    (refs ref (cells.set i o)).count b + (ref a).toList.count b =
      (refs ref cells).count b + (o.bind ref).toList.count b := by
  have hcell := getElem?_of_get? h
  clear h
  induction cells generalizing i with
  | nil => cases hcell
  | cons o₁ cells ih =>
      unfold refs at ih ⊢
      cases i with
      | zero =>
          obtain rfl : o₁ = some a := Option.some.inj hcell
          rw [List.set_cons_zero, List.filterMap_cons, List.filterMap_cons, Option.bind_some]
          cases ref a <;> cases o.bind ref <;> simp [List.count_cons]; omega
      | succ i =>
          have hrest := ih (show cells[i]? = some (some a) from hcell)
          rw [List.set_cons_succ, List.filterMap_cons, List.filterMap_cons]
          cases o₁.bind ref with
          | none => exact hrest
          | some b' => simp only [List.count_cons]; omega

end Arena
