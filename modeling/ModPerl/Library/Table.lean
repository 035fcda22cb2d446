import Mathlib.Data.List.Basic
import Mathlib.Data.List.Induction

/-!
# Tables with several values to a key

A table is the list of its entries, oldest first.  Two keys are the same key if
`fold` takes them to the same representative: with letters folded to one case
this is the comparison of the Apache tables.  What a table says of a key is the
list of the values it holds for it, `values`; every operation is described by
its effect on that list, for the key it is about and for the others.
-/

/-- The entries of a table, oldest first. -/
abbrev Table (κ ν : Type*) := List (κ × ν)

namespace Table

variable {κ ν ι : Type*} [DecidableEq ι] (fold : κ → ι)

/-- The values held for a key. -/
def values (t : Table κ ν) (k : κ) : List ν :=
  (t.filter fun e => fold e.1 = fold k).map Prod.snd

/-- The first value held for a key. -/
def get (t : Table κ ν) (k : κ) : Option ν := (values fold t k).head?

/-- A new entry behind all others. -/
def add (t : Table κ ν) (k : κ) (v : ν) : Table κ ν := t ++ [(k, v)]

/-- Without the entries of a key. -/
def unset (t : Table κ ν) (k : κ) : Table κ ν := t.filter fun e => fold e.1 ≠ fold k

/-- The first entry of a key gets the value and the others go; a key without
entries is added. -/
def set : Table κ ν → κ → ν → Table κ ν
  | [], k, v => [(k, v)]
  | e :: t, k, v => if fold e.1 = fold k then (e.1, v) :: unset fold t k else e :: set t k v

/-- The entries of the first table, then those of the second. -/
def overlay (t u : Table κ ν) : Table κ ν := t ++ u

/-- Each key keeps one entry, with its last value. -/
def compress (t : Table κ ν) : Table κ ν := t.foldl (fun u e => set fold u e.1 e.2) []

/-- The entries of the second table are set in the first, one after the other. -/
def setAll (t u : Table κ ν) : Table κ ν := u.foldl (fun t e => set fold t e.1 e.2) t

variable {fold} {t u : Table κ ν} {k k' : κ} {v v' : ν}

@[simp] theorem values_nil : values fold ([] : Table κ ν) k = [] := rfl

theorem values_cons (e : κ × ν) :
    values fold (e :: t) k = (if fold e.1 = fold k then [e.2] else []) ++ values fold t k := by
  unfold values
  by_cases h : fold e.1 = fold k <;> simp [h]

@[simp] theorem values_overlay :
    values fold (overlay t u) k = values fold t k ++ values fold u k := by
  simp [values, overlay]

theorem values_add :
    values fold (add t k' v) k = values fold t k ++ if fold k' = fold k then [v] else [] := by
  have h : add t k' v = overlay t [(k', v)] := rfl
  rw [h, values_overlay, values_cons, values_nil, List.append_nil]

/-- The key is there, up to `fold`. -/
def Has (fold : κ → ι) (t : Table κ ν) (k : κ) : Prop := ∃ e ∈ t, fold e.1 = fold k

instance : Decidable (Has fold t k) := inferInstanceAs (Decidable (∃ e ∈ t, fold e.1 = fold k))

omit [DecidableEq ι] in
theorem has_cons {e : κ × ν} : Has fold (e :: t) k ↔ fold e.1 = fold k ∨ Has fold t k := by
  simp [Has]

omit [DecidableEq ι] in
@[simp] theorem not_has_nil : ¬Has fold ([] : Table κ ν) k := by
  simp [Has]

theorem has_iff : Has fold t k ↔ values fold t k ≠ [] := by
  simp [Has, values, List.filter_eq_nil_iff]

theorem values_unset :
    values fold (unset fold t k') k = if fold k' = fold k then [] else values fold t k := by
  induction t with
  | nil => simp [unset]
  | cons e t ih =>
      unfold unset at ih ⊢
      by_cases he : fold e.1 = fold k'
      · rw [List.filter_cons_of_neg (by simp [he]), ih, values_cons, he]
        split_ifs <;> rfl
      · rw [List.filter_cons_of_pos (by simp [he]), values_cons, ih, values_cons]
        split_ifs with h₁ h₂ <;> first | rfl | exact absurd (h₁.trans h₂.symm) he

theorem values_set :
    values fold (set fold t k' v) k = if fold k' = fold k then [v] else values fold t k := by
  induction t with
  | nil =>
      rw [set, values_cons, values_nil, List.append_nil]
  | cons e t ih =>
      unfold set
      by_cases he : fold e.1 = fold k'
      · rw [if_pos he, values_cons, values_unset, values_cons, he]
        split_ifs <;> rfl
      · rw [if_neg he, values_cons, ih, values_cons]
        split_ifs with h₁ h₂ <;> first | rfl | exact absurd (h₁.trans h₂.symm) he

theorem get_set :
    get fold (set fold t k' v) k = if fold k' = fold k then some v else get fold t k := by
  unfold get
  rw [values_set]
  split_ifs <;> rfl

theorem get_unset :
    get fold (unset fold t k') k = if fold k' = fold k then none else get fold t k := by
  unfold get
  rw [values_unset]
  split_ifs <;> rfl

theorem exists_mem_of_get (h : get fold t k = some v) : ∃ e ∈ t, fold e.1 = fold k ∧ e.2 = v := by
  obtain ⟨e, he, hv⟩ := List.mem_map.mp (List.mem_of_head? h)
  obtain ⟨hmem, hkey⟩ := List.mem_filter.mp he
  exact ⟨e, hmem, of_decide_eq_true hkey, hv⟩

theorem values_compress : values fold (compress fold t) k = (values fold t k).getLast?.toList := by
  induction t using List.reverseRecOn with
  | nil => rfl
  | append_singleton t e ih =>
      have hlast : compress fold (t ++ [e]) = set fold (compress fold t) e.1 e.2 := by
        simp [compress]
      have happ : values fold (t ++ [e]) k = values fold (overlay t [e]) k := rfl
      rw [hlast, values_set, happ, values_overlay, values_cons, values_nil, List.append_nil]
      split_ifs with h
      · simp
      · simpa using ih

theorem has_overlay : Has fold (overlay t u) k ↔ Has fold t k ∨ Has fold u k := by
  rw [has_iff, has_iff, has_iff, values_overlay, Ne, List.append_eq_nil_iff, not_and_or]

theorem has_compress : Has fold (compress fold t) k ↔ Has fold t k := by
  rw [has_iff, has_iff, values_compress]
  cases values fold t k using List.reverseRecOn <;> simp

/-- The keys of a table are unset in another one: which of them are there matters, not
how often, in which order and in which spelling. -/
theorem foldl_unset_keys (u : Table κ ν) :
    (u.map Prod.fst).foldl (unset fold) t = t.filter fun e => ¬Has fold u e.1 := by
  induction u generalizing t with
  | nil => exact (List.filter_eq_self.mpr (by simp)).symm
  | cons e u ih =>
      rw [List.map_cons, List.foldl_cons, ih, unset, List.filter_filter]
      refine List.filter_congr fun e' _ => ?_
      simp [has_cons, eq_comm, Bool.and_comm]

theorem values_foldl_unset_keys :
    values fold ((u.map Prod.fst).foldl (unset fold) t) k =
      if Has fold u k then [] else values fold t k := by
  induction u generalizing t with
  | nil => simp
  | cons e u ih =>
      rw [List.map_cons, List.foldl_cons, ih, values_unset]
      by_cases h : fold e.1 = fold k <;> simp [has_cons, h]

/-! ## Entries set one after the other -/

variable {a : κ} {x : ν}

theorem unset_congr (h : fold k = fold k') : unset fold t k = unset fold t k' := by
  rw [unset, h, unset]

theorem unset_cons_self (h : fold a = fold k) : unset fold ((a, x) :: t) k = unset fold t k :=
  List.filter_cons_of_neg (by simp [h])

theorem unset_cons_ne (h : fold a ≠ fold k) :
    unset fold ((a, x) :: t) k = (a, x) :: unset fold t k :=
  List.filter_cons_of_pos (by simp [h])

theorem unset_unset_comm : unset fold (unset fold t k) k' = unset fold (unset fold t k') k := by
  rw [unset, unset, List.filter_filter, unset, unset, List.filter_filter]
  exact List.filter_congr fun e _ => Bool.and_comm _ _

theorem unset_unset_self : unset fold (unset fold t k) k = unset fold t k := by
  rw [unset, unset, List.filter_filter]
  exact List.filter_congr fun e _ => Bool.and_self _

theorem set_cons_self (h : fold a = fold k) :
    set fold ((a, x) :: t) k v = (a, v) :: unset fold t k := by
  rw [set, if_pos h]

theorem set_cons_ne (h : fold a ≠ fold k) :
    set fold ((a, x) :: t) k v = (a, x) :: set fold t k v := by
  rw [set, if_neg h]

theorem has_set : Has fold (Table.set fold t k' v) k ↔ fold k' = fold k ∨ Has fold t k := by
  rw [has_iff, has_iff, values_set]
  split_ifs with h <;> simp [h]

theorem unset_set_ne (h : fold k ≠ fold k') :
    unset fold (Table.set fold t k v) k' = Table.set fold (unset fold t k') k v := by
  induction t with
  | nil => exact unset_cons_ne h
  | cons e t ih =>
      obtain ⟨a, x⟩ := e
      by_cases he : fold a = fold k
      · have he' : fold a ≠ fold k' := he ▸ h
        rw [set_cons_self he, unset_cons_ne he', unset_cons_ne he', set_cons_self he,
          unset_unset_comm]
      · by_cases he' : fold a = fold k'
        · rw [set_cons_ne he, unset_cons_self he', unset_cons_self he', ih]
        · rw [set_cons_ne he, unset_cons_ne he', unset_cons_ne he', set_cons_ne he, ih]

/-- A key that is set twice is as if it had been set the second time only, but for its
spelling. -/
theorem set_set_self (h : fold k = fold k') :
    Table.set fold (Table.set fold t k v) k' v' = Table.set fold t k v' := by
  induction t with
  | nil => exact set_cons_self h
  | cons e t ih =>
      obtain ⟨a, x⟩ := e
      by_cases he : fold a = fold k
      · rw [set_cons_self he, set_cons_self (he.trans h), set_cons_self he, unset_congr h.symm,
          unset_unset_self]
      · rw [set_cons_ne he, set_cons_ne (h ▸ he), ih, set_cons_ne he]

theorem unset_eq_self_iff : unset fold t k = t ↔ values fold t k = [] := by
  simp [unset, values, List.filter_eq_self, List.filter_eq_nil_iff]

/-- Setting changes nothing if the value is the only one the key has. -/
theorem set_eq_self_iff : Table.set fold t k v = t ↔ values fold t k = [v] := by
  induction t with
  | nil => simp [Table.set]
  | cons e t ih =>
      obtain ⟨a, x⟩ := e
      by_cases he : fold a = fold k
      · rw [set_cons_self he, values_cons, if_pos he, List.singleton_append, List.cons.injEq,
          List.cons.injEq, Prod.mk.injEq, unset_eq_self_iff, and_iff_right rfl, eq_comm]
      · rw [set_cons_ne he, values_cons, if_neg he, List.nil_append, List.cons.injEq, ih]
        simp

theorem unset_set_self : unset fold (Table.set fold t k v) k = unset fold t k := by
  induction t with
  | nil => simp [Table.set, unset]
  | cons e t ih =>
      obtain ⟨a, x⟩ := e
      by_cases he : fold a = fold k
      · rw [set_cons_self he, unset_cons_self he, unset_cons_self he, unset_unset_self]
      · rw [set_cons_ne he, unset_cons_ne he, unset_cons_ne he, ih]

/-- The spelling of a key that is there does not matter. -/
theorem set_congr (h : fold k = fold k') (hhas : Has fold t k) :
    Table.set fold t k v = Table.set fold t k' v := by
  induction t with
  | nil => obtain ⟨_, h, -⟩ := hhas; cases h
  | cons e t ih =>
      obtain ⟨a, x⟩ := e
      by_cases he : fold a = fold k
      · rw [set_cons_self he, set_cons_self (he.trans h), unset_congr h]
      · rw [set_cons_ne he, set_cons_ne (h ▸ he), ih ((has_cons.mp hhas).resolve_left he)]

/-- Different keys can be set in either order, if one of them is there. -/
theorem set_set_comm (h : fold k ≠ fold k') (hhas : Has fold t k) :
    Table.set fold (Table.set fold t k' v') k v = Table.set fold (Table.set fold t k v) k' v' := by
  induction t with
  | nil => obtain ⟨_, h, -⟩ := hhas; cases h
  | cons e t ih =>
      obtain ⟨a, x⟩ := e
      by_cases he : fold a = fold k
      · have he' : fold a ≠ fold k' := he ▸ h
        rw [set_cons_ne he', set_cons_self he, set_cons_self he, set_cons_ne he',
          unset_set_ne h.symm]
      · have hrest := (has_cons.mp hhas).resolve_left he
        by_cases he' : fold a = fold k'
        · rw [set_cons_self he', set_cons_ne he, set_cons_ne he, set_cons_self he',
            unset_set_ne h]
        · rw [set_cons_ne he', set_cons_ne he, set_cons_ne he, set_cons_ne he', ih hrest]

theorem compress_eq_setAll : compress fold t = setAll fold [] t := rfl

theorem setAll_overlay (w : Table κ ν) :
    setAll fold w (overlay t u) = setAll fold (setAll fold w t) u :=
  List.foldl_append

theorem setAll_cons (w : Table κ ν) :
    setAll fold w ((a, x) :: t) = setAll fold (Table.set fold w a x) t := rfl

/-- A key that is there is set before the others instead of after them. -/
theorem set_setAll (w : Table κ ν) (hhas : Has fold w k) :
    Table.set fold (setAll fold w t) k v =
      setAll fold (Table.set fold w k v) (unset fold t k) := by
  induction t generalizing w with
  | nil => rfl
  | cons e t ih =>
      obtain ⟨a, x⟩ := e
      rw [setAll_cons, ih _ (has_set.mpr (.inr hhas))]
      by_cases he : fold a = fold k
      · have hhas' : Has fold w a := by rwa [Has, he]
        rw [unset_cons_self he, set_set_self he, set_congr he hhas']
      · rw [unset_cons_ne he, setAll_cons, set_set_comm (Ne.symm he) hhas]

theorem setAll_set (w : Table κ ν) :
    setAll fold w (Table.set fold t k v) = Table.set fold (setAll fold w t) k v := by
  induction t generalizing w with
  | nil => rfl
  | cons e t ih =>
      obtain ⟨a, x⟩ := e
      by_cases he : fold a = fold k
      · have hhas : Has fold (Table.set fold w a x) k := has_set.mpr (.inl he)
        rw [set_cons_self he, setAll_cons, setAll_cons, set_setAll _ hhas, set_set_self he]
      · rw [set_cons_ne he, setAll_cons, setAll_cons, ih]

/-- Setting the entries of a table is setting those of the compressed table. -/
theorem setAll_compress (w : Table κ ν) : setAll fold w (compress fold t) = setAll fold w t := by
  induction t using List.reverseRecOn with
  | nil => rfl
  | append_singleton t e ih =>
      have hlast : ∀ w : Table κ ν, setAll fold w (t ++ [e]) =
          Table.set fold (setAll fold w t) e.1 e.2 := fun w => setAll_overlay w
      rw [compress_eq_setAll, hlast, setAll_set, ← compress_eq_setAll, ih, hlast]

/-- Tables are overlaid and compressed in any grouping. -/
theorem compress_overlay_assoc (w : Table κ ν) :
    compress fold (overlay (compress fold (overlay t u)) w) =
      compress fold (overlay t (compress fold (overlay u w))) := by
  calc compress fold (overlay (compress fold (overlay t u)) w)
      = setAll fold (setAll fold [] (overlay t u)) w := by
        rw [compress_eq_setAll, setAll_overlay, setAll_compress]
    _ = setAll fold (setAll fold [] t) (overlay u w) := by
        rw [setAll_overlay, setAll_overlay]
    _ = compress fold (overlay t (compress fold (overlay u w))) := by
        rw [← setAll_compress (setAll fold [] t), ← setAll_overlay, ← compress_eq_setAll]

/-! ## Entries of a key -/

/-- The entries of a key, with their spellings. -/
def entries (fold : κ → ι) (t : Table κ ν) (k : κ) : Table κ ν :=
  t.filter fun e => fold e.1 = fold k

theorem values_eq_entries : values fold t k = (entries fold t k).map Prod.snd := rfl

theorem entries_eq_nil (h : ¬Has fold t k) : entries fold t k = [] :=
  List.filter_eq_nil_iff.mpr fun e he hfold => h ⟨e, he, of_decide_eq_true hfold⟩

theorem entries_overlay : entries fold (overlay t u) k = entries fold t k ++ entries fold u k :=
  List.filter_append ..

theorem entries_unset_self (h : fold k' = fold k) : entries fold (unset fold t k') k = [] := by
  rw [entries, unset, List.filter_filter, List.filter_eq_nil_iff]
  intro e _
  simp [h]

theorem entries_unset_ne (h : fold k' ≠ fold k) :
    entries fold (unset fold t k') k = entries fold t k := by
  rw [entries, unset, List.filter_filter, entries]
  refine List.filter_congr fun e _ => ?_
  by_cases he : fold e.1 = fold k
  · simp [he, h.symm]
  · simp [he]

theorem entries_cons_self (h : fold a = fold k) :
    entries fold ((a, x) :: t) k = (a, x) :: entries fold t k :=
  List.filter_cons_of_pos (by simp [h])

theorem entries_cons_ne (h : fold a ≠ fold k) : entries fold ((a, x) :: t) k = entries fold t k :=
  List.filter_cons_of_neg (by simp [h])

theorem entries_set_ne (h : fold k' ≠ fold k) :
    entries fold (Table.set fold t k' v) k = entries fold t k := by
  induction t with
  | nil => exact entries_cons_ne h
  | cons e t ih =>
      obtain ⟨a, x⟩ := e
      by_cases he : fold a = fold k'
      · have he' : fold a ≠ fold k := he ▸ h
        rw [set_cons_self he, entries_cons_ne he', entries_cons_ne he', entries_unset_ne h]
      · rw [set_cons_ne he]
        by_cases he' : fold a = fold k
        · rw [entries_cons_self he', entries_cons_self he', ih]
        · rw [entries_cons_ne he', entries_cons_ne he', ih]

/-- The spelling in which a key is there first. -/
def spelled (fold : κ → ι) (t : Table κ ν) (k : κ) : κ :=
  ((entries fold t k).head?.map Prod.fst).getD k

theorem spelled_cons_self (h : fold a = fold k) : spelled fold ((a, x) :: t) k = a := by
  rw [spelled, entries_cons_self h]
  rfl

theorem spelled_cons_ne (h : fold a ≠ fold k) :
    spelled fold ((a, x) :: t) k = spelled fold t k := by
  rw [spelled, entries_cons_ne h, spelled]

/-- A key that is set has one entry, in the spelling that was there first. -/
theorem entries_set_self (h : fold k' = fold k) :
    entries fold (Table.set fold t k' v) k = [(spelled fold t k', v)] := by
  induction t with
  | nil => exact entries_cons_self h
  | cons e t ih =>
      obtain ⟨a, x⟩ := e
      by_cases he : fold a = fold k'
      · rw [set_cons_self he, entries_cons_self (he.trans h), entries_unset_self h,
          spelled_cons_self he]
      · rw [set_cons_ne he, entries_cons_ne (h ▸ he), ih, spelled_cons_ne he]

theorem spelled_set_self (h : fold k' = fold k) :
    spelled fold (Table.set fold t k' v) k = spelled fold t k' := by
  rw [spelled, entries_set_self h]
  rfl

theorem spelled_set_ne (h : fold k' ≠ fold k) :
    spelled fold (Table.set fold t k' v) k = spelled fold t k := by
  rw [spelled, entries_set_ne h, spelled]

/-- Entries that are set one after the other leave the other keys alone. -/
theorem entries_setAll_of_not_has (h : ¬Has fold u k) :
    entries fold (setAll fold t u) k = entries fold t k := by
  induction u generalizing t with
  | nil => rfl
  | cons e u ih =>
      obtain ⟨a, x⟩ := e
      obtain ⟨ha, hu⟩ := not_or.mp (has_cons.not.mp h)
      rw [setAll_cons, ih hu, entries_set_ne ha]

theorem fold_spelled : fold (spelled fold t k) = fold k := by
  induction t with
  | nil => rfl
  | cons e t ih =>
      obtain ⟨a, x⟩ := e
      by_cases ha : fold a = fold k
      · rw [spelled_cons_self ha, ha]
      · rw [spelled_cons_ne ha, ih]

/-- Of their own keys they leave one entry each, with the last value and in the spelling that
was there first. -/
theorem entries_setAll (h : Has fold u k) :
    ∃ v, (values fold u k).getLast? = some v ∧
      entries fold (setAll fold t u) k = [(spelled fold t (spelled fold u k), v)] := by
  induction u generalizing t with
  | nil => exact absurd h not_has_nil
  | cons e u ih =>
      obtain ⟨a, x⟩ := e
      rw [setAll_cons, values_cons]
      by_cases hu : Has fold u k
      · obtain ⟨v, hv, hentries⟩ := ih (t := Table.set fold t a x) hu
        refine ⟨v, ?_, hentries.trans ?_⟩
        · rw [List.getLast?_append_of_ne_nil _ (has_iff.mp hu), hv]
        by_cases ha : fold a = fold k
        · have hself : fold a = fold (spelled fold u k) := ha.trans fold_spelled.symm
          rw [spelled_cons_self ha, spelled_set_self hself]
        · have hne : fold a ≠ fold (spelled fold u k) := fun heq => ha (heq.trans fold_spelled)
          rw [spelled_cons_ne ha, spelled_set_ne hne]
      · have ha : fold a = fold k := (has_cons.mp h).resolve_right hu
        have hnil : values fold u k = [] := not_not.mp (has_iff.not.mp hu)
        refine ⟨x, ?_, ?_⟩
        · rw [if_pos ha, hnil]
          rfl
        · rw [entries_setAll_of_not_has hu, entries_set_self ha, spelled_cons_self ha]

theorem spelled_overlay : spelled fold (overlay t u) k = spelled fold t (spelled fold u k) := by
  have hfold : fold (spelled fold u k) = fold k := fold_spelled
  have hsame : entries fold t (spelled fold u k) = entries fold t k := by
    rw [entries, hfold, entries]
  rw [spelled, entries_overlay, spelled, hsame]
  cases entries fold t k with
  | nil => rfl
  | cons e t => rfl

/-- Entries that are set leave each key the spelling that was there first. -/
theorem spelled_setAll : spelled fold (setAll fold t u) k = spelled fold (overlay t u) k := by
  rw [spelled_overlay]
  by_cases hu : Has fold u k
  · obtain ⟨v, -, hentries⟩ := entries_setAll (t := t) hu
    rw [spelled, hentries]
    rfl
  · have hspelled : spelled fold u k = k := by
      rw [spelled, entries_eq_nil hu]
      rfl
    rw [hspelled, spelled, entries_setAll_of_not_has hu, spelled]

theorem entries_setAll_of_has (h : Has fold u k) :
    ∃ e, entries fold (setAll fold t u) k = [e] := by
  obtain ⟨v, -, hentries⟩ := entries_setAll (t := t) h
  exact ⟨_, hentries⟩

/-- The last value that is set for a key is the one it has. -/
theorem values_setAll :
    values fold (setAll fold t u) k =
      if Has fold u k then (values fold u k).getLast?.toList else values fold t k := by
  induction u generalizing t with
  | nil => simp [setAll]
  | cons e u ih =>
      obtain ⟨a, x⟩ := e
      rw [setAll_cons, ih, values_set, values_cons]
      by_cases hu : Has fold u k
      · have hne : values fold u k ≠ [] := has_iff.mp hu
        rw [if_pos hu, if_pos (has_cons.mpr (.inr hu)), List.getLast?_append_of_ne_nil _ hne]
      · have hnil : values fold u k = [] := not_not.mp (has_iff.not.mp hu)
        rw [if_neg hu, hnil, List.append_nil]
        by_cases ha : fold a = fold k
        · rw [if_pos ha, if_pos ha, if_pos (has_cons.mpr (.inl ha))]
          rfl
        · rw [if_neg ha, if_neg (has_cons.not.mpr (not_or.mpr ⟨ha, hu⟩))]

theorem get_setAll :
    get fold (setAll fold t u) k = ((values fold u k).getLast?).or (get fold t k) := by
  rw [get, values_setAll]
  by_cases hu : Has fold u k
  · rw [if_pos hu]
    have hne : values fold u k ≠ [] := has_iff.mp hu
    obtain ⟨x, hx⟩ := Option.ne_none_iff_exists'.mp (List.getLast?_eq_none_iff.not.mpr hne)
    rw [hx]
    rfl
  · have hnil : values fold u k = [] := not_not.mp (has_iff.not.mp hu)
    rw [if_neg hu, hnil]
    rfl

/-! ## Tables that hold the same entries -/

/-- Each key has one entry. -/
def Single (fold : κ → ι) (t : Table κ ν) : Prop := ∀ e ∈ t, entries fold t e.1 = [e]

instance [DecidableEq κ] [DecidableEq ν] : Decidable (Single fold t) :=
  inferInstanceAs (Decidable (∀ e ∈ t, _))

theorem mem_entries {e : κ × ν} : e ∈ entries fold t k ↔ e ∈ t ∧ fold e.1 = fold k := by
  rw [entries, List.mem_filter, decide_eq_true_eq]

theorem entries_congr (h : fold k = fold k') : entries fold t k = entries fold t k' := by
  rw [entries, h, entries]

theorem perm_of_entries [DecidableEq κ] [DecidableEq ν] (fold : κ → ι)
    (h : ∀ k, (entries fold t k).Perm (entries fold u k)) : t.Perm u := by
  rw [List.perm_iff_count]
  intro e
  have hcount : ∀ w : Table κ ν, (entries fold w e.1).count e = w.count e := fun w =>
    List.count_filter (decide_eq_true rfl)
  rw [← hcount t, ← hcount u, (h e.1).count_eq e]

theorem Perm.entries (fold : κ → ι) (k : κ) (h : t.Perm u) :
    (entries fold t k).Perm (entries fold u k) := h.filter _

omit [DecidableEq ι] in
theorem Perm.has_iff (fold : κ → ι) (k : κ) (h : t.Perm u) : Has fold t k ↔ Has fold u k :=
  exists_congr fun _ => and_congr_left fun _ => h.mem_iff

theorem spelled_of_entries {e : κ × ν} (h : entries fold t k = [e]) : spelled fold t k = e.1 := by
  rw [spelled, h]
  rfl

theorem getLast?_values_of_entries {e : κ × ν} (h : entries fold t k = [e]) :
    (values fold t k).getLast? = some e.2 := by
  rw [values_eq_entries, h]
  rfl

/-- A key that is set is as if it stood before the others, in the spelling that was there
first. -/
theorem set_perm [DecidableEq κ] : (Table.set id t k v).Perm ((k, v) :: unset id t k) := by
  induction t with
  | nil => exact .refl _
  | cons e t ih =>
      obtain ⟨a, x⟩ := e
      by_cases he : a = k
      · subst he
        rw [set_cons_self rfl, unset_cons_self rfl]
      · rw [set_cons_ne he, unset_cons_ne he]
        exact (ih.cons _).trans (.swap _ _ _)

theorem mem_of_mem_set {e : κ × ν} (h : e ∈ Table.set fold t k v) :
    (e.1 = k ∨ e.1 ∈ t.map Prod.fst) ∧ (e.2 = v ∨ e.2 ∈ t.map Prod.snd) := by
  induction t with
  | nil => simp_all [Table.set]
  | cons e t ih =>
      obtain ⟨a, x⟩ := e
      by_cases he : fold a = fold k
      · rw [set_cons_self he] at h
        rcases List.mem_cons.mp h with rfl | h
        · simp
        · have hmem := List.mem_of_mem_filter h
          exact ⟨.inr (List.mem_cons_of_mem _ (List.mem_map_of_mem hmem)),
            .inr (List.mem_cons_of_mem _ (List.mem_map_of_mem hmem))⟩
      · rw [set_cons_ne he] at h
        rcases List.mem_cons.mp h with rfl | h
        · simp
        · exact ⟨(ih h).1.imp_right (List.mem_cons_of_mem _),
            (ih h).2.imp_right (List.mem_cons_of_mem _)⟩

/-- A table that is set in another one leaves what it holds itself exactly if it has one entry
for each key, and the other table has these keys only, in the same spelling. -/
theorem perm_setAll_iff [DecidableEq κ] [DecidableEq ν] {w : Table κ ν} (hu : u.Perm w) :
    (setAll fold t u).Perm w ↔ Single fold w ∧ (∀ e ∈ t, Has fold w e.1) ∧
      ∀ e ∈ w, spelled fold t e.1 = e.1 := by
  constructor
  · intro hperm
    have hone : ∀ e ∈ w, entries fold w e.1 = [e] ∧ spelled fold t e.1 = e.1 := by
      intro e he
      have hself : e ∈ entries fold w e.1 := mem_entries.mpr ⟨he, rfl⟩
      have hhas : Has fold u e.1 := (Perm.has_iff fold e.1 hu).mpr ⟨e, he, rfl⟩
      obtain ⟨v, -, hset⟩ := entries_setAll (t := t) hhas
      have hentries := Perm.entries fold e.1 hperm
      rw [hset, List.singleton_perm] at hentries
      rw [← hentries, List.mem_singleton] at hself
      have hsingle : entries fold w e.1 = [e] := by rw [← hentries, ← hself]
      have hu' := Perm.entries fold e.1 hu
      rw [hsingle, List.perm_singleton] at hu'
      rw [spelled_of_entries hu'] at hself
      exact ⟨hsingle, (congrArg Prod.fst hself).symm⟩
    refine ⟨fun e he => (hone e he).1, fun e he => ?_, fun e he => (hone e he).2⟩
    by_contra hhas
    have hentries := Perm.entries fold e.1 hperm
    rw [entries_eq_nil hhas, List.perm_nil,
      entries_setAll_of_not_has ((Perm.has_iff fold e.1 hu).not.mpr hhas)] at hentries
    have hself : e ∈ entries fold t e.1 := mem_entries.mpr ⟨he, rfl⟩
    rw [hentries] at hself
    exact List.not_mem_nil hself
  · rintro ⟨hsingle, hback, hspelled⟩
    refine perm_of_entries fold fun k => ?_
    by_cases hhas : Has fold w k
    · obtain ⟨e, he, hek⟩ := hhas
      have hu' := Perm.entries fold e.1 hu
      rw [hsingle e he, List.perm_singleton] at hu'
      obtain ⟨v, hv, hset⟩ := entries_setAll (t := t)
        ((Perm.has_iff fold e.1 hu).mpr ⟨e, he, rfl⟩)
      rw [getLast?_values_of_entries hu', Option.some.injEq] at hv
      rw [← entries_congr hek, ← entries_congr hek, hsingle e he, hset, spelled_of_entries hu',
        hspelled e he, ← hv]
    · have hnot : ¬Has fold t k := by
        rintro ⟨e, he, hek⟩
        obtain ⟨e', he', heq⟩ := hback e he
        exact hhas ⟨e', he', heq.trans hek⟩
      rw [entries_setAll_of_not_has ((Perm.has_iff fold k hu).not.mpr hhas),
        entries_eq_nil hnot, entries_eq_nil hhas]

/-! ## One comparison for another -/

section

variable {ι' : Type*} [DecidableEq ι'] {fold' : κ → ι'}

theorem unset_fold_congr (h : ∀ e ∈ t, fold e.1 = fold k ↔ fold' e.1 = fold' k') :
    unset fold t k = unset fold' t k' :=
  List.filter_congr fun e he => by simp [h e he]

/-- Two comparisons that agree on the keys of a table set the same entry. -/
theorem set_fold_congr (h : ∀ e ∈ t, fold e.1 = fold k ↔ fold' e.1 = fold' k) :
    Table.set fold t k v = Table.set fold' t k v := by
  induction t with
  | nil => rfl
  | cons e t ih =>
      obtain ⟨a, x⟩ := e
      have hrest : ∀ e ∈ t, fold e.1 = fold k ↔ fold' e.1 = fold' k := fun e he =>
        h e (List.mem_cons_of_mem _ he)
      have ha : fold a = fold k ↔ fold' a = fold' k := h (a, x) List.mem_cons_self
      by_cases he : fold a = fold k
      · rw [set_cons_self he, set_cons_self (ha.mp he), unset_fold_congr hrest]
      · rw [set_cons_ne he, set_cons_ne (ha.not.mp he), ih hrest]

theorem setAll_fold_congr
    (h : ∀ k ∈ (t ++ u).map Prod.fst, ∀ k' ∈ (t ++ u).map Prod.fst,
      fold k = fold k' ↔ fold' k = fold' k') :
    setAll fold t u = setAll fold' t u := by
  induction u generalizing t with
  | nil => rfl
  | cons e u ih =>
      obtain ⟨a, x⟩ := e
      have hset : Table.set fold t a x = Table.set fold' t a x :=
        set_fold_congr fun e he => h e.1 (by simp [List.mem_map_of_mem he]) a (by simp)
      have hmem : ∀ k ∈ (Table.set fold' t a x ++ u).map Prod.fst,
          k ∈ (t ++ (a, x) :: u).map Prod.fst := by
        intro k hk
        rw [List.map_append, List.mem_append] at hk ⊢
        rcases hk with hk | hk
        · obtain ⟨e, he, rfl⟩ := List.mem_map.mp hk
          exact (mem_of_mem_set he).1.elim (fun heq => .inr (heq ▸ List.mem_cons_self)) .inl
        · exact .inr (List.mem_cons_of_mem _ hk)
      rw [setAll_cons, setAll_cons, hset]
      exact ih fun k hk k' hk' => h k (hmem k hk) k' (hmem k' hk')

end

/-- What is done to the values does not matter to the keys. -/
theorem map_set (f : ν → ν) :
    (Table.set fold t k v).map (Prod.map id f) =
      Table.set fold (t.map (Prod.map id f)) k (f v) := by
  have hunset : ∀ t : Table κ ν,
      (unset fold t k).map (Prod.map id f) = unset fold (t.map (Prod.map id f)) k := fun t => by
    rw [unset, unset, List.filter_map]
    rfl
  induction t with
  | nil => rfl
  | cons e t ih =>
      obtain ⟨a, x⟩ := e
      by_cases he : fold a = fold k
      · rw [set_cons_self he, List.map_cons, hunset, List.map_cons]
        exact (set_cons_self he).symm
      · rw [set_cons_ne he, List.map_cons, ih, List.map_cons]
        exact (set_cons_ne he).symm

theorem map_setAll (f : ν → ν) :
    (setAll fold t u).map (Prod.map id f) =
      setAll fold (t.map (Prod.map id f)) (u.map (Prod.map id f)) := by
  induction u generalizing t with
  | nil => rfl
  | cons e u ih =>
      obtain ⟨a, x⟩ := e
      rw [setAll_cons, ih, map_set]
      rfl

end Table
