import ModPerl.Httpd

/-!
# The tied interface of `APR::Table`

The state of an iteration over a tied table is an index that is kept in the
object.  `NEXTKEY` advances it and sets it back at the end, and `FETCH` looks at
the entry it points to first, so that `each` gives every entry of a key with
several values its own value.  Nothing else knows of the index: an iteration
that is given up leaves it where it is, and `DELETE` moves the entries under it.

The functions are those of `APR__Table.h` and `modperl_common_util.c`.
-/

namespace ModPerl

open Table

/-- An `APR::Table` object: the table, and `mpxs_apr_table_iterix` of the object. -/
structure TiedTable where
  table : AprTable
  iterix : Nat
  deriving DecidableEq

namespace TiedTable

/-- `modperl_hash_tie` -/
def hashTie (table : AprTable) : TiedTable := ⟨table, 0⟩

/-- Where `NEXTKEY` looks for the next key: without a key the index is set back. -/
def start (s : TiedTable) (key : Option Bytes) : Nat :=
  if key.isNone then 0 else s.iterix

/-- `mpxs_APR__Table_NEXTKEY`, without a key for `FIRSTKEY` -/
def nextkey (s : TiedTable) (key : Option Bytes) : Option Bytes × TiedTable :=
  if s.table.isEmpty then (none, s)
  else
    match s.table[s.start key]? with
    | some elt => (some elt.1, { s with iterix := s.start key + 1 })
    | none => (none, { s with iterix := 0 })

/-- The entry before the index: the one that `NEXTKEY` returned last, if nothing else was
done to the table. -/
def current (s : TiedTable) : Option (Bytes × Bytes) :=
  if s.iterix = 0 then none else s.table[s.iterix - 1]?

/-- `mpxs_APR__Table_FETCH` -/
def fetch (s : TiedTable) (key : Bytes) : Option Bytes :=
  match s.current with
  | some elt =>
      if caseless key = caseless elt.1 then some elt.2 else Table.get caseless s.table key
  | none => Table.get caseless s.table key

/-- `mpxs_APR__Table_DELETE` -/
def delete (s : TiedTable) (key : Bytes) : TiedTable :=
  { s with table := unset caseless s.table key }

/-- `modperl_table_magic_copy`: during an iteration the value is fetched at once, else when
it is looked at. -/
def magicCopy (s : TiedTable) (key : Bytes) : Option (Option Bytes) :=
  if s.iterix ≠ 0 then some (s.fetch key) else none

/-- The pairs that `each` returns after the key, or from the beginning, until there is no
next key; `keys` and `values` are their components. -/
def iterate : Nat → Option Bytes → TiedTable →
    Option (List (Bytes × Option (Option Bytes)) × TiedTable)
  | 0, _, _ => none
  | fuel + 1, key, s =>
      match s.nextkey key with
      | (none, s) => some ([], s)
      | (some k, s) =>
          (iterate fuel (some k) s).map fun (pairs, s') => ((k, s.magicCopy k) :: pairs, s')

/-- An entry as `each` should return it. -/
def ownPair (e : Bytes × Bytes) : Bytes × Option (Option Bytes) := (e.1, some (some e.2))

/-- The entries that the iteration has still to visit. -/
def remaining (s : TiedTable) : AprTable := s.table.drop s.iterix

/-- What is expected of an object in a state: an iteration visits all entries, also after
the key that was returned last is deleted, and if none is under way, or one is given up in
this state, the values are those of `get`. -/
structure Lawful (s : TiedTable) : Prop where
  visits : ∀ fuel, s.table.length < fuel → ∃ s',
    iterate fuel none s = some (s.table.map ownPair, s') ∧ s'.table = s.table ∧
    ∀ k, s'.fetch k = Table.get caseless s.table k
  deletes : ∀ e, s.current = some e → ∀ fuel, s.table.length < fuel → ∃ pairs s',
    iterate fuel (some e.1) (s.delete e.1) = some (pairs, s') ∧
    ((unset caseless s.remaining e.1).map ownPair).Sublist pairs
  fetches : ∀ k, s.fetch k = Table.get caseless s.table k

/-- The index points to nothing, or to the first value of the only key from there on. -/
def Harmless (s : TiedTable) : Prop :=
  ∀ e, s.current = some e →
    Table.get caseless s.table e.1 = some e.2 ∧ unset caseless s.remaining e.1 = []

end TiedTable

open TiedTable

section

variable {s : TiedTable} {t : AprTable} {e : Bytes × Bytes} {k : Bytes} {key : Option Bytes}
  {fuel : Nat}

theorem fetch_of_current_none (h : s.current = none) :
    s.fetch k = Table.get caseless s.table k := by
  rw [fetch, h]

theorem fetch_current (h : s.current = some e) : s.fetch e.1 = some e.2 := by
  rw [fetch, h]
  exact if_pos rfl

/-- The value fetched for a key is the one `get` returns, unless the index points to
another value of the key. -/
theorem fetch_eq_get_iff :
    (∀ k, s.fetch k = Table.get caseless s.table k) ↔
      ∀ e, s.current = some e → Table.get caseless s.table e.1 = some e.2 := by
  constructor
  · intro h e he
    rw [← h, fetch_current he]
  · intro h k
    cases he : s.current with
    | none => exact fetch_of_current_none he
    | some e =>
        by_cases hk : caseless k = caseless e.1
        · have hget : Table.get caseless s.table k = some e.2 := by
            rw [← h e he, Table.get, Table.get, values, values, hk]
          simp [fetch, he, hk, hget]
        · simp [fetch, he, hk]

/-! ## Iterations -/

theorem nextkey_next (h : s.table[s.start key]? = some e) :
    s.nextkey key = (some e.1, { s with iterix := s.start key + 1 }) := by
  have hne : s.table.isEmpty = false := by
    cases htable : s.table with
    | nil => simp [htable] at h
    | cons _ _ => rfl
  simp [nextkey, hne, h]

theorem nextkey_end (h : s.table[s.start key]? = none) :
    ∃ s', s.nextkey key = (none, s') ∧ s'.table = s.table ∧ s'.current = none := by
  cases hempty : s.table.isEmpty with
  | true =>
      refine ⟨s, by rw [nextkey, hempty]; rfl, rfl, ?_⟩
      simp [current, List.isEmpty_iff.mp hempty]
  | false =>
      exact ⟨{ s with iterix := 0 }, by simp [nextkey, hempty, h], rfl, rfl⟩

/-- An iteration visits the entries from its beginning on, each with its own value, and
leaves no index behind. -/
theorem iterate_eq (key : Option Bytes) (fuel : ℕ)
    (hfuel : s.table.length - s.start key < fuel) : ∃ s',
    iterate fuel key s = some ((s.table.drop (s.start key)).map ownPair, s') ∧
    s'.table = s.table ∧ s'.current = none := by
  induction fuel generalizing key s with
  | zero => exact absurd hfuel (Nat.not_lt_zero _)
  | succ fuel ih =>
      cases hnext : s.table[s.start key]? with
      | none =>
          obtain ⟨s', hs', htable, hcurrent⟩ := nextkey_end hnext
          have hdrop : s.table.drop (s.start key) = [] :=
            List.drop_eq_nil_iff.mpr (List.getElem?_eq_none_iff.mp hnext)
          refine ⟨s', ?_, htable, hcurrent⟩
          rw [iterate, hs', hdrop]
          rfl
      | some e =>
          obtain ⟨hlt, helt⟩ := List.getElem?_eq_some_iff.mp hnext
          let s₁ : TiedTable := { s with iterix := s.start key + 1 }
          have hstart : s₁.start (some e.1) = s.start key + 1 := rfl
          obtain ⟨s', hs', htable, hcurrent⟩ := ih (s := s₁) (some e.1)
            (by rw [hstart]; simp only [s₁]; omega)
          have hfetch : s₁.magicCopy e.1 = some (some e.2) := by
            have hcur : s₁.current = some e := hnext
            rw [magicCopy, if_pos (Nat.succ_ne_zero _), fetch_current hcur]
          have hdrop : s.table.drop (s.start key) = e :: s.table.drop (s.start key + 1) := by
            rw [List.drop_eq_getElem_cons hlt, helt]
          refine ⟨s', ?_, htable, hcurrent⟩
          rw [iterate, nextkey_next hnext]
          simp only
          rw [hs', hstart, hdrop]
          simp [ownPair, hfetch, s₁]

/-! ## Deleting the key that was returned last -/

theorem current_eq (h : s.current = some e) : ∃ i, s.iterix = i + 1 ∧ s.table[i]? = some e := by
  unfold current at h
  split_ifs at h with hzero
  exact ⟨s.iterix - 1, by omega, h⟩

/-- The entries of the key before the index are gone, and as many others after it are
passed over. -/
theorem remaining_delete (h : s.current = some e) :
    ∃ n, 0 < n ∧ (s.delete e.1).remaining = (unset caseless s.remaining e.1).drop n := by
  obtain ⟨i, hi, helt⟩ := current_eq h
  have hmem : e ∈ s.table.take s.iterix := by
    rw [hi, List.mem_take_iff_getElem]
    obtain ⟨hlt, heq⟩ := List.getElem?_eq_some_iff.mp helt
    exact ⟨i, by omega, heq⟩
  have hlen : (unset caseless (s.table.take s.iterix) e.1).length < s.iterix := by
    have hlt : (unset caseless (s.table.take s.iterix) e.1).length <
        (s.table.take s.iterix).length :=
      List.length_filter_lt_length_iff_exists.mpr ⟨e, hmem, by simp⟩
    have hle := List.length_take_le s.iterix s.table
    omega
  have hsplit : unset caseless s.table e.1 =
      unset caseless (s.table.take s.iterix) e.1 ++ unset caseless s.remaining e.1 := by
    rw [remaining, unset, unset, unset, ← List.filter_append, List.take_append_drop]
  refine ⟨s.iterix - (unset caseless (s.table.take s.iterix) e.1).length, by omega, ?_⟩
  have hdrop : (s.delete e.1).remaining = (unset caseless s.table e.1).drop s.iterix := rfl
  rw [hdrop, hsplit, List.drop_append, List.drop_eq_nil_of_le (by omega), List.nil_append]

/-- After the deletion some entry is not visited any more, if there is one to visit. -/
theorem sublist_remaining_delete_iff (h : s.current = some e) :
    ((unset caseless s.remaining e.1).map ownPair).Sublist
        ((s.delete e.1).remaining.map ownPair) ↔
      unset caseless s.remaining e.1 = [] := by
  obtain ⟨n, hn, hdrop⟩ := remaining_delete h
  constructor
  · intro hsub
    have hlen := hsub.length_le
    rw [List.length_map, List.length_map, hdrop, List.length_drop] at hlen
    exact List.length_eq_zero_iff.mp (by omega)
  · intro hnil
    rw [hnil]
    exact List.nil_sublist _

end

/-- In whatever state the operations have left an object: iterations visit every entry with
its own value, and the rest of what is expected holds exactly if the index is
harmless. -/
theorem tied_lawful_iff (s : TiedTable) : s.Lawful ↔ s.Harmless := by
  have hdeleted : ∀ e : Bytes × Bytes, ∀ fuel, s.table.length < fuel → ∃ s',
      iterate fuel (some e.1) (s.delete e.1) =
        some ((s.delete e.1).remaining.map ownPair, s') := by
    intro e fuel hfuel
    have hle : (s.delete e.1).table.length ≤ s.table.length := List.length_filter_le _ _
    obtain ⟨s', hs', -⟩ := iterate_eq (s := s.delete e.1) (some e.1) fuel
      (by omega)
    exact ⟨s', hs'⟩
  constructor
  · intro h e he
    refine ⟨fetch_eq_get_iff.mp h.fetches e he, (sublist_remaining_delete_iff he).mp ?_⟩
    obtain ⟨pairs, s', hs', hsub⟩ := h.deletes e he _ (Nat.lt_succ_self _)
    obtain ⟨s'', hs''⟩ := hdeleted e _ (Nat.lt_succ_self _)
    rw [hs''] at hs'
    cases hs'
    exact hsub
  · intro h
    refine ⟨fun fuel hfuel => ?_, fun e he fuel hfuel => ?_,
      fetch_eq_get_iff.mpr fun e he => (h e he).1⟩
    · obtain ⟨s', hs', htable, hcurrent⟩ := iterate_eq (s := s) none fuel
        (by omega)
      exact ⟨s', hs', htable, fun k => htable ▸ fetch_of_current_none hcurrent⟩
    · obtain ⟨s', hs'⟩ := hdeleted e fuel hfuel
      exact ⟨_, s', hs', (sublist_remaining_delete_iff he).mpr (h e he).2⟩

/-- Two values of a key, with another key between them. -/
def firstSecondFirst : AprTable :=
  [(ascii "first", ascii "1"), (ascii "second", ascii "2"), (ascii "first", ascii "3")]

/-- The first key is deleted when `each` has returned it: the second one is not visited. -/
theorem tied_lawful_fails : ¬∀ s : TiedTable, s.Lawful := by
  intro hall
  let s : TiedTable := ((hashTie firstSecondFirst).nextkey none).2
  obtain ⟨pairs, s', hs', hsub⟩ := (hall s).deletes (ascii "first", ascii "1") rfl 4 (by decide)
  have hpairs : iterate 4 (some (ascii "first")) (s.delete (ascii "first")) =
      some ([], ⟨[(ascii "second", ascii "2")], 0⟩) := by decide +kernel
  rw [hpairs] at hs'
  cases hs'
  exact absurd hsub.length_le (by decide +kernel)

end ModPerl
