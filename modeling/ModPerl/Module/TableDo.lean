import ModPerl.Httpd
import Mathlib.Algebra.Group.Nat.Defs
import Mathlib.Algebra.Group.Int.Defs

/-!
# `APR::Table->do`

`do` calls a sub for the entries of a table until it returns 0.  If there are filter keys,
they are put into a hash, and an entry whose key is not in the hash is passed over.  But
the hash compares keys byte by byte, and the table without regard to case: `do` with the
key that `get` is given may not find the entry that `get` finds.  What the sub returns is
stored in an `int`, which can be 0 where the number is not.

The functions are those of `APR__Table.h`.
-/

namespace ModPerl

/-- A sub that is called with a key and a value: the integer that it returns, or none if it
dies, and what has changed by the call. -/
abbrev Callback (σ : Type*) := σ → Bytes × Bytes → Option Int × σ

/-- The calls that were made so far, and what they have changed. -/
structure DoState (σ : Type*) where
  calls : List (Bytes × Bytes)
  world : σ

variable {σ τ : Type*}

/-- `apr_table_do` without keys: the entries in their order, until the function returns 0 or
is left for good. -/
def aprTableDo (comp : τ → Bytes × Bytes → Option Int × τ) : AprTable → τ → τ
  | [], data => data
  | elt :: elts, data =>
      match comp data elt with
      | (some rv, data) => if rv ≠ 0 then aprTableDo comp elts data else data
      | (none, data) => data

/-- `mpxs_apr_table_do_cb`.  The filter is an `apr_hash_t`, whose keys are the bytes of the
filter keys; it is asked for the key of the entry as a C string. -/
def doCb (sub : Callback σ) (filter : Option (List Bytes)) (s : DoState σ) (elt : Bytes × Bytes) :
    Option Int × DoState σ :=
  if filter.any fun keys => !keys.contains (cstr elt.1) then (some 1, s)
  else
    let (rv, world) := sub s.world elt
    (rv.map fun rv => rv.bmod (2 ^ 32), ⟨s.calls ++ [elt], world⟩)

/-- The filter that `mpxs_apr_table_do` makes of its further arguments. -/
def hashFilter (filter : List Bytes) : Option (List Bytes) :=
  if filter ≠ [] then some filter else none

/-- `mpxs_apr_table_do` -/
def tableDo (sub : Callback σ) (filter : List Bytes) (table : AprTable) (world : σ) : DoState σ :=
  aprTableDo (doCb sub (hashFilter filter)) table ⟨[], world⟩

/-- The key of the entry is one of the filter keys, as the table compares keys; without
filter keys any is. -/
def InFilter (filter : List Bytes) (elt : Bytes × Bytes) : Prop :=
  filter = [] ∨ ∃ key ∈ filter, caseless (cstr key) = caseless (cstr elt.1)

instance (filter : List Bytes) : DecidablePred (InFilter filter) := fun _ =>
  inferInstanceAs (Decidable (_ ∨ _))

/-- The calls for these entries, up to the first that returns 0. -/
def callsUntil (sub : Callback σ) : List (Bytes × Bytes) → σ → List (Bytes × Bytes)
  | [], _ => []
  | elt :: elts, world =>
      elt :: match sub world elt with
        | (some rv, world) => if rv ≠ 0 then callsUntil sub elts world else []
        | (none, _) => []

/-- The key of the entry is spelled as one of the filter keys is. -/
def Hashed (filter : List Bytes) (elt : Bytes × Bytes) : Prop := filter = [] ∨ cstr elt.1 ∈ filter

instance (filter : List Bytes) : DecidablePred (Hashed filter) := fun _ =>
  inferInstanceAs (Decidable (_ ∨ _))

/-- The entries that are called for, up to the first call that returns 0, are spelled as the
filter keys are, and a call for one that is not the last returns no other multiple of
`2 ^ 32`. -/
def DoOk (sub : Callback σ) (filter : List Bytes) : List (Bytes × Bytes) → σ → Prop
  | [], _ => True
  | elt :: elts, world =>
      Hashed filter elt ∧
        match sub world elt with
        | (some rv, world) =>
            rv ≠ 0 → (2 ^ 32 ∣ rv → elts = []) ∧ DoOk sub filter elts world
        | (none, _) => True

variable {sub : Callback σ} {filter : List Bytes} {table : AprTable} {elt : Bytes × Bytes}
  {s : DoState σ} {world world' : σ} {calls : List (Bytes × Bytes)} {rv : Int}

/-! ## The entries that are called for -/

theorem Hashed.inFilter (h : Hashed filter elt) : InFilter filter elt :=
  h.imp_right fun hmem => ⟨_, hmem, by rw [cstr_cstr]⟩

theorem doCb_of_hashed (h : Hashed filter elt) :
    doCb sub (hashFilter filter) s elt =
      ((sub s.world elt).1.map fun rv => rv.bmod (2 ^ 32),
        ⟨s.calls ++ [elt], (sub s.world elt).2⟩) := by
  refine if_neg ?_
  unfold hashFilter
  rcases h with rfl | hmem
  · simp
  · split_ifs <;> simp [hmem]

theorem aprTableDo_skip (h : ¬Hashed filter elt) :
    aprTableDo (doCb sub (hashFilter filter)) (elt :: table) s =
      aprTableDo (doCb sub (hashFilter filter)) table s := by
  obtain ⟨hne, hmem⟩ := not_or.mp h
  have hskip : doCb sub (hashFilter filter) s elt = (some 1, s) := by
    refine if_pos ?_
    rw [hashFilter, if_pos hne]
    simpa using hmem
  rw [aprTableDo, hskip]
  exact if_pos Int.one_ne_zero

/-- The traversal goes on after a call that has not stored a 0. -/
theorem aprTableDo_go (h : Hashed filter elt) (hsub : sub s.world elt = (some rv, world))
    (hdvd : ¬2 ^ 32 ∣ rv) :
    aprTableDo (doCb sub (hashFilter filter)) (elt :: table) s =
      aprTableDo (doCb sub (hashFilter filter)) table ⟨s.calls ++ [elt], world⟩ := by
  have hne : rv.bmod (2 ^ 32) ≠ 0 := fun heq => hdvd (Int.dvd_iff_bmod_eq_zero.mpr heq)
  rw [aprTableDo, doCb_of_hashed h, hsub]
  exact if_pos hne

/-- It ends with a call that has, or in which the sub has died. -/
theorem aprTableDo_stop (h : Hashed filter elt)
    (hsub : ∀ rv, (sub s.world elt).1 = some rv → 2 ^ 32 ∣ rv) :
    (aprTableDo (doCb sub (hashFilter filter)) (elt :: table) s).calls = s.calls ++ [elt] := by
  rw [aprTableDo, doCb_of_hashed h]
  rcases hcall : sub s.world elt with ⟨_ | rv, world⟩
  · rfl
  · have hzero : rv.bmod (2 ^ 32) = 0 := Int.dvd_iff_bmod_eq_zero.mp (hsub rv (by rw [hcall]))
    exact congrArg DoState.calls (if_neg (not_not.mpr hzero))

/-- A call is made only for an entry whose key the hash has. -/
theorem exists_calls (sub : Callback σ) (table : AprTable) (s : DoState σ) : ∃ more,
    (aprTableDo (doCb sub (hashFilter filter)) table s).calls = s.calls ++ more ∧
      ∀ elt ∈ more, Hashed filter elt := by
  induction table generalizing s with
  | nil => exact ⟨[], (List.append_nil _).symm, fun _ hmem => nomatch hmem⟩
  | cons elt table ih =>
      by_cases hhashed : Hashed filter elt
      · have hone : ∀ elt' ∈ [elt], Hashed filter elt' := by simpa using hhashed
        rcases hsub : sub s.world elt with ⟨_ | rv, world⟩
        · exact ⟨[elt], aprTableDo_stop hhashed (by simp [hsub]), hone⟩
        by_cases hdvd : 2 ^ 32 ∣ rv
        · exact ⟨[elt], aprTableDo_stop hhashed (by simpa [hsub] using hdvd), hone⟩
        · obtain ⟨more, hcalls, hmore⟩ := ih ⟨s.calls ++ [elt], world⟩
          refine ⟨elt :: more, ?_, List.forall_mem_cons.mpr ⟨hhashed, hmore⟩⟩
          rw [aprTableDo_go hhashed hsub hdvd, hcalls, List.append_assoc, List.singleton_append]
      · rw [aprTableDo_skip hhashed]
        exact ih s

theorem callsUntil_eq_nil_iff {elts : List (Bytes × Bytes)} :
    callsUntil sub elts world = [] ↔ elts = [] := by
  cases elts <;> simp [callsUntil]

/-- The calls for the rest of a table. -/
theorem aprTableDo_calls_iff (table : AprTable) (s : DoState σ) :
    (aprTableDo (doCb sub (hashFilter filter)) table s).calls =
        s.calls ++ callsUntil sub (table.filter (InFilter filter)) s.world ↔
      DoOk sub filter (table.filter (InFilter filter)) s.world := by
  induction table generalizing s with
  | nil => exact iff_of_true (List.append_nil _).symm trivial
  | cons elt table ih =>
      by_cases hfilter : InFilter filter elt
      swap
      · -- neither the table nor the hash has the key
        rw [aprTableDo_skip (mt Hashed.inFilter hfilter),
          List.filter_cons_of_neg (by simpa using hfilter)]
        exact ih s
      rw [List.filter_cons_of_pos (by simpa using hfilter), callsUntil, DoOk]
      by_cases hhashed : Hashed filter elt
      swap
      · -- the entry is missed
        refine iff_of_false ?_ fun h => hhashed h.1
        obtain ⟨more, hcalls, hmore⟩ := exists_calls sub (elt :: table) s
        rw [hcalls, List.append_cancel_left_eq]
        rintro rfl
        exact hhashed (hmore elt List.mem_cons_self)
      rw [and_iff_right hhashed]
      rcases hsub : sub s.world elt with ⟨_ | rv, world⟩
      · rw [aprTableDo_stop hhashed (by simp [hsub])]
        exact iff_of_true rfl trivial
      by_cases hdvd : 2 ^ 32 ∣ rv
      · rw [aprTableDo_stop hhashed (by simpa [hsub] using hdvd), List.append_cancel_left_eq]
        simp only [List.cons.injEq, true_and]
        by_cases hzero : rv = 0
        · simp [hzero]
        · -- the `int` is 0, and what is returned is not
          rw [if_pos hzero, eq_comm, callsUntil_eq_nil_iff]
          refine ⟨fun hnil _ => ⟨fun _ => hnil, ?_⟩, fun h => (h hzero).1 hdvd⟩
          rw [hnil]
          trivial
      · have hzero : rv ≠ 0 := by
          rintro rfl
          exact hdvd (Int.dvd_zero _)
        have hrest := ih ⟨s.calls ++ [elt], world⟩
        rw [aprTableDo_go hhashed hsub hdvd]
        simp only [if_pos hzero, List.append_assoc, List.singleton_append] at hrest ⊢
        rw [hrest]
        exact ⟨fun h _ => ⟨fun hdvd' => absurd hdvd' hdvd, h⟩, fun h => (h hzero).2⟩

/-- The sub is called for the entries that the filter keys select, until it returns 0, if and
only if these are spelled as the filter keys are and no call for one of them that is not the
last returns a multiple of `2 ^ 32` other than 0. -/
theorem tableDo_calls_iff (sub : Callback σ) (filter : List Bytes) (table : AprTable) (world : σ) :
    (tableDo sub filter table world).calls =
        callsUntil sub (table.filter (InFilter filter)) world ↔
      DoOk sub filter (table.filter (InFilter filter)) world :=
  aprTableDo_calls_iff table ⟨[], world⟩

/-- A filter key that is not spelled as the key of the entry is, and a call that returns
`2 ^ 32` for the first of two entries. -/
theorem tableDo_calls_fails :
    (tableDo (fun _ _ => (some 1, ())) [ascii "foo"] [(ascii "Foo", ascii "1")] ()).calls ≠
      callsUntil (fun _ _ => (some 1, ()))
        ([(ascii "Foo", ascii "1")].filter (InFilter [ascii "foo"])) () ∧
    (tableDo (fun _ _ => (some (2 ^ 32), ())) []
        [(ascii "a", ascii "1"), (ascii "b", ascii "2")] ()).calls ≠
      callsUntil (fun _ _ => (some (2 ^ 32), ()))
        ([(ascii "a", ascii "1"), (ascii "b", ascii "2")].filter (InFilter [])) () := by
  decide

end ModPerl
