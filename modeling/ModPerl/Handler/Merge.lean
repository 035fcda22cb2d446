import ModPerl.Handler.Lookup

/-!
# Merging handler arrays

With `+MergeHandlers` the handlers of a container are merged onto those of its
parent.  The merge goes through the two arrays in nested loops and pushes a
handler of the container whenever it differs from the one handler of the parent
that it is compared with: the result is right for a parent with one handler, and
otherwise only if there is nothing to push.

The functions are those of `modperl_handler.c`, `modperl_mgv.c` and
`modperl_config.c`.  A result of `none` is an access to an array that is not
there, or the comparison of a name that is not there.
-/

namespace ModPerl

open PoolArray PoolArray.Memory

/-- `modperl_mgv_equal`: the parts are compared as far as both have any. -/
def mgvEqual : List Bytes → List Bytes → Bool
  | name₁ :: mgv₁, name₂ :: mgv₂ => name₁ = name₂ && mgvEqual mgv₁ mgv₂
  | _, _ => true

/-- `modperl_handler_equal` -/
def handlerEqual (h₁ h₂ : Handler) : Option Bool :=
  match h₁.mgvCv, h₂.mgvCv with
  | some mgv₁, some mgv₂ => some (mgvEqual mgv₁ mgv₂)
  | _, _ =>
      match h₁.name, h₂.name with
      | some name₁, some name₂ => some (name₁ = name₂)
      | _, _ => none

/-- One round of the inner loop: `base_h[i]` is compared with `add_h[j]`. -/
def mergeRound (baseH addH mrgA i j : ℕ) (m : Memory Handler) : Option (Memory Handler) :=
  match m.item baseH i, m.item addH j with
  | some h₁, some h₂ =>
      match handlerEqual h₁ h₂ with
      | none => none
      | some true => some m
      | some false => m.push mrgA h₂
  | _, _ => none

/-- `modperl_handler_array_merge`, for arrays that may be missing. -/
def handlerArrayMerge (m : Memory Handler) (baseA addA : Option ℕ) :
    Option (Memory Handler × Option ℕ) :=
  match addA, baseA with
  | none, baseA => some (m, baseA)
  | addA, none => some (m, addA)
  | some addA, some baseA =>
      match m.copy baseA, m.headers[baseA]?, m.headers[addA]? with
      | some (m, mrgA), some base, some add =>
          ((List.range base.nelts).foldlM (fun m i =>
            (List.range add.nelts).foldlM (fun m j =>
              mergeRound base.elts add.elts mrgA i j m) m) m).map fun m => (m, some mrgA)
      | _, _, _ => none

/-- `merge_handlers` -/
def mergeHandlers (mergeFlag : Bool) (m : Memory Handler) (base add : Option ℕ) :
    Option (Memory Handler × Option ℕ) :=
  if mergeFlag then handlerArrayMerge m base add else some (m, add <|> base)

/-- What is to be pushed for one handler of the parent, if it can be compared
with all handlers of the container. -/
def different (x : Handler) : List Handler → Option (List Handler)
  | [] => some []
  | y :: ys =>
      match handlerEqual x y with
      | none => none
      | some true => different x ys
      | some false => (different x ys).map (y :: ·)

/-- What is pushed for all handlers of the parent. -/
def pushedFor : List Handler → List Handler → Option (List Handler)
  | [], _ => some []
  | x :: xs, ys =>
      match different x ys, pushedFor xs ys with
      | some zs, some rest => some (zs ++ rest)
      | _, _ => none

/-- The handlers of the container that no handler of the parent equals. -/
def onlyInAdd (xs ys : List Handler) : List Handler :=
  ys.filter fun y => ∀ x ∈ xs, handlerEqual x y ≠ some true

/-- In the loops: the arrays that are merged are where they were found, and the new one
holds these handlers. -/
structure Merging (baseA addA mrgA : ℕ) (base add : Header) (xs ys zs : List Handler)
    (m : Memory Handler) : Prop where
  separate : m.Separate
  base_ne : baseA ≠ mrgA
  add_ne : addA ≠ mrgA
  base_header : m.headers[baseA]? = some base
  add_header : m.headers[addA]? = some add
  base_holds : m.Holds baseA xs
  add_holds : m.Holds addA ys
  mrg_holds : m.Holds mrgA zs

namespace Merging

variable {baseA addA mrgA i j : ℕ} {base add : Header} {xs ys zs : List Handler}
  {m : Memory Handler} {x y : Handler}

theorem item {a : ℕ} {header : Header} {xs : List Handler} (hholds : m.Holds a xs)
    (hheader : m.headers[a]? = some header) (hx : xs[i]? = some x) :
    m.item header.elts i = some x := by
  obtain ⟨header', hheader', -, hitem⟩ := hholds.item
  obtain rfl := Option.some.inj (hheader.symm.trans hheader')
  rw [hitem i (List.getElem?_eq_some_iff.mp hx).1, hx]

/-- One comparison. -/
theorem round (h : Merging baseA addA mrgA base add xs ys zs m) (hx : xs[i]? = some x)
    (hy : ys[j]? = some y) :
    match handlerEqual x y with
    | none => mergeRound base.elts add.elts mrgA i j m = none
    | some true => mergeRound base.elts add.elts mrgA i j m = some m
    | some false => ∃ m', mergeRound base.elts add.elts mrgA i j m = some m' ∧
        Merging baseA addA mrgA base add xs ys (zs ++ [y]) m' := by
  have hbase := item h.base_holds h.base_header hx
  have hadd := item h.add_holds h.add_header hy
  unfold mergeRound
  simp only [hbase, hadd]
  cases handlerEqual x y with
  | none => rfl
  | some same =>
      cases same with
      | true => rfl
      | false =>
          obtain ⟨m', hpush, hholds, hsep, hothers⟩ := h.mrg_holds.push h.separate y
          obtain ⟨hbase', hheader⟩ := hothers h.base_ne h.base_holds
          obtain ⟨hadd', hheader'⟩ := hothers h.add_ne h.add_holds
          exact ⟨m', hpush, hsep, h.base_ne, h.add_ne, hheader.trans h.base_header,
            hheader'.trans h.add_header, hbase', hadd', hholds⟩

/-- One handler of the parent is compared with those of the container. -/
theorem row (h : Merging baseA addA mrgA base add xs ys zs m) (hx : xs[i]? = some x)
    (js : List ℕ) (hjs : ∀ j ∈ js, j < ys.length) :
    match different x (js.filterMap (ys[·]?)) with
    | none => js.foldlM (fun m j => mergeRound base.elts add.elts mrgA i j m) m = none
    | some new =>
        ∃ m', js.foldlM (fun m j => mergeRound base.elts add.elts mrgA i j m) m = some m' ∧
          Merging baseA addA mrgA base add xs ys (zs ++ new) m' := by
  induction js generalizing m zs with
  | nil => exact ⟨m, rfl, by rwa [List.append_nil]⟩
  | cons j js ih =>
      obtain ⟨y, hy⟩ : ∃ y, ys[j]? = some y :=
        ⟨_, List.getElem?_eq_getElem (hjs j List.mem_cons_self)⟩
      have hrest : ∀ j ∈ js, j < ys.length := fun j hj => hjs j (List.mem_cons_of_mem _ hj)
      -- each comparison pushes one handler or none, and one that faults ends the row
      have hround := h.round hx hy
      rw [List.filterMap_cons_some hy, different, List.foldlM_cons]
      cases hequal : handlerEqual x y with
      | none =>
          rw [hequal] at hround
          simp only [hround]
          rfl
      | some same =>
          rw [hequal] at hround
          cases same with
          | true =>
              simp only at hround
              rw [hround]
              exact ih h hrest
          | false =>
              obtain ⟨m₁, hpush, hmerging⟩ := hround
              rw [hpush]
              have hrow := ih hmerging hrest
              cases hdifferent : different x (js.filterMap (ys[·]?)) with
              | none =>
                  rw [hdifferent] at hrow
                  exact hrow
              | some new =>
                  rw [hdifferent] at hrow
                  obtain ⟨m', hfold, hmerging'⟩ := hrow
                  refine ⟨m', hfold, ?_⟩
                  rwa [List.append_assoc] at hmerging'

theorem filterMap_range (l : List Handler) : (List.range l.length).filterMap (l[·]?) = l := by
  induction l with
  | nil => rfl
  | cons x l ih =>
      rw [List.length_cons, List.range_succ_eq_map,
        List.filterMap_cons_some List.getElem?_cons_zero, List.filterMap_map]
      exact congrArg (x :: ·) ih

/-- All comparisons. -/
theorem rows (h : Merging baseA addA mrgA base add xs ys zs m) (is : List ℕ)
    (his : ∀ i ∈ is, i < xs.length) :
    match pushedFor (is.filterMap (xs[·]?)) ys with
    | none => is.foldlM (fun m i => (List.range ys.length).foldlM (fun m j =>
        mergeRound base.elts add.elts mrgA i j m) m) m = none
    | some new => ∃ m', is.foldlM (fun m i => (List.range ys.length).foldlM (fun m j =>
        mergeRound base.elts add.elts mrgA i j m) m) m = some m' ∧
        Merging baseA addA mrgA base add xs ys (zs ++ new) m' := by
  induction is generalizing m zs with
  | nil => exact ⟨m, rfl, by rwa [List.append_nil]⟩
  | cons i is ih =>
      obtain ⟨x, hx⟩ : ∃ x, xs[i]? = some x :=
        ⟨_, List.getElem?_eq_getElem (his i List.mem_cons_self)⟩
      have hrest : ∀ i ∈ is, i < xs.length := fun i hi => his i (List.mem_cons_of_mem _ hi)
      have hrow := h.row hx (List.range ys.length) fun j hj => List.mem_range.mp hj
      rw [filterMap_range] at hrow
      rw [List.filterMap_cons_some hx, pushedFor, List.foldlM_cons]
      cases hdifferent : different x ys with
      | none =>
          rw [hdifferent] at hrow
          simp only at hrow ⊢
          rw [hrow]
          rfl
      | some new =>
          -- what this handler pushes stands before what the rest pushes
          rw [hdifferent] at hrow
          obtain ⟨m₁, hfold, hmerging⟩ := hrow
          rw [hfold]
          have hrows := ih hmerging hrest
          cases hpushed : pushedFor (is.filterMap (xs[·]?)) ys with
          | none =>
              rw [hpushed] at hrows
              exact hrows
          | some rest =>
              rw [hpushed] at hrows
              obtain ⟨m', hfold', hmerging'⟩ := hrows
              refine ⟨m', hfold', ?_⟩
              rwa [List.append_assoc] at hmerging'

end Merging

/-- What the merge of two arrays is: the handlers of the first, and what is pushed
for each of them. -/
theorem handlerArrayMerge_spec {m : Memory Handler} {baseA addA : ℕ} {xs ys : List Handler}
    (hsep : m.Separate) (hbase : m.Holds baseA xs) (hadd : m.Holds addA ys) :
    match pushedFor xs ys with
    | none => handlerArrayMerge m (some baseA) (some addA) = none
    | some new => ∃ m' mrgA, handlerArrayMerge m (some baseA) (some addA) = some (m', some mrgA) ∧
        m'.Holds mrgA (xs ++ new) ∧ m'.Holds baseA xs ∧ m'.Holds addA ys := by
  obtain ⟨base, hbase_header, hbase_nelts, -⟩ := hbase.item
  obtain ⟨add, hadd_header, hadd_nelts, -⟩ := hadd.item
  obtain ⟨m₁, mrgA, hcopy, hmrg, hsep', hstays⟩ := hbase.copy hsep
  obtain ⟨⟨hbase', hbase_same⟩, hbase_ne⟩ := hstays hbase
  obtain ⟨⟨hadd', hadd_same⟩, hadd_ne⟩ := hstays hadd
  have hmerging : Merging baseA addA mrgA base add xs ys xs m₁ :=
    ⟨hsep', hbase_ne, hadd_ne, hbase_same.trans hbase_header, hadd_same.trans hadd_header, hbase',
      hadd', hmrg⟩
  have hrows := hmerging.rows (List.range xs.length) fun i hi => List.mem_range.mp hi
  rw [Merging.filterMap_range] at hrows
  simp only [handlerArrayMerge, hcopy, hbase_header, hadd_header, hbase_nelts, hadd_nelts]
  cases hpushed : pushedFor xs ys with
  | none =>
      rw [hpushed] at hrows
      simp only at hrows ⊢
      rw [hrows]
      rfl
  | some new =>
      rw [hpushed] at hrows
      obtain ⟨m', hfold, hdone⟩ := hrows
      refine ⟨m', mrgA, ?_, hdone.mrg_holds, hdone.base_holds, hdone.add_holds⟩
      rw [hfold]
      rfl

/-! ## When the merge is right -/

/-- The two handlers can be compared. -/
def Comparable (x y : Handler) : Prop := (handlerEqual x y).isSome

/-- The handlers of the container that a handler of the parent differs from. -/
def differing (ys : List Handler) (x : Handler) : List Handler :=
  ys.filter fun y => handlerEqual x y = some false

variable {x y : Handler} {xs ys zs : List Handler}

theorem different_eq_some_iff :
    different x ys = some zs ↔ (∀ y ∈ ys, Comparable x y) ∧ zs = differing ys x := by
  induction ys generalizing zs with
  | nil => simp [different, differing, eq_comm]
  | cons y ys ih =>
      rw [different, differing, List.forall_mem_cons, Comparable, List.filter_cons]
      cases hequal : handlerEqual x y with
      | none => simp
      | some same =>
          cases same with
          | true => simp [ih, differing]
          | false => simp [ih, differing, eq_comm]

theorem pushedFor_eq_some_iff :
    pushedFor xs ys = some zs ↔
      (∀ x ∈ xs, ∀ y ∈ ys, Comparable x y) ∧ zs = xs.flatMap (differing ys) := by
  induction xs generalizing zs with
  | nil => simp [pushedFor, eq_comm]
  | cons x xs ih =>
      rw [pushedFor, List.forall_mem_cons, List.flatMap_cons]
      cases hdifferent : different x ys with
      | none =>
          have hnot : ¬∀ y ∈ ys, Comparable x y := fun h => by
            rw [different_eq_some_iff.mpr ⟨h, rfl⟩] at hdifferent
            cases hdifferent
          simp [hnot]
      | some new =>
          obtain ⟨hcomparable, rfl⟩ := different_eq_some_iff.mp hdifferent
          cases hrest : pushedFor xs ys with
          | none =>
              have hnot : ¬∀ x ∈ xs, ∀ y ∈ ys, Comparable x y := fun h => by
                rw [ih.mpr ⟨h, rfl⟩] at hrest
                cases hrest
              simp [hnot]
          | some rest =>
              obtain ⟨hcomparable', rfl⟩ := ih.mp hrest
              simp only [Option.some_inj]
              exact ⟨fun h => ⟨⟨hcomparable, hcomparable'⟩, h.symm⟩, fun h => h.2.symm⟩

theorem comparable_cases (h : Comparable x y) :
    handlerEqual x y = some true ∨ handlerEqual x y = some false := by
  unfold Comparable at h
  cases hequal : handlerEqual x y with
  | none =>
      rw [hequal] at h
      cases h
  | some same => cases same <;> simp

/-- A handler that no handler of the parent equals differs from each. -/
theorem onlyInAdd_sublist (hx : x ∈ xs) (hcomparable : ∀ y ∈ ys, Comparable x y) :
    (onlyInAdd xs ys).Sublist (differing ys x) := by
  have hfilter : onlyInAdd xs ys = (differing ys x).filter
      fun y => ∀ x ∈ xs, handlerEqual x y ≠ some true := by
    rw [differing, List.filter_filter]
    refine List.filter_congr fun y hy => ?_
    have hdiffers : (∀ x ∈ xs, handlerEqual x y ≠ some true) → handlerEqual x y = some false :=
      fun h => (comparable_cases (hcomparable y hy)).resolve_left (h x hx)
    by_cases hall : ∀ x ∈ xs, handlerEqual x y ≠ some true
    · rw [hdiffers hall, decide_eq_true hall]
      rfl
    · simp only [hall, decide_false, Bool.false_and]
  rw [hfilter]
  exact List.filter_sublist

/-- With one handler of the parent, what differs from it is what is not there. -/
theorem onlyInAdd_singleton (hcomparable : ∀ y ∈ ys, Comparable x y) :
    onlyInAdd [x] ys = differing ys x := by
  refine List.filter_congr fun y hy => ?_
  rcases comparable_cases (hcomparable y hy) with h | h <;> simp [h]

/-- With two handlers of the parent or more, what is pushed is as long as what is
pushed for the first and for the second together. -/
theorem length_pushed {x' : Handler} {rest : List Handler} :
    ((x :: x' :: rest).flatMap (differing ys)).length =
      (differing ys x).length + (differing ys x').length +
        (rest.flatMap (differing ys)).length := by
  rw [List.flatMap_cons, List.flatMap_cons, List.length_append, List.length_append, Nat.add_assoc]

/-- Nothing is pushed for any of the parent's handlers exactly if all are equal. -/
theorem pushed_eq_nil_iff (hcomparable : ∀ x ∈ xs, ∀ y ∈ ys, Comparable x y) :
    xs.flatMap (differing ys) = [] ↔ ∀ x ∈ xs, ∀ y ∈ ys, handlerEqual x y = some true := by
  rw [List.flatMap_eq_nil_iff]
  refine forall₂_congr fun x hx => ?_
  rw [differing, List.filter_eq_nil_iff]
  refine forall₂_congr fun y hy => ?_
  rcases comparable_cases (hcomparable x hx y hy) with h | h <;> simp [h]

/-- Two handlers of the parent push something only if they push too much. -/
theorem pushed_eq_nil_of_two {x' : Handler} {rest : List Handler}
    (hcomparable : ∀ z ∈ x :: x' :: rest, ∀ y ∈ ys, Comparable z y)
    (hpushed : onlyInAdd (x :: x' :: rest) ys = (x :: x' :: rest).flatMap (differing ys)) :
    (x :: x' :: rest).flatMap (differing ys) = [] := by
  have hfirst : x ∈ x :: x' :: rest := List.mem_cons_self
  have hsecond : x' ∈ x :: x' :: rest := List.mem_cons_of_mem x List.mem_cons_self
  have hle := (onlyInAdd_sublist hfirst (hcomparable x hfirst)).length_le
  have hle' := (onlyInAdd_sublist hsecond (hcomparable x' hsecond)).length_le
  have hlength := congrArg List.length hpushed
  rw [length_pushed] at hlength
  apply List.eq_nil_of_length_eq_zero
  rw [length_pushed]
  omega

/-- The parent's handlers are pushed for, each of those of the container once,
exactly if there is one handler of the parent, or nothing to push for any. -/
theorem pushedFor_eq_onlyInAdd_iff :
    pushedFor xs ys = some (onlyInAdd xs ys) ↔
      ys = [] ∨ (∃ x, xs = [x] ∧ ∀ y ∈ ys, Comparable x y) ∨
        xs ≠ [] ∧ ∀ x ∈ xs, ∀ y ∈ ys, handlerEqual x y = some true := by
  rw [pushedFor_eq_some_iff]
  constructor
  · rintro ⟨hcomparable, hpushed⟩
    -- two handlers of the parent push twice whatever differs from both
    match xs with
    | [] =>
        refine .inl ?_
        rw [List.flatMap_nil, onlyInAdd] at hpushed
        simpa using hpushed
    | [x] => exact .inr (.inl ⟨x, rfl, hcomparable x List.mem_cons_self⟩)
    | x :: x' :: rest =>
        refine .inr (.inr ⟨List.cons_ne_nil _ _, ?_⟩)
        exact (pushed_eq_nil_iff hcomparable).mp (pushed_eq_nil_of_two hcomparable hpushed)
  · rintro (rfl | ⟨x, rfl, hcomparable⟩ | ⟨hne, hequal⟩)
    · refine ⟨fun _ _ _ hy => absurd hy List.not_mem_nil, ?_⟩
      have hnone : xs.flatMap (differing []) = [] := List.flatMap_eq_nil_iff.mpr fun _ _ => rfl
      rw [hnone]
      rfl
    · refine ⟨List.forall_mem_singleton.mpr hcomparable, ?_⟩
      rw [onlyInAdd_singleton hcomparable, List.flatMap_cons, List.flatMap_nil, List.append_nil]
    · have hcomparable : ∀ x ∈ xs, ∀ y ∈ ys, Comparable x y := fun x hx y hy => by
        rw [Comparable, hequal x hx y hy]
        rfl
      refine ⟨hcomparable, ?_⟩
      obtain ⟨x, hx⟩ := List.exists_mem_of_ne_nil xs hne
      rw [(pushed_eq_nil_iff hcomparable).mpr hequal, onlyInAdd, List.filter_eq_nil_iff]
      intro y hy hdiffers
      rw [decide_eq_true_iff] at hdiffers
      exact hdiffers x hx (hequal x hx y hy)

/-- The handlers of a place that may have no array. -/
def HoldsAt (m : Memory Handler) (a : Option ℕ) (xs : List Handler) : Prop :=
  match a with
  | none => xs = []
  | some a => m.Holds a xs

/-- The merge of a container onto its parent gives the handlers of the parent and
those that only the container has, each once, exactly if the parent has no array
or one handler, or every handler of the container is also one of each of the
parent's. -/
theorem merged_handlers_iff {m : Memory Handler} {base add : Option ℕ} {xs ys : List Handler}
    (hsep : m.Separate) (hbase : HoldsAt m base xs) (hadd : HoldsAt m add ys) :
    (∃ m' a, mergeHandlers true m base add = some (m', a) ∧
        HoldsAt m' a (xs ++ onlyInAdd xs ys)) ↔
      base = none ∨ ys = [] ∨ (∃ x, xs = [x] ∧ ∀ y ∈ ys, Comparable x y) ∨
        xs ≠ [] ∧ ∀ x ∈ xs, ∀ y ∈ ys, handlerEqual x y = some true := by
  rw [← pushedFor_eq_onlyInAdd_iff]
  cases base with
  | none =>
      refine iff_of_true ⟨m, add, ?_, ?_⟩ (.inl rfl)
      · cases add <;> rfl
      · obtain rfl : xs = [] := hbase
        have hall : onlyInAdd [] ys = ys := by simp [onlyInAdd]
        rwa [hall]
  | some baseA =>
      cases add with
      | none =>
          obtain rfl : ys = [] := hadd
          refine iff_of_true ⟨m, some baseA, rfl, ?_⟩ (.inr ?_)
          · exact (List.append_nil xs).symm ▸ hbase
          · exact pushedFor_eq_onlyInAdd_iff.mpr (.inl rfl)
      | some addA =>
          -- only here do both levels have an array, and the merge loops run
          have hmerge := handlerArrayMerge_spec hsep hbase hadd
          rw [or_iff_right (Option.some_ne_none baseA)]
          constructor
          · rintro ⟨m', a, hresult, hholds⟩
            rw [mergeHandlers, if_pos rfl] at hresult
            cases hpushed : pushedFor xs ys with
            | none =>
                rw [hpushed] at hmerge
                cases hmerge.symm.trans hresult
            | some new =>
                rw [hpushed] at hmerge
                obtain ⟨m₁, mrgA, hmerged, hnew, -⟩ := hmerge
                obtain ⟨rfl, rfl⟩ := Prod.mk.inj (Option.some.inj (hmerged.symm.trans hresult))
                rw [List.append_cancel_left (hnew.unique hholds)]
          · intro hpushed
            rw [hpushed] at hmerge
            obtain ⟨m', mrgA, hmerged, hnew, -⟩ := hmerge
            exact ⟨m', some mrgA, hmerged, hnew⟩

/-- The arrays of a parent and of a container, and no others. -/
def parentAndContainer (xs ys : List Handler) : Memory Handler where
  headers := [⟨0, xs.length⟩, ⟨1, ys.length⟩]
  blocks := [xs.map some, ys.map some]

theorem parentAndContainer_holds (xs ys : List Handler) :
    (parentAndContainer xs ys).Separate ∧ HoldsAt (parentAndContainer xs ys) (some 0) xs ∧
      HoldsAt (parentAndContainer xs ys) (some 1) ys := by
  have hheader : ∀ {a : ℕ} {header : Header},
      (parentAndContainer xs ys).headers[a]? = some header → a < 2 ∧ header.elts = a := by
    intro a header h
    match a with
    | 0 => exact ⟨Nat.two_pos, (Option.some.inj h).symm ▸ rfl⟩
    | 1 => exact ⟨Nat.one_lt_two, (Option.some.inj h).symm ▸ rfl⟩
    | a + 2 => cases h
  refine ⟨⟨fun h => (hheader h).2 ▸ (hheader h).1, fun h h' helts => ?_⟩,
    ⟨⟨0, xs.length⟩, xs.map some, rfl, rfl, rfl, ?_⟩,
    ⟨⟨1, ys.length⟩, ys.map some, rfl, rfl, rfl, ?_⟩⟩
  · rw [← (hheader h).2, ← (hheader h').2, helts]
  · exact List.take_of_length_le (Nat.le_of_eq (List.length_map some))
  · exact List.take_of_length_le (Nat.le_of_eq (List.length_map some))

/-- A parent with one handler, and a container that has it and another. -/
theorem merged_handlers_one :
    ∃ m' a, mergeHandlers true
        (parentAndContainer [.new (ascii "A")] [.new (ascii "A"), .new (ascii "B")])
        (some 0) (some 1) = some (m', a) ∧
      HoldsAt m' a [.new (ascii "A"), .new (ascii "B")] := by
  obtain ⟨hsep, hbase, hadd⟩ :=
    parentAndContainer_holds [.new (ascii "A")] [.new (ascii "A"), .new (ascii "B")]
  refine (merged_handlers_iff hsep hbase hadd).mpr (.inr (.inr (.inl ⟨_, rfl, ?_⟩)))
  exact List.forall_mem_cons.mpr ⟨rfl, List.forall_mem_singleton.mpr rfl⟩

/-- With two handlers in the parent, the handler of the container is there twice. -/
theorem merged_handlers_twice :
    (∃ m' a, mergeHandlers true
        (parentAndContainer [.new (ascii "A"), .new (ascii "B")] [.new (ascii "C")])
        (some 0) (some 1) = some (m', some a) ∧
      m'.Holds a
        [.new (ascii "A"), .new (ascii "B"), .new (ascii "C"), .new (ascii "C")]) ∧
    ¬∃ m' a, mergeHandlers true
        (parentAndContainer [.new (ascii "A"), .new (ascii "B")] [.new (ascii "C")])
        (some 0) (some 1) = some (m', a) ∧
      HoldsAt m' a ([.new (ascii "A"), .new (ascii "B")] ++
        onlyInAdd [.new (ascii "A"), .new (ascii "B")] [.new (ascii "C")]) := by
  obtain ⟨hsep, hbase, hadd⟩ :=
    parentAndContainer_holds [.new (ascii "A"), .new (ascii "B")] [.new (ascii "C")]
  obtain ⟨m', mrgA, hmerged, hholds, -⟩ := handlerArrayMerge_spec hsep hbase hadd
  refine ⟨⟨m', mrgA, hmerged, hholds⟩, ?_⟩
  rintro ⟨m₁, a, hresult, hwanted⟩
  obtain ⟨rfl, rfl⟩ := Prod.mk.inj (Option.some.inj (hmerged.symm.trans hresult))
  exact absurd (hholds.unique hwanted) (by decide +kernel)

end ModPerl
