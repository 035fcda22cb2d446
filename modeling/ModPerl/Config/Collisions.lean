import ModPerl.Config.Directives
import Mathlib.Data.List.Nodup

/-!
# Names that meet in the hash of a tree

What `as_hash` keeps is found again by its path: the names and arguments of the
containers around a directive, and its own name.  Directives of one name at one path
become an array.  A container that is stored where there is a container of its name
and arguments takes its place, and one behind a directive of its name is put into a
string, or into an array, as if it were a hash.

The functions are those of `Apache2__Directive.h`.
-/

namespace ModPerl

/-! ## Paths -/

namespace Directives

/-- The name of a container, without the prefix `<`. -/
def bareName (directive : Bytes) : Bytes :=
  if directive.head? = some 60 then directive.tail else directive

/-- The arguments of a container, without the postfix `>`. -/
def bareArgs (args : Bytes) : Bytes := if args.getLast? = some 62 then args.dropLast else args

/-- The arguments of the directives of a name, inside of the containers of a path, in the
order of the tree. -/
def leavesAt : List (Bytes × Bytes) → Bytes → Directives → List Bytes
  | _, _, nil => []
  | [], name, node directive args firstChild next =>
      (if firstChild = nil ∧ directive = name then [args] else []) ++ leavesAt [] name next
  | (key, loc) :: path, name, node directive args firstChild next =>
      (if bareName directive = key ∧ bareArgs args = loc then leavesAt path name firstChild
        else []) ++ leavesAt ((key, loc) :: path) name next

/-- The containers of the first level, with their arguments. -/
def containers : Directives → List (Bytes × Bytes)
  | nil => []
  | node directive args firstChild next =>
      if firstChild = nil then next.containers
      else (bareName directive, bareArgs args) :: next.containers

/-- At each level, no container is behind a directive of its name, or behind a container of
its name and arguments. -/
def Separate : Directives → Prop
  | nil => True
  | node directive args firstChild next =>
      (if firstChild = nil then ∀ e ∈ next.containers, e.1 ≠ directive
        else (bareName directive, bareArgs args) ∉ next.containers) ∧
      firstChild.Separate ∧ next.Separate

/-- At each level, no container is behind a directive of its name. -/
def Insertable : Directives → Prop
  | nil => True
  | node directive _ firstChild next =>
      (firstChild = nil → ∀ e ∈ next.containers, e.1 ≠ directive) ∧
      firstChild.Insertable ∧ next.Insertable

/-- `args[args_len-1]` of a container is a byte of its arguments. -/
def readsInside : Directives → Bool
  | nil => true
  | node _ args firstChild next =>
      decide (firstChild = nil ∨ args ≠ []) && firstChild.readsInside && next.readsInside

end Directives

namespace Hash

/-- The strings under a key, those of an array in their order. -/
def strings (hash : Hash) (key : Bytes) : List Bytes :=
  match hash.fetch key with
  | some (.string s) => [s]
  | some (.array xs) => xs.filterMap fun
      | .string s => some s
      | _ => none
  | _ => []

/-- The hashes under a key; an array has one where a directive came behind a container. -/
def hashes (hash : Hash) (key : Bytes) : List Hash :=
  match hash.fetch key with
  | some (.hash subhash) => [subhash]
  | some (.array xs) => xs.filterMap fun
      | .hash subhash => some subhash
      | _ => none
  | _ => []

/-- The strings under a name, in the hashes of a path. -/
def leavesAt : List (Bytes × Bytes) → Bytes → Hash → List Bytes
  | [], name, hash => strings hash name
  | (key, loc) :: path, name, hash =>
      (hashes hash key).flatMap fun subhash => (hashes subhash loc).flatMap (leavesAt path name)

/-- A key is there once, also in a hash of the hash. -/
structure Keyed (hash : Hash) : Prop where
  nodup : (hash.map Prod.fst).Nodup
  subhash : ∀ key subhash, hash.fetch key = some (.hash subhash) →
    (subhash.map Prod.fst).Nodup

/-- There is no directive of this name. -/
def Open (hash : Hash) (key : Bytes) : Prop :=
  ∀ value, hash.fetch key = some value → ∃ subhash, value = .hash subhash

/-- A container can be stored under its name, and there is nothing under its arguments. -/
structure Free (hash : Hash) (e : Bytes × Bytes) : Prop where
  kind : hash.Open e.1
  empty : ∀ path name, leavesAt (e :: path) name hash = []

/-- The hash with one directive more. -/
structure DirectiveStored (hash : Hash) (key args : Bytes) (hash' : Hash) : Prop where
  keyed : hash'.Keyed
  leavesAt_eq : ∀ path name, leavesAt path name hash' =
    leavesAt path name hash ++ (Directives.node key args .nil .nil).leavesAt path name
  fetch_of_ne : ∀ k, key ≠ k → hash'.fetch k = hash.fetch k
  closed : ¬hash'.Open key

/-- The hash with what is in a container in place of what was under its name and arguments. -/
structure ContainerStored (hash : Hash) (key loc : Bytes) (subtree hash' : Hash) : Prop where
  keyed : hash'.Keyed
  strings_eq : ∀ name, strings hash' name = strings hash name
  inside : ∀ path name, leavesAt ((key, loc) :: path) name hash' = leavesAt path name subtree
  outside : ∀ e path name, e ≠ (key, loc) →
    leavesAt (e :: path) name hash' = leavesAt (e :: path) name hash
  fetch_of_ne : ∀ k, key ≠ k → hash'.fetch k = hash.fetch k
  stays_open : hash'.Open key

end Hash

/-- `as_hash` reads inside of its strings, and has each directive in its hash, at its path. -/
def Directives.Lossless (place : Hash → Bytes × Value → Hash) (tree : Directives) : Prop :=
  tree.readsInside ∧ ∃ hash, asHash place tree = some hash ∧
    ∀ path name, Hash.leavesAt path name hash = tree.leavesAt path name

/-- The loop adds each directive to what the hash has, at its path. -/
def Directives.Kept (place : Hash → Bytes × Value → Hash) (hash : Hash) (tree : Directives) :
    Prop :=
  ∃ hash', asHashLoop place hash tree = some hash' ∧
    ∀ path name, Hash.leavesAt path name hash' =
      Hash.leavesAt path name hash ++ tree.leavesAt path name

open Directives Hash

variable {place : Hash → Bytes × Value → Hash} {hash hash' subhash subtree : Hash}
  {key k loc args name directive : Bytes} {value : Value} {path : List (Bytes × Bytes)}
  {t child next : Directives}

/-! ## Keys -/

theorem fetch_perm (hnodup : (hash.map Prod.fst).Nodup) (hperm : hash.Perm hash') :
    hash.fetch key = hash'.fetch key := by
  induction hperm with
  | nil => rfl
  | cons e _ ih =>
      rw [fetch, fetch, ih (List.nodup_cons.mp hnodup).2]
  | swap e e' hash =>
      have hne : e'.1 ≠ e.1 := by
        rw [List.map_cons, List.map_cons, List.nodup_cons, List.mem_cons, not_or] at hnodup
        exact hnodup.1.1
      simp only [fetch]
      split_ifs with h₁ h₂
      · exact absurd (h₁.trans h₂.symm) hne
      · rfl
      · rfl
      · rfl
  | trans hperm _ ih ih' =>
      exact (ih hnodup).trans (ih' ((hperm.map Prod.fst).nodup_iff.mp hnodup))

/-- The keys stay different, and only the value of this key is another one. -/
theorem store_spec (hplace : ∀ hash e, (place hash e).Perm (e :: hash))
    (hnodup : (hash.map Prod.fst).Nodup) (key : Bytes) (value : Value) :
    ((store place hash key value).map Prod.fst).Nodup ∧
      ∀ k, (store place hash key value).fetch k =
        if key = k then some value else hash.fetch k := by
  obtain ⟨rest, hperm, hkey, hrest⟩ : ∃ rest : Hash,
      (store place hash key value).Perm ((key, value) :: rest) ∧
      (((key, value) :: rest).map Prod.fst).Nodup ∧
      ∀ k, key ≠ k → rest.fetch k = hash.fetch k := by
    cases hfetch : hash.fetch key with
    | none =>
        exact ⟨hash, Holds.store_of_none hplace value hfetch,
          List.nodup_cons.mpr ⟨Holds.fetch_eq_none_iff.mp hfetch, hnodup⟩, fun _ _ => rfl⟩
    | some old =>
        obtain ⟨rest, hperm, hreplace⟩ := Holds.exists_perm_of_fetch hfetch
        refine ⟨rest, Holds.store_of_some hfetch hreplace, ?_, fun k hk => ?_⟩
        · exact (hperm.map Prod.fst).nodup_iff.mp hnodup
        · rw [fetch_perm hnodup hperm, fetch, if_neg hk]
  have hstore := (hperm.map Prod.fst).nodup_iff.mpr hkey
  refine ⟨hstore, fun k => ?_⟩
  rw [fetch_perm hstore hperm, fetch]
  split_ifs with hk
  · rfl
  · exact hrest k hk

theorem leavesAt_empty (path : List (Bytes × Bytes)) (name : Bytes) :
    Hash.leavesAt path name [] = [] := by
  cases path <;> rfl

theorem keyed_nil : Keyed [] :=
  ⟨List.nodup_nil, fun _ _ h => nomatch h⟩

theorem keyed_store (hplace : ∀ hash e, (place hash e).Perm (e :: hash)) (hkeyed : hash.Keyed)
    (hvalue : ∀ subhash, value = .hash subhash → (subhash.map Prod.fst).Nodup) :
    Keyed (store place hash key value) := by
  obtain ⟨hnodup, hfetch⟩ := store_spec hplace hkeyed.nodup key value
  refine ⟨hnodup, fun k subhash h => ?_⟩
  rw [hfetch] at h
  split_ifs at h with hk
  · exact hvalue subhash (Option.some.inj h)
  · exact hkeyed.subhash k subhash h

/-! ## One directive -/

/-- A value that has the string behind the others, and no hash more. -/
theorem directiveStored_store (hplace : ∀ hash e, (place hash e).Perm (e :: hash))
    (hkeyed : hash.Keyed) (hvalue : ∀ subhash, value ≠ .hash subhash)
    (hstrings : strings [(key, value)] key = strings hash key ++ [args])
    (hhashes : hashes [(key, value)] key = hashes hash key) :
    hash.DirectiveStored key args (store place hash key value) := by
  obtain ⟨-, hfetch⟩ := store_spec hplace hkeyed.nodup key value
  refine ⟨keyed_store hplace hkeyed fun subhash h => absurd h (hvalue subhash),
    fun path name => ?_, fun k hk => by rw [hfetch, if_neg hk], fun hopen => ?_⟩
  · cases path with
    | nil =>
        simp only [Hash.leavesAt, Directives.leavesAt, true_and, List.append_nil]
        by_cases hk : key = name
        · subst hk
          rw [if_pos rfl, ← hstrings, strings, hfetch, if_pos rfl, strings, fetch, if_pos rfl]
        · rw [if_neg hk, List.append_nil, strings, hfetch, if_neg hk, ← strings]
    | cons e path =>
        have hsame : hashes (store place hash key value) e.1 = hashes hash e.1 := by
          by_cases hk : key = e.1
          · rw [← hk, ← hhashes, hashes, hfetch, if_pos rfl, hashes, fetch, if_pos rfl]
          · rw [hashes, hfetch, if_neg hk, ← hashes]
        rw [Hash.leavesAt, hsame, ← Hash.leavesAt]
        simp [Directives.leavesAt]
  · obtain ⟨subhash, hsubhash⟩ := hopen value (by rw [hfetch, if_pos rfl])
    exact hvalue subhash hsubhash

theorem insert_directive_spec (hplace : ∀ hash e, (place hash e).Perm (e :: hash))
    (hkeyed : hash.Keyed) (key args : Bytes) :
    ∃ hash', hash.insert place key args none = some hash' ∧
      hash.DirectiveStored key args hash' := by
  have hnot : ∀ (xs : List Value) subhash, Value.array xs ≠ .hash subhash :=
    fun _ _ h => nomatch h
  unfold Hash.insert
  cases hfetch : hash.fetch key with
  | none =>
      refine ⟨_, rfl, directiveStored_store hplace hkeyed (fun _ h => nomatch h) ?_ ?_⟩
      · simp [strings, fetch, hfetch]
      · simp [hashes, fetch, hfetch]
  | some value =>
      cases value with
      | array xs =>
          refine ⟨_, rfl, directiveStored_store hplace hkeyed (hnot _) ?_ ?_⟩
          · simp [strings, fetch, hfetch]
          · simp [hashes, fetch, hfetch]
      | string | scalar | hash =>
          refine ⟨_, rfl, directiveStored_store hplace hkeyed (hnot _) ?_ ?_⟩
          · simp [strings, fetch, hfetch]
          · simp [hashes, fetch, hfetch]

/-! ## One container -/

theorem open_of_insert (h : hash.insert place key loc (some value) = some hash') :
    hash.Open key := by
  intro old hold
  unfold Hash.insert at h
  rw [hold] at h
  cases old with
  | hash subhash => exact ⟨subhash, rfl⟩
  | string | scalar | array => cases h

theorem insert_container_spec (hplace : ∀ hash e, (place hash e).Perm (e :: hash))
    (hkeyed : hash.Keyed) (hopen : hash.Open key) (loc : Bytes) (subtree : Hash) :
    ∃ hash', hash.insert place key loc (some (.hash subtree)) = some hash' ∧
      hash.ContainerStored key loc subtree hash' := by
  obtain ⟨old, hinsert, hold, hstrings, hhashes⟩ : ∃ old : Hash,
      hash.insert place key loc (some (.hash subtree)) =
        some (store place hash key (.hash (store place old loc (.hash subtree)))) ∧
      (old.map Prod.fst).Nodup ∧ strings hash key = [] ∧
      ∀ path name a, (hashes hash key).flatMap (fun subhash =>
        (hashes subhash a).flatMap (Hash.leavesAt path name)) =
          (hashes old a).flatMap (Hash.leavesAt path name) := by
    unfold Hash.insert
    cases hfetch : hash.fetch key with
    | none =>
        refine ⟨[], rfl, List.nodup_nil, ?_, fun path name a => ?_⟩
        · simp [strings, hfetch]
        · simp [hashes, hfetch, fetch]
    | some value =>
        obtain ⟨subhash, rfl⟩ := hopen value hfetch
        refine ⟨subhash, rfl, hkeyed.subhash key subhash hfetch, ?_, fun path name a => ?_⟩
        · simp [strings, hfetch]
        · simp [hashes, hfetch]
  obtain ⟨hnodup, hfetch'⟩ := store_spec hplace hold loc (.hash subtree)
  obtain ⟨-, hfetch⟩ := store_spec hplace hkeyed.nodup key
    (.hash (store place old loc (.hash subtree)))
  refine ⟨_, hinsert, keyed_store hplace hkeyed fun subhash h => ?_, fun name => ?_,
    fun path name => ?_, fun e path name he => ?_, fun k hk => by rw [hfetch, if_neg hk],
    fun value h => ?_⟩
  · exact Value.hash.inj h ▸ hnodup
  · by_cases hk : key = name
    · rw [← hk, hstrings, strings, hfetch, if_pos rfl]
    · rw [strings, hfetch, if_neg hk, ← strings]
  · simp [Hash.leavesAt, hashes, hfetch, hfetch']
  · obtain ⟨k, a⟩ := e
    by_cases hk : key = k
    · subst hk
      have ha : loc ≠ a := fun heq => he (by rw [heq])
      rw [Hash.leavesAt, Hash.leavesAt, hhashes]
      simp only [hashes, hfetch, hfetch', if_true, if_neg ha, List.flatMap_singleton]
    · simp only [Hash.leavesAt, hashes, hfetch, if_neg hk]
  · rw [hfetch, if_pos rfl] at h
    exact ⟨_, (Option.some.inj h).symm⟩

/-- A container that was stored could be. -/
theorem containerStored_of_insert (hplace : ∀ hash e, (place hash e).Perm (e :: hash))
    (hkeyed : hash.Keyed)
    (h : hash.insert place key loc (some (.hash subtree)) = some hash') :
    hash.Open key ∧ hash.ContainerStored key loc subtree hash' := by
  have hopen := open_of_insert h
  obtain ⟨hash₁, hinsert, hstored⟩ := insert_container_spec hplace hkeyed hopen loc subtree
  exact ⟨hopen, Option.some.inj (hinsert.symm.trans h) ▸ hstored⟩

/-! ## Directives of a tree -/

theorem leavesAt_node (directive args : Bytes) (child next : Directives) :
    (node directive args child next).leavesAt path name =
      (node directive args child nil).leavesAt path name ++ next.leavesAt path name := by
  cases path <;> simp [Directives.leavesAt]

theorem leavesAt_container_nil (hchild : child ≠ nil) :
    (node directive args child nil).leavesAt [] name = [] := by
  simp [Directives.leavesAt, hchild]

theorem leavesAt_container_cons (e : Bytes × Bytes) :
    (node directive args child nil).leavesAt (e :: path) name =
      if e = (bareName directive, bareArgs args) then child.leavesAt path name else [] := by
  simp [Directives.leavesAt, Prod.ext_iff, eq_comm]

/-- A tree that is not empty has a directive at some path. -/
theorem exists_leavesAt_ne_nil (h : t ≠ nil) : ∃ path name, t.leavesAt path name ≠ [] := by
  induction t with
  | nil => exact absurd rfl h
  | node directive args child next ihc _ =>
      by_cases hchild : child = nil
      · exact ⟨[], directive, by simp [Directives.leavesAt, hchild]⟩
      · obtain ⟨path, name, hne⟩ := ihc hchild
        refine ⟨(bareName directive, bareArgs args) :: path, name, ?_⟩
        rw [leavesAt_node, leavesAt_container_cons, if_pos rfl]
        exact List.append_ne_nil_of_left_ne_nil hne _

/-! ## The loop -/

theorem asHashLoop_container (hchild : child ≠ nil) :
    asHashLoop place hash (node directive args child next) =
      (asHash place child).bind fun subtree =>
        (hash.insert place (bareName directive) (bareArgs args) (some (.hash subtree))).bind
          fun hash => asHashLoop place hash next := by
  cases child with
  | nil => exact absurd rfl hchild
  | node => rfl

/-- Nothing is in the hash that is not in the tree, and not in another order. -/
theorem asHashLoop_sublist (hplace : ∀ hash e, (place hash e).Perm (e :: hash))
    (hkeyed : hash.Keyed) (h : asHashLoop place hash t = some hash')
    (path : List (Bytes × Bytes)) (name : Bytes) :
    (Hash.leavesAt path name hash').Sublist
      (Hash.leavesAt path name hash ++ t.leavesAt path name) := by
  induction t generalizing hash hash' path with
  | nil =>
      cases h
      rw [Directives.leavesAt, List.append_nil]
  | node directive args child next ihc ihn =>
      by_cases hchild : child = nil
      · subst hchild
        obtain ⟨hash₁, hinsert, hstored⟩ := insert_directive_spec hplace hkeyed directive args
        rw [asHashLoop, hinsert, Option.bind_some] at h
        have hrest := ihn hstored.keyed h path
        rwa [hstored.leavesAt_eq, List.append_assoc, ← leavesAt_node] at hrest
      · rw [asHashLoop_container hchild] at h
        obtain ⟨subtree, hsubtree, h⟩ := Option.bind_eq_some_iff.mp h
        obtain ⟨hash₁, hinsert, h⟩ := Option.bind_eq_some_iff.mp h
        obtain ⟨-, hstored⟩ := containerStored_of_insert hplace hkeyed hinsert
        have hrest := ihn hstored.keyed h path
        rw [leavesAt_node]
        refine hrest.trans ?_
        rw [← List.append_assoc]
        refine List.Sublist.append_right ?_ _
        cases path with
        | nil =>
            rw [leavesAt_container_nil hchild, List.append_nil, Hash.leavesAt, Hash.leavesAt,
              hstored.strings_eq]
        | cons e path =>
            rw [leavesAt_container_cons]
            split_ifs with he
            · rw [he, hstored.inside]
              have hsub := ihc keyed_nil hsubtree path
              rw [leavesAt_empty, List.nil_append] at hsub
              exact hsub.trans (List.sublist_append_right _ _)
            · rw [hstored.outside e path name he, List.append_nil]

theorem asHash_sublist (hplace : ∀ hash e, (place hash e).Perm (e :: hash))
    (h : asHash place t = some hash) (path : List (Bytes × Bytes)) (name : Bytes) :
    (Hash.leavesAt path name hash).Sublist (t.leavesAt path name) := by
  have hsub := asHashLoop_sublist hplace keyed_nil h path name
  rwa [leavesAt_empty, List.nil_append] at hsub

/-! ## What is kept -/

/-- A directive is kept. -/
theorem kept_directive_iff {hash₁ : Hash}
    (hinsert : hash.insert place directive args none = some hash₁)
    (hstored : hash.DirectiveStored directive args hash₁) :
    Kept place hash (node directive args nil next) ↔ Kept place hash₁ next := by
  rw [Kept, asHashLoop, hinsert, Option.bind_some, Kept]
  refine exists_congr fun hash' => and_congr_right fun _ => forall_congr' fun path =>
    forall_congr' fun name => ?_
  rw [hstored.leavesAt_eq, leavesAt_node, List.append_assoc]

/-- Where nothing was under its name and arguments, a container is added. -/
theorem leavesAt_of_empty {hash₁ : Hash} (hchild : child ≠ nil)
    (hstored : hash.ContainerStored (bareName directive) (bareArgs args) subtree hash₁)
    (hempty : ∀ path name,
      Hash.leavesAt ((bareName directive, bareArgs args) :: path) name hash = [])
    (hinner : ∀ path name, Hash.leavesAt path name subtree = child.leavesAt path name)
    (path : List (Bytes × Bytes)) (name : Bytes) :
    Hash.leavesAt path name hash₁ =
      Hash.leavesAt path name hash ++ (node directive args child nil).leavesAt path name := by
  cases path with
  | nil =>
      rw [leavesAt_container_nil hchild, List.append_nil, Hash.leavesAt, Hash.leavesAt,
        hstored.strings_eq]
  | cons e path =>
      rw [leavesAt_container_cons]
      split_ifs with he
      · rw [he, hstored.inside, hempty, hinner, List.nil_append]
      · rw [hstored.outside e path name he, List.append_nil]

/-- A container is kept where it is free, if what is inside is kept. -/
theorem kept_container_iff (hplace : ∀ hash e, (place hash e).Perm (e :: hash))
    (hkeyed : hash.Keyed) (hchild : child ≠ nil) :
    Kept place hash (node directive args child next) ↔
      ∃ subtree hash₁, asHash place child = some subtree ∧
        (∀ path name, Hash.leavesAt path name subtree = child.leavesAt path name) ∧
        Free hash (bareName directive, bareArgs args) ∧
        hash.insert place (bareName directive) (bareArgs args) (some (.hash subtree)) =
          some hash₁ ∧ Kept place hash₁ next := by
  constructor
  · rintro ⟨hash', hloop, hkept⟩
    rw [asHashLoop_container hchild] at hloop
    obtain ⟨subtree, hsubtree, hloop⟩ := Option.bind_eq_some_iff.mp hloop
    obtain ⟨hash₁, hinsert, hloop⟩ := Option.bind_eq_some_iff.mp hloop
    obtain ⟨hopen, hstored⟩ := containerStored_of_insert hplace hkeyed hinsert
    -- at a path inside of the container, the lengths leave no room for what was there before
    have hroom : ∀ path name,
        Hash.leavesAt ((bareName directive, bareArgs args) :: path) name hash = [] ∧
        Hash.leavesAt path name subtree = child.leavesAt path name := by
      intro path name
      have hsub := asHash_sublist hplace hsubtree path name
      have hrest := (asHashLoop_sublist hplace hstored.keyed hloop
        ((bareName directive, bareArgs args) :: path) name).length_le
      rw [hkept, hstored.inside, leavesAt_node, leavesAt_container_cons, if_pos rfl] at hrest
      simp only [List.length_append] at hrest
      have hle := hsub.length_le
      exact ⟨List.eq_nil_of_length_eq_zero (by omega), hsub.eq_of_length (by omega)⟩
    have hempty := fun path name => (hroom path name).1
    have hinner := fun path name => (hroom path name).2
    refine ⟨subtree, hash₁, hsubtree, hinner, ⟨hopen, hempty⟩, hinsert, hash', hloop,
      fun path name => ?_⟩
    rw [hkept, leavesAt_node, ← List.append_assoc,
      leavesAt_of_empty hchild hstored hempty hinner]
  · rintro ⟨subtree, hash₁, hsubtree, hinner, hfree, hinsert, hash', hloop, hkept⟩
    obtain ⟨-, hstored⟩ := containerStored_of_insert hplace hkeyed hinsert
    refine ⟨hash', ?_, fun path name => ?_⟩
    · rw [asHashLoop_container hchild, hsubtree, Option.bind_some, hinsert, Option.bind_some, hloop]
    · rw [hkept, leavesAt_node directive, ← List.append_assoc,
        leavesAt_of_empty hchild hstored hfree.empty hinner]

/-! ## Where a container is free -/

theorem open_nil (key : Bytes) : Hash.Open [] key := by
  intro value hvalue
  cases hvalue

theorem free_nil (e : Bytes × Bytes) : Free [] e :=
  ⟨open_nil e.1, fun path name => leavesAt_empty (e :: path) name⟩

/-- Behind a directive, each other name is open as before. -/
theorem Hash.DirectiveStored.open_iff (h : hash.DirectiveStored key args hash') (k : Bytes) :
    hash'.Open k ↔ k ≠ key ∧ hash.Open k := by
  by_cases hk : k = key
  · exact iff_of_false (hk ▸ h.closed) fun h => h.1 hk
  · rw [Open, Open, h.fetch_of_ne k (Ne.symm hk)]
    exact (and_iff_right hk).symm

/-- Behind a directive, a container of another name is free as before. -/
theorem Hash.DirectiveStored.free_iff (h : hash.DirectiveStored key args hash')
    (e : Bytes × Bytes) : Free hash' e ↔ e.1 ≠ key ∧ Free hash e := by
  have hempty : ∀ path name,
      Hash.leavesAt (e :: path) name hash' = Hash.leavesAt (e :: path) name hash := by
    intro path name
    rw [h.leavesAt_eq]
    simp [Directives.leavesAt]
  constructor
  · rintro ⟨hopen, hnil⟩
    obtain ⟨hne, hopen'⟩ := (h.open_iff e.1).mp hopen
    exact ⟨hne, hopen', fun path name => by rw [← hempty, hnil]⟩
  · rintro ⟨hne, hopen, hnil⟩
    exact ⟨(h.open_iff e.1).mpr ⟨hne, hopen⟩, fun path name => by rw [hempty, hnil]⟩

/-- Behind a container, each name is open as before. -/
theorem Hash.ContainerStored.open_iff (h : hash.ContainerStored key loc subtree hash')
    (hopen : hash.Open key) (k : Bytes) : hash'.Open k ↔ hash.Open k := by
  by_cases hk : key = k
  · exact iff_of_true (hk ▸ h.stays_open) (hk ▸ hopen)
  · rw [Open, Open, h.fetch_of_ne k hk]

/-- Behind a container, each other one is free as before. -/
theorem Hash.ContainerStored.free_iff (h : hash.ContainerStored key loc subtree hash')
    (hopen : hash.Open key) (hne : ∃ path name, Hash.leavesAt path name subtree ≠ [])
    (e : Bytes × Bytes) : Free hash' e ↔ e ≠ (key, loc) ∧ Free hash e := by
  have hopens := h.open_iff hopen e.1
  constructor
  · rintro ⟨hopen', hnil⟩
    have hother : e ≠ (key, loc) := by
      rintro rfl
      obtain ⟨path, name, hleaf⟩ := hne
      exact hleaf (by rw [← h.inside, hnil])
    exact ⟨hother, hopens.mp hopen', fun path name => by rw [← h.outside e path name hother, hnil]⟩
  · rintro ⟨hother, hopen', hnil⟩
    exact ⟨hopens.mpr hopen', fun path name => by rw [h.outside e path name hother, hnil]⟩

/-! ## Where the loop comes to its end -/

theorem asHashLoop_isSome_iff (hplace : ∀ hash e, (place hash e).Perm (e :: hash))
    (hkeyed : hash.Keyed) :
    (asHashLoop place hash t).isSome ↔ t.Insertable ∧ ∀ e ∈ t.containers, hash.Open e.1 := by
  induction t generalizing hash with
  | nil => exact iff_of_true rfl ⟨trivial, List.forall_mem_nil _⟩
  | node directive args child next ihc ihn =>
      by_cases hchild : child = nil
      · subst hchild
        obtain ⟨hash₁, hinsert, hstored⟩ := insert_directive_spec hplace hkeyed directive args
        rw [asHashLoop, hinsert, Option.bind_some, ihn hstored.keyed]
        simp only [hstored.open_iff, Insertable, containers, if_true, true_and, true_imp_iff]
        constructor
        · rintro ⟨hnext, hopen⟩
          exact ⟨⟨fun e he => (hopen e he).1, hnext⟩, fun e he => (hopen e he).2⟩
        · rintro ⟨⟨hname, hnext⟩, hopen⟩
          exact ⟨hnext, fun e he => ⟨hname e he, hopen e he⟩⟩
      · have hinner : (asHash place child).isSome ↔ child.Insertable :=
          (ihc keyed_nil).trans ⟨fun h => h.1, fun h => ⟨h, fun e _ => open_nil e.1⟩⟩
        rw [asHashLoop_container hchild]
        simp only [Insertable, containers, hchild, if_false, false_imp_iff, true_and,
          List.mem_cons, forall_eq_or_imp]
        constructor
        · intro h
          obtain ⟨hash', h⟩ := Option.isSome_iff_exists.mp h
          obtain ⟨subtree, hsubtree, h⟩ := Option.bind_eq_some_iff.mp h
          obtain ⟨hash₁, hinsert, h⟩ := Option.bind_eq_some_iff.mp h
          obtain ⟨hopen, hstored⟩ := containerStored_of_insert hplace hkeyed hinsert
          obtain ⟨hnext, hopens⟩ :=
            (ihn hstored.keyed).mp (Option.isSome_iff_exists.mpr ⟨hash', h⟩)
          exact ⟨⟨hinner.mp (Option.isSome_iff_exists.mpr ⟨subtree, hsubtree⟩), hnext⟩, hopen,
            fun e he => (hstored.open_iff hopen e.1).mp (hopens e he)⟩
        · rintro ⟨⟨hsome, hnext⟩, hopen, hopens⟩
          obtain ⟨subtree, hsubtree⟩ := Option.isSome_iff_exists.mp (hinner.mpr hsome)
          obtain ⟨hash₁, hinsert, hstored⟩ :=
            insert_container_spec hplace hkeyed hopen (bareArgs args) subtree
          rw [hsubtree, Option.bind_some, hinsert, Option.bind_some, ihn hstored.keyed]
          exact ⟨hnext, fun e he => (hstored.open_iff hopen e.1).mpr (hopens e he)⟩

theorem asHash_isSome_iff (hplace : ∀ hash e, (place hash e).Perm (e :: hash)) :
    (asHash place t).isSome ↔ t.Insertable :=
  (asHashLoop_isSome_iff hplace keyed_nil).trans
    ⟨fun h => h.1, fun h => ⟨h, fun e _ => open_nil e.1⟩⟩

/-! ## The hash of a tree -/

theorem kept_iff (hplace : ∀ hash e, (place hash e).Perm (e :: hash)) (hkeyed : hash.Keyed) :
    Kept place hash t ↔ t.Separate ∧ ∀ e ∈ t.containers, Free hash e := by
  induction t generalizing hash with
  | nil =>
      refine iff_of_true ⟨hash, rfl, fun path name => ?_⟩ ⟨trivial, List.forall_mem_nil _⟩
      rw [Directives.leavesAt, List.append_nil]
  | node directive args child next ihc ihn =>
      by_cases hchild : child = nil
      · subst hchild
        obtain ⟨hash₁, hinsert, hstored⟩ := insert_directive_spec hplace hkeyed directive args
        rw [kept_directive_iff hinsert hstored, ihn hstored.keyed]
        simp only [hstored.free_iff, Separate, containers, if_true, true_and]
        constructor
        · rintro ⟨hseparate, hfree⟩
          exact ⟨⟨fun e he => (hfree e he).1, hseparate⟩, fun e he => (hfree e he).2⟩
        · rintro ⟨⟨hname, hseparate⟩, hfree⟩
          exact ⟨hseparate, fun e he => ⟨hname e he, hfree e he⟩⟩
      · have hinner : (∃ subtree, asHash place child = some subtree ∧
            ∀ path name, Hash.leavesAt path name subtree = child.leavesAt path name) ↔
            child.Separate := by
          have hkept := ihc keyed_nil
          simp only [Kept, leavesAt_empty, List.nil_append] at hkept
          exact hkept.trans ⟨fun h => h.1, fun h => ⟨h, fun e _ => free_nil e⟩⟩
        have hleaf : ∀ {subtree : Hash},
            (∀ path name, Hash.leavesAt path name subtree = child.leavesAt path name) →
            ∃ path name, Hash.leavesAt path name subtree ≠ [] := by
          intro subtree hleaves
          obtain ⟨path, name, hne⟩ := exists_leavesAt_ne_nil hchild
          exact ⟨path, name, by rwa [hleaves]⟩
        rw [kept_container_iff hplace hkeyed hchild]
        simp only [Separate, containers, if_neg hchild, List.mem_cons, forall_eq_or_imp]
        constructor
        · rintro ⟨subtree, hash₁, hsubtree, hleaves, hfree, hinsert, hkept⟩
          obtain ⟨-, hstored⟩ := containerStored_of_insert hplace hkeyed hinsert
          obtain ⟨hnext, hrest⟩ := (ihn hstored.keyed).mp hkept
          simp only [hstored.free_iff hfree.kind (hleaf hleaves)] at hrest
          exact ⟨⟨fun hmem => (hrest _ hmem).1 rfl, hinner.mp ⟨subtree, hsubtree, hleaves⟩, hnext⟩,
            hfree, fun e he => (hrest e he).2⟩
        · rintro ⟨⟨hmem, hseparate, hnext⟩, hfree, hrest⟩
          obtain ⟨subtree, hsubtree, hleaves⟩ := hinner.mpr hseparate
          obtain ⟨hash₁, hinsert, hstored⟩ :=
            insert_container_spec hplace hkeyed hfree.kind (bareArgs args) subtree
          refine ⟨subtree, hash₁, hsubtree, hleaves, hfree, hinsert,
            (ihn hstored.keyed).mpr ⟨hnext, fun e he => ?_⟩⟩
          rw [hstored.free_iff hfree.kind (hleaf hleaves)]
          exact ⟨fun heq => hmem (heq ▸ he), hrest e he⟩

/-- The hash of a tree has each directive at its path if and only if the tree is separate, and
each container has arguments. -/
theorem asHash_lossless_iff (place : Hash → Bytes × Value → Hash)
    (hplace : ∀ hash e, (place hash e).Perm (e :: hash)) (tree : Directives) :
    tree.Lossless place ↔ tree.Separate ∧ tree.readsInside := by
  have hkept : (∃ hash, asHash place tree = some hash ∧
      ∀ path name, Hash.leavesAt path name hash = tree.leavesAt path name) ↔ tree.Separate := by
    have h := kept_iff (t := tree) hplace keyed_nil
    simp only [Kept, leavesAt_empty, List.nil_append] at h
    exact h.trans ⟨fun h => h.1, fun h => ⟨h, fun e _ => free_nil e⟩⟩
  rw [Lossless, hkept, and_comm]

/-- A directive that is repeated, and a container of its name before it. -/
theorem asHash_lossless_listen :
    (node (ascii "<Listen") (ascii "eth0>") (node (ascii "Port") (ascii "80") nil nil)
      (node (ascii "Listen") (ascii "8080") nil
        (node (ascii "Listen") (ascii "8443") nil nil))).Lossless fun hash e => hash ++ [e] :=
  (asHash_lossless_iff _ (fun hash e => List.perm_append_singleton e hash) _).mpr
    ⟨by simp [Separate, containers], by decide⟩

/-- Of two containers of one name and the same arguments, the first one is lost. -/
theorem asHash_lossless_fails :
    ¬∀ tree : Directives, tree.Lossless fun hash e => hash ++ [e] := by
  intro hall
  obtain ⟨-, hash, hhash, hleaves⟩ :=
    hall (node (ascii "<Location") (ascii "/a>")
      (node (ascii "PerlSetVar") (ascii "a 1") nil nil)
      (node (ascii "<Location") (ascii "/a>")
        (node (ascii "PerlSetVar") (ascii "b 2") nil nil) nil))
  cases hhash
  exact absurd (hleaves [(ascii "Location", ascii "/a")] (ascii "PerlSetVar")) (by decide)

end ModPerl
