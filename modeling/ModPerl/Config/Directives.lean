import ModPerl.Httpd
import Mathlib.Data.List.Perm.Basic

/-!
# The configuration tree as a hash

`as_hash` makes a hash of a tree of directives: a string for a directive, an array
of strings where it is repeated, and for containers a hash of their arguments, each
with the hash of what is inside.  A container without directives is one without
children, and is taken for a directive.  But for the order, which a hash does not
keep, the tree can be had back from the hash.

The functions are those of `Apache2__Directive.h`.  A new key of a hash goes to any
place among the others; `keys` and `each` go through them in this order.
-/

namespace ModPerl

/-- `ap_directive_t`: a directive with what is inside of it, and the next one.  The name
of a container has the `<` before it, and its arguments the `>` behind them. -/
inductive Directives
  | nil
  | node (directive args : Bytes) (firstChild next : Directives)
  deriving DecidableEq

/-- A value of Perl: a string, or a reference to a string, an array or a hash. -/
inductive Value
  | string (s : Bytes)
  | scalar (s : Bytes)
  | array (xs : List Value)
  | hash (h : List (Bytes × Value))

/-- A hash, in the order of its keys. -/
abbrev Hash := List (Bytes × Value)

namespace Hash

/-- `hv_fetch` -/
def fetch : Hash → Bytes → Option Value
  | [], _ => none
  | (key, value) :: hash, k => if key = k then some value else fetch hash k

/-- The value of a key that is there is another one. -/
def replace : Hash → Bytes → Value → Hash
  | [], _, _ => []
  | (key, value) :: hash, k, v =>
      if key = k then (key, v) :: hash else (key, value) :: replace hash k v

variable (place : Hash → Bytes × Value → Hash)

/-- `hv_store` -/
def store (hash : Hash) (key : Bytes) (value : Value) : Hash :=
  if (hash.fetch key).isSome then hash.replace key value else place hash (key, value)

/-- `hash_insert`.  A result of `none` is that of a string that is taken for a hash. -/
def insert (hash : Hash) (key args : Bytes) : Option Value → Option Hash
  | some value =>
      match hash.fetch key with
      | none => some (store place hash key (.hash (store place [] args value)))
      | some (.hash subhash) => some (store place hash key (.hash (store place subhash args value)))
      | some _ => none
  | none =>
      match hash.fetch key with
      | some (.array xs) => some (store place hash key (.array (xs ++ [.string args])))
      | some value => some (store place hash key (.array [value, .string args]))
      | none => some (store place hash key (.string args))

end Hash

namespace Directives

variable (place : Hash → Bytes × Value → Hash)

/-- The loop of `mpxs_Apache2__Directive_as_hash`. -/
def asHashLoop (hash : Hash) : Directives → Option Hash
  | nil => some hash
  | node directive args nil next =>
      (hash.insert place directive args none).bind fun hash => asHashLoop hash next
  | node directive args (node d a c n) next =>
      let directive := if directive.head? = some 60 then directive.tail else directive
      let args := if args.getLast? = some 62 then args.dropLast else args
      (asHashLoop [] (node d a c n)).bind fun subtree =>
        (hash.insert place directive args (some (.hash subtree))).bind fun hash =>
          asHashLoop hash next

/-- `mpxs_Apache2__Directive_as_hash` -/
def asHash (tree : Directives) : Option Hash := asHashLoop place [] tree

/-! ## Trees -/

/-- The directives of the second behind those of the first. -/
def append : Directives → Directives → Directives
  | nil, tree => tree
  | node directive args firstChild next, tree =>
      node directive args firstChild (next.append tree)

/-- The same directives and containers at each level, in any order. -/
inductive Same : Directives → Directives → Prop
  | nil : Same nil nil
  | node (directive args : Bytes) {child child' next next' : Directives} :
      Same child child' → Same next next' →
      Same (node directive args child next) (node directive args child' next')
  | swap (d a d' a' : Bytes) (c c' next : Directives) :
      Same (node d a c (node d' a' c' next)) (node d' a' c' (node d a c next))
  | trans {t t' t'' : Directives} : Same t t' → Same t' t'' → Same t t''

/-- The directives of the first level, with their arguments. -/
def siblings : Directives → List (Bytes × Bytes)
  | nil => []
  | node directive args _ next => (directive, args) :: next.siblings

/-- Siblings are not the same container twice, and not a directive and a container of one
name. -/
structure Compatible (d d' : Bytes × Bytes) : Prop where
  container : d.1.head? = some 60 → d ≠ d'
  left : 60 :: d.1 ≠ d'.1
  right : 60 :: d'.1 ≠ d.1

/-- At each level. -/
def Distinct : Directives → Prop
  | nil => True
  | node directive args firstChild next =>
      (∀ d ∈ next.siblings, Compatible (directive, args) d) ∧ firstChild.Distinct ∧ next.Distinct

/-- A letter, a digit, `_` or `-`. -/
def wordByte (c : UInt8) : Bool :=
  48 ≤ c && c ≤ 57 || 65 ≤ c && c ≤ 90 || 97 ≤ c && c ≤ 122 || c = 95 || c = 45

/-- The name of a directive is a word. -/
def IsWord (name : Bytes) : Prop := name ≠ [] ∧ name.all wordByte

/-- What `apr_isspace` accepts. -/
def blank (c : UInt8) : Bool := c = 32 || 9 ≤ c && c ≤ 13

/-- Without the blanks at both ends. -/
def trim (s : Bytes) : Bytes := ((s.dropWhile blank).reverse.dropWhile blank).reverse

/-- A tree as it is read from a file: there is one line to a directive or container, without
blanks at the ends, and only a container has anything inside. -/
def WellFormed : Directives → Prop
  | nil => True
  | node directive args firstChild next =>
      (IsWord directive ∧ firstChild = nil ∨
        ∃ name loc, directive = 60 :: name ∧ args = loc ++ [62] ∧ IsWord name) ∧
      trim args = args ∧ 10 ∉ args ∧ firstChild.WellFormed ∧ next.WellFormed

/-! ## The same trees -/

variable {t t' t₁ t₁' t₂ t₂' child tree tree' : Directives} {key args loc : Bytes}

@[simp] theorem append_nil (t : Directives) : t.append nil = t := by
  induction t with
  | nil => rfl
  | node d a c n _ ih => rw [append, ih]

theorem append_assoc (t₁ t₂ t : Directives) :
    (t₁.append t₂).append t = t₁.append (t₂.append t) := by
  induction t₁ with
  | nil => rfl
  | node d a c n _ ih => rw [append, append, append, ih]

theorem siblings_append (t₁ t₂ : Directives) :
    (t₁.append t₂).siblings = t₁.siblings ++ t₂.siblings := by
  induction t₁ with
  | nil => rfl
  | node d a c n _ ih => rw [append, siblings, siblings, ih, List.cons_append]

namespace Same

theorem refl (t : Directives) : Same t t := by
  induction t with
  | nil => exact .nil
  | node d a c n ihc ihn => exact .node d a ihc ihn

theorem symm (h : Same t t') : Same t' t := by
  induction h with
  | nil => exact .nil
  | node d a _ _ ihc ihn => exact .node d a ihc ihn
  | swap d a d' a' c c' n => exact .swap d' a' d a c' c n
  | trans _ _ ih ih' => exact ih'.trans ih

theorem append_left (h : Same t₁ t₁') (t : Directives) : Same (t₁.append t) (t₁'.append t) := by
  induction h with
  | nil => exact .refl t
  | node d a hc _ _ ihn => exact .node d a hc ihn
  | swap d a d' a' c c' n => exact .swap d a d' a' c c' _
  | trans _ _ ih ih' => exact ih.trans ih'

theorem append_right (t : Directives) (h : Same t₂ t₂') : Same (t.append t₂) (t.append t₂') := by
  induction t with
  | nil => exact h
  | node d a c n _ ih => exact .node d a (.refl c) ih

theorem node_append (d a : Bytes) (c t₁ t₂ : Directives) :
    Same (t₁.append (Directives.node d a c t₂)) (Directives.node d a c (t₁.append t₂)) := by
  induction t₁ with
  | nil => exact .refl _
  | node d' a' c' n _ ih => exact (Same.node d' a' (.refl c') ih).trans (.swap _ _ _ _ _ _ _)

theorem append_comm (t₁ t₂ : Directives) : Same (t₁.append t₂) (t₂.append t₁) := by
  induction t₁ with
  | nil =>
      rw [append_nil]
      exact .refl t₂
  | node d a c n _ ih =>
      exact (Same.node d a (.refl c) ih).trans (node_append d a c t₂ n).symm

theorem siblings (h : Same t t') : t.siblings.Perm t'.siblings := by
  induction h with
  | nil => exact .nil
  | node d a _ _ _ ihn => exact ihn.cons _
  | swap d a d' a' c c' n => exact .swap _ _ _
  | trans _ _ ih ih' => exact ih.trans ih'

end Same

/-! ## What a hash holds -/

/-- A directive that is repeated. -/
def repeated (key : Bytes) : List Bytes → Directives
  | [] => nil
  | args :: rest => node key args nil (repeated key rest)

/-- The hash holds the tree, with the directives in the order of the hash; for a name, the
hash of the arguments holds the containers of this name. -/
inductive Holds : Option Bytes → Hash → Directives → Prop
  | nil (name : Option Bytes) : Holds name [] nil
  | string (key args : Bytes) {hash : Hash} {tree : Directives} : key ∉ hash.map Prod.fst →
      Holds none hash tree → Holds none ((key, .string args) :: hash) (node key args nil tree)
  | array (key args args' : Bytes) (rest : List Bytes) {hash : Hash} {tree : Directives} :
      key ∉ hash.map Prod.fst → Holds none hash tree →
      Holds none ((key, .array ((args :: args' :: rest).map .string)) :: hash)
        ((repeated key (args :: args' :: rest)).append tree)
  | hash (key : Bytes) {subhash hash : Hash} {containers tree : Directives} :
      key ∉ hash.map Prod.fst → subhash ≠ [] → Holds (some key) subhash containers →
      Holds none hash tree → Holds none ((key, .hash subhash) :: hash) (containers.append tree)
  | container (name loc : Bytes) {subtree subhash : Hash} {child containers : Directives} :
      loc ∉ subhash.map Prod.fst → child ≠ .nil → Holds none subtree child →
      Holds (some name) subhash containers →
      Holds (some name) ((loc, .hash subtree) :: subhash)
        (node (60 :: name) (loc ++ [62]) child containers)

namespace Holds

variable {name : Option Bytes} {hash hash' subhash subtree : Hash} {e : Bytes × Value}

theorem cons_inv (h : Holds name (e :: hash) t) :
    ∃ t₁ t₂, Holds name [e] t₁ ∧ e.1 ∉ hash.map Prod.fst ∧ Holds name hash t₂ ∧
      t = t₁.append t₂ := by
  have hnot : ∀ k : Bytes, k ∉ ([] : Hash).map Prod.fst := fun _ => List.not_mem_nil
  cases h with
  | string key args hkey hrest =>
      exact ⟨_, _, .string key args (hnot _) (.nil _), hkey, hrest, rfl⟩
  | array key args args' rest hkey hrest =>
      refine ⟨_, _, .array key args args' rest (hnot _) (.nil _), hkey, hrest, ?_⟩
      rw [append_nil]
  | hash key hkey hne hsub hrest =>
      refine ⟨_, _, .hash key (hnot _) hne hsub (.nil _), hkey, hrest, ?_⟩
      rw [append_nil]
  | container name loc hloc hchild hsub hrest =>
      exact ⟨_, _, .container name loc (hnot _) hchild hsub (.nil _), hloc, hrest, rfl⟩

theorem cons (h₁ : Holds name [e] t₁) (hkey : e.1 ∉ hash.map Prod.fst) (h₂ : Holds name hash t₂) :
    Holds name (e :: hash) (t₁.append t₂) := by
  cases h₁ with
  | string key args _ hrest =>
      cases hrest
      exact .string key args hkey h₂
  | array key args args' rest _ hrest =>
      cases hrest
      rw [append_nil]
      exact .array key args args' rest hkey h₂
  | hash key _ hne hsub hrest =>
      cases hrest
      rw [append_nil]
      exact .hash key hkey hne hsub h₂
  | container name loc _ hchild hsub hrest =>
      cases hrest
      exact .container name loc hkey hchild hsub h₂

/-- In another order it holds the tree in another order. -/
theorem perm (h : Holds name hash t) (hperm : hash.Perm hash') :
    ∃ t', Holds name hash' t' ∧ Same t t' := by
  induction hperm generalizing t with
  | nil => exact ⟨t, h, .refl t⟩
  | cons e hperm ih =>
      obtain ⟨t₁, t₂, h₁, hkey, h₂, rfl⟩ := h.cons_inv
      obtain ⟨t₂', h₂', hsame⟩ := ih h₂
      rw [(hperm.map Prod.fst).mem_iff] at hkey
      exact ⟨_, h₁.cons hkey h₂', hsame.append_right t₁⟩
  | swap e' e hash =>
      obtain ⟨t₁, t₂, h₁, hkey, h₂, rfl⟩ := h.cons_inv
      obtain ⟨t₃, t₄, h₃, hkey', h₄, rfl⟩ := h₂.cons_inv
      rw [List.map_cons, List.mem_cons, not_or] at hkey
      refine ⟨t₃.append (t₁.append t₄), h₃.cons ?_ (h₁.cons hkey.2 h₄), ?_⟩
      · rw [List.map_cons, List.mem_cons, not_or]
        exact ⟨fun heq => hkey.1 heq.symm, hkey'⟩
      · rw [← append_assoc, ← append_assoc]
        exact (Same.append_comm t₁ t₃).append_left t₄
  | trans _ _ ih ih' =>
      obtain ⟨t', h', hsame⟩ := ih h
      obtain ⟨t'', h'', hsame'⟩ := ih' h'
      exact ⟨t'', h'', hsame.trans hsame'⟩

/-! ### Lookup -/

theorem fetch_eq_none_iff : Hash.fetch hash key = none ↔ key ∉ hash.map Prod.fst := by
  induction hash with
  | nil => simp [Hash.fetch]
  | cons e hash ih =>
      rw [Hash.fetch, List.map_cons, List.mem_cons, not_or]
      split_ifs with hkey
      · exact iff_of_false (by simp) fun h => h.1 hkey.symm
      · rw [ih]
        exact ⟨fun h => ⟨fun heq => hkey heq.symm, h⟩, fun h => h.2⟩

/-- A key that is there, and the others. -/
theorem exists_perm_of_fetch {value : Value} (h : Hash.fetch hash key = some value) :
    ∃ rest, hash.Perm ((key, value) :: rest) ∧
      ∀ value', (Hash.replace hash key value').Perm ((key, value') :: rest) := by
  induction hash with
  | nil => cases h
  | cons e hash ih =>
      rw [Hash.fetch] at h
      split_ifs at h with hkey
      · cases h
        refine ⟨hash, by rw [← hkey], fun value' => ?_⟩
        rw [Hash.replace, if_pos hkey, ← hkey]
      · obtain ⟨rest, hperm, hreplace⟩ := ih h
        refine ⟨e :: rest, (hperm.cons e).trans (.swap _ _ _), fun value' => ?_⟩
        rw [Hash.replace, if_neg hkey]
        exact ((hreplace value').cons e).trans (.swap _ _ _)

variable {place : Hash → Bytes × Value → Hash}

theorem store_of_none (hplace : ∀ hash e, (place hash e).Perm (e :: hash)) (value : Value)
    (h : Hash.fetch hash key = none) :
    (Hash.store place hash key value).Perm ((key, value) :: hash) := by
  rw [Hash.store, h]
  exact hplace _ _

theorem store_of_some {rest : Hash} {value value' : Value} (h : Hash.fetch hash key = some value)
    (hreplace : ∀ value', (Hash.replace hash key value').Perm ((key, value') :: rest)) :
    (Hash.store place hash key value').Perm ((key, value') :: rest) := by
  rw [Hash.store, h]
  exact hreplace value'

/-- What a key of the hash stands for in the tree. -/
theorem of_fetch (h : Holds name hash tree) {value : Value}
    (hfetch : Hash.fetch hash key = some value) :
    ∃ rest t₁ t₂, hash.Perm ((key, value) :: rest) ∧
      (∀ value', (Hash.replace hash key value').Perm ((key, value') :: rest)) ∧
      Holds name [(key, value)] t₁ ∧ key ∉ rest.map Prod.fst ∧ Holds name rest t₂ ∧
      Same tree (t₁.append t₂) := by
  obtain ⟨rest, hperm, hreplace⟩ := exists_perm_of_fetch hfetch
  obtain ⟨t', h', hsame⟩ := h.perm hperm
  obtain ⟨t₁, t₂, h₁, hkey, h₂, rfl⟩ := h'.cons_inv
  exact ⟨rest, t₁, t₂, hperm, hreplace, h₁, hkey, h₂, hsame⟩

/-! ### Insertion -/

theorem repeated_append_singleton (key args : Bytes) (xs : List Bytes) :
    repeated key (xs ++ [args]) = (repeated key xs).append (node key args .nil .nil) := by
  induction xs with
  | nil => rfl
  | cons x xs ih => rw [List.cons_append, repeated, repeated, append, ih]

/-- `hash_insert` of a directive, where there is no container of this name. -/
theorem insert_directive (hplace : ∀ hash e, (place hash e).Perm (e :: hash))
    (h : Holds none hash tree) (hnot : ∀ subhash, Hash.fetch hash key ≠ some (.hash subhash)) :
    ∃ hash' tree', Hash.insert place hash key args none = some hash' ∧ Holds none hash' tree' ∧
      Same (tree.append (node key args .nil .nil)) tree' := by
  unfold Hash.insert
  cases hfetch : Hash.fetch hash key with
  | none =>
      have hkey := fetch_eq_none_iff.mp hfetch
      obtain ⟨tree', htree', hsame⟩ := (Holds.string key args hkey h).perm
        (store_of_none hplace _ hfetch).symm
      exact ⟨_, tree', rfl, htree', (Same.append_comm _ _).trans hsame⟩
  | some value =>
      obtain ⟨rest, t₁, t₂, hperm, hreplace, h₁, hkey, h₂, htree⟩ := h.of_fetch hfetch
      have hend : Same (tree.append (node key args .nil .nil))
          ((t₁.append (node key args .nil .nil)).append t₂) := by
        refine (htree.append_left _).trans ?_
        rw [append_assoc, append_assoc]
        exact (Same.append_comm _ _).append_right t₁
      cases h₁ with
      | string _ s _ hnil =>
          cases hnil
          have harray := Holds.array key s args [] hkey h₂
          obtain ⟨tree', htree', hsame⟩ := harray.perm (store_of_some hfetch hreplace).symm
          exact ⟨_, tree', rfl, htree', hend.trans hsame⟩
      | array _ s s' xs _ hnil =>
          cases hnil
          have harray := Holds.array key s s' (xs ++ [args]) hkey h₂
          rw [← List.cons_append, ← List.cons_append, repeated_append_singleton,
            List.map_append] at harray
          obtain ⟨tree', htree', hsame⟩ := harray.perm (store_of_some hfetch hreplace).symm
          rw [append_nil] at hend
          exact ⟨_, tree', rfl, htree', hend.trans hsame⟩
      | hash _ _ _ _ _ => exact absurd hfetch (hnot _)

/-- `hash_insert` of a container, where there is no directive of this name, and not yet this
container. -/
theorem insert_container (hplace : ∀ hash e, (place hash e).Perm (e :: hash))
    (h : Holds none hash tree) (hsubtree : Holds none subtree child) (hchild : child ≠ .nil)
    (hkind : ∀ value, Hash.fetch hash key = some value →
      ∃ subhash, value = .hash subhash ∧ loc ∉ subhash.map Prod.fst) :
    ∃ hash' tree', Hash.insert place hash key loc (some (.hash subtree)) = some hash' ∧
      Holds none hash' tree' ∧
      Same (tree.append (node (60 :: key) (loc ++ [62]) child .nil)) tree' := by
  unfold Hash.insert
  have hnil : Holds (some key) [] .nil := .nil _
  cases hfetch : Hash.fetch hash key with
  | none =>
      have hkey := fetch_eq_none_iff.mp hfetch
      have hone : (Hash.store place [] loc (.hash subtree)).Perm [(loc, .hash subtree)] :=
        store_of_none hplace _ rfl
      obtain ⟨t₁, h₁, hsame₁⟩ :=
        (Holds.container key loc List.not_mem_nil hchild hsubtree hnil).perm hone.symm
      have hne : Hash.store place [] loc (.hash subtree) ≠ [] := by
        intro heq
        rw [heq] at hone
        exact absurd hone.symm.eq_nil (List.cons_ne_nil _ _)
      obtain ⟨tree', htree', hsame⟩ := (Holds.hash key hkey hne h₁ h).perm
        (store_of_none hplace _ hfetch).symm
      exact ⟨_, tree', rfl, htree',
        (Same.append_comm _ _).trans ((hsame₁.append_left tree).trans hsame)⟩
  | some value =>
      obtain ⟨rest, t₁, t₂, hperm, hreplace, h₁, hkey, h₂, htree⟩ := h.of_fetch hfetch
      obtain ⟨subhash, rfl, hloc⟩ := hkind value hfetch
      cases h₁ with
      | hash _ _ hne hsub hrest =>
          cases hrest
          rw [append_nil] at htree
          have hstore := store_of_none hplace (.hash subtree) (fetch_eq_none_iff.mpr hloc)
          obtain ⟨t₃, h₃, hsame₃⟩ :=
            (Holds.container key loc hloc hchild hsubtree hsub).perm hstore.symm
          have hne' : Hash.store place subhash loc (.hash subtree) ≠ [] := by
            intro heq
            rw [heq] at hstore
            exact absurd hstore.symm.eq_nil (List.cons_ne_nil _ _)
          obtain ⟨tree', htree', hsame⟩ := (Holds.hash key hkey hne' h₃ h₂).perm
            (store_of_some hfetch hreplace).symm
          refine ⟨_, tree', rfl, htree', ?_⟩
          refine (htree.append_left _).trans (Same.trans ?_ ((hsame₃.append_left t₂).trans hsame))
          exact Same.append_comm _ _

theorem mem_siblings_of_containers (h : Holds (some key) subhash t)
    (hloc : loc ∈ subhash.map Prod.fst) : (60 :: key, loc ++ [62]) ∈ t.siblings := by
  generalize hname : some key = name at h
  induction h with
  | nil => cases hloc
  | container name loc' _ _ _ _ _ ih =>
      cases hname
      rw [List.map_cons, List.mem_cons] at hloc
      rcases hloc with rfl | hloc
      · exact List.mem_cons_self
      · exact List.mem_cons_of_mem _ (ih hloc rfl)
  | string | array | hash => cases hname

/-- A key of the hash is a name of the tree. -/
theorem mem_siblings_of_fetch (h : Holds none hash tree) {value : Value}
    (hfetch : Hash.fetch hash key = some value) :
    (∃ args, (key, args) ∈ tree.siblings) ∧ (∀ subhash, value ≠ .hash subhash) ∨
      ∃ subhash, value = .hash subhash ∧ subhash ≠ [] ∧
        ∀ loc ∈ subhash.map Prod.fst, (60 :: key, loc ++ [62]) ∈ tree.siblings := by
  obtain ⟨rest, t₁, t₂, -, -, h₁, -, -, htree⟩ := h.of_fetch hfetch
  have hmem : ∀ {d}, d ∈ t₁.siblings → d ∈ tree.siblings := by
    intro d hd
    rw [htree.siblings.mem_iff, siblings_append]
    exact List.mem_append_left _ hd
  cases h₁ with
  | string _ args _ _ =>
      exact .inl ⟨⟨args, hmem List.mem_cons_self⟩, fun _ heq => nomatch heq⟩
  | array _ args args' rest _ _ =>
      exact .inl ⟨⟨args, hmem List.mem_cons_self⟩, fun _ heq => nomatch heq⟩
  | hash _ _ hne hsub hrest =>
      cases hrest
      rw [append_nil] at hmem
      exact .inr ⟨_, rfl, hne, fun loc hloc => hmem (hsub.mem_siblings_of_containers hloc)⟩

end Holds

/-! ## `as_hash` keeps the tree -/

variable {place : Hash → Bytes × Value → Hash}

theorem asHashLoop_holds (hplace : ∀ hash e, (place hash e).Perm (e :: hash)) {hash : Hash}
    (hholds : Holds none hash tree) (hwf : t.WellFormed) (hdistinct : t.Distinct)
    (hcompatible : ∀ d ∈ tree.siblings, ∀ d' ∈ t.siblings, Compatible d d') :
    ∃ hash' tree', asHashLoop place hash t = some hash' ∧ Holds none hash' tree' ∧
      Same (tree.append t) tree' := by
  induction t generalizing hash tree with
  | nil =>
      rw [append_nil]
      exact ⟨hash, tree, rfl, hholds, .refl tree⟩
  | node directive args child next ihc ihn =>
      obtain ⟨hkind, -, -, hwfc, hwfn⟩ := hwf
      obtain ⟨hfirst, hdistinctc, hdistinctn⟩ := hdistinct
      have hnode : ∀ d ∈ tree.siblings, Compatible d (directive, args) :=
        fun d hd => hcompatible d hd _ List.mem_cons_self
      -- what is stored for this node, the rest of the loop goes on with
      have hnext : ∀ {hash₁ tree₁}, Holds none hash₁ tree₁ →
          Same (tree.append (node directive args child .nil)) tree₁ →
          ∃ hash' tree', asHashLoop place hash₁ next = some hash' ∧ Holds none hash' tree' ∧
            Same (tree.append (node directive args child next)) tree' := by
        intro hash₁ tree₁ hholds₁ hsame₁
        obtain ⟨hash', tree', hloop, hholds', hsame⟩ := ihn hholds₁ hwfn hdistinctn (by
          intro d hd d' hd'
          rw [← hsame₁.siblings.mem_iff, siblings_append, List.mem_append] at hd
          rcases hd with hd | hd
          · exact hcompatible d hd d' (List.mem_cons_of_mem _ hd')
          · rw [siblings, siblings, List.mem_singleton] at hd
            exact hd ▸ hfirst d' hd')
        refine ⟨hash', tree', hloop, hholds', Same.trans ?_ hsame⟩
        have hsplit : tree.append (node directive args child next) =
            (tree.append (node directive args child .nil)).append next := by
          rw [append_assoc]
          rfl
        rw [hsplit]
        exact hsame₁.append_left next
      cases child with
      | nil =>
          have hnot : ∀ subhash, Hash.fetch hash directive ≠ some (.hash subhash) := by
            intro subhash hfetch
            rcases hholds.mem_siblings_of_fetch hfetch with ⟨-, hvalue⟩ | ⟨_, heq, hne, hmem⟩
            · exact hvalue subhash rfl
            · cases heq
              obtain ⟨e, subhash, rfl⟩ := List.exists_cons_of_ne_nil hne
              exact (hnode _ (hmem e.1 List.mem_cons_self)).right rfl
          obtain ⟨hash₁, tree₁, hinsert, hholds₁, hsame₁⟩ := hholds.insert_directive hplace hnot
          rw [asHashLoop, hinsert, Option.bind_some]
          exact hnext hholds₁ hsame₁
      | node d a c n =>
          obtain ⟨-, hnil⟩ | ⟨name, loc, rfl, rfl, -⟩ := hkind
          · cases hnil
          have hempty : ∀ e ∈ siblings .nil, ∀ e' ∈ (node d a c n).siblings, Compatible e e' :=
            fun _ he => nomatch he
          obtain ⟨subtree, child', hloop, hsubtree, hchild⟩ :=
            ihc (.nil none) hwfc hdistinctc hempty
          have hchild' : child' ≠ .nil := by
            rintro rfl
            have hlength := hchild.siblings.length_eq
            cases hlength
          have hcontainer : ∀ value, Hash.fetch hash name = some value →
              ∃ subhash, value = .hash subhash ∧ loc ∉ subhash.map Prod.fst := by
            intro value hfetch
            rcases hholds.mem_siblings_of_fetch hfetch with
              ⟨⟨args, hmem⟩, -⟩ | ⟨subhash, rfl, -, hmem⟩
            · exact absurd rfl (hnode _ hmem).left
            · exact ⟨subhash, rfl, fun hloc => (hnode _ (hmem loc hloc)).container rfl rfl⟩
          obtain ⟨hash₁, tree₁, hinsert, hholds₁, hsame₁⟩ :=
            hholds.insert_container hplace hsubtree hchild' hcontainer
          have hargs : (if (loc ++ [62]).getLast? = some 62 then (loc ++ [62]).dropLast
              else loc ++ [62]) = loc := by
            rw [List.getLast?_concat, if_pos rfl, List.dropLast_concat]
          rw [asHashLoop]
          simp only [List.head?_cons, if_true, List.tail_cons, hargs]
          rw [hloop, Option.bind_some, hinsert, Option.bind_some]
          refine hnext hholds₁ (Same.trans ?_ hsame₁)
          exact (Same.node _ _ hchild (.refl .nil)).append_right tree

/-- The hash of a tree holds it. -/
theorem asHash_holds (hplace : ∀ hash e, (place hash e).Perm (e :: hash)) (hwf : t.WellFormed)
    (hdistinct : t.Distinct) :
    ∃ hash tree, asHash place t = some hash ∧ Holds none hash tree ∧ Same t tree :=
  asHashLoop_holds hplace (.nil none) hwf hdistinct fun _ hd => nomatch hd

end Directives

end ModPerl
