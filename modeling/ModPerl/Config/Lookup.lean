import ModPerl.Config.Collisions
import Mathlib.Data.List.Infix

/-!
# Looking up directives

`lookup` goes through the directives of one level and pushes a value for each whose name
is the key, and whose arguments are the ones that are asked for.  The comparisons end
where the name and the arguments of the tree end: a name is taken for each key that
begins with it.  What stands behind a directive in the tree is not compared, and neither
is a `>` at the end of its arguments.

The functions are those of `Apache2__Directive.h`.  A result of `none` is a reading of the
byte before the arguments, or an `as_hash` that does not come to its end.
-/

namespace ModPerl

/-- `strncasecmp` is 0. -/
def strncasecmp : Bytes → Bytes → ℕ → Bool
  | _, _, 0 => true
  | [], [], _ + 1 => true
  | a :: s, b :: t, n + 1 => lower a = lower b && strncasecmp s t n
  | _, _, _ + 1 => false

namespace Directives

/-- What is pushed for a directive: its arguments, or for a container the hash of what is
inside. -/
def pushed (place : Hash → Bytes × Value → Hash) : Directives → Option Value
  | nil => none
  | node _ args nil _ => some (.string (cstr args))
  | node _ _ firstChild _ =>
      if firstChild.readsInside then (asHash place firstChild).map .hash else none

/-- The comparison of the arguments with the value, if there is one. -/
def argsMatch (args : Bytes) : Option Bytes → Option Bool
  | none => some true
  | some value =>
      if args = [] then none
      else some (strncasecmp args (cstr value) (bareArgs args).length)

/-- The loop of `MPXS_Apache2__Directive_lookup`: the values that are pushed, each with the
directive that it is pushed for. -/
def lookup (place : Hash → Bytes × Value → Hash) (key : Bytes) (value : Option Bytes)
    (scalarContext : Bool) : Directives → Option (List (Directives × Value))
  | nil => some []
  | node directive args firstChild next =>
      let name := bareName (cstr directive)
      if strncasecmp name (cstr key) name.length then
        (argsMatch (cstr args) value).bind fun found =>
          if found then
            (pushed place (node directive args firstChild next)).bind fun v =>
              if scalarContext then some [(node directive args firstChild next, v)]
              else
                (lookup place key value scalarContext next).map
                  ((node directive args firstChild next, v) :: ·)
          else lookup place key value scalarContext next
      else lookup place key value scalarContext next

/-- The directives of the first level, each with the ones behind it. -/
def nodes : Directives → List Directives
  | nil => []
  | node directive args firstChild next => node directive args firstChild next :: next.nodes

/-- The arguments of a directive; those of a container are without the `>`. -/
def givenArgs (directive args : Bytes) : Bytes :=
  if directive.head? = some 60 then bareArgs (cstr args) else cstr args

/-- The name of the directive is the key, and its arguments are the value, if there is one,
without regard to case. -/
def Matches (key : Bytes) (value : Option Bytes) : Directives → Prop
  | nil => False
  | node directive args _ _ =>
      caseless (bareName (cstr directive)) = caseless key ∧
      ∀ v ∈ value, caseless (givenArgs directive args) = caseless v

instance (key : Bytes) (value : Option Bytes) : DecidablePred (Matches key value)
  | nil => inferInstanceAs (Decidable False)
  | node _ _ _ _ => inferInstanceAs (Decidable (_ ∧ _))

/-- `lookup` returns the directives that match, or in scalar context the first one. -/
def Exact (place : Hash → Bytes × Value → Hash) (key : Bytes) (value : Option Bytes)
    (scalarContext : Bool) (tree : Directives) : Prop :=
  ∃ found, lookup place key value scalarContext tree = some found ∧
    found.map Prod.fst =
      if scalarContext then (tree.nodes.filter (Matches key value)).take 1
      else tree.nodes.filter (Matches key value)

/-- The directives up to the first one that matches, or in list context all. -/
def seen (key : Bytes) (value : Option Bytes) (scalarContext : Bool) :
    Directives → List Directives
  | nil => []
  | node directive args firstChild next =>
      node directive args firstChild next ::
        if scalarContext ∧ Matches key value (node directive args firstChild next) then []
        else next.seen key value scalarContext

/-- If the key begins with the name, the arguments are not empty where they are compared; and
if the value begins with the arguments as well, the name is the whole key, the arguments are
the whole value, and what is inside has a hash. -/
def Unmistakable (key : Bytes) (value : Option Bytes) : Directives → Prop
  | nil => True
  | node directive args firstChild next =>
      caseless (bareName (cstr directive)) <+: caseless (cstr key) →
        (value ≠ none → cstr args ≠ []) ∧
        ((∀ v ∈ value, caseless (bareArgs (cstr args)) <+: caseless (cstr v)) →
          Matches key value (node directive args firstChild next) ∧
          firstChild.readsInside ∧ firstChild.Insertable)

end Directives

open Directives

variable {place : Hash → Bytes × Value → Hash} {s t key directive args : Bytes}
  {value : Option Bytes} {scalarContext : Bool} {tree child next n : Directives}

/-! ## Comparing -/

theorem strncasecmp_iff {k : ℕ} (hk : k ≤ s.length) :
    strncasecmp s t k ↔ caseless (s.take k) <+: caseless t := by
  induction k generalizing s t with
  | zero => simp [strncasecmp, caseless]
  | succ k ih =>
      obtain ⟨a, s, rfl⟩ := List.exists_cons_of_length_pos (Nat.lt_of_lt_of_le k.succ_pos hk)
      cases t with
      | nil => simp [strncasecmp, caseless]
      | cons b t =>
          have hs : k ≤ s.length := Nat.le_of_succ_le_succ hk
          rw [strncasecmp, Bool.and_eq_true, ih hs, List.take_succ_cons]
          simp [caseless, List.cons_prefix_cons]

theorem bareArgs_eq_take (args : Bytes) : bareArgs args = args.take (bareArgs args).length := by
  unfold bareArgs
  split_ifs
  · rw [List.length_dropLast, ← List.dropLast_eq_take]
  · rw [List.take_length]

theorem length_bareArgs_le (args : Bytes) : (bareArgs args).length ≤ args.length := by
  unfold bareArgs
  split_ifs
  · rw [List.length_dropLast]
    exact Nat.sub_le _ _
  · exact Nat.le_refl _

theorem strncasecmp_length : strncasecmp s t s.length ↔ caseless s <+: caseless t := by
  rw [strncasecmp_iff (Nat.le_refl _), List.take_length]

theorem strncasecmp_bareArgs :
    strncasecmp args t (bareArgs args).length ↔ caseless (bareArgs args) <+: caseless t := by
  rw [strncasecmp_iff (length_bareArgs_le args), ← bareArgs_eq_take]

theorem lower_ne_zero {b : UInt8} (h : b ≠ 0) : lower b ≠ 0 := by
  unfold lower
  split_ifs with hb
  · grind
  · exact h

theorem notMem_cstr (s : Bytes) : 0 ∉ cstr s := by
  intro hmem
  simpa using List.mem_takeWhile_imp hmem

theorem notMem_bareName (s : Bytes) : 0 ∉ bareName (cstr s) := by
  unfold bareName
  split_ifs
  · exact fun hmem => notMem_cstr s (List.mem_of_mem_tail hmem)
  · exact notMem_cstr s

/-- A string without a NUL that is another one but for case is the start of what a C function
sees of it. -/
theorem prefix_cstr_of_caseless_eq (hs : 0 ∉ s) (h : caseless s = caseless t) :
    caseless s <+: caseless (cstr t) := by
  have ht : 0 ∉ t := by
    intro hmem
    have hzero : lower 0 ∈ caseless s := h ▸ List.mem_map_of_mem hmem
    obtain ⟨b, hb, heq⟩ := List.mem_map.mp hzero
    refine lower_ne_zero (fun hb0 => hs (hb0 ▸ hb)) (heq.trans ?_)
    rfl
  have hcstr : cstr t = t := by
    refine List.takeWhile_eq_self_iff.mpr fun b hb => ?_
    have hne : b ≠ 0 := fun heq => ht (heq ▸ hb)
    simpa using hne
  rw [hcstr, h]

theorem bareArgs_begins (args : Bytes) : bareArgs args <+: args := by
  rw [bareArgs_eq_take]
  exact List.take_prefix _ _

/-! ## One directive -/

theorem Directives.Matches.begins_key (h : Matches key value (node directive args child next)) :
    caseless (bareName (cstr directive)) <+: caseless (cstr key) :=
  prefix_cstr_of_caseless_eq (notMem_bareName directive) h.1

theorem Directives.Matches.begins_value (h : Matches key value (node directive args child next)) :
    ∀ v ∈ value, caseless (bareArgs (cstr args)) <+: caseless (cstr v) := by
  intro v hv
  have hgiven : 0 ∉ givenArgs directive args ∧
      bareArgs (cstr args) <+: givenArgs directive args := by
    unfold givenArgs
    split_ifs
    · exact ⟨fun hmem => notMem_cstr args ((bareArgs_begins _).subset hmem), List.prefix_refl _⟩
    · exact ⟨notMem_cstr args, bareArgs_begins _⟩
  exact (hgiven.2.map lower).trans (prefix_cstr_of_caseless_eq hgiven.1 (h.2 v hv))

/-- The key does not begin with the name. -/
theorem lookup_of_name (h : ¬caseless (bareName (cstr directive)) <+: caseless (cstr key)) :
    lookup place key value scalarContext (node directive args child next) =
      lookup place key value scalarContext next := by
  rw [lookup]
  exact if_neg (mt strncasecmp_length.mp h)

/-- The byte before the arguments is read. -/
theorem lookup_of_empty (h : caseless (bareName (cstr directive)) <+: caseless (cstr key))
    (hvalue : value ≠ none) (hargs : cstr args = []) :
    lookup place key value scalarContext (node directive args child next) = none := by
  obtain ⟨v, rfl⟩ := Option.ne_none_iff_exists'.mp hvalue
  rw [lookup]
  simp only [strncasecmp_length.mpr h, if_true, argsMatch, if_pos hargs, Option.bind_none]

theorem argsMatch_of_ne (hargs : value ≠ none → cstr args ≠ []) :
    ∃ found, argsMatch (cstr args) value = some found ∧
      (found ↔ ∀ v ∈ value, caseless (bareArgs (cstr args)) <+: caseless (cstr v)) := by
  cases value with
  | none => exact ⟨true, rfl, iff_of_true rfl fun _ hv => nomatch hv⟩
  | some v =>
      refine ⟨_, if_neg (hargs nofun), ?_⟩
      rw [strncasecmp_bareArgs]
      exact ⟨fun h v' hv' => Option.some.inj hv' ▸ h, fun h => h v rfl⟩

/-- The value does not begin with the arguments. -/
theorem lookup_of_args (hargs : value ≠ none → cstr args ≠ [])
    (h : ¬∀ v ∈ value, caseless (bareArgs (cstr args)) <+: caseless (cstr v)) :
    lookup place key value scalarContext (node directive args child next) =
      lookup place key value scalarContext next := by
  obtain ⟨found, hmatch, hfound⟩ := argsMatch_of_ne hargs
  rw [lookup, hmatch, Option.bind_some, if_neg (mt hfound.mp h)]
  exact ite_self _

/-- A value is pushed. -/
theorem lookup_of_found (hname : caseless (bareName (cstr directive)) <+: caseless (cstr key))
    (hargs : value ≠ none → cstr args ≠ [])
    (h : ∀ v ∈ value, caseless (bareArgs (cstr args)) <+: caseless (cstr v)) :
    lookup place key value scalarContext (node directive args child next) =
      (pushed place (node directive args child next)).bind fun v =>
        if scalarContext then some [(node directive args child next, v)]
        else
          (lookup place key value scalarContext next).map
            ((node directive args child next, v) :: ·) := by
  obtain ⟨found, hmatch, hfound⟩ := argsMatch_of_ne hargs
  rw [lookup, hmatch, Option.bind_some, if_pos (hfound.mpr h)]
  exact if_pos (strncasecmp_length.mpr hname)

theorem pushed_isSome_iff (hplace : ∀ hash e, (place hash e).Perm (e :: hash)) :
    (pushed place (node directive args child next)).isSome ↔
      child.readsInside ∧ child.Insertable := by
  cases child with
  | nil => exact iff_of_true rfl ⟨rfl, trivial⟩
  | node d a c n =>
      have hpushed : pushed place (node directive args (node d a c n) next) =
          if (node d a c n).readsInside then (asHash place (node d a c n)).map .hash else none :=
        rfl
      rw [← asHash_isSome_iff hplace, hpushed]
      split_ifs with hinside <;> simp [hinside]

/-! ## All of them -/

theorem sizeOf_le_of_mem_nodes (h : n ∈ tree.nodes) : sizeOf n ≤ sizeOf tree := by
  induction tree with
  | nil => cases h
  | node directive args child next _ ihn =>
      rcases List.mem_cons.mp h with rfl | h
      · exact Nat.le_refl _
      · have hle := ihn h
        rw [node.sizeOf_spec]
        omega

theorem notMem_nodes_next (directive args : Bytes) (child next : Directives) :
    node directive args child next ∉ next.nodes := by
  intro hmem
  have hle := sizeOf_le_of_mem_nodes hmem
  rw [node.sizeOf_spec] at hle
  omega

/-- A directive that is passed over, and does not match. -/
theorem exact_of_skip (hnot : ¬Matches key value (node directive args child next))
    (hlookup : lookup place key value scalarContext (node directive args child next) =
      lookup place key value scalarContext next) :
    Exact place key value scalarContext (node directive args child next) ↔
      Exact place key value scalarContext next := by
  rw [Exact, hlookup, nodes, List.filter_cons_of_neg (by simpa using hnot), Exact]

/-- A directive that is found. -/
theorem exact_of_found {v : Value}
    (hlookup : lookup place key value scalarContext (node directive args child next) =
      if scalarContext then some [(node directive args child next, v)]
      else
        (lookup place key value scalarContext next).map
          ((node directive args child next, v) :: ·)) :
    Exact place key value scalarContext (node directive args child next) ↔
      Matches key value (node directive args child next) ∧
      (scalarContext ∨ Exact place key value scalarContext next) := by
  by_cases hmatch : Matches key value (node directive args child next)
  · rw [Exact, hlookup, nodes, List.filter_cons_of_pos (by simpa using hmatch),
      and_iff_right hmatch]
    cases scalarContext with
    | true => exact iff_of_true ⟨_, rfl, rfl⟩ (.inl rfl)
    | false =>
        simp only [Bool.false_eq_true, if_false, false_or, Exact, Option.map_eq_some_iff]
        constructor
        · rintro ⟨_, ⟨found, hfound, rfl⟩, hmap⟩
          exact ⟨found, hfound, (List.cons.inj hmap).2⟩
        · rintro ⟨found, hfound, hmap⟩
          exact ⟨_, ⟨found, hfound, rfl⟩, congrArg _ hmap⟩
  · refine iff_of_false ?_ fun h => hmatch h.1
    rintro ⟨found, hfound, hmap⟩
    rw [nodes, List.filter_cons_of_neg (by simpa using hmatch)] at hmap
    -- the first one that is returned is not among those that are behind it
    have hfirst : node directive args child next ∈ found.map Prod.fst := by
      rw [hlookup] at hfound
      split_ifs at hfound
      · cases hfound
        exact List.mem_cons_self
      · obtain ⟨rest, -, rfl⟩ := Option.map_eq_some_iff.mp hfound
        exact List.mem_cons_self
    have hbehind :
        node directive args child next ∈ next.nodes.filter (Matches key value) := by
      rw [hmap] at hfirst
      split_ifs at hfirst
      · exact List.mem_of_mem_take hfirst
      · exact hfirst
    exact notMem_nodes_next directive args child next (List.mem_of_mem_filter hbehind)

/-- `lookup` is exact if and only if, up to the first directive that matches in scalar
context, no directive can be mistaken. -/
theorem lookup_exact_iff (place : Hash → Bytes × Value → Hash)
    (hplace : ∀ hash e, (place hash e).Perm (e :: hash)) (key : Bytes) (value : Option Bytes)
    (scalarContext : Bool) (tree : Directives) :
    tree.Exact place key value scalarContext ↔
      ∀ n ∈ tree.seen key value scalarContext, Unmistakable key value n := by
  induction tree with
  | nil =>
      refine iff_of_true ⟨[], rfl, ?_⟩ fun n hn => nomatch hn
      cases scalarContext <;> rfl
  | node directive args child next _ ih =>
      rw [seen, List.forall_mem_cons]
      by_cases hname : caseless (bareName (cstr directive)) <+: caseless (cstr key)
      swap
      · have hnot : ¬Matches key value (node directive args child next) :=
          fun h => hname h.begins_key
        rw [exact_of_skip hnot (lookup_of_name hname), ih, if_neg fun h => hnot h.2]
        exact (and_iff_right fun h => absurd h hname).symm
      by_cases hargs : value ≠ none → cstr args ≠ []
      swap
      · obtain ⟨hvalue, hempty⟩ := Classical.not_imp.mp hargs
        refine iff_of_false ?_ fun h => hargs (h.1 hname).1
        rintro ⟨found, hfound, -⟩
        rw [lookup_of_empty hname hvalue (not_not.mp hempty)] at hfound
        cases hfound
      by_cases hprefix : ∀ v ∈ value, caseless (bareArgs (cstr args)) <+: caseless (cstr v)
      swap
      · have hnot : ¬Matches key value (node directive args child next) :=
          fun h => hprefix h.begins_value
        rw [exact_of_skip hnot (lookup_of_args hargs hprefix), ih, if_neg fun h => hnot h.2]
        exact (and_iff_right fun _ => ⟨hargs, fun h => absurd h hprefix⟩).symm
      have hclear : Unmistakable key value (node directive args child next) ↔
          Matches key value (node directive args child next) ∧
            child.readsInside ∧ child.Insertable :=
        ⟨fun h => (h hname).2 hprefix, fun h _ => ⟨hargs, fun _ => h⟩⟩
      have hlookup : lookup place key value scalarContext (node directive args child next) = _ :=
        lookup_of_found hname hargs hprefix
      have hsome : (pushed place (node directive args child next)).isSome ↔ _ :=
        pushed_isSome_iff hplace
      rw [hclear, ← hsome]
      cases hpushed : pushed place (node directive args child next) with
      | none =>
          refine iff_of_false ?_ fun h => nomatch h.1.2
          rintro ⟨found, hfound, -⟩
          rw [hlookup, hpushed] at hfound
          cases hfound
      | some v =>
          rw [hpushed, Option.bind_some] at hlookup
          rw [exact_of_found hlookup, ih, Option.isSome_some, and_iff_left rfl]
          refine and_congr_right fun hmatch => ?_
          cases scalarContext <;> simp [hmatch]

/-- The container of the documentation of `lookup`, with another one behind it whose arguments
begin in the same way. -/
theorem lookup_exact_virtualHost :
    (node (ascii "<VirtualHost") (ascii "_default_:8000>")
      (node (ascii "Port") (ascii "80") nil nil)
      (node (ascii "<VirtualHost") (ascii "_default_:80000>")
        (node (ascii "Port") (ascii "81") nil nil) nil)).Exact (fun hash e => hash ++ [e])
      (ascii "virtualhost") (some (ascii "_default_:8000")) false := by
  refine (lookup_exact_iff _ (fun hash e => List.perm_append_singleton e hash) _ _ _ _).mpr
    (List.forall_mem_cons.mpr ⟨fun _ => ⟨fun _ => by decide, fun _ => ?_⟩,
      List.forall_mem_cons.mpr ⟨fun _ => ⟨fun _ => by decide, fun h => ?_⟩,
        fun _ hn => nomatch hn⟩⟩)
  · exact ⟨by decide, by decide, by simp [Insertable, containers]⟩
  · exact absurd (h _ rfl) (by decide)

/-- The directive `User` is returned for the key `UserDir`. -/
theorem lookup_exact_fails :
    ¬∀ (key : Bytes) (value : Option Bytes) (scalarContext : Bool) (tree : Directives),
      tree.Exact (fun hash e => hash ++ [e]) key value scalarContext := by
  intro hall
  obtain ⟨found, hfound, hmap⟩ := hall (ascii "UserDir") none true
    (node (ascii "User") (ascii "nobody") nil
      (node (ascii "UserDir") (ascii "public_html") nil nil))
  cases hfound
  exact absurd hmap (by decide)

end ModPerl
