import Mathlib.Data.List.Infix
import Mathlib.Data.List.Nodup
import ModPerl.Library.Machine
import ModPerl.Httpd

/-!
# The constants

`ModPerl::Code` writes the C functions that know the constants: for each of the classes
`APR::Const`, `Apache2::Const` and `ModPerl`, one that finds a constant by its Perl name, by
a `switch` on the first letter and comparisons behind it, and one that finds the names of a
group.  The Perl name of a constant is its C name without a prefix, and some of the C names
are only known to some versions of the server, so that the code for them is conditional.

`modperl_const_compile` defines the constants as Perl functions by these, once, and exports
them.  The C functions are the source and the generated code here: `generateLookup` writes
the code, and `LookupFunc.run` is what the code does.
-/

namespace ModPerl

open Table

/-! ## The generator -/

/-- A class of `$Apache2::ConstantsTable`, with the C names of its groups. -/
structure ConstClass where
  name : Bytes
  groups : List (Bytes × List Bytes)

namespace ConstClass

/-- `$constants`, the C names of all groups. -/
def constants (cls : ConstClass) : List Bytes := cls.groups.flatMap Prod.snd

/-- `$package` -/
def package (cls : ConstClass) : Bytes := cls.name ++ ascii "::"

end ConstClass

/-- `$constant_prefixes`, in the order in which they are tried. -/
def constantPrefixes : List Bytes := [ascii "APR", ascii "AP", ascii "MODPERL_RC"]

/-- `%shortcuts` -/
def shortcuts : Table Bytes Bytes :=
  [(ascii "NOT_FOUND", ascii "HTTP_NOT_FOUND"), (ascii "FORBIDDEN", ascii "HTTP_FORBIDDEN"),
    (ascii "AUTH_REQUIRED", ascii "HTTP_UNAUTHORIZED"),
    (ascii "SERVER_ERROR", ascii "HTTP_INTERNAL_SERVER_ERROR"),
    (ascii "REDIRECT", ascii "HTTP_MOVED_TEMPORARILY")]

/-- `%ifdef` -/
def constantsIfdef : List Bytes :=
  [ascii "APLOG_TOCLIENT", ascii "APR_LIMIT_NOFILE", ascii "AP_MPMQ_STARTING",
    ascii "AP_MPMQ_RUNNING", ascii "AP_MPMQ_STOPPING", ascii "AP_MPMQ_MPM_STATE",
    ascii "APR_FPROT_USETID", ascii "APR_FPROT_GSETID", ascii "APR_FPROT_WSTICKY",
    ascii "APR_FOPEN_LARGEFILE", ascii "OPT_INCNOEXEC", ascii "OPT_INC_WITH_EXEC"]

/-- The constants that are strings. -/
def stringConstants : List Bytes :=
  [ascii "DECLINE_CMD", ascii "DIR_MAGIC_TYPE", ascii "CRLF", ascii "CRLF_ASCII"]

/-- `s/^($constant_prefixes)(_)?//`: what is taken off, and what is left. -/
def splitPrefix (c : Bytes) : Option (Bytes × Bytes) :=
  (constantPrefixes.find? fun p => p.isPrefixOf c).map fun p =>
    if (c.drop p.length).head? = some 95 then (c.take (p.length + 1), c.drop (p.length + 1))
    else (c.take p.length, c.drop p.length)

/-- The Perl name of a constant. -/
def constName (c : Bytes) : Bytes := ((splitPrefix c).map Prod.snd).getD c

/-- What is false in Perl. -/
def falseText (v : Bytes) : Bool := v = [] ∨ v = [48]

/-- One round of the loop that fills `%alias`. -/
def aliasStep (exprs : Table Bytes Bytes) (c : Bytes) : Table Bytes Bytes :=
  match splitPrefix c with
  | some (pre, name) => Table.set id exprs name (pre ++ name)
  | none => if (get id exprs c).all falseText then Table.set id exprs c c else exprs

/-- `%alias`: the C expression for each Perl name. -/
def aliases (constants : List Bytes) : Table Bytes Bytes := constants.foldl aliasStep shortcuts

/-- `/^([A-Z])/` -/
def capital (name : Bytes) : Bool := name.head?.any fun b => 65 ≤ b ∧ b ≤ 90

/-- `if (strEQ(name, "…")) { return newSViv(…); }`, or with `newSVpv`, and the name in the
`#ifdef` around it. -/
structure ConstTest where
  ifdef : Option Bytes
  name : Bytes
  string : Bool
  value : Bytes
  deriving DecidableEq

/-- A lookup function: the package that is skipped, and the cases of the `switch`. -/
structure LookupFunc where
  package : Bytes
  cases : List (UInt8 × List ConstTest)

/-- `constants_ifdef` -/
def ifdefOf (c : Bytes) : Option Bytes := if constantsIfdef.contains c then some c else none

def testOf (exprs : Table Bytes Bytes) (name : Bytes) : ConstTest :=
  let value := (get id exprs name).getD []
  ⟨ifdefOf value, name, stringConstants.contains name, value⟩

/-- `sort keys %switch` -/
def switchKeys (names : List Bytes) : List UInt8 :=
  ((List.range 26).map fun i => UInt8.ofNat (65 + i)).filter fun k =>
    names.any fun name => name.head? = some k

/-- `constants_lookup_code` -/
def generateLookup (cls : ConstClass) : LookupFunc :=
  let names := cls.constants.map constName
  let tests := names.map (testOf (aliases cls.constants))
  ⟨cls.package, (switchKeys names).map fun k => (k, tests.filter fun t => t.name.head? = some k)⟩

/-! ## The generated code -/

/-- A constant of Perl: the C expression that it was made of. -/
inductive SvConst
  | iv (value : Bytes)
  | pv (value : Bytes)
  deriving DecidableEq

/-- What the lookup functions of a build know. -/
def available (defined : Bytes → Bool) (ifdef : Option Bytes) : Bool := ifdef.all defined

/-- The name behind the package, if it begins with it. -/
def skipPackage (package name : Bytes) : Bytes :=
  if package.isPrefixOf name then name.drop package.length else name

/-- The function, compiled with these names defined; it croaks if it does not know the
constant. -/
def LookupFunc.run (f : LookupFunc) (defined : Bytes → Bool) (name : Bytes) : Option SvConst :=
  let name := skipPackage f.package name
  (name.head?.bind fun k => f.cases.find? fun c => c.1 = k).bind fun c =>
    ((c.2.filter fun t => available defined t.ifdef).find? fun t => t.name = name).map fun t =>
      if t.string then .pv t.value else .iv t.value

/-- `constants_group_lookup_code`, and what the code does: the names of a group, up to the
`NULL`. -/
def groupLookup (cls : ConstClass) (defined : Bytes → Bool) (group : Bytes) : Option (List Bytes) :=
  (cls.groups.find? fun g =>
      g.1 = group ∧ g.1.head?.any fun b => 65 ≤ b ∧ b ≤ 90 ∨ 97 ≤ b ∧ b ≤ 122).map fun g =>
    (g.2.filter fun c => available defined (ifdefOf c)).map constName

/-! ## What the code finds -/

variable {cls : ConstClass} {defined : Bytes → Bool} {c c' name : Bytes}
  {constants : List Bytes}

/-- The C expression for a constant. -/
def expansion (c : Bytes) : Bytes :=
  if (splitPrefix c).isSome then c else (get id shortcuts c).getD c

/-- The value of a constant. -/
def constValue (c : Bytes) : SvConst :=
  if stringConstants.contains (constName c) then .pv (expansion c) else .iv (expansion c)

/-- No two constants of the class have one Perl name, unless they are the same. -/
def ConstClass.Unambiguous (cls : ConstClass) : Prop :=
  ∀ c ∈ cls.constants, ∀ c' ∈ cls.constants, constName c = constName c' → expansion c = expansion c'

instance : Decidable cls.Unambiguous :=
  inferInstanceAs (Decidable (∀ c ∈ cls.constants, ∀ c' ∈ cls.constants,
    constName c = constName c' → expansion c = expansion c'))

theorem splitPrefix_append {pre : Bytes} (h : splitPrefix c = some (pre, name)) :
    pre ++ name = c := by
  obtain ⟨p, -, hp⟩ := Option.map_eq_some_iff.mp h
  split_ifs at hp
  · obtain ⟨rfl, rfl⟩ := Prod.mk.inj hp
    exact List.take_append_drop _ _
  · obtain ⟨rfl, rfl⟩ := Prod.mk.inj hp
    exact List.take_append_drop _ _

theorem not_falseText_of_append {pre : Bytes} (hcapital : capital name = true) :
    falseText (pre ++ name) = false := by
  cases name with
  | nil => cases hcapital
  | cons b name =>
      simp only [falseText, decide_eq_false_iff_not, not_or]
      refine ⟨by simp, fun h => ?_⟩
      -- a capital is not a zero
      have hb : b = 48 := by
        have hmem : b ∈ pre ++ b :: name := by simp
        rw [h] at hmem
        exact List.mem_singleton.mp hmem
      rw [hb] at hcapital
      cases hcapital

theorem not_falseText_shortcuts {v : Bytes} (h : get id shortcuts c = some v) :
    falseText v = false := by
  obtain ⟨e, he, -, rfl⟩ := exists_mem_of_get h
  have hall : ∀ e ∈ shortcuts, falseText e.2 = false := by decide
  exact hall e he

theorem not_falseText_expansion (hcapital : capital (constName c) = true) :
    falseText (expansion c) = false := by
  unfold expansion
  unfold constName at hcapital
  cases hsplit : splitPrefix c with
  | some split =>
      rw [hsplit] at hcapital
      rw [Option.isSome_some, if_pos rfl, ← splitPrefix_append hsplit]
      exact not_falseText_of_append hcapital
  | none =>
      rw [hsplit] at hcapital
      rw [Option.isSome_none, if_neg Bool.false_ne_true]
      cases hshort : get id shortcuts c with
      | some v => exact not_falseText_shortcuts hshort
      | none => exact List.nil_append c ▸ not_falseText_of_append hcapital

/-- `%alias` after some of the constants: of their names the C expressions, of other names
the shortcuts. -/
structure Aliased (constants : List Bytes) (exprs : Table Bytes Bytes) : Prop where
  seen : ∀ c ∈ constants, capital (constName c) = true →
    get id exprs (constName c) = some (expansion c)
  unseen : ∀ name, name ∉ constants.map constName → get id exprs name = get id shortcuts name

theorem Aliased.step {exprs : Table Bytes Bytes} (h : Aliased constants exprs)
    (hsame : ∀ c' ∈ constants, constName c' = constName c → expansion c' = expansion c) :
    Aliased (constants ++ [c]) (aliasStep exprs c) := by
  have hget : (capital (constName c) = true →
        get id (aliasStep exprs c) (constName c) = some (expansion c)) ∧
      ∀ name, name ≠ constName c → get id (aliasStep exprs c) name = get id exprs name := by
    unfold aliasStep constName expansion
    cases hsplit : splitPrefix c with
    | some split =>
        obtain ⟨pre, rest⟩ := split
        simp only [Option.map_some, Option.getD_some, Option.isSome_some, if_true, get_set, id,
          splitPrefix_append hsplit]
        exact ⟨fun _ => trivial, fun name hne => if_neg (Ne.symm hne)⟩
    | none =>
        have hname : constName c = c := by rw [constName, hsplit]; rfl
        simp only [Option.map_none, Option.getD_none, Option.isSome_none, Bool.false_eq_true,
          if_false]
        have hother : ∀ name, name ≠ c →
            get id (if (get id exprs c).all falseText = true then Table.set id exprs c c else exprs)
              name = get id exprs name := by
          intro name hne
          split_ifs
          · rw [get_set]
            exact if_neg (Ne.symm hne)
          · rfl
        refine ⟨fun hcapital => ?_, hother⟩
        by_cases hmem : c ∈ constants.map constName
        · -- the name has its expression already
          obtain ⟨c', hc', hc'name⟩ := List.mem_map.mp hmem
          have hexp := hsame c' hc' (hc'name.trans hname.symm)
          have hseen := h.seen c' hc' (hc'name ▸ hcapital)
          have htrue := not_falseText_expansion (hc'name ▸ hcapital : capital (constName c') = true)
          rw [hc'name] at hseen
          rw [hseen, Option.all_some, htrue, if_neg Bool.false_ne_true, hseen, hexp, expansion,
            hsplit]
          rfl
        · rw [h.unseen c hmem]
          cases hshort : get id shortcuts c with
          | some v =>
              rw [Option.all_some, not_falseText_shortcuts hshort, if_neg Bool.false_ne_true,
                h.unseen c hmem, hshort]
              rfl
          | none =>
              rw [Option.all_none, if_pos rfl, get_set, if_pos rfl]
              rfl
  refine ⟨fun c' hc' hcapital => ?_, fun name hname => ?_⟩
  · by_cases heq : constName c' = constName c
    · rw [heq] at hcapital ⊢
      rw [hget.1 hcapital]
      obtain hc' | hc' := List.mem_append.mp hc'
      · rw [hsame c' hc' heq]
      · rw [List.mem_singleton.mp hc']
    · rw [hget.2 _ heq]
      obtain hc' | hc' := List.mem_append.mp hc'
      · exact h.seen c' hc' hcapital
      · exact absurd (congrArg constName (List.mem_singleton.mp hc')) heq
  · rw [List.map_append, List.mem_append, not_or, List.map_singleton, List.mem_singleton] at hname
    rw [hget.2 _ hname.2]
    exact h.unseen name hname.1

/-- Each Perl name has the C expression of its constant. -/
theorem ConstClass.Unambiguous.aliased (h : cls.Unambiguous) :
    Aliased cls.constants (aliases cls.constants) := by
  have hpart : ∀ done todo, done ++ todo = cls.constants → Aliased done (aliases done) →
      Aliased cls.constants (aliases cls.constants) := by
    intro done todo
    induction todo generalizing done with
    | nil =>
        intro heq hdone
        rw [List.append_nil] at heq
        exact heq ▸ hdone
    | cons c todo ih =>
        intro heq hdone
        refine ih (done ++ [c]) (by rw [List.append_assoc]; exact heq) ?_
        rw [aliases, List.foldl_append]
        refine hdone.step fun c' hc' hname => h c' ?_ c ?_ hname
        · exact heq ▸ List.mem_append_left _ hc'
        · exact heq ▸ List.mem_append_right _ List.mem_cons_self
  exact hpart [] cls.constants rfl ⟨fun _ h => (List.not_mem_nil h).elim, fun _ _ => rfl⟩

theorem mem_switchKeys {names : List Bytes} {k : UInt8} :
    k ∈ switchKeys names ↔ ∃ name ∈ names, name.head? = some k ∧ capital name = true := by
  have hrange : k ∈ (List.range 26).map (fun i => UInt8.ofNat (65 + i)) ↔ 65 ≤ k ∧ k ≤ 90 := by
    have h65 : (65 : UInt8).toNat = 65 := rfl
    have h90 : (90 : UInt8).toNat = 90 := rfl
    rw [List.mem_map, UInt8.le_iff_toNat_le, UInt8.le_iff_toNat_le]
    constructor
    · rintro ⟨i, hi, rfl⟩
      have hi := List.mem_range.mp hi
      rw [UInt8.toNat_ofNat', Nat.mod_eq_of_lt (by omega)]
      omega
    · intro h
      refine ⟨k.toNat - 65, List.mem_range.mpr (by omega), ?_⟩
      rw [show 65 + (k.toNat - 65) = k.toNat by omega, UInt8.ofNat_toNat]
  rw [switchKeys, List.mem_filter, hrange, List.any_eq_true]
  constructor
  · rintro ⟨hk, name, hname, hhead⟩
    refine ⟨name, hname, of_decide_eq_true hhead, ?_⟩
    rw [capital, of_decide_eq_true hhead, Option.any_some, decide_eq_true_eq]
    exact hk
  · rintro ⟨name, hname, hhead, hcapital⟩
    rw [capital, hhead, Option.any_some, decide_eq_true_eq] at hcapital
    exact ⟨hcapital, name, hname, decide_eq_true hhead⟩

/-- The test for a constant of the class. -/
theorem ConstClass.Unambiguous.testOf_eq (h : cls.Unambiguous) (hc : c ∈ cls.constants)
    (hcapital : capital (constName c) = true) :
    testOf (aliases cls.constants) (constName c) =
      ⟨ifdefOf (expansion c), constName c, stringConstants.contains (constName c),
        expansion c⟩ := by
  rw [testOf, h.aliased.seen c hc hcapital, Option.getD_some]

/-- Of the tests the one that comes to a constant is the one with its name. -/
theorem find?_tests {exprs : Table Bytes Bytes} {names : List Bytes} {p : ConstTest → Bool} :
    ((names.map (testOf exprs)).filter p).find? (fun t => t.name = name) =
      if name ∈ names ∧ p (testOf exprs name) = true then some (testOf exprs name) else none := by
  induction names with
  | nil => simp
  | cons n names ih =>
      rw [List.map_cons, List.filter_cons]
      by_cases hn : n = name
      · subst hn
        split_ifs with hp hmem hmem
        · rw [List.find?_cons_of_pos (by simp [testOf])]
        · exact absurd ⟨List.mem_cons_self, hp⟩ hmem
        · exact absurd hmem.2 hp
        · rw [ih, if_neg fun hmem => hp hmem.2]
      · have hmem : name ∈ n :: names ↔ name ∈ names := by simp [Ne.symm hn]
        simp only [hmem]
        rw [← ih]
        split_ifs with hp
        · rw [List.find?_cons_of_neg (by simp [testOf, hn])]
        · rfl

/-- The case of a letter. -/
theorem find?_switchKeys {names : List Bytes} {k : UInt8} {f : UInt8 → List ConstTest} :
    ((switchKeys names).map fun k => (k, f k)).find? (fun c => c.1 = k) =
      if k ∈ switchKeys names then some (k, f k) else none := by
  rw [List.find?_map]
  change ((switchKeys names).find? fun k' => k' = k).map _ = _
  split_ifs with hk
  · cases hfind : (switchKeys names).find? fun k' => k' = k with
    | none => exact absurd (decide_eq_true rfl) (List.find?_eq_none.mp hfind k hk)
    | some k' =>
        have hkey : k' = k := by simpa using List.find?_some hfind
        rw [hkey, Option.map_some]
  · have hnone : (switchKeys names).find? (fun k' => k' = k) = none := by
      rw [List.find?_eq_none]
      rintro k' hk' h
      exact hk (of_decide_eq_true h ▸ hk')
    rw [hnone, Option.map_none]

/-- The generated function knows the constants by their Perl names, if the C names are known
in the build, and no other names. -/
theorem lookup_eq (h : cls.Unambiguous) (defined : Bytes → Bool) (name : Bytes) (v : SvConst) :
    (generateLookup cls).run defined name = some v ↔
      ∃ c ∈ cls.constants, constName c = skipPackage cls.package name ∧
        capital (constName c) = true ∧ available defined (ifdefOf (expansion c)) = true ∧
        v = constValue c := by
  have hrun : (generateLookup cls).run defined name =
      (((skipPackage cls.package name).head?.bind fun k =>
        ((switchKeys (cls.constants.map constName)).map fun k => (k,
          ((cls.constants.map constName).map (testOf (aliases cls.constants))).filter
            fun t => t.name.head? = some k)).find? fun c => c.1 = k).bind fun c =>
      ((c.2.filter fun t => available defined t.ifdef).find?
        fun t => t.name = skipPackage cls.package name).map fun t =>
          if t.string then .pv t.value else .iv t.value) := rfl
  rw [hrun]
  generalize skipPackage cls.package name = name
  cases hhead : name.head? with
  | none =>
      refine ⟨(by rintro ⟨⟩), ?_⟩
      rintro ⟨c, -, rfl, hcapital, -⟩
      rw [capital, hhead] at hcapital
      cases hcapital
  | some k =>
      rw [Option.bind_some, find?_switchKeys]
      split_ifs with hk
      · rw [Option.bind_some, List.filter_filter, find?_tests]
        have hcapital : capital name = true := by
          obtain ⟨name', -, hhead', hcapital⟩ := mem_switchKeys.mp hk
          rw [capital, hhead, ← hhead']
          exact hcapital
        constructor
        · intro hsome
          obtain ⟨t, ht, rfl⟩ := Option.map_eq_some_iff.mp hsome
          split_ifs at ht with hmem
          obtain ⟨c, hc, rfl⟩ := List.mem_map.mp hmem.1
          obtain rfl := Option.some.inj ht
          rw [h.testOf_eq hc hcapital] at hmem ⊢
          refine ⟨c, hc, rfl, hcapital, ?_, ?_⟩
          · exact (Bool.and_eq_true_iff.mp hmem.2).1
          · simp only [constValue]
        · rintro ⟨c, hc, rfl, -, havail, rfl⟩
          rw [h.testOf_eq hc hcapital, if_pos, Option.map_some]
          · simp only [constValue]
          · exact ⟨List.mem_map_of_mem hc, by simpa [hhead] using havail⟩
      · refine ⟨(by rintro ⟨⟩), ?_⟩
        rintro ⟨c, hc, rfl, hcapital, -⟩
        exact absurd (mem_switchKeys.mpr ⟨_, List.mem_map_of_mem hc, hhead, hcapital⟩) hk

/-! ## Compiling the constants -/

/-- `$Apache2::ConstantsTable` -/
structure ConstTables where
  apr : ConstClass
  apache2 : ConstClass
  modperl : ConstClass

/-- A Perl function: a constant, or other code. -/
inductive PerlSub
  | constant (value : SvConst)
  | code (id : Nat)
  deriving DecidableEq

/-- The functions of the packages, by package and name. -/
abbrev Subs := Table (Bytes × Bytes) PerlSub

/-- How a call ends.  A `fault` is the use of a slot that is no glob as one. -/
inductive ConstEnd
  | returned
  | croaked
  | fault
  deriving DecidableEq

/-- Perl takes the name for one with a package. -/
def qualified (name : Bytes) : Bool := ascii "::" <:+: name ∨ 39 ∈ name

/-- The end of `new_constsub` -/
def exportConstsub (caller : Option Bytes) (name : Bytes) (cv : PerlSub) (subs : Subs) : Subs :=
  match caller with
  | none => subs
  | some package => Table.set id subs (package, name) cv

/-- `new_constsub` -/
def newConstsub (lookup : Bytes → Option SvConst) (caller : Option Bytes) (stash name : Bytes)
    (subs : Subs) : ConstEnd × Subs :=
  match get id subs (stash, name) with
  | some cv => (.returned, exportConstsub caller name cv subs)
  | none =>
      match lookup name with
      | none => (.croaked, subs)
      | some v =>
          -- `newCONSTSUB` makes a glob of another slot
          if qualified name then (.fault, subs)
          else
            (.returned, exportConstsub caller name (.constant v)
              (Table.set id subs (stash, name) (.constant v)))

/-- A list of names, up to one that croaks. -/
def compileNames (compile : Bytes → Subs → ConstEnd × Subs) : List Bytes → Subs → ConstEnd × Subs
  | [], subs => (.returned, subs)
  | name :: names, subs =>
      match compile name subs with
      | (.returned, subs) => compileNames compile names subs
      | stopped => stopped

namespace ConstTables

def classes (t : ConstTables) : List ConstClass := [t.apr, t.apache2, t.modperl]

/-- The class whose functions are taken. -/
def classOf (t : ConstTables) (classname : Bytes) : ConstClass :=
  if (ascii "APR").isPrefixOf classname then t.apr
  else if (ascii "Apache2").isPrefixOf classname then t.apache2
  else t.modperl

/-- `caller_stash`: names are not exported if the argument is an option. -/
def callerStash (arg : Bytes) : Option Bytes := if arg.head? = some 45 then none else some arg

/-- `modperl_const_compile` -/
def constCompile (t : ConstTables) (defined : Bytes → Bool) (classname arg name : Bytes)
    (subs : Subs) : ConstEnd × Subs :=
  let cls := t.classOf classname
  let lookup := (generateLookup cls).run defined
  if name.head? = some 58 then
    match groupLookup cls defined name.tail with
    | none => (.croaked, subs)
    | some group => compileNames (newConstsub lookup (callerStash arg) classname) group subs
  else
    newConstsub lookup (callerStash arg) classname
      (if name.head? = some 38 then name.tail else name) subs

end ConstTables

/-- The class of a `compile` function, by the package that it was put in. -/
def constClassname (stashname : Bytes) : Bytes :=
  if stashname[1]? = some 80 then ascii "APR::Const"
  else if stashname.head? = some 65 then ascii "Apache2::Const"
  else ascii "ModPerl"

/-- `XS_modperl_const_compile` -/
def ConstTables.compile (t : ConstTables) (defined : Bytes → Bool) (stashname : Bytes) :
    List Bytes → Subs → ConstEnd × Subs
  | [], subs => (.croaked, subs)
  | arg :: names, subs =>
      compileNames (fun name =>
          t.constCompile defined (constClassname stashname) (cstr arg) (cstr name)) names subs

/-- What `import` passes on to `compile`. -/
def importArgs (caller : Bytes) (args : List Bytes) : List Bytes :=
  let names (args : List Bytes) := if args = [] then [ascii ":common"] else args
  match args with
  | arg :: rest =>
      if (ascii "-compile").isPrefixOf arg then arg :: names rest else caller :: names args
  | [] => caller :: names []

/-- What Perl code does. -/
inductive ConstCall
  | imports (stashname caller : Bytes) (args : List Bytes)
  | compile (stashname : Bytes) (args : List Bytes)
  | define (package name : Bytes) (code : Nat)

namespace ConstTables

variable (t : ConstTables) (defined : Bytes → Bool)

/-- A call.  Croaks are caught, or the program ends. -/
def step (subs : Subs) : ConstCall → Option Subs
  | .imports stashname caller args =>
      let (r, subs) := t.compile defined stashname (importArgs caller args) subs
      if r = .fault then none else some subs
  | .compile stashname args =>
      let (r, subs) := t.compile defined stashname args subs
      if r = .fault then none else some subs
  | .define package name code => some (Table.set id subs (package, name) (.code code))

/-- Nothing is exported into the packages of the constants, and no other code takes their names. -/
def Legal : Subs → ConstCall → Prop
  | _, .imports _ caller args =>
      ∀ p ∈ (importArgs caller args).head?, cstr p ∉ t.classes.map ConstClass.name
  | _, .compile _ args => ∀ p ∈ args.head?, cstr p ∉ t.classes.map ConstClass.name
  | _, .define package name _ =>
      ∀ cls ∈ t.classes, package = cls.name → name ∉ cls.constants.map constName

instance : DecidableRel t.Legal
  | _, .imports _ caller args => inferInstanceAs
      (Decidable (∀ p ∈ (importArgs caller args).head?, cstr p ∉ t.classes.map ConstClass.name))
  | _, .compile _ args => inferInstanceAs
      (Decidable (∀ p ∈ args.head?, cstr p ∉ t.classes.map ConstClass.name))
  | _, .define package name _ => inferInstanceAs
      (Decidable (∀ cls ∈ t.classes, package = cls.name → name ∉ cls.constants.map constName))

/-- Tables as they are written: the classes that the C code names, constants that the `switch`
has a case for, and C identifiers. -/
structure Proper : Prop where
  names : t.classes.map ConstClass.name =
    [ascii "APR::Const", ascii "Apache2::Const", ascii "ModPerl"]
  unambiguous : ∀ cls ∈ t.classes, cls.Unambiguous
  capitals : ∀ cls ∈ t.classes, ∀ c ∈ cls.constants, capital (constName c) = true
  identifiers : ∀ cls ∈ t.classes, ∀ c ∈ cls.constants, qualified (constName c) = false
  groups : ∀ cls ∈ t.classes, (cls.groups.map Prod.fst).Nodup
  letters : ∀ cls ∈ t.classes, ∀ g ∈ cls.groups,
    g.1.head?.any (fun b => 65 ≤ b ∧ b ≤ 90 ∨ 97 ≤ b ∧ b ≤ 122) = true

/-- The function is a constant of the class by its Perl name, known in this build. -/
def IsConst (cls : ConstClass) (name : Bytes) (sub : PerlSub) : Prop :=
  ∃ c ∈ cls.constants, constName c = name ∧ available defined (ifdefOf c) = true ∧
    sub = .constant (constValue c)

/-- The constants in the packages of the classes are those of the class, the constants in
other packages those of some class, and no other code has the name of a constant of the
class in its package. -/
structure Right (subs : Subs) : Prop where
  owned : ∀ cls ∈ t.classes, ∀ name sub, get id subs (cls.name, name) = some sub →
    IsConst defined cls name sub ∨ (∃ code, sub = .code code) ∧ name ∉ cls.constants.map constName
  exported : ∀ package name v, get id subs (package, name) = some (.constant v) →
    ∃ cls ∈ t.classes, IsConst defined cls name (.constant v)

variable {t defined} {cls cls' : ConstClass} {subs : Subs} {caller : Option Bytes}
  {sub sub' cv : PerlSub} {v : SvConst} {p : Bytes}

theorem ifdefOf_expansion (c : Bytes) : ifdefOf (expansion c) = ifdefOf c := by
  unfold expansion
  split_ifs with hsplit
  · rfl
  · cases hshort : get id shortcuts c with
    | none => rfl
    | some v =>
        -- neither the short names nor what they stand for are conditional
        obtain ⟨e, he, rfl, rfl⟩ := exists_mem_of_get hshort
        have hall : ∀ e ∈ shortcuts, ifdefOf e.2 = ifdefOf e.1 := by decide
        exact hall e he

theorem IsConst.unique (hcls : cls.Unambiguous) (h : IsConst defined cls name sub)
    (h' : IsConst defined cls name sub') : sub = sub' := by
  obtain ⟨c, hc, rfl, -, rfl⟩ := h
  obtain ⟨c', hc', hname, -, rfl⟩ := h'
  rw [constValue, constValue, hname, hcls c' hc' c hc hname]

theorem lookup_plain (ht : t.Proper) (hcls : cls ∈ t.classes) (hname : qualified name = false) :
    (generateLookup cls).run defined name = some v ↔ IsConst defined cls name (.constant v) := by
  have hskip : skipPackage cls.package name = name := by
    refine if_neg fun hpre => ?_
    obtain ⟨rest, rfl⟩ := List.isPrefixOf_iff_prefix.mp hpre
    have hinfix : ascii "::" <:+: cls.package ++ rest := ⟨cls.name, rest, rfl⟩
    rw [qualified, decide_eq_false_iff_not] at hname
    exact hname (.inl hinfix)
  rw [lookup_eq (ht.unambiguous cls hcls), hskip]
  constructor
  · rintro ⟨c, hc, hcname, -, havail, rfl⟩
    rw [ifdefOf_expansion] at havail
    exact ⟨c, hc, hcname, havail, rfl⟩
  · rintro ⟨c, hc, hcname, havail, hv⟩
    rw [← ifdefOf_expansion] at havail
    exact ⟨c, hc, hcname, ht.capitals cls hcls c hc, havail, PerlSub.constant.inj hv⟩

theorem Proper.name_inj (ht : t.Proper) (hcls : cls ∈ t.classes) (hcls' : cls' ∈ t.classes)
    (h : cls.name = cls'.name) : cls = cls' := by
  have hnodup : (t.classes.map ConstClass.name).Nodup := by
    rw [ht.names]
    decide
  exact List.inj_on_of_nodup_map hnodup hcls hcls' h

theorem get_exportConstsub {n : Bytes} :
    get id (exportConstsub caller name cv subs) (p, n) =
      if caller = some p ∧ name = n then some cv else get id subs (p, n) := by
  cases caller with
  | none => simp [exportConstsub]
  | some package =>
      rw [exportConstsub, get_set]
      simp only [id, Prod.mk.injEq, Option.some.injEq]

/-- The names that are exported are not in a package of a class. -/
def Foreign (t : ConstTables) (caller : Option Bytes) : Prop :=
  ∀ p ∈ caller, p ∉ t.classes.map ConstClass.name

theorem Right.exportConstsub (h : t.Right defined subs) (hcaller : t.Foreign caller)
    (hcv : ∀ v, cv = .constant v → ∃ cls ∈ t.classes, IsConst defined cls name (.constant v)) :
    t.Right defined (exportConstsub caller name cv subs) where
  owned cls hcls n sub hsub := by
    rw [get_exportConstsub, if_neg] at hsub
    · exact h.owned cls hcls n sub hsub
    · rintro ⟨hpackage, -⟩
      exact hcaller _ hpackage (List.mem_map_of_mem hcls)
  exported p n v hsub := by
    rw [get_exportConstsub] at hsub
    split_ifs at hsub with hkey
    · obtain ⟨-, rfl⟩ := hkey
      exact hcv v (Option.some.inj hsub)
    · exact h.exported p n v hsub

theorem Right.set (ht : t.Proper) (h : t.Right defined subs) (hcls : cls ∈ t.classes)
    (hconst : IsConst defined cls name (.constant v)) :
    t.Right defined (Table.set id subs (cls.name, name) (.constant v)) where
  owned cls' hcls' n sub hsub := by
    rw [get_set] at hsub
    split_ifs at hsub with hkey
    · obtain ⟨hclsname, rfl⟩ := Prod.mk.inj hkey
      obtain rfl := ht.name_inj hcls hcls' hclsname
      exact .inl (Option.some.inj hsub ▸ hconst)
    · exact h.owned cls' hcls' n sub hsub
  exported p n v' hsub := by
    rw [get_set] at hsub
    split_ifs at hsub with hkey
    · obtain ⟨-, rfl⟩ := Prod.mk.inj hkey
      exact ⟨cls, hcls, Option.some.inj hsub ▸ hconst⟩
    · exact h.exported p n v' hsub

theorem Right.define (h : t.Right defined subs) {code : Nat}
    (hlegal : ∀ cls ∈ t.classes, p = cls.name → name ∉ cls.constants.map constName) :
    t.Right defined (Table.set id subs (p, name) (.code code)) where
  owned cls hcls n sub hsub := by
    rw [get_set] at hsub
    split_ifs at hsub with hkey
    · obtain ⟨rfl, rfl⟩ := Prod.mk.inj hkey
      exact .inr ⟨⟨code, (Option.some.inj hsub).symm⟩, hlegal cls hcls rfl⟩
    · exact h.owned cls hcls n sub hsub
  exported p' n v hsub := by
    rw [get_set] at hsub
    split_ifs at hsub with hkey
    · cases Option.some.inj hsub
    · exact h.exported p' n v hsub

/-- The name has its function in the package of the class, and where it is exported. -/
def Compiled (cls : ConstClass) (caller : Option Bytes) (name : Bytes) (sub : PerlSub)
    (subs : Subs) : Prop :=
  get id subs (cls.name, name) = some sub ∧ ∀ p ∈ caller, get id subs (p, name) = some sub

/-- What `new_constsub` does: it returns with the function compiled, and other names are left
as they are, or it ends early and nothing is changed. -/
theorem newConstsub_cases (ht : t.Proper) (hcls : cls ∈ t.classes) (h : t.Right defined subs)
    (hcaller : t.Foreign caller) (name : Bytes) {r : ConstEnd} {subs' : Subs}
    (hr : newConstsub ((generateLookup cls).run defined) caller cls.name name subs = (r, subs')) :
    (r = .returned ∧ t.Right defined subs' ∧ (∃ sub, Compiled cls caller name sub subs') ∧
        ∀ p n, n ≠ name → get id subs' (p, n) = get id subs (p, n)) ∨
      (r ≠ .returned ∧ subs' = subs ∧ get id subs (cls.name, name) = none ∧
        (qualified name = false → r = .croaked ∧ ∀ sub, ¬IsConst defined cls name sub)) := by
  unfold newConstsub at hr
  cases hget : get id subs (cls.name, name) with
  | some cv =>
      simp only [hget, Prod.mk.injEq] at hr
      obtain ⟨rfl, rfl⟩ := hr
      refine .inl ⟨rfl, h.exportConstsub hcaller ?_, ⟨cv, ?_, ?_⟩, ?_⟩
      · rintro v rfl
        exact h.exported _ _ _ hget
      · rw [get_exportConstsub, hget, ite_self]
      · rintro p rfl
        rw [get_exportConstsub, if_pos ⟨rfl, rfl⟩]
      · intro p n hn
        rw [get_exportConstsub, if_neg fun hkey => hn hkey.2.symm]
  | none =>
      simp only [hget] at hr
      cases hlookup : (generateLookup cls).run defined name with
      | none =>
          simp only [hlookup, Prod.mk.injEq] at hr
          obtain ⟨rfl, rfl⟩ := hr
          refine .inr ⟨by decide, rfl, rfl, fun hname => ⟨rfl, ?_⟩⟩
          rintro sub ⟨c, hc, hcname, havail, rfl⟩
          have hsome := (lookup_plain ht hcls hname).mpr ⟨c, hc, hcname, havail, rfl⟩
          rw [hlookup] at hsome
          cases hsome
      | some v =>
          simp only [hlookup] at hr
          split_ifs at hr with hname
          · obtain ⟨rfl, rfl⟩ := Prod.mk.inj hr
            refine .inr ⟨by decide, rfl, rfl, fun hplain => ?_⟩
            rw [hname] at hplain
            cases hplain
          · obtain ⟨rfl, rfl⟩ := Prod.mk.inj hr
            have hconst := (lookup_plain ht hcls (Bool.eq_false_iff.mpr hname)).mp hlookup
            refine .inl ⟨rfl, (h.set ht hcls hconst).exportConstsub hcaller ?_,
              ⟨.constant v, ?_, ?_⟩, ?_⟩
            · rintro v' hv'
              exact ⟨cls, hcls, hv' ▸ hconst⟩
            · rw [get_exportConstsub, get_set, if_pos rfl, ite_self]
            · rintro p rfl
              rw [get_exportConstsub, if_pos ⟨rfl, rfl⟩]
            · intro p n hn
              rw [get_exportConstsub, if_neg fun hkey => hn hkey.2.symm, get_set, if_neg]
              exact fun hkey => hn (Prod.mk.inj hkey).2.symm

/-- If each of the names returns, so does the list, and each has its result at the end. -/
theorem compileNames_returned {compile : Bytes → Subs → ConstEnd × Subs} {I : Subs → Prop}
    {P : Bytes → Subs → Prop} {names : List Bytes}
    (hstep : ∀ name ∈ names, ∀ subs, I subs →
      (compile name subs).1 = .returned ∧ I (compile name subs).2 ∧
        P name (compile name subs).2 ∧ ∀ n, P n subs → P n (compile name subs).2)
    (h : I subs) :
    (compileNames compile names subs).1 = .returned ∧
      (∀ n, P n subs → P n (compileNames compile names subs).2) ∧
      ∀ n ∈ names, P n (compileNames compile names subs).2 := by
  induction names generalizing subs with
  | nil => exact ⟨rfl, fun _ hn => hn, by simp⟩
  | cons name names ih =>
      obtain ⟨hret, hI, hP, hkeep⟩ := hstep name List.mem_cons_self subs h
      rw [compileNames]
      generalize compile name subs = res at hret hI hP hkeep ⊢
      obtain ⟨r, subs'⟩ := res
      obtain rfl : r = .returned := hret
      obtain ⟨hret, hall, hmem⟩ :=
        ih (fun n hn subs h => hstep n (List.mem_cons_of_mem _ hn) subs h) hI
      refine ⟨hret, fun n hn => hall n (hkeep n hn), fun n hn => ?_⟩
      obtain rfl | hn := List.mem_cons.mp hn
      · exact hall _ hP
      · exact hmem n hn

/-- What every name keeps is kept by the list, also if it ends early. -/
theorem compileNames_keeps {compile : Bytes → Subs → ConstEnd × Subs} {I : Subs → Prop}
    {names : List Bytes} (hstep : ∀ name subs, I subs → I (compile name subs).2) (h : I subs) :
    I (compileNames compile names subs).2 := by
  induction names generalizing subs with
  | nil => exact h
  | cons name names ih =>
      have hI := hstep name subs h
      rw [compileNames]
      generalize compile name subs = res at hI ⊢
      obtain ⟨r, subs'⟩ := res
      cases r with
      | returned => exact ih hI
      | croaked => exact hI
      | fault => exact hI

theorem Right.newConstsub (ht : t.Proper) (hcls : cls ∈ t.classes) (h : t.Right defined subs)
    (hcaller : t.Foreign caller) (name : Bytes) :
    t.Right defined
      (newConstsub ((generateLookup cls).run defined) caller cls.name name subs).2 := by
  rcases hr : ModPerl.newConstsub ((generateLookup cls).run defined) caller cls.name name subs
    with ⟨r, subs'⟩
  obtain ⟨-, hright, -⟩ | ⟨-, rfl, -⟩ := newConstsub_cases ht hcls h hcaller name hr
  · exact hright
  · exact h

theorem compiled_newConstsub (ht : t.Proper) (hcls : cls ∈ t.classes) (h : t.Right defined subs)
    (hcaller : t.Foreign caller) (hconst : IsConst defined cls name sub) :
    (newConstsub ((generateLookup cls).run defined) caller cls.name name subs).1 = .returned ∧
      Compiled cls caller name sub
        (newConstsub ((generateLookup cls).run defined) caller cls.name name subs).2 := by
  rcases hr : ModPerl.newConstsub ((generateLookup cls).run defined) caller cls.name name subs
    with ⟨r, subs'⟩
  have hplain : qualified name = false := by
    obtain ⟨c, hc, rfl, -⟩ := hconst
    exact ht.identifiers cls hcls c hc
  obtain ⟨hret, hright, ⟨sub', hsub'⟩, -⟩ | ⟨-, -, -, hcroak⟩ :=
    newConstsub_cases ht hcls h hcaller name hr
  · refine ⟨hret, ?_⟩
    -- what is compiled is a constant of the class, and there is only one of the name
    obtain hconst' | ⟨-, hother⟩ := hright.owned cls hcls name sub' hsub'.1
    · exact hconst.unique (ht.unambiguous cls hcls) hconst' ▸ hsub'
    · obtain ⟨c, hc, rfl, -⟩ := hconst
      exact absurd (List.mem_map_of_mem hc) hother
  · exact absurd hconst ((hcroak hplain).2 sub)

/-- A constant that is compiled stays so. -/
theorem Compiled.newConstsub (ht : t.Proper) (hcls : cls ∈ t.classes) (h : t.Right defined subs)
    (hcaller : t.Foreign caller) {n : Bytes} (hconst : IsConst defined cls n sub)
    (hn : Compiled cls caller n sub subs) (name : Bytes) :
    Compiled cls caller n sub
      (newConstsub ((generateLookup cls).run defined) caller cls.name name subs).2 := by
  by_cases heq : n = name
  · subst heq
    exact (compiled_newConstsub ht hcls h hcaller hconst).2
  · rcases hr : ModPerl.newConstsub ((generateLookup cls).run defined) caller cls.name name subs
      with ⟨r, subs'⟩
    obtain ⟨-, -, -, hframe⟩ | ⟨-, rfl, -⟩ := newConstsub_cases ht hcls h hcaller name hr
    · refine ⟨(hframe _ _ heq).trans hn.1, fun p hp => (hframe _ _ heq).trans (hn.2 p hp)⟩
    · exact hn

theorem classOf_mem (classname : Bytes) : t.classOf classname ∈ t.classes := by
  unfold classOf classes
  split_ifs <;> simp

/-- The class of the functions is the class of the package. -/
theorem Proper.classOf_name (ht : t.Proper) (stashname : Bytes) :
    (t.classOf (constClassname stashname)).name = constClassname stashname := by
  have hnames : [t.apr.name, t.apache2.name, t.modperl.name] =
      [ascii "APR::Const", ascii "Apache2::Const", ascii "ModPerl"] := ht.names
  simp only [List.cons.injEq, and_true] at hnames
  obtain ⟨hapr, hapache2, hmodperl⟩ := hnames
  unfold constClassname
  split_ifs
  · exact hapr
  · exact hapache2
  · exact hmodperl

theorem foreign_callerStash {arg : Bytes} (h : arg ∉ t.classes.map ConstClass.name) :
    t.Foreign (callerStash arg) := by
  unfold callerStash
  split_ifs
  · rintro p ⟨⟩
  · rintro p ⟨⟩
    exact h

theorem Right.constCompile (ht : t.Proper) (h : t.Right defined subs) (stashname : Bytes)
    {arg : Bytes} (harg : arg ∉ t.classes.map ConstClass.name) (name : Bytes) :
    t.Right defined (t.constCompile defined (constClassname stashname) arg name subs).2 := by
  have hname := ht.classOf_name stashname
  have hkeeps : ∀ name subs, t.Right defined subs →
      t.Right defined (ModPerl.newConstsub
        ((generateLookup (t.classOf (constClassname stashname))).run defined) (callerStash arg)
        (constClassname stashname) name subs).2 := by
    intro name subs h
    have hright := h.newConstsub ht (classOf_mem (constClassname stashname))
      (foreign_callerStash harg) name
    rwa [hname] at hright
  unfold ConstTables.constCompile
  dsimp only
  split_ifs
  · split
    · exact h
    · exact compileNames_keeps hkeeps h
  all_goals exact hkeeps _ _ h

theorem Right.compile (ht : t.Proper) (h : t.Right defined subs) (stashname : Bytes)
    {args : List Bytes} (harg : ∀ p ∈ args.head?, cstr p ∉ t.classes.map ConstClass.name) :
    t.Right defined (t.compile defined stashname args subs).2 := by
  cases args with
  | nil => exact h
  | cons arg names =>
      exact compileNames_keeps
        (fun name subs h => h.constCompile ht stashname (harg arg rfl) (cstr name)) h

theorem Right.step (ht : t.Proper) (h : t.Right defined subs) {call : ConstCall}
    (hlegal : t.Legal subs call) {subs' : Subs} (hstep : t.step defined subs call = some subs') :
    t.Right defined subs' := by
  cases call with
  | imports stashname caller args =>
      have hright := h.compile ht stashname hlegal
      unfold ConstTables.step at hstep
      dsimp only at hstep
      split_ifs at hstep
      exact Option.some.inj hstep ▸ hright
  | compile stashname args =>
      have hright := h.compile ht stashname hlegal
      unfold ConstTables.step at hstep
      dsimp only at hstep
      split_ifs at hstep
      exact Option.some.inj hstep ▸ hright
  | define package name code =>
      obtain rfl := Option.some.inj hstep
      exact h.define hlegal

theorem Proper.groupLookup_eq (ht : t.Proper) (hcls : cls ∈ t.classes) {g : Bytes × List Bytes}
    (hg : g ∈ cls.groups) : groupLookup cls defined g.1 =
      some ((g.2.filter fun c => available defined (ifdefOf c)).map constName) := by
  unfold groupLookup
  cases hfind : cls.groups.find? fun g' => g'.1 = g.1 ∧
      g'.1.head?.any fun b => 65 ≤ b ∧ b ≤ 90 ∨ 97 ≤ b ∧ b ≤ 122 with
  | none =>
      have hno := List.find?_eq_none.mp hfind g hg
      exact absurd (decide_eq_true ⟨rfl, ht.letters cls hcls g hg⟩) hno
  | some g' =>
      have hkey := List.find?_some hfind
      rw [decide_eq_true_eq] at hkey
      obtain rfl := List.inj_on_of_nodup_map (ht.groups cls hcls)
        (List.mem_of_find?_eq_some hfind) hg hkey.1
      rw [Option.map_some]

/-- A group that is known does not croak, in whatever build. -/
theorem compiled_group (ht : t.Proper) (h : t.Right defined subs) (stashname : Bytes) {arg : Bytes}
    (harg : arg ∉ t.classes.map ConstClass.name) {g : Bytes × List Bytes}
    (hg : g ∈ (t.classOf (constClassname stashname)).groups) :
    (t.constCompile defined (constClassname stashname) arg (58 :: g.1) subs).1 = .returned ∧
      ∀ c ∈ g.2, available defined (ifdefOf c) = true →
        Compiled (t.classOf (constClassname stashname)) (callerStash arg) (constName c)
          (.constant (constValue c))
          (t.constCompile defined (constClassname stashname) arg (58 :: g.1) subs).2 := by
  have hcls := classOf_mem (t := t) (constClassname stashname)
  have hcompile : t.constCompile defined (constClassname stashname) arg (58 :: g.1) subs =
      compileNames (newConstsub
        ((generateLookup (t.classOf (constClassname stashname))).run defined) (callerStash arg)
        (t.classOf (constClassname stashname)).name)
        ((g.2.filter fun c => available defined (ifdefOf c)).map constName) subs := by
    rw [ht.classOf_name, constCompile, List.head?_cons, if_pos rfl, List.tail_cons,
      ht.groupLookup_eq hcls hg]
  rw [hcompile]
  generalize t.classOf (constClassname stashname) = cls at hg hcls ⊢
  have hforeign := foreign_callerStash harg
  have hconst : ∀ c ∈ g.2, available defined (ifdefOf c) = true →
      IsConst defined cls (constName c) (.constant (constValue c)) := fun c hc havail =>
    ⟨c, List.mem_flatMap.mpr ⟨g, hg, hc⟩, rfl, havail, rfl⟩
  have hstep : ∀ name ∈ (g.2.filter fun c => available defined (ifdefOf c)).map constName,
      ∀ subs, t.Right defined subs →
        (newConstsub ((generateLookup cls).run defined) (callerStash arg) cls.name name
          subs).1 = .returned ∧
        t.Right defined (newConstsub ((generateLookup cls).run defined) (callerStash arg) cls.name
          name subs).2 ∧
        (∀ sub, IsConst defined cls name sub → Compiled cls (callerStash arg) name sub
          (newConstsub ((generateLookup cls).run defined) (callerStash arg) cls.name name subs).2) ∧
        ∀ n, (∀ sub, IsConst defined cls n sub → Compiled cls (callerStash arg) n sub subs) →
          ∀ sub, IsConst defined cls n sub → Compiled cls (callerStash arg) n sub
            (newConstsub ((generateLookup cls).run defined) (callerStash arg) cls.name name
              subs).2 := by
    intro name hname subs h
    obtain ⟨c, hc, rfl⟩ := List.mem_map.mp hname
    obtain ⟨hc, havail⟩ := List.mem_filter.mp hc
    refine ⟨(compiled_newConstsub ht hcls h hforeign (hconst c hc havail)).1,
      h.newConstsub ht hcls hforeign _,
      fun sub hsub => (compiled_newConstsub ht hcls h hforeign hsub).2, ?_⟩
    exact fun n hn sub hsub => (hn sub hsub).newConstsub ht hcls h hforeign hsub _
  obtain ⟨hret, -, hall⟩ := compileNames_returned (P := fun n subs => ∀ sub,
    IsConst defined cls n sub → Compiled cls (callerStash arg) n sub subs) hstep h
  refine ⟨hret, fun c hc havail => hall _ ?_ _ (hconst c hc havail)⟩
  exact List.mem_map_of_mem (List.mem_filter.mpr ⟨hc, havail⟩)

end ConstTables

open ConstTables

/-- Whatever is compiled, imported and defined, the constants of Perl are those of the tables:
no package of a class has a constant that is not of the class, by its Perl name and from its C
expression, and what was exported is a constant of some class.  A group of the tables is
compiled and exported as a whole, with what is known in the build, and a name on its own
either is or was one, or the call croaks and changes nothing. -/
theorem constants_compiled_right (t : ConstTables) (ht : t.Proper) (defined : Bytes → Bool)
    {subs : Subs} (h : Machine.Reachable (t.step defined) t.Legal [] subs) :
    t.Right defined subs ∧
      ∀ stashname arg, arg ∉ t.classes.map ConstClass.name →
        (∀ g ∈ (t.classOf (constClassname stashname)).groups,
          (t.constCompile defined (constClassname stashname) arg (58 :: g.1) subs).1 = .returned ∧
            ∀ c ∈ g.2, available defined (ifdefOf c) = true →
              Compiled (t.classOf (constClassname stashname)) (callerStash arg) (constName c)
                (.constant (constValue c))
                (t.constCompile defined (constClassname stashname) arg (58 :: g.1) subs).2) ∧
        ∀ name, name.head? ≠ some 58 → name.head? ≠ some 38 → qualified name = false →
          let (r, subs') := t.constCompile defined (constClassname stashname) arg name subs
          (r = .returned ∧ ∃ sub, Compiled (t.classOf (constClassname stashname))
            (callerStash arg) name sub subs') ∨
          (r = .croaked ∧ subs' = subs ∧
            ∀ sub, ¬IsConst defined (t.classOf (constClassname stashname)) name sub) := by
  have hright : t.Right defined subs := by
    refine h.invariant (I := fun subs => t.Right defined subs) ⟨?_, ?_⟩ ?_
    · rintro cls - name sub ⟨⟩
    · rintro package name v ⟨⟩
    · intro subs call subs' _ hright hlegal hstep
      exact hright.step ht hlegal hstep
  refine ⟨hright, fun stashname arg harg => ⟨fun g hg => compiled_group ht hright _ harg hg, ?_⟩⟩
  intro name hcolon hamp hplain
  have hcls := classOf_mem (t := t) (constClassname stashname)
  have hcompile : t.constCompile defined (constClassname stashname) arg name subs =
      newConstsub ((generateLookup (t.classOf (constClassname stashname))).run defined)
        (callerStash arg) (t.classOf (constClassname stashname)).name name subs := by
    rw [ht.classOf_name, constCompile, if_neg hcolon, if_neg hamp]
  rw [hcompile]
  rcases hr : newConstsub ((generateLookup (t.classOf (constClassname stashname))).run defined)
    (callerStash arg) (t.classOf (constClassname stashname)).name name subs with ⟨r, subs'⟩
  obtain ⟨hret, -, hsub, -⟩ | ⟨-, hsame, -, hcroak⟩ :=
    newConstsub_cases ht hcls hright (foreign_callerStash harg) name hr
  · exact .inl ⟨hret, hsub⟩
  · exact .inr ⟨(hcroak hplain).1, hsame, (hcroak hplain).2⟩

/-- Some groups of the tables. -/
def constExcerpt : ConstTables where
  apr := ⟨ascii "APR::Const", [(ascii "common", [ascii "APR_SUCCESS"]),
    (ascii "fprot", [ascii "APR_FPROT_USETID", ascii "APR_FPROT_UREAD"])]⟩
  apache2 := ⟨ascii "Apache2::Const", [(ascii "types", [ascii "DIR_MAGIC_TYPE"]),
    (ascii "common", [ascii "OK", ascii "NOT_FOUND"])]⟩
  modperl := ⟨ascii "ModPerl", [(ascii "common", [ascii "MODPERL_RC_EXIT"])]⟩

/-- A program that imports the usual constants of the server, and compiles those of APR that
not every version has, and defines a function of its own that has the name of one. -/
theorem constants_compiled_right_imports : ∃ subs,
    (Machine.Reachable (constExcerpt.step fun _ => false) constExcerpt.Legal [] subs ∧
      constExcerpt.Right (fun _ => false) subs) ∧
    get id subs (ascii "main", ascii "NOT_FOUND") =
        some (.constant (.iv (ascii "HTTP_NOT_FOUND"))) ∧
      get id subs (ascii "APR::Const", ascii "FPROT_UREAD") =
        some (.constant (.iv (ascii "APR_FPROT_UREAD"))) ∧
      get id subs (ascii "APR::Const", ascii "FPROT_USETID") = none ∧
      get id subs (ascii "main", ascii "OK") = some (.code 0) := by
  have hproper : constExcerpt.Proper :=
    ⟨by decide +kernel, by decide +kernel, by decide +kernel, by decide +kernel,
      by decide +kernel, by decide +kernel⟩
  have hlegal : Machine.runOk (constExcerpt.step fun _ => false) constExcerpt.Legal []
      [.imports (ascii "Apache2::Const") (ascii "main") [],
        .imports (ascii "APR::Const") (ascii "main") [ascii "-compile", ascii ":fprot"],
        .define (ascii "main") (ascii "OK") 0] := by decide +kernel
  obtain ⟨subs, hreach, hget⟩ := Machine.Reachable.exists_of_run (P := fun subs =>
    get id subs (ascii "main", ascii "NOT_FOUND") =
        some (.constant (.iv (ascii "HTTP_NOT_FOUND"))) ∧
      get id subs (ascii "APR::Const", ascii "FPROT_UREAD") =
        some (.constant (.iv (ascii "APR_FPROT_UREAD"))) ∧
      get id subs (ascii "APR::Const", ascii "FPROT_USETID") = none ∧
      get id subs (ascii "main", ascii "OK") = some (.code 0)) hlegal (by decide +kernel)
  exact ⟨subs, ⟨hreach, (constants_compiled_right constExcerpt hproper _ hreach).1⟩, hget⟩

/-- A constant that is asked for with its package is put there, and the slot that is to be
exported is no glob. -/
example : constExcerpt.compile (fun _ => false) (ascii "APR::Const")
    [ascii "main", ascii "APR::Const::SUCCESS"] [] = (.fault, []) := by decide +kernel

end ModPerl
