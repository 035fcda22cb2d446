import Mathlib.Order.Nat
import ModPerl.Perl.Unload

/-!
# `require`

Perl loads a file at most once: its name is in `%INC` from the moment at which it
starts to read the file, with the path where it has found it, and when the file
does not compile the entry stays and has no value.  What a file requires is loaded
while the file itself is.  Each file has a package of its own, for its subs.

Perl does not bound the depth.  Here it is bounded by the number of names under
which a file can be found, and this is enough (`exists_requireAll`).
-/

namespace ModPerl

/-- What perl comes upon in a file: a sub, a file that is required, a syntax error.  A module that
uses `Apache2::Reload` registers itself: where the list is `%INC` itself, this is an entry under
the name of the package, for the path from which the file is read. -/
inductive Item
  | sub (name : Bytes) (code : ℕ)
  | use (name : Bytes)
  | register
  | error
  deriving DecidableEq

/-- The name that is required. -/
def Item.used : Item → Option Bytes
  | .use name => some name
  | _ => none

/-- A file on the disk. -/
structure PerlFile where
  mtime : ℕ
  items : List Item
  deriving DecidableEq

/-- The sub of this name in a file, which is the last one. -/
def codeIn : List Item → Bytes → Option ℕ
  | [], _ => none
  | .sub name' code :: items, name =>
      (codeIn items name).or (if name' = name then some code else none)
  | _ :: items, name => codeIn items name

/-- `package_to_module` -/
def packageToModule (package : Bytes) : Bytes := slashed package ++ ascii ".pm"

/-- Where the files are. -/
structure Library where
  /-- `@INC` -/
  incDirs : List Bytes
  /-- The file to which a path leads. -/
  paths : Table Bytes ℕ
  /-- The package of a file. -/
  package : ℕ → Bytes
  package_injective : ∀ f g, stashName (package f) = stashName (package g) → f = g
  module_injective : ∀ f g, packageToModule (package f) = packageToModule (package g) → f = g

namespace Library

variable (lib : Library)

/-- The name under which a file registers. -/
def module (f : ℕ) : Bytes := packageToModule (lib.package f)

def file (path : Bytes) : Option ℕ := Table.get id lib.paths path

/-- `path_is_searchable`, negated: a name that is not searched in `@INC`. -/
def pathIsAbsolute (name : Bytes) : Bool :=
  ascii "/" <+: name ∨ ascii "./" <+: name ∨ ascii "../" <+: name

/-- The name in each directory of `@INC`. -/
def inDirs (name : Bytes) : List Bytes := lib.incDirs.map fun dir => dir ++ ascii "/" ++ name

/-- Where `require` finds a file. -/
def find (name : Bytes) : Option (Bytes × ℕ) :=
  (if pathIsAbsolute name then [name] else lib.inDirs name).findSome? fun path =>
    (lib.file path).map fun f => (path, f)

/-- A name of the file: one under which it is found or, if none is found, registered. -/
def OwnName (name : Bytes) (f : ℕ) : Prop :=
  (∀ path g, lib.find name = some (path, g) → g = f) ∧ (lib.find name = none → name = lib.module f)

/-- The names under which a file may be found. -/
def names : List Bytes :=
  lib.paths.flatMap fun e => e.1 :: lib.incDirs.map fun dir => e.1.drop (dir.length + 1)

end Library

namespace Packages

/-- The sub of this name in a package. -/
def codeOf (p : Packages) (package name : Bytes) : Option ℕ :=
  ((p.stash (stashName package)).find? (·.key = name)).bind Symbol.code

/-- A sub gets the symbol of its name, or a new one. -/
def defineSub (p : Packages) (package name : Bytes) (code : ℕ) : Packages :=
  let symbols := p.stash (stashName package)
  { p with
    stash := Function.update p.stash (stashName package)
      (if symbols.any (·.key = name) then
        symbols.map fun symbol => if symbol.key = name then { symbol with code } else symbol
      else symbols ++ [⟨name, true, some code⟩]) }

def setInc (p : Packages) (name : Bytes) (file : Option Bytes) : Packages :=
  { p with inc := Table.set id p.inc name file }

/-- From the first item of a file to the last, or to the one that dies. -/
def runItems (require : Bytes → Packages → Option (Packages × Bool)) (package path : Bytes) :
    List Item → Packages → Option (Packages × Bool)
  | [], p => some (p, true)
  | .sub name code :: items, p =>
      runItems require package path items (p.defineSub package name code)
  | .use name :: items, p =>
      (require name p).bind fun (p, finished) =>
        if finished then runItems require package path items p else some (p, false)
  | .register :: items, p =>
      runItems require package path items (p.setInc (packageToModule package) (some path))
  | .error :: _, p => some (p, false)

/-- `require`, and whether it has not died. -/
def require (lib : Library) (disk : ℕ → PerlFile) (depth : ℕ) (name : Bytes) (p : Packages) :
    Option (Packages × Bool) :=
  match Table.get id p.inc name with
  | some file => some (p, file.isSome)
  | none =>
      match lib.find name with
      | none => some (p, false)
      | some (path, f) =>
          match depth with
          | 0 => none
          | depth + 1 =>
              (runItems (require lib disk depth) (lib.package f) path (disk f).items
                (p.setInc name (some path))).map fun (p, finished) =>
                  if finished then (p, true) else (p.setInc name none, false)

/-- One `require` after the other, up to the one that dies. -/
def requireAll (lib : Library) (disk : ℕ → PerlFile) :
    List Bytes → Packages → Option (Packages × Bool)
  | [], p => some (p, true)
  | name :: names, p =>
      (p.require lib disk lib.names.length name).bind fun (p, finished) =>
        if finished then requireAll lib disk names p else some (p, false)

end Packages

variable {lib : Library} {disk : ℕ → PerlFile} {p p' p₁ p₂ : Packages} {name key package : Bytes}
  {f g code : ℕ} {path : Bytes}

namespace Library

/-- A path leads to the file, and the name is one of those that are counted. -/
theorem find_eq_some (h : lib.find name = some (path, f)) :
    lib.file path = some f ∧ name ∈ lib.names := by
  obtain ⟨path', hmem, hpath'⟩ := List.exists_of_findSome?_eq_some h
  obtain ⟨f', hfile, heq⟩ := Option.map_eq_some_iff.mp hpath'
  obtain ⟨rfl, rfl⟩ := Prod.mk.inj heq
  obtain ⟨e, he, heq, -⟩ := Table.exists_mem_of_get hfile
  refine ⟨hfile, List.mem_flatMap.mpr ⟨e, he, ?_⟩⟩
  rw [id, id] at heq
  split_ifs at hmem
  · rw [List.mem_singleton] at hmem
    rw [heq, hmem]
    exact List.mem_cons_self
  · obtain ⟨dir, hdir, rfl⟩ := List.mem_map.mp hmem
    refine List.mem_cons_of_mem _ (List.mem_map.mpr ⟨dir, hdir, ?_⟩)
    rw [heq, List.append_assoc, List.drop_append]
    simp [ascii]

end Library

namespace Packages

theorem codeOf_defineSub {package' name' : Bytes} :
    (p.defineSub package name code).codeOf package' name' =
      if stashName package' = stashName package ∧ name' = name then some code
      else p.codeOf package' name' := by
  unfold codeOf defineSub
  by_cases hpackage : stashName package' = stashName package
  · simp only [hpackage, true_and, Function.update_self]
    generalize p.stash (stashName package) = symbols
    by_cases hany : symbols.any (·.key = name)
    · have hkey : ((fun symbol : Symbol => decide (symbol.key = name')) ∘ fun symbol =>
          if symbol.key = name then { symbol with code := some code } else symbol) =
            fun symbol => decide (symbol.key = name') := by
        funext symbol
        by_cases hsymbol : symbol.key = name <;> simp [hsymbol]
      rw [if_pos hany, List.find?_map, hkey]
      cases hfind : symbols.find? (·.key = name') with
      | none =>
          obtain ⟨symbol, hmem, hsymbol⟩ := List.any_eq_true.mp hany
          have hne := List.find?_eq_none.mp hfind symbol hmem
          rw [decide_eq_true_eq] at hsymbol hne
          rw [if_neg (fun heq => hne (hsymbol.trans heq.symm))]
          rfl
      | some symbol =>
          have hsymbol : symbol.key = name' := by simpa using List.find?_some hfind
          by_cases heq : name' = name <;> simp [hsymbol, heq]
    · rw [if_neg hany, List.find?_append]
      by_cases heq : name' = name
      · have hnone : symbols.find? (·.key = name') = none := by
          rw [List.find?_eq_none]
          intro symbol hmem hsymbol
          exact hany (List.any_eq_true.mpr ⟨symbol, hmem, heq ▸ hsymbol⟩)
        subst heq
        simp [hnone]
      · simp [Ne.symm heq, heq]
  · simp only [hpackage, false_and, if_false, Function.update_of_ne hpackage]

/-- The sub of this name is the one of the file. -/
def Final (lib : Library) (disk : ℕ → PerlFile) (p : Packages) (f : ℕ) (name : Bytes) : Prop :=
  p.codeOf (lib.package f) name = codeIn (disk f).items name

/-- The names that are required when these are: also those in the files that are loaded then. -/
inductive Wanted (lib : Library) (disk : ℕ → PerlFile) (p : Packages) (names : List Bytes) :
    Bytes → Prop
  | named {name : Bytes} : name ∈ names → Wanted lib disk p names name
  | used {key name path : Bytes} {f : ℕ} : Wanted lib disk p names key →
      Table.get id p.inc key = none → lib.find key = some (path, f) →
      Item.use name ∈ (disk f).items → Wanted lib disk p names name

/-- A file that is loaded when these names are required. -/
def Loads (lib : Library) (disk : ℕ → PerlFile) (p : Packages) (names : List Bytes) (f : ℕ) :
    Prop :=
  ∃ name path, Wanted lib disk p names name ∧ Table.get id p.inc name = none ∧
    lib.find name = some (path, f)

/-- A file that can be loaded. -/
structure FileLoadable (lib : Library) (disk : ℕ → PerlFile) (p : Packages) (f : ℕ) : Prop where
  compiles : Item.error ∉ (disk f).items
  /-- It defines again what its package has. -/
  redefines : ∀ sub, p.codeOf (lib.package f) sub ≠ none → codeIn (disk f).items sub ≠ none
  /-- The name under which it registers is the one of no other file. -/
  registers : Item.register ∈ (disk f).items →
    (∀ path g, lib.find (lib.module f) = some (path, g) → g = f) ∧
      ∀ path g, Table.get id p.inc (lib.module f) = some (some path) → lib.file path = some g →
        g = f

/-- Every file that is loaded then is found, and can be loaded. -/
def Loadable (lib : Library) (disk : ℕ → PerlFile) (p : Packages) (names : List Bytes) : Prop :=
  ∀ name, Wanted lib disk p names name → Table.get id p.inc name = none →
    ∃ path f, lib.find name = some (path, f) ∧ FileLoadable lib disk p f

theorem exists_symbol_of_codeOf (h : p.codeOf package name ≠ none) :
    ∃ symbol ∈ p.stash (stashName package), symbol.key = name ∧ symbol.code ≠ none := by
  obtain ⟨code, hcode⟩ := Option.ne_none_iff_exists'.mp h
  obtain ⟨symbol, hfind, hsymbol⟩ := Option.bind_eq_some_iff.mp hcode
  refine ⟨symbol, List.mem_of_find?_eq_some hfind, by simpa using List.find?_some hfind, ?_⟩
  rw [hsymbol]
  exact Option.some_ne_none code

/-- Names that lead to no others are all that is wanted. -/
theorem loadable_of_closed {names : List Bytes} (closed : List Bytes)
    (hnames : ∀ name ∈ names, name ∈ closed)
    (hclosed : ∀ name ∈ closed, Table.get id p.inc name = none →
      (lib.find name).any fun (_, f) => decide (Item.error ∉ (disk f).items ∧
        Item.register ∉ (disk f).items ∧
        (∀ item ∈ (disk f).items, ∀ used ∈ item.used, used ∈ closed) ∧
        ∀ symbol ∈ p.stash (stashName (lib.package f)), symbol.code ≠ none →
          codeIn (disk f).items symbol.key ≠ none)) :
    Loadable lib disk p names := by
  have hwanted : ∀ name, Wanted lib disk p names name → name ∈ closed := by
    intro name hname
    induction hname with
    | named hmem => exact hnames _ hmem
    | @used key name path f _ hnone hfind huse ih =>
        have hfile := hclosed key ih hnone
        rw [hfind, Option.any_some, decide_eq_true_eq] at hfile
        exact hfile.2.2.1 _ huse name rfl
  intro name hname hnone
  have hfile := hclosed name (hwanted name hname) hnone
  cases hfind : lib.find name with
  | none =>
      rw [hfind] at hfile
      cases hfile
  | some x =>
      rw [hfind, Option.any_some, decide_eq_true_eq] at hfile
      obtain ⟨herror, hregister, -, hsymbols⟩ := hfile
      refine ⟨x.1, x.2, rfl, herror, fun sub hsub => ?_, fun hmem => absurd hmem hregister⟩
      obtain ⟨symbol, hmem, rfl, hcode⟩ := exists_symbol_of_codeOf hsub
      exact hsymbols symbol hmem hcode

/-- A file that has been read to the end: what it uses is loaded, and its subs are defined. -/
structure HasRead (lib : Library) (disk : ℕ → PerlFile) (p : Packages) (f : ℕ) : Prop where
  uses : ∀ name, Item.use name ∈ (disk f).items → Table.get id p.inc name ≠ none
  subs : ∀ name, codeIn (disk f).items name ≠ none → Final lib disk p f name

/-- What has been loaded between two states.  Of the new entries those of one file may be there
already while this file is still being read. -/
structure Adds (lib : Library) (disk : ℕ → PerlFile) (loads : ℕ → Prop) (reading : Option ℕ)
    (p p' : Packages) : Prop where
  mono : ∀ key, Table.get id p.inc key ≠ none → Table.get id p'.inc key ≠ none
  old : ∀ key path f, Table.get id p.inc key = some (some path) → lib.file path = some f →
    ∃ path', Table.get id p'.inc key = some (some path') ∧ lib.file path' = some f
  new : ∀ key file, Table.get id p.inc key = none → Table.get id p'.inc key = some file →
    ∃ path f, file = some path ∧ lib.file path = some f ∧ lib.OwnName key f ∧ loads f ∧
      (reading ≠ some f → HasRead lib disk p' f)
  keeps : ∀ f name, Final lib disk p f name → Final lib disk p' f name
  others : ∀ f name, codeIn (disk f).items name = none →
    p'.codeOf (lib.package f) name = p.codeOf (lib.package f) name

/-- The number of names that are not loaded. -/
def missing (lib : Library) (p : Packages) : ℕ :=
  lib.names.countP fun name => (Table.get id p.inc name).isNone

variable {loads : ℕ → Prop} {reading : Option ℕ}

namespace Adds

theorem refl (p : Packages) : Adds lib disk loads reading p p where
  mono _ h := h
  old _ path _ hkey hfile := ⟨path, hkey, hfile⟩
  new _ _ hnone h := by
    rw [hnone] at h
    cases h
  keeps _ _ h := h
  others _ _ _ := rfl

theorem hasRead (h : Adds lib disk loads reading p p') (hread : HasRead lib disk p f) :
    HasRead lib disk p' f where
  uses name hname := h.mono name (hread.uses name hname)
  subs name hname := h.keeps f name (hread.subs name hname)

theorem trans (h : Adds lib disk loads reading p p₁) (h' : Adds lib disk loads reading p₁ p₂) :
    Adds lib disk loads reading p p₂ where
  mono key hkey := h'.mono key (h.mono key hkey)
  old key path f hkey hfile := by
    obtain ⟨path₁, hkey₁, hfile₁⟩ := h.old key path f hkey hfile
    exact h'.old key path₁ f hkey₁ hfile₁
  new key file hnone hkey := by
    cases hmid : Table.get id p₁.inc key with
    | none => exact h'.new key file hmid hkey
    | some file' =>
        obtain ⟨path, f, rfl, hfile, hown, hloads, hread⟩ := h.new key file' hnone hmid
        obtain ⟨path', hkey', hfile'⟩ := h'.old key path f hmid hfile
        exact ⟨path', f, Option.some.inj (hkey.symm.trans hkey'), hfile', hown, hloads,
          fun hreading => h'.hasRead (hread hreading)⟩
  keeps f name hfinal := h'.keeps f name (h.keeps f name hfinal)
  others f name hname := (h'.others f name hname).trans (h.others f name hname)

/-- While another file is being read. -/
theorem weaken (h : Adds lib disk loads none p p') (reading : Option ℕ) :
    Adds lib disk loads reading p p' where
  mono := h.mono
  old := h.old
  new key file hnone hkey := by
    obtain ⟨path, f, hpath, hfile, hown, hloads, hread⟩ := h.new key file hnone hkey
    exact ⟨path, f, hpath, hfile, hown, hloads, fun _ => hread (by simp)⟩
  keeps := h.keeps
  others := h.others

/-- The file has been read to the end. -/
theorem finish (h : Adds lib disk loads (some f) p p') (hread : HasRead lib disk p' f) :
    Adds lib disk loads none p p' where
  mono := h.mono
  old := h.old
  new key file hnone hkey := by
    obtain ⟨path, g, hpath, hfile, hown, hloads, hread'⟩ := h.new key file hnone hkey
    refine ⟨path, g, hpath, hfile, hown, hloads, fun _ => ?_⟩
    by_cases hg : f = g
    · exact hg ▸ hread
    · exact hread' fun heq => hg (Option.some.inj heq)
  keeps := h.keeps
  others := h.others

theorem missing_le (h : Adds lib disk loads reading p p') : missing lib p' ≤ missing lib p := by
  refine List.countP_mono_left fun name _ hnone => ?_
  rw [Option.isNone_iff_eq_none] at hnone ⊢
  by_contra hne
  exact h.mono name hne hnone

end Adds

/-! ## Loading -/

theorem inc_setInc {file : Option Bytes} : Table.get id (p.setInc name file).inc key =
    if name = key then some file else Table.get id p.inc key := Table.get_set

theorem countP_setInc_le (p : Packages) (name : Bytes) (file : Option Bytes) (names : List Bytes) :
    (names.countP fun name' => (Table.get id (p.setInc name file).inc name').isNone) ≤
      names.countP fun name' => (Table.get id p.inc name').isNone := by
  refine List.countP_mono_left fun name' _ hnone => ?_
  rw [inc_setInc] at hnone
  split_ifs at hnone
  · cases hnone
  · exact hnone

theorem missing_setInc_le (p : Packages) (name : Bytes) (file : Option Bytes) :
    missing lib (p.setInc name file) ≤ missing lib p := countP_setInc_le p name file lib.names

/-- One name less is missing. -/
theorem missing_setInc_lt (hname : name ∈ lib.names) (hnone : Table.get id p.inc name = none)
    (file : Option Bytes) :
    missing lib (p.setInc name file) < missing lib p := by
  obtain ⟨pre, post, hsplit⟩ := List.append_of_mem hname
  have hpre := countP_setInc_le p name file pre
  have hpost := countP_setInc_le p name file post
  unfold missing
  rw [hsplit, List.countP_append, List.countP_append, List.countP_cons, List.countP_cons,
    inc_setInc, if_pos rfl, hnone]
  simp only [Option.isNone_some, Option.isNone_none, if_true, Bool.false_eq_true, if_false]
  omega

/-- An entry for a file that is being read. -/
theorem Adds.setInc (hfile : lib.file path = some f) (hown : lib.OwnName key f) (hloads : loads f)
    (hsame : ∀ path' g, Table.get id p.inc key = some (some path') → lib.file path' = some g →
      g = f) :
    Adds lib disk loads (some f) p (p.setInc key (some path)) where
  mono key' hkey' := by
    rw [inc_setInc]
    split_ifs
    · exact Option.some_ne_none _
    · exact hkey'
  old key' path' g hkey' hfile' := by
    by_cases hself : key = key'
    · subst hself
      obtain rfl := hsame path' g hkey' hfile'
      exact ⟨path, by rw [inc_setInc, if_pos rfl], hfile⟩
    · exact ⟨path', by rw [inc_setInc, if_neg hself, hkey'], hfile'⟩
  new key' file hnone hkey' := by
    by_cases hself : key = key'
    · subst hself
      rw [inc_setInc, if_pos rfl] at hkey'
      exact ⟨path, f, (Option.some.inj hkey').symm, hfile, hown, hloads, fun hne => absurd rfl hne⟩
    · rw [inc_setInc, if_neg hself, hnone] at hkey'
      cases hkey'
  keeps _ _ hfinal := hfinal
  others _ _ _ := rfl

/-- A state in which files are being loaded for the names that were wanted in `p`. -/
structure Ready (lib : Library) (p : Packages) (depth : ℕ) (p₁ : Packages) : Prop where
  base : ∀ key, Table.get id p₁.inc key = none → Table.get id p.inc key = none
  entry : ∀ key file, Table.get id p₁.inc key = some file →
    ∃ path f, file = some path ∧ lib.file path = some f ∧
      ((∃ path', Table.get id p.inc key = some (some path') ∧ lib.file path' = some f) ∨
        lib.OwnName key f)
  missing_le : missing lib p₁ ≤ depth

variable {depth : ℕ} {items its : List Item} {names : List Bytes}
  {req : Bytes → Packages → Option (Packages × Bool)} {wanted : Bytes → Prop}

namespace Ready

theorem adds (h : Ready lib p depth p₁) (hadds : Adds lib disk loads reading p₁ p₂) :
    Ready lib p depth p₂ where
  base key hkey := h.base key (by_contra fun hne => hadds.mono key hne hkey)
  entry key file hkey := by
    cases hmid : Table.get id p₁.inc key with
    | none =>
        obtain ⟨path, f, hpath, hfile, hown, -⟩ := hadds.new key file hmid hkey
        exact ⟨path, f, hpath, hfile, .inr hown⟩
    | some file' =>
        obtain ⟨path, f, rfl, hfile, hcase⟩ := h.entry key file' hmid
        obtain ⟨path', hkey', hfile'⟩ := hadds.old key path f hmid hfile
        exact ⟨path', f, Option.some.inj (hkey.symm.trans hkey'), hfile', hcase⟩
  missing_le := Nat.le_trans hadds.missing_le h.missing_le

theorem defineSub (h : Ready lib p depth p₁) (package name : Bytes) (code : ℕ) :
    Ready lib p depth (p₁.defineSub package name code) := ⟨h.base, h.entry, h.missing_le⟩

theorem mono {depth' : ℕ} (h : Ready lib p depth p₁) (hle : missing lib p₁ ≤ depth') :
    Ready lib p depth' p₁ := ⟨h.base, h.entry, hle⟩

/-- What is stored under the name under which a file registers is an entry for this file. -/
theorem eq_of_registers (h : Ready lib p depth p₁) (hfile : FileLoadable lib disk p f)
    (hregister : Item.register ∈ (disk f).items)
    (hkey : Table.get id p₁.inc (lib.module f) = some (some path))
    (hpath : lib.file path = some g) : g = f := by
  obtain ⟨hfind, hbase⟩ := hfile.registers hregister
  obtain ⟨path', g', heq, hpath', hcase⟩ := h.entry _ _ hkey
  obtain rfl := Option.some.inj heq
  obtain rfl := Option.some.inj (hpath.symm.trans hpath')
  rcases hcase with ⟨path₀, hkey₀, hpath₀⟩ | hown
  · exact hbase path₀ g hkey₀ hpath₀
  · cases hfound : lib.find (lib.module f) with
    | none => exact (lib.module_injective f g (hown.2 hfound)).symm
    | some x =>
        obtain ⟨path₁, g₁⟩ := x
        rw [← hown.1 path₁ g₁ hfound, hfind path₁ g₁ hfound]

end Ready

theorem codeIn_append (pre its : List Item) (name : Bytes) :
    codeIn (pre ++ its) name = (codeIn its name).or (codeIn pre name) := by
  induction pre with
  | nil => simp [codeIn]
  | cons item pre ih =>
      cases item <;> simp [codeIn, ih, Option.or_assoc]

/-- A sub is defined in front of the rest of its file. -/
theorem Adds.of_defineSub (hsuffix : Item.sub name code :: its <:+ (disk f).items)
    (hadds : Adds lib disk loads reading (p.defineSub (lib.package f) name code) p')
    (hfinal : ∀ name', codeIn its name' ≠ none → Final lib disk p' f name') :
    Adds lib disk loads reading p p' ∧
      ∀ name', codeIn (.sub name code :: its) name' ≠ none → Final lib disk p' f name' := by
  obtain ⟨pre, hitems⟩ := hsuffix
  have hcode : ∀ g name', (p.defineSub (lib.package f) name code).codeOf (lib.package g) name' =
      if g = f ∧ name' = name then some code else p.codeOf (lib.package g) name' := by
    intro g name'
    rw [codeOf_defineSub]
    have hpackage : stashName (lib.package g) = stashName (lib.package f) ↔ g = f :=
      ⟨lib.package_injective g f, fun heq => by rw [heq]⟩
    simp only [hpackage]
  -- the sub is the last one of its name in the file, or one follows
  have hself : Final lib disk p' f name := by
    by_cases hmore : codeIn its name = none
    · refine hadds.keeps f name ?_
      rw [Final, hcode, if_pos ⟨rfl, rfl⟩, ← hitems, codeIn_append]
      simp [codeIn, hmore]
    · exact hfinal name hmore
  refine ⟨⟨hadds.mono, hadds.old, hadds.new, fun g name' hold => ?_, fun g name' hnone => ?_⟩,
    fun name' hname' => ?_⟩
  · by_cases heq : g = f ∧ name' = name
    · obtain ⟨rfl, rfl⟩ := heq
      exact hself
    · refine hadds.keeps g name' ?_
      rw [Final, hcode, if_neg heq]
      exact hold
  · rw [hadds.others g name' hnone, hcode, if_neg]
    rintro ⟨rfl, rfl⟩
    rw [← hitems, codeIn_append] at hnone
    simp [codeIn] at hnone
  · by_cases hmore : codeIn its name' = none
    · obtain rfl : name = name' := by simpa [codeIn, hmore] using hname'
      exact hself
    · exact hfinal name' hmore

/-- The rest of a file is read. -/
theorem runItems_spec
    (hreq : ∀ name p₁, wanted name → Ready lib p depth p₁ → ∃ p₂, req name p₁ = some (p₂, true) ∧
      Adds lib disk loads none p₁ p₂ ∧ Table.get id p₂.inc name ≠ none)
    (hfile : lib.file path = some f) (hloads : loads f) (hloadable : FileLoadable lib disk p f)
    (hsuffix : its <:+ (disk f).items) (hwanted : ∀ name, Item.use name ∈ its → wanted name)
    (h : Ready lib p depth p₁) :
    ∃ p₂, runItems req (lib.package f) path its p₁ = some (p₂, true) ∧
      Adds lib disk loads (some f) p₁ p₂ ∧
      (∀ name, codeIn its name ≠ none → Final lib disk p₂ f name) ∧
      ∀ name, Item.use name ∈ its → Table.get id p₂.inc name ≠ none := by
  induction its generalizing p₁ with
  | nil => exact ⟨p₁, rfl, .refl p₁, fun _ hnone => absurd rfl hnone, by simp⟩
  | cons item its ih =>
      have hmem : item ∈ (disk f).items := hsuffix.subset List.mem_cons_self
      have hsuffix' : its <:+ (disk f).items := (List.suffix_cons item its).trans hsuffix
      have hwanted' : ∀ name, Item.use name ∈ its → wanted name :=
        fun name hmem => hwanted name (List.mem_cons_of_mem _ hmem)
      cases item with
      | error => exact absurd hmem hloadable.compiles
      | register =>
          have hadds : Adds lib disk loads (some f) p₁ (p₁.setInc (lib.module f) (some path)) :=
            .setInc hfile ⟨(hloadable.registers hmem).1, fun _ => rfl⟩ hloads
              fun path' g hkey hpath => h.eq_of_registers hloadable hmem hkey hpath
          obtain ⟨p₂, hrun, hadds', hfinal, huses⟩ := ih hsuffix' hwanted' (h.adds hadds)
          refine ⟨p₂, hrun, hadds.trans hadds', hfinal, fun name hmem => ?_⟩
          rcases List.mem_cons.mp hmem with heq | hmem
          · cases heq
          · exact huses name hmem
      | use name =>
          obtain ⟨p₂, hrun, hadds, hname⟩ := hreq name p₁ (hwanted name List.mem_cons_self) h
          obtain ⟨p₃, hrun', hadds', hfinal, huses⟩ := ih hsuffix' hwanted' (h.adds hadds)
          refine ⟨p₃, ?_, (hadds.weaken _).trans hadds', hfinal, fun name' hmem => ?_⟩
          · rw [runItems, hrun]
            exact hrun'
          · rcases List.mem_cons.mp hmem with heq | hmem
            · obtain rfl := Item.use.inj heq
              exact hadds'.mono name' hname
            · exact huses name' hmem
      | sub name code =>
          obtain ⟨p₂, hrun, hadds, hfinal, huses⟩ :=
            ih hsuffix' hwanted' (h.defineSub (lib.package f) name code)
          obtain ⟨hadds', hfinal'⟩ := hadds.of_defineSub hsuffix hfinal
          refine ⟨p₂, hrun, hadds', hfinal', fun name' hmem => ?_⟩
          rcases List.mem_cons.mp hmem with heq | hmem
          · cases heq
          · exact huses name' hmem

/-- Reading items does not run out of depth if requiring does not. -/
theorem exists_runItems (package path : Bytes) (its : List Item)
    (hreq : ∀ name p, missing lib p ≤ depth →
      ∃ p' finished, req name p = some (p', finished) ∧ missing lib p' ≤ missing lib p)
    (hp : missing lib p ≤ depth) :
    ∃ p' finished, runItems req package path its p = some (p', finished) ∧
      missing lib p' ≤ missing lib p := by
  induction its generalizing p with
  | nil => exact ⟨p, true, rfl, le_rfl⟩
  | cons item its ih =>
      cases item with
      | sub name code => exact ih (p := p.defineSub package name code) hp
      | register =>
          have hle : missing lib (p.setInc (packageToModule package) (some path)) ≤
            missing lib p := missing_setInc_le _ _ _
          obtain ⟨p', finished, hrun, hle'⟩ := ih (hle.trans hp)
          exact ⟨p', finished, hrun, hle'.trans hle⟩
      | error => exact ⟨p, false, rfl, le_rfl⟩
      | use name =>
          obtain ⟨p₁, finished, hrun, hle⟩ := hreq name p hp
          cases finished with
          | false =>
              refine ⟨p₁, false, ?_, hle⟩
              rw [runItems, hrun]
              rfl
          | true =>
              obtain ⟨p₂, finished, hrun', hle'⟩ := ih (hle.trans hp)
              refine ⟨p₂, finished, ?_, hle'.trans hle⟩
              rw [runItems, hrun]
              exact hrun'

/-- A depth of the number of missing names is enough, whether the files compile or not. -/
theorem exists_require (disk : ℕ → PerlFile) (name : Bytes) (hp : missing lib p ≤ depth) :
    ∃ p' finished, require lib disk depth name p = some (p', finished) ∧
      missing lib p' ≤ missing lib p := by
  induction depth generalizing name p with
  | zero =>
      unfold require
      split
      · exact ⟨p, _, rfl, le_rfl⟩
      · next hnone =>
          split
          · exact ⟨p, false, rfl, le_rfl⟩
          · next path f hfind =>
              have hlt := missing_setInc_lt (Library.find_eq_some hfind).2 hnone none
              omega
  | succ depth ih =>
      unfold require
      split
      · exact ⟨p, _, rfl, le_rfl⟩
      · next hnone =>
          split
          · exact ⟨p, false, rfl, le_rfl⟩
          · next path f hfind =>
              have hlt := missing_setInc_lt (Library.find_eq_some hfind).2 hnone (some path)
              obtain ⟨p₁, finished, hrun, hle⟩ :=
                exists_runItems (lib.package f) path (disk f).items (fun name p hp => ih name hp)
                  (Nat.le_of_lt_succ (hlt.trans_le hp))
              simp only [hrun, Option.map_some]
              cases finished with
              | true => exact ⟨p₁, true, rfl, hle.trans hlt.le⟩
              | false => exact ⟨_, false, rfl, (missing_setInc_le _ _ _).trans (hle.trans hlt.le)⟩

theorem exists_requireAll (lib : Library) (disk : ℕ → PerlFile) (names : List Bytes)
    (p : Packages) : ∃ p' finished, requireAll lib disk names p = some (p', finished) := by
  induction names generalizing p with
  | nil => exact ⟨p, true, rfl⟩
  | cons name names ih =>
      obtain ⟨p₁, finished, hrun, -⟩ :=
        exists_require disk name (List.countP_le_length : missing lib p ≤ _)
      unfold requireAll
      rw [hrun]
      cases finished with
      | true => exact ih p₁
      | false => exact ⟨p₁, false, rfl⟩

/-- A file that is loaded already is not loaded again. -/
theorem require_of_loaded (h : Ready lib p depth p₁) (hname : Table.get id p₁.inc name ≠ none) :
    require lib disk depth name p₁ = some (p₁, true) := by
  obtain ⟨file, hfile⟩ := Option.ne_none_iff_exists'.mp hname
  obtain ⟨path, -, rfl, -⟩ := h.entry name file hfile
  unfold require
  rw [hfile]
  rfl

/-- A file is required that can be loaded. -/
theorem require_spec (hload : Loadable lib disk p names) (hwanted : Wanted lib disk p names name)
    (h : Ready lib p depth p₁) :
    ∃ p₂, require lib disk depth name p₁ = some (p₂, true) ∧
      Adds lib disk (Loads lib disk p names) none p₁ p₂ ∧ Table.get id p₂.inc name ≠ none := by
  induction depth generalizing name p₁ with
  | zero =>
      by_cases hname : Table.get id p₁.inc name = none
      · -- a name is missing, so that the depth is not zero
        obtain ⟨path, f, hfind, -⟩ := hload name hwanted (h.base name hname)
        have hmissing : 0 < missing lib p₁ := by
          refine List.countP_pos_iff.mpr ⟨name, (Library.find_eq_some hfind).2, ?_⟩
          rw [hname]
          rfl
        exact absurd h.missing_le (Nat.not_le.mpr hmissing)
      · exact ⟨p₁, require_of_loaded h hname, .refl p₁, hname⟩
  | succ depth ih =>
      by_cases hname : Table.get id p₁.inc name = none
      · have hbase := h.base name hname
        obtain ⟨path, f, hfind, hloadable⟩ := hload name hwanted hbase
        obtain ⟨hfile, hnames⟩ := Library.find_eq_some hfind
        have hloads : Loads lib disk p names f := ⟨name, path, hwanted, hbase, hfind⟩
        have hown : lib.OwnName name f := by
          refine ⟨fun path' g hfind' => ?_, fun hnone => by simp [hnone] at hfind⟩
          rw [hfind] at hfind'
          exact (Prod.mk.inj (Option.some.inj hfind')).2.symm
        have hadds : Adds lib disk (Loads lib disk p names) (some f) p₁
            (p₁.setInc name (some path)) :=
          .setInc hfile hown hloads fun path' g hkey _ => by simp [hname] at hkey
        have hmissing := missing_setInc_lt hnames hname (some path)
        obtain ⟨p₂, hrun, hadds', hsubs, huses⟩ := runItems_spec
          (fun name p₁ hwanted h => ih hwanted h) hfile hloads hloadable
          (List.suffix_refl (disk f).items) (fun name hmem => hwanted.used hbase hfind hmem)
          ((h.adds hadds).mono (Nat.le_of_lt_succ (hmissing.trans_le h.missing_le)))
        refine ⟨p₂, ?_, (hadds.trans hadds').finish ⟨huses, hsubs⟩, hadds'.mono name ?_⟩
        · unfold require
          simp only [hname, hfind, hrun, Option.map_some, if_true]
        · rw [inc_setInc, if_pos rfl]
          exact Option.some_ne_none _
      · exact ⟨p₁, require_of_loaded h hname, .refl p₁, hname⟩

/-- Files are required that can be loaded. -/
theorem requireAll_spec {names' : List Bytes} (hload : Loadable lib disk p names)
    (hwanted : ∀ name ∈ names', Wanted lib disk p names name)
    (h : Ready lib p lib.names.length p₁) :
    ∃ p₂, requireAll lib disk names' p₁ = some (p₂, true) ∧
      Adds lib disk (Loads lib disk p names) none p₁ p₂ ∧
      ∀ name ∈ names', Table.get id p₂.inc name ≠ none := by
  induction names' generalizing p₁ with
  | nil => exact ⟨p₁, rfl, .refl p₁, by simp⟩
  | cons name names' ih =>
      obtain ⟨p₂, hrun, hadds, hname⟩ := require_spec hload (hwanted name List.mem_cons_self) h
      obtain ⟨p₃, hrun', hadds', hnames⟩ :=
        ih (fun name hmem => hwanted name (List.mem_cons_of_mem _ hmem)) (h.adds hadds)
      refine ⟨p₃, ?_, hadds.trans hadds', fun name' hmem => ?_⟩
      · unfold requireAll
        rw [hrun]
        exact hrun'
      · rcases List.mem_cons.mp hmem with rfl | hmem
        · exact hadds'.mono name' hname
        · exact hnames name' hmem

/-- When the names have been required, everything that was wanted is loaded. -/
theorem Adds.wanted_loaded (h : Adds lib disk loads none p p')
    (hnames : ∀ name ∈ names, Table.get id p'.inc name ≠ none)
    (hwanted : Wanted lib disk p names name) : Table.get id p'.inc name ≠ none := by
  induction hwanted with
  | named hmem => exact hnames _ hmem
  | @used key name path f _ hnone hfind huse ih =>
      obtain ⟨file, hfile⟩ := Option.ne_none_iff_exists'.mp ih
      obtain ⟨path', g, -, -, hown, -, hread⟩ := h.new key file hnone hfile
      obtain rfl := hown.1 path f hfind
      exact (hread (by simp)).uses name huse

end Packages

end ModPerl
