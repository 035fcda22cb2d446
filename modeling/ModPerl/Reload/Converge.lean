import Mathlib.Data.List.Sort
import ModPerl.Library.Machine
import ModPerl.Perl.Require

/-!
# `Apache2::Reload`

The handler looks at the modification time of every file in `%INC`.  It unloads the
packages of those that have changed, and then requires them again.  It takes the
package from the key in `%INC`, but requires the file by its path, unless
`ReloadByModuleName` is on: then the key is the path from now on, and no longer names
the package.  `%Stat` has the new times before anything is required, and a file
that does not compile has no path in `%INC` any more: the handler dies, and passes
over the file ever after.  With `ReloadAll` the list of the modules that have
registered themselves is `%INC`, so that a module that is loaded again may add an
entry there.

The functions are those of `Reload.pm`, with `ReloadAll` on and neither a touch file
nor directories to watch; `ModPerl::Util::unload_package` is its default, which takes
every sub of the package.  Entries of `%INC` that are references are left out, and so is
what a module imports.
-/

namespace ModPerl

open Machine Packages

/-- What the handler works on. -/
structure Reloaded where
  packages : Packages
  disk : ℕ → PerlFile
  /-- `%Stat` -/
  stat : Bytes → Option ℕ
  /-- The last thing that happened was a call of the handler, which did not die. -/
  finished : Bool

/-- An edit of a file, or a call of the handler. -/
inductive ReloadAct
  | edit (f : ℕ) (source : PerlFile)
  | handler (byModuleName : Bool)

/-- `module_to_package`.  The `$` of the pattern allows a newline behind. -/
def moduleToPackage (module : Bytes) : Bytes :=
  let package := module.flatMap fun c => if c = 47 then ascii "::" else [c]
  if ascii ".pm" <:+ package then package.take (package.length - 3)
  else if ascii ".pm\n" <:+ package then package.take (package.length - 4) ++ ascii "\n"
  else package

namespace Reloaded

variable (lib : Library) (baseTime : ℕ) (s : Reloaded)

/-- The time that `stat` has of a path or, if it has none, in a directory of `@INC`. -/
def mtime (file : Bytes) : Option ℕ :=
  ((file :: lib.inDirs file).filterMap fun path =>
    (lib.file path).map fun f => (s.disk f).mtime).find? (· ≠ 0)

/-- The time with which the one of the file is compared. -/
def since (file : Bytes) : ℕ := (s.stat file).getD baseTime

/-- The look at one key of `%INC`. -/
def check : List (Bytes × Bytes) × (Bytes → Option ℕ) → Bytes →
    List (Bytes × Bytes) × (Bytes → Option ℕ)
  | (changed, stat), key =>
      match (Table.get id s.packages.inc key).join with
      | none => (changed, stat)
      | some file =>
          match s.mtime lib file with
          | none => (changed, stat)
          | some mtime =>
              (if (stat file).getD baseTime < mtime then changed ++ [(key, file)] else changed,
                Function.update stat file (some mtime))

/-- `sort { $a cmp $b } keys %INC` -/
def keys : List Bytes :=
  (s.packages.inc.map Prod.fst).insertionSort fun a b => b.lex a (fun x y => decide (x < y)) = false

/-- The entries whose files have changed, and the new times. -/
def scan : List (Bytes × Bytes) × (Bytes → Option ℕ) :=
  s.keys.foldl (s.check lib baseTime) ([], s.stat)

/-- First the changed modules are unloaded. -/
def unloadAll (changed : List (Bytes × Bytes)) (p : Packages) : Packages :=
  changed.foldl (fun p (key, _) => p.unloadPackagePp (moduleToPackage key)) p

/-- The names that are required. -/
def required (byModuleName : Bool) (changed : List (Bytes × Bytes)) : List Bytes :=
  changed.map fun (key, file) => if byModuleName then key else file

def handler (byModuleName : Bool) : Option Reloaded :=
  let (changed, stat) := s.scan lib baseTime
  (requireAll lib s.disk (required byModuleName changed) (unloadAll changed s.packages)).map
    fun (packages, finished) => { s with packages, stat, finished }

/-- An edit makes the time later. -/
def step : ReloadAct → Option Reloaded
  | .edit f source =>
      if (s.disk f).mtime < source.mtime then
        some { s with disk := Function.update s.disk f source, finished := false }
      else none
  | .handler byModuleName => s.handler lib baseTime byModuleName

/-- A file is loaded, under some name. -/
def Loaded (p : Packages) (f : ℕ) : Prop :=
  ∃ key path, Table.get id p.inc key = some (some path) ∧ lib.file path = some f

/-- The package of a file has the subs that the file has now, and no others. -/
def Current (p : Packages) (disk : ℕ → PerlFile) (f : ℕ) : Prop := ∀ name, Final lib disk p f name

/-- All entries of `%INC` are those of files whose packages are current. -/
def UpToDate (p : Packages) (disk : ℕ → PerlFile) : Prop :=
  ∀ key file, Table.get id p.inc key = some file →
    ∃ path f, file = some path ∧ lib.file path = some f ∧ Current lib p disk f

/-- The key that goes with the package is the one of the entry, and the package is none of those
that the handler cannot do without: its own, the one that unloads, and `main`. -/
def Unloadable (key : Bytes) : Prop :=
  package2filename (moduleToPackage key) = key ∧
    stashName (moduleToPackage key) ∉
      [ascii "Apache2::Reload", ascii "ModPerl::Util", ascii "main", ascii ""]

instance : DecidablePred Unloadable := fun _ => inferInstanceAs (Decidable (_ ∧ _))

/-- What the handler has to find when it has unloaded the changed packages. -/
structure Reloads (changed : List (Bytes × Bytes)) (names : List Bytes) (p : Packages) : Prop where
  /-- Every file that is loaded compiles, and defines again what is left in its package. -/
  loadable : Loadable lib s.disk p names
  /-- Every changed file is loaded. -/
  loads : ∀ e ∈ changed, ∀ f, lib.file e.2 = some f → Loads lib s.disk p names f
  /-- No package has been unloaded that is the one of another file. -/
  own : ∀ e ∈ changed, ∀ f, Loaded lib s.packages f →
    stashName (moduleToPackage e.1) = stashName (lib.package f) → Loads lib s.disk p names f

/-- An edit is noticed, and the handler finds what it needs. -/
def ReloadOk : Reloaded → ReloadAct → Prop
  | s, .edit f source => ∀ key path, Table.get id s.packages.inc key = some (some path) →
      lib.file path = some f → s.since baseTime path < source.mtime
  | s, .handler byModuleName =>
      let changed := (s.scan lib baseTime).1
      (∀ e ∈ changed, Unloadable e.1) ∧
        s.Reloads lib changed (required byModuleName changed) (unloadAll changed s.packages)

/-- When all modules have been loaded.  `Reload.pm` has been loaded at `loadTime`. -/
def start (packages : Packages) (disk : ℕ → PerlFile) (reloadPm : Bytes) (loadTime : ℕ) :
    Reloaded where
  packages
  disk
  stat := Function.update (fun _ => none) reloadPm (some loadTime)
  finished := false

variable {lib : Library} {baseTime : ℕ} {s s' : Reloaded} {p p' : Packages}
  {changed : List (Bytes × Bytes)} {names : List Bytes} {f : ℕ} {key path package : Bytes}

/-! ## Unloading -/

/-- A package is unloaded, with its entry in `%INC`. -/
theorem get_unloadPackagePp (hkey : Unloadable key) (key' : Bytes) :
    Table.get id (p.unloadPackagePp (moduleToPackage key)).inc key' =
      if key = key' then none else Table.get id p.inc key' := by
  rw [unloadPackagePp, hkey.1]
  exact Table.get_unset

/-- The others keep their subs. -/
theorem codeOf_unloadPackagePp {package' : Bytes} (hne : stashName package' ≠ stashName package)
    (name : Bytes) : (p.unloadPackagePp package').codeOf package name = p.codeOf package name := by
  have hstash : (p.unloadPackagePp package').stash (stashName package) =
      p.stash (stashName package) := if_neg (Ne.symm hne)
  rw [codeOf, codeOf, hstash]

/-- What is left of `%INC` when the changed packages have been unloaded. -/
theorem get_unloadAll (hchanged : ∀ e ∈ changed, Unloadable e.1) (key : Bytes) :
    Table.get id (unloadAll changed p).inc key =
      if key ∈ changed.map Prod.fst then none else Table.get id p.inc key := by
  induction changed generalizing p with
  | nil => simp [unloadAll]
  | cons e changed ih =>
      have hrest : ∀ e' ∈ changed, Unloadable e'.1 :=
        fun e' hmem => hchanged e' (List.mem_cons_of_mem _ hmem)
      have hfirst := get_unloadPackagePp (p := p) (hchanged e List.mem_cons_self) key
      have htail := ih (p := p.unloadPackagePp (moduleToPackage e.1)) hrest
      rw [hfirst] at htail
      refine htail.trans ?_
      simp only [List.map_cons, List.mem_cons]
      by_cases hself : key = e.1
      · simp [hself]
      · rw [if_neg (Ne.symm hself)]
        simp only [hself, false_or]

/-- A package that was not among them keeps its subs. -/
theorem codeOf_unloadAll
    (hpackage : ∀ e ∈ changed, stashName (moduleToPackage e.1) ≠ stashName package)
    (name : Bytes) : (unloadAll changed p).codeOf package name = p.codeOf package name := by
  induction changed generalizing p with
  | nil => rfl
  | cons e changed ih =>
      have hrest : ∀ e' ∈ changed, stashName (moduleToPackage e'.1) ≠ stashName package :=
        fun e' hmem => hpackage e' (List.mem_cons_of_mem _ hmem)
      calc (unloadAll (e :: changed) p).codeOf package name
          = (p.unloadPackagePp (moduleToPackage e.1)).codeOf package name := ih hrest
        _ = p.codeOf package name :=
          codeOf_unloadPackagePp (hpackage e List.mem_cons_self) name

/-! ## Looking for changes -/

/-- A key is passed over, or its file is there. -/
theorem check_cases (lib : Library) (baseTime : ℕ) (s : Reloaded)
    (acc : List (Bytes × Bytes) × (Bytes → Option ℕ)) (key : Bytes) :
    ((∀ file, Table.get id s.packages.inc key = some (some file) → s.mtime lib file = none) ∧
      s.check lib baseTime acc key = acc) ∨
    ∃ file mtime, Table.get id s.packages.inc key = some (some file) ∧
      s.mtime lib file = some mtime ∧
      s.check lib baseTime acc key =
        (if (acc.2 file).getD baseTime < mtime then acc.1 ++ [(key, file)] else acc.1,
          Function.update acc.2 file (some mtime)) := by
  unfold check
  cases hkey : (Table.get id s.packages.inc key).join with
  | none =>
      refine .inl ⟨fun file hfile => ?_, by simp only [hkey]⟩
      rw [hfile] at hkey
      cases hkey
  | some file =>
      have hfile : Table.get id s.packages.inc key = some (some file) :=
        Option.join_eq_some_iff.mp hkey
      cases hmtime : s.mtime lib file with
      | none =>
          refine .inl ⟨fun file' hfile' => ?_, ?_⟩
          · obtain rfl := Option.some.inj (Option.some.inj (hfile.symm.trans hfile'))
            exact hmtime
          · simp only [hkey, hmtime]
      | some mtime =>
          exact .inr ⟨file, mtime, hfile, hmtime, by simp only [hkey, hmtime]⟩

/-- A changed entry is one of `%INC`. -/
theorem inc_of_mem_scan {keys : List Bytes} {acc : List (Bytes × Bytes) × (Bytes → Option ℕ)}
    (hacc : ∀ e ∈ acc.1, Table.get id s.packages.inc e.1 = some (some e.2))
    {e : Bytes × Bytes} (he : e ∈ (keys.foldl (s.check lib baseTime) acc).1) :
    Table.get id s.packages.inc e.1 = some (some e.2) := by
  induction keys generalizing acc with
  | nil => exact hacc e he
  | cons key keys ih =>
      refine ih (fun e' he' => ?_) he
      rcases check_cases lib baseTime s acc key with ⟨-, heq⟩ | ⟨file, mtime, hfile, -, heq⟩
      · rw [heq] at he'
        exact hacc e' he'
      · rw [heq] at he'
        simp only at he'
        split_ifs at he'
        · rcases List.mem_append.mp he' with hmem | hmem
          · exact hacc e' hmem
          · rw [List.mem_singleton.mp hmem]
            exact hfile
        · exact hacc e' he'

/-- What has changed stays among the changed ones. -/
theorem mem_foldl_check {keys : List Bytes} {acc : List (Bytes × Bytes) × (Bytes → Option ℕ)}
    {e : Bytes × Bytes} (he : e ∈ acc.1) : e ∈ (keys.foldl (s.check lib baseTime) acc).1 := by
  induction keys generalizing acc with
  | nil => exact he
  | cons key keys ih =>
      refine ih ?_
      rcases check_cases lib baseTime s acc key with ⟨-, heq⟩ | ⟨file, mtime, -, -, heq⟩
      · rw [heq]
        exact he
      · rw [heq]
        simp only
        split_ifs
        · exact List.mem_append_left _ he
        · exact he

/-- A file with a later time is among the changed ones. -/
theorem mem_scan {keys : List Bytes} {acc : List (Bytes × Bytes) × (Bytes → Option ℕ)} {mtime : ℕ}
    {file : Bytes} (hmtime : s.mtime lib file = some mtime)
    (hlater : (acc.2 file).getD baseTime < mtime)
    (hkey : ∃ key ∈ keys, Table.get id s.packages.inc key = some (some file)) :
    ∃ key, (key, file) ∈ (keys.foldl (s.check lib baseTime) acc).1 := by
  induction keys generalizing acc with
  | nil =>
      obtain ⟨key, hmem, -⟩ := hkey
      cases hmem
  | cons key keys ih =>
      obtain ⟨key', hmem, hkey'⟩ := hkey
      rcases check_cases lib baseTime s acc key with
        ⟨hpass, heq⟩ | ⟨file', mtime', hfile', hmtime', heq⟩
      · have hne : key' ≠ key := by
          rintro rfl
          rw [hpass file hkey'] at hmtime
          cases hmtime
        rw [List.foldl_cons, heq]
        exact ih hlater ⟨key', List.mem_of_ne_of_mem hne hmem, hkey'⟩
      · by_cases hfile : file' = file
        · subst hfile
          obtain rfl := Option.some.inj (hmtime'.symm.trans hmtime)
          have hself : (key, file') ∈ (s.check lib baseTime acc key).1 := by
            rw [heq]
            simp only [if_pos hlater]
            exact List.mem_append_right _ (List.mem_singleton_self _)
          refine ⟨key, ?_⟩
          rw [List.foldl_cons]
          exact mem_foldl_check hself
        · have hne : key' ≠ key := by
            rintro rfl
            exact hfile (Option.some.inj (Option.some.inj (hfile'.symm.trans hkey')))
          refine ih ?_ ⟨key', List.mem_of_ne_of_mem hne hmem, hkey'⟩
          rw [heq]
          simp only [Function.update_of_ne (Ne.symm hfile)]
          exact hlater

/-- The changed entries are those of `%INC`. -/
theorem inc_of_changed {e : Bytes × Bytes} (he : e ∈ (s.scan lib baseTime).1) :
    Table.get id s.packages.inc e.1 = some (some e.2) :=
  inc_of_mem_scan (fun _ he' => by cases he') he

/-- All files with later times are among the changed ones. -/
theorem exists_changed (hkey : Table.get id s.packages.inc key = some (some path))
    (hfile : lib.file path = some f) (hlater : s.since baseTime path < (s.disk f).mtime) :
    ∃ key, (key, path) ∈ (s.scan lib baseTime).1 := by
  have hmtime : s.mtime lib path = some (s.disk f).mtime := by
    have hne : (s.disk f).mtime ≠ 0 := by omega
    unfold mtime
    rw [List.filterMap_cons, hfile]
    simp [hne]
  refine mem_scan hmtime hlater ⟨key, ?_, hkey⟩
  obtain ⟨e, he, heq, -⟩ := Table.exists_mem_of_get hkey
  obtain rfl : e.1 = key := heq
  exact (List.mem_insertionSort _).mpr (List.mem_map_of_mem he)

/-! ## The reload -/

/-- A file that has been loaded is current: what was left in its package it has defined again. -/
theorem current_of_loads {disk : ℕ → PerlFile} (h : Loadable lib disk p names)
    (hadds : Adds lib disk (Loads lib disk p names) none p p') (hloads : Loads lib disk p names f)
    (hread : HasRead lib disk p' f) : Current lib p' disk f := by
  obtain ⟨name, path, hwanted, hnone, hfind⟩ := hloads
  obtain ⟨path', f', hfind', hloadable⟩ := h name hwanted hnone
  obtain ⟨-, rfl⟩ := Prod.mk.inj (Option.some.inj (hfind.symm.trans hfind'))
  intro sub
  by_cases hsub : codeIn (disk f).items sub = none
  · have hgone : p.codeOf (lib.package f) sub = none := by
      by_contra hne
      exact hloadable.redefines sub hne hsub
    rw [Final, hadds.others f sub hsub, hgone, hsub]
  · exact hread.subs sub hsub

/-- What was to be loaded is. -/
theorem loaded_of_loads {disk : ℕ → PerlFile} (h : Loadable lib disk p names)
    (hadds : Adds lib disk (Loads lib disk p names) none p p')
    (hnamed : ∀ name ∈ names, Table.get id p'.inc name ≠ none)
    (hloads : Loads lib disk p names f) : Loaded lib p' f ∧ Current lib p' disk f := by
  obtain ⟨name, path, hwanted, hnone, hfind⟩ := id hloads
  obtain ⟨file, hfile⟩ := Option.ne_none_iff_exists'.mp (hadds.wanted_loaded hnamed hwanted)
  obtain ⟨path', g, rfl, hpath, hown, -, hread⟩ := hadds.new name file hnone hfile
  obtain rfl := hown.1 path f hfind
  exact ⟨⟨name, path', hfile, hpath⟩, current_of_loads h hadds hloads (hread (by simp))⟩

/-- All entries of `%INC` are those of files. -/
theorem ready_of_entry (hentry : ∀ key file, Table.get id p.inc key = some file →
    ∃ path f, file = some path ∧ lib.file path = some f) : Ready lib p lib.names.length p where
  base _ hkey := hkey
  entry key file hkey := by
    obtain ⟨path, f, rfl, hfile⟩ := hentry key file hkey
    exact ⟨path, f, rfl, hfile, .inl ⟨path, hkey, hfile⟩⟩
  missing_le := List.countP_le_length

/-- Modules that are required, however they require each other, are up to date. -/
theorem UpToDate.requireAll {disk : ℕ → PerlFile} (h : UpToDate lib p disk)
    (hload : Loadable lib disk p names) :
    ∃ p', requireAll lib disk names p = some (p', true) ∧ UpToDate lib p' disk := by
  have hready : Ready lib p lib.names.length p := by
    refine ready_of_entry fun key file hkey => ?_
    obtain ⟨path, f, hpath, hfile, -⟩ := h key file hkey
    exact ⟨path, f, hpath, hfile⟩
  obtain ⟨p', hrun, hadds, hnamed⟩ := requireAll_spec hload (fun name hmem => .named hmem) hready
  refine ⟨p', hrun, fun key file hkey => ?_⟩
  cases hold : Table.get id p.inc key with
  | none =>
      obtain ⟨path, f, rfl, hfile, -, hloads, hread⟩ := hadds.new key file hold hkey
      exact ⟨path, f, rfl, hfile, current_of_loads hload hadds hloads (hread (by simp))⟩
  | some file' =>
      obtain ⟨path, f, rfl, hfile, hcurrent⟩ := h key file' hold
      obtain ⟨path', hkey', hfile'⟩ := hadds.old key path f hold hfile
      exact ⟨path', f, Option.some.inj (hkey.symm.trans hkey'), hfile',
        fun name => hadds.keeps f name (hcurrent name)⟩

/-- Every entry of `%INC` is the one of a file, whose package is current or which has changed. -/
def Tracked (lib : Library) (baseTime : ℕ) (s : Reloaded) : Prop :=
  ∀ key file, Table.get id s.packages.inc key = some file →
    ∃ path f, file = some path ∧ lib.file path = some f ∧
      (Current lib s.packages s.disk f ∨ s.since baseTime path < (s.disk f).mtime)

theorem UpToDate.tracked (h : UpToDate lib s.packages s.disk) : Tracked lib baseTime s := by
  intro key file hkey
  obtain ⟨path, f, hpath, hfile, hcurrent⟩ := h key file hkey
  exact ⟨path, f, hpath, hfile, .inl hcurrent⟩

namespace Tracked

/-- An edit that is noticed. -/
theorem edit (h : Tracked lib baseTime s) {source : PerlFile}
    (hok : ReloadOk lib baseTime s (.edit f source)) :
    Tracked lib baseTime
      { s with disk := Function.update s.disk f source, finished := false } := by
  intro key file hkey
  obtain ⟨path, g, rfl, hfile, hcase⟩ := h key file hkey
  refine ⟨path, g, rfl, hfile, ?_⟩
  by_cases hg : g = f
  · subst hg
    refine .inr ?_
    simp only [Function.update_self]
    exact hok key path hkey hfile
  · simpa only [Current, Final, since, Function.update_of_ne hg] using hcase

/-- A file that is not loaded again has not changed, and keeps what it has. -/
theorem kept (h : Tracked lib baseTime s)
    (hreloads : s.Reloads lib (s.scan lib baseTime).1 names p)
    (hcode : ∀ package, (∀ e ∈ (s.scan lib baseTime).1,
      stashName (moduleToPackage e.1) ≠ stashName package) →
        ∀ name, p.codeOf package name = s.packages.codeOf package name)
    (hadds : Adds lib s.disk (Loads lib s.disk p names) none p p')
    (hloaded : Loaded lib s.packages f) (hnot : ¬Loads lib s.disk p names f) :
    Current lib p' s.disk f := by
  intro name
  obtain ⟨key, path, hkey, hfile⟩ := id hloaded
  obtain ⟨path', f', heq, hfile', hcase⟩ := h key (some path) hkey
  obtain rfl := Option.some.inj heq
  obtain rfl := Option.some.inj (hfile.symm.trans hfile')
  rcases hcase with hcurrent | hlater
  · refine hadds.keeps f name ?_
    rw [Final, hcode (lib.package f) fun e he hpackage =>
      hnot (hreloads.own e he f hloaded hpackage)]
    exact hcurrent name
  · obtain ⟨key', hmem⟩ := exists_changed hkey hfile hlater
    exact absurd (hreloads.loads (key', path) hmem f hfile) hnot

/-- A call of the handler that finds what it needs: all packages are current then, and everything
that was loaded is loaded. -/
theorem handler (h : Tracked lib baseTime s) {byModuleName : Bool}
    (hok : ReloadOk lib baseTime s (.handler byModuleName)) :
    ∃ s', s.handler lib baseTime byModuleName = some s' ∧ s'.finished = true ∧ s'.disk = s.disk ∧
      UpToDate lib s'.packages s.disk ∧
      ∀ f, Loaded lib s.packages f → Loaded lib s'.packages f := by
  obtain ⟨hunloadable, hreloads⟩ := hok
  obtain ⟨p, hunload⟩ : ∃ p, unloadAll (s.scan lib baseTime).1 s.packages = p := ⟨_, rfl⟩
  rw [hunload] at hreloads
  have hinc : ∀ key, Table.get id p.inc key =
      if key ∈ (s.scan lib baseTime).1.map Prod.fst then none
      else Table.get id s.packages.inc key := by
    rw [← hunload]
    exact get_unloadAll hunloadable
  have hcode : ∀ package, (∀ e ∈ (s.scan lib baseTime).1,
      stashName (moduleToPackage e.1) ≠ stashName package) →
        ∀ name, p.codeOf package name = s.packages.codeOf package name := by
    rw [← hunload]
    exact fun package hpackage => codeOf_unloadAll hpackage
  have hentry : ∀ key file, Table.get id p.inc key = some file →
      key ∉ (s.scan lib baseTime).1.map Prod.fst ∧ Table.get id s.packages.inc key = some file := by
    intro key file hkey
    rw [hinc] at hkey
    split_ifs at hkey with hmem
    exact ⟨hmem, hkey⟩
  have hready : Ready lib p lib.names.length p := by
    refine ready_of_entry fun key file hkey => ?_
    obtain ⟨path, f, hpath, hfile, -⟩ := h key file (hentry key file hkey).2
    exact ⟨path, f, hpath, hfile⟩
  obtain ⟨p', hrun, hadds, hnamed⟩ :=
    requireAll_spec hreloads.loadable (fun name hmem => .named hmem) hready
  refine ⟨{ s with packages := p', stat := (s.scan lib baseTime).2, finished := true }, ?_, rfl,
    rfl, fun key file hkey => ?_, fun f hloaded => ?_⟩
  · unfold Reloaded.handler
    simp only [hunload, hrun, Option.map_some]
  · cases hold : Table.get id p.inc key with
    | none =>
        obtain ⟨path, f, rfl, hfile, -, hloads, hread⟩ := hadds.new key file hold hkey
        exact ⟨path, f, rfl, hfile,
          current_of_loads hreloads.loadable hadds hloads (hread (by simp))⟩
    | some file' =>
        obtain ⟨-, hkey'⟩ := hentry key file' hold
        obtain ⟨path, f, rfl, hfile, -⟩ := h key file' hkey'
        obtain ⟨path', hkey'', hfile'⟩ := hadds.old key path f hold hfile
        refine ⟨path', f, Option.some.inj (hkey.symm.trans hkey''), hfile', ?_⟩
        by_cases hloads : Loads lib s.disk p (required byModuleName (s.scan lib baseTime).1) f
        · exact (loaded_of_loads hreloads.loadable hadds hnamed hloads).2
        · exact h.kept hreloads hcode hadds ⟨key, path, hkey', hfile⟩ hloads
  · by_cases hloads : Loads lib s.disk p (required byModuleName (s.scan lib baseTime).1) f
    · exact (loaded_of_loads hreloads.loadable hadds hnamed hloads).1
    · obtain ⟨key, path, hkey, hfile⟩ := hloaded
      have hunchanged : key ∉ (s.scan lib baseTime).1.map Prod.fst := by
        intro hmem
        obtain ⟨e, he, rfl⟩ := List.mem_map.mp hmem
        obtain rfl := Option.some.inj (Option.some.inj (hkey.symm.trans (inc_of_changed he)))
        exact hloads (hreloads.loads e he f hfile)
      have hbase : Table.get id p.inc key = some (some path) := by
        rw [hinc, if_neg hunchanged]
        exact hkey
      obtain ⟨path', hkey', hfile'⟩ := hadds.old key path f hbase hfile
      exact ⟨key, path', hkey', hfile'⟩

end Tracked

theorem stashName_replicate (n : ℕ) : stashName (List.replicate n 65) = List.replicate n 65 := by
  have hstrip : ∀ k, stashName.strip k (List.replicate n 65) = List.replicate n 65 := by
    intro k
    cases k with
    | zero => rfl
    | succ k =>
        have hcolons : ¬ascii "::" <+: List.replicate n 65 := by
          intro hprefix
          have hmem := hprefix.subset (show (58 : UInt8) ∈ ascii "::" by decide)
          exact absurd (List.eq_of_mem_replicate hmem) (by decide)
        have hmain : ¬ascii "main::" <+: List.replicate n 65 := by
          intro hprefix
          have hmem := hprefix.subset (show (58 : UInt8) ∈ ascii "main::" by decide)
          exact absurd (List.eq_of_mem_replicate hmem) (by decide)
        rw [stashName.strip, if_neg hcolons, if_neg hmain]
  exact hstrip _

theorem slashed_replicate (n : ℕ) : slashed (List.replicate n 65) = List.replicate n 65 := by
  induction n with
  | zero => rfl
  | succ n ih =>
      have hcons : slashed (65 :: List.replicate n 65) = 65 :: slashed (List.replicate n 65) :=
        slashed.eq_2 _ _ (by simp)
      rw [List.replicate_succ, hcons, ih]

/-- Files with the packages `A`, `AA`, ..., two of which are there. -/
def cyclicLib : Library where
  incDirs := [ascii "/lib"]
  paths := [(ascii "/lib/A.pm", 0), (ascii "/lib/AA.pm", 1)]
  package f := List.replicate (f + 1) 65
  package_injective f g h := by
    rw [stashName_replicate, stashName_replicate] at h
    have hlength := congrArg List.length h
    simpa using hlength
  module_injective f g h := by
    unfold packageToModule at h
    rw [slashed_replicate, slashed_replicate] at h
    have hlength := congrArg List.length h
    simpa using hlength

/-- `A.pm` requires `AA.pm`, and `AA.pm` requires `A.pm`. -/
def cyclicDisk : ℕ → PerlFile
  | 0 => ⟨10, [.use (ascii "AA.pm"), .sub (ascii "f") 1]⟩
  | _ => ⟨10, [.use (ascii "A.pm"), .sub (ascii "g") 1, .sub (ascii "h") 1]⟩

/-- `A.pm` has been required. -/
def bothLoaded : Packages :=
  ((requireAll cyclicLib cyclicDisk [ascii "A.pm"] (Packages.loaded [] [])).getD
    (Packages.loaded [] [], false)).1

theorem bothLoaded_upToDate : UpToDate cyclicLib bothLoaded cyclicDisk := by
  have hblank : UpToDate cyclicLib (Packages.loaded [] []) cyclicDisk := by
    intro key file hkey
    cases hkey
  have hload : Loadable cyclicLib cyclicDisk (Packages.loaded [] []) [ascii "A.pm"] :=
    loadable_of_closed [ascii "A.pm", ascii "AA.pm"] (by decide +kernel) (by decide +kernel)
  obtain ⟨p', hrun, huptodate⟩ := hblank.requireAll hload
  unfold bothLoaded
  rw [hrun]
  exact huptodate

/-- The server was started at time 100. -/
def started : Reloaded := start bothLoaded cyclicDisk (ascii "/lib/Apache2/Reload.pm") 100

/-- `AA.pm` loses a sub, and gets a new one for another. -/
def firstEdit : PerlFile := ⟨110, [.use (ascii "A.pm"), .sub (ascii "g") 2]⟩

def edited : Reloaded :=
  { started with disk := Function.update cyclicDisk 1 firstEdit, finished := false }

theorem reloadOk_firstEdit : ReloadOk cyclicLib 100 started (.edit 1 firstEdit) := by
  intro key path _ _
  have hsince : started.since 100 path = 100 := by
    unfold since started start
    by_cases hpath : path = ascii "/lib/Apache2/Reload.pm" <;> simp [hpath]
  rw [hsince]
  decide

/-- The package has been unloaded. -/
def unloaded : Packages :=
  unloadAll [(ascii "AA.pm", ascii "/lib/AA.pm")] edited.packages

theorem reloadOk_edited : ReloadOk cyclicLib 100 edited (.handler false) := by
  have hscan : (edited.scan cyclicLib 100).1 = [(ascii "AA.pm", ascii "/lib/AA.pm")] := by
    decide +kernel
  simp only [ReloadOk, hscan]
  have hcheck : Table.get id unloaded.inc (ascii "/lib/AA.pm") = none ∧
      ∀ name ∈ [ascii "/lib/AA.pm", ascii "A.pm"], Table.get id unloaded.inc name = none →
        (cyclicLib.find name).any fun (found : Bytes × ℕ) => decide (
          Item.error ∉ (edited.disk found.2).items ∧
          Item.register ∉ (edited.disk found.2).items ∧
          (∀ item ∈ (edited.disk found.2).items, ∀ used ∈ item.used,
            used ∈ [ascii "/lib/AA.pm", ascii "A.pm"]) ∧
          ∀ symbol ∈ unloaded.stash (stashName (cyclicLib.package found.2)), symbol.code ≠ none →
            codeIn (edited.disk found.2).items symbol.key ≠ none) := by
    decide +kernel
  obtain ⟨hnone, hclosed⟩ := hcheck
  have hloads : Loads cyclicLib edited.disk unloaded [ascii "/lib/AA.pm"] 1 :=
    ⟨ascii "/lib/AA.pm", ascii "/lib/AA.pm", .named (List.mem_singleton_self _), hnone, by
      decide +kernel⟩
  have hloadable : Loadable cyclicLib edited.disk unloaded [ascii "/lib/AA.pm"] :=
    loadable_of_closed _ (by decide +kernel) hclosed
  refine ⟨by decide +kernel, hloadable, fun e he f hf => ?_, fun e he f _ hpackage => ?_⟩
  · obtain rfl := List.mem_singleton.mp he
    obtain rfl : f = 1 := Option.some.inj (hf.symm.trans (by decide +kernel))
    exact hloads
  · obtain rfl := List.mem_singleton.mp he
    have hself : stashName (moduleToPackage (ascii "AA.pm")) = stashName (cyclicLib.package 1) := by
      decide +kernel
    obtain rfl := cyclicLib.package_injective f 1 (hpackage.symm.trans hself)
    exact hloads

/-- Every file compiles. -/
def Compiles (lib : Library) (disk : ℕ → PerlFile) : Prop :=
  ∀ e ∈ lib.paths, Item.error ∉ (disk e.2).items

instance (lib : Library) (disk : ℕ → PerlFile) : Decidable (Compiles lib disk) :=
  inferInstanceAs (Decidable (∀ e ∈ lib.paths, _))

end Reloaded

end ModPerl
