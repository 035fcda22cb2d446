import ModPerl.Registry.Namespace
import Mathlib.Data.Int.Notation
import Mathlib.Data.List.Basic

/-!
# The methods of the Registry

A script is compiled into a package of its own when a request finds it changed, and its sub
`handler` is called.  Three things are then kept for later requests, and not at the same
moment: `eval` installs the sub when it gets to its end; each `END` block goes to the list of
the package, which was cleared before; and the modification time is recorded last, only if
there was no error.

`END` blocks go to the list of their package while `PL_endav` has its magic, which is during
a `perl-script` request.  At startup, and under `SetHandler modperl`, they stay in `PL_endav`
and are not run with the script.

The classes differ in the methods that `install_aliases` gives them: when they compile,
whether they remember the time, what they take back after a run, and whether they go to the
directory of the script.  The methods are those of `ModPerl::RegistryCooker`, with these as
parameters.  A version of the file is what Perl makes of it; the text is not modelled.  What
Perl runs while it compiles, as `BEGIN` blocks, is part of compiling.
-/

namespace ModPerl

namespace Registry

/-- Modification time in seconds. -/
abbrev Mtime := ℤ

/-- A version of a file. -/
structure Source where
  filename : Bytes
  mtime : Mtime
  deriving DecidableEq

/-- What `eval` does with the text of a version. -/
structure Script where
  /-- There is no error. -/
  compiles : Bool
  /-- The end of `sub handler` is reached without an error. -/
  definesHandler : Bool
  /-- How many `END` blocks are compiled: those before the error, if there is one. -/
  endBlocks : ℕ
  /-- The files that are required while it is compiled, by `use` or in a `BEGIN` block. -/
  uses : List Bytes
  defines_of_compiles : compiles = true → definesHandler = true

/-- A compiled `END` block.  In the list of a package it is told apart by the time of its
version. -/
structure EndBlock where
  version : Mtime
  index : ℕ
  deriving DecidableEq

/-- What `slurp_filename` dies of. -/
inductive SlurpError
  | eacces
  | enoent
  | other
  deriving DecidableEq

/-- What the handler reads of the request, and how the code of the script ends. -/
structure ScriptReq where
  /-- `$r->finfo->filetype` is `FILETYPE_REG`. -/
  regular : Bool
  /-- `$r->allow_options` has `OPT_EXECCGI`. -/
  execCgi : Bool
  slurpError : Option SlurpError
  /-- The sub dies, but not in `ModPerl::Util::exit`. -/
  dies : Bool
  endDies : EndBlock → Bool
  status : ℤ
  /-- The status that the script leaves. -/
  newStatus : ℤ

/-- What an interpreter has of a package. -/
structure Package where
  /-- `$ModPerl::RegistryCache{$package}{mtime}` -/
  cachedMtime : Option Mtime
  /-- The version that `&{"$package\::handler"}` was compiled from. -/
  handler : Option Source
  /-- `$PL_modglobal{END}{$package}` -/
  endList : Option (List EndBlock)
  deriving DecidableEq

/-- The interpreter, as a handler finds it and leaves it. -/
structure View where
  package : Package
  /-- The names in `%INC`. -/
  inc : List Bytes
  /-- The files that were executed by `require` meanwhile. -/
  loaded : List Bytes
  deriving DecidableEq

/-- A request, and what the code of the script does. -/
structure Visit where
  req : ScriptReq
  /-- `PL_endav` has its magic: `SetHandler perl-script`, and no sub-request has taken it off. -/
  magic : Bool
  /-- The files that the sub requires. -/
  required : List Bytes
  /-- The sub calls `uncache_myself`. -/
  uncaches : Bool

/-- The handler returned before the script was run, or died, or it ran this sub and these `END`
blocks.  An `END` block that dies takes the handler with it. -/
inductive Answer
  | returned (rc : ℤ)
  | died
  | ran (sub : Option Source) (ends : List EndBlock) (rc : Option ℤ)
  deriving DecidableEq

/-- The handler returns a code. -/
def Answer.returns : Answer → Bool
  | .returned _ => true
  | .died => false
  | .ran _ _ rc => rc.isSome

def rcOk : ℤ := 0
def rcDeclined : ℤ := -1
def rcForbidden : ℤ := 403
def rcNotFound : ℤ := 404
def rcServerError : ℤ := 500

/-! ## The list of `END` blocks -/

/-- `modperl_perl_global_avcv_register` -/
def avcvRegister (list : Option (List EndBlock)) : Option (List EndBlock) := some (list.getD [])

/-- `modperl_perl_global_avcv_clear` -/
def avcvClear (list : Option (List EndBlock)) : Option (List EndBlock) := list.map fun _ => []

/-- `modperl_perl_global_avcv_set`: without a list the block stays in `PL_endav`. -/
def avcvSet (list : Option (List EndBlock)) (cv : EndBlock) : Option (List EndBlock) :=
  list.map (· ++ [cv])

/-- `modperl_perl_call_list`: the blocks that are called, and whether the queue was aborted. -/
def callList (dies : EndBlock → Bool) : List EndBlock → List EndBlock × Bool
  | [] => ([], false)
  | cv :: list =>
      if dies cv then ([cv], true)
      else (cv :: (callList dies list).1, (callList dies list).2)

/-- `modperl_perl_global_avcv_call` -/
def avcvCall (dies : EndBlock → Bool) (list : Option (List EndBlock)) : List EndBlock × Bool :=
  (list.map (callList dies)).getD ([], false)

theorem foldl_avcvSet {cvs list : List EndBlock} :
    cvs.foldl avcvSet (some list) = some (list ++ cvs) := by
  induction cvs generalizing list with
  | nil => rw [List.foldl_nil, List.append_nil]
  | cons cv cvs ih =>
      rw [List.foldl_cons, show avcvSet (some list) cv = some (list ++ [cv]) from rfl, ih,
        List.append_assoc, List.singleton_append]

/-! ## `%INC` -/

/-- The files that are executed when these are required. -/
def loads (inc : List Bytes) : List Bytes → List Bytes
  | [] => []
  | name :: names =>
      if inc.contains name then loads inc names else name :: loads (name :: inc) names

/-- `/\.pm$/` -/
def isPm (name : Bytes) : Bool := endsIn name (ascii ".pm")

def View.requireAll (v : View) (names : List Bytes) : View :=
  { v with inc := v.inc ++ loads v.inc names, loaded := v.loaded ++ loads v.inc names }

/-- The loop of `run`, under `should_reset_inc_hash` -/
def View.resetInc (orig : List Bytes) (v : View) : View :=
  { v with inc := v.inc.filter fun name => orig.contains name || isPm name }

/-! ## The working directory -/

variable {Dir : Type*}

/-- The calls of `chdir_file`. -/
inductive ChdirCall
  | beforeCompile
  | afterCompile
  | beforeRun
  | afterRun
  deriving DecidableEq

/-- What becomes of the working directory in a request. -/
structure Workdir (Dir : Type*) where
  /-- `Apache2::ServerUtil::server_root()` -/
  serverRoot : Dir
  /-- `File::Basename::dirname($self->{FILENAME})` -/
  dirname : Dir
  /-- Whether `chdir` works. -/
  chdirs : ChdirCall → Bool
  /-- Where the code that runs while the script is compiled leaves the process, then the sub,
  and then the `END` blocks. -/
  compileDir : Dir → Dir
  runDir : Dir → Dir
  endDir : Dir → Dir

/-- What a handler finds and leaves, with the working directory of the process. -/
structure Process (Dir : Type*) where
  view : View
  cwd : Dir

/-- `chdir_file`, with the directory that it is given: `none` if it dies. -/
abbrev ChdirFile (Dir : Type*) := Workdir Dir → ChdirCall → Option Dir → Dir → Option Dir

/-- `chdir_file_normal` -/
def chdirFileNormal : ChdirFile Dir := fun w call dir _ =>
  if w.chdirs call then some (dir.getD w.dirname) else none

/-- `NOP`, for `chdir_file` -/
def chdirFileNop : ChdirFile Dir := fun _ _ _ cwd => some cwd

/-! ## The methods -/

/-- The methods of `install_aliases` in which the classes differ, but for `chdir_file`. -/
structure Aliases where
  shouldCompile : Package → Mtime → Bool
  cacheIt : Mtime → View → View
  shouldResetIncHash : Bool
  flushNamespace : View → View

/-- `is_cached` -/
def isCached (p : Package) : Bool := p.cachedMtime.isSome

/-- `should_compile_if_modified` -/
def shouldCompileIfModified (p : Package) (m : Mtime) : Bool :=
  !(isCached p && p.cachedMtime = some m)

/-- `should_compile_once` -/
def shouldCompileOnce (p : Package) : Bool := !isCached p

/-- `cache_it` -/
def cacheIt (m : Mtime) (v : View) : View :=
  { v with package := { v.package with cachedMtime := some m } }

/-- `flush_namespace_normal`, as far as it concerns the sub of the script -/
def flushNamespaceNormal (v : View) : View :=
  { v with package := { v.package with handler := none } }

/-- `uncache_myself`, called by the sub -/
def uncacheMyself (v : View) : View :=
  { v with package := { v.package with cachedMtime := none } }

/-- `can_compile`: the code, where it is not `OK`. -/
def canCompile (r : ScriptReq) : Except ℤ Unit :=
  if !r.regular then .error rcDeclined
  else if !r.execCgi then .error rcForbidden
  else .ok ()

/-- `read_script` -/
def readScript (r : ScriptReq) : Except ℤ Unit :=
  match r.slurpError with
  | none => .ok ()
  | some .eacces => .error rcForbidden
  | some .enoent => .error rcNotFound
  | some .other => .error rcServerError

section

variable (script : Source → Script)

/-- The `END` blocks of a version, as they are compiled. -/
def blocks (src : Source) : List EndBlock :=
  (List.range (script src).endBlocks).map (EndBlock.mk src.mtime)

/-- `eval $$eval`, with or without the magic of `PL_endav` -/
def evalCode (magic : Bool) (src : Source) (v : View) : View :=
  let v := v.requireAll (script src).uses
  { v with package :=
      { v.package with
        handler := if (script src).definesHandler then some src else v.package.handler
        endList :=
          if magic then (blocks script src).foldl avcvSet v.package.endList
          else v.package.endList } }

/-- `compile` -/
def compile (magic : Bool) (src : Source) (v : View) : Except ℤ Unit × View :=
  let v := { v with package := { v.package with endList := avcvRegister v.package.endList } }
  let v := { v with package := { v.package with endList := avcvClear v.package.endList } }
  (if (script src).compiles then .ok () else .error rcServerError, evalCode script magic src v)

variable (a : Aliases) (chdirFile : ChdirFile Dir) (logError : ℤ → Option ℤ) (w : Workdir Dir)

/-- `convert_script_to_compiled_handler`: the code, where it is not `OK`, or `none` if it dies.
The method `log_error`, which is called before a code is returned, may die. -/
def convertScript (visit : Visit) (src : Source) (p : Process Dir) :
    Except (Option ℤ) Unit × Process Dir :=
  match readScript visit.req with
  | .error rc => (.error (logError rc), p)
  | .ok () =>
      match chdirFile w .beforeCompile none p.cwd with
      | none => (.error none, p)
      | some cwd =>
          match compile script visit.magic src p.view with
          | (.error rc, v) => (.error (logError rc), ⟨v, w.compileDir cwd⟩)
          | (.ok (), v) =>
              match chdirFile w .afterCompile (some w.serverRoot) (w.compileDir cwd) with
              | none => (.error none, ⟨v, w.compileDir cwd⟩)
              | some cwd => (.ok (), ⟨a.cacheIt src.mtime v, cwd⟩)

/-- What `run` does in the directory of the script.  No sub is there to be called if none was ever
compiled. -/
def runScript (visit : Visit) (v : View) : Answer × View :=
  let sub := v.package.handler
  let orig := v.inc
  let v := if sub.isSome then v.requireAll visit.required else v
  let v := if sub.isSome && visit.uncaches then uncacheMyself v else v
  let rc := if sub.isNone || visit.req.dies then rcServerError else rcOk
  match avcvCall visit.req.endDies v.package.endList with
  | (ends, true) => (.ran sub ends none, v)
  | (ends, false) =>
      (.ran sub ends (some rc),
        a.flushNamespace (if a.shouldResetIncHash then v.resetInc orig else v))

/-- `run` -/
def run (visit : Visit) (p : Process Dir) : Answer × Process Dir :=
  match chdirFile w .beforeRun none p.cwd with
  | none => (.died, p)
  | some cwd =>
      let cwd := w.endDir (w.runDir cwd)
      match runScript a visit p.view with
      | (.ran sub ends (some rc), v) =>
          match chdirFile w .afterRun (some w.serverRoot) cwd with
          | none => (.ran sub ends none, ⟨v, cwd⟩)
          | some cwd => (.ran sub ends (some rc), ⟨v, cwd⟩)
      | (answer, v) => (answer, ⟨v, cwd⟩)

/-- The end of `default_handler`: the status that the script has set counts if it ended well. -/
def withStatus (r : ScriptReq) : Answer → Answer
  | .ran sub ends (some rc) =>
      .ran sub ends (some (if rc = rcOk ∧ r.status ≠ r.newStatus then r.newStatus else rc))
  | answer => answer

/-- `run`, for the answer of `default_handler` -/
def answered (run : Process Dir → Answer × Process Dir) (visit : Visit) (p : Process Dir) :
    Answer × Process Dir := (withStatus visit.req (run p).1, (run p).2)

/-- `default_handler`, which calls the method `run` of the class -/
def defaultHandler (run : Process Dir → Answer × Process Dir) (visit : Visit) (src : Source)
    (p : Process Dir) : Answer × Process Dir :=
  if a.shouldCompile p.view.package src.mtime then
    match canCompile visit.req with
    | .error rc => (.returned rc, p)
    | .ok () =>
        match convertScript script a chdirFile logError w visit src p with
        | (.error none, p) => (.died, p)
        | (.error (some rc), p) => (.returned rc, p)
        | (.ok (), p) => answered run visit p
  else answered run visit p

/-- `default_handler` for a request: `log_error` writes to the log. -/
def handler (visit : Visit) (src : Source) (p : Process Dir) : Answer × Process Dir :=
  defaultHandler script a chdirFile some w (run a chdirFile w visit) visit src p

/-- `default_handler` for `ModPerl::RegistryLoader`, whose `run` does not run the script, and whose
`log_error` dies. -/
def preload (visit : Visit) (src : Source) (p : Process Dir) : Answer × Process Dir :=
  defaultHandler script a chdirFile (fun _ => none) w (fun p => (.returned rcOk, p)) visit src p

end

/-! ## The classes -/

/-- The classes that `install_aliases` or inherit from one that does. -/
inductive RegistryClass
  | registry
  | registryPrefork
  | registryBB
  | perlRun
  | perlRunPrefork
  deriving DecidableEq

namespace RegistryClass

/-- `ref($self)` -/
def name : RegistryClass → Bytes
  | registry => ascii "ModPerl::Registry"
  | registryPrefork => ascii "ModPerl::RegistryPrefork"
  | registryBB => ascii "ModPerl::RegistryBB"
  | perlRun => ascii "ModPerl::PerlRun"
  | perlRunPrefork => ascii "ModPerl::PerlRunPrefork"

/-- `cache_it` is not `NOP`. -/
def caches : RegistryClass → Bool
  | registry | registryPrefork | registryBB => true
  | perlRun | perlRunPrefork => false

/-- `%aliases` -/
def aliases : RegistryClass → Aliases
  | registry | registryPrefork => ⟨shouldCompileIfModified, cacheIt, false, id⟩
  | registryBB => ⟨fun p _ => shouldCompileOnce p, cacheIt, false, id⟩
  | perlRun | perlRunPrefork => ⟨fun _ _ => true, fun _ v => v, true, flushNamespaceNormal⟩

/-- `chdir_file` -/
def chdirFile : RegistryClass → ChdirFile Dir
  | registry | registryBB | perlRun => chdirFileNop
  | registryPrefork | perlRunPrefork => chdirFileNormal

end RegistryClass

/-- A plain request for a script that ends well. -/
def plainReq : ScriptReq where
  regular := true
  execCgi := true
  slurpError := none
  dies := false
  endDies := fun _ => false
  status := 200
  newStatus := 200

/-- What `ModPerl::RegistryLoader` has in the place of a request. -/
def loaderVisit (regular readable : Bool) : Visit where
  req :=
    { plainReq with
      regular := regular
      slurpError := if readable then none else some .other }
  magic := false
  required := []
  uncaches := false

end Registry

end ModPerl
