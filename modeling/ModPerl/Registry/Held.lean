import ModPerl.Registry.Cooker

/-!
# One script in one interpreter

What a request gets of a script depends on what was found of it before, in the same
interpreter: which versions, by whom, and in which order.  `Held` is what of this is still to be
seen: the version that was compiled last, and those that were found since and do not compile.
The answer to a request, and what it loads, can be read off it.

The working directory is not followed here: it can always be entered.
-/

namespace ModPerl

namespace Registry

/-- Directories that can be entered. -/
def anywhere : Workdir Unit where
  serverRoot := ()
  dirname := ()
  chdirs := fun _ => true
  compileDir := id
  runDir := id
  endDir := id

namespace RegistryClass

variable (script : Source → Script)

/-- `run`, for the answer of `default_handler` -/
def runAnswered (c : RegistryClass) (visit : Visit) (v : View) : Answer × View :=
  (withStatus visit.req (runScript c.aliases visit v).1, (runScript c.aliases visit v).2)

/-- `default_handler`, of an object of the class -/
def handler (c : RegistryClass) (visit : Visit) (src : Source) (v : View) : Answer × View :=
  let x := Registry.handler script c.aliases c.chdirFile anywhere visit src ⟨v, ()⟩
  (x.1, x.2.view)

/-- `default_handler`, of a `ModPerl::RegistryLoader` for the class -/
def preload (c : RegistryClass) (regular readable : Bool) (src : Source) (v : View) :
    Answer × View :=
  let x := Registry.preload script c.aliases c.chdirFile anywhere (loaderVisit regular readable)
    src ⟨v, ()⟩
  (x.1, x.2.view)

end RegistryClass

/-! ## What is found of a script -/

/-- A version that was found by what could compile it, under the magic of `PL_endav` or not. -/
structure Found where
  mtime : Mtime
  magic : Bool
  deriving DecidableEq

/-- The version compiled last, and those found since that do not compile. -/
abbrev Held := Found × List Found

namespace RegistryClass

/-- What was compiled from the one version does not do for the other. -/
def outdated : RegistryClass → Mtime → Mtime → Bool
  | registry, m, m' | registryPrefork, m, m' => m ≠ m'
  | registryBB, _, _ => false
  | perlRun, _, _ | perlRunPrefork, _, _ => true

/-- What is still good for this version of the file. -/
def current (c : RegistryClass) (held : Option Held) (m : Mtime) : Option Held :=
  held.filter fun k => !c.outdated k.1.mtime m

end RegistryClass

/-- Nothing but the code of the script can keep it from being compiled. -/
def admitted (r : ScriptReq) : Except ℤ Unit := do
  canCompile r
  readScript r

section

variable (script : Source → Script)

def sinceStep (c : RegistryClass) (filename : Bytes) (held : Option Held) (f : Found) :
    Option Held :=
  match c.current held f.mtime with
  | some k => some k
  | none =>
      if (script ⟨filename, f.mtime⟩).compiles then if c.caches then some (f, []) else none
      else held.map fun k => (k.1, k.2 ++ [f])

/-- What the versions found have left, one after the other. -/
def held (c : RegistryClass) (filename : Bytes) (found : List Found) : Option Held :=
  found.foldl (sinceStep script c filename) none

/-- What a request runs, or the code that it is answered with. -/
def serving (c : RegistryClass) (filename : Bytes) (held : Option Held) (m : Mtime)
    (visit : Visit) : Except ℤ Held :=
  match c.current held m with
  | some k => .ok k
  | none =>
      match admitted visit.req with
      | .error rc => .error rc
      | .ok () =>
          if (script ⟨filename, m⟩).compiles then .ok (⟨m, visit.magic⟩, [])
          else .error rcServerError

/-- The sub is that of the last version that came to its end. -/
def subOf (filename : Bytes) (k : Held) : Source :=
  ⟨filename, ((k.2.filter fun f => (script ⟨filename, f.mtime⟩).definesHandler).getLast?.getD
    k.1).mtime⟩

/-- The `END` blocks are those of the last version. -/
def endsOf (filename : Bytes) (k : Held) : List EndBlock :=
  let f := k.2.getLast?.getD k.1
  if f.magic then blocks script ⟨filename, f.mtime⟩ else []

/-- The answer, by what was held of the script. -/
def answer (c : RegistryClass) (filename : Bytes) (held : Option Held) (m : Mtime)
    (visit : Visit) : Answer :=
  match serving script c filename held m visit with
  | .error rc => .returned rc
  | .ok k =>
      let (ends, aborted) := callList visit.req.endDies (endsOf script filename k)
      let rc := if visit.req.dies then rcServerError else rcOk
      withStatus visit.req
        (.ran (some (subOf script filename k)) ends (if aborted then none else some rc))

/-- What the request requires while it compiles the script. -/
def compileUses (c : RegistryClass) (filename : Bytes) (held : Option Held) (m : Mtime)
    (r : ScriptReq) : List Bytes :=
  if (c.current held m).isNone && (admitted r).isOk then (script ⟨filename, m⟩).uses else []

/-- What the script that is run requires. -/
def runUses (c : RegistryClass) (filename : Bytes) (held : Option Held) (m : Mtime)
    (visit : Visit) : List Bytes :=
  if (serving script c filename held m visit).isOk then visit.required else []

/-- What stays in `%INC` of what the script requires. -/
def runKeeps (c : RegistryClass) (filename : Bytes) (held : Option Held) (m : Mtime)
    (visit : Visit) : List Bytes :=
  match answer script c filename held m visit with
  | .returned _ | .died => []
  | .ran _ _ none => visit.required
  | .ran _ _ (some _) =>
      if c.aliases.shouldResetIncHash then visit.required.filter isPm else visit.required

end

/-! ## Requiring files -/

variable {script : Source → Script} {c : RegistryClass} {filename : Bytes} {visit : Visit}
  {v : View} {p : Package} {k : Held} {known : Option Held} {m : Mtime} {magic : Bool}

theorem mem_loads {inc names : List Bytes} {l : Bytes} :
    l ∈ loads inc names ↔ l ∈ names ∧ l ∉ inc := by
  induction names generalizing inc with
  | nil => simp [loads]
  | cons name names ih =>
      rw [loads]
      split_ifs with hname
      · rw [List.contains_iff_mem] at hname
        rw [ih, List.mem_cons]
        refine ⟨fun h => ⟨.inr h.1, h.2⟩, ?_⟩
        rintro ⟨rfl | h, hl⟩
        · exact absurd hname hl
        · exact ⟨h, hl⟩
      · rw [List.contains_iff_mem] at hname
        rw [List.mem_cons, ih, List.mem_cons, List.mem_cons]
        by_cases heq : l = name
        · subst heq
          simp [hname]
        · simp [heq]

theorem mem_append_loads {inc names : List Bytes} {l : Bytes} :
    l ∈ inc ++ loads inc names ↔ l ∈ inc ∨ l ∈ names := by
  rw [List.mem_append, mem_loads]
  tauto

/-- Which files are executed depends on which names are in `%INC` only. -/
theorem loads_congr {inc inc' : List Bytes} (h : ∀ l, l ∈ inc ↔ l ∈ inc') (names : List Bytes) :
    loads inc names = loads inc' names := by
  induction names generalizing inc inc' with
  | nil => rfl
  | cons name names ih =>
      have hname : inc.contains name = inc'.contains name := by
        rw [Bool.eq_iff_iff, List.contains_iff_mem, List.contains_iff_mem]
        exact h name
      have hnext : ∀ l, l ∈ name :: inc ↔ l ∈ name :: inc' := fun l => by
        rw [List.mem_cons, List.mem_cons, h]
      rw [loads, loads, hname, ih h, ih hnext]

theorem loads_append {inc names names' : List Bytes} : loads inc (names ++ names') =
    loads inc names ++ loads (inc ++ loads inc names) names' := by
  induction names generalizing inc with
  | nil => simp [loads]
  | cons name names ih =>
      rw [List.cons_append, loads, loads]
      split_ifs with hname
      · exact ih
      · rw [ih, List.cons_append]
        congr 2
        refine loads_congr (fun l => ?_) names'
        simp only [List.mem_append, List.mem_cons]
        tauto

/-! ## One script in one interpreter -/

theorem blocks_eq_nil_iff {src : Source} :
    blocks script src = [] ↔ (script src).endBlocks = 0 := by
  rw [blocks, List.map_eq_nil_iff, List.range_eq_nil]

/-- The package has the sub and the `END` blocks that are held. -/
def Ready (script : Source → Script) (filename : Bytes) (k : Held) (p : Package) : Prop :=
  p.handler = some (subOf script filename k) ∧ p.endList = some (endsOf script filename k)

/-- The package has what is held, for a class that remembers it. -/
structure Holds (script : Source → Script) (c : RegistryClass) (filename : Bytes)
    (known : Option Held) (p : Package) : Prop where
  caches : known.isSome = true → c.caches = true
  cachedMtime : p.cachedMtime = known.map fun k => k.1.mtime
  ready : ∀ k ∈ known, Ready script filename k p

/-- What is remembered is looked at for what is still good. -/
theorem shouldCompile_eq (h : p.cachedMtime = known.map fun k => k.1.mtime) :
    c.aliases.shouldCompile p m = (c.current known m).isNone := by
  cases known with
  | none =>
      cases c <;> simp [RegistryClass.aliases, shouldCompileIfModified, shouldCompileOnce, isCached,
        RegistryClass.current, h]
  | some k =>
      by_cases hm : k.1.mtime = m <;> cases c <;>
        simp [RegistryClass.aliases, shouldCompileIfModified, shouldCompileOnce, isCached,
          RegistryClass.current, RegistryClass.outdated, h, hm, Option.filter]

theorem aliases_cacheIt : c.aliases.cacheIt m v = if c.caches then cacheIt m v else v := by
  cases c <;> rfl

@[simp] theorem chdirFile_anywhere {call : ChdirCall} {dir : Option Unit} {cwd : Unit} :
    c.chdirFile anywhere call dir cwd = some () := by
  cases c <;> rfl

/-- A compilation replaces the list, with or without an error; the time stays. -/
theorem compile_eq : compile script magic ⟨filename, m⟩ v =
    (if (script ⟨filename, m⟩).compiles then .ok () else .error rcServerError,
      { package :=
          { cachedMtime := v.package.cachedMtime
            handler :=
              if (script ⟨filename, m⟩).definesHandler then some ⟨filename, m⟩
              else v.package.handler
            endList := some (endsOf script filename (⟨m, magic⟩, [])) }
        inc := v.inc ++ loads v.inc (script ⟨filename, m⟩).uses
        loaded := v.loaded ++ loads v.inc (script ⟨filename, m⟩).uses }) := by
  have hclear : avcvClear (avcvRegister v.package.endList) = some [] := rfl
  simp only [compile, evalCode, View.requireAll, hclear, foldl_avcvSet, List.nil_append, endsOf,
    List.getLast?_nil, Option.getD_none]
  cases magic <;> rfl

variable (v magic) in
theorem ready_compiled (hcompiles : (script ⟨filename, m⟩).compiles = true) :
    Ready script filename (⟨m, magic⟩, []) (compile script magic ⟨filename, m⟩ v).2.package := by
  have hdefines := (script ⟨filename, m⟩).defines_of_compiles hcompiles
  rw [compile_eq]
  exact ⟨if_pos hdefines, rfl⟩

/-- A version that fails takes the list, and the sub if it comes to its end. -/
theorem ready_failed (h : Ready script filename k v.package) :
    Ready script filename (k.1, k.2 ++ [⟨m, magic⟩])
      (compile script magic ⟨filename, m⟩ v).2.package := by
  rw [compile_eq]
  constructor
  · rw [subOf, List.filter_append]
    cases hdefines : (script ⟨filename, m⟩).definesHandler with
    | true => simp [hdefines]
    | false => simpa [hdefines, subOf] using h.1
  · rw [endsOf, endsOf, List.getLast?_concat]
    rfl

/-- What the sub itself leaves. -/
def View.executed (visit : Visit) (v : View) : View :=
  if visit.uncaches then uncacheMyself (v.requireAll visit.required)
  else v.requireAll visit.required

@[simp] theorem executed_inc :
    (v.executed visit).inc = v.inc ++ loads v.inc visit.required := by
  rw [View.executed]
  split_ifs <;> rfl

@[simp] theorem executed_loaded :
    (v.executed visit).loaded = v.loaded ++ loads v.inc visit.required := by
  rw [View.executed]
  split_ifs <;> rfl

@[simp] theorem executed_cachedMtime : (v.executed visit).package.cachedMtime =
    if visit.uncaches then none else v.package.cachedMtime := by
  rw [View.executed]
  split_ifs <;> rfl

variable (visit) in
theorem Ready.executed (h : Ready script filename k v.package) :
    Ready script filename k (v.executed visit).package := by
  rw [View.executed]
  split_ifs <;> exact h

@[simp] theorem flushNamespace_inc : (c.aliases.flushNamespace v).inc = v.inc := by
  cases c <;> rfl

@[simp] theorem flushNamespace_loaded : (c.aliases.flushNamespace v).loaded = v.loaded := by
  cases c <;> rfl

@[simp] theorem flushNamespace_cachedMtime :
    (c.aliases.flushNamespace v).package.cachedMtime = v.package.cachedMtime := by
  cases c <;> rfl

/-- What `run` takes back, if no `END` block dies. -/
def RegistryClass.takeBack (c : RegistryClass) (orig : List Bytes) (v : View) : View :=
  c.aliases.flushNamespace (if c.aliases.shouldResetIncHash then v.resetInc orig else v)

theorem takeBack_loaded {orig : List Bytes} : (c.takeBack orig v).loaded = v.loaded := by
  rw [RegistryClass.takeBack, flushNamespace_loaded]
  split_ifs <;> rfl

theorem takeBack_cachedMtime {orig : List Bytes} :
    (c.takeBack orig v).package.cachedMtime = v.package.cachedMtime := by
  rw [RegistryClass.takeBack, flushNamespace_cachedMtime]
  split_ifs <;> rfl

theorem takeBack_of_caches {orig : List Bytes} (h : c.caches = true) : c.takeBack orig v = v := by
  cases c with
  | registry | registryPrefork | registryBB => rfl
  | perlRun | perlRunPrefork => cases h

theorem mem_takeBack_executed {l : Bytes} : l ∈ (c.takeBack v.inc (v.executed visit)).inc ↔
    l ∈ v.inc ∨
      l ∈ if c.aliases.shouldResetIncHash then visit.required.filter isPm else visit.required := by
  rw [RegistryClass.takeBack, flushNamespace_inc]
  split_ifs
  · simp only [View.resetInc, executed_inc, List.mem_filter, mem_append_loads, Bool.or_eq_true,
      List.contains_iff_mem]
    tauto
  · rw [executed_inc, mem_append_loads]

/-- The sub runs, and what it leaves is taken back, unless an `END` block dies. -/
theorem run_eq (h : Ready script filename k v.package) : runScript c.aliases visit v =
    (.ran (some (subOf script filename k)) (callList visit.req.endDies (endsOf script filename k)).1
        (if (callList visit.req.endDies (endsOf script filename k)).2 then none
          else some (if visit.req.dies then rcServerError else rcOk)),
      if (callList visit.req.endDies (endsOf script filename k)).2 then v.executed visit
      else c.takeBack v.inc (v.executed visit)) := by
  have hexecuted := h.executed visit
  obtain ⟨hsub, -⟩ := h
  have hview : (if visit.uncaches = true then uncacheMyself (v.requireAll visit.required)
      else v.requireAll visit.required) = v.executed visit := rfl
  simp only [runScript, hsub, Option.isSome_some, Option.isNone_some, Bool.true_and,
    Bool.false_or, if_true, hview, hexecuted.2]
  cases hcall : callList visit.req.endDies (endsOf script filename k) with
  | mk ends aborted =>
      have hcalled : avcvCall visit.req.endDies (some (endsOf script filename k)) =
          (ends, aborted) := hcall
      rw [hcalled]
      cases aborted <;> rfl

theorem run_loaded (h : Ready script filename k v.package) :
    (runScript c.aliases visit v).2.loaded = v.loaded ++ loads v.inc visit.required := by
  rw [run_eq h, ← executed_loaded]
  dsimp only
  split_ifs
  · rfl
  · exact takeBack_loaded

theorem run_cachedMtime (h : Ready script filename k v.package) :
    (runScript c.aliases visit v).2.package.cachedMtime =
      if visit.uncaches then none else v.package.cachedMtime := by
  rw [run_eq h, ← executed_cachedMtime]
  dsimp only
  split_ifs
  · rfl
  · exact takeBack_cachedMtime

theorem Ready.run (h : Ready script filename k v.package) (hcaches : c.caches = true) :
    Ready script filename k (runScript c.aliases visit v).2.package := by
  rw [run_eq h, takeBack_of_caches hcaches]
  dsimp only
  rw [ite_self]
  exact h.executed visit

theorem mem_run_inc (h : Ready script filename k v.package) {l : Bytes} :
    l ∈ (runScript c.aliases visit v).2.inc ↔ l ∈ v.inc ∨
      l ∈ if (callList visit.req.endDies (endsOf script filename k)).2 then visit.required
        else if c.aliases.shouldResetIncHash then visit.required.filter isPm else visit.required := by
  rw [run_eq h]
  dsimp only
  split
  · rw [executed_inc, mem_append_loads]
  · exact mem_takeBack_executed

/-! ## One request -/

theorem mem_of_current (h : c.current known m = some k) : known = some k := by
  rw [RegistryClass.current, Option.filter_eq_some_iff] at h
  exact h.1

theorem admitted_of_refused {r : ScriptReq} {rc : ℤ} (h : canCompile r = .error rc) :
    admitted r = .error rc := by
  rw [admitted, h]
  rfl

theorem admitted_of_can {r : ScriptReq} (h : canCompile r = .ok ()) :
    admitted r = readScript r := by
  rw [admitted, h]
  rfl

theorem answered_anywhere :
    ((answered (run c.aliases c.chdirFile anywhere visit) visit ⟨v, ()⟩).1,
      (answered (run c.aliases c.chdirFile anywhere visit) visit ⟨v, ()⟩).2.view) =
      c.runAnswered visit v := by
  rw [answered, run, chdirFile_anywhere, RegistryClass.runAnswered]
  cases runScript c.aliases visit v with
  | mk answer v' =>
      cases answer with
      | returned rc => rfl
      | died => rfl
      | ran sub ends rc =>
          cases rc with
          | none => rfl
          | some rc => simp only [chdirFile_anywhere]

/-- Nothing is compiled before the tests of `can_compile` and the slurp. -/
theorem handler_eq {src : Source} : c.handler script visit src v =
    if c.aliases.shouldCompile v.package src.mtime then
      match admitted visit.req with
      | .error rc => (.returned rc, v)
      | .ok () =>
          if (script src).compiles then
            c.runAnswered visit
              (c.aliases.cacheIt src.mtime (compile script visit.magic src v).2)
          else (.returned rcServerError, (compile script visit.magic src v).2)
    else c.runAnswered visit v := by
  rw [RegistryClass.handler, Registry.handler, defaultHandler]
  cases hshould : c.aliases.shouldCompile v.package src.mtime with
  | false => exact answered_anywhere
  | true =>
      cases hcan : canCompile visit.req with
      | error rc =>
          rw [admitted_of_refused hcan]
          rfl
      | ok =>
          rw [admitted_of_can hcan, convertScript]
          cases hread : readScript visit.req with
          | error rc => rfl
          | ok =>
              simp only [chdirFile_anywhere, compile, if_true]
              cases (script src).compiles with
              | false => rfl
              | true => exact answered_anywhere

variable (visit m) in
/-- What a request can do. -/
theorem handler_cases (h : Holds script c filename known v.package) :
    (∃ k, c.current known m = some k ∧
      c.handler script visit ⟨filename, m⟩ v = c.runAnswered visit v) ∨
    (∃ rc, c.current known m = none ∧ admitted visit.req = .error rc ∧
      c.handler script visit ⟨filename, m⟩ v = (.returned rc, v)) ∨
    (c.current known m = none ∧ admitted visit.req = .ok () ∧
      (script ⟨filename, m⟩).compiles = false ∧
      c.handler script visit ⟨filename, m⟩ v =
        (.returned rcServerError, (compile script visit.magic ⟨filename, m⟩ v).2)) ∨
    (c.current known m = none ∧ admitted visit.req = .ok () ∧
      (script ⟨filename, m⟩).compiles = true ∧
      c.handler script visit ⟨filename, m⟩ v = c.runAnswered visit
        (c.aliases.cacheIt m (compile script visit.magic ⟨filename, m⟩ v).2)) := by
  rw [handler_eq, shouldCompile_eq h.cachedMtime]
  cases hcurrent : c.current known m with
  | some k => exact .inl ⟨k, rfl, if_neg Bool.false_ne_true⟩
  | none =>
      rw [Option.isNone_none, if_pos rfl]
      cases hadmitted : admitted visit.req with
      | error rc => exact .inr (.inl ⟨rc, rfl, rfl, rfl⟩)
      | ok =>
          cases hcompiles : (script ⟨filename, m⟩).compiles with
          | false => exact .inr (.inr (.inl ⟨rfl, rfl, rfl, if_neg Bool.false_ne_true⟩))
          | true => exact .inr (.inr (.inr ⟨rfl, rfl, rfl, if_pos rfl⟩))

/-! ## What is run, and what is required, in each of these cases -/

section

variable {r : ScriptReq} {rc : ℤ}

theorem serving_of_current (hcurrent : c.current known m = some k) :
    serving script c filename known m visit = .ok k := by
  rw [serving, hcurrent]

theorem serving_of_refused (hcurrent : c.current known m = none)
    (hadmitted : admitted visit.req = .error rc) :
    serving script c filename known m visit = .error rc := by
  rw [serving, hcurrent, hadmitted]

theorem serving_of_admitted (hcurrent : c.current known m = none)
    (hadmitted : admitted visit.req = .ok ()) : serving script c filename known m visit =
      if (script ⟨filename, m⟩).compiles then .ok (⟨m, visit.magic⟩, [])
      else .error rcServerError := by
  rw [serving, hcurrent, hadmitted]

theorem serving_of_failed (hcurrent : c.current known m = none)
    (hadmitted : admitted visit.req = .ok ())
    (hcompiles : (script ⟨filename, m⟩).compiles = false) :
    serving script c filename known m visit = .error rcServerError := by
  rw [serving_of_admitted hcurrent hadmitted, hcompiles, if_neg Bool.false_ne_true]

theorem serving_of_compiled (hcurrent : c.current known m = none)
    (hadmitted : admitted visit.req = .ok ())
    (hcompiles : (script ⟨filename, m⟩).compiles = true) :
    serving script c filename known m visit = .ok (⟨m, visit.magic⟩, []) := by
  rw [serving_of_admitted hcurrent hadmitted, hcompiles, if_pos rfl]

theorem compileUses_of_current (hcurrent : c.current known m = some k) :
    compileUses script c filename known m r = [] := by
  rw [compileUses, hcurrent]
  rfl

theorem compileUses_of_refused (hadmitted : admitted r = .error rc) :
    compileUses script c filename known m r = [] := by
  simp [compileUses, hadmitted, Except.isOk, Except.toBool]

theorem compileUses_of_admitted (hcurrent : c.current known m = none)
    (hadmitted : admitted r = .ok ()) :
    compileUses script c filename known m r = (script ⟨filename, m⟩).uses := by
  rw [compileUses, hcurrent, hadmitted]
  rfl

theorem runUses_of_error (h : serving script c filename known m visit = .error rc) :
    runUses script c filename known m visit = [] := by
  rw [runUses, h]
  rfl

theorem runUses_of_ok (h : serving script c filename known m visit = .ok k) :
    runUses script c filename known m visit = visit.required := by
  rw [runUses, h]
  rfl

theorem runKeeps_of_error (h : serving script c filename known m visit = .error rc) :
    runKeeps script c filename known m visit = [] := by
  rw [runKeeps, answer, h]

theorem runKeeps_of_ok (h : serving script c filename known m visit = .ok k) :
    runKeeps script c filename known m visit =
      if (callList visit.req.endDies (endsOf script filename k)).2 then visit.required
      else if c.aliases.shouldResetIncHash then visit.required.filter isPm else visit.required := by
  rw [runKeeps, answer, h]
  dsimp only
  cases (callList visit.req.endDies (endsOf script filename k)).2 <;> rfl

end

theorem cacheIt_inc : (c.aliases.cacheIt m v).inc = v.inc := by
  rw [aliases_cacheIt]
  split_ifs <;> rfl

theorem cacheIt_loaded : (c.aliases.cacheIt m v).loaded = v.loaded := by
  rw [aliases_cacheIt]
  split_ifs <;> rfl

variable (c m) in
theorem Ready.cacheIt (h : Ready script filename k v.package) :
    Ready script filename k (c.aliases.cacheIt m v).package := by
  rw [aliases_cacheIt]
  split_ifs <;> exact h

/-- The answer is the one that what is held gives. -/
theorem handler_answers (h : Holds script c filename known v.package) :
    (c.handler script visit ⟨filename, m⟩ v).1 = answer script c filename known m visit := by
  rcases handler_cases visit m h with
    ⟨k, hcurrent, hrun⟩ | ⟨rc, hcurrent, hadmitted, hrun⟩ |
    ⟨hcurrent, hadmitted, hcompiles, hrun⟩ | ⟨hcurrent, hadmitted, hcompiles, hrun⟩
  · have hready := h.ready k (mem_of_current hcurrent)
    rw [hrun, RegistryClass.runAnswered, run_eq hready, answer, serving_of_current hcurrent]
  · rw [hrun, answer, serving_of_refused hcurrent hadmitted]
  · rw [hrun, answer, serving_of_failed hcurrent hadmitted hcompiles]
  · have hready := (ready_compiled v visit.magic hcompiles).cacheIt c m
    rw [hrun, RegistryClass.runAnswered, run_eq hready, answer,
      serving_of_compiled hcurrent hadmitted hcompiles]

/-- What is required is loaded, first by the compilation and then by the sub. -/
theorem handler_loads (h : Holds script c filename known v.package) :
    (c.handler script visit ⟨filename, m⟩ v).2.loaded = v.loaded ++
      loads v.inc (compileUses script c filename known m visit.req ++
        runUses script c filename known m visit) := by
  rcases handler_cases visit m h with
    ⟨k, hcurrent, hrun⟩ | ⟨rc, hcurrent, hadmitted, hrun⟩ |
    ⟨hcurrent, hadmitted, hcompiles, hrun⟩ | ⟨hcurrent, hadmitted, hcompiles, hrun⟩
  · have hready := h.ready k (mem_of_current hcurrent)
    rw [hrun, RegistryClass.runAnswered, run_loaded hready, compileUses_of_current hcurrent,
      runUses_of_ok (serving_of_current hcurrent), List.nil_append]
  · rw [hrun, compileUses_of_refused hadmitted,
      runUses_of_error (serving_of_refused hcurrent hadmitted), List.append_nil, loads,
      List.append_nil]
  · rw [hrun, compile_eq, compileUses_of_admitted hcurrent hadmitted,
      runUses_of_error (serving_of_failed hcurrent hadmitted hcompiles), List.append_nil]
  · have hready := (ready_compiled v visit.magic hcompiles).cacheIt c m
    rw [hrun, RegistryClass.runAnswered, run_loaded hready, cacheIt_loaded, cacheIt_inc, compile_eq,
      compileUses_of_admitted hcurrent hadmitted,
      runUses_of_ok (serving_of_compiled hcurrent hadmitted hcompiles), loads_append,
      List.append_assoc]

/-- The names in `%INC` are those that the request has brought, less what is taken back. -/
theorem mem_handler_inc (h : Holds script c filename known v.package) {l : Bytes} :
    l ∈ (c.handler script visit ⟨filename, m⟩ v).2.inc ↔ l ∈ v.inc ++
      (compileUses script c filename known m visit.req ++
        runKeeps script c filename known m visit) := by
  rcases handler_cases visit m h with
    ⟨k, hcurrent, hrun⟩ | ⟨rc, hcurrent, hadmitted, hrun⟩ |
    ⟨hcurrent, hadmitted, hcompiles, hrun⟩ | ⟨hcurrent, hadmitted, hcompiles, hrun⟩
  · have hready := h.ready k (mem_of_current hcurrent)
    rw [hrun, RegistryClass.runAnswered, mem_run_inc hready, compileUses_of_current hcurrent,
      runKeeps_of_ok (serving_of_current hcurrent), List.nil_append, List.mem_append]
  · rw [hrun, compileUses_of_refused hadmitted,
      runKeeps_of_error (serving_of_refused hcurrent hadmitted), List.append_nil,
      List.append_nil]
  · rw [hrun, compile_eq, compileUses_of_admitted hcurrent hadmitted,
      runKeeps_of_error (serving_of_failed hcurrent hadmitted hcompiles), List.append_nil]
    exact mem_append_loads.trans List.mem_append.symm
  · have hready := (ready_compiled v visit.magic hcompiles).cacheIt c m
    rw [hrun, RegistryClass.runAnswered, mem_run_inc hready, cacheIt_inc, compile_eq, mem_append_loads,
      compileUses_of_admitted hcurrent hadmitted,
      runKeeps_of_ok (serving_of_compiled hcurrent hadmitted hcompiles), List.mem_append,
      List.mem_append, or_assoc]

/-- What is held after a request. -/
def heldAfter (script : Source → Script) (c : RegistryClass) (filename : Bytes)
    (known : Option Held) (m : Mtime) (visit : Visit) : Option Held :=
  if visit.uncaches && (serving script c filename known m visit).isOk then none
  else if (admitted visit.req).isOk then
    sinceStep script c filename known ⟨m, visit.magic⟩
  else known

/-- A run leaves what is held, unless the script uncaches itself. -/
theorem holds_run (hcaches : known.isSome = true → c.caches = true)
    (hcached : v.package.cachedMtime = known.map fun k => k.1.mtime)
    (hready : Ready script filename k v.package) (hknown : ∀ k' ∈ known, k' = k) :
    Holds script c filename (if visit.uncaches then none else known)
      (runScript c.aliases visit v).2.package := by
  cases huncaches : visit.uncaches with
  | true =>
      refine ⟨fun h => absurd h Bool.false_ne_true, ?_, fun k hk => by simp at hk⟩
      rw [run_cachedMtime hready, huncaches]
      rfl
  | false =>
      rw [if_neg Bool.false_ne_true]
      refine ⟨hcaches, ?_, fun k' hk' => ?_⟩
      · rw [run_cachedMtime hready, huncaches]
        exact hcached
      · rw [hknown k' hk']
        exact hready.run (hcaches (by rw [hk']; rfl))

/-- A version that fails is found after the one that is held. -/
theorem Holds.failed (h : Holds script c filename known v.package) :
    Holds script c filename (known.map fun k => (k.1, k.2 ++ [⟨m, magic⟩]))
      (compile script magic ⟨filename, m⟩ v).2.package := by
  refine ⟨fun hsome => h.caches (by simpa using hsome), ?_, fun k' hk' => ?_⟩
  · rw [compile_eq, Option.map_map]
    exact h.cachedMtime
  · obtain ⟨k, hk, rfl⟩ := Option.map_eq_some_iff.mp hk'
    exact ready_failed (h.ready k hk)

variable (magic) in
/-- A version that compiles is held, if the class remembers it. -/
theorem Holds.compiled (h : Holds script c filename known v.package)
    (hcompiles : (script ⟨filename, m⟩).compiles = true) :
    Holds script c filename (if c.caches then some (⟨m, magic⟩, []) else none)
      (c.aliases.cacheIt m (compile script magic ⟨filename, m⟩ v).2).package := by
  have hready := ready_compiled v magic hcompiles
  cases hcaches : c.caches with
  | true =>
      refine ⟨fun _ => hcaches, ?_, fun k' hk' => ?_⟩
      · rw [aliases_cacheIt, hcaches]
        rfl
      · cases hk'
        exact hready.cacheIt c m
  | false =>
      have hknown : known = none := by
        rw [← Option.not_isSome_iff_eq_none]
        exact fun hsome => Bool.false_ne_true (hcaches.symm.trans (h.caches hsome))
      refine ⟨fun hsome => absurd hsome Bool.false_ne_true, ?_, fun k' hk' => by simp at hk'⟩
      rw [aliases_cacheIt, hcaches, compile_eq]
      exact h.cachedMtime.trans (by rw [hknown]; rfl)

variable (visit m) in
theorem handler_holds (h : Holds script c filename known v.package) :
    Holds script c filename (heldAfter script c filename known m visit)
      (c.handler script visit ⟨filename, m⟩ v).2.package := by
  rcases handler_cases visit m h with
    ⟨k, hcurrent, hrun⟩ | ⟨rc, hcurrent, hadmitted, hrun⟩ |
    ⟨hcurrent, hadmitted, hcompiles, hrun⟩ | ⟨hcurrent, hadmitted, hcompiles, hrun⟩
  · have hknown := mem_of_current hcurrent
    have hserving : serving script c filename known m visit = .ok k := serving_of_current hcurrent
    have hstep : sinceStep script c filename known ⟨m, visit.magic⟩ = known := by
      rw [sinceStep, hcurrent, hknown]
    have hafter : heldAfter script c filename known m visit =
        if visit.uncaches then none else known := by
      rw [heldAfter, hserving, hstep, ite_self, Except.isOk, Except.toBool, Bool.and_true]
    rw [hrun, hafter, RegistryClass.runAnswered]
    refine holds_run h.caches h.cachedMtime (h.ready k hknown) fun k' hk' => ?_
    exact Option.some.inj (hk'.symm.trans hknown)
  · have hafter : heldAfter script c filename known m visit = known := by
      simp [heldAfter, serving_of_refused hcurrent hadmitted, hadmitted, Except.isOk,
        Except.toBool]
    rw [hrun, hafter]
    exact h
  · have hafter : heldAfter script c filename known m visit =
        known.map fun k => (k.1, k.2 ++ [⟨m, visit.magic⟩]) := by
      simp [heldAfter, serving_of_failed hcurrent hadmitted hcompiles, sinceStep, hcurrent,
        hadmitted, hcompiles, Except.isOk, Except.toBool]
    rw [hrun, hafter]
    exact h.failed
  · have hready := ready_compiled v visit.magic hcompiles
    have hcompiled := h.compiled visit.magic hcompiles
    have hafter : heldAfter script c filename known m visit =
        if visit.uncaches then none
        else if c.caches then some (⟨m, visit.magic⟩, []) else none := by
      simp [heldAfter, serving_of_compiled hcurrent hadmitted hcompiles, sinceStep, hcurrent,
        hadmitted, hcompiles, Except.isOk, Except.toBool]
    rw [hrun, hafter, RegistryClass.runAnswered]
    refine holds_run hcompiled.caches hcompiled.cachedMtime (hready.cacheIt c m) fun k' hk' => ?_
    rw [Option.mem_def, Option.ite_none_right_eq_some] at hk'
    exact (Option.some.inj hk'.2).symm

/-! ## Preloading -/

/-- The loader dies of what the others log. -/
theorem preload_eq {src : Source} {regular readable : Bool} :
    c.preload script regular readable src v =
      if c.aliases.shouldCompile v.package src.mtime then
        if !regular then (.returned rcDeclined, v)
        else if !readable then (.died, v)
        else if (script src).compiles then
          (.returned rcOk, c.aliases.cacheIt src.mtime (compile script false src v).2)
        else (.died, (compile script false src v).2)
      else (.returned rcOk, v) := by
  rw [RegistryClass.preload, Registry.preload, defaultHandler]
  cases hshould : c.aliases.shouldCompile v.package src.mtime with
  | false => rfl
  | true =>
      cases regular with
      | false => rfl
      | true =>
          cases readable with
          | false => rfl
          | true =>
              simp only [convertScript, canCompile, readScript, loaderVisit, chdirFile_anywhere,
                compile, if_true]
              cases (script src).compiles <;> rfl

variable (m) in
/-- What a preload can do. -/
theorem preload_cases (regular readable : Bool) (h : Holds script c filename known v.package) :
    (∃ answer, ((regular && readable) = false ∨ ∃ k, c.current known m = some k) ∧
      c.preload script regular readable ⟨filename, m⟩ v = (answer, v)) ∨
    (regular = true ∧ readable = true ∧ c.current known m = none ∧
      (script ⟨filename, m⟩).compiles = false ∧
      c.preload script regular readable ⟨filename, m⟩ v =
        (.died, (compile script false ⟨filename, m⟩ v).2)) ∨
    (regular = true ∧ readable = true ∧ c.current known m = none ∧
      (script ⟨filename, m⟩).compiles = true ∧
      c.preload script regular readable ⟨filename, m⟩ v =
        (.returned rcOk, c.aliases.cacheIt m (compile script false ⟨filename, m⟩ v).2)) := by
  rw [preload_eq, shouldCompile_eq h.cachedMtime]
  cases hcurrent : c.current known m with
  | some k => exact .inl ⟨_, .inr ⟨k, rfl⟩, if_neg Bool.false_ne_true⟩
  | none =>
      rw [Option.isNone_none, if_pos rfl]
      cases regular with
      | false => exact .inl ⟨_, .inl rfl, rfl⟩
      | true =>
          cases readable with
          | false => exact .inl ⟨_, .inl rfl, rfl⟩
          | true =>
              cases hcompiles : (script ⟨filename, m⟩).compiles with
              | false => exact .inr (.inl ⟨rfl, rfl, rfl, rfl, rfl⟩)
              | true => exact .inr (.inr ⟨rfl, rfl, rfl, rfl, rfl⟩)

variable (m) in
/-- What is held after a script was preloaded, if it could be read. -/
theorem preload_holds (regular readable : Bool) (h : Holds script c filename known v.package) :
    Holds script c filename
      (if regular && readable then sinceStep script c filename known ⟨m, false⟩ else known)
      (c.preload script regular readable ⟨filename, m⟩ v).2.package := by
  rcases preload_cases m regular readable h with
    ⟨rc, hsame, hload⟩ | ⟨rfl, rfl, hcurrent, hcompiles, hload⟩ |
    ⟨rfl, rfl, hcurrent, hcompiles, hload⟩
  · have hafter : (if regular && readable then
        sinceStep script c filename known ⟨m, false⟩ else known) = known := by
      rcases hsame with hsame | ⟨k, hcurrent⟩
      · rw [hsame, if_neg Bool.false_ne_true]
      · rw [sinceStep, hcurrent, mem_of_current hcurrent, ite_self]
    rw [hload, hafter]
    exact h
  · rw [hload, sinceStep, hcurrent, hcompiles]
    exact h.failed
  · rw [hload, sinceStep, hcurrent, hcompiles]
    exact h.compiled false hcompiles

theorem mem_preload_inc {regular readable : Bool} {l : Bytes}
    (h : Holds script c filename known v.package) :
    l ∈ (c.preload script regular readable ⟨filename, m⟩ v).2.inc ↔ l ∈ v.inc ++
      if (regular && readable) && (c.current known m).isNone then (script ⟨filename, m⟩).uses
      else [] := by
  rcases preload_cases m regular readable h with
    ⟨rc, hsame, hload⟩ | ⟨rfl, rfl, hcurrent, hcompiles, hload⟩ |
    ⟨rfl, rfl, hcurrent, hcompiles, hload⟩
  · have hnone : ((regular && readable) && (c.current known m).isNone) = false := by
      rcases hsame with hsame | ⟨k, hcurrent⟩
      · rw [hsame, Bool.false_and]
      · rw [hcurrent, Option.isNone_some, Bool.and_false]
    rw [hload, hnone, if_neg Bool.false_ne_true, List.append_nil]
  · rw [hload, hcurrent, compile_eq]
    exact mem_append_loads.trans List.mem_append.symm
  · rw [hload, hcurrent, cacheIt_inc, compile_eq]
    exact mem_append_loads.trans List.mem_append.symm

end Registry

end ModPerl
