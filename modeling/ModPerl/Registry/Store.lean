import ModPerl.Registry.Held
import Mathlib.Logic.Function.Basic

/-!
# The scripts that an interpreter keeps

The handlers of the Registry keep their scripts in the interpreter: a package for each
script and class, the times in `$ModPerl::RegistryCache`, and `%INC`.  The classes share the
code of `ModPerl::RegistryCooker` and differ in when they compile, whether they remember the
time, and what they take back after a run.  `ModPerl::RegistryLoader` compiles scripts at
startup, into the package in which the class will look for them.  Interpreters are cloned
with everything that they keep.

What a request gets then depends on all that went through its interpreter, and through those
that this one was cloned from.  `Observed` writes down what was found there of each script,
and of `%INC`; it has no packages, and no code.  The answer can be read off it.

The directory that a script runs in is not part of this.
-/

namespace ModPerl

namespace Registry

namespace Store

/-! ## The interpreters of a server -/

structure Interp where
  package : Bytes → Package
  inc : List Bytes

/-- The files, and the interpreters by number. -/
structure Server where
  mtime : Bytes → Mtime
  interp : ℕ → Interp

/-- `make_namespace`, of the class and the file -/
def packageName (c : RegistryClass) (filename : Bytes) : Bytes :=
  makeNamespace c.name (namespaceFromFilename filename)

def Interp.view (p : Interp) (name : Bytes) : View := ⟨p.package name, p.inc, []⟩

def Interp.put (p : Interp) (name : Bytes) (v : View) : Interp where
  package := Function.update p.package name v.package
  inc := v.inc

def Server.put (s : Server) (i : ℕ) (name : Bytes) (v : View) : Server :=
  { s with interp := Function.update s.interp i ((s.interp i).put name v) }

/-- What happens to a server. -/
inductive Action
  /-- The file is replaced, or put back. -/
  | edit (filename : Bytes) (m : Mtime)
  /-- `ModPerl::RegistryLoader->handler` compiles a script for the class. -/
  | preload (i : ℕ) (c : RegistryClass) (filename : Bytes) (regular readable : Bool)
  /-- Interpreter `j` is made from `i`. -/
  | clone (i j : ℕ)
  | request (i : ℕ) (c : RegistryClass) (filename : Bytes) (visit : Visit)

section

variable (script : Source → Script)

/-- What the script finds in its interpreter. -/
def Server.viewOf (s : Server) (i : ℕ) (c : RegistryClass) (filename : Bytes) : View :=
  (s.interp i).view (packageName c filename)

/-- The answer to a request, and what it leaves. -/
def Server.handle (s : Server) (i : ℕ) (c : RegistryClass) (filename : Bytes) (visit : Visit) :
    Answer × View :=
  c.handler script visit ⟨filename, s.mtime filename⟩ (s.viewOf i c filename)

def Server.step (s : Server) : Action → Server
  | .edit filename m => { s with mtime := Function.update s.mtime filename m }
  | .preload i c filename regular readable =>
      s.put i (packageName c filename)
        (c.preload script regular readable ⟨filename, s.mtime filename⟩
          (s.viewOf i c filename)).2
  | .clone i j => { s with interp := Function.update s.interp j (s.interp i) }
  | .request i c filename visit =>
      s.put i (packageName c filename) (s.handle script i c filename visit).2

end

/-- No script has been compiled, and `%INC` is what the startup has loaded. -/
def Server.start (mtime : Bytes → Mtime) (inc : List Bytes) : Server where
  mtime := mtime
  interp := fun _ => ⟨fun _ => ⟨none, none, none⟩, inc⟩

/-- The files, what was found of each script of a class since it was uncached, and the names
in `%INC`. -/
structure Observed where
  mtime : Bytes → Mtime
  found : ℕ → RegistryClass → Bytes → List Found
  inc : ℕ → List Bytes

namespace Observed

def start (mtime : Bytes → Mtime) (inc : List Bytes) : Observed where
  mtime := mtime
  found := fun _ _ _ => []
  inc := fun _ => inc

/-- Something was found of a script, and `%INC` has more names. -/
def put (o : Observed) (i : ℕ) (c : RegistryClass) (filename : Bytes) (found : List Found)
    (names : List Bytes) : Observed :=
  { o with
    found := Function.update o.found i (Function.update (o.found i) c
      (Function.update (o.found i c) filename found))
    inc := Function.update o.inc i (o.inc i ++ names) }

variable (script : Source → Script)

def heldOf (o : Observed) (i : ℕ) (c : RegistryClass) (filename : Bytes) : Option Held :=
  held script c filename (o.found i c filename)

def step (o : Observed) : Action → Observed
  | .edit filename m => { o with mtime := Function.update o.mtime filename m }
  | .preload i c filename regular readable =>
      if regular && readable then
        let m := o.mtime filename
        o.put i c filename (o.found i c filename ++ [⟨m, false⟩])
          (if (c.current (o.heldOf script i c filename) m).isNone then
            (script ⟨filename, m⟩).uses else [])
      else o
  | .clone i j =>
      { o with
        found := Function.update o.found j (o.found i)
        inc := Function.update o.inc j (o.inc i) }
  | .request i c filename visit =>
      let m := o.mtime filename
      let k := o.heldOf script i c filename
      let found := o.found i c filename ++
        if (admitted visit.req).isOk then [⟨m, visit.magic⟩] else []
      let uncached := visit.uncaches && (serving script c filename k m visit).isOk
      o.put i c filename (if uncached then [] else found)
        (compileUses script c filename k m visit.req ++ runKeeps script c filename k m visit)

/-- The answer to a request. -/
def answer (o : Observed) (i : ℕ) (c : RegistryClass) (filename : Bytes) (visit : Visit) :
    Answer :=
  Registry.answer script c filename (o.heldOf script i c filename) (o.mtime filename) visit

/-- The files that are executed by `require` in a request. -/
def loaded (o : Observed) (i : ℕ) (c : RegistryClass) (filename : Bytes) (visit : Visit) :
    List Bytes :=
  let k := o.heldOf script i c filename
  let m := o.mtime filename
  loads (o.inc i) (compileUses script c filename k m visit.req ++
    runUses script c filename k m visit)

end Observed

variable {script : Source → Script} {c : RegistryClass} {filename : Bytes} {visit : Visit}
  {v : View} {k : Held} {known : Option Held} {m : Mtime}

/-! ## All the scripts -/

variable {s : Server} {o : Observed} {i : ℕ} {files : List Bytes}

/-- The scripts of a server, whose packages are apart. -/
def Apart (files : List Bytes) : Prop :=
  ∀ f ∈ files, ∀ g ∈ files, packageName .registry f = packageName .registry g → f = g

/-- The action concerns scripts among these. -/
def Action.Among (files : List Bytes) : Action → Prop
  | .preload _ _ filename _ _ | .request _ _ filename _ => filename ∈ files
  | .edit .. | .clone .. => True

/-- The name of one class is not the beginning of another package. -/
theorem class_eq_of_begins {c c' : RegistryClass}
    (h : namespaceRoot c.name ++ ascii "::" <+: namespaceRoot c'.name ++ ascii "::") : c = c' := by
  revert h
  cases c <;> cases c' <;> decide

/-- Packages are told apart by the class and the file. -/
theorem packageName_inj {c c' : RegistryClass} {f g : Bytes} (hapart : Apart files)
    (hf : f ∈ files) (hg : g ∈ files) (h : packageName c f = packageName c' g) :
    c = c' ∧ f = g := by
  have hclass : c = c' := by
    have hleft := List.prefix_append (namespaceRoot c.name ++ ascii "::")
      (prefixDigit (Escape.escape identifierCode (namespaceFromFilename f)))
    have hright := List.prefix_append (namespaceRoot c'.name ++ ascii "::")
      (prefixDigit (Escape.escape identifierCode (namespaceFromFilename g)))
    rw [packageName, packageName, makeNamespace, makeNamespace] at h
    rw [h] at hleft
    rcases List.prefix_or_prefix_of_prefix hleft hright with hpre | hpre
    · exact class_eq_of_begins hpre
    · exact (class_eq_of_begins hpre).symm
  subst hclass
  refine ⟨rfl, hapart f hf g hg ?_⟩
  rw [packageName, packageName, makeNamespace_eq_iff] at h ⊢
  exact h

/-- Each package of each interpreter has what is held of its script, and `%INC` has the names
that were observed. -/
structure Mirrors (script : Source → Script) (files : List Bytes) (s : Server) (o : Observed) :
    Prop where
  mtime : s.mtime = o.mtime
  holds : ∀ i c, ∀ f ∈ files, Holds script c f (o.heldOf script i c f)
    ((s.interp i).package (packageName c f))
  inc : ∀ i l, l ∈ (s.interp i).inc ↔ l ∈ o.inc i

variable (script) in
theorem mirrors_start (mtime : Bytes → Mtime) (inc : List Bytes) :
    Mirrors script files (.start mtime inc) (.start mtime inc) where
  mtime := rfl
  holds := fun _ _ _ _ => ⟨fun h => absurd h Bool.false_ne_true, rfl, fun k hk => by cases hk⟩
  inc := fun _ _ => Iff.rfl

/-- What a script leaves is in its package, and in the `%INC` of its interpreter; the other
packages are not touched. -/
theorem Mirrors.put (h : Mirrors script files s o) (hapart : Apart files)
    (hfile : filename ∈ files) {found : List Found} {names : List Bytes}
    (hholds : Holds script c filename (held script c filename found) v.package)
    (hinc : ∀ l, l ∈ v.inc ↔ l ∈ o.inc i ++ names) :
    Mirrors script files (s.put i (packageName c filename) v) (o.put i c filename found names) := by
  refine ⟨h.mtime, fun j c' f hf => ?_, fun j l => ?_⟩
  · by_cases hj : j = i
    · subst hj
      by_cases hname : packageName c' f = packageName c filename
      · obtain ⟨rfl, rfl⟩ := packageName_inj hapart hf hfile hname
        simpa [Server.put, Interp.put, Observed.put, Observed.heldOf] using hholds
      · have hheld : (o.put j c filename found names).heldOf script j c' f =
            o.heldOf script j c' f := by
          by_cases hc : c' = c
          · subst hc
            have hf' : f ≠ filename := fun heq => hname (by rw [heq])
            simp [Observed.put, Observed.heldOf, hf']
          · simp [Observed.put, Observed.heldOf, hc]
        rw [hheld]
        simpa [Server.put, Interp.put, hname] using h.holds j c' f hf
    · simpa [Server.put, Observed.put, Observed.heldOf, hj] using h.holds j c' f hf
  · by_cases hj : j = i
    · subst hj
      simpa [Server.put, Interp.put, Observed.put] using hinc l
    · simpa [Server.put, Observed.put, hj] using h.inc j l

theorem held_append (found : List Found) (f : Found) : held script c filename (found ++ [f]) =
    sinceStep script c filename (held script c filename found) f := by
  rw [held, List.foldl_append]
  rfl

theorem put_self : o.put i c filename (o.found i c filename) [] = o := by
  simp [Observed.put]

theorem heldAfter_eq (found : List Found) :
    held script c filename (if visit.uncaches &&
        (serving script c filename (held script c filename found) m visit).isOk then []
      else found ++ if (admitted visit.req).isOk then [⟨m, visit.magic⟩] else []) =
    heldAfter script c filename (held script c filename found) m visit := by
  rw [heldAfter]
  split_ifs
  · rfl
  · exact held_append found _
  · rw [List.append_nil]

theorem Mirrors.step (h : Mirrors script files s o) (hapart : Apart files) {a : Action}
    (hamong : a.Among files) : Mirrors script files (s.step script a) (o.step script a) := by
  cases a with
  | edit filename m => exact ⟨by simp only [Server.step, Observed.step, h.mtime], h.holds, h.inc⟩
  | preload i c filename regular readable =>
      have hhere : Holds script c filename (o.heldOf script i c filename)
        (s.viewOf i c filename).package := h.holds i c filename hamong
      have hmem : ∀ l, l ∈ (s.viewOf i c filename).inc ↔ l ∈ o.inc i := h.inc i
      have hloaded := preload_holds (o.mtime filename) regular readable hhere
      have hnames : ∀ l, l ∈ (c.preload script regular readable ⟨filename, o.mtime filename⟩
          (s.viewOf i c filename)).2.inc ↔ l ∈ o.inc i ++
            if (regular && readable) &&
              (c.current (o.heldOf script i c filename) (o.mtime filename)).isNone then
              (script ⟨filename, o.mtime filename⟩).uses
            else [] := by
        intro l
        rw [mem_preload_inc hhere, List.mem_append, List.mem_append, hmem]
      rw [Server.step, Observed.step, h.mtime]
      cases hread : regular && readable with
      | true =>
          rw [hread, if_pos rfl, Observed.heldOf, ← held_append] at hloaded
          simp only [hread, Bool.true_and] at hnames
          exact h.put hapart hamong hloaded hnames
      | false =>
          rw [hread, if_neg Bool.false_ne_true] at hloaded
          simp only [hread, Bool.false_and] at hnames
          have hput := h.put hapart hamong hloaded hnames
          rw [if_neg Bool.false_ne_true, put_self] at hput
          exact hput
  | clone i j =>
      refine ⟨h.mtime, fun j' c f hf => ?_, fun j' l => ?_⟩
      · by_cases hj : j' = j
        · subst hj
          simpa [Server.step, Observed.step, Observed.heldOf] using h.holds i c f hf
        · simpa [Server.step, Observed.step, Observed.heldOf, hj] using h.holds j' c f hf
      · by_cases hj : j' = j
        · subst hj
          simpa [Server.step, Observed.step] using h.inc i l
        · simpa [Server.step, Observed.step, hj] using h.inc j' l
  | request i c filename visit =>
      have hhere : Holds script c filename (o.heldOf script i c filename)
        (s.viewOf i c filename).package := h.holds i c filename hamong
      have hmem : ∀ l, l ∈ (s.viewOf i c filename).inc ↔ l ∈ o.inc i := h.inc i
      have hholds := handler_holds visit (o.mtime filename) hhere
      rw [Server.step, Observed.step, Server.handle, h.mtime]
      refine h.put hapart hamong ?_ ?_
      · rw [Observed.heldOf, heldAfter_eq]
        exact hholds
      · intro l
        rw [mem_handler_inc hhere, List.mem_append, hmem, ← List.mem_append]

theorem mirrors_run (hapart : Apart files) {acts : List Action}
    (hamong : ∀ a ∈ acts, a.Among files) (h : Mirrors script files s o) :
    Mirrors script files (acts.foldl (Server.step script) s)
      (acts.foldl (Observed.step script) o) := by
  induction acts generalizing s o with
  | nil => exact h
  | cons a acts ih =>
      exact ih (fun a' ha' => hamong a' (List.mem_cons_of_mem a ha'))
        (h.step hapart (hamong a List.mem_cons_self))

/-! ## What a request gets -/

/-- What a CGI script would do: the version is compiled for this request alone. -/
def fresh (script : Source → Script) (filename : Bytes) (m : Mtime) (visit : Visit) : Answer :=
  let (ends, aborted) := callList visit.req.endDies (blocks script ⟨filename, m⟩)
  let rc := if visit.req.dies then rcServerError else rcOk
  withStatus visit.req (.ran (some ⟨filename, m⟩) ends (if aborted then none else some rc))

/-- What can be told of a request, when this was observed before. -/
structure Answered (script : Source → Script) (s : Server) (o : Observed) (i : ℕ)
    (c : RegistryClass) (filename : Bytes) (visit : Visit) : Prop where
  answer : (s.handle script i c filename visit).1 = o.answer script i c filename visit
  loaded : (s.handle script i c filename visit).2.loaded = o.loaded script i c filename visit
  /-- The version whose time is cached is the one that is present, but for
  `ModPerl::RegistryBB`. -/
  present : ∀ k, serving script c filename (o.heldOf script i c filename) (o.mtime filename)
    visit = .ok k → c = .registryBB ∨ k.1.mtime = o.mtime filename
  /-- If nothing that does not compile was found since, and the version was compiled under the
  magic of `PL_endav` or has no `END` blocks, it is run as if it had been compiled just now. -/
  whole : ∀ k, serving script c filename (o.heldOf script i c filename) (o.mtime filename)
    visit = .ok k → k.2 = [] →
      k.1.magic = true ∨ (script ⟨filename, k.1.mtime⟩).endBlocks = 0 →
      (s.handle script i c filename visit).1 = fresh script filename k.1.mtime visit

theorem present_of_serving (h : serving script c filename known m visit = .ok k) :
    c = .registryBB ∨ k.1.mtime = m := by
  cases hcurrent : c.current known m with
  | some k' =>
      rw [serving_of_current hcurrent] at h
      cases h
      rw [RegistryClass.current, Option.filter_eq_some_iff] at hcurrent
      have hgood : (!c.outdated k.1.mtime m) = true := hcurrent.2
      cases c with
      | registry | registryPrefork => exact .inr (by simpa [RegistryClass.outdated] using hgood)
      | registryBB => exact .inl rfl
      | perlRun | perlRunPrefork => exact absurd hgood Bool.false_ne_true
  | none =>
      cases hadmitted : admitted visit.req with
      | error rc =>
          rw [serving_of_refused hcurrent hadmitted] at h
          cases h
      | ok =>
          rw [serving_of_admitted hcurrent hadmitted] at h
          split_ifs at h
          cases h
          exact .inr rfl

theorem answer_of_whole (h : serving script c filename known m visit = .ok k) (hlast : k.2 = [])
    (hends : k.1.magic = true ∨ (script ⟨filename, k.1.mtime⟩).endBlocks = 0) :
    answer script c filename known m visit = fresh script filename k.1.mtime visit := by
  have hsub : subOf script filename k = ⟨filename, k.1.mtime⟩ := by rw [subOf, hlast]; rfl
  have hblocks : endsOf script filename k = blocks script ⟨filename, k.1.mtime⟩ := by
    rw [endsOf, hlast]
    rcases hends with hmagic | hnone
    · exact if_pos hmagic
    · have hempty : blocks script ⟨filename, k.1.mtime⟩ = [] := blocks_eq_nil_iff.mpr hnone
      show (if k.1.magic = true then blocks script ⟨filename, k.1.mtime⟩ else []) = _
      rw [hempty, ite_self]
  rw [answer, h, fresh, ← hblocks, ← hsub]

/-- A script with an `END` block, which requires a library; the second version does not
compile. -/
def guestbook (src : Source) : Script where
  compiles := src.mtime ≠ 2
  definesHandler := src.mtime ≠ 2
  endBlocks := 1
  defines_of_compiles := id
  uses := [ascii "CGI.pm"]

def guestVisit : Visit where
  req := plainReq
  magic := true
  required := [ascii "lib.pl"]
  uncaches := false

end Store

end Registry

end ModPerl
