import ModPerl.Handler.Resolve

/-!
# Handlers that are found equal

Two handlers that are found equal should call the same sub, with the same class
or object.  They do if neither is an anonymous sub, which has no name to compare,
if no two methods, or a method and a function, that are the same sub are compared
once both are resolved, and if what the one was resolved to is still what the name
of the other, which is not yet resolved, is resolved to.  A handler is resolved once
and for all; a method may be defined in a class later that had inherited it, or a
package loaded.
-/

namespace ModPerl

/-- The call that a resolution leads to. -/
def Resolution.call : Resolution → Option Invocation
  | .resolved p handler => handler.call p
  | _ => none

namespace MethodHandler

variable (requireModule : Program → Bytes → Program × Bool) (p : Program)

/-- A handler of this name, as it is before it is resolved. -/
def unresolved (name : Bytes) (autoload dynamic : Bool) : MethodHandler :=
  ofHandler ⟨some name, none, none, false, autoload, dynamic⟩

/-- A handler that is configured as a name, and all attempts to resolve it, in whatever
program, have failed.  A request turns on its `AUTOLOAD` before it tries. -/
inductive Pending : MethodHandler → Prop
  | new (text : Bytes) (dynamic : Bool) :
      Pending (ofHandler { Handler.new text with dynamic })
  | failed {handler handler' : MethodHandler} {p p' : Program} (autoload logfailure : Bool) :
      Pending handler →
      mgvResolve requireModule p { handler with autoload } (handler.name.getD []) logfailure =
        .failed p' handler' →
      Pending handler'

/-- A handler as it may be configured.  One that is resolved has been so in whatever program. -/
inductive Configured : MethodHandler → Prop
  | pending {handler : MethodHandler} : Pending requireModule handler → Configured handler
  | newAnon (cv : ℕ) (dynamic : Bool) :
      Configured (ofHandler { Handler.newAnon cv with dynamic })
  | resolved {handler handler' : MethodHandler} {p₀ p₁ : Program} (autoload logfailure : Bool) :
      Pending requireModule handler →
      mgvResolve requireModule p₀ { handler with autoload } (handler.name.getD []) logfailure =
        .resolved p₁ handler' →
      Configured handler'

/-- The comparison returns, and what it finds equal makes the same call. -/
def EqualSound (h₁ h₂ : MethodHandler) : Prop :=
  ∃ same, handlerEqual h₁.toHandler h₂.toHandler = some same ∧
    (same = true → h₁.invoke requireModule p = h₂.invoke requireModule p)

/-- The call of the method `handler` of a package, in this program. -/
def packageCall (p : Program) (name : Bytes) : Option Invocation :=
  (resolveMethod p (unresolved name true false) none name (ascii "handler")).call

/-- And once the package is loaded. -/
def packageCallLoaded (p : Program) (name : Bytes) : Option Invocation :=
  match requireModule p name with
  | (p, true) => packageCall p name
  | (_, false) => none

/-- The name of a package that a handler of this name has to be loaded from. -/
def Unloaded (p : Program) (name : Bytes) : Prop :=
  ¬ascii "sub " <+: name ∧ splitArrow name = none ∧ p.getCv name = none ∧ p.inc name = false

/-- What a handler was resolved to is what its name is resolved to now: the sub that is found
under its symbol, and what this is called on. -/
structure Current (handler : MethodHandler) (name : Bytes) : Prop where
  found : ∀ cv invocant, handler.code p = some cv → handler.invocant p = some invocant →
    ∃ p' handler', mgvResolve requireModule p (unresolved name true handler.dynamic) name false =
      .resolved p' handler' ∧ handler'.code p' = some cv ∧ handler'.invocant p' = some invocant
  lost : handler.code p = none ∨ handler.invocant p = none →
    ∀ p' handler', mgvResolve requireModule p (unresolved name true handler.dynamic) name false =
      .resolved p' handler' → handler'.code p' = none ∨ handler'.invocant p' = none

/-- When the comparison is sound. -/
structure Distinguished (h₁ h₂ : MethodHandler) : Prop where
  name₁ : h₁.name ≠ none
  name₂ : h₂.name ≠ none
  invocant : h₁.mgvCv = h₂.mgvCv → (h₁.code p).isSome → h₁.invocant p = h₂.invocant p
  current₁ : h₁.parsed → ¬h₂.parsed → h₁.name = h₂.name →
    ∀ name, h₁.name = some name → Current requireModule p h₁ name
  current₂ : h₂.parsed → ¬h₁.parsed → h₂.name = h₁.name →
    ∀ name, h₂.name = some name → Current requireModule p h₂ name

/-! ## Resolution -/

variable {requireModule p} {p' : Program} {handler handler' : MethodHandler} {stash : Option Bytes}
  {name handlerName : Bytes} {autoload dynamic logfailure : Bool}

theorem resolveMethod_resolved
    (h : resolveMethod p handler stash name handlerName = .resolved p' handler') :
    p' = p ∧ handler'.name = handler.name ∧ handler'.anon = handler.anon ∧
      handler'.parsed = true ∧ ∃ keys, handler'.mgvCv = some keys ∧ IsSymbol keys := by
  unfold resolveMethod at h
  split at h
  · cases h
  · split at h
    · cases h
      exact ⟨rfl, rfl, rfl, rfl, _, rfl, isSymbol_symbolAppend (isSymbol_symbolKeys _) _⟩
    · split_ifs at h

theorem stash_of_resolved
    (h : resolveMethod p handler stash name handlerName = .resolved p' handler') :
    (stash <|> p.findStash name).isSome := by
  unfold resolveMethod at h
  split at h
  · cases h
  · next stash heq => rw [heq]; rfl

theorem resolveMethod_failed
    (h : resolveMethod p handler stash name handlerName = .failed p' handler') :
    handler' = handler := by
  unfold resolveMethod at h
  split at h
  · cases h
    rfl
  · split at h
    · cases h
    · split_ifs at h
      cases h
      rfl

/-- What a resolution leads to does not depend on the name of the handler or on its
`AUTOLOAD`. -/
theorem resolveMethod_call_congr (hmethod : handler.method = handler'.method)
    (hmgvObj : handler.mgvObj = handler'.mgvObj) (hanon : handler.anon = handler'.anon) :
    (resolveMethod p handler stash name handlerName).call =
      (resolveMethod p handler' stash name handlerName).call := by
  unfold resolveMethod
  split
  · rfl
  · split
    · simp [Resolution.call, call, invocant, code, hmethod, hmgvObj, hanon]
    · split_ifs <;> rfl

/-- Loading a package, if at all, is all that happens before. -/
theorem autoloadMethod_cases (requireModule : Program → Bytes → Program × Bool) (p : Program)
    (handler : MethodHandler) (stash : Option Bytes) (name handlerName : Bytes)
    (logfailure : Bool) :
    (∃ p₁, autoloadMethod requireModule p handler stash name handlerName logfailure =
        resolveMethod p₁ handler stash name handlerName) ∨
      ∃ p₁, autoloadMethod requireModule p handler stash name handlerName logfailure =
        if logfailure then .croaked p₁ else .failed p₁ handler := by
  unfold autoloadMethod
  by_cases hload : stash = none ∧ handler.autoload ∧ !p.inc name
  · rw [if_pos hload]
    cases hrequire : requireModule p name with
    | mk p₁ loaded =>
        cases loaded with
        | true => exact .inl ⟨p₁, rfl⟩
        | false => exact .inr ⟨p₁, rfl⟩
  · rw [if_neg hload]
    exact .inl ⟨p, rfl⟩

theorem autoloadMethod_resolved
    (h : autoloadMethod requireModule p handler stash name handlerName logfailure =
      .resolved p' handler') :
    resolveMethod p' handler stash name handlerName = .resolved p' handler' := by
  obtain ⟨p₁, heq⟩ | ⟨p₁, heq⟩ :=
    autoloadMethod_cases requireModule p handler stash name handlerName logfailure
  · rw [heq] at h
    obtain ⟨rfl, -⟩ := resolveMethod_resolved h
    exact h
  · rw [heq] at h
    split_ifs at h

theorem autoloadMethod_failed
    (h : autoloadMethod requireModule p handler stash name handlerName logfailure =
      .failed p' handler') :
    handler' = handler := by
  obtain ⟨p₁, heq⟩ | ⟨p₁, heq⟩ :=
    autoloadMethod_cases requireModule p handler stash name handlerName logfailure
  · rw [heq] at h
    exact resolveMethod_failed h
  · rw [heq] at h
    split_ifs at h
    cases h
    rfl

/-- A package that has a stash, or is loaded, is not loaded. -/
theorem autoloadMethod_eq (h : stash.isSome ∨ p.inc name = true) :
    autoloadMethod requireModule p handler stash name handlerName logfailure =
      resolveMethod p handler stash name handlerName := by
  unfold autoloadMethod
  rw [if_neg]
  rintro ⟨hstash, -, hinc⟩
  rcases h with h | h
  · rw [hstash] at h
    cases h
  · rw [h] at hinc
    cases hinc

theorem autoloadMethod_call_congr (hmethod : handler.method = handler'.method)
    (hmgvObj : handler.mgvObj = handler'.mgvObj) (hanon : handler.anon = handler'.anon)
    (hautoload : handler.autoload = handler'.autoload) :
    (autoloadMethod requireModule p handler stash name handlerName logfailure).call =
      (autoloadMethod requireModule p handler' stash name handlerName logfailure).call := by
  have hcall : ∀ p, (resolveMethod p handler stash name handlerName).call =
      (resolveMethod p handler' stash name handlerName).call :=
    fun p => resolveMethod_call_congr hmethod hmgvObj hanon
  unfold autoloadMethod
  rw [hautoload]
  split_ifs with hload
  · cases requireModule p name with
    | mk p₁ loaded =>
        cases loaded with
        | true => exact hcall p₁
        | false => rfl
  · cases requireModule p name with
    | mk p₁ loaded =>
        cases loaded with
        | true => exact hcall p₁
        | false => rfl
  · exact hcall p

/-! ## The kinds of names -/

variable {package : Bytes}

theorem mgvResolve_sub (hanon : handler.anon = none) (hsub : ascii "sub " <+: name) :
    mgvResolve requireModule p handler name logfailure =
      match p.evalSub name with
      | none => .croaked p
      | some cv => .resolved p { handler with name := none, anon := some cv, parsed := true } := by
  cases heval : p.evalSub name <;> simp [mgvResolve, hanon, hsub, heval]

theorem mgvResolve_object (hanon : handler.anon = none) (hsub : ¬ascii "sub " <+: name)
    (harrow : splitArrow name = some (package, handlerName)) (hobject : package.head? = some 36) :
    mgvResolve requireModule p handler name logfailure =
      match p.scalar (symbolKeys package.tail) with
      | some ⟨_, true, some stash⟩ =>
          resolveMethod p { handler with
            method := true, mgvObj := some (.scalar (symbolKeys package.tail)) } (some stash)
            package handlerName
      | _ => .failed p { handler with
          method := true, mgvObj := some (.scalar (symbolKeys package.tail)) } := by
  rw [mgvResolve, hanon, if_neg (by simp), if_neg hsub, harrow]
  dsimp only
  rw [if_pos hobject]
  cases p.scalar (symbolKeys package.tail) with
  | none => rfl
  | some value =>
      obtain ⟨id, truth, stash⟩ := value
      cases truth with
      | false => rfl
      | true =>
          cases stash with
          | none => rfl
          | some stash => exact autoloadMethod_eq (.inl Option.isSome_some)

theorem mgvResolve_class (hanon : handler.anon = none) (hsub : ¬ascii "sub " <+: name)
    (harrow : splitArrow name = some (package, handlerName)) (hclass : package.head? ≠ some 36) :
    mgvResolve requireModule p handler name logfailure =
      autoloadMethod requireModule p { handler with method := true } (p.findStash package) package
        handlerName logfailure := by
  rw [mgvResolve, hanon, if_neg (by simp), if_neg hsub, harrow]
  dsimp only
  rw [if_neg hclass]

theorem mgvResolve_name (hanon : handler.anon = none) (hsub : ¬ascii "sub " <+: name)
    (harrow : splitArrow name = none) :
    mgvResolve requireModule p handler name logfailure =
      match p.getCv name with
      | some cv => .resolved p { handler with
          mgvCv := some (symbolAppend (symbolKeys (p.cvGv cv).1) (p.cvGv cv).2), parsed := true }
      | none =>
          autoloadMethod requireModule p handler none name (ascii "handler") logfailure := by
  cases hcv : p.getCv name <;> simp [mgvResolve, hanon, hsub, harrow, hcv]

/-- A name is the text of a sub, a method of an object, a method of a class, or plain. -/
theorem name_cases (name : Bytes) :
    ascii "sub " <+: name ∨
      ¬ascii "sub " <+: name ∧
        ((∃ package handlerName, splitArrow name = some (package, handlerName) ∧
            package.head? = some 36) ∨
          (∃ package handlerName, splitArrow name = some (package, handlerName) ∧
            package.head? ≠ some 36) ∨
          splitArrow name = none) := by
  by_cases hsub : ascii "sub " <+: name
  · exact .inl hsub
  · refine .inr ⟨hsub, ?_⟩
    cases harrow : splitArrow name with
    | none => exact .inr (.inr rfl)
    | some parts =>
        by_cases hobject : parts.1.head? = some 36
        · exact .inl ⟨parts.1, parts.2, rfl, hobject⟩
        · exact .inr (.inl ⟨parts.1, parts.2, rfl, hobject⟩)

/-! ## Handlers that are pending -/

/-- A pending handler keeps its name, and of an attempt to resolve it no more than what
the next attempt sets again. -/
structure PendingAs (name : Bytes) (handler : MethodHandler) : Prop where
  name_eq : handler.name = some name
  anon : handler.anon = none
  mgvCv : handler.mgvCv = none
  parsed : handler.parsed = false
  method : handler.method = true → ¬ascii "sub " <+: name ∧ splitArrow name ≠ none
  mgvObj : handler.mgvObj ≠ none → ¬ascii "sub " <+: name ∧
    ∃ parts, splitArrow name = some parts ∧ parts.1.head? = some 36

theorem pendingAs_new (text : Bytes) (dynamic : Bool) :
    ∃ name, PendingAs name (ofHandler { Handler.new text with dynamic }) := by
  unfold Handler.new
  split <;> exact ⟨_, rfl, rfl, rfl, rfl, (nomatch ·), (absurd rfl ·)⟩

theorem PendingAs.getD_name (h : PendingAs name handler) : handler.name.getD [] = name := by
  rw [h.name_eq, Option.getD_some]

/-- Each attempt starts over. -/
theorem PendingAs.resolve (h : PendingAs name handler) :
    mgvResolve requireModule p { handler with autoload } name logfailure =
      mgvResolve requireModule p (unresolved name autoload handler.dynamic) name logfailure := by
  obtain ⟨⟨name', anon, mgvCv, parsed, autoload', dynamic⟩, method, mgvObj⟩ := handler
  obtain ⟨rfl, rfl, rfl, rfl, hmethod, hmgvObj⟩ := h
  dsimp only at hmethod hmgvObj
  have hmethod_eq : splitArrow name = none ∨ ascii "sub " <+: name → method = false := by
    intro hkind
    cases method with
    | false => rfl
    | true => exact (hkind.elim (hmethod rfl).2 (hmethod rfl).1).elim
  have hmgvObj_eq : (∀ parts, splitArrow name = some parts → parts.1.head? ≠ some 36) ∨
      ascii "sub " <+: name → mgvObj = none := by
    intro hkind
    by_contra hne
    obtain ⟨hsub, parts, harrow, hobject⟩ := hmgvObj hne
    exact hkind.elim (fun h => h parts harrow hobject) hsub
  obtain hsub | ⟨hsub, ⟨package, handlerName, harrow, hobject⟩ |
    ⟨package, handlerName, harrow, hclass⟩ | harrow⟩ := name_cases name
  · obtain rfl := hmethod_eq (.inr hsub)
    obtain rfl := hmgvObj_eq (.inr hsub)
    rfl
  · rw [mgvResolve_object rfl hsub harrow hobject, mgvResolve_object rfl hsub harrow hobject]
    rfl
  · obtain rfl := hmgvObj_eq (.inl fun parts heq => by rw [harrow] at heq; cases heq; exact hclass)
    rw [mgvResolve_class rfl hsub harrow hclass, mgvResolve_class rfl hsub harrow hclass]
    rfl
  · obtain rfl := hmethod_eq (.inl harrow)
    obtain rfl := hmgvObj_eq (.inl fun parts heq => by rw [harrow] at heq; cases heq)
    rfl

/-- What an attempt that fails leaves. -/
theorem pendingAs_of_failed
    (h : mgvResolve requireModule p (unresolved name autoload dynamic) name logfailure =
      .failed p' handler') : PendingAs name handler' := by
  obtain hsub | ⟨hsub, ⟨package, handlerName, harrow, hobject⟩ |
    ⟨package, handlerName, harrow, hclass⟩ | harrow⟩ := name_cases name
  · rw [mgvResolve_sub rfl hsub] at h
    split at h <;> cases h
  · rw [mgvResolve_object rfl hsub harrow hobject] at h
    have hhandler : handler' = { unresolved name autoload dynamic with
        method := true, mgvObj := some (.scalar (symbolKeys package.tail)) } := by
      split at h
      · exact resolveMethod_failed h
      · cases h
        rfl
    rw [hhandler]
    exact ⟨rfl, rfl, rfl, rfl, fun _ => ⟨hsub, by rw [harrow]; exact Option.some_ne_none _⟩,
      fun _ => ⟨hsub, _, harrow, hobject⟩⟩
  · rw [mgvResolve_class rfl hsub harrow hclass] at h
    rw [autoloadMethod_failed h]
    exact ⟨rfl, rfl, rfl, rfl, fun _ => ⟨hsub, by rw [harrow]; exact Option.some_ne_none _⟩,
      (absurd rfl ·)⟩
  · rw [mgvResolve_name rfl hsub harrow] at h
    split at h
    · cases h
    · rw [autoloadMethod_failed h]
      exact ⟨rfl, rfl, rfl, rfl, (nomatch ·), (absurd rfl ·)⟩

theorem Pending.pendingAs (h : Pending requireModule handler) :
    ∃ name, PendingAs name handler := by
  induction h with
  | new text dynamic => exact pendingAs_new text dynamic
  | failed autoload logfailure _ hfailed ih =>
      obtain ⟨name, hname⟩ := ih
      rw [hname.getD_name, hname.resolve] at hfailed
      exact ⟨name, pendingAs_of_failed hfailed⟩

/-- A request resolves a pending handler first. -/
theorem PendingAs.invoke_eq (h : PendingAs name handler) :
    handler.invoke requireModule p =
      (mgvResolve requireModule p (unresolved name true handler.dynamic) name false).call := by
  have hparsed : ¬handler.parsed = true := by simp [h.parsed]
  rw [invoke, if_neg hparsed, h.getD_name, h.resolve]
  cases mgvResolve requireModule p (unresolved name true handler.dynamic) name false <;> rfl

/-! ## Handlers that are resolved -/

/-- A resolved handler that is not an anonymous sub has kept its name and has a symbol. -/
structure ResolvedAs (name : Bytes) (handler : MethodHandler) : Prop where
  name_eq : handler.name = some name
  anon : handler.anon = none
  parsed : handler.parsed = true
  mgvCv : ∃ keys, handler.mgvCv = some keys ∧ IsSymbol keys

/-- What an attempt that succeeds leaves. -/
theorem resolvedAs_of_resolved
    (h : mgvResolve requireModule p (unresolved name autoload dynamic) name logfailure =
      .resolved p' handler') :
    handler'.name = none ∧ handler'.mgvCv = none ∧ handler'.parsed = true ∨
      ResolvedAs name handler' := by
  obtain hsub | ⟨hsub, ⟨package, handlerName, harrow, hobject⟩ |
    ⟨package, handlerName, harrow, hclass⟩ | harrow⟩ := name_cases name
  · rw [mgvResolve_sub rfl hsub] at h
    split at h
    · cases h
    · cases h
      exact .inl ⟨rfl, rfl, rfl⟩
  · rw [mgvResolve_object rfl hsub harrow hobject] at h
    split at h
    · obtain ⟨-, hname, hanon, hparsed, hmgvCv⟩ := resolveMethod_resolved h
      exact .inr ⟨hname, hanon, hparsed, hmgvCv⟩
    · cases h
  · rw [mgvResolve_class rfl hsub harrow hclass] at h
    obtain ⟨-, hname, hanon, hparsed, hmgvCv⟩ :=
      resolveMethod_resolved (autoloadMethod_resolved h)
    exact .inr ⟨hname, hanon, hparsed, hmgvCv⟩
  · rw [mgvResolve_name rfl hsub harrow] at h
    split at h
    · cases h
      exact .inr ⟨rfl, rfl, rfl, _, rfl, isSymbol_symbolAppend (isSymbol_symbolKeys _) _⟩
    · obtain ⟨-, hname, hanon, hparsed, hmgvCv⟩ :=
        resolveMethod_resolved (autoloadMethod_resolved h)
      exact .inr ⟨hname, hanon, hparsed, hmgvCv⟩

/-- A handler that is resolved in the program as it is, against one of the same name that
is not: they make the same call unless a package is to be loaded. -/
theorem call_of_resolved (dynamic' : Bool)
    (h : mgvResolve requireModule p (unresolved name autoload dynamic) name logfailure =
      .resolved p handler') (hname : handler'.name ≠ none) :
    (¬Unloaded p name → handler'.call p =
        (mgvResolve requireModule p (unresolved name true dynamic') name false).call) ∧
      (Unloaded p name → handler'.call p = packageCall p name) := by
  obtain hsub | ⟨hsub, ⟨package, handlerName, harrow, hobject⟩ |
    ⟨package, handlerName, harrow, hclass⟩ | harrow⟩ := name_cases name
  · rw [mgvResolve_sub rfl hsub] at h
    split at h
    · cases h
    · cases h
      exact absurd rfl hname
  · refine ⟨fun _ => ?_, fun hunloaded => by rw [hunloaded.2.1] at harrow; cases harrow⟩
    have hcall := congrArg Resolution.call h
    rw [mgvResolve_object rfl hsub harrow hobject] at hcall ⊢
    rw [Resolution.call] at hcall
    rw [← hcall]
    split
    · exact resolveMethod_call_congr rfl rfl rfl
    · rfl
  · refine ⟨fun _ => ?_, fun hunloaded => by rw [hunloaded.2.1] at harrow; cases harrow⟩
    rw [mgvResolve_class rfl hsub harrow hclass] at h ⊢
    have hmethod := autoloadMethod_resolved h
    -- a class without a stash was not found the second time either
    have hstash : (p.findStash package).isSome := by
      simpa using stash_of_resolved hmethod
    rw [autoloadMethod_eq (.inl hstash)]
    have hcall := congrArg Resolution.call hmethod
    rw [Resolution.call] at hcall
    rw [← hcall]
    exact resolveMethod_call_congr rfl rfl rfl
  · rw [mgvResolve_name rfl hsub harrow] at h ⊢
    cases hcv : p.getCv name with
    | some cv =>
        rw [hcv] at h
        refine ⟨fun _ => ?_, fun hunloaded => by rw [hunloaded.2.2.1] at hcv; cases hcv⟩
        cases h
        rfl
    | none =>
        rw [hcv] at h
        have hmethod := autoloadMethod_resolved h
        have hpackage : handler'.call p = packageCall p name := by
          have hcall := congrArg Resolution.call hmethod
          rw [Resolution.call] at hcall
          rw [← hcall]
          exact resolveMethod_call_congr rfl rfl rfl
        refine ⟨fun hloaded => ?_, fun _ => hpackage⟩
        have hinc : p.inc name = true := by
          by_contra hinc
          exact hloaded ⟨hsub, harrow, hcv, by simpa using hinc⟩
        dsimp only
        rw [autoloadMethod_eq (.inr hinc), hpackage]
        exact resolveMethod_call_congr rfl rfl rfl

/-- A package that is not loaded is loaded for a request that needs its handler. -/
theorem call_of_unloaded (h : Unloaded p name) :
    (mgvResolve requireModule p (unresolved name true dynamic) name false).call =
      packageCallLoaded requireModule p name := by
  obtain ⟨hsub, harrow, hcv, hinc⟩ := h
  have hload : (none : Option Bytes) = none ∧ (unresolved name true dynamic).autoload ∧
      !p.inc name := ⟨rfl, rfl, by rw [hinc]; rfl⟩
  rw [mgvResolve_name rfl hsub harrow, hcv]
  dsimp only
  rw [autoloadMethod, if_pos hload, packageCallLoaded]
  cases requireModule p name with
  | mk p' loaded =>
      cases loaded with
      | true => exact resolveMethod_call_congr rfl rfl rfl
      | false => rfl

/-! ## Comparison -/

/-- A configured handler is an anonymous sub, is pending, or is resolved. -/
theorem Configured.cases (h : Configured requireModule handler) :
    handler.name = none ∧ handler.mgvCv = none ∧ handler.parsed = true ∨
      (∃ name, PendingAs name handler) ∨ ∃ name, ResolvedAs name handler := by
  cases h with
  | pending h => exact .inr (.inl h.pendingAs)
  | newAnon cv dynamic => exact .inl ⟨rfl, rfl, rfl⟩
  | resolved autoload logfailure h hresolved =>
      obtain ⟨name, hname⟩ := h.pendingAs
      rw [hname.getD_name, hname.resolve] at hresolved
      rcases resolvedAs_of_resolved hresolved with hanon | hname'
      · exact .inl hanon
      · exact .inr (.inr ⟨name, hname'⟩)

theorem ResolvedAs.invoke_eq (h : ResolvedAs name handler) :
    handler.invoke requireModule p = handler.call p :=
  if_pos h.parsed

/-- Two symbols that are the same: the calls are the same if what they are made on is. -/
theorem call_eq_iff {h₁ h₂ : MethodHandler} (hanon₁ : h₁.anon = none) (hanon₂ : h₂.anon = none)
    (hmgvCv : h₁.mgvCv = h₂.mgvCv) :
    h₁.call p = h₂.call p ↔ ((h₁.code p).isSome → h₁.invocant p = h₂.invocant p) := by
  have hcode : h₂.code p = h₁.code p := by simp [code, hanon₁, hanon₂, hmgvCv]
  rw [call, call, hcode]
  cases h₁.code p with
  | none =>
      cases h₁.invocant p <;> cases h₂.invocant p <;> simp
  | some cv =>
      cases h₁.invocant p <;> cases h₂.invocant p <;> simp

/-- Whether a handler was pushed does not matter. -/
theorem resolve_call_dynamic (name : Bytes) (autoload dynamic dynamic' logfailure : Bool) :
    (mgvResolve requireModule p (unresolved name autoload dynamic) name logfailure).call =
      (mgvResolve requireModule p (unresolved name autoload dynamic') name logfailure).call := by
  obtain hsub | ⟨hsub, ⟨package, handlerName, harrow, hobject⟩ |
    ⟨package, handlerName, harrow, hclass⟩ | harrow⟩ := name_cases name
  · rw [mgvResolve_sub rfl hsub, mgvResolve_sub rfl hsub]
    cases p.evalSub name <;> rfl
  · rw [mgvResolve_object rfl hsub harrow hobject, mgvResolve_object rfl hsub harrow hobject]
    split
    · exact resolveMethod_call_congr rfl rfl rfl
    · rfl
  · rw [mgvResolve_class rfl hsub harrow hclass, mgvResolve_class rfl hsub harrow hclass]
    exact autoloadMethod_call_congr rfl rfl rfl rfl
  · rw [mgvResolve_name rfl hsub harrow, mgvResolve_name rfl hsub harrow]
    cases p.getCv name with
    | some cv => rfl
    | none => exact autoloadMethod_call_congr rfl rfl rfl rfl

theorem call_eq_none_iff :
    handler.call p = none ↔ handler.code p = none ∨ handler.invocant p = none := by
  rw [call]
  cases handler.invocant p <;> cases handler.code p <;> simp

/-- The call that is made now is the call of what the name is resolved to now. -/
theorem current_iff : Current requireModule p handler name ↔ handler.call p =
    (mgvResolve requireModule p (unresolved name true handler.dynamic) name false).call := by
  constructor
  · intro h
    cases hcode : handler.code p with
    | none =>
        rw [call_eq_none_iff.mpr (.inl hcode)]
        cases hres : mgvResolve requireModule p (unresolved name true handler.dynamic) name false with
        | resolved p' handler' =>
            exact (call_eq_none_iff.mpr (h.lost (.inl hcode) p' handler' hres)).symm
        | failed p' handler' => rfl
        | croaked p' => rfl
    | some cv =>
        cases hinvocant : handler.invocant p with
        | none =>
            rw [call_eq_none_iff.mpr (.inr hinvocant)]
            cases hres : mgvResolve requireModule p (unresolved name true handler.dynamic) name
                false with
            | resolved p' handler' =>
                exact (call_eq_none_iff.mpr (h.lost (.inr hinvocant) p' handler' hres)).symm
            | failed p' handler' => rfl
            | croaked p' => rfl
        | some invocant =>
            obtain ⟨p', handler', hres, hcode', hinvocant'⟩ := h.found cv invocant hcode hinvocant
            rw [hres, Resolution.call, call, call, hcode, hinvocant, hcode', hinvocant']
  · intro heq
    refine ⟨fun cv invocant hcode hinvocant => ?_, fun hnone p' handler' hres => ?_⟩
    · have hcall : handler.call p = some ⟨cv, invocant⟩ := by rw [call, hcode, hinvocant]; rfl
      rw [hcall] at heq
      cases hres : mgvResolve requireModule p (unresolved name true handler.dynamic) name false with
      | resolved p' handler' =>
          rw [hres, Resolution.call, call] at heq
          refine ⟨p', handler', rfl, ?_⟩
          cases hcode' : handler'.code p' with
          | none => cases hinvocant' : handler'.invocant p' <;> simp [hcode', hinvocant'] at heq
          | some cv' =>
              cases hinvocant' : handler'.invocant p' with
              | none => simp [hinvocant'] at heq
              | some invocant' =>
                  simp only [hcode', hinvocant', Option.bind_some, Option.map_some,
                    Option.some.injEq, Invocation.mk.injEq] at heq
                  rw [heq.1, heq.2]
                  exact ⟨rfl, rfl⟩
      | failed p' handler' =>
          rw [hres] at heq
          cases heq
      | croaked p' =>
          rw [hres] at heq
          cases heq
    · rw [hres, Resolution.call, call_eq_none_iff.mpr hnone] at heq
      exact call_eq_none_iff.mp heq.symm

/-- A resolved handler against a pending one of the same name. -/
theorem invoke_eq_iff {h₁ h₂ : MethodHandler} (h : ResolvedAs name h₁)
    (hpending : PendingAs name h₂) :
    h₁.invoke requireModule p = h₂.invoke requireModule p ↔ Current requireModule p h₁ name := by
  rw [h.invoke_eq, hpending.invoke_eq, current_iff,
    resolve_call_dynamic name true h₂.dynamic h₁.dynamic false]

/-- What was resolved in the program as it is now is current, unless it is the handler of a
package that is not loaded, and that loading the package would change. -/
theorem current_of_resolved_iff (h : ResolvedAs name handler)
    (hresolved : mgvResolve requireModule p (unresolved name autoload dynamic) name logfailure =
      .resolved p handler) :
    Current requireModule p handler name ↔
      (Unloaded p name → packageCallLoaded requireModule p name = packageCall p name) := by
  have hname : handler.name ≠ none := by rw [h.name_eq]; exact Option.some_ne_none _
  obtain ⟨hloaded, hunloaded⟩ := call_of_resolved handler.dynamic hresolved hname
  rw [current_iff]
  by_cases hload : Unloaded p name
  · rw [hunloaded hload, call_of_unloaded hload]
    exact ⟨fun heq _ => heq.symm, fun heq => (heq hload).symm⟩
  · exact iff_of_true (hloaded hload) fun h => absurd h hload

theorem handlerEqual_names {h₁ h₂ : Handler} {name₁ name₂ : Bytes} (hname₁ : h₁.name = some name₁)
    (hname₂ : h₂.name = some name₂) (hmgvCv : h₁.mgvCv = none ∨ h₂.mgvCv = none) :
    handlerEqual h₁ h₂ = some (decide (name₁ = name₂)) := by
  unfold handlerEqual
  rcases hmgvCv with hmgvCv | hmgvCv <;> rw [hmgvCv, hname₁, hname₂]
  cases h₁.mgvCv <;> rfl

variable {h₁ h₂ : MethodHandler} {name₁ name₂ : Bytes}

/-- Unless both are resolved, the names decide. -/
theorem equalSound_iff_of_names (hname₁ : h₁.name = some name₁) (hname₂ : h₂.name = some name₂)
    (hmgvCv : h₁.mgvCv = none ∨ h₂.mgvCv = none) :
    EqualSound requireModule p h₁ h₂ ↔
      (name₁ = name₂ → h₁.invoke requireModule p = h₂.invoke requireModule p) := by
  rw [EqualSound, handlerEqual_names hname₁ hname₂ hmgvCv]
  simp

/-- If both are resolved, the symbols do. -/
theorem equalSound_iff_of_symbols (hh₁ : ResolvedAs name₁ h₁) (hh₂ : ResolvedAs name₂ h₂) :
    EqualSound requireModule p h₁ h₂ ↔
      (h₁.mgvCv = h₂.mgvCv → h₁.invoke requireModule p = h₂.invoke requireModule p) := by
  obtain ⟨keys₁, hkeys₁, hsymbol₁⟩ := hh₁.mgvCv
  obtain ⟨keys₂, hkeys₂, hsymbol₂⟩ := hh₂.mgvCv
  rw [EqualSound, handlerEqual, hkeys₁, hkeys₂, Option.some_inj, ← mgvEqual_iff hsymbol₁ hsymbol₂]
  simp

/-- An anonymous sub has no name to be compared. -/
theorem not_equalSound (hname : h₁.name = none ∨ h₂.name = none)
    (hmgvCv : h₁.mgvCv = none ∨ h₂.mgvCv = none) : ¬EqualSound requireModule p h₁ h₂ := by
  have hnone : handlerEqual h₁.toHandler h₂.toHandler = none := by
    unfold handlerEqual
    rcases hmgvCv with hmgvCv | hmgvCv <;> rw [hmgvCv]
    · rcases hname with hname | hname <;> rw [hname]
      cases h₁.name <;> rfl
    · cases h₁.mgvCv <;>
      · rcases hname with hname | hname <;> rw [hname]
        cases h₁.name <;> rfl
  rintro ⟨same, hequal, -⟩
  rw [hnone] at hequal
  cases hequal

theorem PendingAs.code (h : PendingAs name handler) : handler.code p = none := by
  rw [MethodHandler.code, h.anon, h.mgvCv]
  rfl

theorem sound_pending (hpending₁ : PendingAs name₁ h₁) (hpending₂ : PendingAs name₂ h₂) :
    EqualSound requireModule p h₁ h₂ ↔ Distinguished requireModule p h₁ h₂ := by
  rw [equalSound_iff_of_names hpending₁.name_eq hpending₂.name_eq (.inl hpending₁.mgvCv)]
  refine iff_of_true ?_ ⟨?_, ?_, fun _ hcode => ?_, fun hparsed => ?_, fun hparsed => ?_⟩
  · rintro rfl
    rw [hpending₁.invoke_eq, hpending₂.invoke_eq]
    exact resolve_call_dynamic _ _ _ _ _
  · rw [hpending₁.name_eq]
    exact Option.some_ne_none _
  · rw [hpending₂.name_eq]
    exact Option.some_ne_none _
  · rw [hpending₁.code] at hcode
    cases hcode
  · exact absurd (hpending₁.parsed.symm.trans hparsed) Bool.false_ne_true
  · exact absurd (hpending₂.parsed.symm.trans hparsed) Bool.false_ne_true

theorem sound_resolved (hh₁ : ResolvedAs name₁ h₁) (hh₂ : ResolvedAs name₂ h₂) :
    EqualSound requireModule p h₁ h₂ ↔ Distinguished requireModule p h₁ h₂ := by
  rw [equalSound_iff_of_symbols hh₁ hh₂, hh₁.invoke_eq, hh₂.invoke_eq]
  constructor
  · intro hsound
    refine ⟨?_, ?_, fun hmgvCv => ?_, fun _ hparsed => ?_, fun _ hparsed => ?_⟩
    · rw [hh₁.name_eq]
      exact Option.some_ne_none _
    · rw [hh₂.name_eq]
      exact Option.some_ne_none _
    · exact (call_eq_iff hh₁.anon hh₂.anon hmgvCv).mp (hsound hmgvCv)
    · exact absurd hh₂.parsed hparsed
    · exact absurd hh₁.parsed hparsed
  · intro h hmgvCv
    exact (call_eq_iff hh₁.anon hh₂.anon hmgvCv).mpr (h.invocant hmgvCv)

theorem sound_mixed (hh₁ : ResolvedAs name₁ h₁) (hpending₂ : PendingAs name₂ h₂) :
    (EqualSound requireModule p h₁ h₂ ↔ Distinguished requireModule p h₁ h₂) ∧
      (EqualSound requireModule p h₂ h₁ ↔ Distinguished requireModule p h₂ h₁) := by
  have hcurrent : name₁ = name₂ →
      (h₁.invoke requireModule p = h₂.invoke requireModule p ↔
        Current requireModule p h₁ name₁) := by
    rintro rfl
    exact invoke_eq_iff hh₁ hpending₂
  have hname₁ : h₁.name ≠ none := by rw [hh₁.name_eq]; exact Option.some_ne_none _
  have hname₂ : h₂.name ≠ none := by rw [hpending₂.name_eq]; exact Option.some_ne_none _
  have hmgvCv : h₁.mgvCv ≠ h₂.mgvCv := by
    obtain ⟨keys, hkeys, -⟩ := hh₁.mgvCv
    rw [hkeys, hpending₂.mgvCv]
    exact Option.some_ne_none _
  have hparsed₂ : ¬h₂.parsed = true := by simp [hpending₂.parsed]
  have hnames : h₁.name = h₂.name ↔ name₁ = name₂ := by
    rw [hh₁.name_eq, hpending₂.name_eq, Option.some_inj]
  rw [equalSound_iff_of_names hh₁.name_eq hpending₂.name_eq (.inr hpending₂.mgvCv),
    equalSound_iff_of_names hpending₂.name_eq hh₁.name_eq (.inl hpending₂.mgvCv)]
  refine ⟨⟨fun hsound => ?_, fun h heq => ?_⟩, ⟨fun hsound => ?_, fun h heq => ?_⟩⟩
  · refine ⟨hname₁, hname₂, fun heq => absurd heq hmgvCv, fun _ _ heq name hname => ?_,
      fun hparsed => absurd hparsed hparsed₂⟩
    obtain rfl := Option.some.inj (hh₁.name_eq.symm.trans hname)
    exact (hcurrent (hnames.mp heq)).mp (hsound (hnames.mp heq))
  · exact (hcurrent heq).mpr (h.current₁ hh₁.parsed hparsed₂ (hnames.mpr heq) _ hh₁.name_eq)
  · refine ⟨hname₂, hname₁, fun heq => absurd heq.symm hmgvCv,
      fun hparsed => absurd hparsed hparsed₂, fun _ _ heq name hname => ?_⟩
    obtain rfl := Option.some.inj (hh₁.name_eq.symm.trans hname)
    exact (hcurrent (hnames.mp heq)).mp (hsound (hnames.mp heq).symm).symm
  · exact ((hcurrent heq.symm).mpr
      (h.current₂ hh₁.parsed hparsed₂ (hnames.mpr heq.symm) _ hh₁.name_eq)).symm

end MethodHandler

open MethodHandler

/-- Handlers are compared without an access to a name that is not there, and those found
equal make the same call, exactly if both have a name, what they are called on is the same
where they have been resolved to the same sub, and where one of them is resolved and the
other is not, the name that they share is still resolved to what the one was resolved to. -/
theorem handlerEqual_sound_iff (requireModule : Program → Bytes → Program × Bool) (p : Program)
    (h₁ h₂ : MethodHandler) (hconfigured₁ : Configured requireModule h₁)
    (hconfigured₂ : Configured requireModule h₂) :
    EqualSound requireModule p h₁ h₂ ↔ Distinguished requireModule p h₁ h₂ := by
  obtain ⟨hname₁, hmgvCv₁, -⟩ | hnamed₁ := hconfigured₁.cases
  · exact iff_of_false (not_equalSound (.inl hname₁) (.inl hmgvCv₁)) fun h => h.name₁ hname₁
  obtain ⟨hname₂, hmgvCv₂, -⟩ | hnamed₂ := hconfigured₂.cases
  · exact iff_of_false (not_equalSound (.inr hname₂) (.inr hmgvCv₂)) fun h => h.name₂ hname₂
  obtain ⟨name₁, hpending₁⟩ | ⟨name₁, hh₁⟩ := hnamed₁
  · obtain ⟨name₂, hpending₂⟩ | ⟨name₂, hh₂⟩ := hnamed₂
    · exact sound_pending hpending₁ hpending₂
    · exact (sound_mixed hh₂ hpending₁).2
  · obtain ⟨name₂, hpending₂⟩ | ⟨name₂, hh₂⟩ := hnamed₂
    · exact (sound_mixed hh₁ hpending₂).1
    · exact sound_resolved hh₁ hh₂

/-- All classes have inherited their `handler` from one. -/
def Program.inherited : Program where
  getCv name := if name = ascii "Base::handler" then some 1 else none
  cvGv _ := (ascii "Base", ascii "handler")
  cvMethod _ := false
  cvAnon _ := false
  glob keys := if keys = [ascii "Base::", ascii "handler"] then some (some 1) else none
  scalar _ := none
  findStash name := some name
  fetchMethod _ name := if name = ascii "handler" then some (ascii "Base", 1) else none
  inc _ := true
  evalSub _ := none

/-- What names are resolved to there. -/
def inheritedHandler (name : Bytes) (mgvObj : Option MgvObj) : MethodHandler :=
  ⟨⟨some name, none, some [ascii "Base::", ascii "handler"], true, false, false⟩, mgvObj.isSome,
    mgvObj⟩

theorem configured_inherited {text : Bytes} {mgvObj : Option MgvObj}
    (h : mgvResolve (fun p _ => (p, false)) .inherited
      { ofHandler { Handler.new text with dynamic := false } with autoload := false }
      ((Handler.new text).name.getD []) false =
        .resolved .inherited (inheritedHandler text mgvObj)) :
    Configured (fun p _ => (p, false)) (inheritedHandler text mgvObj) :=
  .resolved false false (.new text false) h

/-- The packages `A` and `B`, with one function. -/
theorem handlerEqual_sound_two :
    EqualSound (fun p _ => (p, false)) .inherited (inheritedHandler (ascii "A") none)
      (inheritedHandler (ascii "B") none) :=
  (handlerEqual_sound_iff _ .inherited _ _ (configured_inherited rfl)
    (configured_inherited rfl)).mpr
      ⟨by decide, by decide, fun _ _ => rfl, fun _ hparsed => absurd rfl hparsed,
        fun _ hparsed => absurd rfl hparsed⟩

/-- The methods `A->handler` and `B->handler`. -/
theorem handlerEqual_sound_fails :
    ¬∀ (requireModule : Program → Bytes → Program × Bool) (p : Program) (h₁ h₂ : MethodHandler),
      Configured requireModule h₁ → Configured requireModule h₂ →
        EqualSound requireModule p h₁ h₂ := by
  intro hall
  obtain ⟨same, hequal, hcall⟩ := hall _ .inherited
    (inheritedHandler (ascii "A->handler") (some (.classname (ascii "A"))))
    (inheritedHandler (ascii "B->handler") (some (.classname (ascii "B"))))
    (configured_inherited rfl) (configured_inherited rfl)
  obtain rfl : same = true := (Option.some.inj hequal).symm.trans (by decide)
  exact absurd (hcall rfl) (by decide)

end ModPerl
