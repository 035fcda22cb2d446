import ModPerl.Filter.Install

/-!
# Filters added at run time

`$r->add_output_filter` and its siblings put the filter into the chain first, and look at
the handler then: whether it can be resolved, whether it has the attribute for this chain,
and what its init handler returns.  Each of these croaks if it is not content, and the
filter stays where it is.

The Perl code that runs meanwhile, when a module is loaded or an init handler is found or
called, may itself change the chains: what the callback brings along is a function of them.

The functions are those of `modperl_filter.c`.
-/

namespace ModPerl

/-- The filters of a request and those of its connection. -/
structure FilterChains (F : Type*) where
  request : List F
  connection : List F

variable {F : Type*}

/-- The list with one filter more. -/
def InsertedIn (l l' : List F) : Prop :=
  ∃ before f after, l = before ++ after ∧ l' = before ++ f :: after

/-- One of the chains has one filter more. -/
def AddedOne (chains chains' : FilterChains F) : Prop :=
  InsertedIn chains.request chains'.request ∧ chains'.connection = chains.connection ∨
    InsertedIn chains.connection chains'.connection ∧ chains'.request = chains.request

/-- `ap_add_input_filter` or `ap_add_output_filter`: it puts one filter into the chains, for
the request or for the connection alone. -/
structure AddFunc (F : Type*) where
  add : Bytes → Bool → FilterChains F → FilterChains F
  addedOne : ∀ name request chains, AddedOne chains (add name request chains)

/-- What a croak says: a message, or the status and the function of an `APR::Error`. -/
inductive FilterCroak
  | perl (msg : Bytes)
  | status (rc : Status) (func : Bytes)
  deriving DecidableEq

/-- An init handler. -/
structure InitHandler (F : Type*) where
  name : Bytes
  /-- As they are once `modperl_mgv_resolve` was called for it. -/
  attrs : FilterAttrs
  /-- `modperl_run_filter_init` -/
  run : FilterChains F → Status × FilterChains F

/-- What is found of the code that names the init handler. -/
inductive InitCode
  /-- There is no `mgv_cv`, or it has no symbol. -/
  | none
  /-- The sub has no magic. -/
  | plain
  /-- The string of `PERL_MAGIC_ext`, if there is one. -/
  | magical (code : Option Bytes)

/-- What `modperl_mgv_resolve` comes to, before the init handler is resolved. -/
inductive MgvResolved
  | croaks (msg : Bytes)
  | fails
  | resolved (attrs : FilterAttrs)

/-- A handler made of a callback, and the Perl code behind it. -/
structure RuntimeHandler (F : Type*) where
  /-- `modperl_handler_name` -/
  name : Bytes
  /-- `modperl_mgv_as_string` of the package of `mgv_cv` -/
  package : Bytes
  mgvResolve : FilterChains F → MgvResolved × FilterChains F
  initCode : InitCode
  /-- `eval_pv`, which may croak, and `modperl_handler_new_from_sv` of its result -/
  evalPv : Bytes → FilterChains F → Except Bytes (Option (InitHandler F)) × FilterChains F

/-- `modperl_filter_resolve_init_handler`: its value, `handler->next`, and the chains. -/
def resolveInitHandler (handler : RuntimeHandler F) (chains : FilterChains F) :
    Except FilterCroak (Bool × Option (InitHandler F)) × FilterChains F :=
  match handler.initCode with
  | .plain => (.ok (false, none), chains)
  | .none | .magical none => (.ok (true, none), chains)
  | .magical (some pv) =>
      let code := ascii "package " ++ handler.package ++ ascii ";" ++ pv
      match handler.evalPv code chains with
      | (.error msg, chains) => (.error (.perl msg), chains)
      | (.ok none, chains) => (.error (.perl (ascii "failed to eval code: " ++ code)), chains)
      | (.ok (some init), chains) =>
          if init.attrs.initHandler then (.ok (true, some init), chains)
          else
            (.error (.perl (ascii "handler " ++ init.name ++
              ascii " doesn't have the FilterInitHandler attribute set")), chains)

/-- `modperl_mgv_resolve` with `MODPERL_MGV_DEEP_RESOLVE`: the attributes and `handler->next`, if
the handler was resolved. -/
def resolveFilter (handler : RuntimeHandler F) (chains : FilterChains F) :
    Except FilterCroak (Option (FilterAttrs × Option (InitHandler F))) × FilterChains F :=
  match handler.mgvResolve chains with
  | (.croaks msg, chains) => (.error (.perl msg), chains)
  | (.fails, chains) => (.ok none, chains)
  | (.resolved attrs, chains) =>
      if attrs.hasInitHandler then
        match resolveInitHandler handler chains with
        | (.error croak, chains) => (.error croak, chains)
        | (.ok (_, next), chains) => (.ok (some (attrs, next)), chains)
      else (.ok (some (attrs, none)), chains)

/-- The attributes are right for the chain: a filter of a connection needs its attribute, a
filter of a request needs it only if it has others. -/
def rightKind (request : Bool) (attrs : FilterAttrs) : Bool :=
  if request then attrs = .none || attrs.requestHandler else attrs.connectionHandler

/-- The message for a filter of the wrong kind. -/
def wrongKindMsg (request : Bool) (name : Bytes) : Bytes :=
  if request then
    ascii "Can't add request filter handler '" ++ name ++
      ascii "' since it doesn't have the FilterRequestHandler attribute set"
  else
    ascii "Can't add connection filter handler '" ++ name ++
      ascii "' since it doesn't have the FilterConnectionHandler attribute set"

/-- The function that the error of an init handler names. -/
def runtimeAddFunc : FilterMode → Bytes
  | .input => ascii "Apache2::Filter::add_input_filter"
  | .output => ascii "Apache2::Filter::add_output_filter"

/-- `modperl_filter_runtime_add`.  The callback is what `modperl_handler_new_from_sv` makes of
it, unless that croaks; `address` is how it is printed. -/
def runtimeAdd (httpd : AddFunc F) (mode : FilterMode) (request : Bool)
    (callback : Except Bytes (Option (RuntimeHandler F))) (address : Bytes)
    (chains : FilterChains F) : Except FilterCroak Unit × FilterChains F :=
  match callback with
  | .error msg => (.error (.perl msg), chains)
  | .ok none => (.error (.perl (ascii "unable to resolve handler 0x" ++ address ++ [10])), chains)
  | .ok (some handler) =>
      let name := if request then requestName mode else connectionName mode
      let chains := httpd.add name request chains
      match resolveFilter handler chains with
      | (.error croak, chains) => (.error croak, chains)
      | (.ok none, chains) =>
          (.error (.perl (ascii "unable to resolve handler " ++ handler.name ++ [10])), chains)
      | (.ok (some (attrs, next)), chains) =>
          if !rightKind request attrs then
            (.error (.perl (wrongKindMsg request handler.name)), chains)
          else
            match next with
            | some init =>
                let (status, chains) := init.run chains
                if status ≠ ok then (.error (.status status (runtimeAddFunc mode)), chains)
                else (.ok (), chains)
            | none => (.ok (), chains)

/-- The call is atomic: one filter was added, or it croaked and nothing has changed. -/
def AtomicAdd (chains : FilterChains F) (res : Except FilterCroak Unit × FilterChains F) : Prop :=
  match res with
  | (.ok (), chains') => AddedOne chains chains'
  | (.error _, chains') => chains' = chains

/-! ## What the callback does once the filter is in the chain -/

namespace RuntimeHandler

/-- The handler is accepted for these chains: it can be resolved, it is of the right kind, and
its init handler succeeds, if it has one. -/
def Accepted (handler : RuntimeHandler F) (request : Bool) (chains : FilterChains F) : Prop :=
  ∃ attrs next, (resolveFilter handler chains).1 = .ok (some (attrs, next)) ∧
    rightKind request attrs = true ∧
    ∀ init ∈ next, (init.run (resolveFilter handler chains).2).1 = ok

/-- What its Perl code leaves of the chains. -/
def leaves (handler : RuntimeHandler F) (request : Bool) (chains : FilterChains F) :
    FilterChains F :=
  match resolveFilter handler chains with
  | (.ok (some (attrs, some init)), chains') =>
      if rightKind request attrs then (init.run chains').2 else chains'
  | (_, chains') => chains'

/-- Its Perl code does not touch the chains. -/
structure Quiet (handler : RuntimeHandler F) : Prop where
  mgvResolve : ∀ chains, (handler.mgvResolve chains).2 = chains
  evalPv : ∀ code chains, (handler.evalPv code chains).2 = chains
  init : ∀ code chains init, (handler.evalPv code chains).1 = .ok (some init) →
    ∀ chains', (init.run chains').2 = chains'

end RuntimeHandler

open RuntimeHandler

variable {httpd : AddFunc F} {mode : FilterMode} {request : Bool} {handler : RuntimeHandler F}
  {address : Bytes} {chains : FilterChains F}

/-- The chains once the filter is in. -/
def added (httpd : AddFunc F) (mode : FilterMode) (request : Bool) (chains : FilterChains F) :
    FilterChains F :=
  httpd.add (if request then requestName mode else connectionName mode) request chains

/-- A call for a handler leaves the chains to the Perl code, which finds the new filter in
them. -/
theorem runtimeAdd_chains :
    (runtimeAdd httpd mode request (.ok (some handler)) address chains).2 =
      handler.leaves request (added httpd mode request chains) := by
  unfold runtimeAdd leaves added
  simp only
  split
  · next heq => rw [heq]
  · next heq => rw [heq]
  · next attrs next chains' heq =>
      rw [heq]
      cases next with
      | none => cases rightKind request attrs <;> rfl
      | some init =>
          cases hkind : rightKind request attrs with
          | false => simp [hkind]
          | true =>
              simp only [hkind, Bool.not_true, Bool.false_eq_true, if_false, if_true]
              split <;> rfl

/-- It returns if the handler is accepted, and croaks if not. -/
theorem runtimeAdd_ok_iff :
    (runtimeAdd httpd mode request (.ok (some handler)) address chains).1 = .ok () ↔
      handler.Accepted request (added httpd mode request chains) := by
  unfold runtimeAdd Accepted added
  simp only
  split
  · next heq => simp [heq]
  · next heq => simp [heq]
  · next attrs next chains' heq =>
      rw [heq]
      cases hkind : rightKind request attrs with
      | false =>
          refine iff_of_false nofun ?_
          rintro ⟨attrs', next', hres, hkind', -⟩
          cases hres
          rw [hkind] at hkind'
          cases hkind'
      | true =>
          cases next with
          | none => exact iff_of_true rfl ⟨attrs, none, rfl, hkind, fun _ hinit => nomatch hinit⟩
          | some init =>
              simp only [Bool.not_true, Bool.false_eq_true, if_false]
              split_ifs with hstatus
              · refine iff_of_false nofun ?_
                rintro ⟨attrs', next', hres, -, hinit⟩
                cases hres
                exact hstatus (hinit init rfl)
              · refine iff_of_true rfl ⟨attrs, some init, rfl, hkind, ?_⟩
                rintro _ ⟨⟩
                exact not_not.mp hstatus

theorem atomicAdd_iff {res : Except FilterCroak Unit × FilterChains F} :
    AtomicAdd chains res ↔
      res.1 = .ok () ∧ AddedOne chains res.2 ∨ ¬res.1 = .ok () ∧ res.2 = chains := by
  obtain ⟨⟨⟩ | ⟨⟨⟩⟩, chains'⟩ := res <;> simp [AtomicAdd]

theorem added_addedOne : AddedOne chains (added httpd mode request chains) :=
  httpd.addedOne _ _ _

/-- Adding a filter changes the chains. -/
theorem AddedOne.ne {chains' : FilterChains F} (h : AddedOne chains chains') :
    chains' ≠ chains := by
  rintro rfl
  obtain ⟨⟨before, f, after, hold, hnew⟩, -⟩ | ⟨⟨before, f, after, hold, hnew⟩, -⟩ := h <;>
  · have hlength := congrArg List.length (hold.symm.trans hnew)
    simp only [List.length_append, List.length_cons] at hlength
    omega

namespace RuntimeHandler.Quiet

variable (h : handler.Quiet)

include h

theorem resolveInitHandler_chains : (resolveInitHandler handler chains).2 = chains := by
  unfold resolveInitHandler
  split
  · rfl
  · rfl
  · rfl
  · next pv _ =>
      have hchains := h.evalPv (ascii "package " ++ handler.package ++ ascii ";" ++ pv) chains
      simp only
      split
      · next heq => rwa [heq] at hchains
      · next heq => rwa [heq] at hchains
      · next heq =>
          rw [heq] at hchains
          split <;> exact hchains

/-- The init handler comes from evaluated code, and is quiet as well. -/
theorem init_of_resolved {found : Bool} {init : InitHandler F} {chains' : FilterChains F}
    (hres : resolveInitHandler handler chains = (.ok (found, some init), chains')) :
    ∀ chains'', (init.run chains'').2 = chains'' := by
  unfold resolveInitHandler at hres
  split at hres
  · cases hres
  · cases hres
  · cases hres
  · next pv _ =>
      simp only at hres
      split at hres
      · cases hres
      · cases hres
      · next heq =>
          split_ifs at hres
          · cases hres
            exact h.init _ _ _ (congrArg Prod.fst heq)
          · cases hres

theorem resolveFilter_chains : (resolveFilter handler chains).2 = chains := by
  have hchains := h.mgvResolve chains
  unfold resolveFilter
  split
  · next heq => rwa [heq] at hchains
  · next heq => rwa [heq] at hchains
  · next attrs chains' heq =>
      rw [heq] at hchains
      have hinit : (resolveInitHandler handler chains').2 = chains' := h.resolveInitHandler_chains
      split_ifs
      · split
        · next heq' => exact (heq' ▸ hinit).trans hchains
        · next heq' => exact (heq' ▸ hinit).trans hchains
      · exact hchains

theorem init_of_resolveFilter {attrs : FilterAttrs} {init : InitHandler F}
    {chains' : FilterChains F}
    (hres : resolveFilter handler chains = (.ok (some (attrs, some init)), chains')) :
    ∀ chains'', (init.run chains'').2 = chains'' := by
  unfold resolveFilter at hres
  split at hres
  · cases hres
  · cases hres
  · split_ifs at hres
    · split at hres
      · cases hres
      · next heq =>
          cases hres
          exact h.init_of_resolved heq
    · cases hres

/-- Quiet code leaves the chains as it finds them. -/
theorem leaves_eq : handler.leaves request chains = chains := by
  have hchains : (resolveFilter handler chains).2 = chains := h.resolveFilter_chains
  unfold leaves
  split
  · next heq =>
      rw [heq] at hchains
      split_ifs
      · rw [h.init_of_resolveFilter heq]
        exact hchains
      · exact hchains
  · next heq =>
      rw [heq] at hchains
      exact hchains

end RuntimeHandler.Quiet

/-- The call is atomic exactly if there is no handler to add, or the callback is accepted and its
code keeps one filter, or it is not and its code has taken the filter out again. -/
def Harmless (httpd : AddFunc F) (mode : FilterMode) (request : Bool)
    (callback : Except Bytes (Option (RuntimeHandler F))) (chains : FilterChains F) : Prop :=
  match callback with
  | .error _ | .ok none => True
  | .ok (some handler) =>
      let chains' := added httpd mode request chains
      handler.Accepted request chains' ∧ AddedOne chains (handler.leaves request chains') ∨
        ¬handler.Accepted request chains' ∧ handler.leaves request chains' = chains

/-- A call is atomic exactly if its callback is harmless; where the Perl code of the callback
leaves the chains alone, exactly if the callback is accepted. -/
theorem runtimeAdd_atomic_iff (httpd : AddFunc F) (mode : FilterMode) (request : Bool)
    (callback : Except Bytes (Option (RuntimeHandler F))) (address : Bytes)
    (chains : FilterChains F) :
    (AtomicAdd chains (runtimeAdd httpd mode request callback address chains) ↔
      Harmless httpd mode request callback chains) ∧
    ∀ handler, callback = .ok (some handler) → handler.Quiet →
      (Harmless httpd mode request callback chains ↔
        handler.Accepted request (added httpd mode request chains)) := by
  constructor
  · match callback with
    | .error msg => exact iff_of_true rfl trivial
    | .ok none => exact iff_of_true rfl trivial
    | .ok (some handler) =>
        rw [atomicAdd_iff, runtimeAdd_chains, runtimeAdd_ok_iff]
        rfl
  · rintro handler rfl hquiet
    rw [Harmless]
    simp only [hquiet.leaves_eq]
    exact ⟨fun h => h.elim And.left fun h => absurd h.2 added_addedOne.ne,
      fun h => .inl ⟨h, added_addedOne⟩⟩

/-- Filters are put in front of the others. -/
def frontAdd : AddFunc Bytes where
  add := fun name request chains =>
    if request then { chains with request := name :: chains.request }
    else { chains with connection := name :: chains.connection }
  addedOne := fun name request chains => by
    cases request with
    | true => exact .inl ⟨⟨[], name, chains.request, rfl, rfl⟩, rfl⟩
    | false => exact .inr ⟨⟨[], name, chains.connection, rfl, rfl⟩, rfl⟩

/-- A sub that is not there. -/
def unresolvable : RuntimeHandler Bytes where
  name := ascii "My::missing"
  package := []
  mgvResolve := fun chains => (.fails, chains)
  initCode := .none
  evalPv := fun _ chains => (.ok none, chains)

/-- `$r->add_output_filter("My::missing")` croaks, and the filter is in the chain. -/
theorem runtimeAdd_atomic_fails :
    ¬∀ (httpd : AddFunc Bytes) (mode : FilterMode) (request : Bool)
      (callback : Except Bytes (Option (RuntimeHandler Bytes))) (address : Bytes)
      (chains : FilterChains Bytes),
      AtomicAdd chains (runtimeAdd httpd mode request callback address chains) := by
  intro hall
  have hatomic := hall frontAdd .output true (.ok (some unresolvable)) [] ⟨[], []⟩
  have hchains : (runtimeAdd frontAdd .output true (.ok (some unresolvable)) [] ⟨[], []⟩).2 =
      ⟨[], []⟩ := hatomic
  exact absurd (congrArg FilterChains.request hchains) (by decide)

end ModPerl
