import ModPerl.Env.Populate
import ModPerl.Library.Machine

/-!
# `%ENV` from request to request

One interpreter serves one request after the other.  What `mod_perl` stores in
`%ENV` for a request comes from the table of the directory, when the first
handlers of a directory phase run, and from `r->subprocess_env`, when that is
populated.  What it takes out again are the keys that `r->subprocess_env` has
when the request is cleaned up, and only if `r->subprocess_env` was populated.
The two sets of keys have no reason to be the same.
-/

namespace ModPerl

open Machine

/-- What has become of the request that the interpreter serves. -/
inductive ReqPhase
  | idle
  | serving
  | cleaned
  deriving DecidableEq

/-- An interpreter and the request that it serves, or served last. -/
structure EnvServing where
  /-- `%ENV`, and of the request what is about it. -/
  req : EnvReq
  tables : EnvTables
  /-- What was stored in `%ENV` for the request, from the table of the directory and from
  `r->subprocess_env`. -/
  stored : List (Bytes × Bytes)
  /-- `rcfg->perl_globals.env.orighv`, while a `perl-script` handler runs on a copy. -/
  orighv : Option EnvHash
  phase : ReqPhase
  deriving DecidableEq

/-- What happens while requests are served. -/
inductive EnvAction
  /-- The next request, with its configuration and the `subprocess_env` that it starts
  with. -/
  | create (tables : EnvTables) (subprocessEnv : AprTable)
  /-- `modperl_callback_run_handlers`, for a phase of a server or of a directory. -/
  | runHandlers (perDir : Bool)
  /-- `modperl_env_request_populate`, for `SetupEnv` or `$r->subprocess_env`. -/
  | populate
  /-- `apr_table_set` by a handler, and so on. -/
  | tableSet (key val : Bytes)
  | tableAdd (key val : Bytes)
  | tableUnset (key : Bytes)
  | tableClear
  /-- `$ENV{key} = val` by a handler. -/
  | envSet (key val : Bytes)
  /-- `delete $ENV{key}` by a handler. -/
  | envDelete (key : Bytes)
  /-- `modperl_perl_global_request_save`, after which `%ENV` is tied to the request. -/
  | globalSave
  /-- `modperl_perl_global_request_restore` -/
  | globalRestore
  /-- `modperl_config_request_cleanup`, once its handlers have run. -/
  | cleanup
  deriving DecidableEq

namespace EnvServing

open Env

/-- An interpreter before its first request. -/
def idle (hv : EnvHash) : EnvServing :=
  ⟨⟨hv, [], false, false, false⟩, ⟨[], [], []⟩, [], none, .idle⟩

/-- A handler leaves another `r->subprocess_env`. -/
def withTable (s : EnvServing) (table : AprTable) : EnvServing :=
  { s with req := { s.req with subprocessEnv := table } }

/-- What `modperl_callback_run_handlers` does before it calls the handlers. -/
def runHandlers (httpd : EnvHttpd) (perDir : Bool) (s : EnvServing) : EnvServing :=
  let req := if s.req.perlSetEnvSrv then s.req else configureRequestSrv s.tables s.req
  if perDir ∧ ¬req.perlSetEnvDir then
    { s with
      req := configureRequestDir httpd s.tables req
      stored := s.stored ++ s.tables.dirSetEnv }
  else { s with req := req }

/-- `modperl_env_request_populate` -/
def populate (httpd : EnvHttpd) (s : EnvServing) : EnvServing :=
  let req := requestPopulate httpd s.req
  { s with req := req, stored := s.stored ++ req.subprocessEnv }

/-- `modperl_env_magic_set`: while `%ENV` is tied the table is set as well. -/
def envSet (key val : Bytes) (s : EnvServing) : EnvServing :=
  let table := s.req.subprocessEnv
  { s with
    req := { s.req with
      env := hvStore s.req.env key val
      subprocessEnv := if s.orighv.isSome then Table.set caseless table key val else table } }

/-- `modperl_env_magic_clear` -/
def envDelete (key : Bytes) (s : EnvServing) : EnvServing :=
  let table := s.req.subprocessEnv
  { s with
    req := { s.req with
      env := hvDelete s.req.env key
      subprocessEnv := if s.orighv.isSome then Table.unset caseless table key else table } }

/-- `modperl_config_request_cleanup`, after `modperl_callback_per_dir`. -/
def requestCleanup (s : EnvServing) : EnvServing :=
  { s with
    req := if s.req.setupEnv then requestUnpopulate s.req else s.req
    phase := .cleaned }

/-- What happens while the request is served. -/
def act (httpd : EnvHttpd) (s : EnvServing) : EnvAction → Option EnvServing
  | .create _ _ => none
  | .runHandlers perDir => some (s.runHandlers httpd perDir)
  | .populate => some (s.populate httpd)
  | .tableSet key val => some (s.withTable (Table.set caseless s.req.subprocessEnv key val))
  | .tableAdd key val => some (s.withTable (Table.add s.req.subprocessEnv key val))
  | .tableUnset key => some (s.withTable (Table.unset caseless s.req.subprocessEnv key))
  | .tableClear => some (s.withTable [])
  | .envSet key val => some (s.envSet key val)
  | .envDelete key => some (s.envDelete key)
  | .globalSave => if s.orighv.isSome then none else some { s with orighv := some s.req.env }
  | .globalRestore =>
      s.orighv.map fun hv => { s with req := { s.req with env := hv }, orighv := none }
  | .cleanup => if s.orighv.isSome then none else some s.requestCleanup

/-- One step: the next request is created when there is no other. -/
def step (httpd : EnvHttpd) (s : EnvServing) : EnvAction → Option EnvServing
  | .create tables table =>
      if s.phase = .serving then none
      else some ⟨⟨s.req.env, table, false, false, false⟩, tables, [], none, .serving⟩
  | a => if s.phase = .serving then s.act httpd a else none

/-- Once the request is cleaned up, nothing that was stored for it is left with its value,
but for what the tables of the server say as well. -/
def NoLeak (s : EnvServing) : Prop :=
  s.phase = .cleaned → ∀ e ∈ s.stored, fetch s.req.env e.1 = some e.2 →
    e ∈ s.tables.srvSetEnv ++ s.tables.srvPassEnv

instance : DecidablePred NoLeak := fun s =>
  inferInstanceAs (Decidable (s.phase = .cleaned → ∀ e ∈ s.stored, _))

/-- The cleanup takes out what is still there of the request: `r->subprocess_env` was
populated, and still has the key, in this spelling. -/
def TakesOut (s : EnvServing) (a : EnvAction) : Prop :=
  a = .cleanup → ∀ e ∈ s.stored, fetch s.req.env e.1 = some e.2 →
    e ∈ s.tables.srvSetEnv ++ s.tables.srvPassEnv ∨
      s.req.setupEnv = true ∧ e.1 ∈ s.req.subprocessEnv.map Prod.fst

instance : DecidableRel TakesOut := fun s a =>
  inferInstanceAs (Decidable (a = .cleanup → ∀ e ∈ s.stored, _))

variable {httpd : EnvHttpd} {s s' : EnvServing} {k : Bytes}

theorem step_cleanup (h : step httpd s .cleanup = some s') : s' = s.requestCleanup := by
  simp only [step, act] at h
  split_ifs at h with hphase htied
  exact (Option.some.inj h).symm

/-- Only a cleanup leaves a request that is cleaned up. -/
theorem step_phase {a : EnvAction} (h : step httpd s a = some s') (hne : a ≠ .cleanup) :
    s'.phase = .serving := by
  cases a with
  | create tables table =>
      simp only [step] at h
      split_ifs at h
      exact Option.some.inj h ▸ rfl
  | cleanup => exact absurd rfl hne
  | globalSave =>
      simp only [step, act] at h
      split_ifs at h with hphase htied
      exact Option.some.inj h ▸ hphase
  | globalRestore =>
      simp only [step, act] at h
      split_ifs at h with hphase
      obtain ⟨hv, -, rfl⟩ := Option.map_eq_some_iff.mp h
      exact hphase
  | runHandlers perDir =>
      simp only [step, act] at h
      split_ifs at h with hphase
      rw [← Option.some.inj h, EnvServing.runHandlers]
      split_ifs <;> exact hphase
  | populate | tableSet | tableAdd | tableUnset | tableClear | envSet | envDelete =>
      simp only [step, act] at h
      split_ifs at h with hphase
      exact Option.some.inj h ▸ hphase

theorem fetch_requestCleanup :
    fetch s.requestCleanup.req.env k =
      if s.req.setupEnv = true ∧ k ∈ s.req.subprocessEnv.map Prod.fst then none
      else fetch s.req.env k := by
  unfold requestCleanup requestUnpopulate
  cases hflag : s.req.setupEnv with
  | false => simp
  | true => simp only [not_true_eq_false, if_false, if_true, fetch_tableUnpopulate, has_id_iff,
      true_and]

/-- A cleanup leaves nothing of its request exactly if it takes all of it out. -/
theorem noLeak_requestCleanup : NoLeak s.requestCleanup ↔ TakesOut s .cleanup := by
  have hstored : s.requestCleanup.stored = s.stored := rfl
  have htables : s.requestCleanup.tables = s.tables := rfl
  have hphase : s.requestCleanup.phase = .cleaned := rfl
  unfold NoLeak TakesOut
  simp only [hstored, htables, hphase, fetch_requestCleanup, forall_const]
  refine forall₂_congr fun e _ => ?_
  by_cases hout : s.req.setupEnv = true ∧ e.1 ∈ s.req.subprocessEnv.map Prod.fst
  · rw [if_pos hout]
    exact ⟨fun _ _ => .inr hout, fun _ hnone => nomatch hnone⟩
  · rw [if_neg hout, or_iff_left hout]

end EnvServing

open Env EnvServing

/-- No variable of a request is left in `%ENV`, in every run in which each cleanup takes
out what is still there of its request; and each cleanup that does not leaves something. -/
theorem env_no_leak (httpd : EnvHttpd) (hv : EnvHash) :
    (∀ s, Reachable (step httpd) TakesOut (idle hv) s → NoLeak s) ∧
      ∀ s s', Reachable (step httpd) Always (idle hv) s → step httpd s .cleanup = some s' →
        (NoLeak s' ↔ TakesOut s .cleanup) := by
  constructor
  · intro s hreach
    refine hreach.invariant (I := NoLeak) ?_ ?_
    · intro hphase
      cases hphase
    · intro s a s' _ _ hok hs
      by_cases hcleanup : a = .cleanup
      · subst hcleanup
        rw [step_cleanup hs]
        exact noLeak_requestCleanup.mpr hok
      · intro hphase
        rw [step_phase hs hcleanup] at hphase
        cases hphase
  · intro s s' _ hs
    rw [step_cleanup hs]
    exact noLeak_requestCleanup

/-- With `SetupEnv` the variable of a directory is gone after the request. -/
theorem env_clean_with_setup :
    ∃ s, Reachable (step gatewayHttpd) TakesOut (idle []) s ∧ s.phase = .cleaned ∧
      s.stored ≠ [] ∧ NoLeak s := by
  obtain ⟨s, hs, hphase, hstored⟩ :
      ∃ s, Reachable (step gatewayHttpd) TakesOut (idle []) s ∧ s.phase = .cleaned ∧
        s.stored ≠ [] :=
    Reachable.exists_of_run
      (show runOk _ _ _ [.create ⟨[], [], [(ascii "FOO", ascii "bar")]⟩ [], .runHandlers true,
        .populate, .cleanup] by decide +kernel)
      (by decide +kernel)
  exact ⟨s, hs, hphase, hstored, (env_no_leak gatewayHttpd []).1 s hs⟩

/-- A directory sets a variable, and nothing populates `r->subprocess_env`: the next
request finds the variable in `%ENV`. -/
theorem env_leaks_without_setup :
    ∃ s, Reachable (step gatewayHttpd) Always (idle []) s ∧ ¬NoLeak s :=
  Reachable.exists_of_run
    (show runOk _ _ _ [.create ⟨[], [], [(ascii "FOO", ascii "bar")]⟩ [], .runHandlers true,
      .cleanup] by decide +kernel)
    (by decide +kernel)

end ModPerl
