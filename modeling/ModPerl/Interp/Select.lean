import ModPerl.Interp.State

/-!
# `modperl_interp_select`

The function and what its callers do with the result.  The pools that it
consults are computed first (`consulted`), in the order in which the code looks
into them, together with the pool it would keep a new interpreter in.

`select_cases` says everything that a call can do; the invariants of the
machine are derived from it.
-/

namespace ModPerl

/-- The scope in force; `dcfg` is the scope of the directory configuration that
is attached to the request at the time of the call. -/
def Site.scope (site : Site) (r : Option ReqId) (srv : ServerId) (dcfg : InterpScope) :
    InterpScope :=
  match r with
  | some _ => if dcfg ≠ .undef then dcfg else site.interpScope srv
  | none => .connection

/-- The request pools that are searched: those of the main requests for a
sub-request under request scope, and the request's own otherwise. -/
def Site.requestPools (site : Site) (r : ReqId) (scope : InterpScope) : List PoolId :=
  if site.isSubrequest r ∧ scope = .request then (site.mains r).map .req else [.req r]

/-- The pools that are searched for an interpreter, and the pool `p` that is left
at the end of the search. -/
def Site.consulted (site : Site) (r : Option ReqId) (c : Option ConnId) (scope : InterpScope) :
    List PoolId × Option PoolId :=
  match c, r with
  | some c, r =>
      if scope = .connection then ([.conn c], some (.conn c))
      else
        match r with
        | some r => (site.requestPools r scope ++ [.conn (site.connection r)],
            (site.requestPools r scope).getLast?)
        | none => ([], none)
  -- the connection pool "might have already been set by a ConnectionHandler"
  | none, some r => (site.requestPools r scope ++ [.conn (site.connection r)],
      (site.requestPools r scope).getLast?)
  | none, none => ([], none)

namespace State

variable (site : Site) (s : State)

/-- The first of the pools that has an interpreter. -/
def firstKept : List PoolId → Option (PoolId × InterpId)
  | [] => none
  | p :: ps =>
      match s.userdata p with
      | some i => some (p, i)
      | none => firstKept ps

/-- `modperl_interp_get` -/
def interpGet (m : MipId) : Option (State × InterpId) := do
  let (i, tipool) ← (s.tipool m).pop (site.interpPoolCfg m) ⟨m, s.next m⟩
  let s := { s with
    tipool := Function.update s.tipool m tipool
    next := Function.update s.next m (s.next m + 1) }
  some (s.setInterp i fun x => { x with inUse := true }, i)

/-- `set_interp` -/
def keepInterp (p : PoolId) (i : InterpId) : State :=
  { s with
    userdata := Function.update s.userdata p (some i)
    cleanups := (p, .unselect i) :: s.cleanups }

/-- `modperl_interp_select`; `none` while `modperl_tipool_pop` has to wait. -/
def select (r : Option ReqId) (c : Option ConnId) (srv : ServerId) (dcfg : InterpScope) :
    Option (State × InterpId × Source) :=
  match r.bind fun r => (s.rcfg r).interp with
  | some i => some (s, i, .rcfg)
  | none =>
      let scope := site.scope r srv dcfg
      let (pools, p) := site.consulted r c scope
      match s.firstKept pools with
      | some (p, i) => some (s, i, .found p)
      | none => do
          let (s, i) ← s.interpGet site (site.mip srv)
          let s := s.setInterp i fun x => { x with numRequests := x.numRequests + 1 }
          if scope = .handler then
            let s := s.setInterp i fun x => { x with request := r }
            let s := r.elim s fun r => s.setRcfg r fun x => { x with cleanupRegistered := true }
            let s := s.setInterp i fun x => { x with putback := true, thx := true }
            some (s, i, .popped none)
          else
            let p ← p
            let s := s.keepInterp p i
            some (s.setInterp i fun x => { x with thx := true }, i, .popped (some p))

/-- `modperl_config_req_cleanup_register` -/
def cleanupRegister (r : Option ReqId) : State :=
  match r with
  | none => s
  | some r =>
      if (s.rcfg r).cleanupRegistered then s
      else { s with subpools := r :: s.subpools }.setRcfg r
        fun x => { x with cleanupRegistered := true }

/-- The connection that the caller passes.  `modperl_callback_run_handlers` gets
none for a request, and sets it if the scope of the server is connection. -/
def connArg (caller : Caller) (c : ConnId) (r : Option ReqId) : Option ConnId :=
  match r with
  | none => some c
  | some r =>
      if caller = .handlers ∨ caller = .cleanup then
        if site.interpScope (site.server r) = .connection then some (site.connection r) else none
      else some (site.connection r)

/-- What the caller does once it has an interpreter, up to the Perl code that it runs. -/
def begin (caller : Caller) (r : Option ReqId) (i : InterpId) : State :=
  match caller, r with
  | .handlers, r => s.cleanupRegister r
  | .cleanup, r => s.cleanupRegister r
  | .responseHandler, some r =>
      if (s.interp i).putback then s.setRcfg r fun x => { x with interp := some i } else s
  | .responseHandlerCgi, some r =>
      if (s.interp i).putback then s.setRcfg r fun x => { x with interp := some i } else s
  | _, _ => s

/-- A caller of `modperl_interp_select` in thread `c`, for the request or for the connection. -/
def enter (caller : Caller) (c : ConnId) (r : Option ReqId) (dcfg : InterpScope) :
    Option State := do
  let (s, i, source) ← s.select site r (connArg site caller c r) (site.serverOf c r) dcfg
  some (((s.record (.select caller r c i source)).begin caller r i).push c
    (.selected caller r i source))

end State

end ModPerl
