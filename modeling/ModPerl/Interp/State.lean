import ModPerl.Tipool.ItemPool

/-!
# Interpreters, requests and pools

The data that `modperl_interp_select` and `modperl_interp_unselect` work on
under a threaded MPM: the interpreters of every pool, the request and connection
records with their APR pools, what mod_perl keeps in these pools, and for each
connection the stack of calls that hold an interpreter.

A connection is served by one thread, so connections stand for threads.  What
the configuration and the requests look like (`Site`) does not change during a
run.  The state also carries a history (`State.log`) that no function reads.
-/

namespace ModPerl

abbrev ConnId := ℕ

/-- A `request_rec`. -/
abbrev ReqId := ℕ

/-- A `server_rec`. -/
abbrev ServerId := ℕ

/-- A `modperl_interp_pool_t`. -/
abbrev MipId := ℕ

/-- `modperl_interp_scope_e` -/
inductive InterpScope where
  | undef
  | handler
  | subrequest
  | request
  | connection
  deriving DecidableEq

/-- A `modperl_interp_t`, named by its pool (`interp->mip`) and a number that is
not used again after the interpreter is destroyed. -/
structure InterpId where
  mip : MipId
  serial : ℕ
  deriving DecidableEq

/-- An `apr_pool_t`: the pool of a connection or a request, or one that
`APR::Pool->new` created below another pool. -/
inductive PoolId where
  | conn (c : ConnId)
  | req (r : ReqId)
  | custom (parent : PoolId) (serial : ℕ)
  deriving DecidableEq

/-- The configuration, and the requests with their connections. -/
structure Site where
  /-- `scfg->mip` -/
  mip : ServerId → MipId
  /-- `scfg->interp_scope` -/
  interpScope : ServerId → InterpScope
  /-- `MpSrvENABLE` -/
  enable : ServerId → Bool
  /-- `scfg->interp_pool_cfg` -/
  interpPoolCfg : MipId → TipoolConfig
  /-- `c->base_server` -/
  baseServer : ConnId → ServerId
  /-- `r->connection` -/
  connection : ReqId → ConnId
  /-- `r->server` -/
  server : ReqId → ServerId
  /-- `r->main`, `r->main->main` and so on, for a sub-request. -/
  mains : ReqId → List ReqId
  mains_tail : ∀ r m rest, mains r = m :: rest → mains m = rest
  /-- `make_sub_request` of the server core copies both from the main request. -/
  mains_connection : ∀ r, ∀ m ∈ mains r, connection m = connection r
  mains_server : ∀ r, ∀ m ∈ mains r, server m = server r

namespace Site

variable (site : Site)

/-- The pools that contain a pool, from its parent upwards. -/
def above : PoolId → List PoolId
  | .conn _ => []
  | .req r => (site.mains r).map .req ++ [.conn (site.connection r)]
  | .custom parent _ => parent :: above parent

/-- The connection whose thread works with the pool. -/
def thread : PoolId → ConnId
  | .conn c => c
  | .req r => site.connection r
  | .custom parent _ => thread parent

/-- The pools in which an interpreter for the request, or for the connection
itself, may be kept: its own and those that contain it. -/
def chain (c : ConnId) : Option ReqId → List PoolId
  | none => [.conn c]
  | some r => .req r :: site.above (.req r)

/-- The server that a phase of the request, or of the connection itself, runs for. -/
def serverOf (c : ConnId) : Option ReqId → ServerId
  | none => site.baseServer c
  | some r => site.server r

theorem mains_tail_nil : ∀ (_ m : ReqId) (rest : List ReqId), [] = m :: rest → [] = rest := by
  simp

/-- Servers that share one pool of interpreters, and requests without sub-requests. -/
def shared (scope : InterpScope) (cfg : TipoolConfig) (connection : ReqId → ConnId) : Site where
  mip _ := 0
  interpScope _ := scope
  enable _ := true
  interpPoolCfg _ := cfg
  baseServer _ := 0
  connection := connection
  server _ := 0
  mains _ := []
  mains_tail := mains_tail_nil
  mains_connection := by simp
  mains_server := by simp

/-- `r->main != NULL` -/
def isSubrequest (r : ReqId) : Bool := !(site.mains r).isEmpty

end Site

/-- The parts of `modperl_interp_t` that change. -/
structure Interp where
  numRequests : ℤ
  /-- `MpInterpIN_USE` -/
  inUse : Bool
  /-- `MpInterpPUTBACK` -/
  putback : Bool
  request : Option ReqId
  refcnt : ℕ
  /-- `modperl_thx_interp_get(interp->perl)` is the interpreter, not `NULL`. -/
  thx : Bool
  deriving DecidableEq

/-- `modperl_interp_new` -/
def Interp.new : Interp where
  numRequests := 0
  inUse := false
  putback := false
  request := none
  refcnt := 0
  thx := false

/-- A `pnotes` hash: the interpreter whose heap it lives in, and for the history
the pool in which that interpreter was kept. -/
structure Pnotes where
  perl : InterpId
  kept : Option PoolId
  deriving DecidableEq

/-- `modperl_config_req_t` -/
structure ReqConfig where
  interp : Option InterpId
  /-- `MpReqCLEANUP_REGISTERED` -/
  cleanupRegistered : Bool
  pnotes : Option Pnotes
  deriving DecidableEq

/-- `modperl_config_req_new` -/
def ReqConfig.new : ReqConfig := ⟨none, false, none⟩

/-- A cleanup registered on a pool. -/
inductive Cleanup where
  /-- `modperl_interp_unselect`, by `apr_pool_userdata_set` in `set_interp` -/
  | unselect (i : InterpId)
  /-- `modperl_cleanup_pnotes` -/
  | pnotes (r : ReqId) (perl : InterpId)
  /-- `mpxs_apr_pool_cleanup` -/
  | apool (perl : InterpId) (interp : Option InterpId)
  /-- `mpxs_cleanup_run` -/
  | perl (perl : InterpId) (interp : Option InterpId)
  deriving DecidableEq

/-- The life of a pool. -/
inductive PoolStatus where
  | unborn
  | live
  /-- `apr_pool_destroy` destroys its subpools … -/
  | ending
  /-- … and then runs its own cleanups. -/
  | cleaning
  /-- `apr_pool_clear`, called from Perl code. -/
  | clearing
  | ended
  deriving DecidableEq

/-- Where `modperl_interp_select` got the interpreter: from `rcfg->interp`, from
a pool, or from the tipool.  A popped interpreter is kept in a pool, or under
handler scope in none. -/
inductive Source where
  | rcfg
  | found (p : PoolId)
  | popped (kept : Option PoolId)
  deriving DecidableEq

/-- The callers of `modperl_interp_select`. -/
inductive Caller where
  /-- `modperl_callback_run_handlers` -/
  | handlers
  /-- the same for `MP_CLEANUP_HANDLER` -/
  | cleanup
  /-- `modperl_run_filter`, `modperl_run_filter_init` -/
  | filter
  | responseHandler
  | responseHandlerCgi
  /-- `modperl_config_req_cleanup`, through `MP_dTHX` -/
  | reqCleanup
  deriving DecidableEq

/-- A call that has an interpreter. -/
inductive Frame where
  /-- between `modperl_interp_select` and the end of its caller -/
  | selected (caller : Caller) (r : Option ReqId) (i : InterpId) (source : Source)
  /-- `modperl_interp_unselect` around `modperl_config_request_cleanup(r)`, before
  or after that call; it was called by the destruction of `p`, if that is not
  `none`, and `reset` is set by `modperl_response_handler_cgi`, which clears
  `rcfg->interp` when it is back -/
  | unselect (i : InterpId) (r : ReqId) (p : Option PoolId) (reset : Option ReqId) (called : Bool)
  /-- `modperl_config_req_cleanup` after its `modperl_config_request_cleanup(r)` -/
  | reqCleanupDone (r : ReqId) (i : InterpId) (source : Source)
  /-- `mpxs_cleanup_run`, for a cleanup of `p`, while the Perl code runs -/
  | perlCleanup (p : PoolId) (perl : InterpId) (interp : Option InterpId)
  deriving DecidableEq

/-- The history. -/
inductive Event where
  /-- a return of `modperl_interp_select` -/
  | select (caller : Caller) (r : Option ReqId) (c : ConnId) (i : InterpId) (source : Source)
  /-- `modperl_tipool_putback_data`, at the destruction of a pool or not -/
  | putback (i : InterpId) (p : Option PoolId)
  /-- a call of `modperl_config_request_cleanup` -/
  | requestCleanup (r : ReqId)
  deriving DecidableEq

/-- The state of a child process. -/
structure State where
  /-- `mip->tipool` -/
  tipool : MipId → ItemPool InterpId
  /-- the number of the next new interpreter -/
  next : MipId → ℕ
  interp : InterpId → Interp
  rcfg : ReqId → ReqConfig
  /-- `MP_INTERP_KEY` in the user data of a pool -/
  userdata : PoolId → Option InterpId
  /-- the cleanups of all pools, the newest first -/
  cleanups : List (PoolId × Cleanup)
  /-- the subpools made by `modperl_config_req_cleanup_register`, by their request -/
  subpools : List ReqId
  status : PoolId → PoolStatus
  /-- all pools that have been created -/
  pools : List PoolId
  /-- the calls of all threads, the innermost first -/
  frames : List (ConnId × Frame)
  /-- interpreters that `modperl_config_req_cleanup` popped under handler scope:
  it does not put them back -/
  leaked : List InterpId
  log : List Event

/-- After `modperl_init_clones`. -/
def State.start (site : Site) : State where
  tipool m := ⟨(List.range (site.interpPoolCfg m).start.toNat).map fun k => ⟨m, k⟩, []⟩
  next m := (site.interpPoolCfg m).start.toNat
  interp _ := .new
  rcfg _ := .new
  userdata _ := none
  cleanups := []
  subpools := []
  status _ := .unborn
  pools := []
  frames := []
  leaked := []
  log := []

namespace State

variable (s : State)

/-- The interpreter is on the busy list of its pool. -/
def Busy (i : InterpId) : Prop := i ∈ (s.tipool i.mip).busy

instance (i : InterpId) : Decidable (s.Busy i) := inferInstanceAs (Decidable (_ ∈ _))

def setInterp (i : InterpId) (f : Interp → Interp) : State :=
  { s with interp := Function.update s.interp i (f (s.interp i)) }

def setRcfg (r : ReqId) (f : ReqConfig → ReqConfig) : State :=
  { s with rcfg := Function.update s.rcfg r (f (s.rcfg r)) }

def setStatus (p : PoolId) (st : PoolStatus) : State :=
  { s with status := Function.update s.status p st }

/-- The innermost call of a thread. -/
def top (c : ConnId) : Option Frame := (s.frames.find? (·.1 = c)).map Prod.snd

/-- The innermost call of a thread returns. -/
def pop (c : ConnId) : State := { s with frames := s.frames.eraseP (·.1 = c) }

def push (c : ConnId) (f : Frame) : State := { s with frames := (c, f) :: s.frames }

def record (e : Event) : State := { s with log := e :: s.log }

end State

end ModPerl
