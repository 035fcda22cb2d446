import ModPerl.Interp.Select
import ModPerl.Library.Machine

/-!
# The machine

A run of a child process: connections and requests come and go, their threads
call `modperl_interp_select` in any phase and in any order, run Perl code that
creates APR pools, and return; pools are destroyed, subpools first and then
their own cleanups, the newest first.  An action is one step of one thread.
What is shared with other threads changes in one place of each step, the
critical section of the tipool.

A step fails where the server core would not make it, and where a pop has to wait.
-/

namespace ModPerl

/-- The pools that a call needs: those in which an interpreter for its request
or connection may be kept, and the one whose destruction has called it. -/
def Frame.chain (site : Site) (c : ConnId) : Frame → List PoolId
  | .selected _ r _ _ => site.chain c r
  | .unselect _ r p _ _ => site.chain c (some r) ++ (p.elim [] fun p => p :: site.above p)
  | .reqCleanupDone r _ _ => site.chain c (some r)
  | .perlCleanup p _ _ => p :: site.above p

/-- The interpreter whose Perl code the call runs. -/
def Frame.perl : Frame → Option InterpId
  | .selected .handlers _ i _ => some i
  | .selected .cleanup _ i _ => some i
  | .selected .filter _ i _ => some i
  | .perlCleanup _ i _ => some i
  | _ => none

namespace State

variable (site : Site) (s : State)

/-! ## `modperl_interp_unselect` -/

/-- The end of `modperl_interp_unselect`.  `modperl_tipool_putback_data` does
nothing if the interpreter is not on the busy list. -/
def putback (i : InterpId) (p : Option PoolId) : State :=
  let s := s.setInterp i fun x => { x with inUse := false, putback := false, thx := false }
  if s.Busy i then
    { s with
      tipool := Function.update s.tipool i.mip ((s.tipool i.mip).putback
        (site.interpPoolCfg i.mip) (s.interp i).numRequests ⟨i.mip, s.next i.mip⟩ i)
      next := Function.update s.next i.mip (s.next i.mip + 1)
      log := .putback i p :: s.log }
  else s

/-- `rcfg->interp = NULL` at the end of `modperl_response_handler_cgi` -/
def resetRcfg : Option ReqId → State
  | none => s
  | some r => s.setRcfg r fun x => { x with interp := none }

/-- `modperl_interp_unselect` in thread `c`, up to its call of
`modperl_config_request_cleanup` if it makes one. -/
def unselect (c : ConnId) (i : InterpId) (p : Option PoolId) (reset : Option ReqId) : State :=
  if (s.interp i).refcnt ≠ 0 then
    (s.setInterp i fun x => { x with refcnt := x.refcnt - 1 }).resetRcfg reset
  else
    match (s.interp i).request with
    | none => (s.putback site i p).resetRcfg reset
    | some r => s.push c (.unselect i r p reset false)

/-! ## Perl code and APR pools -/

/-- The innermost call of the thread runs Perl code in this interpreter. -/
def running (c : ConnId) : Option InterpId := (s.top c).bind Frame.perl

/-- `modperl_thx_interp_get(perl)`, and the reference that is counted for it. -/
def addRef (i : InterpId) : State × Option InterpId :=
  if (s.interp i).thx then (s.setInterp i fun x => { x with refcnt := x.refcnt + 1 }, some i)
  else (s, none)

/-- `MP_APR_POOL_SV_TAKES_OWNERSHIP` -/
def takeOwnership (p : PoolId) (i : InterpId) : State :=
  let (s, interp) := s.addRef i
  { s with cleanups := (p, .apool i interp) :: s.cleanups }

/-- `mpxs_apr_pool_cleanup_register` -/
def cleanupRegisterPerl (p : PoolId) (i : InterpId) : State :=
  let (s, interp) := s.addRef i
  { s with cleanups := (p, .perl i interp) :: s.cleanups }

/-- The pool in which the interpreter is kept. -/
def keptIn (i : InterpId) : Option PoolId :=
  (s.cleanups.find? (·.2 = .unselect i)).map Prod.fst

/-- `modperl_pnotes`: the hash is created by the first access. -/
def pnotes (r : ReqId) (i : InterpId) : State :=
  match (s.rcfg r).pnotes with
  | some _ => s
  | none =>
      { s with cleanups := (.req r, .pnotes r i) :: s.cleanups }.setRcfg r
        fun x => { x with pnotes := some ⟨i, s.keptIn i⟩ }

/-! ## The life of a pool -/

/-- Nothing has been taken away from the pool yet. -/
def Intact (p : PoolId) : Prop :=
  s.status p = .live ∨ s.status p = .ending ∨ s.status p = .clearing

instance (p : PoolId) : Decidable (s.Intact p) := inferInstanceAs (Decidable (_ ∨ _ ∨ _))

/-- No call needs the pool. -/
def Unused (p : PoolId) : Prop := ∀ x ∈ s.frames, p ∉ x.2.chain site x.1

instance (p : PoolId) : Decidable (s.Unused site p) :=
  inferInstanceAs (Decidable (∀ x ∈ s.frames, _))

/-- All subpools have been destroyed. -/
def Childless (p : PoolId) : Prop :=
  (∀ q ∈ s.pools, p ∈ site.above q → s.status q = .ended) ∧ ∀ r ∈ s.subpools, p ≠ .req r

instance (p : PoolId) : Decidable (s.Childless site p) := inferInstanceAs (Decidable (_ ∧ _))

/-- The newest cleanup of the pool. -/
def nextCleanup (p : PoolId) : Option Cleanup := (s.cleanups.find? (·.1 = p)).map Prod.snd

def dropCleanup (p : PoolId) : State := { s with cleanups := s.cleanups.eraseP (·.1 = p) }

/-- One cleanup runs. -/
def runCleanup (p : PoolId) : Cleanup → State
  | .unselect i => s.unselect site (site.thread p) i (some p) none
  | .pnotes r _ => s.setRcfg r fun x => { x with pnotes := none }
  | .apool _ none => s
  | .apool _ (some i) => s.unselect site (site.thread p) i (some p) none
  | .perl perl interp => s.push (site.thread p) (.perlCleanup p perl interp)

/-! ## Returning -/

/-- `MP_INTERP_PUTBACK` and the ends of the response handlers, after the call has
been taken off the stack. -/
def leaveSelected (c : ConnId) (caller : Caller) (r : Option ReqId) (i : InterpId) : State :=
  if (s.interp i).putback then
    match caller with
    | .responseHandler => (s.resetRcfg r).unselect site c i none none
    | .responseHandlerCgi => s.unselect site c i none r
    | _ => s.unselect site c i none none
  else s

/-- `modperl_config_request_cleanup` -/
def requestCleanup (c : ConnId) (r : ReqId) (found : Bool) (dcfg : InterpScope) : Option State :=
  let s := s.record (.requestCleanup r)
  if found ∧ site.enable (site.server r) then s.enter site .cleanup c (some r) dcfg else some s

/-- The rest of `modperl_interp_unselect` after `modperl_config_request_cleanup(r)`. -/
def unselectRest (i : InterpId) (r : ReqId) (p : Option PoolId) (reset : Option ReqId) : State :=
  ((s.setRcfg r fun x => { x with cleanupRegistered := false }).putback site i p).resetRcfg reset

end State

/-! ## Steps -/

/-- One step of a thread. -/
inductive Act where
  /-- a connection or request is created -/
  | openPool (p : PoolId)
  /-- `apr_pool_destroy` begins -/
  | endPool (p : PoolId)
  /-- the subpool of `modperl_config_req_cleanup_register` is destroyed -/
  | reqCleanup (r : ReqId) (dcfg : InterpScope)
  | runCleanup (p : PoolId)
  /-- `apr_pool_destroy` returns -/
  | endedPool (p : PoolId)
  /-- `modperl_callback_run_handlers`; `found` tells whether handlers are configured -/
  | handlers (c : ConnId) (r : Option ReqId) (found : Bool) (dcfg : InterpScope)
  | filter (c : ConnId) (r : Option ReqId) (dcfg : InterpScope)
  | response (r : ReqId) (cgi : Bool) (dcfg : InterpScope)
  /-- the Perl code of the innermost call returns -/
  | leave (c : ConnId)
  | requestCleanup (c : ConnId) (found : Bool) (dcfg : InterpScope)
  /-- `modperl_config_request_cleanup` has returned -/
  | cleanedUp (c : ConnId)
  /-- Perl code calls `$r->pnotes` -/
  | pnotes (c : ConnId) (r : ReqId)
  /-- Perl code calls `APR::Pool->new` -/
  | newPool (c : ConnId) (parent : PoolId) (serial : ℕ)
  /-- Perl code calls `$pool->clear` on a pool it created … -/
  | clearPool (c : ConnId) (p : PoolId)
  /-- … and `apr_pool_clear` returns -/
  | clearedPool (c : ConnId) (p : PoolId)
  /-- Perl code calls `$pool->cleanup_register` -/
  | registerCleanup (c : ConnId) (p : PoolId)
  deriving DecidableEq

/-- A thread that is inside `modperl_interp_unselect` or
`modperl_config_req_cleanup` itself starts nothing else. -/
def State.MayCall (s : State) (c : ConnId) : Prop :=
  match s.top c with
  | none => True
  | some (.selected .reqCleanup _ _ _) => False
  | some (.selected _ _ _ _) => True
  | some (.perlCleanup _ _ _) => True
  | some _ => False

instance (s : State) (c : ConnId) : Decidable (s.MayCall c) := by
  unfold State.MayCall
  split <;> infer_instance

/-- The thread `c` serves the request, or the connection itself, whose pool is live. -/
def State.Serves (site : Site) (s : State) (c : ConnId) : Option ReqId → Prop
  | none => s.status (.conn c) = .live
  | some r => site.connection r = c ∧ s.status (.req r) = .live

instance (site : Site) (s : State) (c : ConnId) : ∀ r, Decidable (s.Serves site c r)
  | none => inferInstanceAs (Decidable (_ = _))
  | some _ => inferInstanceAs (Decidable (_ ∧ _))

/-- A step of the machine. -/
def step (site : Site) (s : State) : Act → Option State
  | .openPool p =>
      if s.status p = .unborn ∧ ∀ q ∈ site.above p, s.status q = .live then
        match p with
        | .custom _ _ => none
        | p => some ({ s with pools := p :: s.pools }.setStatus p .live)
      else none
  | .endPool p =>
      if s.status p = .live ∧ s.Unused site p ∧ s.MayCall (site.thread p) then
        some (s.setStatus p .ending)
      else none
  | .reqCleanup r dcfg =>
      if s.status (.req r) = .ending ∧ r ∈ s.subpools ∧ s.Unused site (.req r) ∧
          s.MayCall (site.connection r) then
        { s with subpools := s.subpools.erase r }.enter site .reqCleanup (site.connection r)
          (some r) dcfg
      else none
  | .runCleanup p => do
      let cleanup ← s.nextCleanup p
      if s.Childless site p ∧ s.Unused site p ∧ s.MayCall (site.thread p) then
        match s.status p with
        | .ending => some (((s.dropCleanup p).setStatus p .cleaning).runCleanup site p cleanup)
        | .cleaning => some ((s.dropCleanup p).runCleanup site p cleanup)
        | .clearing => some ((s.dropCleanup p).runCleanup site p cleanup)
        | _ => none
      else none
  | .endedPool p =>
      if (s.status p = .ending ∨ s.status p = .cleaning) ∧ s.nextCleanup p = none ∧
          s.Childless site p ∧ s.Unused site p ∧ s.MayCall (site.thread p) then
        some ({ s with userdata := Function.update s.userdata p none }.setStatus p .ended)
      else none
  | .handlers c r found dcfg =>
      if s.MayCall c ∧ s.Serves site c r then
        if found ∧ site.enable (site.serverOf c r) then s.enter site .handlers c r dcfg else some s
      else none
  | .filter c r dcfg =>
      if s.MayCall c ∧ s.Serves site c r then s.enter site .filter c r dcfg else none
  | .response r cgi dcfg =>
      if s.MayCall (site.connection r) ∧ s.Serves site (site.connection r) (some r) then
        s.enter site (if cgi then .responseHandlerCgi else .responseHandler) (site.connection r)
          (some r) dcfg
      else none
  | .leave c =>
      match s.top c with
      | some (.selected .reqCleanup _ _ _) => none
      | some (.selected caller r i _) => some ((s.pop c).leaveSelected site c caller r i)
      | some (.perlCleanup _ _ none) => some (s.pop c)
      | some (.perlCleanup _ _ (some i)) => some ((s.pop c).unselect site c i none none)
      | _ => none
  | .requestCleanup c found dcfg =>
      match s.top c with
      | some (.unselect i r p reset false) =>
          ((s.pop c).push c (.unselect i r p reset true)).requestCleanup site c r found dcfg
      | some (.selected .reqCleanup (some r) i source) =>
          ((s.pop c).push c (.reqCleanupDone r i source)).requestCleanup site c r found dcfg
      | _ => none
  | .cleanedUp c =>
      match s.top c with
      | some (.unselect i r p reset true) => some ((s.pop c).unselectRest site i r p reset)
      | some (.reqCleanupDone _ i (.popped none)) =>
          some { s.pop c with leaked := i :: s.leaked }
      | some (.reqCleanupDone _ _ _) => some (s.pop c)
      | _ => none
  | .pnotes c r => do
      let i ← s.running c
      if site.connection r = c ∧ (s.status (.req r) = .live ∨ s.status (.req r) = .ending ∨
          s.status (.req r) = .cleaning) then
        some (s.pnotes r i)
      else none
  | .newPool c parent serial => do
      let i ← s.running c
      if s.status (.custom parent serial) = .unborn ∧ s.Intact parent ∧ site.thread parent = c then
        some (({ s with pools := .custom parent serial :: s.pools }.setStatus
          (.custom parent serial) .live).takeOwnership (.custom parent serial) i)
      else none
  | .clearPool c p => do
      let _ ← s.running c
      match p with
      | .custom parent serial =>
          if s.status (.custom parent serial) = .live ∧ site.thread parent = c then
            some (s.setStatus (.custom parent serial) .clearing)
          else none
      | _ => none
  | .clearedPool c p => do
      let i ← s.running c
      if s.status p = .clearing ∧ site.thread p = c ∧ s.nextCleanup p = none ∧
          s.Childless site p then
        some ((s.setStatus p .live).takeOwnership p i)
      else none
  | .registerCleanup c p => do
      let i ← s.running c
      if s.status p ≠ .unborn ∧ s.status p ≠ .ended ∧ site.thread p = c then
        some (s.cleanupRegisterPerl p i)
      else none

/-! ## What a step can do -/

/-- A step, with what it needs. -/
inductive Step (site : Site) (s : State) : Act → State → Prop
  | openPool (p : PoolId) (hunborn : s.status p = .unborn)
      (habove : ∀ q ∈ site.above p, s.status q = .live)
      (hcustom : ∀ parent serial, p ≠ .custom parent serial) :
      Step site s (.openPool p) ({ s with pools := p :: s.pools }.setStatus p .live)
  | endPool (p : PoolId) (hlive : s.status p = .live) (hunused : s.Unused site p)
      (hcall : s.MayCall (site.thread p)) : Step site s (.endPool p) (s.setStatus p .ending)
  | reqCleanup (r : ReqId) (dcfg : InterpScope) {s' : State} (hending : s.status (.req r) = .ending)
      (hsubpool : r ∈ s.subpools) (hunused : s.Unused site (.req r))
      (hcall : s.MayCall (site.connection r))
      (henter : { s with subpools := s.subpools.erase r }.enter site .reqCleanup
        (site.connection r) (some r) dcfg = some s') : Step site s (.reqCleanup r dcfg) s'
  | firstCleanup (p : PoolId) (cleanup : Cleanup) (hnext : s.nextCleanup p = some cleanup)
      (hchildless : s.Childless site p) (hunused : s.Unused site p)
      (hcall : s.MayCall (site.thread p)) (hending : s.status p = .ending) :
      Step site s (.runCleanup p)
        (((s.dropCleanup p).setStatus p .cleaning).runCleanup site p cleanup)
  | laterCleanup (p : PoolId) (cleanup : Cleanup) (hnext : s.nextCleanup p = some cleanup)
      (hchildless : s.Childless site p) (hunused : s.Unused site p)
      (hcall : s.MayCall (site.thread p))
      (hstatus : s.status p = .cleaning ∨ s.status p = .clearing) :
      Step site s (.runCleanup p) ((s.dropCleanup p).runCleanup site p cleanup)
  | endedPool (p : PoolId) (hstatus : s.status p = .ending ∨ s.status p = .cleaning)
      (hnext : s.nextCleanup p = none) (hchildless : s.Childless site p)
      (hunused : s.Unused site p) (hcall : s.MayCall (site.thread p)) :
      Step site s (.endedPool p)
        ({ s with userdata := Function.update s.userdata p none }.setStatus p .ended)
  | handlers (c : ConnId) (r : Option ReqId) (found : Bool) (dcfg : InterpScope) {s' : State}
      (hcall : s.MayCall c) (hserves : s.Serves site c r)
      (hfound : found = true ∧ site.enable (site.serverOf c r) = true)
      (henter : s.enter site .handlers c r dcfg = some s') :
      Step site s (.handlers c r found dcfg) s'
  | noHandlers (c : ConnId) (r : Option ReqId) (found : Bool) (dcfg : InterpScope)
      (hcall : s.MayCall c) (hserves : s.Serves site c r)
      (hfound : ¬(found = true ∧ site.enable (site.serverOf c r) = true)) :
      Step site s (.handlers c r found dcfg) s
  | filter (c : ConnId) (r : Option ReqId) (dcfg : InterpScope) {s' : State}
      (hcall : s.MayCall c) (hserves : s.Serves site c r)
      (henter : s.enter site .filter c r dcfg = some s') : Step site s (.filter c r dcfg) s'
  | response (r : ReqId) (cgi : Bool) (dcfg : InterpScope) {s' : State}
      (hcall : s.MayCall (site.connection r)) (hserves : s.Serves site (site.connection r) (some r))
      (henter : s.enter site (if cgi then .responseHandlerCgi else .responseHandler)
        (site.connection r) (some r) dcfg = some s') : Step site s (.response r cgi dcfg) s'
  | leave (c : ConnId) (caller : Caller) (r : Option ReqId) (i : InterpId) (source : Source)
      (htop : s.top c = some (.selected caller r i source)) (hcaller : caller ≠ .reqCleanup) :
      Step site s (.leave c) ((s.pop c).leaveSelected site c caller r i)
  | leavePerl (c : ConnId) (p : PoolId) (perl : InterpId)
      (htop : s.top c = some (.perlCleanup p perl none)) : Step site s (.leave c) (s.pop c)
  | leaveInterp (c : ConnId) (p : PoolId) (perl i : InterpId)
      (htop : s.top c = some (.perlCleanup p perl (some i))) :
      Step site s (.leave c) ((s.pop c).unselect site c i none none)
  | unselectCleanup (c : ConnId) (found : Bool) (dcfg : InterpScope) {s' : State} (i : InterpId)
      (r : ReqId) (p : Option PoolId) (reset : Option ReqId)
      (htop : s.top c = some (.unselect i r p reset false))
      (hcleanup : ((s.pop c).push c (.unselect i r p reset true)).requestCleanup site c r found
        dcfg = some s') : Step site s (.requestCleanup c found dcfg) s'
  | subpoolCleanup (c : ConnId) (found : Bool) (dcfg : InterpScope) {s' : State} (i : InterpId)
      (r : ReqId) (source : Source)
      (htop : s.top c = some (.selected .reqCleanup (some r) i source))
      (hcleanup : ((s.pop c).push c (.reqCleanupDone r i source)).requestCleanup site c r found
        dcfg = some s') : Step site s (.requestCleanup c found dcfg) s'
  | unselectRest (c : ConnId) (i : InterpId) (r : ReqId) (p : Option PoolId) (reset : Option ReqId)
      (htop : s.top c = some (.unselect i r p reset true)) :
      Step site s (.cleanedUp c) ((s.pop c).unselectRest site i r p reset)
  | leak (c : ConnId) (r : ReqId) (i : InterpId)
      (htop : s.top c = some (.reqCleanupDone r i (.popped none))) :
      Step site s (.cleanedUp c) { s.pop c with leaked := i :: s.leaked }
  | subpoolDone (c : ConnId) (r : ReqId) (i : InterpId) (source : Source)
      (htop : s.top c = some (.reqCleanupDone r i source)) (hsource : source ≠ .popped none) :
      Step site s (.cleanedUp c) (s.pop c)
  | pnotes (c : ConnId) (r : ReqId) (i : InterpId) (hrunning : s.running c = some i)
      (hthread : site.connection r = c)
      (hstatus : s.status (.req r) = .live ∨ s.status (.req r) = .ending ∨
        s.status (.req r) = .cleaning) :
      Step site s (.pnotes c r) (s.pnotes r i)
  | newPool (c : ConnId) (parent : PoolId) (serial : ℕ) (i : InterpId)
      (hrunning : s.running c = some i) (hunborn : s.status (.custom parent serial) = .unborn)
      (hintact : s.Intact parent) (hthread : site.thread parent = c) :
      Step site s (.newPool c parent serial)
        (({ s with pools := .custom parent serial :: s.pools }.setStatus
          (.custom parent serial) .live).takeOwnership (.custom parent serial) i)
  | clearPool (c : ConnId) (parent : PoolId) (serial : ℕ) (i : InterpId)
      (hrunning : s.running c = some i) (hlive : s.status (.custom parent serial) = .live)
      (hthread : site.thread parent = c) :
      Step site s (.clearPool c (.custom parent serial))
        (s.setStatus (.custom parent serial) .clearing)
  | clearedPool (c : ConnId) (p : PoolId) (i : InterpId) (hrunning : s.running c = some i)
      (hclearing : s.status p = .clearing) (hthread : site.thread p = c)
      (hnext : s.nextCleanup p = none) (hchildless : s.Childless site p) :
      Step site s (.clearedPool c p) ((s.setStatus p .live).takeOwnership p i)
  | registerCleanup (c : ConnId) (p : PoolId) (i : InterpId) (hrunning : s.running c = some i)
      (hunborn : s.status p ≠ .unborn) (hended : s.status p ≠ .ended)
      (hthread : site.thread p = c) :
      Step site s (.registerCleanup c p) (s.cleanupRegisterPerl p i)

variable {site : Site} {s s' : State} {a : Act}

theorem step_inv (h : step site s a = some s') : Step site s a s' := by
  cases a with
  | openPool p =>
      obtain ⟨⟨hunborn, habove⟩, h⟩ := Option.ite_none_right_eq_some.mp h
      cases p with
      | custom parent serial => cases h
      | _ => exact Option.some.inj h ▸ .openPool _ hunborn habove fun _ _ heq => nomatch heq
  | endPool p =>
      obtain ⟨⟨hlive, hunused, hcall⟩, h⟩ := Option.ite_none_right_eq_some.mp h
      exact Option.some.inj h ▸ .endPool p hlive hunused hcall
  | reqCleanup r dcfg =>
      obtain ⟨⟨hending, hsubpool, hunused, hcall⟩, h⟩ := Option.ite_none_right_eq_some.mp h
      exact .reqCleanup r dcfg hending hsubpool hunused hcall h
  | runCleanup p =>
      obtain ⟨cleanup, hnext, h⟩ := Option.bind_eq_some_iff.mp h
      obtain ⟨⟨hchildless, hunused, hcall⟩, h⟩ := Option.ite_none_right_eq_some.mp h
      split at h
      · next hstatus =>
          exact Option.some.inj h ▸ .firstCleanup p cleanup hnext hchildless hunused hcall hstatus
      · next hstatus =>
          exact Option.some.inj h ▸
            .laterCleanup p cleanup hnext hchildless hunused hcall (.inl hstatus)
      · next hstatus =>
          exact Option.some.inj h ▸
            .laterCleanup p cleanup hnext hchildless hunused hcall (.inr hstatus)
      · cases h
  | endedPool p =>
      obtain ⟨⟨hstatus, hnext, hchildless, hunused, hcall⟩, h⟩ :=
        Option.ite_none_right_eq_some.mp h
      exact Option.some.inj h ▸ .endedPool p hstatus hnext hchildless hunused hcall
  | handlers c r found dcfg =>
      obtain ⟨⟨hcall, hserves⟩, h⟩ := Option.ite_none_right_eq_some.mp h
      split_ifs at h with hfound
      · exact .handlers c r found dcfg hcall hserves hfound h
      · exact Option.some.inj h ▸ .noHandlers c r found dcfg hcall hserves hfound
  | filter c r dcfg =>
      obtain ⟨⟨hcall, hserves⟩, h⟩ := Option.ite_none_right_eq_some.mp h
      exact .filter c r dcfg hcall hserves h
  | response r cgi dcfg =>
      obtain ⟨⟨hcall, hserves⟩, h⟩ := Option.ite_none_right_eq_some.mp h
      exact .response r cgi dcfg hcall hserves h
  | leave c =>
      simp only [step] at h
      split at h
      · cases h
      · next caller r i source hcaller htop =>
          exact Option.some.inj h ▸ .leave c caller r i source htop hcaller
      · next htop => exact Option.some.inj h ▸ .leavePerl c _ _ htop
      · next htop => exact Option.some.inj h ▸ .leaveInterp c _ _ _ htop
      · cases h
  | requestCleanup c found dcfg =>
      simp only [step] at h
      split at h
      · next htop => exact .unselectCleanup c found dcfg _ _ _ _ htop h
      · next htop => exact .subpoolCleanup c found dcfg _ _ _ htop h
      · cases h
  | cleanedUp c =>
      simp only [step] at h
      split at h
      · next htop => exact Option.some.inj h ▸ .unselectRest c _ _ _ _ htop
      · next htop => exact Option.some.inj h ▸ .leak c _ _ htop
      · next r i source hsource htop =>
          refine Option.some.inj h ▸ .subpoolDone c r i source htop ?_
          rintro rfl
          exact hsource rfl
      · cases h
  | pnotes c r =>
      obtain ⟨i, hrunning, h⟩ := Option.bind_eq_some_iff.mp h
      obtain ⟨⟨hthread, hstatus⟩, h⟩ := Option.ite_none_right_eq_some.mp h
      exact Option.some.inj h ▸ .pnotes c r i hrunning hthread hstatus
  | newPool c parent serial =>
      obtain ⟨i, hrunning, h⟩ := Option.bind_eq_some_iff.mp h
      obtain ⟨⟨hunborn, hintact, hthread⟩, h⟩ := Option.ite_none_right_eq_some.mp h
      exact Option.some.inj h ▸ .newPool c parent serial i hrunning hunborn hintact hthread
  | clearPool c p =>
      obtain ⟨i, hrunning, h⟩ := Option.bind_eq_some_iff.mp h
      cases p with
      | custom parent serial =>
          obtain ⟨⟨hlive, hthread⟩, h⟩ := Option.ite_none_right_eq_some.mp h
          exact Option.some.inj h ▸ .clearPool c parent serial i hrunning hlive hthread
      | _ => cases h
  | clearedPool c p =>
      obtain ⟨i, hrunning, h⟩ := Option.bind_eq_some_iff.mp h
      obtain ⟨⟨hclearing, hthread, hnext, hchildless⟩, h⟩ := Option.ite_none_right_eq_some.mp h
      exact Option.some.inj h ▸ .clearedPool c p i hrunning hclearing hthread hnext hchildless
  | registerCleanup c p =>
      obtain ⟨i, hrunning, h⟩ := Option.bind_eq_some_iff.mp h
      obtain ⟨⟨hunborn, hended, hthread⟩, h⟩ := Option.ite_none_right_eq_some.mp h
      exact Option.some.inj h ▸ .registerCleanup c p i hrunning hunborn hended hthread

/-- What a step needs is enough for it. -/
theorem Step.step_eq (h : Step site s a s') : step site s a = some s' := by
  cases h with
  | openPool p hunborn habove hcustom =>
      refine (if_pos ⟨hunborn, habove⟩).trans ?_
      cases p with
      | custom parent serial => exact absurd rfl (hcustom parent serial)
      | _ => rfl
  | endPool p hlive hunused hcall => exact if_pos ⟨hlive, hunused, hcall⟩
  | reqCleanup r dcfg hending hsubpool hunused hcall henter =>
      exact (if_pos ⟨hending, hsubpool, hunused, hcall⟩).trans henter
  | firstCleanup p cleanup hnext hchildless hunused hcall hending =>
      simp [step, hnext, hchildless, hunused, hcall, hending]
  | laterCleanup p cleanup hnext hchildless hunused hcall hstatus =>
      rcases hstatus with hstatus | hstatus <;>
        simp [step, hnext, hchildless, hunused, hcall, hstatus]
  | endedPool p hstatus hnext hchildless hunused hcall =>
      exact if_pos ⟨hstatus, hnext, hchildless, hunused, hcall⟩
  | handlers c r found dcfg hcall hserves hfound henter =>
      exact (if_pos ⟨hcall, hserves⟩).trans ((if_pos hfound).trans henter)
  | noHandlers c r found dcfg hcall hserves hfound =>
      exact (if_pos ⟨hcall, hserves⟩).trans (if_neg hfound)
  | filter c r dcfg hcall hserves henter => exact (if_pos ⟨hcall, hserves⟩).trans henter
  | response r cgi dcfg hcall hserves henter => exact (if_pos ⟨hcall, hserves⟩).trans henter
  | leave c caller r i source htop hcaller =>
      simp only [step, htop]
  | leavePerl c p perl htop => simp only [step, htop]
  | leaveInterp c p perl i htop => simp only [step, htop]
  | unselectCleanup c found dcfg i r p reset htop hcleanup => simpa only [step, htop] using hcleanup
  | subpoolCleanup c found dcfg i r source htop hcleanup => simpa only [step, htop] using hcleanup
  | unselectRest c i r p reset htop => simp only [step, htop]
  | leak c r i htop => simp only [step, htop]
  | subpoolDone c r i source htop hsource => simp only [step, htop]
  | pnotes c r i hrunning hthread hstatus => simp [step, hrunning, hthread, hstatus]
  | newPool c parent serial i hrunning hunborn hintact hthread =>
      simp [step, hrunning, hunborn, hintact, hthread]
  | clearPool c parent serial i hrunning hlive hthread => simp [step, hrunning, hlive, hthread]
  | clearedPool c p i hrunning hclearing hthread hnext hchildless =>
      simp [step, hrunning, hclearing, hthread, hnext, hchildless]
  | registerCleanup c p i hrunning hunborn hended hthread =>
      simp [step, hrunning, hunborn, hended, hthread]

namespace State

theorem takeOwnership_eq (s : State) (p : PoolId) (i : InterpId) : ∃ interp cleanups,
    s.takeOwnership p i = { s with interp := interp, cleanups := cleanups } := by
  unfold takeOwnership addRef
  split_ifs
  · exact ⟨_, _, rfl⟩
  · exact ⟨s.interp, _, rfl⟩

theorem cleanupRegisterPerl_eq (s : State) (p : PoolId) (i : InterpId) : ∃ interp cleanups,
    s.cleanupRegisterPerl p i = { s with interp := interp, cleanups := cleanups } := by
  unfold cleanupRegisterPerl addRef
  split_ifs
  · exact ⟨_, _, rfl⟩
  · exact ⟨s.interp, _, rfl⟩

theorem pnotes_eq (s : State) (r : ReqId) (i : InterpId) : ∃ cleanups rcfg,
    s.pnotes r i = { s with cleanups := cleanups, rcfg := rcfg } := by
  unfold pnotes
  split
  · exact ⟨s.cleanups, s.rcfg, rfl⟩
  · exact ⟨_, _, rfl⟩

end State

/-- The cleanup of a request selects an interpreter if there are handlers. -/
theorem State.requestCleanup_inv {c : ConnId} {r : ReqId} {found : Bool} {dcfg : InterpScope}
    (h : s.requestCleanup site c r found dcfg = some s') :
    ((found = true ∧ site.enable (site.server r) = true) ∧
      (s.record (.requestCleanup r)).enter site .cleanup c (some r) dcfg = some s') ∨
    (¬(found = true ∧ site.enable (site.server r) = true) ∧ s' = s.record (.requestCleanup r)) := by
  unfold State.requestCleanup at h
  simp only at h
  split_ifs at h with hfound
  · exact .inl ⟨hfound, h⟩
  · exact .inr ⟨hfound, (Option.some.inj h).symm⟩

end ModPerl
