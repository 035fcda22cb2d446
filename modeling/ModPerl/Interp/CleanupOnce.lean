import ModPerl.Interp.Stacks

/-!
# One cleanup for each request

Two routes lead to `modperl_config_request_cleanup`.  A phase registers
`modperl_config_req_cleanup` on a subpool of the request's pool, unless
`MpReqCLEANUP_REGISTERED` is on.  A select under handler scope turns the flag on
and leaves the cleanup to the `modperl_interp_unselect` that puts its interpreter
back, which turns the flag off again.

So a request has one cleanup if no phase pops an interpreter for it under handler
scope, or if the only phase does (`Once`).  A filter selects an interpreter without
registering the cleanup, so filters must not be all that runs.  `interp->request` is
never cleared: an interpreter that is used under another scope later starts the cleanup
of the old request.

Most steps are not about phases and cleanups, and keep the invariant for this reason
(`Quiet`); so does the release of an interpreter.
-/

namespace ModPerl

open Machine

variable {site : Site} {s s' s₀ s₁ : State} {a : Act} {caller : Caller} {r : Option ReqId}
  {c : ConnId} {dcfg : InterpScope} {i j : InterpId} {source : Source} {p : PoolId} {q : ReqId}
  {f : Frame} {pool : Option PoolId} {reset : Option ReqId} {owed : List ReqId}

/-! ## Phases and cleanups -/

/-- The caller runs a phase, and not cleanup handlers. -/
def Caller.isPhase : Caller → Bool
  | .cleanup => false
  | .reqCleanup => false
  | _ => true

/-- `modperl_callback_run_handlers` registers the request cleanup. -/
def Caller.registers : Caller → Bool
  | .handlers => true
  | .cleanup => true
  | _ => false

/-- A phase of a request, with its interpreter and where that came from. -/
abbrev PhaseUse := ReqId × InterpId × Source

/-- The phase that the call runs. -/
def Frame.phase : Frame → Option PhaseUse
  | .selected caller (some q) i source => if caller.isPhase then some (q, i, source) else none
  | _ => none

/-- The phase that has made the select. -/
def Event.phase : Event → Option PhaseUse
  | .select caller (some q) _ i source => if caller.isPhase then some (q, i, source) else none
  | _ => none

/-- The caller that has made the select, and its request. -/
def Event.calls : Event → Option (Caller × ReqId)
  | .select caller (some q) _ _ _ => some (caller, q)
  | _ => none

/-- The request whose cleanup has been called. -/
def Event.cleans : Event → Option ReqId
  | .requestCleanup q => some q
  | _ => none

/-- The request whose `modperl_config_req_cleanup` runs, and has not yet called
`modperl_config_request_cleanup`. -/
def Frame.reqCleanup : Frame → Option ReqId
  | .selected .reqCleanup r _ _ => r
  | _ => none

/-- The request for which the call is about to call `modperl_config_request_cleanup`. -/
def Frame.cleansUp : Frame → Option ReqId
  | .selected .reqCleanup r _ _ => r
  | .unselect _ q _ _ false => some q
  | _ => none

/-- An interpreter that nobody will put back. -/
def Frame.strands : Frame → Option InterpId
  | .selected .reqCleanup _ i (.popped none) => some i
  | .reqCleanupDone _ i (.popped none) => some i
  | _ => none

namespace State

/-- The phases so far. -/
def phases (s : State) : List PhaseUse := s.log.filterMap Event.phase

/-- The requests whose cleanup has been called, once for each call. -/
def cleaned (s : State) : List ReqId := s.log.filterMap Event.cleans

/-- The caller has made a select for the request. -/
def Called (s : State) (caller : Caller) (q : ReqId) : Prop :=
  ∃ e ∈ s.log, e.calls = some (caller, q)

instance (s : State) (caller : Caller) (q : ReqId) : Decidable (s.Called caller q) :=
  inferInstanceAs (Decidable (∃ e ∈ s.log, _))

/-- A Perl handler of the request has run, or a Perl filter. -/
def HandlerRan (s : State) (q : ReqId) : Prop := s.Called .handlers q ∨ s.Called .filter q

instance (s : State) (q : ReqId) : Decidable (s.HandlerRan q) :=
  inferInstanceAs (Decidable (_ ∨ _))

/-- A phase has popped an interpreter for the request under handler scope. -/
def Handled (s : State) (q : ReqId) : Prop := ∃ i, (q, i, .popped none) ∈ s.phases

instance (s : State) (q : ReqId) : Decidable (s.Handled q) :=
  decidable_of_iff (∃ x ∈ s.phases, x.1 = q ∧ x.2.2 = .popped none) <| by
    constructor
    · rintro ⟨⟨_, i, _⟩, hx, rfl, rfl⟩
      exact ⟨i, hx⟩
    · rintro ⟨i, hx⟩
      exact ⟨_, hx, rfl, rfl⟩

/-- What the subpool of the request's pool will do, does, or has done. -/
def triggers (s : State) : List ReqId :=
  s.subpools ++ s.frames.filterMap (·.2.reqCleanup) ++ s.cleaned

/-- The interpreters that `modperl_config_req_cleanup` has popped under handler scope. -/
def stranded (s : State) : List InterpId := s.frames.filterMap (·.2.strands) ++ s.leaked

/-- The interpreter is in use, and its `interp->request` is the request. -/
def WorksFor (s : State) (i : InterpId) (q : ReqId) : Prop :=
  s.Busy i ∧ (s.interp i).request = some q

instance : Decidable (s.WorksFor i q) := inferInstanceAs (Decidable (_ ∧ _))

/-- A select finds no interpreter, and pops one that a pool will keep. -/
def PopsForPool (site : Site) (s : State) (caller : Caller) (c : ConnId) (r : Option ReqId)
    (dcfg : InterpScope) : Prop :=
  (r.bind fun r => (s.rcfg r).interp) = none ∧
    s.firstKept (site.searched caller c r dcfg) = none ∧
    site.scope r (site.serverOf c r) dcfg ≠ .handler

instance : Decidable (s.PopsForPool site caller c r dcfg) :=
  inferInstanceAs (Decidable (_ ∧ _ ∧ _))

/-- `modperl_tipool_pop` for a server: the interpreter and the tipool without it. -/
def nextInterp (site : Site) (s : State) (srv : ServerId) :
    Option (InterpId × ItemPool InterpId) :=
  (s.tipool (site.mip srv)).pop (site.interpPoolCfg (site.mip srv))
    ⟨site.mip srv, s.next (site.mip srv)⟩

end State

/-- The conditions on a select.  A phase that pops an interpreter under handler scope
is the only phase of its request, and cleanup handlers pop none.  What a pool is to
keep was not popped under handler scope before. -/
def SelectsOnce (site : Site) (s : State) (caller : Caller) (c : ConnId) (r : Option ReqId)
    (dcfg : InterpScope) : Prop :=
  (s.PopsForHandler site caller c r dcfg →
    caller ≠ .cleanup ∧ (caller.isPhase = true → ∀ q ∈ r, ∀ x ∈ s.phases, x.1 ≠ q)) ∧
  (caller.isPhase = true →
    ∀ q ∈ r, ∀ x ∈ s.phases, x.1 = q → x.2.2 ≠ .popped none) ∧
  (s.PopsForPool site caller c r dcfg →
    ∀ x ∈ s.nextInterp site (site.serverOf c r), (s.interp x.1).request = none)

instance : Decidable (SelectsOnce site s caller c r dcfg) :=
  inferInstanceAs (Decidable (_ ∧ _ ∧ _))

/-- The conditions on the end of a request's pool: an interpreter popped under handler scope has
been put back, and filters are not all that has run. -/
def EndsOnce (s : State) (q : ReqId) : Prop :=
  (∀ x ∈ s.phases, x.1 = q → x.2.2 = .popped none → ¬s.WorksFor x.2.1 q) ∧
    (s.Called .filter q → s.Called .handlers q ∨ s.Handled q)

instance : Decidable (EndsOnce s q) := inferInstanceAs (Decidable (_ ∧ _))

/-- The conditions on a step, if response handlers lend nobody their interpreter. -/
def PhasesOk (site : Site) (s : State) (a : Act) : Prop :=
  StepOk site s a ∧
  (match s.selecting site a with
    | some (caller, c, r, dcfg) => SelectsOnce site s caller c r dcfg
    | none => True) ∧
  match a with
  | .endedPool (.req q) => EndsOnce s q
  | _ => True

/-! ## The invariant -/

/-- A request has one cleanup.  If no phase popped an interpreter for it under handler
scope, then it is with the subpool, and there is one as soon as
`MpReqCLEANUP_REGISTERED` is on (`account`; a subpool that is being destroyed is
`owed`).  Otherwise it is with the interpreter of the only phase: that is in use until
`modperl_interp_unselect` has called the cleanup (`pending`). -/
structure Once (s : State) (owed : List ReqId) : Prop where
  frames : ∀ x ∈ s.frames, ∀ y, x.2.phase = some y → y ∈ s.phases
  cleanups : ∀ c r i, (c, .selected .cleanup r i (.popped none)) ∉ s.frames
  single : ∀ q i x, (q, i, .popped none) ∈ s.phases → (q, x) ∈ s.phases → x = (i, .popped none)
  request : ∀ i q, s.WorksFor i q → (q, i, .popped none) ∈ s.phases ∨ i ∈ s.stranded
  account : ∀ q, ¬s.Handled q →
    owed.count q + s.triggers.count q = if (s.rcfg q).cleanupRegistered then 1 else 0
  handled : ∀ q, s.Handled q →
    owed.count q + s.triggers.count q = s.cleaned.count q ∧ s.cleaned.count q ≤ 1
  pending : ∀ q i, (q, i, .popped none) ∈ s.phases → q ∉ s.cleaned →
    s.WorksFor i q ∧ (s.rcfg q).cleanupRegistered = true
  done : ∀ q ∈ s.cleaned, ∀ x ∈ s.frames, (∀ y, x.2.phase ≠ some (q, y)) ∧ x.2.cleansUp ≠ some q
  last : ∀ q i, (q, i, .popped none) ∈ s.phases → q ∈ s.cleaned → s.WorksFor i q →
    ∃ c p reset, (c, .unselect i q p reset true) ∈ s.frames
  unselect : ∀ c i q p reset b, (c, .unselect i q p reset b) ∈ s.frames →
    (q, i, .popped none) ∈ s.phases ∧ s.WorksFor i q ∧ (b = true → q ∈ s.cleaned)
  first : ∀ q, (s.rcfg q).cleanupRegistered = true → ∃ x, (q, x) ∈ s.phases
  closed : ∀ q ∈ s.cleaned, ¬s.Handled q → 2 ≤ (s.status (.req q)).age
  alone : ∀ q, q ∈ owed ∨ (∃ x ∈ s.frames, x.2.reqCleanup = some q) →
    ∀ x ∈ s.frames, ∀ y, x.2.phase ≠ some (q, y)
  ran : ∀ q, s.Called .handlers q → ¬s.Handled q → (s.rcfg q).cleanupRegistered = true
  atEnd : ∀ q, s.status (.req q) = .ended →
    (∀ i, (q, i, .popped none) ∈ s.phases → ¬s.WorksFor i q) ∧ (s.HandlerRan q → q ∈ s.cleaned)
  order : s.log.Pairwise fun e e' => ∀ q, e'.cleans = some q → ∀ y, e.phase ≠ some (q, y)

namespace Once

theorem start : Once (.start site) [] := by
  constructor <;> simp [State.start, State.phases, State.Handled, State.WorksFor, State.Busy,
    State.triggers, State.cleaned, State.stranded, State.HandlerRan, State.Called, ReqConfig.new,
    Interp.new]

end Once

/-! ## Steps that are not about cleanups -/

/-- The call runs no phase and will call no request cleanup. -/
structure Frame.Inert (f : Frame) : Prop where
  phase : f.phase = none
  reqCleanup : f.reqCleanup = none
  unselect : ∀ i q p reset b, f ≠ .unselect i q p reset b
  cleanup : ∀ r i, f ≠ .selected .cleanup r i (.popped none)

theorem Frame.Inert.cleansUp (h : f.Inert) : f.cleansUp = none := by
  cases f with
  | selected caller r i source =>
      cases caller with
      | reqCleanup => exact h.reqCleanup
      | _ => rfl
  | unselect i q p reset b => exact absurd rfl (h.unselect i q p reset b)
  | _ => rfl

/-- No phase begins, no request cleanup is registered or called, and no interpreter
begins or ceases to work for a request. -/
structure Quiet (s s' : State) : Prop where
  log : ∃ es, s'.log = es ++ s.log ∧ ∀ e ∈ es, e.phase = none ∧ e.cleans = none
  frames : ∀ x ∈ s'.frames, x ∈ s.frames ∨ x.2.Inert
  unselect : ∀ c i q p reset b, (c, .unselect i q p reset b) ∈ s.frames →
    (c, .unselect i q p reset b) ∈ s'.frames
  reqCleanup : s'.frames.filterMap (·.2.reqCleanup) = s.frames.filterMap (·.2.reqCleanup)
  stranded : ∀ i ∈ s.stranded, i ∈ s'.stranded
  subpools : s'.subpools = s.subpools
  flag : ∀ q, (s'.rcfg q).cleanupRegistered = (s.rcfg q).cleanupRegistered
  worksFor : ∀ i q, s'.WorksFor i q ↔ s.WorksFor i q
  age : ∀ q, (s.status (.req q)).age ≤ (s'.status (.req q)).age
  ended : ∀ q, s'.status (.req q) = .ended → s.status (.req q) = .ended

theorem filterMap_append_of_none {α β : Type*} {g : α → Option β} {l l' : List α}
    (h : ∀ x ∈ l, g x = none) : (l ++ l').filterMap g = l'.filterMap g := by
  rw [List.filterMap_append, List.filterMap_eq_nil_iff.mpr h, List.nil_append]

theorem Event.phase_ne_none {e : Event} (h : e.calls = some (caller, q))
    (hphase : caller.isPhase = true) : e.phase ≠ none := by
  unfold Event.calls at h
  split at h
  · obtain ⟨rfl, -⟩ := Prod.mk.inj (Option.some.inj h)
    simp [Event.phase, hphase]
  · cases h

/-- Events that are no phases leave it as it is which phases have made a select. -/
theorem State.Called.of_append {es : List Event} (hran : s'.Called caller q)
    (hphase : caller.isPhase = true) (hlog : s'.log = es ++ s.log)
    (hes : ∀ e ∈ es, e.phase = none) : s.Called caller q := by
  obtain ⟨e, he, hcalls⟩ := hran
  rw [hlog] at he
  rcases List.mem_append.mp he with he | he
  · exact absurd (hes e he) (Event.phase_ne_none hcalls hphase)
  · exact ⟨e, he, hcalls⟩

theorem State.Called.of_cons {e : Event} (hran : s'.Called caller q)
    (hphase : caller.isPhase = true) (hlog : s'.log = e :: s.log) (he : e.phase = none) :
    s.Called caller q := by
  refine hran.of_append hphase (List.singleton_append ▸ hlog) fun e' he' => ?_
  rw [List.mem_singleton.mp he', he]

theorem State.HandlerRan.of_called (hran : s'.HandlerRan q)
    (h : ∀ caller, caller.isPhase = true → s'.Called caller q → s.Called caller q) :
    s.HandlerRan q :=
  hran.imp (h .handlers rfl) (h .filter rfl)

namespace Quiet

theorem phases (h : Quiet s s') : s'.phases = s.phases := by
  obtain ⟨es, hlog, hes⟩ := h.log
  rw [State.phases, hlog]
  exact filterMap_append_of_none fun e he => (hes e he).1

theorem cleaned (h : Quiet s s') : s'.cleaned = s.cleaned := by
  obtain ⟨es, hlog, hes⟩ := h.log
  rw [State.cleaned, hlog]
  exact filterMap_append_of_none fun e he => (hes e he).2

theorem handled (h : Quiet s s') : s'.Handled q ↔ s.Handled q := by
  rw [State.Handled, State.Handled, h.phases]

theorem called (h : Quiet s s') (hphase : caller.isPhase = true) (hran : s'.Called caller q) :
    s.Called caller q := by
  obtain ⟨es, hlog, hes⟩ := h.log
  exact hran.of_append hphase hlog fun e he => (hes e he).1

theorem triggers (h : Quiet s s') : s'.triggers = s.triggers := by
  rw [State.triggers, State.triggers, h.subpools, h.reqCleanup, h.cleaned]

theorem mem_frames (h : Quiet s s') {x : ConnId × Frame} (hx : x ∈ s'.frames)
    (hnot : ¬x.2.Inert) : x ∈ s.frames :=
  (h.frames x hx).resolve_right hnot

end Quiet

namespace Once

theorem quiet (h : Once s owed) (hq : Quiet s s') : Once s' owed where
  frames x hx y hy := by
    rw [hq.phases]
    refine h.frames x (hq.mem_frames hx fun hinert => ?_) y hy
    rw [hinert.phase] at hy
    cases hy
  cleanups c r i hx := h.cleanups c r i (hq.mem_frames hx fun hinert => hinert.cleanup r i rfl)
  single q i x hi hx := by
    rw [hq.phases] at hi hx
    exact h.single q i x hi hx
  request i q hi := by
    rw [hq.phases]
    exact (h.request i q ((hq.worksFor i q).mp hi)).imp_right (hq.stranded i)
  account q hnot := by
    rw [hq.triggers, hq.flag]
    exact h.account q (hq.handled.not.mp hnot)
  handled q hhandled := by
    rw [hq.triggers, hq.cleaned]
    exact h.handled q (hq.handled.mp hhandled)
  pending q i hi hnot := by
    rw [hq.phases] at hi
    rw [hq.cleaned] at hnot
    rw [hq.worksFor, hq.flag]
    exact h.pending q i hi hnot
  done q hdone x hx := by
    rw [hq.cleaned] at hdone
    rcases hq.frames x hx with hx | hinert
    · exact h.done q hdone x hx
    · exact ⟨fun y => by simp [hinert.phase], by simp [hinert.cleansUp]⟩
  last q i hi hdone hworks := by
    rw [hq.phases] at hi
    rw [hq.cleaned] at hdone
    obtain ⟨c, p, reset, hx⟩ := h.last q i hi hdone ((hq.worksFor i q).mp hworks)
    exact ⟨c, p, reset, hq.unselect _ _ _ _ _ _ hx⟩
  unselect c i q p reset b hx := by
    rw [hq.phases, hq.worksFor, hq.cleaned]
    exact h.unselect c i q p reset b
      (hq.mem_frames hx fun hinert => hinert.unselect _ _ _ _ _ rfl)
  first q hflag := by
    rw [hq.phases]
    exact h.first q (hq.flag q ▸ hflag)
  closed q hdone hnot := by
    rw [hq.cleaned] at hdone
    exact (h.closed q hdone (hq.handled.not.mp hnot)).trans (hq.age q)
  alone q halone x hx y := by
    rcases hq.frames x hx with hx | hinert
    · refine h.alone q (halone.imp_right ?_) x hx y
      rintro ⟨x, hx, hreq⟩
      refine ⟨x, hq.mem_frames hx fun hinert => ?_, hreq⟩
      rw [hinert.reqCleanup] at hreq
      cases hreq
    · simp [hinert.phase]
  ran q hran hnot := by
    rw [hq.flag]
    exact h.ran q (hq.called rfl hran) (hq.handled.not.mp hnot)
  atEnd q hended := by
    rw [hq.phases, hq.cleaned]
    obtain ⟨hput, hdone⟩ := h.atEnd q (hq.ended q hended)
    exact ⟨fun i hi hworks => hput i hi ((hq.worksFor i q).mp hworks),
      fun hran => hdone (hran.of_called fun _ => hq.called)⟩
  order := by
    obtain ⟨es, hlog, hes⟩ := hq.log
    rw [hlog, List.pairwise_append]
    refine ⟨List.pairwise_of_forall_mem_list fun e he e' he' q hq' => ?_, h.order,
      fun e he e' _ q _ y => by simp [(hes e he).1]⟩
    rw [(hes e' he').2] at hq'
    cases hq'

end Once

/-! ### Which steps these are -/

/-- The call belongs to a request cleanup. -/
def Frame.isCleanup : Frame → Bool
  | .selected .reqCleanup _ _ _ => true
  | .unselect _ _ _ _ _ => true
  | .reqCleanupDone _ _ _ => true
  | _ => false

theorem Frame.isCleanup_of_reqCleanup (h : f.reqCleanup = some q) : f.isCleanup = true := by
  unfold Frame.reqCleanup at h
  split at h
  · rfl
  · cases h

theorem Frame.isCleanup_of_strands (h : f.strands = some i) : f.isCleanup = true := by
  unfold Frame.strands at h
  split at h
  · rfl
  · rfl
  · cases h

theorem filterMap_eq_of_filter {α β : Type*} {g : α → Option β} {test : α → Bool}
    {l l' : List α} (h : l'.filter test = l.filter test)
    (hg : ∀ x b, g x = some b → test x = true) :
    l'.filterMap g = l.filterMap g := by
  have hfilter : ∀ l : List α, l.filterMap g = (l.filter test).filterMap g := by
    intro l
    rw [List.filterMap_filter]
    refine List.filterMap_congr fun x _ => ?_
    split_ifs with htest
    · rfl
    · cases hx : g x with
      | none => rfl
      | some b => exact absurd (hg x b hx) htest
  rw [hfilter l', hfilter l, h]

namespace Quiet

theorem of_calm (hcalm : Calm s s') (hlog : s'.log = s.log)
    (hframes : ∀ x ∈ s'.frames, x ∈ s.frames ∨ x.2.Inert)
    (hcalls : s'.frames.filter (·.2.isCleanup) = s.frames.filter (·.2.isCleanup))
    (hsubpools : s'.subpools = s.subpools)
    (hflag : ∀ q, (s'.rcfg q).cleanupRegistered = (s.rcfg q).cleanupRegistered)
    (hended : ∀ q, s'.status (.req q) = .ended → s.status (.req q) = .ended) : Quiet s s' where
  log := ⟨[], hlog, by simp⟩
  frames := hframes
  unselect c i q p reset b hx := by
    have hmem : (c, .unselect i q p reset b) ∈ s.frames.filter (·.2.isCleanup) :=
      List.mem_filter.mpr ⟨hx, rfl⟩
    rw [← hcalls] at hmem
    exact (List.mem_filter.mp hmem).1
  reqCleanup := filterMap_eq_of_filter hcalls fun _ _ => Frame.isCleanup_of_reqCleanup
  stranded i hi := by
    have hstrands : s'.frames.filterMap (·.2.strands) = s.frames.filterMap (·.2.strands) :=
      filterMap_eq_of_filter hcalls fun _ _ => Frame.isCleanup_of_strands
    rwa [State.stranded, hstrands, hcalm.leaked]
  subpools := hsubpools
  flag := hflag
  worksFor i q := by
    rw [State.WorksFor, State.WorksFor, State.Busy, State.Busy, hcalm.tipool, hcalm.request]
  age q := hcalm.age _
  ended := hended

/-- The calls, the history and the request records are the same. -/
theorem of_same (hcalm : Calm s s') (hlog : s'.log = s.log) (hframes : s'.frames = s.frames)
    (hsubpools : s'.subpools = s.subpools)
    (hflag : ∀ q, (s'.rcfg q).cleanupRegistered = (s.rcfg q).cleanupRegistered)
    (hended : ∀ q, s'.status (.req q) = .ended → s.status (.req q) = .ended) : Quiet s s' :=
  of_calm hcalm hlog (fun _ hx => .inl (hframes ▸ hx)) (by rw [hframes]) hsubpools hflag hended

/-- A call returns that does not belong to a request cleanup. -/
theorem pop (htop : s.top c = some f) (hf : f.isCleanup = false) : Quiet s (s.pop c) := by
  obtain ⟨pre, post, hsplit, -, hpop⟩ := top_eq_some htop
  refine of_calm (Calm.pop s c) rfl (fun x hx => .inl (mem_of_mem_pop hx)) ?_ rfl (fun _ => rfl)
    fun _ h => h
  rw [hpop, hsplit, List.filter_append, List.filter_append, List.filter_cons_of_neg (by simp [hf])]

theorem push (hf : f.isCleanup = false) (hinert : f.Inert) : Quiet s (s.push c f) := by
  refine of_calm (Calm.push s f) rfl (fun x hx => ?_) ?_ rfl (fun _ => rfl) fun _ h => h
  · rcases List.mem_cons.mp hx with rfl | hx
    · exact .inr hinert
    · exact .inl hx
  · exact List.filter_cons_of_neg (by simp [hf])

theorem resetRcfg (s : State) (reset : Option ReqId) : Quiet s (s.resetRcfg reset) := by
  cases reset with
  | none => exact of_same (Calm.refl s) rfl rfl rfl (fun _ => rfl) fun _ h => h
  | some r =>
      refine of_same (Calm.resetRcfg s (some r)) rfl rfl rfl (fun q => ?_) fun _ h => h
      by_cases hq : q = r <;> simp [State.resetRcfg, State.setRcfg, hq, Function.update_of_ne]

/-- The interpreter that is put back works for no request. -/
theorem putback (hpools : PoolsOk s.tipool s.next) (hbusy : s.Busy i)
    (hrequest : (s.interp i).request = none) (pool : Option PoolId) :
    Quiet s (s.putback site i pool) := by
  have hinterp := Ledger.interp_putback site s i pool
  have hlog : (s.putback site i pool).log = .putback i pool :: s.log := by
    have hcond : (s.setInterp i fun x =>
      { x with inUse := false, putback := false, thx := false }).Busy i := hbusy
    simp only [State.putback, if_pos hcond]
    rfl
  obtain ⟨hmem, -⟩ := hpools.busy_putback site pool hbusy
  obtain ⟨tipool, next, interp, log, heq⟩ := Sound.putback_eq site s i pool
  constructor
  case log =>
    exact ⟨[.putback i pool], hlog, by simp [Event.phase, Event.cleans]⟩
  case frames =>
    intro x hx
    rw [heq] at hx
    exact .inl hx
  case unselect =>
    intro c i q p reset b hx
    rwa [heq]
  case reqCleanup =>
    rw [heq]
  case stranded =>
    intro j hj
    rwa [heq]
  case subpools =>
    rw [heq]
  case flag =>
    intro q
    rw [heq]
  case worksFor =>
    -- the interpreter is put back, but worked for no request
    intro j q
    simp only [State.WorksFor, hmem, hinterp]
    by_cases hji : j = i
    · subst hji
      simp [hrequest]
    · rw [Function.update_of_ne hji]
      simp [hji]
  case age =>
    intro q
    rw [heq]
  case ended =>
    intro q hq
    rwa [heq] at hq

end Quiet

/-! ## `modperl_interp_unselect` -/

theorem Frame.holds_of_strands (h : f.strands = some i) : f.holds = some i := by
  unfold Frame.strands at h
  split at h
  · exact h
  · exact h
  · cases h

theorem Frame.holds_of_phase (h : f.phase = some (q, i, .popped none)) : f.holds = some i := by
  unfold Frame.phase at h
  split at h
  · split_ifs at h
    obtain ⟨rfl, rfl, rfl⟩ : _ ∧ _ ∧ _ := by simpa using h
    rfl
  · cases h

namespace State

theorem holders_of_frame {x : ConnId × Frame} (hx : x ∈ s.frames) (hi : x.2.holds = some i) :
    i ∈ s.holders :=
  List.mem_append_left _ (List.mem_append_left _ (List.mem_filterMap.mpr ⟨x, hx, hi⟩))

theorem holders_of_stranded (hi : i ∈ s.stranded) : i ∈ s.holders := by
  rcases List.mem_append.mp hi with hi | hi
  · obtain ⟨x, hx, hstrands⟩ := List.mem_filterMap.mp hi
    exact holders_of_frame hx (Frame.holds_of_strands hstrands)
  · exact List.mem_append_right _ hi

end State

namespace Once

/-- The interpreter of a request has no holder left, and `modperl_interp_unselect` calls
the cleanup: it is the first one, and no phase of the request is left. -/
theorem push_unselect (h : Once s owed) (hledger : Ledger s [i])
    (hrefcnt : (s.interp i).refcnt = 0) (hrequest : (s.interp i).request = some q) :
    Once (s.push c (.unselect i q pool reset false)) owed := by
  have hholders := hledger.notMem_holders hrefcnt
  have hworks : s.WorksFor i q :=
    ⟨hledger.busy_iff.mpr (.inl (List.mem_singleton.mpr rfl)), hrequest⟩
  have hphase : (q, i, .popped none) ∈ s.phases :=
    (h.request i q hworks).resolve_right fun hi => hholders (State.holders_of_stranded hi)
  have hnot : q ∉ s.cleaned := by
    intro hdone
    obtain ⟨c', p', reset', hx⟩ := h.last q i hphase hdone hworks
    exact hholders (State.holders_of_frame hx rfl)
  have hframes : ∀ x ∈ (s.push c (.unselect i q pool reset false)).frames,
      x = (c, .unselect i q pool reset false) ∨ x ∈ s.frames := fun x hx => List.mem_cons.mp hx
  have htriggers : (s.push c (.unselect i q pool reset false)).triggers = s.triggers := rfl
  exact
    { frames := fun x hx y hy => by
        rcases hframes x hx with rfl | hx
        · cases hy
        · exact h.frames x hx y hy
      cleanups := fun c' r j hx => by
        rcases hframes _ hx with heq | hx
        · cases heq
        · exact h.cleanups c' r j hx
      single := h.single
      request := h.request
      account := fun q' => htriggers ▸ h.account q'
      handled := fun q' => htriggers ▸ h.handled q'
      pending := h.pending
      done := fun q' hdone x hx => by
        rcases hframes x hx with rfl | hx
        · refine ⟨fun y => by simp [Frame.phase], fun heq => hnot ?_⟩
          rw [Option.some.inj heq]
          exact hdone
        · exact h.done q' hdone x hx
      last := fun q' j hj hdone hworks' => by
        obtain ⟨c', p', reset', hx⟩ := h.last q' j hj hdone hworks'
        exact ⟨c', p', reset', List.mem_cons_of_mem _ hx⟩
      unselect := fun c' j q' p' reset' b hx => by
        rcases hframes _ hx with heq | hx
        · cases heq
          exact ⟨hphase, hworks, by simp⟩
        · exact h.unselect c' j q' p' reset' b hx
      first := h.first
      closed := h.closed
      alone := fun q' halone x hx y => by
        rcases hframes x hx with rfl | hx
        · simp [Frame.phase]
        · refine h.alone q' (halone.imp_right ?_) x hx y
          rintro ⟨x', hx', hreq⟩
          rcases hframes x' hx' with rfl | hx'
          · cases hreq
          · exact ⟨x', hx', hreq⟩
      ran := h.ran
      atEnd := h.atEnd
      order := h.order }

/-- `modperl_interp_unselect` for an interpreter that is owed. -/
theorem unselects (h : Once s owed) (hledger : Ledger s [i]) :
    Once (s.unselect site c i pool reset) owed := by
  unfold State.unselect
  split_ifs with hrefcnt
  · have hcalm : Calm s (s.setInterp i fun x => { x with refcnt := x.refcnt - 1 }) :=
      Calm.setInterp s ⟨rfl, rfl⟩
    exact (h.quiet (.of_same hcalm rfl rfl rfl (fun _ => rfl) fun _ h => h)).quiet (.resetRcfg _ _)
  · rw [not_not] at hrefcnt
    have hbusy : s.Busy i := hledger.busy_iff.mpr (.inl (List.mem_singleton.mpr rfl))
    split
    · next hrequest =>
        exact (h.quiet (.putback hledger.pools hbusy hrequest pool)).quiet (.resetRcfg _ _)
    · next q hrequest => exact h.push_unselect hledger hrefcnt hrequest

/-- A call returns. -/
theorem leaveSelected (h : Once s []) (hsound : Sound site s) (hok : StepOk site s (.leave c))
    (htop : s.top c = some (.selected caller r i source)) (hcaller : caller ≠ .reqCleanup) :
    Once ((s.pop c).leaveSelected site c caller r i) [] := by
  have hpop : Once (s.pop c) [] := by
    refine h.quiet (.pop htop ?_)
    cases caller with
    | reqCleanup => exact absurd rfl hcaller
    | _ => rfl
  have hkeep : (s.interp i).putback = false →
      Once ((s.pop c).leaveSelected site c caller r i) [] := by
    intro hflag
    rwa [State.leaveSelected_of_not (s.pop c) hflag]
  cases source with
  | rcfg =>
      simp only [StepOk, htop] at hok
      exact hkeep hok
  | found p => exact hkeep (hsound.putback_of_based (mem_of_top htop) rfl)
  | popped kept =>
      cases kept with
      | some p => exact hkeep (hsound.putback_of_based (mem_of_top htop) rfl)
      | none =>
          have hledger : Ledger (s.pop c) [i] := hsound.ledger.pop htop
          unfold State.leaveSelected
          split_ifs
          · split
            · refine (hpop.quiet (.resetRcfg _ r)).unselects ?_
              cases r with
              | none => exact hledger
              | some q => exact hledger.congr rfl rfl rfl rfl rfl rfl
            · exact hpop.unselects hledger
            · exact hpop.unselects hledger
          · exact hpop

/-- A cleanup of a pool runs. -/
theorem runCleanup {k : Cleanup} (h : Once s []) (hledger : Ledger s k.holds.toList) :
    Once (s.runCleanup site p k) [] := by
  cases k with
  | unselect i => exact h.unselects hledger
  | pnotes q i =>
      have hflag : ∀ q', ((s.setRcfg q fun x => { x with pnotes := none }).rcfg
          q').cleanupRegistered = (s.rcfg q').cleanupRegistered := by
        intro q'
        by_cases hq : q' = q <;> simp [State.setRcfg, hq, Function.update_of_ne]
      have hcalm : Calm s (s.setRcfg q fun x => { x with pnotes := none }) := Calm.setRcfg s rfl
      exact h.quiet (.of_same hcalm rfl rfl rfl hflag fun _ h => h)
  | apool perl interp =>
      cases interp with
      | none => exact h
      | some i => exact h.unselects hledger
  | perl perl interp => exact h.quiet (.push rfl ⟨rfl, rfl, by simp, by simp⟩)

theorem dropCleanup (h : Once s []) : Once (s.dropCleanup p) [] :=
  h.quiet (.of_same (Calm.dropCleanup s p) rfl rfl rfl (fun _ => rfl) fun _ h => h)

/-- The first cleanup of a pool that is being destroyed. -/
theorem cleaning (h : Once s []) (hending : s.status p = .ending) :
    Once (s.setStatus p .cleaning) [] := by
  refine h.quiet (.of_same (Calm.setStatus _ ?_) rfl rfl rfl (fun _ => rfl) fun q hq => ?_)
  · simp [hending, PoolStatus.age]
  · by_cases hqp : .req q = p
    · simp [State.setStatus, hqp] at hq
    · simpa only [State.setStatus, Function.update_of_ne hqp] using hq

end Once

end ModPerl
