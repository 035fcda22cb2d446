import ModPerl.Interp.Isolation
import ModPerl.Interp.Phases

/-!
# Anonymous handlers

With threads a handler record cannot hold the `CV` of an anonymous sub.  It holds a
name from a counter of the process, and the `CV` is stored under this name in
`$PL_modglobal{ANONSUB}` of the interpreter that makes the record.  What is stored at
startup is in the parent, and so in every clone.  What is stored later is in one
interpreter only, while the record belongs to the request: a phase that selects
another interpreter does not find it.

The functions are those of `modperl_handler.c`, on top of the machine of the
interpreters.  In which phase a handler is pushed, and for which, is left open.
-/

namespace ModPerl

open Machine

/-- The handler record of an anonymous sub. -/
structure AnonHandler where
  /-- The number in `mgv_obj->name`. -/
  name : ℕ
  /-- For the history: the interpreter that made the record. -/
  home : InterpId
  deriving DecidableEq

/-- The state of the interpreters, and of anonymous handlers. -/
structure AnonState where
  base : State
  /-- `MP_global_anon_cnt` -/
  anonCnt : ℕ
  /-- The names in `$PL_modglobal{ANONSUB}`. -/
  anonsub : InterpId → List ℕ
  /-- The anonymous handlers that have been pushed for the phases of a request. -/
  pushed : ReqId → List AnonHandler
  /-- `can't find ANONSUB's '%s' entry` -/
  croaked : Bool

/-- A step of the machine, or what the Perl code of a thread does with anonymous subs. -/
inductive AnonAct
  | machine (a : Act)
  /-- `$r->push_handlers` with an anonymous sub. -/
  | push (c : ConnId) (r : ReqId)
  /-- `modperl_callback` for a handler with this name. -/
  | call (c : ConnId) (name : ℕ)
  deriving DecidableEq

/-- The request and the interpreter for which a call runs handlers. -/
def Frame.runsFor : Frame → Option (ReqId × InterpId)
  | .selected .handlers (some r) i _ => some (r, i)
  | .selected .cleanup (some r) i _ => some (r, i)
  | .selected .filter (some r) i _ => some (r, i)
  | _ => none

/-- The callers that run handlers. -/
def Caller.runsHandlers : Caller → Bool
  | .handlers | .cleanup | .filter => true
  | _ => false

namespace AnonState

variable (site : Site) (s : AnonState)

/-- `modperl_handler_anon_next` -/
def anonNext (i : InterpId) : AnonState × AnonHandler :=
  ({ s with anonCnt := s.anonCnt + 1 }, ⟨s.anonCnt + 1, i⟩)

/-- `modperl_handler_anon_add` -/
def anonAdd (i : InterpId) (name : ℕ) : AnonState :=
  { s with anonsub := Function.update s.anonsub i (name :: s.anonsub i) }

/-- `modperl_handler_anon_get` -/
def anonGet (i : InterpId) (name : ℕ) : Bool := name ∈ s.anonsub i

/-- `modperl_handler_new_anon` -/
def newAnon (i : InterpId) : AnonState × AnonHandler :=
  let (s, handler) := s.anonNext i
  (s.anonAdd i handler.name, handler)

/-- `modperl_handler_push_handlers`, in Perl code that this interpreter runs. -/
def pushHandlers (i : InterpId) (r : ReqId) : AnonState :=
  let (s, handler) := s.newAnon i
  { s with pushed := Function.update s.pushed r (s.pushed r ++ [handler]) }

/-- `modperl_callback`, up to the call of the sub. -/
def callback (i : InterpId) (name : ℕ) : AnonState :=
  if s.anonGet i name then s else { s with croaked := true }

def step : AnonAct → Option AnonState
  | .machine a => (ModPerl.step site s.base a).map fun base => { s with base }
  | .push c r => do
      let i ← s.base.running c
      if site.connection r = c ∧ s.base.Intact (.req r) then some (s.pushHandlers i r) else none
  | .call c name => do
      let (r, i) ← (s.base.top c).bind Frame.runsFor
      if name ∈ (s.pushed r).map AnonHandler.name then some (s.callback i name) else none

/-- After startup, when a number of anonymous subs has been configured and the interpreters
have been cloned. -/
def start (startup : ℕ) : AnonState where
  base := .start site
  anonCnt := startup
  anonsub _ := (List.range startup).map (· + 1)
  pushed _ := []
  croaked := false

end AnonState

/-- Where `modperl_interp_select` looks: at what is stored for the request, at what the pools
keep, and at the pool of interpreters. -/
def State.inReach (site : Site) (s : State) (caller : Caller) (c : ConnId) (r : Option ReqId)
    (dcfg : InterpScope) : Option InterpId :=
  let m := site.mip (site.serverOf c r)
  (r.bind fun r => (s.rcfg r).interp).or
    (((s.firstKept (site.searched caller c r dcfg)).map Prod.snd).or
      (((s.tipool m).pop (site.interpPoolCfg m) ⟨m, s.next m⟩).map Prod.fst))

/-- A handler is called by a phase that has the interpreter in which it was made. -/
def AtHome (s : AnonState) : AnonAct → Prop
  | .call c name => ∀ x ∈ (s.base.top c).bind Frame.runsFor, ∀ handler ∈ s.pushed x.1,
      handler.name = name → handler.home = x.2
  | _ => True

instance : DecidableRel AtHome := fun s a => by
  unfold AtHome
  split <;> infer_instance

section Names

variable {site : Site} {s s' s'' : AnonState} {i j : InterpId} {q r : ReqId} {name : ℕ}
  {handler : AnonHandler}

theorem mem_anonsub_push : name ∈ (s.pushHandlers i r).anonsub j ↔
    j = i ∧ name = s.anonCnt + 1 ∨ name ∈ s.anonsub j := by
  change name ∈ Function.update s.anonsub i ((s.anonCnt + 1) :: s.anonsub i) j ↔ _
  by_cases hj : j = i
  · subst hj
    simp
  · simp [hj]

theorem mem_pushed_push : handler ∈ (s.pushHandlers i r).pushed q ↔
    handler ∈ s.pushed q ∨ q = r ∧ handler = ⟨s.anonCnt + 1, i⟩ := by
  change handler ∈ Function.update s.pushed r (s.pushed r ++ [⟨s.anonCnt + 1, i⟩]) q ↔ _
  by_cases hq : q = r
  · subst hq
    simp
  · simp [hq]

/-- The handlers that have been pushed have names of their own, and each is stored in one
interpreter. -/
structure Named (s : AnonState) : Prop where
  pools : PoolsOk s.base.tipool s.base.next
  stored : ∀ i, ∀ name ∈ s.anonsub i, name ≤ s.anonCnt
  counted : ∀ q, ∀ handler ∈ s.pushed q, handler.name ≤ s.anonCnt
  home : ∀ q, ∀ handler ∈ s.pushed q, ∀ i, handler.name ∈ s.anonsub i ↔ i = handler.home

namespace Named

theorem start (site : Site) (startup : ℕ) : Named (.start site startup) where
  pools := .start site
  stored i name hname := by
    obtain ⟨k, hk, rfl⟩ := List.mem_map.mp hname
    exact List.mem_range.mp hk
  counted q handler hhandler := absurd hhandler List.not_mem_nil
  home q handler hhandler := absurd hhandler List.not_mem_nil

/-- The name of a new handler is in no table yet. -/
theorem push (h : Named s) (i : InterpId) (r : ReqId) : Named (s.pushHandlers i r) where
  pools := h.pools
  stored j name hname := by
    rcases mem_anonsub_push.mp hname with ⟨-, rfl⟩ | hname
    · exact le_rfl
    · exact Nat.le_succ_of_le (h.stored j name hname)
  counted q handler hhandler := by
    rcases mem_pushed_push.mp hhandler with hhandler | ⟨-, rfl⟩
    · exact Nat.le_succ_of_le (h.counted q handler hhandler)
    · exact le_rfl
  home q handler hhandler j := by
    rw [mem_anonsub_push]
    rcases mem_pushed_push.mp hhandler with hhandler | ⟨-, rfl⟩
    · have hold : handler.name ≠ s.anonCnt + 1 := by
        have := h.counted q handler hhandler
        omega
      rw [← h.home q handler hhandler j]
      exact or_iff_right fun hnew => hold hnew.2
    · have hnew : s.anonCnt + 1 ∉ s.anonsub j := by
        intro hmem
        have := h.stored j _ hmem
        omega
      simp [hnew]

/-- `modperl_callback` finds a handler where it was made. -/
theorem callback_croaked (h : Named s) (hhandler : handler ∈ s.pushed q) (i : InterpId) :
    (s.callback i handler.name).croaked = false ↔ s.croaked = false ∧ handler.home = i := by
  have hget : s.anonGet i handler.name = true ↔ handler.home = i := by
    simpa [AnonState.anonGet, eq_comm] using h.home q handler hhandler i
  unfold AnonState.callback
  split_ifs with hfound
  · simp [hget.mp hfound]
  · simp [mt hget.mpr hfound]

/-- Handlers of one name have one home. -/
theorem atHome_iff (h : Named s) {c : ConnId}
    (hframe : (s.base.top c).bind Frame.runsFor = some (q, i)) (hhandler : handler ∈ s.pushed q) :
    AtHome s (.call c handler.name) ↔ handler.home = i := by
  simp only [AtHome, hframe, Option.mem_some_iff, forall_eq']
  constructor
  · exact fun hall => hall handler hhandler rfl
  · intro hhome handler' hhandler' hname
    have hstored := (h.home q handler hhandler handler.home).mpr rfl
    rw [← hname, h.home q handler' hhandler'] at hstored
    rw [← hstored, hhome]

theorem step (h : Named s) {a : AnonAct} (hs : s.step site a = some s') : Named s' := by
  cases a with
  | machine a =>
      obtain ⟨base, hbase, rfl⟩ := Option.map_eq_some_iff.mp hs
      exact ⟨step_poolsOk h.pools hbase, h.stored, h.counted, h.home⟩
  | push c r =>
      obtain ⟨i, hi, hs⟩ := Option.bind_eq_some_iff.mp hs
      obtain ⟨-, heq⟩ := Option.ite_none_right_eq_some.mp hs
      exact Option.some.inj heq ▸ h.push i r
  | call c name =>
      obtain ⟨⟨r, i⟩, hframe, hs⟩ := Option.bind_eq_some_iff.mp hs
      obtain ⟨-, heq⟩ := Option.ite_none_right_eq_some.mp hs
      obtain rfl := Option.some.inj heq
      unfold AnonState.callback
      split_ifs
      · exact h
      · exact ⟨h.pools, h.stored, h.counted, h.home⟩

/-- One step: no handler has been missed if and only if the condition is met. -/
theorem croaked_iff (h : Named s) (hcroaked : s.croaked = false) {a : AnonAct}
    (hs : s.step site a = some s') : s'.croaked = false ↔ AtHome s a := by
  cases a with
  | machine a =>
      obtain ⟨base, hbase, rfl⟩ := Option.map_eq_some_iff.mp hs
      exact iff_of_true hcroaked trivial
  | push c r =>
      obtain ⟨i, hi, hs⟩ := Option.bind_eq_some_iff.mp hs
      obtain ⟨-, heq⟩ := Option.ite_none_right_eq_some.mp hs
      obtain rfl := Option.some.inj heq
      exact iff_of_true hcroaked trivial
  | call c name =>
      obtain ⟨⟨r, i⟩, hframe, hs⟩ := Option.bind_eq_some_iff.mp hs
      obtain ⟨hname, heq⟩ := Option.ite_none_right_eq_some.mp hs
      obtain rfl := Option.some.inj heq
      obtain ⟨handler, hhandler, rfl⟩ := List.mem_map.mp hname
      rw [h.callback_croaked hhandler i, h.atHome_iff hframe hhandler]
      exact and_iff_right hcroaked

end Named

end Names

section Select

variable {site : Site} {s s' s₀ s₁ : State} {a : Act} {caller : Caller} {r : Option ReqId}
  {c : ConnId} {dcfg : InterpScope} {i : InterpId} {source : Source}

/-- A select returns the interpreter that is in reach. -/
theorem Selected.inReach (h : Selected site s₀ caller c r dcfg s₁ i source)
    (hbefore : Before s s₀) : s.inReach site caller c r dcfg = some i := by
  simp only [State.inReach, ← firstKept_congr hbefore.userdata, ← hbefore.rcfg, ← hbefore.tipool,
    ← hbefore.next]
  cases h with
  | rcfg hq hrcfg => simp [hq, hrcfg]
  | found hnone hfound => simp [hnone, hfound]
  | handler hnone hfound hpop => simp [hnone, hfound, hpop]
  | kept hnone hfound hpop => simp [hnone, hfound, hpop]

/-- The interpreter in reach is the one that the innermost call has. -/
theorem top_of_selecting (hpools : PoolsOk s.tipool s.next)
    (ha : s.selecting site a = some (caller, c, r, dcfg)) (hs : step site s a = some s') :
    ∃ i source, s'.top c = some (.selected caller r i source) ∧
      s.inReach site caller c r dcfg = some i := by
  cases step_effect hs with
  | select s₀ ha' hbefore henter =>
      cases ha.symm.trans ha'
      obtain ⟨s₁, i, source, hselect, hentered⟩ := enter_cases henter (hbefore.poolsOk hpools)
      refine ⟨i, source, ?_, hselect.inReach hbefore⟩
      simp [State.top, hentered.frames]
  | putback _ _ _ ha' => cases ha.symm.trans ha'
  | leak ha' => cases ha.symm.trans ha'
  | calm ha' => cases ha.symm.trans ha'

end Select

variable {site : Site} {s : AnonState} {startup : ℕ}

/-- As long as every handler is called at home, each is found, and the first call
elsewhere croaks.  A phase is at home if the interpreter of the handler is in
reach when the phase begins. -/
theorem anon_handlers_found
    (h : Reachable (AnonState.step site) AtHome (.start site startup) s) :
    s.croaked = false ∧
      (∀ a s', ¬AtHome s a → s.step site a = some s' → s'.croaked = true) ∧
      ∀ a caller c q dcfg s', s.base.selecting site a = some (caller, c, some q, dcfg) →
        caller.runsHandlers → s.step site (.machine a) = some s' →
        ∀ handler ∈ s.pushed q, (s'.step site (.call c handler.name)).isSome ∧
          (AtHome s' (.call c handler.name) ↔
            s.base.inReach site caller c (some q) dcfg = some handler.home) := by
  have hinv : Named s ∧ s.croaked = false := by
    refine h.invariant (I := fun s => Named s ∧ s.croaked = false) ⟨.start site startup, rfl⟩ ?_
    rintro s a s' - ⟨hnamed, hcroaked⟩ hok hs
    exact ⟨hnamed.step hs, (hnamed.croaked_iff hcroaked hs).mpr hok⟩
  obtain ⟨hnamed, hcroaked⟩ := hinv
  refine ⟨hcroaked, fun a s' hok hs => ?_, ?_⟩
  · exact eq_true_of_ne_false (mt (hnamed.croaked_iff hcroaked hs).mp hok)
  · intro a caller c q dcfg s' ha hruns hs handler hhandler
    obtain ⟨base, hbase, rfl⟩ := Option.map_eq_some_iff.mp hs
    obtain ⟨i, source, htop, hreach⟩ := top_of_selecting hnamed.pools ha hbase
    have hframe : (base.top c).bind Frame.runsFor = some (q, i) := by
      rw [htop]
      cases caller <;> first | rfl | cases hruns
    have hnamed' : Named { s with base } := hnamed.step hs
    constructor
    · have hname : handler.name ∈ (s.pushed q).map AnonHandler.name := List.mem_map_of_mem hhandler
      change (((base.top c).bind Frame.runsFor).bind _).isSome = true
      rw [hframe]
      change (if _ then _ else none : Option AnonState).isSome = true
      rw [if_pos hname]
      rfl
    · rw [hnamed'.atHome_iff hframe hhandler, hreach, Option.some.injEq, eq_comm]

/-- `PerlTransHandler` pushes a handler for the next phase, which has the same interpreter. -/
theorem anon_handlers_found_kept : ∃ s : AnonState, s.croaked = false ∧
    (s.base.top 0).bind Frame.runsFor = some (0, ⟨0, 0⟩) ∧ s.pushed 0 = [⟨1, ⟨0, 0⟩⟩] := by
  obtain ⟨s, hs, hend⟩ : ∃ s : AnonState,
      Reachable (AnonState.step locationScope) AtHome (.start locationScope 0) s ∧
        ((s.base.top 0).bind Frame.runsFor = some (0, ⟨0, 0⟩) ∧ s.pushed 0 = [⟨1, ⟨0, 0⟩⟩]) :=
    Reachable.exists_of_run (show runOk _ _ _ [.machine (.openPool (.conn 0)),
      .machine (.openPool (.req 0)), .machine (.handlers 0 (some 0) true .undef), .push 0 0,
      .machine (.leave 0), .machine (.handlers 0 (some 0) true .undef), .call 0 1]
      by decide +kernel) (by decide +kernel)
  exact ⟨s, (anon_handlers_found hs).1, hend⟩

/-- `PerlTransHandler` runs in an interpreter that is kept in `r->pool`, and pushes a handler for
the next phase, for which the `<Location>` is not in force: this has one kept in `c->pool`, and
croaks. -/
theorem anon_handler_lost : ¬∀ site startup s,
    Reachable (AnonState.step site) Always (.start site startup) s → s.croaked = false := by
  intro hall
  obtain ⟨s, hs, hcroaked⟩ : ∃ s : AnonState,
      Reachable (AnonState.step locationScope) Always (.start locationScope 0) s ∧
        s.croaked = true :=
    Reachable.exists_of_run (show runOk _ _ _ [.machine (.openPool (.conn 0)),
      .machine (.openPool (.req 0)), .machine (.handlers 0 (some 0) true .request), .push 0 0,
      .machine (.leave 0), .machine (.handlers 0 (some 0) true .undef), .call 0 1]
      by decide +kernel) (by decide +kernel)
  rw [hall _ _ _ hs] at hcroaked
  cases hcroaked

end ModPerl
