import ModPerl.Interp.Steps

/-!
# What a step adds to the history

A step makes a call of `modperl_interp_select`, or it puts an interpreter back,
or it does neither (`step_effect`).  Statements about the history of a run need
to look at the calls of `modperl_interp_select` only: everything else leaves
alone where interpreters are kept, except that it forgets them.
-/

namespace ModPerl

variable {site : Site} {s s' s₀ s₁ : State} {a : Act} {caller : Caller} {r : Option ReqId}
  {c : ConnId} {dcfg : InterpScope} {i : InterpId} {source : Source} {p : PoolId} {q : ReqId}

/-! ## The history -/

/-- The event is about an interpreter. -/
def Event.isUse : Event → Bool
  | .requestCleanup _ => false
  | _ => true

/-- The selects and putbacks so far. -/
def State.uses (s : State) : List Event := s.log.filter Event.isUse

theorem uses_putback (site : Site) (s : State) (i : InterpId) (p : Option PoolId) :
    (s.putback site i p).uses = if s.Busy i then .putback i p :: s.uses else s.uses := by
  have hbusy : (s.setInterp i fun x =>
    { x with inUse := false, putback := false, thx := false }).Busy i ↔ s.Busy i := .rfl
  unfold State.putback
  simp only [hbusy]
  split_ifs <;> rfl

/-- The call of `modperl_interp_select` that a step makes: its caller, thread,
request, and the scope in the directory configuration. -/
def State.selecting (site : Site) (s : State) :
    Act → Option (Caller × ConnId × Option ReqId × InterpScope)
  | .reqCleanup r dcfg => some (.reqCleanup, site.connection r, some r, dcfg)
  | .handlers c r found dcfg =>
      if found ∧ site.enable (site.serverOf c r) then some (.handlers, c, r, dcfg) else none
  | .filter c r dcfg => some (.filter, c, r, dcfg)
  | .response r cgi dcfg =>
      some (if cgi then .responseHandlerCgi else .responseHandler, site.connection r, some r, dcfg)
  | .requestCleanup c found dcfg =>
      match s.top c with
      | some (.unselect _ r _ _ false) =>
          if found ∧ site.enable (site.server r) then some (.cleanup, c, some r, dcfg) else none
      | some (.selected .reqCleanup (some r) _ _) =>
          if found ∧ site.enable (site.server r) then some (.cleanup, c, some r, dcfg) else none
      | _ => none
  | _ => none

/-- A select finds no interpreter, and pops one for the handler. -/
def State.PopsForHandler (site : Site) (s : State) (caller : Caller) (c : ConnId)
    (r : Option ReqId) (dcfg : InterpScope) : Prop :=
  (r.bind fun r => (s.rcfg r).interp) = none ∧
    s.firstKept (site.searched caller c r dcfg) = none ∧
    site.scope r (site.serverOf c r) dcfg = .handler

instance : Decidable (s.PopsForHandler site caller c r dcfg) :=
  inferInstanceAs (Decidable (_ ∧ _ ∧ _))

theorem Selected.popsForHandler (h : Selected site s caller c r dcfg s₁ i (.popped none)) :
    s.PopsForHandler site caller c r dcfg := by
  cases h with
  | handler hrcfg hkept _ hscope _ => exact ⟨hrcfg, hkept, hscope⟩

/-! ## Steps without a select -/

/-- How far the life of a pool has come. -/
def PoolStatus.age : PoolStatus → ℕ
  | .unborn => 0
  | .live => 1
  | .clearing => 1
  | .ending => 2
  | .cleaning => 3
  | .ended => 4

/-- No interpreter is taken or kept; at most pools and requests forget theirs. -/
structure Calm (s s' : State) : Prop where
  tipool : s'.tipool = s.tipool
  next : s'.next = s.next
  request : ∀ i, (s'.interp i).request = (s.interp i).request
  flag : ∀ i, (s'.interp i).putback = (s.interp i).putback
  stored : ∀ q i, (s'.rcfg q).interp = some i → (s.rcfg q).interp = some i
  kept : ∀ p i, s'.userdata p = some i → s.userdata p = some i
  forgets : ∀ p, s'.userdata p = s.userdata p ∨ s'.status p = .ended
  age : ∀ p, (s.status p).age ≤ (s'.status p).age
  leaked : s'.leaked = s.leaked
  uses : s'.uses = s.uses

namespace Calm

theorem refl (s : State) : Calm s s :=
  ⟨rfl, rfl, fun _ => rfl, fun _ => rfl, fun _ _ h => h, fun _ _ h => h, fun _ => .inl rfl,
    fun _ => le_rfl, rfl, rfl⟩

theorem ended (h : Calm s s') (hp : s.status p = .ended) : s'.status p = .ended := by
  have hage := h.age p
  rw [hp] at hage
  cases hs : s'.status p <;> rw [hs] at hage <;> simp_all [PoolStatus.age]

theorem trans (h : Calm s s₀) (h' : Calm s₀ s') : Calm s s' where
  tipool := h'.tipool.trans h.tipool
  next := h'.next.trans h.next
  request i := (h'.request i).trans (h.request i)
  flag i := (h'.flag i).trans (h.flag i)
  stored q i hq := h.stored q i (h'.stored q i hq)
  kept p i hp := h.kept p i (h'.kept p i hp)
  forgets p := by
    rcases h'.forgets p with h₁ | h₁
    · exact (h.forgets p).imp (fun h₂ => h₁.trans h₂) fun h₂ => h'.ended h₂
    · exact .inr h₁
  age p := (h.age p).trans (h'.age p)
  leaked := h'.leaked.trans h.leaked
  uses := h'.uses.trans h.uses

/-- Most steps change none of this. -/
theorem of_eq (htipool : s'.tipool = s.tipool) (hnext : s'.next = s.next)
    (hinterp : ∀ i, (s'.interp i).request = (s.interp i).request ∧
      (s'.interp i).putback = (s.interp i).putback)
    (hrcfg : ∀ q, (s'.rcfg q).interp = (s.rcfg q).interp) (huserdata : s'.userdata = s.userdata)
    (hstatus : s'.status = s.status) (hleaked : s'.leaked = s.leaked) (huses : s'.uses = s.uses) :
    Calm s s' :=
  ⟨htipool, hnext, fun i => (hinterp i).1, fun i => (hinterp i).2,
    fun q i hq => by rwa [hrcfg] at hq, fun p i hp => by rwa [huserdata] at hp,
    fun p => .inl (by rw [huserdata]), fun p => by rw [hstatus], hleaked, huses⟩

theorem setRcfg (s : State) {f : ReqConfig → ReqConfig}
    (hf : (f (s.rcfg q)).interp = (s.rcfg q).interp) : Calm s (s.setRcfg q f) := by
  refine of_eq rfl rfl (fun _ => ⟨rfl, rfl⟩) (fun q' => ?_) rfl rfl rfl rfl
  by_cases hq : q' = q
  · subst hq
    simpa [State.setRcfg] using hf
  · simp only [State.setRcfg, Function.update_of_ne hq]

theorem resetRcfg (s : State) (reset : Option ReqId) : Calm s (s.resetRcfg reset) := by
  cases reset with
  | none => exact refl s
  | some q =>
      refine ⟨rfl, rfl, fun _ => rfl, fun _ => rfl, fun q' i hq' => ?_, fun _ _ h => h,
        fun _ => .inl rfl, fun _ => le_rfl, rfl, rfl⟩
      by_cases hq : q' = q
      · subst hq
        simp [State.resetRcfg, State.setRcfg] at hq'
      · simpa only [State.resetRcfg, State.setRcfg, Function.update_of_ne hq] using hq'

theorem setInterp (s : State) {f : Interp → Interp}
    (hf : (f (s.interp i)).request = (s.interp i).request ∧
      (f (s.interp i)).putback = (s.interp i).putback) : Calm s (s.setInterp i f) := by
  refine of_eq rfl rfl (fun j => ?_) (fun _ => rfl) rfl rfl rfl rfl
  by_cases hj : j = i
  · subst hj
    simpa [State.setInterp] using hf
  · simp only [State.setInterp, Function.update_of_ne hj, and_self]

theorem setStatus (s : State) {st : PoolStatus} (hst : (s.status p).age ≤ st.age) :
    Calm s (s.setStatus p st) := by
  refine ⟨rfl, rfl, fun _ => rfl, fun _ => rfl, fun _ _ h => h, fun _ _ h => h, fun _ => .inl rfl,
    fun q => ?_, rfl, rfl⟩
  by_cases hq : q = p
  · subst hq
    simpa [State.setStatus] using hst
  · simp only [State.setStatus, Function.update_of_ne hq, le_refl]

theorem openPool (s : State) (h : s.status p = .unborn) :
    Calm s ({ s with pools := p :: s.pools }.setStatus p .live) := by
  have hcalm : Calm s { s with pools := p :: s.pools } :=
    of_eq rfl rfl (fun _ => ⟨rfl, rfl⟩) (fun _ => rfl) rfl rfl rfl rfl
  refine hcalm.trans (setStatus _ ?_)
  simp [h, PoolStatus.age]

theorem push (s : State) (f : Frame) : Calm s (s.push c f) :=
  of_eq rfl rfl (fun _ => ⟨rfl, rfl⟩) (fun _ => rfl) rfl rfl rfl rfl

theorem pop (s : State) (c : ConnId) : Calm s (s.pop c) :=
  of_eq rfl rfl (fun _ => ⟨rfl, rfl⟩) (fun _ => rfl) rfl rfl rfl rfl

theorem dropCleanup (s : State) (p : PoolId) : Calm s (s.dropCleanup p) :=
  of_eq rfl rfl (fun _ => ⟨rfl, rfl⟩) (fun _ => rfl) rfl rfl rfl rfl

theorem addCleanup (s : State) (k : PoolId × Cleanup) :
    Calm s { s with cleanups := k :: s.cleanups } :=
  of_eq rfl rfl (fun _ => ⟨rfl, rfl⟩) (fun _ => rfl) rfl rfl rfl rfl

theorem addRef (s : State) (i : InterpId) : Calm s (s.addRef i).1 := by
  unfold State.addRef
  split_ifs
  · exact setInterp s (f := fun x => { x with refcnt := x.refcnt + 1 }) ⟨rfl, rfl⟩
  · exact refl s

theorem takeOwnership (s : State) (p : PoolId) (i : InterpId) : Calm s (s.takeOwnership p i) :=
  (addRef s i).trans (addCleanup _ _)

theorem cleanupRegisterPerl (s : State) (p : PoolId) (i : InterpId) :
    Calm s (s.cleanupRegisterPerl p i) :=
  (addRef s i).trans (addCleanup _ _)

theorem pnotes (s : State) (q : ReqId) (i : InterpId) : Calm s (s.pnotes q i) := by
  unfold State.pnotes
  split
  · exact refl s
  · exact (addCleanup s _).trans (setRcfg _ rfl)

end Calm

/-- `modperl_interp_unselect` puts back at most the interpreter it is called for. -/
theorem unselect_calm (site : Site) (s : State) (c : ConnId) (i : InterpId) (p : Option PoolId)
    (reset : Option ReqId) :
    Calm s (s.unselect site c i p reset) ∨
      (s.interp i).refcnt = 0 ∧ Calm (s.putback site i p) (s.unselect site c i p reset) := by
  unfold State.unselect
  split_ifs with hrefcnt
  · have hcalm : Calm s (s.setInterp i fun x => { x with refcnt := x.refcnt - 1 }) :=
      Calm.setInterp s ⟨rfl, rfl⟩
    exact .inl (hcalm.trans (Calm.resetRcfg _ reset))
  · rw [not_not] at hrefcnt
    split
    · exact .inr ⟨hrefcnt, Calm.resetRcfg _ reset⟩
    · exact .inl (Calm.push s _)

/-! ## The caller of a select -/

/-- The state that a caller leaves when `modperl_interp_select` has left `s₁`. -/
structure Entered (s₁ : State) (caller : Caller) (c : ConnId) (r : Option ReqId) (i : InterpId)
    (source : Source) (s' : State) : Prop where
  tipool : s'.tipool = s₁.tipool
  next : s'.next = s₁.next
  interp : s'.interp = s₁.interp
  userdata : s'.userdata = s₁.userdata
  cleanups : s'.cleanups = s₁.cleanups
  status : s'.status = s₁.status
  pools : s'.pools = s₁.pools
  leaked : s'.leaked = s₁.leaked
  frames : s'.frames = (c, .selected caller r i source) :: s₁.frames
  log : s'.log = .select caller r c i source :: s₁.log
  stored : ∀ q, (s'.rcfg q).interp = if caller.isResponse = true ∧ r = some q ∧
    (s₁.interp i).putback = true then some i else (s₁.rcfg q).interp
  pnotes : ∀ q, (s'.rcfg q).pnotes = (s₁.rcfg q).pnotes

theorem entered_begin (s₁ : State) (caller : Caller) (c : ConnId) (r : Option ReqId) (i : InterpId)
    (source : Source) : Entered s₁ caller c r i source
      (((s₁.record (.select caller r c i source)).begin caller r i).push c
        (.selected caller r i source)) := by
  obtain ⟨rcfg, subpools, heq, hpnotes, hstored⟩ :=
    begin_eq (s₁.record (.select caller r c i source)) caller r i
  rw [heq]
  exact ⟨rfl, rfl, rfl, rfl, rfl, rfl, rfl, rfl, rfl, rfl, hstored, hpnotes⟩

theorem enter_cases (h : s.enter site caller c r dcfg = some s')
    (hpools : PoolsOk s.tipool s.next) :
    ∃ s₁ i source, Selected site s caller c r dcfg s₁ i source ∧
      Entered s₁ caller c r i source s' := by
  obtain ⟨s₁, i, source, hselect, rfl⟩ := enter_eq_some hpools h
  exact ⟨s₁, i, source, hselect, entered_begin s₁ caller c r i source⟩

theorem Entered.uses (h : Entered s₁ caller c r i source s') :
    s'.uses = .select caller r c i source :: s₁.uses := by
  rw [State.uses, h.log]
  rfl

/-! ## Steps -/

/-- The state in which a step calls `modperl_interp_select`: the innermost call may have been
replaced, and nothing that the select reads has changed. -/
structure Before (s s₀ : State) : Prop where
  tipool : s₀.tipool = s.tipool
  next : s₀.next = s.next
  interp : s₀.interp = s.interp
  rcfg : s₀.rcfg = s.rcfg
  userdata : s₀.userdata = s.userdata
  cleanups : s₀.cleanups = s.cleanups
  status : s₀.status = s.status
  pools : s₀.pools = s.pools
  leaked : s₀.leaked = s.leaked
  uses : s₀.uses = s.uses

theorem Before.of_eq {frames : List (ConnId × Frame)} {subpools : List ReqId} {log : List Event}
    (h : s₀ = { s with frames := frames, subpools := subpools, log := log })
    (huses : s₀.uses = s.uses) : Before s s₀ := by
  subst h
  exact ⟨rfl, rfl, rfl, rfl, rfl, rfl, rfl, rfl, rfl, huses⟩

theorem Before.calm (h : Before s s₀) : Calm s s₀ :=
  .of_eq h.tipool h.next (fun i => by simp only [h.interp, and_self])
    (fun q => by rw [h.rcfg]) h.userdata h.status h.leaked h.uses

theorem Before.popsForHandler (h : Before s s₀) (hpops : s₀.PopsForHandler site caller c r dcfg) :
    s.PopsForHandler site caller c r dcfg :=
  ⟨by rw [← h.rcfg]; exact hpops.1, (firstKept_congr h.userdata).symm.trans hpops.2.1, hpops.2.2⟩

theorem Before.poolsOk (h : Before s s₀) (hpools : PoolsOk s.tipool s.next) :
    PoolsOk s₀.tipool s₀.next := by
  rw [h.tipool, h.next]
  exact hpools

/-- The interpreter that the cleanup itself releases. -/
def Cleanup.releasesInterp : Cleanup → Option InterpId
  | .unselect i => some i
  | .apool _ interp => interp
  | _ => none

/-- What a step does to interpreters. -/
inductive Effect (site : Site) (s : State) (a : Act) (s' : State) : Prop
  | select {caller : Caller} {c : ConnId} {r : Option ReqId} {dcfg : InterpScope} (s₀ : State) :
      s.selecting site a = some (caller, c, r, dcfg) → Before s s₀ →
      s₀.enter site caller c r dcfg = some s' → Effect site s a s'
  | putback (s₀ : State) (i : InterpId) (p : Option PoolId) : s.selecting site a = none →
      ((s.interp i).refcnt = 0 ∧ (p = none ∨ ∃ p' k, p = some p' ∧ a = .runCleanup p' ∧
          s.nextCleanup p' = some k ∧ k.releasesInterp = some i) ∨
        ∃ c q reset, s.top c = some (.unselect i q p reset true)) →
      Calm s s₀ → Calm (s₀.putback site i p) s' → Effect site s a s'
  /-- `modperl_config_req_cleanup` returns, and nobody will put its interpreter back. -/
  | leak {c : ConnId} {q : ReqId} {i : InterpId} : s.selecting site a = none →
      s.top c = some (.reqCleanupDone q i (.popped none)) →
      Calm { s with leaked := i :: s.leaked } s' → Effect site s a s'
  | calm : s.selecting site a = none → Calm s s' → Effect site s a s'

namespace Effect

/-- The request of the select comes last, so that the states are known. -/
theorem of_enter (h : s₀.enter site caller c r dcfg = some s') (hbefore : Before s s₀)
    (ha : s.selecting site a = some (caller, c, r, dcfg)) : Effect site s a s' :=
  .select s₀ ha hbefore h

theorem of_unselect {p : Option PoolId} {reset : Option ReqId} (ha : s.selecting site a = none)
    (h : Calm s s₀) (hinterp : s₀.interp = s.interp)
    (hp : p = none ∨ ∃ p' k, p = some p' ∧ a = .runCleanup p' ∧ s.nextCleanup p' = some k ∧
      k.releasesInterp = some i) :
    Effect site s a (s₀.unselect site c i p reset) := by
  rcases unselect_calm site s₀ c i p reset with h' | ⟨hrefcnt, h'⟩
  · exact .calm ha (h.trans h')
  · exact .putback s₀ i p ha (.inl ⟨hinterp ▸ hrefcnt, hp⟩) h h'

theorem of_runCleanup {k : Cleanup} (hnext : s.nextCleanup p = some k) (h : Calm s s₀)
    (hinterp : s₀.interp = s.interp) :
    Effect site s (.runCleanup p) (s₀.runCleanup site p k) := by
  cases k with
  | unselect i => exact of_unselect rfl h hinterp (.inr ⟨p, _, rfl, rfl, hnext, rfl⟩)
  | pnotes q i =>
      have hcalm : Calm s₀ (s₀.setRcfg q fun x => { x with pnotes := none }) :=
        Calm.setRcfg s₀ rfl
      exact .calm rfl (h.trans hcalm)
  | apool i interp =>
      cases interp with
      | none => exact .calm rfl h
      | some j => exact of_unselect rfl h hinterp (.inr ⟨p, _, rfl, rfl, hnext, rfl⟩)
  | perl i interp => exact .calm rfl (h.trans (Calm.push s₀ _))

theorem of_leaveSelected (ha : s.selecting site a = none) (h : Calm s s₀)
    (hinterp : s₀.interp = s.interp) : Effect site s a (s₀.leaveSelected site c caller r i) := by
  unfold State.leaveSelected
  split_ifs
  · split
    · refine of_unselect ha (h.trans (Calm.resetRcfg s₀ r)) ?_ ?_
      · cases r <;> exact hinterp
      · exact .inl rfl
    · exact of_unselect ha h hinterp (.inl rfl)
    · exact of_unselect ha h hinterp (.inl rfl)
  · exact .calm ha h

end Effect

/-- The cleanup of a request, called by a function that waits for it. -/
theorem Effect.of_requestCleanup {f : Frame} {found : Bool}
    (h : ((s.pop c).push c f).requestCleanup site c q found dcfg = some s')
    (hselects : found = true ∧ site.enable (site.server q) = true →
      s.selecting site a = some (.cleanup, c, some q, dcfg))
    (hnot : ¬(found = true ∧ site.enable (site.server q) = true) →
      s.selecting site a = none) : Effect site s a s' := by
  rcases State.requestCleanup_inv h with ⟨hfound, h⟩ | ⟨hfound, rfl⟩
  · exact .of_enter h (.of_eq rfl rfl) (hselects hfound)
  · exact .calm (hnot hfound) ((Calm.pop s c).trans ((Calm.push _ f).trans
      (Calm.of_eq rfl rfl (fun _ => ⟨rfl, rfl⟩) (fun _ => rfl) rfl rfl rfl rfl)))

/-- Every step selects, puts back, or does neither. -/
theorem step_effect (h : step site s a = some s') : Effect site s a s' := by
  cases step_inv h with
  | openPool p hunborn => exact .calm rfl (Calm.openPool s hunborn)
  | endPool p hlive => exact .calm rfl (Calm.setStatus s (by simp [hlive, PoolStatus.age]))
  | reqCleanup r dcfg _ _ _ _ henter => exact .of_enter henter (.of_eq rfl rfl) rfl
  | firstCleanup p k hnext _ _ _ hending =>
      refine Effect.of_runCleanup hnext ((Calm.dropCleanup s p).trans (Calm.setStatus _ ?_)) rfl
      simp [State.dropCleanup, hending, PoolStatus.age]
  | laterCleanup p k hnext => exact Effect.of_runCleanup hnext (Calm.dropCleanup s p) rfl
  | endedPool p hstatus =>
      refine .calm rfl ⟨rfl, rfl, fun _ => rfl, fun _ => rfl, fun _ _ h => h,
        fun q i hq => ?_, fun q => ?_, fun q => ?_, rfl, rfl⟩ <;> by_cases hqp : q = p
      · subst hqp
        simp [State.setStatus] at hq
      · simpa only [State.setStatus, Function.update_of_ne hqp] using hq
      · exact .inr (by simp [State.setStatus, hqp])
      · exact .inl (by simp only [State.setStatus, Function.update_of_ne hqp])
      · subst hqp
        rcases hstatus with hstatus | hstatus <;> simp [State.setStatus, hstatus, PoolStatus.age]
      · simp only [State.setStatus, Function.update_of_ne hqp, le_refl]
  | handlers c r found dcfg _ _ hfound henter =>
      exact .of_enter henter (.of_eq rfl rfl) (if_pos hfound)
  | noHandlers c r found dcfg _ _ hfound => exact .calm (if_neg hfound) (Calm.refl s)
  | filter c r dcfg _ _ henter => exact .of_enter henter (.of_eq rfl rfl) rfl
  | response r cgi dcfg _ _ henter => exact .of_enter henter (.of_eq rfl rfl) rfl
  | leave c caller r i => exact Effect.of_leaveSelected rfl (Calm.pop s c) rfl
  | leavePerl c => exact .calm rfl (Calm.pop s c)
  | leaveInterp c => exact Effect.of_unselect rfl (Calm.pop s c) rfl (.inl rfl)
  | unselectCleanup c found dcfg i r p reset htop hcleanup =>
      exact .of_requestCleanup hcleanup (fun hfound => by simp [State.selecting, htop, hfound])
        (fun hfound => by simp [State.selecting, htop, hfound])
  | subpoolCleanup c found dcfg i r source htop hcleanup =>
      exact .of_requestCleanup hcleanup (fun hfound => by simp [State.selecting, htop, hfound])
        (fun hfound => by simp [State.selecting, htop, hfound])
  | unselectRest c i r p reset htop =>
      refine .putback _ i p rfl (.inr ⟨c, r, reset, htop⟩) ?_ (Calm.resetRcfg _ reset)
      exact (Calm.pop s c).trans (Calm.setRcfg _ rfl)
  | leak c r i htop =>
      exact .leak rfl htop
        (Calm.of_eq rfl rfl (fun _ => ⟨rfl, rfl⟩) (fun _ => rfl) rfl rfl rfl rfl)
  | subpoolDone c => exact .calm rfl (Calm.pop s c)
  | pnotes c r i => exact .calm rfl (Calm.pnotes s r i)
  | newPool c parent serial i _ hunborn =>
      exact .calm rfl ((Calm.openPool s hunborn).trans (Calm.takeOwnership _ _ i))
  | clearPool c parent serial i _ hlive =>
      exact .calm rfl (Calm.setStatus s (by simp [hlive, PoolStatus.age]))
  | clearedPool c p i _ hclearing =>
      refine .calm rfl ((Calm.setStatus s ?_).trans (Calm.takeOwnership _ p i))
      simp [hclearing, PoolStatus.age]
  | registerCleanup c p i => exact .calm rfl (Calm.cleanupRegisterPerl s p i)

/-- No pool grows younger. -/
theorem step_age (hpools : PoolsOk s.tipool s.next) (h : step site s a = some s') (p : PoolId) :
    (s.status p).age ≤ (s'.status p).age := by
  cases step_effect h with
  | select s₀ _ hbefore henter =>
      obtain ⟨s₁, i, source, hselect, hentered⟩ := enter_cases henter (hbefore.poolsOk hpools)
      have hstatus : s₁.status = s₀.status := by cases hselect <;> rfl
      rw [hentered.status, hstatus, hbefore.status]
  | putback s₀ i p' _ _ hcalm hcalm' =>
      obtain ⟨_, _, _, _, heq⟩ := Sound.putback_eq site s₀ i p'
      have hage := hcalm'.age p
      rw [heq] at hage
      exact (hcalm.age p).trans hage
  | leak _ _ hcalm => exact hcalm.age p
  | calm _ hcalm => exact hcalm.age p

/-- A pool keeps its interpreter until it ends. -/
theorem step_userdata (hpools : PoolsOk s.tipool s.next) (h : step site s a = some s')
    (hp : s.userdata p = some i) : s'.userdata p = some i ∨ s'.status p = .ended := by
  cases step_effect h with
  | select s₀ _ hbefore henter =>
      obtain ⟨s₁, j, source, hselect, hentered⟩ := enter_cases henter (hbefore.poolsOk hpools)
      rw [← hbefore.userdata] at hp
      rw [hentered.userdata]
      refine .inl ?_
      cases hselect with
      | @kept j tipool p' hnone hkept _ _ _ hkeeper =>
          have hne : p ≠ p' := by
            rintro rfl
            rw [firstKept_eq_none hkept (keeper_mem_searched hkeeper)] at hp
            cases hp
          simpa only [State.keptPopped, Function.update_of_ne hne] using hp
      | _ => exact hp
  | putback s₀ j p' _ _ hcalm hcalm' =>
      obtain ⟨_, _, _, _, heq⟩ := Sound.putback_eq site s₀ j p'
      have hforgets := hcalm'.forgets p
      rw [heq] at hforgets
      rcases hforgets with h' | h'
      · rw [h']
        refine (hcalm.forgets p).imp (fun h₀ => h₀.trans hp) fun h₀ => ?_
        rw [heq] at hcalm'
        exact hcalm'.ended h₀
      · exact .inr h'
  | leak _ _ hcalm => exact (hcalm.forgets p).imp_left fun h' => h'.trans hp
  | calm _ hcalm => exact (hcalm.forgets p).imp_left fun h' => h'.trans hp

/-! ## For whom a select is made -/

/-- The callers of the select that a step makes. -/
inductive Calling (site : Site) (s : State) (a : Act) (caller : Caller) (c : ConnId)
    (r : Option ReqId) (dcfg : InterpScope) : Prop
  /-- a phase, a filter or a response handler -/
  | serves : caller ≠ .cleanup → caller ≠ .reqCleanup → s.Serves site c r →
      Calling site s a caller c r dcfg
  | reqCleanup {q : ReqId} : a = .reqCleanup q dcfg → caller = .reqCleanup → r = some q →
      site.connection q = c → s.status (.req q) = .ending → q ∈ s.subpools →
      s.Unused site (.req q) → Calling site s a caller c r dcfg
  /-- cleanup handlers, in the destruction of the request pool … -/
  | cleanup {q : ReqId} {i : InterpId} {source : Source} : caller = .cleanup → r = some q →
      s.top c = some (.selected .reqCleanup (some q) i source) → Calling site s a caller c r dcfg
  /-- … and in `modperl_interp_unselect` -/
  | unselect {q : ReqId} {i : InterpId} {p : Option PoolId} {reset : Option ReqId} :
      caller = .cleanup → r = some q → s.top c = some (.unselect i q p reset false) →
      Calling site s a caller c r dcfg

theorem step_calling (h : step site s a = some s')
    (ha : s.selecting site a = some (caller, c, r, dcfg)) : Calling site s a caller c r dcfg := by
  cases a with
  | reqCleanup q dcfg' =>
      simp only [State.selecting, Option.some.injEq, Prod.mk.injEq] at ha
      obtain ⟨rfl, rfl, rfl, rfl⟩ := ha
      simp only [step] at h
      split_ifs at h with hcond
      exact .reqCleanup rfl rfl rfl rfl hcond.1 hcond.2.1 hcond.2.2.1
  | handlers c' r' found dcfg' =>
      simp only [State.selecting] at ha
      split_ifs at ha
      simp only [Option.some.injEq, Prod.mk.injEq] at ha
      obtain ⟨rfl, rfl, rfl, rfl⟩ := ha
      simp only [step] at h
      split_ifs at h with hcond
      all_goals exact .serves (by simp) (by simp) hcond.2
  | filter c' r' dcfg' =>
      simp only [State.selecting, Option.some.injEq, Prod.mk.injEq] at ha
      obtain ⟨rfl, rfl, rfl, rfl⟩ := ha
      simp only [step] at h
      split_ifs at h with hcond
      exact .serves (by simp) (by simp) hcond.2
  | response q cgi dcfg' =>
      simp only [State.selecting, Option.some.injEq, Prod.mk.injEq] at ha
      obtain ⟨rfl, rfl, rfl, rfl⟩ := ha
      simp only [step] at h
      split_ifs at h with hcond
      all_goals exact .serves (by cases cgi <;> simp) (by cases cgi <;> simp) hcond.2
  | requestCleanup c' found dcfg' =>
      simp only [State.selecting] at ha
      -- called from `modperl_interp_unselect` or from the subpool
      split at ha
      · next i q p reset htop =>
          split_ifs at ha
          simp only [Option.some.injEq, Prod.mk.injEq] at ha
          obtain ⟨rfl, rfl, rfl, rfl⟩ := ha
          exact .unselect rfl rfl htop
      · next q i source htop =>
          split_ifs at ha
          simp only [Option.some.injEq, Prod.mk.injEq] at ha
          obtain ⟨rfl, rfl, rfl, rfl⟩ := ha
          exact .cleanup rfl rfl htop
      · cases ha
  | _ => simp [State.selecting] at ha

/-- Outside `modperl_interp_unselect` a select is made for a request, or a connection, that the
thread serves, and all of whose pools are intact. -/
theorem Sound.chain_of_calling (h : Sound site s) (hcalling : Calling site s a caller c r dcfg)
    (hnot : ∀ i q p reset, s.top c ≠ some (.unselect i q p reset false)) :
    (∀ q, r = some q → site.connection q = c) ∧ ∀ p ∈ site.chain c r, s.Intact p := by
  have hending : ∀ q, s.status (.req q) = .ending → ∀ p ∈ site.chain c (some q), s.Intact p := by
    intro q hq p hp
    rcases List.mem_cons.mp hp with rfl | hp
    · exact .inr (.inl hq)
    · exact h.tree.above (.req q) (by simp [hq]) (by simp [hq]) p hp
  cases hcalling with
  | serves _ _ hserves =>
      refine ⟨fun q hq => ?_, h.intact_chain hserves⟩
      subst hq
      exact hserves.1
  | reqCleanup _ _ hr hc hstatus _ _ =>
      subst hr
      exact ⟨fun q hq => Option.some.inj hq ▸ hc, hending _ hstatus⟩
  | cleanup _ hr htop =>
      subst hr
      obtain ⟨hc, hstatus⟩ := h.calls.reqCleanup _ _ _ _ (mem_of_top htop)
      exact ⟨fun q hq => Option.some.inj hq ▸ hc, hending _ hstatus⟩
  | unselect _ _ htop => exact absurd htop (hnot _ _ _ _)

end ModPerl
