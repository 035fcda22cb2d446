import ModPerl.Interp.History

/-!
# What a step does to the stacks, to the cleanups and to the life of a pool

A call that is on a stack after a step was there before, or it is the one call
that the step has begun (`step_frames`).  A step registers one cleanup at most,
or it runs one (`step_cleanups`).  A pool goes from one stage of its life to the
next in one kind of step (`step_status`).
-/

namespace ModPerl

variable {site : Site} {s s' s₀ s₁ : State} {a : Act} {caller : Caller} {r : Option ReqId}
  {c c' : ConnId} {dcfg : InterpScope} {i : InterpId} {source : Source} {p : PoolId} {q : ReqId}
  {f g : Frame} {pool : Option PoolId} {reset : Option ReqId}

/-- The calls that a step may begin in thread `c`. -/
inductive Begun (site : Site) (s : State) (a : Act) (s' : State) (c : ConnId) : Frame → Prop
  | selected {caller : Caller} {r : Option ReqId} {dcfg : InterpScope} {s₀ s₁ : State}
      {i : InterpId} {source : Source} : s.selecting site a = some (caller, c, r, dcfg) →
      Before s s₀ → Selected site s₀ caller c r dcfg s₁ i source →
      Entered s₁ caller c r i source s' → Begun site s a s' c (.selected caller r i source)
  /-- `reset` is set if `modperl_response_handler_cgi` returns. -/
  | unselect {i : InterpId} {q : ReqId} {p : Option PoolId} {reset : Option ReqId} :
      s.selecting site a = none → (s.interp i).request = some q →
      (reset = none ∨ ∃ source, s.top c = some (.selected .responseHandlerCgi reset i source)) →
      Begun site s a s' c (.unselect i q p reset false)
  | called {i : InterpId} {q : ReqId} {p : Option PoolId} {reset : Option ReqId} :
      s.top c = some (.unselect i q p reset false) →
      Begun site s a s' c (.unselect i q p reset true)
  | done {q : ReqId} {i : InterpId} {source : Source} :
      s.top c = some (.selected .reqCleanup (some q) i source) →
      Begun site s a s' c (.reqCleanupDone q i source)
  | perlCleanup {p : PoolId} {i : InterpId} {j : Option InterpId} : (p, .perl i j) ∈ s.cleanups →
      Begun site s a s' c (.perlCleanup p i j)

theorem mem_of_mem_pop {x : ConnId × Frame} (hx : x ∈ (s.pop c).frames) : x ∈ s.frames :=
  List.mem_of_mem_eraseP hx

/-- `modperl_interp_unselect` begins at most one call. -/
theorem unselect_frames {x : ConnId × Frame} (hx : x ∈ (s.unselect site c i pool reset).frames) :
    x ∈ s.frames ∨
      ∃ q, (s.interp i).request = some q ∧ x = (c, .unselect i q pool reset false) := by
  have hreset : ∀ s : State, (s.resetRcfg reset).frames = s.frames := by
    intro s
    cases reset <;> rfl
  unfold State.unselect at hx
  split_ifs at hx
  · rw [hreset] at hx
    exact .inl hx
  · split at hx
    · rw [hreset] at hx
      obtain ⟨_, _, _, _, heq⟩ := Sound.putback_eq site s i pool
      rw [heq] at hx
      exact .inl hx
    · next q hq =>
        rcases List.mem_cons.mp hx with rfl | hx
        · exact .inr ⟨q, hq, rfl⟩
        · exact .inl hx

/-- The innermost call is replaced. -/
theorem replace_frames {x : ConnId × Frame} (hx : x ∈ ((s.pop c).push c g).frames) :
    x ∈ s.frames ∨ x = (c, g) := by
  rcases List.mem_cons.mp hx with rfl | hx
  · exact .inr rfl
  · exact .inl (mem_of_mem_pop hx)

theorem Selected.frames (h : Selected site s caller c r dcfg s₁ i source) :
    s₁.frames = s.frames := by
  cases h <;> rfl

/-- What the caller of a select leaves. -/
theorem frames_of_enter (hpools : PoolsOk s.tipool s.next) (hf : (c, f) ∈ s'.frames)
    (henter : s₀.enter site caller c' r dcfg = some s') (hbefore : Before s s₀)
    (ha : s.selecting site a = some (caller, c', r, dcfg)) :
    (c, f) ∈ s₀.frames ∨ Begun site s a s' c f := by
  obtain ⟨s₁, i, source, hselect, hentered⟩ := enter_cases henter (hbefore.poolsOk hpools)
  rw [hentered.frames, hselect.frames] at hf
  rcases List.mem_cons.mp hf with heq | hf
  · obtain ⟨rfl, rfl⟩ := Prod.mk.inj heq
    exact .inr (.selected ha hbefore hselect hentered)
  · exact .inl hf

/-- What a release leaves. -/
theorem frames_of_unselect (hf : (c, f) ∈ (s₀.unselect site c' i pool reset).frames)
    (ha : s.selecting site a = none) (hrequest : (s₀.interp i).request = (s.interp i).request)
    (hback : ∀ x ∈ s₀.frames, x ∈ s.frames)
    (hreset : reset = none ∨
      ∃ source, s.top c' = some (.selected .responseHandlerCgi reset i source)) :
    (c, f) ∈ s.frames ∨ Begun site s a s' c f := by
  rcases unselect_frames hf with hf | ⟨q, hq, heq⟩
  · exact .inl (hback _ hf)
  · obtain ⟨rfl, rfl⟩ := Prod.mk.inj heq
    exact .inr (.unselect ha (hrequest ▸ hq) hreset)

/-- What a function leaves that waits for the cleanup of a request. -/
theorem frames_of_requestCleanup {found : Bool} (hpools : PoolsOk s.tipool s.next)
    (hf : (c, f) ∈ s'.frames)
    (hcleanup : ((s.pop c').push c' g).requestCleanup site c' q found dcfg = some s')
    (hselects : found = true ∧ site.enable (site.server q) = true →
      s.selecting site a = some (.cleanup, c', some q, dcfg))
    (hbegun : Begun site s a s' c' g) : (c, f) ∈ s.frames ∨ Begun site s a s' c f := by
  have hback : (c, f) ∈ ((s.pop c').push c' g).frames →
      (c, f) ∈ s.frames ∨ Begun site s a s' c f := by
    intro hf
    rcases replace_frames hf with hf | heq
    · exact .inl hf
    · obtain ⟨rfl, rfl⟩ := Prod.mk.inj heq
      exact .inr hbegun
  rcases State.requestCleanup_inv hcleanup with ⟨hfound, henter⟩ | ⟨-, rfl⟩
  · rcases frames_of_enter hpools hf henter (.of_eq rfl rfl) (hselects hfound) with hf | hbegun
    · exact hback hf
    · exact .inr hbegun
  · exact hback hf

/-- What a cleanup of a pool leaves. -/
theorem frames_of_runCleanup {k : Cleanup} (hf : (c, f) ∈ (s₀.runCleanup site p k).frames)
    (hnext : s.nextCleanup p = some k) (hframes : s₀.frames = s.frames)
    (hinterp : s₀.interp = s.interp) :
    (c, f) ∈ s.frames ∨ Begun site s (.runCleanup p) s' c f := by
  have hback : ∀ x ∈ s₀.frames, x ∈ s.frames := fun x hx => hframes ▸ hx
  cases k with
  | unselect i => exact frames_of_unselect hf rfl (by rw [hinterp]) hback (.inl rfl)
  | pnotes q i => exact .inl (hback _ hf)
  | apool i interp =>
      cases interp with
      | none => exact .inl (hback _ hf)
      | some j => exact frames_of_unselect hf rfl (by rw [hinterp]) hback (.inl rfl)
  | perl i interp =>
      rcases List.mem_cons.mp hf with heq | hf
      · obtain ⟨rfl, rfl⟩ := Prod.mk.inj heq
        obtain ⟨pre, post, hsplit, -, -⟩ := nextCleanup_eq_some hnext
        exact .inr (.perlCleanup (p := p) (by simp [hsplit]))
      · exact .inl (hback _ hf)

/-- What a call leaves that returns. -/
theorem frames_of_leaveSelected (htop : s.top c' = some (.selected caller r i source))
    (ha : s.selecting site a = none)
    (hf : (c, f) ∈ ((s.pop c').leaveSelected site c' caller r i).frames) :
    (c, f) ∈ s.frames ∨ Begun site s a s' c f := by
  unfold State.leaveSelected at hf
  split_ifs at hf
  · split at hf
    · have hreset : ((s.pop c').resetRcfg r).frames = (s.pop c').frames := by cases r <;> rfl
      exact frames_of_unselect hf ha (by cases r <;> rfl)
        (fun x hx => mem_of_mem_pop (hreset ▸ hx)) (.inl rfl)
    · exact frames_of_unselect hf ha rfl (fun x hx => mem_of_mem_pop hx) (.inr ⟨source, htop⟩)
    · exact frames_of_unselect hf ha rfl (fun x hx => mem_of_mem_pop hx) (.inl rfl)
  · exact .inl (mem_of_mem_pop hf)

theorem step_frames (hpools : PoolsOk s.tipool s.next) (h : step site s a = some s')
    (hf : (c, f) ∈ s'.frames) : (c, f) ∈ s.frames ∨ Begun site s a s' c f := by
  cases step_inv h with
  | openPool => exact .inl hf
  | endPool => exact .inl hf
  | reqCleanup r dcfg _ _ _ _ henter =>
      have ha : s.selecting site (.reqCleanup r dcfg) =
        some (.reqCleanup, site.connection r, some r, dcfg) := rfl
      have hbegun := frames_of_enter hpools hf henter (.of_eq rfl rfl) ha
      exact hbegun
  | firstCleanup p k hnext => exact frames_of_runCleanup hf hnext rfl rfl
  | laterCleanup p k hnext => exact frames_of_runCleanup hf hnext rfl rfl
  | endedPool => exact .inl hf
  | handlers c' r found dcfg _ _ hfound henter =>
      exact frames_of_enter hpools hf henter (.of_eq rfl rfl) (if_pos hfound)
  | noHandlers => exact .inl hf
  | filter c' r dcfg _ _ henter => exact frames_of_enter hpools hf henter (.of_eq rfl rfl) rfl
  | response r cgi dcfg _ _ henter => exact frames_of_enter hpools hf henter (.of_eq rfl rfl) rfl
  | leave c' caller r i source htop => exact frames_of_leaveSelected htop rfl hf
  | leavePerl c' => exact .inl (mem_of_mem_pop hf)
  | leaveInterp c' =>
      exact frames_of_unselect hf rfl rfl (fun x hx => mem_of_mem_pop hx) (.inl rfl)
  | unselectCleanup c' found dcfg i r p reset htop hcleanup =>
      exact frames_of_requestCleanup hpools hf hcleanup
        (fun hfound => by simp [State.selecting, htop, hfound]) (.called htop)
  | subpoolCleanup c' found dcfg i r source htop hcleanup =>
      exact frames_of_requestCleanup hpools hf hcleanup
        (fun hfound => by simp [State.selecting, htop, hfound]) (.done htop)
  | unselectRest c' i r p reset =>
      have hframes : ((s.pop c').unselectRest site i r p reset).frames = (s.pop c').frames := by
        obtain ⟨_, _, _, _, heq⟩ := Sound.putback_eq site
          ((s.pop c').setRcfg r fun x => { x with cleanupRegistered := false }) i p
        rw [State.unselectRest, heq]
        cases reset <;> rfl
      exact .inl (mem_of_mem_pop (hframes ▸ hf))
  | leak c' => exact .inl (mem_of_mem_pop hf)
  | subpoolDone c' => exact .inl (mem_of_mem_pop hf)
  | pnotes c' r i =>
      obtain ⟨_, _, heq⟩ := s.pnotes_eq r i
      rw [heq] at hf
      exact .inl hf
  | newPool c' parent serial i =>
      obtain ⟨_, _, heq⟩ := State.takeOwnership_eq _ (.custom parent serial) i
      rw [heq] at hf
      exact .inl hf
  | clearPool => exact .inl hf
  | clearedPool c' p i =>
      obtain ⟨_, _, heq⟩ := (s.setStatus p .live).takeOwnership_eq p i
      rw [heq] at hf
      exact .inl hf
  | registerCleanup c' p i =>
      obtain ⟨_, _, heq⟩ := s.cleanupRegisterPerl_eq p i
      rw [heq] at hf
      exact .inl hf

/-! ## Cleanups -/

/-- The request whose `pnotes` the cleanup releases. -/
def Cleanup.releases : Cleanup → Option ReqId
  | .pnotes q _ => some q
  | _ => none

/-- The cleanups of the pools, and the `pnotes` of the requests, are the same. -/
def SameCleanups (s s' : State) : Prop :=
  s'.cleanups = s.cleanups ∧ ∀ q, (s'.rcfg q).pnotes = (s.rcfg q).pnotes

/-- What a step does to the cleanups of the pools, and to the `pnotes` of the requests. -/
inductive Cleaned (site : Site) (s : State) (a : Act) (s' : State) : Prop
  | same : SameCleanups s s' → Cleaned site s a s'
  | kept {caller : Caller} {c : ConnId} {r : Option ReqId} {dcfg : InterpScope} {s₀ s₁ : State}
      {i : InterpId} {p : PoolId} : s.selecting site a = some (caller, c, r, dcfg) →
      Before s s₀ → Selected site s₀ caller c r dcfg s₁ i (.popped (some p)) →
      Entered s₁ caller c r i (.popped (some p)) s' →
      s'.cleanups = (p, .unselect i) :: s.cleanups →
      (∀ q, (s'.rcfg q).pnotes = (s.rcfg q).pnotes) → Cleaned site s a s'
  | registered {p : PoolId} {k : Cleanup} {i : InterpId} {j : Option InterpId} :
      (k = .perl i j ∨ k = .apool i j ∧ (s.status p = .clearing ∨ ∃ q n, p = .custom q n)) →
      s'.cleanups = (p, k) :: s.cleanups →
      (∀ q, (s'.rcfg q).pnotes = (s.rcfg q).pnotes) → Cleaned site s a s'
  | pnotes {c : ConnId} {q : ReqId} {i : InterpId} : a = .pnotes c q → s.running c = some i →
      (s.rcfg q).pnotes = none → s'.cleanups = (.req q, .pnotes q i) :: s.cleanups →
      (∀ q', (s'.rcfg q').pnotes =
        if q' = q then some ⟨i, s.keptIn i⟩ else (s.rcfg q').pnotes) → Cleaned site s a s'
  | run {p : PoolId} {k : Cleanup} : a = .runCleanup p → s.nextCleanup p = some k →
      s.Childless site p → s.Unused site p → s'.cleanups = (s.dropCleanup p).cleanups →
      (∀ q, (s'.rcfg q).pnotes = if k.releases = some q then none else (s.rcfg q).pnotes) →
      Cleaned site s a s'

namespace SameCleanups

theorem refl (s : State) : SameCleanups s s := ⟨rfl, fun _ => rfl⟩

theorem trans (h : SameCleanups s s₀) (h' : SameCleanups s₀ s') : SameCleanups s s' :=
  ⟨h'.1.trans h.1, fun q => (h'.2 q).trans (h.2 q)⟩

theorem setRcfg (s : State) {f : ReqConfig → ReqConfig}
    (hf : (f (s.rcfg q)).pnotes = (s.rcfg q).pnotes) : SameCleanups s (s.setRcfg q f) := by
  refine ⟨rfl, fun q' => ?_⟩
  by_cases hq : q' = q
  · subst hq
    simpa [State.setRcfg] using hf
  · simp only [State.setRcfg, Function.update_of_ne hq]

theorem resetRcfg (s : State) (reset : Option ReqId) : SameCleanups s (s.resetRcfg reset) := by
  cases reset with
  | none => exact refl s
  | some q => exact setRcfg s rfl

theorem putback (s : State) (i : InterpId) (pool : Option PoolId) :
    SameCleanups s (s.putback site i pool) := by
  obtain ⟨_, _, _, _, heq⟩ := Sound.putback_eq site s i pool
  rw [heq]
  exact ⟨rfl, fun _ => rfl⟩

theorem unselect (s : State) (c : ConnId) (i : InterpId) (pool : Option PoolId)
    (reset : Option ReqId) : SameCleanups s (s.unselect site c i pool reset) := by
  unfold State.unselect
  split_ifs
  · exact resetRcfg _ reset
  · split
    · exact (putback s i pool).trans (resetRcfg _ reset)
    · exact ⟨rfl, fun _ => rfl⟩

theorem leaveSelected (s : State) (c : ConnId) (caller : Caller) (r : Option ReqId)
    (i : InterpId) : SameCleanups s (s.leaveSelected site c caller r i) := by
  unfold State.leaveSelected
  split_ifs
  · split
    · exact (resetRcfg s r).trans (unselect _ c i none none)
    · exact unselect s c i none r
    · exact unselect s c i none none
  · exact refl s

end SameCleanups

namespace Cleaned

theorem of_enter (hpools : PoolsOk s.tipool s.next) (h : s₀.enter site caller c r dcfg = some s')
    (hbefore : Before s s₀) (ha : s.selecting site a = some (caller, c, r, dcfg)) :
    Cleaned site s a s' := by
  obtain ⟨s₁, i, source, hselect, hentered⟩ := enter_cases h (hbefore.poolsOk hpools)
  have hsame : s₁.cleanups = s₀.cleanups → (∀ q, (s₁.rcfg q).pnotes = (s₀.rcfg q).pnotes) →
      SameCleanups s s' := by
    refine fun hcleanups hpnotes => ⟨?_, fun q => ?_⟩
    · rw [hentered.cleanups, hcleanups, hbefore.cleanups]
    · rw [hentered.pnotes, hpnotes, hbefore.rcfg]
  cases hselect with
  | rcfg => exact .same (hsame rfl fun _ => rfl)
  | found => exact .same (hsame rfl fun _ => rfl)
  | @handler i tipool =>
      exact .same (hsame rfl fun q => (s₀.rcfg_handlerPopped tipool i r q).2)
  | @kept i tipool p hnone hkept hpop hscope hmip hkeeper =>
      refine .kept ha hbefore (.kept hnone hkept hpop hscope hmip hkeeper) hentered ?_ fun q => ?_
      · rw [hentered.cleanups, ← hbefore.cleanups]
        rfl
      · rw [hentered.pnotes, ← hbefore.rcfg]
        rfl

theorem of_register {p : PoolId}
    (h : s₀.takeOwnership p i = s' ∧ (s.status p = .clearing ∨ ∃ q n, p = .custom q n) ∨
      s₀.cleanupRegisterPerl p i = s') (hsame : SameCleanups s s₀) : Cleaned site s a s' := by
  have hadd : (s₀.addRef i).1.cleanups = s.cleanups ∧
      ∀ q, ((s₀.addRef i).1.rcfg q).pnotes = (s.rcfg q).pnotes := by
    unfold State.addRef
    split_ifs <;> exact hsame
  rcases h with ⟨rfl, hp⟩ | rfl
  · refine .registered (p := p) (k := .apool i (s₀.addRef i).2) (.inr ⟨rfl, hp⟩) ?_ hadd.2
    exact congrArg (_ :: ·) hadd.1
  · refine .registered (p := p) (k := .perl i (s₀.addRef i).2) (.inl rfl) ?_ hadd.2
    exact congrArg (_ :: ·) hadd.1

theorem of_run {p : PoolId} {k : Cleanup} (hnext : s.nextCleanup p = some k)
    (hchildless : s.Childless site p) (hunused : s.Unused site p)
    (h : SameCleanups (s.dropCleanup p) s₀) :
    Cleaned site s (.runCleanup p) (s₀.runCleanup site p k) := by
  have hrest : SameCleanups (s.dropCleanup p) (s₀.runCleanup site p k) → k.releases = none →
      Cleaned site s (.runCleanup p) (s₀.runCleanup site p k) := by
    refine fun hsame hreleases => .run rfl hnext hchildless hunused hsame.1 fun q => ?_
    rw [hsame.2, hreleases, if_neg (by simp)]
    rfl
  cases k with
  | unselect i => exact hrest (h.trans (SameCleanups.unselect s₀ _ i _ _)) rfl
  | pnotes q i =>
      refine .run rfl hnext hchildless hunused h.1 fun q' => ?_
      by_cases hq : q' = q
      · subst hq
        simp [State.runCleanup, State.setRcfg, Cleanup.releases]
      · simp only [State.runCleanup, State.setRcfg, Function.update_of_ne hq, Cleanup.releases,
          Option.some.injEq, Ne.symm hq, if_false]
        exact h.2 q'
  | apool i interp =>
      cases interp with
      | none => exact hrest h rfl
      | some j => exact hrest (h.trans (SameCleanups.unselect s₀ _ j _ _)) rfl
  | perl i interp => exact hrest h rfl

end Cleaned

/-- The cleanups of the handlers change nothing by themselves. -/
theorem Cleaned.of_requestCleanup {found : Bool} (hpools : PoolsOk s.tipool s.next)
    (hcleanup : ((s.pop c).push c g).requestCleanup site c q found dcfg = some s')
    (hselects : found = true ∧ site.enable (site.server q) = true →
      s.selecting site a = some (.cleanup, c, some q, dcfg)) : Cleaned site s a s' := by
  rcases State.requestCleanup_inv hcleanup with ⟨hfound, henter⟩ | ⟨-, rfl⟩
  · exact .of_enter hpools henter (.of_eq rfl rfl) (hselects hfound)
  · exact .same ⟨rfl, fun _ => rfl⟩

theorem step_cleanups (hpools : PoolsOk s.tipool s.next) (h : step site s a = some s') :
    Cleaned site s a s' := by
  cases step_inv h with
  | openPool => exact .same ⟨rfl, fun _ => rfl⟩
  | endPool => exact .same ⟨rfl, fun _ => rfl⟩
  | reqCleanup r dcfg _ _ _ _ henter => exact .of_enter hpools henter (.of_eq rfl rfl) rfl
  | firstCleanup p k hnext hchildless hunused =>
      exact .of_run hnext hchildless hunused ⟨rfl, fun _ => rfl⟩
  | laterCleanup p k hnext hchildless hunused =>
      exact .of_run hnext hchildless hunused (.refl _)
  | endedPool => exact .same ⟨rfl, fun _ => rfl⟩
  | handlers c r found dcfg _ _ hfound henter =>
      exact .of_enter hpools henter (.of_eq rfl rfl) (if_pos hfound)
  | noHandlers => exact .same (.refl s)
  | filter c r dcfg _ _ henter => exact .of_enter hpools henter (.of_eq rfl rfl) rfl
  | response r cgi dcfg _ _ henter => exact .of_enter hpools henter (.of_eq rfl rfl) rfl
  | leave c caller r i => exact .same (.leaveSelected (s.pop c) c caller r i)
  | leavePerl => exact .same ⟨rfl, fun _ => rfl⟩
  | leaveInterp c p perl i => exact .same (.unselect (s.pop c) c i none none)
  | unselectCleanup c found dcfg i r p reset htop hcleanup =>
      exact .of_requestCleanup hpools hcleanup
        fun hfound => by simp [State.selecting, htop, hfound]
  | subpoolCleanup c found dcfg i r source htop hcleanup =>
      exact .of_requestCleanup hpools hcleanup
        fun hfound => by simp [State.selecting, htop, hfound]
  | unselectRest c i r p reset =>
      have hoff : SameCleanups s ((s.pop c).setRcfg r fun x =>
        { x with cleanupRegistered := false }) := SameCleanups.setRcfg (s.pop c) rfl
      exact .same ((hoff.trans (.putback _ i p)).trans (.resetRcfg _ reset))
  | leak => exact .same ⟨rfl, fun _ => rfl⟩
  | subpoolDone => exact .same ⟨rfl, fun _ => rfl⟩
  | pnotes c q i hrunning =>
      unfold State.pnotes
      split
      · exact .same (.refl s)
      · next hnone =>
          refine .pnotes rfl hrunning hnone rfl fun q' => ?_
          by_cases hq : q' = q <;> simp [State.setRcfg, hq, Function.update_of_ne]
  | newPool c parent serial i =>
      exact .of_register (.inl ⟨rfl, .inr ⟨parent, serial, rfl⟩⟩) ⟨rfl, fun _ => rfl⟩
  | clearPool => exact .same ⟨rfl, fun _ => rfl⟩
  | clearedPool c p i _ hclearing =>
      exact .of_register (.inl ⟨rfl, .inl hclearing⟩) ⟨rfl, fun _ => rfl⟩
  | registerCleanup => exact .of_register (.inr rfl) ⟨rfl, fun _ => rfl⟩

/-! ## The life of a pool -/

/-- How the life of a pool goes on in a step. -/
inductive Lives (site : Site) (s : State) (a : Act) (s' : State) (p : PoolId) : Prop
  | same : s'.status p = s.status p → Lives site s a s' p
  | opened : s.status p = .unborn → s'.status p = .live → Lives site s a s' p
  | ending : s.status p = .live → s'.status p = .ending → Lives site s a s' p
  | cleaning : a = .runCleanup p → s.status p = .ending → s'.status p = .cleaning →
      Lives site s a s' p
  | clearing : s.status p = .live → s'.status p = .clearing → Lives site s a s' p
  | cleared : s.status p = .clearing → s'.status p = .live → Lives site s a s' p
  | ended : a = .endedPool p → s.nextCleanup p = none → s.Childless site p →
      s.Unused site p → s'.cleanups = s.cleanups → s'.status p = .ended → Lives site s a s' p

theorem unselect_status (site : Site) (s : State) (c : ConnId) (i : InterpId)
    (pool : Option PoolId) (reset : Option ReqId) :
    (s.unselect site c i pool reset).status = s.status := by
  have hreset : ∀ s : State, (s.resetRcfg reset).status = s.status := by
    intro s
    cases reset <;> rfl
  unfold State.unselect
  split_ifs
  · exact hreset _
  · split
    · obtain ⟨_, _, _, _, heq⟩ := Sound.putback_eq site s i pool
      rw [hreset, heq]
    · rfl

theorem leaveSelected_status (site : Site) (s : State) (c : ConnId) (caller : Caller)
    (r : Option ReqId) (i : InterpId) : (s.leaveSelected site c caller r i).status = s.status := by
  unfold State.leaveSelected
  split_ifs
  · split
    · rw [unselect_status]
      cases r <;> rfl
    · exact unselect_status site s c i none r
    · exact unselect_status site s c i none none
  · rfl

theorem runCleanup_status (site : Site) (s : State) (p : PoolId) (k : Cleanup) :
    (s.runCleanup site p k).status = s.status := by
  cases k with
  | unselect i => exact unselect_status site s _ i _ _
  | pnotes q i => rfl
  | apool i interp =>
      cases interp with
      | none => rfl
      | some j => exact unselect_status site s _ j _ _
  | perl i interp => rfl

theorem enter_status (hpools : PoolsOk s.tipool s.next)
    (h : s.enter site caller c r dcfg = some s') : s'.status = s.status := by
  obtain ⟨s₁, i, source, hselect, hentered⟩ := enter_cases h hpools
  rw [hentered.status]
  cases hselect <;> rfl

theorem requestCleanup_status {found : Bool} (hpools : PoolsOk s.tipool s.next)
    (h : s.requestCleanup site c q found dcfg = some s') : s'.status = s.status := by
  rcases State.requestCleanup_inv h with ⟨-, henter⟩ | ⟨-, rfl⟩
  · exact enter_status (s := s.record (.requestCleanup q)) hpools henter
  · rfl

/-- One pool is set to another status. -/
theorem Lives.of_update {q : PoolId} {st : PoolStatus}
    (heq : s'.status = Function.update s.status q st)
    (hq : p = q → s'.status p = st → Lives site s a s' p) : Lives site s a s' p := by
  by_cases hpq : p = q
  · exact hq hpq (by rw [heq, hpq, Function.update_self])
  · exact .same (by rw [heq, Function.update_of_ne hpq])

theorem step_status (hpools : PoolsOk s.tipool s.next) (h : step site s a = some s') (p : PoolId) :
    Lives site s a s' p := by
  cases step_inv h with
  | openPool q hunborn => exact .of_update rfl fun hq hst => .opened (hq ▸ hunborn) hst
  | endPool q hlive => exact .of_update rfl fun hq hst => .ending (hq ▸ hlive) hst
  | reqCleanup r dcfg _ _ _ _ henter =>
      have hstatus := enter_status (s := { s with subpools := s.subpools.erase r }) hpools henter
      exact .same (by rw [hstatus])
  | firstCleanup q k _ _ _ _ hending =>
      refine .of_update (q := q) ?_ fun hq hst => .cleaning (by rw [hq]) (hq ▸ hending) hst
      rw [runCleanup_status]
      rfl
  | laterCleanup q k => exact .same (by rw [runCleanup_status]; rfl)
  | endedPool q _ hnext hchildless hunused =>
      refine .of_update rfl fun hq hst => ?_
      subst hq
      exact .ended rfl hnext hchildless hunused rfl hst
  | handlers c r found dcfg _ _ _ henter => exact .same (by rw [enter_status hpools henter])
  | noHandlers => exact .same rfl
  | filter c r dcfg _ _ henter => exact .same (by rw [enter_status hpools henter])
  | response r cgi dcfg _ _ henter => exact .same (by rw [enter_status hpools henter])
  | leave c caller r i => exact .same (by rw [leaveSelected_status]; rfl)
  | leavePerl => exact .same rfl
  | leaveInterp c p' perl i => exact .same (by rw [unselect_status]; rfl)
  | unselectCleanup c found dcfg i r p' reset _ hcleanup =>
      have hstatus := requestCleanup_status (s := (s.pop c).push c _) hpools hcleanup
      exact .same (by rw [hstatus]; rfl)
  | subpoolCleanup c found dcfg i r source _ hcleanup =>
      have hstatus := requestCleanup_status (s := (s.pop c).push c _) hpools hcleanup
      exact .same (by rw [hstatus]; rfl)
  | unselectRest c i r p' reset =>
      obtain ⟨_, _, _, _, heq⟩ := Sound.putback_eq site
        ((s.pop c).setRcfg r fun x => { x with cleanupRegistered := false }) i p'
      refine .same ?_
      rw [State.unselectRest, heq]
      cases reset <;> rfl
  | leak => exact .same rfl
  | subpoolDone => exact .same rfl
  | pnotes c r i =>
      obtain ⟨_, _, heq⟩ := s.pnotes_eq r i
      exact .same (by rw [heq])
  | newPool c parent serial i _ hunborn =>
      refine .of_update (q := .custom parent serial) ?_ fun hq hst => .opened (hq ▸ hunborn) hst
      obtain ⟨_, _, heq⟩ := State.takeOwnership_eq _ (.custom parent serial) i
      rw [heq]
      rfl
  | clearPool c parent serial i _ hlive =>
      exact .of_update rfl fun hq hst => .clearing (hq ▸ hlive) hst
  | clearedPool c q i _ hclearing =>
      refine .of_update (q := q) ?_ fun hq hst => .cleared (hq ▸ hclearing) hst
      obtain ⟨_, _, heq⟩ := (s.setStatus q .live).takeOwnership_eq q i
      rw [heq]
      rfl
  | registerCleanup c q i =>
      obtain ⟨_, _, heq⟩ := s.cleanupRegisterPerl_eq q i
      exact .same (by rw [heq])

/-- A pool has ended only when all its cleanups had been run. -/
theorem step_ended (hpools : PoolsOk s.tipool s.next) (h : step site s a = some s') {p : PoolId}
    (hended : s'.status p = .ended) : s.status p = .ended ∨
      a = .endedPool p ∧ s.nextCleanup p = none ∧ s'.cleanups = s.cleanups := by
  cases step_status hpools h p with
  | same heq => exact .inl (heq ▸ hended)
  | ended ha hnext _ _ hcleanups _ => exact .inr ⟨ha, hnext, hcleanups⟩
  | _ => simp_all

end ModPerl
