import ModPerl.Interp.Stacks

/-!
# Exclusive ownership under handler scope

Under handler scope an interpreter belongs to the request for which it was
popped, `interp->request`, until it is put back: everybody who has it works for
that request (`exclusive_ownership`).  The response handlers store theirs in
`rcfg->interp` and clear it before, or right after, they release it.

A nested `modperl_callback_run_handlers` that finds `rcfg->interp` puts that
interpreter back as if it had popped it; then another request may pop it while
the response handler still has it (`ownership_nested_putback`).
-/

namespace ModPerl

open Machine

variable {site : Site} {s s' s₀ s₁ : State} {a : Act} {caller : Caller} {r q : ReqId}
  {c : ConnId} {dcfg : InterpScope} {i : InterpId} {source : Source} {f : Frame}

/-! ## Who has an interpreter -/

/-- The request for which a call has an interpreter that it has not yet released. -/
def Frame.uses : Frame → Option (ReqId × InterpId)
  | .selected _ (some r) i _ => some (r, i)
  | .unselect i r _ _ _ => some (r, i)
  | .reqCleanupDone r i _ => some (r, i)
  | _ => none

/-- The interpreter is stored in `rcfg->interp` of the request, or a call for the request has it. -/
def State.Uses (s : State) (r : ReqId) (i : InterpId) : Prop :=
  (s.rcfg r).interp = some i ∨ ∃ x ∈ s.frames, x.2.uses = some (r, i)

instance (s : State) (r : ReqId) (i : InterpId) : Decidable (s.Uses r i) :=
  inferInstanceAs (Decidable (_ ∨ ∃ x ∈ s.frames, _))

/-- The call is a response handler that has stored its interpreter, or the release that
`modperl_response_handler_cgi` makes before it clears `rcfg->interp`. -/
def Frame.responds (f : Frame) (r : ReqId) (i : InterpId) : Prop :=
  f.stores = some (r, i) ∨ f.resets = some r ∧ f.holds = some i

/-- Everybody who has an interpreter owns it. -/
structure Owned (site : Site) (s : State) : Prop where
  /-- It is on the busy list of its pool … -/
  busy : ∀ r i, s.Uses r i → s.Busy i
  /-- … and not on the idle list, … -/
  notIdle : ∀ r i, s.Uses r i → i ∉ (s.tipool i.mip).idle
  /-- … and no other request has it. -/
  unique : ∀ r q i, s.Uses r i → s.Uses q i → r = q
  /-- `rcfg->interp` is `NULL` unless a response handler of the request has not returned. -/
  stored : ∀ r i, (s.rcfg r).interp = some i →
    ∃ f, (site.connection r, f) ∈ s.frames ∧ f.responds r i

theorem Frame.interp_of_uses (h : f.uses = some (r, i)) : f.interp = i := by
  cases f with
  | selected caller q j source => cases q <;> simp_all [Frame.uses, Frame.interp]
  | perlCleanup => simp [Frame.uses] at h
  | _ => simp_all [Frame.uses, Frame.interp]

/-! ## Runs under handler scope -/

/-- All selects are made for requests, and under handler scope. -/
def HandlerScoped (site : Site) (s : State) (a : Act) : Prop :=
  match s.selecting site a with
  | some (_, _, r, dcfg) => r ≠ none ∧ (dcfg = .undef ∨ dcfg = .handler)
  | none => True

instance : DecidableRel (HandlerScoped site) := fun s a =>
  decidable_of_iff (∀ x ∈ s.selecting site a,
      x.2.2.1 ≠ none ∧ (x.2.2.2 = .undef ∨ x.2.2.2 = .handler)) <| by
    unfold HandlerScoped
    cases s.selecting site a <;> simp

/-- A call does not put back what it has found in `rcfg->interp`, and while `rcfg->interp` is set
`modperl_interp_unselect` runs no cleanup handlers for the request. -/
def BorrowOk (site : Site) (s : State) : Act → Prop
  | .leave c =>
      match s.top c with
      | some (.selected _ _ i .rcfg) => (s.interp i).putback = false
      | _ => True
  | .requestCleanup c found _ =>
      match s.top c with
      | some (.unselect _ r _ reset false) => found = true → site.enable (site.server r) = true →
          reset = none ∧ (s.rcfg r).interp = none
      | _ => True
  | _ => True

instance : DecidableRel (BorrowOk site) := fun s a =>
  decidable_of_iff ((match a with
      | .leave c => @decide _ (decidableFound (s.top c) fun i => (s.interp i).putback = false)
      | .requestCleanup c found _ =>
          @decide _ (decidableUnselect (s.top c) fun r reset => found = true →
            site.enable (site.server r) = true → reset = none ∧ (s.rcfg r).interp = none)
      | _ => true) = true) <| by
    unfold BorrowOk
    split
    · exact @decide_eq_true_iff _ (decidableFound _ _)
    · exact @decide_eq_true_iff _ (decidableUnselect _ _)
    · simp

/-- The condition on the steps of a run. -/
def OwnOk (site : Site) (s : State) (a : Act) : Prop := HandlerScoped site s a ∧ BorrowOk site s a

instance : DecidableRel (OwnOk site) := fun s a =>
  inferInstanceAs (Decidable (HandlerScoped site s a ∧ BorrowOk site s a))

theorem firstKept_of_none (h : ∀ p, s.userdata p = none) (ps : List PoolId) :
    s.firstKept ps = none := by
  induction ps with
  | nil => rfl
  | cons p ps ih => simp [State.firstKept, h p, ih]

/-- The invariant: no pool keeps an interpreter, and every call works for the request that its
interpreter was popped for. -/
structure Assigned (site : Site) (s : State) : Prop where
  sound : Sound site s
  userdata : ∀ p, s.userdata p = none
  request : ∀ c f r i, (c, f) ∈ s.frames → f.uses = some (r, i) → (s.interp i).request = some r
  resets : ∀ c i q p r b, (c, .unselect i q p (some r) b) ∈ s.frames → r = q

namespace Assigned

theorem start : Assigned site (.start site) :=
  ⟨.start, fun _ => rfl, by simp [State.start], by simp [State.start]⟩

/-- `rcfg->interp` is an interpreter of its request. -/
theorem request_of_stored (h : Assigned site s) (hi : (s.rcfg r).interp = some i) :
    (s.interp i).request = some r := by
  obtain ⟨f, hf, hstores | ⟨hresets, hholds⟩⟩ := h.sound.calls.stored r i hi (by simp)
  · refine h.request _ f r i hf ?_
    unfold Frame.stores at hstores
    split at hstores <;> simp_all [Frame.uses]
  · cases f with
    | unselect j q p reset b =>
        simp only [Frame.resets, Frame.holds, Option.some.injEq] at hresets hholds
        subst hresets hholds
        obtain rfl := h.resets _ _ _ _ _ _ hf
        exact h.request _ _ _ _ hf rfl
    | _ => simp [Frame.resets] at hresets

/-- Who uses an interpreter works for its request. -/
theorem request_of_uses (h : Assigned site s) (hi : s.Uses r i) :
    (s.interp i).request = some r ∧ s.Busy i := by
  rcases hi with hi | ⟨⟨c, f⟩, hf, hi⟩
  · obtain ⟨f, hf, hresponds⟩ := h.sound.calls.stored r i hi (by simp)
    refine ⟨h.request_of_stored hi, ?_⟩
    rcases hresponds with hstores | ⟨-, hholds⟩
    · unfold Frame.stores at hstores
      split at hstores
      · simp only [Option.some.injEq, Prod.mk.injEq] at hstores
        obtain ⟨rfl, rfl⟩ := hstores
        exact h.sound.busy hf
      · simp only [Option.some.injEq, Prod.mk.injEq] at hstores
        obtain ⟨rfl, rfl⟩ := hstores
        exact h.sound.busy hf
      · cases hstores
    · exact h.sound.ledger.busy_of_frame hf hholds
  · exact ⟨h.request c f r i hf hi, Frame.interp_of_uses hi ▸ h.sound.busy hf⟩

theorem owned (h : Assigned site s) : Owned site s where
  busy r i hi := (h.request_of_uses hi).2
  notIdle r i hi hidle := by
    have hnodup := h.sound.ledger.pools.nodup i.mip
    exact (List.nodup_append.mp hnodup).2.2 i hidle i (h.request_of_uses hi).2 rfl
  unique r q i hr hq :=
    Option.some.inj ((h.request_of_uses hr).1.symm.trans (h.request_of_uses hq).1)
  stored r i hi := h.sound.calls.stored r i hi (by simp)

variable (huniform : ∀ srv, site.interpScope srv = .handler)

include huniform

/-- The scope in force at a select. -/
theorem scope_eq (hok : HandlerScoped site s a) {r : Option ReqId}
    (ha : s.selecting site a = some (caller, c, r, dcfg)) :
    ∃ q, r = some q ∧ site.scope r (site.serverOf c r) dcfg = .handler := by
  obtain ⟨hr, hdcfg⟩ : r ≠ none ∧ (dcfg = .undef ∨ dcfg = .handler) := by
    simpa only [HandlerScoped, ha] using hok
  obtain ⟨q, rfl⟩ := Option.ne_none_iff_exists'.mp hr
  refine ⟨q, rfl, ?_⟩
  rcases hdcfg with rfl | rfl <;> simp [Site.scope, huniform]

theorem stepOk (h : Assigned site s) (hok : OwnOk site s a) : StepOk site s a := by
  obtain ⟨hscoped, hborrow⟩ := hok
  cases a with
  | leave c => exact hborrow
  | requestCleanup c found dcfg =>
      simp only [StepOk]
      split
      · next i r p reset htop =>
          simp only [BorrowOk, htop] at hborrow
          refine fun hfound henable => ?_
          obtain ⟨hreset, hnone⟩ := hborrow hfound henable
          refine ⟨hreset, ?_⟩
          have ha : s.selecting site (.requestCleanup c found dcfg) =
              some (.cleanup, c, some r, dcfg) := by
            simp [State.selecting, htop, hfound, henable]
          obtain ⟨_, _, hscope⟩ := scope_eq huniform hscoped ha
          simp only [State.SelectsIntact, Option.bind_some, hnone, firstKept_of_none h.userdata]
          exact .inl hscope
      · trivial
  | _ => trivial

/-- A select borrows from `rcfg->interp`, or it pops an interpreter for its request. -/
theorem select_cases (h : Assigned site s) (hok : HandlerScoped site s a) {r : Option ReqId}
    (ha : s.selecting site a = some (caller, c, r, dcfg)) (hbefore : Before s s₀)
    (hselect : Selected site s₀ caller c r dcfg s₁ i source) :
    s₁.userdata = s.userdata ∧ (∀ q, r = some q → (s₁.interp i).request = some q) ∧
      ∀ j, s.Busy j → s₁.interp j = s.interp j := by
  obtain ⟨q, rfl, hscope⟩ := scope_eq huniform hok ha
  have hnone : ∀ p, s₀.userdata p = none := fun p => hbefore.userdata ▸ h.userdata p
  cases hselect with
  | rcfg hr hrcfg =>
      obtain rfl := Option.some.inj hr
      rw [hbefore.rcfg] at hrcfg
      refine ⟨hbefore.userdata, fun q' hq' => ?_, fun j _ => by rw [hbefore.interp]⟩
      rw [hbefore.interp, h.request_of_stored hrcfg, hq']
  | found _ hfound => simp [firstKept_of_none hnone] at hfound
  | @handler i tipool _ _ hpop _ hmip =>
      rw [← hmip] at hpop
      have hfresh := ((hbefore.poolsOk h.sound.ledger.pools).pop hpop).2.1
      rw [hbefore.tipool] at hfresh
      refine ⟨hbefore.userdata, fun q' hq' => ?_, fun j hj => ?_⟩
      · simp [State.handlerPopped, hq']
      · have hji : j ≠ i := fun heq => hfresh (heq ▸ hj)
        simp only [State.handlerPopped, Function.update_of_ne hji, hbefore.interp]
  | kept _ _ _ hnot _ _ => exact absurd hscope hnot

/-- The step lemma. -/
theorem step (h : Assigned site s) (hok : OwnOk site s a)
    (hs : ModPerl.step site s a = some s') : Assigned site s' := by
  have hpools := h.sound.ledger.pools
  -- the request of an interpreter in use does not change
  have hsame : (∀ p, s'.userdata p = none) ∧ ∀ j, s.Busy j ∨ s.selecting site a = none →
      (s'.interp j).request = (s.interp j).request := by
    have hcalm : ∀ {s₀ s' : State}, Calm s₀ s' → (∀ p, s₀.userdata p = none) →
        ∀ p, s'.userdata p = none := by
      intro s₀ s' hcalm hnone p
      by_contra hne
      obtain ⟨i, hi⟩ := Option.ne_none_iff_exists'.mp hne
      simpa [hnone] using hcalm.kept p i hi
    cases step_effect hs with
    | select s₀ ha hbefore henter =>
        obtain ⟨s₁, i, source, hselect, hentered⟩ := enter_cases henter (hbefore.poolsOk hpools)
        obtain ⟨huserdata, -, hother⟩ := h.select_cases huniform hok.1 ha hbefore hselect
        refine ⟨fun p => by rw [hentered.userdata, huserdata, h.userdata], fun j hj => ?_⟩
        rw [hentered.interp, hother j (hj.resolve_right (by simp [ha]))]
    | putback s₀ i p _ _ hcalm₀ hcalm' =>
        have hinterp := Ledger.interp_putback site s₀ i p
        obtain ⟨_, _, _, _, heq⟩ := Sound.putback_eq site s₀ i p
        refine ⟨hcalm hcalm' fun p => ?_, fun j _ => ?_⟩
        · rw [heq]
          exact hcalm hcalm₀ h.userdata p
        · rw [hcalm'.request, hinterp, ← hcalm₀.request]
          by_cases hji : j = i
          · rw [hji, Function.update_self]
          · rw [Function.update_of_ne hji]
    | leak _ _ hcalm' => exact ⟨hcalm hcalm' h.userdata, fun j _ => hcalm'.request j⟩
    | calm _ hcalm' => exact ⟨hcalm hcalm' h.userdata, fun j _ => hcalm'.request j⟩
  have hold : ∀ {c f r i}, (c, f) ∈ s.frames → f.uses = some (r, i) →
      (s'.interp i).request = some r := by
    intro c f r i hf hi
    rw [hsame.2 i (.inl (Frame.interp_of_uses hi ▸ h.sound.busy hf))]
    exact h.request c f r i hf hi
  refine ⟨h.sound.step (h.stepOk huniform hok) hs, hsame.1, fun c f r i hf hi => ?_,
    fun c i q p r b hf => ?_⟩
  · rcases step_frames hpools hs hf with hf | hf
    · exact hold hf hi
    · cases hf with
      | @selected caller r' dcfg s₀ s₁ j source ha hbefore hselect hentered =>
          obtain ⟨-, hrequest, -⟩ := h.select_cases huniform hok.1 ha hbefore hselect
          cases r' with
          | none => simp [Frame.uses] at hi
          | some r' =>
              simp only [Frame.uses, Option.some.injEq, Prod.mk.injEq] at hi
              obtain ⟨rfl, rfl⟩ := hi
              rw [hentered.interp]
              exact hrequest r' rfl
      | unselect ha hrequest _ =>
          simp only [Frame.uses, Option.some.injEq, Prod.mk.injEq] at hi
          obtain ⟨rfl, rfl⟩ := hi
          rw [hsame.2 _ (.inr ha), hrequest]
      | called htop => exact hold (mem_of_top htop) hi
      | done htop => exact hold (mem_of_top htop) hi
      | perlCleanup => simp [Frame.uses] at hi
  · rcases step_frames hpools hs hf with hf | hf
    · exact h.resets c i q p r b hf
    · cases hf with
      | unselect _ hrequest hreset =>
          obtain ⟨source, htop⟩ := hreset.resolve_left (by simp)
          have := h.request c _ r i (mem_of_top htop) rfl
          exact Option.some.inj (this.symm.trans hrequest)
      | called htop => exact h.resets _ _ _ _ _ _ (mem_of_top htop)

end Assigned

/-- In a run under handler scope in which nobody puts back what he has found in
`rcfg->interp`, every interpreter that somebody has is his. -/
theorem exclusive_ownership (huniform : ∀ srv, site.interpScope srv = .handler)
    (h : Reachable (step site) (OwnOk site) (.start site) s) : Owned site s := by
  have hinv : Assigned site s :=
    h.invariant .start fun _ _ _ _ hi hok hs => hi.step huniform hok hs
  exact hinv.owned

/-- Two connections with one request each, under handler scope. -/
def handlerScope : Site := .shared .handler .default id

/-- One request is in its response handler, the other in a plain phase. -/
theorem exclusive_ownership_two : ∃ s : State, Owned handlerScope s ∧
    (s.rcfg 0).interp = some ⟨0, 0⟩ ∧ s.Uses 1 ⟨0, 1⟩ := by
  obtain ⟨s, hs, hstored, huses⟩ : ∃ s : State,
      Reachable (step handlerScope) (OwnOk handlerScope) (.start handlerScope) s ∧
        (s.rcfg 0).interp = some ⟨0, 0⟩ ∧ s.Uses 1 ⟨0, 1⟩ :=
    Reachable.exists_of_run (show runOk _ _ _ [.openPool (.conn 0), .openPool (.req 0),
      .openPool (.conn 1), .openPool (.req 1), .response 0 false .undef,
      .handlers 1 (some 1) true .handler] by decide +kernel) (by decide +kernel)
  exact ⟨s, exclusive_ownership (fun _ => rfl) hs, hstored, huses⟩

/-- The handlers of the first request put back the interpreter of its response
handler, and the second request pops it. -/
theorem ownership_nested_putback : ∃ s : State,
    Reachable (step handlerScope) (HandlerScoped handlerScope) (.start handlerScope) s ∧
      (s.rcfg 0).interp = some ⟨0, 0⟩ ∧ s.Uses 1 ⟨0, 0⟩ ∧ ¬Owned handlerScope s := by
  obtain ⟨s, hs, hstored, huses⟩ : ∃ s : State,
      Reachable (step handlerScope) (HandlerScoped handlerScope) (.start handlerScope) s ∧
        (s.rcfg 0).interp = some ⟨0, 0⟩ ∧ s.Uses 1 ⟨0, 0⟩ :=
    Reachable.exists_of_run (show runOk _ _ _ [.openPool (.conn 0), .openPool (.req 0),
      .openPool (.conn 1), .openPool (.req 1), .response 0 false .undef,
      .handlers 0 (some 0) true .undef, .leave 0, .requestCleanup 0 false .undef, .cleanedUp 0,
      .handlers 1 (some 1) true .undef] by decide +kernel) (by decide +kernel)
  refine ⟨s, hs, hstored, huses, fun howned => ?_⟩
  exact absurd (howned.unique 0 1 _ (.inl hstored) huses) (by decide)

end ModPerl
