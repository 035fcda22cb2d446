import ModPerl.Interp.Lending

/-!
# The response phase

A response handler that has popped its interpreter under handler scope stores it in
`rcfg->interp`, where `modperl_callback_run_handlers` finds it.  That puts it back, and
so calls the request cleanup; when the response handler itself returns, the interpreter
is no longer its own.  Still there is one cleanup, if the handlers run once and nobody
else selects for the request meanwhile (`CleanupOk`).

A run of this kind is simulated by one without lending (`State.plain`): a filter pops the
interpreter in place of the response handler, and the handlers make no select.  So what
is known about runs without lending holds of all runs (`request_cleanup_once`).
-/

namespace ModPerl

open Machine

variable {site : Site} {s s' s₀ s₁ : State} {a : Act} {caller : Caller} {r : Option ReqId}
  {c : ConnId} {dcfg : InterpScope} {i j : InterpId} {source : Source} {p : PoolId} {q : ReqId}
  {f g : Frame} {pool : Option PoolId} {reset : Option ReqId} {gone : List ReqId}

/-! ## The conditions -/

/-- A response handler runs its handlers: they find its interpreter in `rcfg->interp`, and
the request has not been cleaned up. -/
def State.RunsResponse (s : State) (c : ConnId) (r : Option ReqId) : Prop :=
  ∃ f ∈ s.top c, ∃ x ∈ f.stores, r = some x.1 ∧ (s.rcfg x.1).interp = some x.2 ∧ x.1 ∉ s.cleaned

instance : Decidable (s.RunsResponse c r) := inferInstanceAs (Decidable (∃ f ∈ s.top c, _))

/-- The conditions on the return of a call.  What the handlers of a response handler have
borrowed is put back for good, and the response handler does not put it back once more. -/
def State.ReturnsOnce (s : State) (f : Frame) : Prop :=
  (∀ x ∈ f.borrows, (s.interp x.2).putback = true → (s.interp x.2).refcnt = 0) ∧
    ∀ x ∈ f.stores, x.1 ∈ s.cleaned → (s.interp x.2).putback = false

instance : Decidable (s.ReturnsOnce f) := inferInstanceAs (Decidable (_ ∧ _))

/-- The conditions that are not about a select: on a return, on the cleanup called by
`modperl_interp_unselect`, and on the end of a request. -/
def State.OthersOnce (site : Site) (s : State) : Act → Prop
  | .leave c => ∀ f ∈ s.top c, s.ReturnsOnce f
  | .requestCleanup c found dcfg => ∀ f ∈ s.top c, ∀ q ∈ f.awaits, found = true →
      site.enable (site.server q) = true → s.SelectsIntact site .cleanup c (some q) dcfg
  | .endedPool (.req q) => EndsOnce s q
  | _ => True

instance : DecidablePred (s.OthersOnce site) := fun a =>
  match a with
  | .leave c => inferInstanceAs (Decidable (∀ f ∈ s.top c, _))
  | .requestCleanup c _ _ => inferInstanceAs (Decidable (∀ f ∈ s.top c, _))
  | .endedPool (.req q) => inferInstanceAs (Decidable (EndsOnce s q))
  | .endedPool (.conn _) | .endedPool (.custom _ _) | .openPool _ | .endPool _ | .reqCleanup _ _
  | .runCleanup _ | .handlers _ _ _ _ | .filter _ _ _ | .response _ _ _ | .cleanedUp _
  | .pnotes _ _ | .newPool _ _ _ | .clearPool _ _ | .clearedPool _ _ | .registerCleanup _ _ =>
      isTrue trivial

/-- The conditions on a step.  A select that finds an interpreter in `rcfg->interp` is
made by the handlers of the response handler that has stored it. -/
def CleanupOk (site : Site) (s : State) (a : Act) : Prop :=
  (∀ x ∈ s.selecting site a, x.1 = .handlers ∧ s.RunsResponse x.2.1 x.2.2.1 ∨
    (x.2.2.1.bind fun q => (s.rcfg q).interp) = none ∧
      SelectsOnce site s x.1 x.2.1 x.2.2.1 x.2.2.2) ∧
  s.OthersOnce site a

instance : DecidableRel (CleanupOk site) := fun s a =>
  inferInstanceAs (Decidable ((∀ x ∈ s.selecting site a, _) ∧ _))

/-! ## The simulation -/

/-- A step without lending leads to the same, or none is needed. -/
def Matched (site : Site) (gone : List ReqId) (s s' : State) : Prop :=
  ∃ gone', Lending site gone' s' ∧ (s'.plain gone' = s.plain gone ∨
    ∃ a, PhasesOk site (s.plain gone) a ∧ Step site (s.plain gone) a (s'.plain gone'))

theorem Matched.of_step (h : Lending site gone s') (hok : PhasesOk site (s.plain gone) a)
    (hs : Step site (s.plain gone) a (s'.plain gone)) : Matched site gone s s' :=
  ⟨gone, h, .inr ⟨a, hok, hs⟩⟩

theorem Matched.of_eq (h : Lending site gone s') (heq : s'.plain gone = s.plain gone) :
    Matched site gone s s' :=
  ⟨gone, h, .inl heq⟩

/-- Nobody borrows, so a return meets the conditions. -/
theorem phasesOk_leave (hf : f.plain gone = some g) (htop : (s.plain gone).top c = some g) :
    PhasesOk site (s.plain gone) (.leave c) := by
  refine ⟨?_, trivial, trivial⟩
  simp only [StepOk, htop]
  split
  · next heq =>
      obtain rfl := Option.some.inj heq
      rcases Frame.plain_eq_some hf with ⟨q, i, -, -, hg⟩ | ⟨i, q, p, reset, called, -, hg⟩ |
        ⟨-, rfl, hrcfg, -⟩
      · cases hg
      · cases hg
      · exact absurd rfl (hrcfg _ _ _)
  · trivial

namespace Lending

/-- Who has lost its interpreter serves a request that has been cleaned up, unless the
cleanup is about to be called in its own thread. -/
theorem cleaned_of_lost (h : Lending site gone s) (hq : q ∈ gone)
    (htop : s.top (site.connection q) = some f) (hf : f.awaits = none) : q ∈ s.cleaned := by
  refine (h.lost q hq).resolve_right ?_
  rintro ⟨g, hg, hawaits⟩
  have htop' : s.top (site.connection q) = some g :=
    h.stacked.top_of_awaits hg (by simp [hawaits])
  obtain rfl := Option.some.inj (htop'.symm.trans htop)
  simp [hf] at hawaits

/-- The handlers of a response handler begin: without lending nothing happens. -/
theorem lends (h : Lending site gone s) (honce : Once (s.plain gone) [])
    (hserves : s.Serves site c r) (hruns : s.RunsResponse c r)
    (hs : s.enter site .handlers c r dcfg = some s') : Matched site gone s s' := by
  obtain ⟨f, htop, ⟨q, i⟩, hstores, rfl, hinterp, hq⟩ := hruns
  have hawaits : f.awaits = none := by
    rcases Frame.eq_selected_of_stores hstores with rfl | rfl <;> rfl
  obtain rfl : site.connection q = c := hserves.1
  have hgone : q ∉ gone := fun hmem => hq (h.cleaned_of_lost hmem htop hawaits)
  -- the request is not cleaned up, so its cleanup is with the interpreter
  have hplain := State.plain_pop gone htop ((Frame.plain_of_stores hstores).trans (if_neg hgone))
  have hphase := honce.frames _ (mem_of_top hplain.1) (q, i, .popped none) rfl
  have hflag : (s.rcfg q).cleanupRegistered = true :=
    (honce.pending q i hphase (s.cleaned_plain gone ▸ hq)).2
  have hselect : s.select site (some q) (State.connArg site .handlers (site.connection q) (some q))
      (site.serverOf (site.connection q) (some q)) dcfg = some (s, i, .rcfg) := by
    unfold State.select
    simp only [Option.bind_some, hinterp]
  have hbegin : (s.record (.select .handlers (some q) (site.connection q) i .rcfg)).begin .handlers
      (some q) i = s.record (.select .handlers (some q) (site.connection q) i .rcfg) :=
    if_pos hflag
  simp only [State.enter, hselect, Option.bind_eq_bind, Option.bind_some, hbegin,
    Option.some.injEq] at hs
  subst hs
  refine .of_eq ⟨⟨⟨?_, fun _ _ hq => (by cases hq), fun caller r j hf => ?_⟩, h.stacked⟩,
    fun q' hq' => ?_, fun q' hq' => ?_, fun e he hplain x hx => ?_, ?_⟩ ?_
  · intro g hg
    obtain rfl := Option.some.inj (htop.symm.trans hg)
    exact hawaits
  · cases hf
    exact ⟨rfl, q, rfl, hgone, f, htop, hstores⟩
  · exact (h.lost q' hq').imp_right fun ⟨g, hg, hg'⟩ => ⟨g, List.mem_cons_of_mem _ hg, hg'⟩
  · exact (h.handled q' hq').imp fun _ hi => List.mem_cons_of_mem _ hi
  · have hhandled : s.Handled x.2 := by
      rcases List.mem_cons.mp he with rfl | he
      · cases hx
        exact ⟨i, State.of_mem_plain_phases hphase⟩
      · exact h.lent e he hplain x hx
    exact hhandled.imp fun _ hi => List.mem_cons_of_mem _ hi
  · refine List.pairwise_cons.mpr ⟨fun e' he' _ q' hq' y hy => ?_, h.order⟩
    have hsame : some (q, i, Source.rcfg) = some (q', y) := hy
    obtain rfl : q = q' := (Prod.mk.inj (Option.some.inj hsame)).1
    exact hq (List.mem_filterMap.mpr ⟨e', he', hq'⟩)
  · rw [State.plain_push_none rfl]
    simp only [State.plain, State.record]
    rw [List.filterMap_cons_none rfl]

/-- They return: without lending the filter puts the interpreter back. -/
theorem givesBack (h : Lending site gone s) (hsound : Sound site (s.plain gone))
    (honce : Once (s.plain gone) []) (htop : s.top c = some (.selected caller r i .rcfg))
    (hok : s.ReturnsOnce (.selected caller r i .rcfg)) :
    Matched site gone s ((s.pop c).leaveSelected site c caller r i) := by
  obtain ⟨rfl, q, rfl, hgone, g, hg, hstores⟩ := (h.stacked.top htop).1.borrows caller r i rfl
  have hpop := h.pop htop rfl
  have hplain : g.plain gone = some (.selected .filter (some q) i (.popped none)) :=
    (Frame.plain_of_stores hstores).trans (if_neg hgone)
  obtain ⟨htop', hpop'⟩ := State.plain_pop gone hg hplain
  rw [State.plain_pop_none htop rfl] at htop' hpop'
  have hfilter := mem_of_top htop'
  -- nobody else has popped an interpreter for the request
  have hphase := honce.frames _ hfilter (q, i, .popped none) rfl
  have hhandled : s.Handled q := ⟨i, State.of_mem_plain_phases hphase⟩
  have halone : ∀ x ∈ ((s.pop c).pop c).frames, ∀ j, x.2.stores ≠ some (q, j) := by
    intro x hx j hj
    have hmem : (x.1, .selected .filter (some q) j (.popped none)) ∈
        ((s.plain gone).pop c).frames := by
      rw [← hpop']
      exact State.mem_plain_frames.mpr
        ⟨x.2, hx, (Frame.plain_of_stores hj).trans (if_neg hgone)⟩
    have hphase' := honce.frames _ (mem_of_mem_pop hmem) (q, j, .popped none) rfl
    obtain rfl : j = i := (Prod.mk.inj (honce.single q i _ hphase hphase')).1
    refine hsound.ledger.notMem_owners_pop htop' rfl ?_
    exact List.mem_append_left _ (List.mem_append_left _ (List.mem_filterMap.mpr ⟨_, hmem, rfl⟩))
  -- the interpreter is put back, and the cleanup called
  have hputback : (s.interp i).putback = true := hsound.calls.flagged c _ _ i hfilter
  have hnot : q ∉ s.cleaned := by
    intro hq
    exact (honce.done q (s.cleaned_plain gone ▸ hq) _ hfilter).1 _ rfl
  have hrequest : (s.interp i).request = some q :=
    (honce.pending q i hphase (s.cleaned_plain gone ▸ hnot)).1.2
  have hrefcnt : (s.interp i).refcnt = 0 := hok.1 (q, i) rfl hputback
  have hleave : ∀ s' : State, s'.interp = s.interp → ∀ caller, caller.isResponse = false →
      s'.leaveSelected site c caller (some q) i = s'.push c (.unselect i q none none false) := by
    intro s' hinterp caller hcaller
    have hthis : s'.leaveSelected site c .filter (some q) i =
        s'.push c (.unselect i q none none false) := by
      simp [State.leaveSelected, State.unselect, hinterp, hputback, hrefcnt, hrequest]
    rw [← State.leaveSelected_filter hcaller, hthis]
  have hgplain : g.plain (q :: gone) = none :=
    (Frame.plain_of_stores hstores).trans (if_pos List.mem_cons_self)
  have hlost : (s.pop c).plain (q :: gone) = (s.plain gone).pop c := by
    rw [← State.plain_pop_none hg hgplain, State.plain_cons halone, hpop']
  rw [hleave (s.pop c) rfl .handlers rfl]
  refine ⟨q :: gone, ⟨⟨⟨?_, fun _ _ hq => (by cases hq), fun _ _ _ hf => (by cases hf)⟩, ?_⟩,
    fun q' hq' => ?_, fun q' hq' => ?_, hpop.lent, hpop.order⟩, .inr ⟨.leave c, ?_, ?_⟩⟩
  · exact (h.stacked.top htop).1.awaits
  · refine hpop.stacked.lose fun x hx caller j hxf => ?_
    rcases List.mem_cons.mp ((frames_perm hg).mem_iff.mp hx) with rfl | hx
    · obtain rfl : g = _ := hxf
      cases caller <;> cases hstores
    · obtain ⟨c', f'⟩ := x
      obtain rfl : f' = _ := hxf
      obtain ⟨-, q', hq', -, g', hg', hstores'⟩ := (hpop.stacked.top hg).2.borrows hx
      obtain rfl := Option.some.inj hq'
      exact halone _ hg' j hstores'
  · rcases List.mem_cons.mp hq' with rfl | hq'
    · obtain rfl : site.connection q' = c := ((hpop.stacked.top hg).1.stores q' i hstores).1
      exact .inr ⟨_, List.mem_cons_self, rfl⟩
    · exact (hpop.lost q' hq').imp_right fun ⟨g', hg', hawaits⟩ =>
        ⟨g', List.mem_cons_of_mem _ hg', hawaits⟩
  · rcases List.mem_cons.mp hq' with rfl | hq'
    · exact hhandled
    · exact hpop.handled q' hq'
  · refine ⟨?_, trivial, trivial⟩
    simp only [StepOk, htop']
  · rw [State.plain_push (g := .unselect i q none none false) rfl, hlost,
      ← hleave ((s.plain gone).pop c) rfl .filter rfl]
    exact .leave c .filter (some q) i (.popped none) htop' (by simp)

/-- Another call that has selected returns. -/
theorem leaves (h : Lending site gone s) (hsound : Sound site (s.plain gone))
    (htop : s.top c = some (.selected caller r i source)) (hcaller : caller ≠ .reqCleanup)
    (hsource : source ≠ .rcfg) (hok : s.ReturnsOnce (.selected caller r i source)) :
    Matched site gone s ((s.pop c).leaveSelected site c caller r i) := by
  have hpop := h.pop htop rfl
  have hrests := (h.stacked.top htop).1
  cases hplain : (Frame.selected caller r i source).plain gone with
  | none =>
      -- a response handler that has lost its interpreter
      rcases Frame.plain_eq_none hplain with ⟨q, j, hstores, hgone⟩ | ⟨_, _, _, heq⟩
      · obtain rfl : site.connection q = c := (hrests.stores q j hstores).1
        have hflag : ((s.pop (site.connection q)).interp i).putback = false := by
          have hthis := hok.2 (q, j) hstores (h.cleaned_of_lost hgone htop rfl)
          rcases Frame.eq_selected_of_stores hstores with heq | heq <;> cases heq <;> exact hthis
        rw [State.leaveSelected_of_not _ hflag]
        exact .of_eq hpop (State.plain_pop_none htop hplain)
      · cases heq
        exact absurd rfl hsource
  | some g =>
      obtain ⟨htop', hpop'⟩ := State.plain_pop gone htop hplain
      refine .of_step (hpop.leaveSelected hrests.awaits) (phasesOk_leave hplain htop') ?_
      rw [State.plain_leaveSelected, hpop']
      rcases Frame.plain_eq_some hplain with ⟨q, j, hstores, -, rfl⟩ | ⟨_, _, _, _, _, heq, -⟩ |
        ⟨hstores, rfl, -⟩
      · have hframe : r = some q ∧ j = i := by
          rcases Frame.eq_selected_of_stores hstores with heq | heq <;> cases heq <;>
            exact ⟨rfl, rfl⟩
        obtain ⟨rfl, rfl⟩ := hframe
        exact .leave c .filter (some q) j (.popped none) htop' (by simp)
      · cases heq
      · have hsame : ((s.plain gone).pop c).leaveSelected site c .filter r i =
            ((s.plain gone).pop c).leaveSelected site c caller r i := by
          -- what a response handler does not store, it does not put back
          by_cases hresponse : caller.isResponse = true
          · cases r with
            | none => cases caller <;> rfl
            | some q =>
                have hflag : (((s.plain gone).pop c).interp i).putback = false := by
                  cases source with
                  | rcfg => exact absurd rfl hsource
                  | found p => exact hsound.putback_of_based (mem_of_top htop') rfl
                  | popped kept =>
                      cases kept with
                      | some p => exact hsound.putback_of_based (mem_of_top htop') rfl
                      | none => cases caller <;> simp_all [Caller.isResponse, Frame.stores]
                rw [State.leaveSelected_of_not _ hflag, State.leaveSelected_of_not _ hflag]
          · exact State.leaveSelected_filter (by simpa using hresponse)
        rw [hsame]
        exact .leave c caller r i source htop' hcaller

/-- The condition on a select, if nothing is borrowed. -/
theorem CleanupOk.selects (hok : CleanupOk site s a)
    (ha : s.selecting site a = some (caller, c, r, dcfg)) : caller = .handlers ∧ s.RunsResponse c r ∨
      (r.bind fun q => (s.rcfg q).interp) = none ∧ SelectsOnce site s caller c r dcfg :=
  hok.1 _ ha

/-- A caller that is no response handler selects. -/
theorem selects (h : Lending site gone s) (hsound : Sound site (s.plain gone))
    (hcall : s.MayCall c) (hcaller : caller.isResponse = false)
    (hnone : (r.bind fun q => (s.rcfg q).interp) = none)
    (honce : SelectsOnce site s caller c r dcfg) (hs : s.enter site caller c r dcfg = some s') :
    Lending site gone s' ∧ SelectsOnce site (s.plain gone) caller c r dcfg ∧
      (s.plain gone).enter site caller c r dcfg = some (s'.plain gone) :=
  ⟨h.enter hsound.ledger.pools hnone (awaits_of_mayCall hcall)
      (fun hresponse => by simp [hcaller] at hresponse) hs,
    honce.plain hnone, enter_plain_of_not hsound.ledger.pools hnone hcaller hs⟩

/-- A response handler begins. -/
theorem responds (h : Lending site gone s) (hsound : Sound site (s.plain gone)) {cgi : Bool}
    (hcaller : (if cgi then .responseHandlerCgi else .responseHandler) = caller)
    (hcall : s.MayCall (site.connection q))
    (hserves : s.Serves site (site.connection q) (some q))
    (hok : CleanupOk site s (.response q cgi dcfg))
    (hs : s.enter site caller (site.connection q) (some q) dcfg = some s') :
    Matched site gone s s' := by
  have hresponse : caller.isResponse = true := by
    subst hcaller
    cases cgi <;> rfl
  have hselecting : s.selecting site (.response q cgi dcfg) =
      some (caller, site.connection q, some q, dcfg) := by rw [← hcaller]; rfl
  have hselecting' : (s.plain gone).selecting site (.response q cgi dcfg) =
      some (caller, site.connection q, some q, dcfg) := hselecting
  obtain ⟨hnone, honce⟩ := (CleanupOk.selects hok hselecting).resolve_left fun hruns => by
    rw [hruns.1] at hresponse
    cases hresponse
  have hpools : PoolsOk s.tipool s.next := hsound.ledger.pools
  have hlending : Lending site gone s' := by
    refine h.enter hpools hnone (awaits_of_mayCall hcall) (fun _ q' hq' => ?_) hs
    exact ⟨by rw [Option.some.inj hq'], hcall⟩
  have hcall' := State.mayCall_plain h.stacked hcall
  have hgone : q ∉ gone := by
    intro hmem
    refine honce.not_handled ?_ (h.handled q hmem)
    cases caller <;> first | rfl | cases hresponse
  rcases enter_plain_of_stores hpools hnone hresponse hgone hs with
    henter | ⟨s₁, i, source, hpopped, hsource, hplain, henter⟩
  · refine .of_step (a := .filter (site.connection q) (some q) dcfg) hlending
      ⟨trivial, (honce.filter hresponse).plain hnone, trivial⟩ ?_
    exact .filter (site.connection q) (some q) dcfg hcall' hserves henter
  · -- what a pool keeps is not put back, so the response handler stores nothing
    have hstep : Step site (s.plain gone) (.response q cgi dcfg)
        (((s₁.record (.select caller (some q) (site.connection q) i source)).begin caller (some q)
          i).push (site.connection q) (.selected caller (some q) i source)) :=
      .response q cgi dcfg hcall' hserves (hcaller.symm ▸ henter)
    have hflag : (s₁.interp i).putback = false := by
      rw [← (entered_begin s₁ caller (site.connection q) (some q) i source).interp]
      have hsound' := hsound.step (a := .response q cgi dcfg) trivial hstep.step_eq
      cases source with
      | rcfg => exact absurd rfl hsource
      | found p => exact hsound'.putback_of_based List.mem_cons_self rfl
      | popped kept =>
          cases kept with
          | some p => exact hsound'.putback_of_based List.mem_cons_self rfl
          | none => exact absurd rfl hpopped
    have hbegin : (s₁.record (.select caller (some q) (site.connection q) i source)).begin caller
        (some q) i = s₁.record (.select caller (some q) (site.connection q) i source) := by
      cases caller <;> first | exact if_neg (by simp [State.record, hflag]) | cases hresponse
    have honce' : SelectsOnce site (s.plain gone) caller (site.connection q) (some q) dcfg :=
      honce.plain hnone
    refine .of_step (a := .response q cgi dcfg) hlending ⟨trivial, ?_, trivial⟩ ?_
    · rw [hselecting']
      exact honce'
    · rw [hplain]
      rwa [hbegin] at hstep

/-- A phase or a filter begins. -/
theorem serves (h : Lending site gone s) (hsound : Sound site (s.plain gone))
    (honce : Once (s.plain gone) []) (hcall : s.MayCall c) (hserves : s.Serves site c r)
    (hcaller : caller.isResponse = false) (hok : CleanupOk site s a)
    (ha : s.selecting site a = some (caller, c, r, dcfg))
    (ha' : (s.plain gone).selecting site a = some (caller, c, r, dcfg))
    (hphases : SelectsOnce site (s.plain gone) caller c r dcfg → PhasesOk site (s.plain gone) a)
    (hstep : (s.plain gone).MayCall c →
      (s.plain gone).enter site caller c r dcfg = some (s'.plain gone) →
        Step site (s.plain gone) a (s'.plain gone))
    (hs : s.enter site caller c r dcfg = some s') : Matched site gone s s' := by
  rcases CleanupOk.selects hok ha with ⟨rfl, hruns⟩ | ⟨hnone, hselects⟩
  · exact h.lends honce hserves hruns hs
  · obtain ⟨hlending, hselects', henter⟩ := h.selects hsound hcall hcaller hnone hselects hs
    exact .of_step hlending (hphases hselects') (hstep (State.mayCall_plain h.stacked hcall) henter)

end Lending

theorem State.SelectsIntact.plain (h : s.SelectsIntact site caller c r dcfg)
    (hnone : (r.bind fun q => (s.rcfg q).interp) = none) :
    (s.plain gone).SelectsIntact site caller c r dcfg := by
  have hnone' : (r.bind fun q => ((s.plain gone).rcfg q).interp) = none := by cases r <;> rfl
  unfold State.SelectsIntact at h ⊢
  rw [hnone] at h
  have hkept : (s.plain gone).firstKept (site.searched caller c r dcfg) =
      s.firstKept (site.searched caller c r dcfg) := firstKept_congr rfl
  rw [hnone', hkept]
  exact h

namespace Lending

/-- `modperl_interp_unselect` calls the cleanup of the request. -/
theorem unselects (h : Lending site gone s) (hsound : Sound site (s.plain gone)) {found : Bool}
    (hok : CleanupOk site s (.requestCleanup c found dcfg))
    (htop : s.top c = some (.unselect i q pool reset false))
    (hs : ((s.pop c).push c (.unselect i q pool reset true)).requestCleanup site c q found dcfg =
      some s') : Matched site gone s s' := by
  have hpools : PoolsOk s.tipool s.next := hsound.ledger.pools
  have hcalls := h.calls htop
  have hselects : found = true ∧ site.enable (site.server q) = true →
      ((some q).bind fun q => (s.rcfg q).interp) = none ∧
        SelectsOnce site s .cleanup c (some q) dcfg := fun hfound =>
    (CleanupOk.selects hok (by simp [State.selecting, htop, hfound])).resolve_left
      fun hruns => by cases hruns.1
  have hnone : found = true ∧ site.enable (site.server q) = true →
      (((s.pop c).push c (.unselect i q pool reset true)).rcfg q).interp = none :=
    fun hfound => (hselects hfound).1
  have hawaits : ∀ g ∈ ((s.pop c).push c (.unselect i q pool reset true)).top c,
      g.awaits = none := by
    intro g hg
    obtain rfl : Frame.unselect i q pool reset true = g := by simpa [State.top, State.push] using hg
    rfl
  obtain ⟨htop', hpop'⟩ := State.plain_pop gone htop rfl
  have hcleanup := plain_requestCleanup gone
    (s := (s.pop c).push c (.unselect i q pool reset true)) hpools hnone hs
  rw [State.plain_push (g := .unselect i q pool none true) rfl, hpop'] at hcleanup
  refine .of_step (a := .requestCleanup c found dcfg)
    (hcalls.requestCleanup (s := (s.pop c).push c (.unselect i q pool reset true)) hpools hnone
      hawaits hs) ⟨?_, ?_, trivial⟩ (.unselectCleanup c found dcfg i q pool none htop' hcleanup)
  · simp only [StepOk, htop']
    intro hfound henable
    refine ⟨trivial, State.SelectsIntact.plain ?_ (hselects ⟨hfound, henable⟩).1⟩
    exact hok.2 _ htop q rfl hfound henable
  · simp only [State.selecting, htop']
    split_ifs with hfound
    · exact (hselects hfound).2.plain (hselects hfound).1
    · trivial

/-- `modperl_config_req_cleanup` calls it. -/
theorem reqCleans (h : Lending site gone s) (hsound : Sound site (s.plain gone)) {found : Bool}
    (hok : CleanupOk site s (.requestCleanup c found dcfg))
    (htop : s.top c = some (.selected .reqCleanup (some q) i source))
    (hs : ((s.pop c).push c (.reqCleanupDone q i source)).requestCleanup site c q found dcfg =
      some s') : Matched site gone s s' := by
  have hpools : PoolsOk s.tipool s.next := hsound.ledger.pools
  have hrests := (h.stacked.top htop).1
  have hsource : source ≠ .rcfg := by
    rintro rfl
    cases (hrests.borrows _ _ _ rfl).1
  have hselects : found = true ∧ site.enable (site.server q) = true →
      ((some q).bind fun q => (s.rcfg q).interp) = none ∧
        SelectsOnce site s .cleanup c (some q) dcfg := fun hfound =>
    (CleanupOk.selects hok (by simp [State.selecting, htop, hfound])).resolve_left
      fun hruns => by cases hruns.1
  have hnone : found = true ∧ site.enable (site.server q) = true →
      (((s.pop c).push c (.reqCleanupDone q i source)).rcfg q).interp = none :=
    fun hfound => (hselects hfound).1
  have hpush : Lending site gone ((s.pop c).push c (.reqCleanupDone q i source)) :=
    (h.pop htop rfl).push
      ⟨hrests.awaits, fun _ _ hq => (by cases hq), fun _ _ _ hf => (by cases hf)⟩
  have hrecord : Lending site gone
      (((s.pop c).push c (.reqCleanupDone q i source)).record (.requestCleanup q)) :=
    hpush.congr [.requestCleanup q] rfl rfl fun e he => by
      rw [List.mem_singleton.mp he]
      simp [Event.plain]
  have hawaits : ∀ g ∈ ((s.pop c).push c (.reqCleanupDone q i source)).top c,
      g.awaits = none := by
    intro g hg
    obtain rfl : Frame.reqCleanupDone q i source = g := by simpa [State.top, State.push] using hg
    rfl
  obtain ⟨htop', hpop'⟩ := State.plain_pop gone htop (Frame.plain_selected hsource rfl)
  have hcleanup := plain_requestCleanup gone
    (s := (s.pop c).push c (.reqCleanupDone q i source)) hpools hnone hs
  rw [State.plain_push (g := .reqCleanupDone q i source) rfl, hpop'] at hcleanup
  refine .of_step (a := .requestCleanup c found dcfg)
    (hrecord.requestCleanup hpools hnone hawaits hs) ⟨?_, ?_, trivial⟩
    (.subpoolCleanup c found dcfg i q source htop' hcleanup)
  · simp only [StepOk, htop']
  · simp only [State.selecting, htop']
    split_ifs with hfound
    · exact (hselects hfound).2.plain (hselects hfound).1
    · trivial

/-- The step lemma. -/
theorem step (h : Lending site gone s) (hsound : Sound site (s.plain gone))
    (honce : Once (s.plain gone) []) (hok : CleanupOk site s a)
    (hs : ModPerl.step site s a = some s') : Matched site gone s s' := by
  have hunused : ∀ p, s.Unused site p → (s.plain gone).Unused site p := fun _ =>
    State.unused_plain
  have hmayCall : ∀ c, s.MayCall c → (s.plain gone).MayCall c := fun _ =>
    State.mayCall_plain h.stacked
  have hrunning : ∀ c i, s.running c = some i → (s.plain gone).running c = some i := fun _ _ =>
    State.running_plain h.stacked
  cases step_inv hs with
  | openPool p hunborn habove hcustom =>
      refine .of_step (a := .openPool p) (h.congr [] rfl rfl (by simp)) ⟨trivial, trivial, trivial⟩ ?_
      exact .openPool p hunborn habove hcustom
  | endPool p hlive hun hcall =>
      refine .of_step (a := .endPool p) (h.congr [] rfl rfl (by simp)) ⟨trivial, trivial, trivial⟩ ?_
      exact .endPool p hlive (hunused p hun) (hmayCall _ hcall)
  | reqCleanup r dcfg hending hsubpool hun hcall henter =>
      have hbefore : Before s { s with subpools := s.subpools.erase r } := .of_eq rfl rfl
      have hlending : Lending site gone { s with subpools := s.subpools.erase r } :=
        h.congr [] rfl rfl (by simp)
      obtain ⟨hnone, hselects⟩ := (CleanupOk.selects hok rfl).resolve_left fun hruns => by
        cases hruns.1
      have hpools : PoolsOk s.tipool s.next := hsound.ledger.pools
      refine .of_step (a := .reqCleanup r dcfg)
        (hlending.enter hpools hnone (awaits_of_mayCall hcall) (fun hr => by cases hr) henter)
        ⟨trivial, hselects.plain hnone, trivial⟩ ?_
      exact .reqCleanup r dcfg hending hsubpool (hunused _ hun) (hmayCall _ hcall)
        (enter_plain_of_not (s := { s with subpools := s.subpools.erase r }) hpools hnone rfl henter)
  | firstCleanup p k hnext hchildless hun hcall hending =>
      have hlending : Lending site gone ((s.dropCleanup p).setStatus p .cleaning) :=
        h.congr [] rfl rfl (by simp)
      refine .of_step (a := .runCleanup p) (hlending.runCleanup (awaits_of_mayCall hcall))
        ⟨trivial, trivial, trivial⟩ ?_
      rw [State.plain_runCleanup]
      exact .firstCleanup p k hnext hchildless (hunused p hun) (hmayCall _ hcall) hending
  | laterCleanup p k hnext hchildless hun hcall hstatus =>
      have hlending : Lending site gone (s.dropCleanup p) := h.congr [] rfl rfl (by simp)
      refine .of_step (a := .runCleanup p) (hlending.runCleanup (awaits_of_mayCall hcall))
        ⟨trivial, trivial, trivial⟩ ?_
      rw [State.plain_runCleanup]
      exact .laterCleanup p k hnext hchildless (hunused p hun) (hmayCall _ hcall) hstatus
  | endedPool p hstatus hnext hchildless hun hcall =>
      refine .of_step (a := .endedPool p) (h.congr [] rfl rfl (by simp)) ⟨trivial, trivial, ?_⟩ ?_
      · cases p with
        | req q => exact State.endsOnce_plain h hok.2
        | _ => trivial
      · exact .endedPool p hstatus hnext hchildless (hunused p hun) (hmayCall _ hcall)
  | handlers c r found dcfg hcall hserves hfound henter =>
      refine h.serves hsound honce hcall hserves rfl hok (if_pos hfound) (if_pos hfound)
        (fun hselects => ⟨trivial, ?_, trivial⟩) (fun hcall' henter' => ?_) henter
      · simpa only [State.selecting, if_pos hfound] using hselects
      · exact .handlers c r found dcfg hcall' hserves hfound henter'
  | noHandlers => exact .of_eq h rfl
  | filter c r dcfg hcall hserves henter =>
      exact h.serves hsound honce hcall hserves rfl hok rfl rfl
        (fun hselects => ⟨trivial, hselects, trivial⟩)
        (fun hcall' henter' => .filter c r dcfg hcall' hserves henter') henter
  | response q cgi dcfg hcall hserves henter =>
      exact h.responds hsound rfl hcall hserves hok henter
  | leave c caller r i source htop hcaller =>
      by_cases hsource : source = .rcfg
      · subst hsource
        exact h.givesBack hsound honce htop (hok.2 _ htop)
      · exact h.leaves hsound htop hcaller hsource (hok.2 _ htop)
  | leavePerl c p perl htop =>
      obtain ⟨htop', hpop'⟩ := State.plain_pop gone htop rfl
      refine .of_step (a := .leave c) (h.pop htop rfl) (phasesOk_leave (f := .perlCleanup p perl none)
        rfl htop') ?_
      rw [hpop']
      exact .leavePerl c p perl htop'
  | leaveInterp c p perl i htop =>
      obtain ⟨htop', hpop'⟩ := State.plain_pop gone htop rfl
      refine .of_step (a := .leave c) ((h.pop htop rfl).unselect (h.stacked.top htop).1.awaits)
        (phasesOk_leave (f := .perlCleanup p perl (some i)) rfl htop') ?_
      rw [State.plain_unselect, hpop']
      exact .leaveInterp c p perl i htop'
  | unselectCleanup c found dcfg i q pool reset htop hcleanup =>
      exact h.unselects hsound hok htop hcleanup
  | subpoolCleanup c found dcfg i q source htop hcleanup =>
      exact h.reqCleans hsound hok htop hcleanup
  | unselectRest c i q pool reset htop =>
      obtain ⟨htop', hpop'⟩ := State.plain_pop gone htop rfl
      have hlending : Lending site gone
          ((s.pop c).setRcfg q fun x => { x with cleanupRegistered := false }) :=
        (h.pop htop rfl).congr [] rfl rfl (by simp)
      refine .of_step (a := .cleanedUp c) hlending.putback.resetRcfg ⟨trivial, trivial, trivial⟩ ?_
      rw [State.plain_unselectRest, hpop']
      exact .unselectRest c i q pool none htop'
  | leak c q i htop =>
      obtain ⟨htop', hpop'⟩ := State.plain_pop gone htop rfl
      refine .of_step (a := .cleanedUp c) ((h.pop htop rfl).congr [] rfl rfl (by simp))
        ⟨trivial, trivial, trivial⟩ ?_
      have hleak : Step site (s.plain gone) (.cleanedUp c)
          { (s.plain gone).pop c with leaked := i :: (s.plain gone).leaked } := .leak c q i htop'
      rwa [← hpop'] at hleak
  | subpoolDone c q i source htop hsource =>
      obtain ⟨htop', hpop'⟩ := State.plain_pop gone htop rfl
      refine .of_step (a := .cleanedUp c) (h.pop htop rfl) ⟨trivial, trivial, trivial⟩ ?_
      rw [hpop']
      exact .subpoolDone c q i source htop' hsource
  | pnotes c q i hrun hthread hstatus =>
      refine .of_step (a := .pnotes c q) ?_ ⟨trivial, trivial, trivial⟩ ?_
      · obtain ⟨_, _, heq⟩ := s.pnotes_eq q i
        exact h.congr [] (by rw [heq]) (by rw [heq]; rfl) (by simp)
      · rw [State.plain_pnotes]
        exact .pnotes c q i (hrunning c i hrun) hthread hstatus
  | newPool c parent serial i hrun hunborn hintact hthread =>
      refine .of_step (a := .newPool c parent serial) ?_ ⟨trivial, trivial, trivial⟩ ?_
      · obtain ⟨_, _, heq⟩ := State.takeOwnership_eq
          ({ s with pools := .custom parent serial :: s.pools }.setStatus (.custom parent serial)
            .live) (.custom parent serial) i
        exact h.congr [] (by rw [heq]; rfl) (by rw [heq]; rfl) (by simp)
      · rw [State.plain_takeOwnership]
        exact .newPool c parent serial i (hrunning c i hrun) hunborn hintact hthread
  | clearPool c parent serial i hrun hlive hthread =>
      refine .of_step (a := .clearPool c (.custom parent serial)) (h.congr [] rfl rfl (by simp))
        ⟨trivial, trivial, trivial⟩ ?_
      exact .clearPool c parent serial i (hrunning c i hrun) hlive hthread
  | clearedPool c p i hrun hclearing hthread hnext hchildless =>
      refine .of_step (a := .clearedPool c p) ?_ ⟨trivial, trivial, trivial⟩ ?_
      · obtain ⟨_, _, heq⟩ := (s.setStatus p .live).takeOwnership_eq p i
        exact h.congr [] (by rw [heq]; rfl) (by rw [heq]; rfl) (by simp)
      · rw [State.plain_takeOwnership]
        exact .clearedPool c p i (hrunning c i hrun) hclearing hthread hnext hchildless
  | registerCleanup c p i hrun hunborn hended hthread =>
      refine .of_step (a := .registerCleanup c p) ?_ ⟨trivial, trivial, trivial⟩ ?_
      · obtain ⟨_, _, heq⟩ := s.cleanupRegisterPerl_eq p i
        exact h.congr [] (by rw [heq]) (by rw [heq]; rfl) (by simp)
      · rw [State.plain_cleanupRegisterPerl]
        exact .registerCleanup c p i (hrunning c i hrun) hunborn hended hthread

/-- The run lemma: every run that meets the conditions is simulated by one without lending. -/
theorem of_reachable (h : Reachable (ModPerl.step site) (CleanupOk site) (.start site) s) :
    ∃ gone, Lending site gone s ∧ Sound site (s.plain gone) ∧ Once (s.plain gone) [] := by
  have hsim : ∃ t, Reachable (ModPerl.step site) (PhasesOk site) (.start site) t ∧
      ∃ gone, t = s.plain gone ∧ Lending site gone s := by
    refine h.simulation (R := fun s t => ∃ gone, t = s.plain gone ∧ Lending site gone s)
      ⟨[], rfl, .start⟩ ?_
    rintro s a s' _ ht ⟨gone, rfl, hlending⟩ hok hs
    obtain ⟨hsound, honce⟩ := Once.of_reachable ht
    obtain ⟨gone', hlending', heq | ⟨a', hok', hstep⟩⟩ := hlending.step hsound honce hok hs
    · exact ⟨_, .start, gone', heq.symm, hlending'⟩
    · exact ⟨_, .step a' .start hok' hstep.step_eq, gone', rfl, hlending'⟩
  obtain ⟨_, ht, gone, rfl, hlending⟩ := hsim
  exact ⟨gone, hlending, Once.of_reachable ht⟩

/-- A request of which a Perl handler has run has a cleanup when it has ended. -/
theorem cleaned_of_ran (h : Lending site gone s) (honce : Once (s.plain gone) [])
    (hended : s.status (.req q) = .ended) (hran : s.HandlerRan q) : q ∈ s.cleaned := by
  have hcalled : ∀ caller, caller.isResponse = false → s.Called caller q →
      (s.plain gone).Called caller q ∨ s.Handled q := by
    rintro caller hcaller ⟨e, he, hcalls⟩
    cases hplain : e.plain with
    | none => exact .inr (h.lent e he hplain _ hcalls)
    | some e' =>
        exact .inl ⟨e', List.mem_filterMap.mpr ⟨e, he, hplain⟩,
          Event.calls_plain hplain hcalls hcaller⟩
  rw [← s.cleaned_plain gone]
  rcases hran with hran | hran
  · rcases hcalled .handlers rfl hran with hran | hh
    · exact (honce.atEnd q hended).2 (.inl hran)
    · exact honce.cleaned_of_handled hended (State.handled_plain.mpr hh)
  · rcases hcalled .filter rfl hran with hran | hh
    · exact (honce.atEnd q hended).2 (.inr hran)
    · exact honce.cleaned_of_handled hended (State.handled_plain.mpr hh)

/-- No phase selects after the cleanup. -/
theorem phases_first (h : Lending site gone s) (honce : Once (s.plain gone) []) :
    s.log.Pairwise fun e e' => ∀ q, e'.cleans = some q → ∀ y, e.phase ≠ some (q, y) := by
  have hplain := List.pairwise_filterMap.mp honce.order
  refine (hplain.and h.order).imp fun {e e'} hboth q hcleans y hphase => ?_
  cases he : e.plain with
  | none => exact hboth.2 he q hcleans y hphase
  | some e₁ =>
      cases he' : e'.plain with
      | none =>
          obtain ⟨_, _, _, _, rfl⟩ := Event.plain_eq_none he'
          cases hcleans
      | some e₂ =>
          refine hboth.1 e₁ he e₂ he' q ?_ y ?_
          · rw [(Event.plain_eq_some he').2.1, hcleans]
          · rw [(Event.plain_eq_some he).1, hphase]

/-- When the cleanup has been called no phase of the request runs Perl code any more. -/
theorem idle_of_cleaned (h : Lending site gone s) (honce : Once (s.plain gone) [])
    (hq : q ∈ s.cleaned) (hx : (c, f) ∈ s.frames) {y : InterpId × Source}
    (hy : f.phase = some (q, y)) : f.perl = none := by
  have hdone : ∀ f g y, (c, f) ∈ s.frames → f.plain gone = some g → g.phase ≠ some (q, y) := by
    intro f g y hf hplain
    have hmem : (c, g) ∈ (s.plain gone).frames := State.mem_plain_frames.mpr ⟨f, hf, hplain⟩
    exact (honce.done q (s.cleaned_plain gone ▸ hq) _ hmem).1 y
  cases hplain : f.plain gone with
  | none =>
      rcases Frame.plain_eq_none hplain with ⟨q', i, hstores, -⟩ | ⟨caller, r, i, rfl⟩
      · rcases Frame.eq_selected_of_stores hstores with rfl | rfl <;> rfl
      · -- what the handlers have borrowed is still with the response handler
        obtain ⟨rfl, q', rfl, hgone, g, hg, hstores⟩ := h.stacked.borrows hx
        have hsame : some (q', i, Source.rcfg) = some (q, y) := hy
        obtain rfl : q' = q := (Prod.mk.inj (Option.some.inj hsame)).1
        exact absurd rfl (hdone g _ _ hg ((Frame.plain_of_stores hstores).trans (if_neg hgone)))
  | some g =>
      refine absurd ?_ (hdone f g y hx hplain)
      rcases Frame.plain_eq_some hplain with ⟨q', i, hstores, -, rfl⟩ |
        ⟨_, _, _, _, _, rfl, -⟩ | ⟨-, rfl, -⟩
      · rcases Frame.eq_selected_of_stores hstores with rfl | rfl <;> exact hy
      · cases hy
      · exact hy

/-- Who is about to call the cleanup is the first one, and the request has not ended. -/
theorem first_of_cleansUp (h : Lending site gone s) (hsound : Sound site (s.plain gone))
    (honce : Once (s.plain gone) []) (hx : (c, f) ∈ s.frames) (hq : f.cleansUp = some q) :
    q ∉ s.cleaned ∧ s.status (.req q) ≠ .ended := by
  obtain ⟨g, hplain, hg⟩ : ∃ g, f.plain gone = some g ∧ g.cleansUp = some q := by
    cases f with
    | selected caller r i source =>
        cases caller with
        | reqCleanup =>
            refine ⟨_, Frame.plain_selected ?_ rfl, hq⟩
            rintro rfl
            cases (h.stacked.borrows hx).1
        | _ => cases hq
    | unselect i q' p reset called => exact ⟨_, rfl, by cases called <;> exact hq⟩
    | _ => cases hq
  rw [← s.cleaned_plain gone]
  exact honce.first_of_cleansUp hsound
    (State.mem_plain_frames.mpr ⟨f, hx, hplain⟩ : (c, g) ∈ (s.plain gone).frames) hg

/-- Cleanup handlers do not put their interpreter back. -/
theorem putback_of_cleanup (h : Lending site gone s) (hsound : Sound site (s.plain gone))
    (honce : Once (s.plain gone) []) (hx : (c, .selected .cleanup r i source) ∈ s.frames) :
    (s.interp i).putback = false := by
  have hsource : source ≠ .rcfg := by
    rintro rfl
    cases (h.stacked.borrows hx).1
  exact honce.putback_of_cleanup hsound
    (State.mem_plain_frames.mpr ⟨_, hx, Frame.plain_selected hsource rfl⟩) hsource

end Lending

/-- In a run that meets the conditions the cleanup of a request is called once at most,
and it has been called when the pool of a request ends of which a Perl handler or filter
has run.  No phase of the request is selected for after it, and none runs Perl code when
it is called.  Whoever is about to call it is the first one, and the request has not
ended.  The end of the cleanup handlers does nothing else. -/
theorem request_cleanup_once (h : Reachable (step site) (CleanupOk site) (.start site) s) :
    (∀ q, s.cleaned.count q ≤ 1) ∧
    (∀ q, s.status (.req q) = .ended → s.HandlerRan q → s.cleaned.count q = 1) ∧
    (s.log.Pairwise fun e e' => ∀ q, e'.cleans = some q → ∀ y, e.phase ≠ some (q, y)) ∧
    (∀ q ∈ s.cleaned, ∀ x ∈ s.frames, ∀ y, x.2.phase = some (q, y) → x.2.perl = none) ∧
    (∀ q, ∀ x ∈ s.frames, x.2.cleansUp = some q →
      q ∉ s.cleaned ∧ s.status (.req q) ≠ .ended) ∧
    ∀ c r i source s', s.top c = some (.selected .cleanup r i source) →
      step site s (.leave c) = some s' → s' = s.pop c := by
  obtain ⟨gone, hlending, hsound, honce⟩ := Lending.of_reachable h
  have hle : ∀ q, s.cleaned.count q ≤ 1 := by
    intro q
    rw [← s.cleaned_plain gone]
    exact honce.count_cleaned_le q
  refine ⟨hle, fun q hended hran => ?_, hlending.phases_first honce,
    fun q hq x hx y hy => hlending.idle_of_cleaned honce hq hx hy,
    fun q x hx hq => hlending.first_of_cleansUp hsound honce hx hq,
    fun c r i source s' htop hs => ?_⟩
  · have hpos := List.count_pos_iff.mpr (hlending.cleaned_of_ran honce hended hran)
    have hq := hle q
    omega
  · simp only [step, htop] at hs
    obtain rfl := Option.some.inj hs
    exact State.leaveSelected_of_not (s.pop c)
      (hlending.putback_of_cleanup hsound honce (mem_of_top htop))

/-- The first request has one phase, under handler scope; the second has two phases, a
filter and a cleanup handler, under request scope; the third has the handlers of a
response handler, under handler scope. -/
theorem request_cleanup_once_three : ∃ s : State,
    (s.status (.req 0) = .ended ∧ s.status (.req 1) = .ended ∧ s.status (.req 2) = .ended) ∧
      s.cleaned.count 0 = 1 ∧ s.cleaned.count 1 = 1 ∧ s.cleaned.count 2 = 1 := by
  obtain ⟨s, hs, ⟨hended₀, hended₁, hended₂⟩, hran₀, hran₁, hran₂⟩ : ∃ s : State,
      Reachable (step (.shared .handler .default id)) (CleanupOk (.shared .handler .default id))
        (.start (.shared .handler .default id)) s ∧
        (s.status (.req 0) = .ended ∧ s.status (.req 1) = .ended ∧ s.status (.req 2) = .ended) ∧
        s.HandlerRan 0 ∧ s.HandlerRan 1 ∧ s.HandlerRan 2 :=
    Reachable.exists_of_run (show runOk _ _ _ [.openPool (.conn 0), .openPool (.req 0),
      .openPool (.conn 1), .openPool (.req 1), .openPool (.conn 2), .openPool (.req 2),
      .handlers 1 (some 1) true .request, .leave 1,
      .handlers 0 (some 0) true .undef, .leave 0, .requestCleanup 0 false .undef, .cleanedUp 0,
      .response 2 true .undef, .handlers 2 (some 2) true .undef, .leave 2,
      .requestCleanup 2 false .undef, .cleanedUp 2, .leave 2,
      .filter 1 (some 1) .request, .leave 1,
      .handlers 1 (some 1) true .request, .leave 1, .endPool (.req 0), .endedPool (.req 0),
      .endPool (.req 2), .endedPool (.req 2),
      .endPool (.req 1), .reqCleanup 1 .request, .requestCleanup 1 true .request, .leave 1,
      .cleanedUp 1, .runCleanup (.req 1), .endedPool (.req 1)] by decide +kernel)
      (by decide +kernel)
  have honce := (request_cleanup_once hs).2.1
  exact ⟨s, ⟨hended₀, hended₁, hended₂⟩, honce 0 hended₀ hran₀, honce 1 hended₁ hran₁,
    honce 2 hended₂ hran₂⟩

/-- Under handler scope each of two phases is followed by a cleanup; the end of a cleanup
handler begins another cleanup of the request; and a request of which only a filter has
run, under request scope, has no cleanup. -/
theorem cleanup_of_each_phase :
    (∃ s : State, Reachable (step (.shared .handler .default id))
      (StepOk (.shared .handler .default id)) (.start (.shared .handler .default id)) s ∧
      s.cleaned = [0, 0] ∧ s.phases = [(0, ⟨0, 0⟩, .popped none), (0, ⟨0, 0⟩, .popped none)]) ∧
    (∃ s : State, Reachable (step (.shared .handler .default id))
      (StepOk (.shared .handler .default id)) (.start (.shared .handler .default id)) s ∧
      s.cleaned = [0] ∧ s.frames = [(0, .unselect ⟨0, 1⟩ 0 none none false),
        (0, .unselect ⟨0, 0⟩ 0 none none true)]) ∧
    ∃ s : State, Reachable (step (.shared .request .default id))
      (StepOk (.shared .request .default id)) (.start (.shared .request .default id)) s ∧
      s.HandlerRan 0 ∧ s.status (.req 0) = .ended ∧ s.cleaned = [] := by
  refine ⟨Reachable.exists_of_run (show runOk _ _ _ [.openPool (.conn 0), .openPool (.req 0),
      .handlers 0 (some 0) true .undef, .leave 0, .requestCleanup 0 false .undef, .cleanedUp 0,
      .handlers 0 (some 0) true .undef, .leave 0, .requestCleanup 0 false .undef, .cleanedUp 0]
      by decide +kernel) (by decide +kernel),
    Reachable.exists_of_run (show runOk _ _ _ [.openPool (.conn 0), .openPool (.req 0),
      .handlers 0 (some 0) true .undef, .leave 0, .requestCleanup 0 true .undef, .leave 0]
      by decide +kernel) (by decide +kernel),
    Reachable.exists_of_run (show runOk _ _ _ [.openPool (.conn 0), .openPool (.req 0),
      .filter 0 (some 0) .undef, .leave 0, .endPool (.req 0), .runCleanup (.req 0),
      .endedPool (.req 0)] by decide +kernel) (by decide +kernel)⟩

end ModPerl
