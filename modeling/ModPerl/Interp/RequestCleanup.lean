import ModPerl.Interp.CleanupPhases

/-!
# The request cleanup

The subpool of a request's pool runs `modperl_config_req_cleanup`, which selects an
interpreter; `modperl_interp_unselect` has one.  Either calls
`modperl_config_request_cleanup`, which runs the cleanup handlers.  The call is the first
one, and no phase of the request is left then (`of_cleansUp`, `alone_of_calls`).

Here no response handler lends its interpreter (`PhasesOk`); `ResponsePhase.lean` adds
these.
-/

namespace ModPerl

open Machine

variable {site : Site} {s s' s₀ s₁ : State} {a : Act} {caller : Caller} {r : Option ReqId}
  {c : ConnId} {dcfg : InterpScope} {i j : InterpId} {source : Source} {p : PoolId} {q : ReqId}
  {f : Frame} {pool : Option PoolId} {reset : Option ReqId} {owed : List ReqId}

/-! ## `modperl_config_req_cleanup` -/

namespace Once

/-- The destruction of the subpool begins: no phase is left. -/
theorem takeSubpool (h : Once s []) (hsubpool : q ∈ s.subpools)
    (hunused : s.Unused site (.req q)) : Once { s with subpools := s.subpools.erase q } [q] := by
  have hcount : ∀ q', [q].count q' + (s.subpools.erase q).count q' = s.subpools.count q' := by
    intro q'
    have hpos := List.count_pos_iff.mpr hsubpool
    by_cases hq : q' = q
    · subst hq
      rw [List.count_singleton_self, List.count_erase_self]
      omega
    · rw [List.count_singleton, if_neg (by simpa using Ne.symm hq), List.count_erase_of_ne hq,
        Nat.zero_add]
  have htriggers : ∀ q', [q].count q' +
      ({ s with subpools := s.subpools.erase q } : State).triggers.count q' =
        ([] : List ReqId).count q' + s.triggers.count q' := by
    intro q'
    rw [State.count_triggers, State.count_triggers, List.count_nil, ← hcount q']
    simp only [State.cleaned]
    omega
  exact
    { h with
      account := fun q' hn => (htriggers q').trans (h.account q' hn)
      handled := fun q' hh => by
        rw [htriggers q']
        exact h.handled q' hh
      alone := fun q' halone x hx y hy => by
        rcases halone with hq | hreq
        · obtain rfl := List.mem_singleton.mp hq
          refine hunused x hx ?_
          obtain ⟨c, f⟩ := x
          cases f with
          | selected caller r j source =>
              cases r with
              | none => cases hy
              | some r =>
                  simp only [Frame.phase] at hy
                  split_ifs at hy
                  obtain rfl := (Prod.mk.inj (Option.some.inj hy)).1
                  exact List.mem_cons_self
          | _ => cases hy
        · exact h.alone q' (.inr hreq) x hx y hy }

/-- `modperl_config_req_cleanup` has its interpreter. -/
theorem enter_reqCleanup (h : Once s [q])
    (he : Entering s s' .reqCleanup c (some q) i source) : Once s' [] := by
  have hcleaned := he.cleaned
  have hphases : s'.phases = s.phases := by
    rw [State.phases, he.log]
    rfl
  have hnot := h.not_handled (.inl List.mem_cons_self)
  obtain ⟨hon, honce⟩ := h.registered (.inl List.mem_cons_self)
  rw [List.count_singleton_self] at honce
  have hcount := s.count_triggers q
  have hnotdone : q ∉ s.cleaned := List.count_eq_zero.mp (by omega)
  have hflag : ∀ q', (s'.rcfg q').cleanupRegistered = (s.rcfg q').cleanupRegistered := by
    intro q'
    by_cases hturns : TurnsOn .reqCleanup (some q) source q'
    · obtain rfl := Option.some.inj hturns.1
      rw [he.on q hturns, hon]
    · exact he.same q' hturns
  have hsubpools : s'.subpools = s.subpools := he.subpools fun q' hreg => by cases hreg.2.1
  -- what was owed is now the call
  have htriggers : ∀ q', ([] : List ReqId).count q' + s'.triggers.count q' =
      [q].count q' + s.triggers.count q' := by
    intro q'
    have hframes : s'.frames.filterMap (·.2.reqCleanup) =
        q :: s.frames.filterMap (·.2.reqCleanup) := by
      rw [he.frames]
      rfl
    rw [State.count_triggers, State.count_triggers, hsubpools, hframes, hcleaned, List.count_nil,
      List.count_cons, List.count_singleton]
    omega
  have hframe : ∀ x ∈ s'.frames, x.2.phase ≠ none ∨ (∃ i q p reset b, x.2 = .unselect i q p reset b)
      ∨ (∃ r i, x.2 = .selected .cleanup r i (.popped none)) → x ∈ s.frames := by
    intro x hx hcall
    refine (he.mem_frames hx).resolve_left ?_
    rintro rfl
    rcases hcall with hcall | ⟨_, _, _, _, _, hcall⟩ | ⟨_, _, hcall⟩
    · exact hcall rfl
    · cases hcall
    · cases hcall
  have hhandled : ∀ q', s'.Handled q' ↔ s.Handled q' := by
    intro q'
    rw [State.Handled, State.Handled, hphases]
  have hcalled : ∀ caller q', caller.isPhase = true → s'.Called caller q' → s.Called caller q' :=
    fun caller q' hphase hran => hran.of_cons hphase he.log rfl
  have hold : ∀ j q', (q', j, .popped none) ∈ s.phases → s'.WorksFor j q' → s.WorksFor j q' := by
    intro j q' hj hj'
    refine ((he.worksFor j q').mp hj').resolve_right fun heq => hnot ⟨j, ?_⟩
    rwa [Option.some.inj heq.2.2]
  exact
    { frames := fun x hx y hy => by
        rw [hphases]
        exact h.frames x (hframe x hx (.inl (by simp [hy]))) y hy
      cleanups := fun c' r j hx =>
        h.cleanups c' r j (hframe _ hx (.inr (.inr ⟨r, j, rfl⟩)))
      single := hphases ▸ h.single
      request := fun j q' hj => by
        rw [hphases]
        rcases (he.worksFor j q').mp hj with hj | ⟨rfl, rfl, -⟩
        · exact (h.request j q' hj).imp_right he.stranded
        · have hx : (c, .selected .reqCleanup (some q) j (.popped none)) ∈ s'.frames := by
            rw [he.frames]
            exact List.mem_cons_self
          exact .inr (List.mem_append_left _ (List.mem_filterMap.mpr ⟨_, hx, rfl⟩))
      account := fun q' hn => by
        rw [htriggers, hflag]
        exact h.account q' ((hhandled q').not.mp hn)
      handled := fun q' hh => by
        rw [htriggers, hcleaned]
        exact h.handled q' ((hhandled q').mp hh)
      pending := fun q' j hj hdone => by
        rw [hphases] at hj
        rw [hcleaned] at hdone
        obtain ⟨hworks, hon'⟩ := h.pending q' j hj hdone
        exact ⟨(he.worksFor j q').mpr (.inl hworks), by rw [hflag, hon']⟩
      done := fun q' hdone x hx => by
        rw [hcleaned] at hdone
        rcases he.mem_frames hx with rfl | hx
        · refine ⟨fun y => by simp [Frame.phase, Caller.isPhase], fun heq => hnotdone ?_⟩
          rwa [Option.some.inj heq]
        · exact h.done q' hdone x hx
      last := fun q' j hj hdone hj' => by
        rw [hphases] at hj
        rw [hcleaned] at hdone
        obtain ⟨c', p, reset, hx⟩ := h.last q' j hj hdone (hold j q' hj hj')
        exact ⟨c', p, reset, he.mem_of_mem hx⟩
      unselect := fun c' j q' p reset b hx => by
        obtain ⟨hj, hworks, hdone⟩ := h.unselect c' j q' p reset b
          (hframe _ hx (.inr (.inl ⟨_, _, _, _, _, rfl⟩)))
        rw [hphases, hcleaned]
        exact ⟨hj, (he.worksFor j q').mpr (.inl hworks), hdone⟩
      first := fun q' hon' => by
        rw [hphases]
        exact h.first q' (hflag q' ▸ hon')
      closed := fun q' hdone hn => by
        rw [he.status]
        exact h.closed q' (hcleaned ▸ hdone) ((hhandled q').not.mp hn)
      alone := fun q' halone x hx y hy => by
        have hx := hframe x hx (.inl (by simp [hy]))
        refine h.alone q' ?_ x hx y hy
        obtain ⟨x', hx', hreq⟩ := halone.resolve_left (by simp)
        rcases he.mem_frames hx' with rfl | hx'
        · exact .inl (by simpa [Frame.reqCleanup, eq_comm] using hreq)
        · exact .inr ⟨x', hx', hreq⟩
      ran := fun q' hran hn => by
        rw [hflag]
        exact h.ran q' (hcalled _ q' rfl hran) ((hhandled q').not.mp hn)
      atEnd := fun q' hended' => by
        rw [he.status] at hended'
        rw [hphases, hcleaned]
        obtain ⟨hput, hdone⟩ := h.atEnd q' hended'
        exact ⟨fun j hj hj' => hput j hj (hold j q' hj hj'),
          fun hran => hdone (hran.of_called fun _ => hcalled _ q')⟩
      order := by
        rw [he.log, List.pairwise_cons]
        exact ⟨fun _ _ _ _ _ => by simp [Event.phase, Caller.isPhase], h.order⟩ }

/-! ## `modperl_config_request_cleanup` -/

/-- Whoever is about to call the cleanup of a request is the first one, and
`MpReqCLEANUP_REGISTERED` is on. -/
theorem of_cleansUp (h : Once s []) {x : ConnId × Frame} (hx : x ∈ s.frames)
    (hq : x.2.cleansUp = some q) :
    q ∉ s.cleaned ∧ (s.rcfg q).cleanupRegistered = true := by
  have hnot : q ∉ s.cleaned := fun hdone => (h.done q hdone x hx).2 hq
  refine ⟨hnot, ?_⟩
  rcases Frame.reqCleanup_or_of_cleansUp hq with hreq | ⟨i, p, reset, hunselect⟩
  · exact (h.registered (.inr ⟨x, hx, hreq⟩)).1
  · obtain ⟨c, f⟩ := x
    obtain rfl : f = .unselect i q p reset false := hunselect
    exact (h.pending q i (h.unselect _ _ _ _ _ _ hx).1 hnot).2

/-- The two calls of `modperl_config_request_cleanup`, before and after. -/
inductive Calls (q : ReqId) : Frame → Frame → Prop
  | unselect {i : InterpId} {p : Option PoolId} {reset : Option ReqId} :
      Calls q (.unselect i q p reset false) (.unselect i q p reset true)
  | reqCleanup {i : InterpId} {source : Source} :
      Calls q (.selected .reqCleanup (some q) i source) (.reqCleanupDone q i source)

variable {g : Frame}

/-- While the cleanup of a request is called no phase of the request is left, and
nobody else is about to call it. -/
theorem alone_of_calls (h : Once s []) (hsound : Sound site s) (htop : s.top c = some f)
    (hcalls : Calls q f g) :
    (∀ x ∈ (s.pop c).frames, (∀ y, x.2.phase ≠ some (q, y)) ∧ x.2.cleansUp ≠ some q) ∧
      (¬s.Handled q → 2 ≤ (s.status (.req q)).age) := by
  have hf := mem_of_top htop
  -- a second call of `modperl_config_req_cleanup` would be one too many
  have hnone : (s.Handled q ∨ f.reqCleanup = some q) → ∀ x ∈ (s.pop c).frames,
      x.2.reqCleanup ≠ some q := by
    intro hor x hx hxq
    have hframe : ∃ x ∈ s.frames, x.2.reqCleanup = some q := ⟨x, mem_of_mem_pop hx, hxq⟩
    have hpos : 0 < ((s.pop c).frames.filterMap (·.2.reqCleanup)).count q :=
      State.count_reqCleanup_pos ⟨x, hx, hxq⟩
    have hpop := State.count_reqCleanup_pop htop q
    rw [hor.resolve_left (h.not_handled (.inr hframe)), Option.toList_some,
      List.count_singleton_self] at hpop
    have hcount := s.count_triggers q
    have honce := (h.registered (.inr hframe)).2
    omega
  cases hcalls with
  | @unselect i p reset =>
      obtain ⟨hphase, hworks, -⟩ := h.unselect _ _ _ _ _ _ hf
      have hh : s.Handled q := ⟨i, hphase⟩
      have hledger : Ledger (s.pop c) [i] := hsound.ledger.pop htop
      have hholders := hledger.notMem_holders (hsound.ledger.final _ _ _ _ _ _ hf)
      refine ⟨fun x hx => ⟨fun y hy => ?_, fun hq => ?_⟩, fun hn => absurd hh hn⟩
      · -- the only phase holds the interpreter, which has no holder left
        obtain rfl := h.single q i y hphase (h.frames x (mem_of_mem_pop hx) _ hy)
        exact hholders (State.holders_of_frame hx (Frame.holds_of_phase hy))
      · rcases Frame.reqCleanup_or_of_cleansUp hq with hreq | ⟨j, p', reset', hunselect⟩
        · exact hnone (.inl hh) x hx hreq
        · obtain ⟨c', f'⟩ := x
          obtain rfl : f' = .unselect j q p' reset' false := hunselect
          obtain ⟨hphase', -, -⟩ := h.unselect _ _ _ _ _ _ (mem_of_mem_pop hx)
          have hji := h.single q i _ hphase hphase'
          obtain rfl := (Prod.mk.inj hji).1
          exact hholders (State.holders_of_frame hx rfl)
  | @reqCleanup i source =>
      have hstatus := (hsound.calls.reqCleanup c q i source hf).2
      refine ⟨fun x hx => ⟨fun y hy => ?_, fun hq => ?_⟩,
        fun _ => by simp [hstatus, PoolStatus.age]⟩
      · exact h.alone q (.inr ⟨_, hf, rfl⟩) x (mem_of_mem_pop hx) y hy
      · rcases Frame.reqCleanup_or_of_cleansUp hq with hreq | ⟨j, p', reset', hunselect⟩
        · exact hnone (.inr rfl) x hx hreq
        · obtain ⟨c', f'⟩ := x
          obtain rfl : f' = .unselect j q p' reset' false := hunselect
          obtain ⟨hphase', -, -⟩ := h.unselect _ _ _ _ _ _ (mem_of_mem_pop hx)
          exact h.not_handled (.inr ⟨_, hf, rfl⟩) ⟨j, hphase'⟩

theorem Calls.fields (h : Calls q f g) : f.cleansUp = some q ∧ g.phase = none ∧
    g.reqCleanup = none ∧ g.cleansUp = none ∧ g.strands = f.strands ∧ f.phase = none := by
  cases h with
  | unselect => exact ⟨rfl, rfl, rfl, rfl, rfl, rfl⟩
  | @reqCleanup i source =>
      refine ⟨rfl, rfl, rfl, rfl, ?_, rfl⟩
      cases source with
      | popped kept => cases kept <;> rfl
      | _ => rfl

/-- The cleanup of a request is called. -/
theorem call (h : Once s []) (hsound : Sound site s) (htop : s.top c = some f)
    (hcalls : Calls q f g) : Once (((s.pop c).push c g).record (.requestCleanup q)) [] := by
  obtain ⟨hothers, hclosed⟩ := h.alone_of_calls hsound htop hcalls
  obtain ⟨hcleansUp, hphase, hreqCleanup, hnone, hstrands, -⟩ := hcalls.fields
  have hf := mem_of_top htop
  obtain ⟨hnot, hon⟩ := h.of_cleansUp hf hcleansUp
  have hperm := frames_perm htop
  have hframes : ∀ x ∈ (((s.pop c).push c g).record (.requestCleanup q)).frames,
      x = (c, g) ∨ x ∈ (s.pop c).frames := fun x hx => List.mem_cons.mp hx
  have hkept : ∀ x ∈ s.frames, x ≠ (c, f) →
      x ∈ (((s.pop c).push c g).record (.requestCleanup q)).frames := fun x hx hne =>
    List.mem_cons_of_mem _ ((List.mem_cons.mp (hperm.mem_iff.mp hx)).resolve_left hne)
  have hcleaned : (((s.pop c).push c g).record (.requestCleanup q)).cleaned = q :: s.cleaned := rfl
  have hcalled : ∀ caller q', caller.isPhase = true →
      (((s.pop c).push c g).record (.requestCleanup q)).Called caller q' → s.Called caller q' :=
    fun caller q' hphase hran => hran.of_cons hphase rfl rfl
  -- the cleanup moves from the calls to the history, or is new there
  have hcount : ∀ q', (((s.pop c).push c g).record (.requestCleanup q)).triggers.count q' +
      f.reqCleanup.toList.count q' = s.triggers.count q' + [q].count q' := by
    intro q'
    have hpush : (((s.pop c).push c g).record (.requestCleanup q)).frames.filterMap
        (·.2.reqCleanup) = (s.pop c).frames.filterMap (·.2.reqCleanup) :=
      List.filterMap_cons_none hreqCleanup
    rw [State.count_triggers, State.count_triggers, hpush, State.count_reqCleanup_pop htop,
      hcleaned, List.count_cons, List.count_singleton]
    simp only [State.record, State.push, State.pop]
    omega
  have hhandled : ∀ q', s.Handled q' → f.reqCleanup.toList.count q' = 0 := by
    intro q' hh
    refine List.count_eq_zero.mpr fun hreq => ?_
    exact h.not_handled (.inr ⟨_, hf, Option.mem_toList.mp hreq⟩) hh
  have hdone : ∀ q' ∈ s.cleaned, ∀ x ∈ (s.pop c).frames,
      (∀ y, x.2.phase ≠ some (q', y)) ∧ x.2.cleansUp ≠ some q' :=
    fun q' hq' x hx => h.done q' hq' x (mem_of_mem_pop hx)
  exact
    { frames := fun x hx y hy => by
        rcases hframes x hx with rfl | hx
        · rw [hphase] at hy
          cases hy
        · exact h.frames x (mem_of_mem_pop hx) y hy
      cleanups := fun c' r j hx => by
        rcases hframes _ hx with heq | hx
        · obtain ⟨-, rfl⟩ := Prod.mk.inj heq
          cases hcalls
        · exact h.cleanups c' r j (mem_of_mem_pop hx)
      single := h.single
      request := fun j q' hj => by
        refine (h.request j q' hj).imp_right fun hj => ?_
        rcases List.mem_append.mp hj with hj | hj
        · obtain ⟨x, hx, hxj⟩ := List.mem_filterMap.mp hj
          refine List.mem_append_left _ (List.mem_filterMap.mpr ?_)
          by_cases hxf : x = (c, f)
          · exact ⟨(c, g), List.mem_cons_self, by rw [hstrands, ← hxj, hxf]⟩
          · exact ⟨x, hkept x hx hxf, hxj⟩
        · exact List.mem_append_right _ hj
      account := fun q' hn => by
        have haccount := h.account q' hn
        have hsum := hcount q'
        rw [List.count_nil, Nat.zero_add] at haccount ⊢
        have hsame : f.reqCleanup.toList.count q' = [q].count q' := by
          cases hcalls with
          | @unselect i p reset =>
              have hq : q' ≠ q := by
                rintro rfl
                exact hn ⟨i, (h.unselect _ _ _ _ _ _ hf).1⟩
              simp [Frame.reqCleanup, Ne.symm hq]
          | reqCleanup => rfl
        rw [hsame] at hsum
        exact (by omega : _ = s.triggers.count q').trans haccount
      handled := fun q' hh => by
        obtain ⟨haccount, hle⟩ := h.handled q' hh
        have hsum := hcount q'
        rw [hhandled q' hh, List.count_singleton] at hsum
        rw [hcleaned, List.count_cons, List.count_nil, Nat.zero_add]
        rw [List.count_nil, Nat.zero_add] at haccount
        refine ⟨by omega, ?_⟩
        split_ifs with hq
        · rw [← beq_iff_eq.mp hq, List.count_eq_zero_of_not_mem hnot]
        · exact hle
      pending := fun q' j hj hdone' => by
        rw [hcleaned, List.mem_cons, not_or] at hdone'
        exact h.pending q' j hj hdone'.2
      done := fun q' hq' x hx => by
        rcases hframes x hx with rfl | hx'
        · exact ⟨fun y => by simp [hphase], by simp [hnone]⟩
        · rw [hcleaned] at hq'
          rcases List.mem_cons.mp hq' with rfl | hq'
          · exact hothers x hx'
          · exact hdone q' hq' x hx'
      last := fun q' j hj hq' hworks => by
        rw [hcleaned] at hq'
        rcases List.mem_cons.mp hq' with rfl | hq'
        · cases hcalls with
          | @unselect i p reset =>
              have hji := h.single q' i _ (h.unselect _ _ _ _ _ _ hf).1 hj
              obtain rfl := (Prod.mk.inj hji).1
              exact ⟨c, p, reset, List.mem_cons_self⟩
          | reqCleanup =>
              have hzero := hhandled q' ⟨j, hj⟩
              simp [Frame.reqCleanup] at hzero
        · obtain ⟨c', p, reset, hx⟩ := h.last q' j hj hq' hworks
          refine ⟨c', p, reset, hkept _ hx fun heq => ?_⟩
          obtain ⟨-, rfl⟩ := Prod.mk.inj heq
          cases hcleansUp
      unselect := fun c' j q' p reset b hx => by
        rcases hframes _ hx with heq | hx
        · obtain ⟨-, rfl⟩ := Prod.mk.inj heq
          cases hcalls with
          | unselect =>
              obtain ⟨hj, hworks, -⟩ := h.unselect _ _ _ _ _ _ hf
              exact ⟨hj, hworks, fun _ => List.mem_cons_self⟩
        · obtain ⟨hj, hworks, hb⟩ := h.unselect _ _ _ _ _ _ (mem_of_mem_pop hx)
          exact ⟨hj, hworks, fun hb' => List.mem_cons_of_mem _ (hb hb')⟩
      first := h.first
      closed := fun q' hq' hn => by
        rw [hcleaned] at hq'
        rcases List.mem_cons.mp hq' with rfl | hq'
        · exact hclosed hn
        · exact h.closed q' hq' hn
      alone := fun q' halone x hx y => by
        rcases hframes x hx with rfl | hx
        · simp [hphase]
        · obtain ⟨x', hx', hreq⟩ := halone.resolve_left (by simp)
          rcases hframes x' hx' with rfl | hx'
          · rw [hreqCleanup] at hreq
            cases hreq
          · exact h.alone q' (.inr ⟨x', mem_of_mem_pop hx', hreq⟩) x (mem_of_mem_pop hx) y
      ran := fun q' hran hn => h.ran q' (hcalled _ q' rfl hran) hn
      atEnd := fun q' hended => by
        obtain ⟨hput, hdone'⟩ := h.atEnd q' hended
        exact ⟨hput, fun hran => List.mem_cons_of_mem _
          (hdone' (hran.of_called fun _ => hcalled _ q'))⟩
      order := List.pairwise_cons.mpr ⟨fun _ _ _ _ _ => by simp [Event.phase], h.order⟩ }

end Once

/-- What `modperl_interp_unselect` does after the cleanup: the interpreter works for no
request, and the flag of its request is off. -/
structure PutsBack (s s' : State) (c : ConnId) (i : InterpId) (q : ReqId) (pool : Option PoolId) :
    Prop where
  frames : s'.frames = (s.pop c).frames
  subpools : s'.subpools = s.subpools
  leaked : s'.leaked = s.leaked
  status : s'.status = s.status
  log : s'.log = .putback i pool :: s.log
  worksFor : ∀ j q', s'.WorksFor j q' ↔ s.WorksFor j q' ∧ j ≠ i
  off : (s'.rcfg q).cleanupRegistered = false
  flag : ∀ q', q' ≠ q → (s'.rcfg q').cleanupRegistered = (s.rcfg q').cleanupRegistered

theorem putsBack (hpools : PoolsOk s.tipool s.next) (hbusy : s.Busy i) :
    PutsBack s (((s.pop c).setRcfg q fun x => { x with cleanupRegistered := false }).putback
      site i pool) c i q pool := by
  generalize hoff : ((s.pop c).setRcfg q fun x => { x with cleanupRegistered := false }) = s₀
  have hbusy : s₀.Busy i := hoff ▸ hbusy
  have hpools : PoolsOk s₀.tipool s₀.next := hoff ▸ hpools
  obtain ⟨hmem, -⟩ := hpools.busy_putback site pool hbusy
  have hinterp := Ledger.interp_putback site s₀ i pool
  have hrcfg : (s₀.putback site i pool).rcfg = s₀.rcfg := by
    obtain ⟨tipool, next, interp, log, heq⟩ := Sound.putback_eq site s₀ i pool
    rw [heq]
  have hfields : (s₀.putback site i pool).frames = (s.pop c).frames ∧
      (s₀.putback site i pool).subpools = s.subpools ∧
      (s₀.putback site i pool).leaked = s.leaked ∧
      (s₀.putback site i pool).status = s.status := by
    obtain ⟨tipool, next, interp, log, heq⟩ := Sound.putback_eq site s₀ i pool
    rw [heq, ← hoff]
    exact ⟨rfl, rfl, rfl, rfl⟩
  obtain ⟨hframes, hsubpools, hleaked, hstatus⟩ := hfields
  refine ⟨hframes, hsubpools, hleaked, hstatus, ?log, ?worksFor, ?off, ?flag⟩
  case log =>
    have hcond : (s₀.setInterp i fun x =>
      { x with inUse := false, putback := false, thx := false }).Busy i := hbusy
    simp only [State.putback, if_pos hcond]
    rw [← hoff]
    rfl
  case worksFor =>
    intro j q'
    rw [State.WorksFor, hmem, hinterp]
    by_cases hji : j = i
    · simp [hji]
    · rw [Function.update_of_ne hji, ← hoff]
      simp only [hji, not_false_eq_true, and_true, ne_eq]
      rfl
  case off =>
    rw [hrcfg, ← hoff]
    simp [State.setRcfg]
  case flag =>
    intro q' hq
    rw [hrcfg, ← hoff]
    simp [State.setRcfg, State.pop, Function.update_of_ne hq]

namespace Once

theorem of_putsBack (h : Once s []) (hsound : Sound site s)
    (htop : s.top c = some (.unselect i q pool reset true)) (hb : PutsBack s s' c i q pool) :
    Once s' [] := by
  have hf := mem_of_top htop
  obtain ⟨hphase, hworks, hdone⟩ := h.unselect _ _ _ _ _ _ hf
  have hledger : Ledger (s.pop c) [i] := hsound.ledger.pop htop
  have hholders := hledger.notMem_holders (hsound.ledger.final _ _ _ _ _ _ hf)
  have hperm := frames_perm htop
  have hphases : s'.phases = s.phases := by
    rw [State.phases, hb.log]
    rfl
  have hcleaned : s'.cleaned = s.cleaned := by
    rw [State.cleaned, hb.log]
    rfl
  have hcalled : ∀ caller q', caller.isPhase = true → s'.Called caller q' → s.Called caller q' :=
    fun caller q' hphase hran => hran.of_cons hphase hb.log rfl
  have htriggers : ∀ q', s'.triggers.count q' = s.triggers.count q' := by
    intro q'
    rw [State.count_triggers, State.count_triggers, hb.frames, hb.subpools, hcleaned,
      State.count_reqCleanup_pop htop]
    simp [Frame.reqCleanup]
  have hhandled : ∀ q', s'.Handled q' ↔ s.Handled q' := by
    intro q'
    rw [State.Handled, State.Handled, hphases]
  have hback : ∀ x ∈ s'.frames, x ∈ s.frames := by
    intro x hx
    rw [hb.frames] at hx
    exact mem_of_mem_pop hx
  have hkept : ∀ x ∈ s.frames, x ≠ (c, .unselect i q pool reset true) → x ∈ s'.frames := by
    intro x hx hne
    rw [hb.frames]
    exact (List.mem_cons.mp (hperm.mem_iff.mp hx)).resolve_left hne
  -- the flag that goes off is that of a request with a phase under handler scope
  have hne : ∀ q', ¬s.Handled q' → q' ≠ q := by
    rintro q' hn rfl
    exact hn ⟨i, hphase⟩
  exact
    { frames := fun x hx y hy => hphases ▸ h.frames x (hback x hx) y hy
      cleanups := fun c' r j hx => h.cleanups c' r j (hback _ hx)
      single := hphases ▸ h.single
      request := fun j q' hj => by
        rw [hphases]
        refine (h.request j q' ((hb.worksFor j q').mp hj).1).imp_right fun hj => ?_
        rw [State.stranded, hb.leaked]
        rcases List.mem_append.mp hj with hj | hj
        · obtain ⟨x, hx, hxj⟩ := List.mem_filterMap.mp hj
          refine List.mem_append_left _ (List.mem_filterMap.mpr ⟨x, hkept x hx ?_, hxj⟩)
          rintro rfl
          cases hxj
        · exact List.mem_append_right _ hj
      account := fun q' hn => by
        have hn := (hhandled q').not.mp hn
        rw [htriggers, hb.flag q' (hne q' hn)]
        exact h.account q' hn
      handled := fun q' hh => by
        rw [htriggers, hcleaned]
        exact h.handled q' ((hhandled q').mp hh)
      pending := fun q' j hj hnot => by
        rw [hphases] at hj
        rw [hcleaned] at hnot
        obtain ⟨hj', hon⟩ := h.pending q' j hj hnot
        have hq : q' ≠ q := by
          rintro rfl
          exact hnot (hdone rfl)
        refine ⟨(hb.worksFor j q').mpr ⟨hj', ?_⟩, by rw [hb.flag q' hq, hon]⟩
        rintro rfl
        exact hq (Option.some.inj (hj'.2.symm.trans hworks.2))
      done := fun q' hq' x hx => h.done q' (hcleaned ▸ hq') x (hback x hx)
      last := fun q' j hj hq' hj' => by
        rw [hphases] at hj
        rw [hcleaned] at hq'
        obtain ⟨hj', hji⟩ := (hb.worksFor j q').mp hj'
        obtain ⟨c', p, reset', hx⟩ := h.last q' j hj hq' hj'
        refine ⟨c', p, reset', hkept _ hx fun heq => hji ?_⟩
        cases heq
        rfl
      unselect := fun c' j q' p reset' b hx => by
        obtain ⟨hj, hj', hafter⟩ := h.unselect _ _ _ _ _ _ (hback _ hx)
        rw [hphases, hcleaned]
        refine ⟨hj, (hb.worksFor j q').mpr ⟨hj', ?_⟩, hafter⟩
        rintro rfl
        rw [hb.frames] at hx
        exact hholders (State.holders_of_frame hx rfl)
      first := fun q' hon => by
        rw [hphases]
        by_cases hq : q' = q
        · rw [hq, hb.off] at hon
          cases hon
        · exact h.first q' (hb.flag q' hq ▸ hon)
      closed := fun q' hq' hn => by
        rw [hb.status]
        exact h.closed q' (hcleaned ▸ hq') ((hhandled q').not.mp hn)
      alone := fun q' halone x hx y => by
        obtain ⟨x', hx', hreq⟩ := halone.resolve_left (by simp)
        exact h.alone q' (.inr ⟨x', hback x' hx', hreq⟩) x (hback x hx) y
      ran := fun q' hran hn => by
        have hn := (hhandled q').not.mp hn
        rw [hb.flag q' (hne q' hn)]
        exact h.ran q' (hcalled _ q' rfl hran) hn
      atEnd := fun q' hended => by
        rw [hb.status] at hended
        rw [hphases, hcleaned]
        obtain ⟨hput, hdone'⟩ := h.atEnd q' hended
        exact ⟨fun j hj hj' => hput j hj ((hb.worksFor j q').mp hj').1,
          fun hran => hdone' (hran.of_called fun _ => hcalled _ q')⟩
      order := by
        rw [hb.log]
        exact List.pairwise_cons.mpr ⟨fun _ _ _ _ _ => by simp [Event.phase], h.order⟩ }

/-- `modperl_interp_unselect` goes on after the cleanup, and puts the interpreter back. -/
theorem unselectRest (h : Once s []) (hsound : Sound site s)
    (htop : s.top c = some (.unselect i q pool reset true)) :
    Once ((s.pop c).unselectRest site i q pool reset) [] := by
  have hbusy := (h.unselect _ _ _ _ _ _ (mem_of_top htop)).2.1.1
  unfold State.unselectRest
  refine Once.quiet ?_ (.resetRcfg _ reset)
  exact h.of_putsBack hsound htop (putsBack hsound.ledger.pools hbusy)

/-- `modperl_config_req_cleanup` returns: an interpreter that it has popped under handler
scope is nobody's. -/
theorem returnDone (h : Once s []) (htop : s.top c = some (.reqCleanupDone q i source)) :
    Once { s.pop c with
      leaked := (Frame.reqCleanupDone q i source).strands.toList ++ s.leaked } [] := by
  have hperm := frames_perm htop
  obtain ⟨pre, post, hsplit, -, hpop⟩ := top_eq_some htop
  refine h.quiet ⟨⟨[], rfl, by simp⟩, fun x hx => .inl (mem_of_mem_pop hx),
    fun c' j q' p reset b hx => ?_, ?_, fun j hj => ?_, rfl, fun _ => rfl, fun _ _ => .rfl,
    fun _ => le_rfl, fun _ h => h⟩
  · exact (List.mem_cons.mp (hperm.mem_iff.mp hx)).resolve_left (by simp)
  · rw [hsplit]
    refine (congrArg (List.filterMap _) hpop).trans ?_
    rw [List.filterMap_append, List.filterMap_append]
    rfl
  · have hleak : j ∈ (Frame.reqCleanupDone q i source).strands ∨ j ∈ (s.pop c).stranded := by
      rcases List.mem_append.mp hj with hj | hj
      · obtain ⟨x, hx, hxj⟩ := List.mem_filterMap.mp hj
        rcases List.mem_cons.mp (hperm.mem_iff.mp hx) with rfl | hx
        · exact .inl hxj
        · exact .inr (List.mem_append_left _ (List.mem_filterMap.mpr ⟨x, hx, hxj⟩))
      · exact .inr (List.mem_append_right _ hj)
    rcases hleak with hj | hj
    · exact List.mem_append_right _ (List.mem_append_left _ (Option.mem_toList.mpr hj))
    · refine (List.mem_append.mp hj).elim (List.mem_append_left _) fun hj => ?_
      exact List.mem_append_right _ (List.mem_append_right _ hj)

/-! ## Steps -/

/-- A pool ends: if it is that of a request, then the cleanup has been called. -/
theorem endedPool (h : Once s []) (hok : PhasesOk site s (.endedPool p))
    (hsubpools : ∀ r ∈ s.subpools, p ≠ .req r) (hunused : s.Unused site p) :
    Once ({ s with userdata := Function.update s.userdata p none }.setStatus p .ended) [] := by
  have hst : ∀ q, p ≠ .req q → ({ s with userdata := Function.update s.userdata p none }.setStatus p
      .ended).status (.req q) = s.status (.req q) := fun q hq => by
    simp only [State.setStatus, Function.update_of_ne (Ne.symm hq)]
  exact
    { h with
      closed := fun q hdone hn => by
        by_cases hq : p = .req q
        · simp [State.setStatus, hq, PoolStatus.age]
        · rw [hst q hq]
          exact h.closed q hdone hn
      atEnd := fun q hended => by
        by_cases hq : p = .req q
        · subst hq
          have hput : ∀ i, (q, i, .popped none) ∈ s.phases → ¬s.WorksFor i q :=
            fun i hi => hok.2.2.1 _ hi rfl rfl
          refine ⟨hput, fun hran => ?_⟩
          by_contra hdone
          have hnot : q ∉ s.cleaned := hdone
          by_cases hh : s.Handled q
          · obtain ⟨i, hi⟩ := hh
            exact hput i hi (h.pending q i hi hnot).1
          · -- a registered cleanup is with the subpool, or under way
            have haccount := h.account q hh
            have hsubpool : q ∉ s.subpools := fun hq => hsubpools q hq rfl
            have hframe : q ∉ s.frames.filterMap (·.2.reqCleanup) := by
              intro hmem
              obtain ⟨⟨c, f⟩, hx, hreq⟩ := List.mem_filterMap.mp hmem
              refine hunused _ hx ?_
              cases f with
              | selected caller r i source =>
                  cases caller with
                  | reqCleanup =>
                      obtain rfl : r = some q := hreq
                      exact List.mem_cons_self
                  | _ => cases hreq
              | _ => cases hreq
            have hcalled : s.Called .handlers q :=
              hran.elim id fun hfilter => (hok.2.2.2 hfilter).resolve_right hh
            rw [h.ran q hcalled hh, State.count_triggers, List.count_eq_zero_of_not_mem hsubpool,
              List.count_eq_zero_of_not_mem hframe, List.count_eq_zero_of_not_mem hnot] at haccount
            simp at haccount
        · rw [hst q hq] at hended
          exact h.atEnd q hended }

/-- A phase, a filter or a response handler begins. -/
theorem enter_serves (h : Once s []) (hsound : Sound site s) (hserves : s.Serves site c r)
    (hphase : caller.isPhase = true) (hok : SelectsOnce site s caller c r dcfg)
    (henter : s.enter site caller c r dcfg = some s') : Once s' [] := by
  obtain ⟨i, source, he⟩ := entering hsound.ledger.pools hok henter
  cases r with
  | none =>
      exact h.quiet (he.quiet (.inl ⟨rfl, (Caller.isPhase_ne hphase).2⟩) fun q hq => by cases hq)
  | some q =>
      by_cases hsource : source = .popped none
      · subst hsource
        exact h.enter_handler he hphase hserves.2
      · refine h.enter_phase he hphase hsource hserves.2 ?_ fun x hx hreq => ?_
        · rintro ⟨j, hj⟩
          exact hok.2.1 hphase q rfl _ hj rfl rfl
        · obtain ⟨c', f⟩ := x
          cases f with
          | selected caller' r j source' =>
              cases caller' with
              | reqCleanup =>
                  obtain rfl : r = some q := hreq
                  exact (hsound.calls.reqCleanup c' q j source' hx).2
              | _ => cases hreq
          | _ => cases hreq

/-- `modperl_config_request_cleanup` is called, and runs the cleanup handlers if there
are any. -/
theorem requestCleanup (h : Once s []) (hsound : Sound site s) {g : Frame} {found : Bool}
    (htop : s.top c = some f) (hcalls : Calls q f g)
    (hok : found = true ∧ site.enable (site.server q) = true →
      SelectsOnce site s .cleanup c (some q) dcfg)
    (hs : ((s.pop c).push c g).requestCleanup site c q found dcfg = some s') : Once s' [] := by
  have hcall := h.call hsound htop hcalls
  have hon := (h.of_cleansUp (mem_of_top htop) hcalls.fields.1).2
  rcases State.requestCleanup_inv hs with ⟨hfound, hs⟩ | ⟨-, rfl⟩
  · have hbefore : Before s (((s.pop c).push c g).record (.requestCleanup q)) := .of_eq rfl rfl
    obtain ⟨i, source, he⟩ :=
      entering (hbefore.poolsOk hsound.ledger.pools) ((hok hfound).before hbefore) hs
    refine hcall.quiet (he.quiet (.inr rfl) fun q' hq' => ?_)
    obtain rfl := Option.some.inj hq'
    exact hon
  · exact hcall

/-- A cleanup is registered that may keep an interpreter. -/
theorem register (h : Once s []) (hcalm : Calm s s₀) (hlog : s₀.log = s.log)
    (hframes : s₀.frames = s.frames) (hsubpools : s₀.subpools = s.subpools)
    (hrcfg : s₀.rcfg = s.rcfg)
    (hended : ∀ q, s'.status (.req q) = .ended → s.status (.req q) = .ended)
    (hs : s' = s₀.takeOwnership p i ∨ s' = s₀.cleanupRegisterPerl p i) : Once s' [] := by
  have hcalm' : Calm s s' := by
    rcases hs with rfl | rfl
    · exact hcalm.trans (Calm.takeOwnership s₀ p i)
    · exact hcalm.trans (Calm.cleanupRegisterPerl s₀ p i)
  obtain ⟨interp, cleanups, rfl⟩ :
      ∃ interp cleanups, s' = { s₀ with interp := interp, cleanups := cleanups } := by
    rcases hs with rfl | rfl
    · exact s₀.takeOwnership_eq p i
    · exact s₀.cleanupRegisterPerl_eq p i
  refine h.quiet (.of_same hcalm' hlog hframes hsubpools (fun q => ?_) hended)
  exact congrArg (fun rcfg => (rcfg q).cleanupRegistered) hrcfg

theorem PhasesOk.selectsOnce (hok : PhasesOk site s a)
    (ha : s.selecting site a = some (caller, c, r, dcfg)) : SelectsOnce site s caller c r dcfg := by
  have hok := hok.2.1
  rwa [ha] at hok

/-- The step lemma. -/
theorem step (h : Once s []) (hsound : Sound site s) (hok : PhasesOk site s a)
    (hs : ModPerl.step site s a = some s') : Once s' [] := by
  have hpools := hsound.ledger.pools
  have hended : (∀ p, a ≠ .endedPool p) →
      ∀ q, s'.status (.req q) = .ended → s.status (.req q) = .ended :=
    fun ha q hq => (step_ended hpools hs hq).resolve_right fun h => ha _ h.1
  cases step_inv hs with
  | openPool p hunborn =>
      exact h.quiet (.of_same (Calm.openPool s hunborn) rfl rfl rfl (fun _ => rfl)
        (hended (by simp)))
  | endPool p hlive =>
      exact h.quiet (.of_same (Calm.setStatus s (by simp [hlive, PoolStatus.age])) rfl rfl rfl
        (fun _ => rfl) (hended (by simp)))
  | reqCleanup r dcfg _ hsubpool hunused _ henter =>
      have hbefore : Before s { s with subpools := s.subpools.erase r } := .of_eq rfl rfl
      have hselects := (PhasesOk.selectsOnce hok rfl).before hbefore
      obtain ⟨i, source, he⟩ := entering (hbefore.poolsOk hpools) hselects henter
      exact (h.takeSubpool hsubpool hunused).enter_reqCleanup he
  | firstCleanup p k hnext _ _ _ hending =>
      have hledger := hsound.ledger.dropCleanup hnext
      exact (h.dropCleanup.cleaning hending).runCleanup (hledger.congr rfl rfl rfl rfl rfl rfl)
  | laterCleanup p k hnext => exact h.dropCleanup.runCleanup (hsound.ledger.dropCleanup hnext)
  | endedPool p _ _ hchildless hunused => exact h.endedPool hok hchildless.2 hunused
  | handlers c r found dcfg _ hserves hfound henter =>
      exact h.enter_serves hsound hserves rfl (PhasesOk.selectsOnce hok (if_pos hfound)) henter
  | noHandlers => exact h
  | filter c r dcfg _ hserves henter =>
      exact h.enter_serves hsound hserves rfl (PhasesOk.selectsOnce hok rfl) henter
  | response r cgi dcfg _ hserves henter =>
      exact h.enter_serves hsound hserves (by cases cgi <;> rfl) (PhasesOk.selectsOnce hok rfl)
        henter
  | leave c caller r i source htop hcaller => exact h.leaveSelected hsound hok.1 htop hcaller
  | leavePerl c p perl htop => exact h.quiet (.pop htop rfl)
  | leaveInterp c p perl i htop =>
      exact (h.quiet (.pop htop rfl)).unselects (hsound.ledger.pop htop)
  | unselectCleanup c found dcfg i q p reset htop hcleanup =>
      exact h.requestCleanup hsound htop .unselect (fun hfound =>
        PhasesOk.selectsOnce hok (by simp [State.selecting, htop, hfound])) hcleanup
  | subpoolCleanup c found dcfg i q source htop hcleanup =>
      exact h.requestCleanup hsound htop .reqCleanup (fun hfound =>
        PhasesOk.selectsOnce hok (by simp [State.selecting, htop, hfound])) hcleanup
  | unselectRest c i q p reset htop => exact h.unselectRest hsound htop
  | leak c q i htop => exact h.returnDone htop
  | subpoolDone c q i source htop hsource =>
      have hdone := h.returnDone htop
      cases source with
      | popped kept =>
          cases kept with
          | none => exact absurd rfl hsource
          | some p => exact hdone
      | _ => exact hdone
  | pnotes c q i =>
      have hcalm := Calm.pnotes s q i
      unfold State.pnotes at hcalm ⊢
      split
      · exact h
      · next hnone =>
          rw [hnone] at hcalm
          refine h.quiet (.of_same hcalm rfl rfl rfl (fun q' => ?_) fun _ h => h)
          by_cases hq : q' = q <;> simp [State.setRcfg, hq, Function.update_of_ne]
  | newPool c parent serial i _ hunborn =>
      exact h.register (Calm.openPool s hunborn) rfl rfl rfl rfl (hended (by simp)) (.inl rfl)
  | clearPool c parent serial i _ hlive =>
      exact h.quiet (.of_same (Calm.setStatus s (by simp [hlive, PoolStatus.age])) rfl rfl rfl
        (fun _ => rfl) (hended (by simp)))
  | clearedPool c p i _ hclearing =>
      have hcalm : Calm s (s.setStatus p .live) :=
        Calm.setStatus s (by simp [hclearing, PoolStatus.age])
      exact h.register hcalm rfl rfl rfl rfl (hended (by simp)) (.inl rfl)
  | registerCleanup c p i =>
      exact h.register (Calm.refl s) rfl rfl rfl rfl (hended (by simp)) (.inr rfl)

/-- The run lemma. -/
theorem of_reachable (h : Reachable (ModPerl.step site) (PhasesOk site) (.start site) s) :
    Sound site s ∧ Once s [] := by
  refine h.invariant (I := fun s => Sound site s ∧ Once s []) ⟨.start, .start⟩ ?_
  intro s a s' _ hinv hok hs
  exact ⟨hinv.1.step hok.1 hs, hinv.2.step hinv.1 hok hs⟩

/-! ## What the invariant says -/

/-- The cleanup of a request is called once at most. -/
theorem count_cleaned_le (h : Once s []) (q : ReqId) : s.cleaned.count q ≤ 1 := by
  by_cases hh : s.Handled q
  · exact (h.handled q hh).2
  · have haccount := h.account q hh
    have hcount := s.count_triggers q
    split_ifs at haccount <;> omega

/-- Who is about to call the cleanup is the first one, and the request has not ended. -/
theorem first_of_cleansUp (h : Once s []) (hsound : Sound site s) {x : ConnId × Frame}
    (hx : x ∈ s.frames) (hq : x.2.cleansUp = some q) :
    q ∉ s.cleaned ∧ s.status (.req q) ≠ .ended := by
  refine ⟨(h.of_cleansUp hx hq).1, fun hended => ?_⟩
  obtain ⟨c, f⟩ := x
  cases f with
  | selected caller r i source =>
      cases caller with
      | reqCleanup =>
          obtain rfl : r = some q := hq
          rw [(hsound.calls.reqCleanup c q i source hx).2] at hended
          cases hended
      | _ => cases hq
  | unselect i q' p reset b =>
      cases b with
      | true => cases hq
      | false =>
          obtain rfl := Option.some.inj hq
          obtain ⟨hphase, hworks, -⟩ := h.unselect _ _ _ _ _ _ hx
          exact (h.atEnd q' hended).1 i hphase hworks
  | _ => cases hq

/-- The cleanup of a request that has ended was called if a phase popped an interpreter
for it under handler scope. -/
theorem cleaned_of_handled (h : Once s []) (hended : s.status (.req q) = .ended)
    (hh : s.Handled q) : q ∈ s.cleaned := by
  obtain ⟨i, hi⟩ := hh
  by_contra hnot
  exact (h.atEnd q hended).1 i hi (h.pending q i hi hnot).1

/-- Cleanup handlers do not put their interpreter back, unless it was in `rcfg->interp`. -/
theorem putback_of_cleanup (h : Once s []) (hsound : Sound site s)
    (hx : (c, .selected .cleanup r i source) ∈ s.frames) (hsource : source ≠ .rcfg) :
    (s.interp i).putback = false := by
  cases source with
  | rcfg => exact absurd rfl hsource
  | found p => exact hsound.putback_of_based hx rfl
  | popped kept =>
      cases kept with
      | some p => exact hsound.putback_of_based hx rfl
      | none => exact absurd hx (h.cleanups c r i)

end Once

end ModPerl
