import ModPerl.Interp.CleanupOnce

/-!
# A phase begins

What `modperl_interp_select` and its caller do to `MpReqCLEANUP_REGISTERED` and to the
subpools (`Flagged`), and what holds when the call begins that has made the select
(`Entering`).  A phase keeps the invariant whether a pool keeps its interpreter
(`enter_phase`) or it has popped one under handler scope (`enter_handler`).
-/

namespace ModPerl

open Machine

variable {site : Site} {s s' s₀ s₁ : State} {a : Act} {caller : Caller} {r : Option ReqId}
  {c : ConnId} {dcfg : InterpScope} {i j : InterpId} {source : Source} {p : PoolId} {q : ReqId}
  {f : Frame} {pool : Option PoolId} {reset : Option ReqId} {owed : List ReqId}

/-! ## `modperl_interp_select` -/

/-- The select turns `MpReqCLEANUP_REGISTERED` on for the request. -/
def TurnsOn (caller : Caller) (r : Option ReqId) (source : Source) (q : ReqId) : Prop :=
  r = some q ∧ (caller.registers = true ∨ source = .popped none)

/-- The caller registers `modperl_config_req_cleanup` for the request. -/
def Registers (s : State) (caller : Caller) (r : Option ReqId) (source : Source) (q : ReqId) :
    Prop :=
  r = some q ∧ caller.registers = true ∧ source ≠ .popped none ∧
    (s.rcfg q).cleanupRegistered = false

/-- What a select and its caller do to the flags, and to the subpools. -/
structure Flagged (s s' : State) (caller : Caller) (r : Option ReqId) (source : Source) :
    Prop where
  on : ∀ q, TurnsOn caller r source q → (s'.rcfg q).cleanupRegistered = true
  same : ∀ q, ¬TurnsOn caller r source q →
    (s'.rcfg q).cleanupRegistered = (s.rcfg q).cleanupRegistered
  registers : ∀ q, Registers s caller r source q → s'.subpools = q :: s.subpools
  subpools : (∀ q, ¬Registers s caller r source q) → s'.subpools = s.subpools

/-- `modperl_config_req_cleanup_register` -/
theorem cleanupRegister_eq (s : State) (q : ReqId) :
    (∀ q', ((s.cleanupRegister (some q)).rcfg q').cleanupRegistered =
      if q' = q then true else (s.rcfg q').cleanupRegistered) ∧
    (s.cleanupRegister (some q)).subpools =
      if (s.rcfg q).cleanupRegistered = true then s.subpools else q :: s.subpools := by
  unfold State.cleanupRegister
  simp only
  split_ifs with hflag
  · refine ⟨fun q' => ?_, rfl⟩
    split_ifs with hq
    · rw [hq, hflag]
    · rfl
  · refine ⟨fun q' => ?_, rfl⟩
    by_cases hq : q' = q <;> simp [State.setRcfg, hq, Function.update_of_ne]

/-- Other callers register nothing. -/
theorem begin_of_not_registers (h : caller.registers = false) :
    (∀ q, ((s.begin caller r i).rcfg q).cleanupRegistered = (s.rcfg q).cleanupRegistered) ∧
      (s.begin caller r i).subpools = s.subpools := by
  have hset : ∀ q q', ((s.setRcfg q fun x => { x with interp := some i }).rcfg
      q').cleanupRegistered = (s.rcfg q').cleanupRegistered := by
    intro q q'
    by_cases hq : q' = q <;> simp [State.setRcfg, hq, Function.update_of_ne]
  cases caller with
  | handlers => cases h
  | cleanup => cases h
  | filter => exact ⟨fun _ => rfl, rfl⟩
  | reqCleanup => exact ⟨fun _ => rfl, rfl⟩
  | responseHandler =>
      cases r with
      | none => exact ⟨fun _ => rfl, rfl⟩
      | some q =>
          simp only [State.begin]
          split_ifs
          · exact ⟨hset q, rfl⟩
          · exact ⟨fun _ => rfl, rfl⟩
  | responseHandlerCgi =>
      cases r with
      | none => exact ⟨fun _ => rfl, rfl⟩
      | some q =>
          simp only [State.begin]
          split_ifs
          · exact ⟨hset q, rfl⟩
          · exact ⟨fun _ => rfl, rfl⟩

theorem begin_of_registers (h : caller.registers = true) :
    s.begin caller r i = s.cleanupRegister r := by
  cases caller with
  | handlers => rfl
  | cleanup => rfl
  | _ => cases h

theorem Selected.flagged (h : Selected site s caller c r dcfg s₁ i source) :
    s₁.subpools = s.subpools ∧ ∀ q, (s₁.rcfg q).cleanupRegistered =
      if r = some q ∧ source = .popped none then true else (s.rcfg q).cleanupRegistered := by
  cases h with
  | rcfg => exact ⟨rfl, fun q => by simp⟩
  | found => exact ⟨rfl, fun q => by simp⟩
  | kept => exact ⟨rfl, fun q => by simp [State.keptPopped]⟩
  | @handler i tipool =>
      refine ⟨rfl, fun q => ?_⟩
      cases r with
      | none => simp [State.handlerPopped]
      | some r =>
          by_cases hq : q = r
          · simp [State.handlerPopped, hq]
          · simp [State.handlerPopped, Function.update_of_ne hq, Ne.symm hq]

/-- A caller that registers nothing leaves the flags and the subpools to the select. -/
theorem Selected.flagged_of_not_registers (h : Selected site s caller c r dcfg s₁ i source)
    (hregisters : caller.registers = false) {e : Event} :
    Flagged s ((s₁.record e).begin caller r i) caller r source := by
  obtain ⟨hsubpools, hflag⟩ := h.flagged
  obtain ⟨hflag', hsubpools'⟩ :=
    begin_of_not_registers (r := r) (i := i) (s := s₁.record e) hregisters
  have hturns : ∀ q, TurnsOn caller r source q ↔ r = some q ∧ source = .popped none := by
    intro q
    simp [TurnsOn, hregisters]
  constructor
  case on =>
    intro q hon
    calc (((s₁.record e).begin caller r i).rcfg q).cleanupRegistered
        = (s₁.rcfg q).cleanupRegistered := hflag' q
      _ = if r = some q ∧ source = .popped none then true else (s.rcfg q).cleanupRegistered :=
        hflag q
      _ = true := if_pos ((hturns q).mp hon)
  case same =>
    intro q hoff
    calc (((s₁.record e).begin caller r i).rcfg q).cleanupRegistered
        = (s₁.rcfg q).cleanupRegistered := hflag' q
      _ = if r = some q ∧ source = .popped none then true else (s.rcfg q).cleanupRegistered :=
        hflag q
      _ = (s.rcfg q).cleanupRegistered := if_neg ((hturns q).not.mp hoff)
  case registers =>
    intro q hreg
    exact absurd hreg.2.1 (by simp [hregisters])
  case subpools => exact fun _ => hsubpools'.trans hsubpools

/-- `modperl_config_req_cleanup_register`, if the select has not turned the flag on. -/
theorem Selected.flagged_of_registers {q : ReqId}
    (h : Selected site s caller c (some q) dcfg s₁ i source)
    (hregisters : caller.registers = true) {e : Event} :
    Flagged s ((s₁.record e).cleanupRegister (some q)) caller (some q) source := by
  obtain ⟨hsubpools, hflag⟩ := h.flagged
  obtain ⟨hflag', hsubpools'⟩ := cleanupRegister_eq (s₁.record e) q
  constructor
  case on =>
    intro q' hon
    obtain rfl := Option.some.inj hon.1
    exact (hflag' q).trans (if_pos rfl)
  case same =>
    intro q' hoff
    have hq : q' ≠ q := fun hq => hoff ⟨by rw [hq], .inl hregisters⟩
    have hsome : ¬(some q = some q' ∧ source = .popped none) := fun h =>
      hq (Option.some.inj h.1).symm
    calc (((s₁.record e).cleanupRegister (some q)).rcfg q').cleanupRegistered
        = if q' = q then true else (s₁.rcfg q').cleanupRegistered := hflag' q'
      _ = (s₁.rcfg q').cleanupRegistered := if_neg hq
      _ = if some q = some q' ∧ source = .popped none then true
          else (s.rcfg q').cleanupRegistered := hflag q'
      _ = (s.rcfg q').cleanupRegistered := if_neg hsome
  case registers =>
    rintro q' ⟨hq, -, hsource, hoff⟩
    obtain rfl := Option.some.inj hq
    have hoff' : ¬(s₁.rcfg q).cleanupRegistered = true := by
      rw [hflag q, if_neg fun h => hsource h.2, hoff]
      exact Bool.false_ne_true
    calc ((s₁.record e).cleanupRegister (some q)).subpools
        = if (s₁.rcfg q).cleanupRegistered = true then s₁.subpools else q :: s₁.subpools :=
        hsubpools'
      _ = q :: s₁.subpools := if_neg hoff'
      _ = q :: s.subpools := congrArg _ hsubpools
  case subpools =>
    intro hnot
    -- it was on before the select, or the select has turned it on
    have hon : (s₁.rcfg q).cleanupRegistered = true := by
      rw [hflag q]
      by_cases hsource : source = .popped none
      · exact if_pos ⟨rfl, hsource⟩
      · rw [if_neg fun h => hsource h.2]
        by_contra hoff
        exact hnot q ⟨rfl, hregisters, hsource, by simpa using hoff⟩
    calc ((s₁.record e).cleanupRegister (some q)).subpools
        = if (s₁.rcfg q).cleanupRegistered = true then s₁.subpools else q :: s₁.subpools :=
        hsubpools'
      _ = s₁.subpools := if_pos hon
      _ = s.subpools := hsubpools

theorem enter_flagged (hpools : PoolsOk s.tipool s.next)
    (h : s.enter site caller c r dcfg = some s') :
    ∃ s₁ i source, Selected site s caller c r dcfg s₁ i source ∧
      Entered s₁ caller c r i source s' ∧ Flagged s s' caller r source := by
  obtain ⟨s₁, i, source, hselect, heq⟩ := enter_eq_some hpools h
  have hentered : Entered s₁ caller c r i source s' := by
    obtain ⟨rcfg, subpools, hbegin, hpnotes, hstored⟩ :=
      begin_eq (s₁.record (.select caller r c i source)) caller r i
    rw [heq, hbegin]
    exact ⟨rfl, rfl, rfl, rfl, rfl, rfl, rfl, rfl, rfl, rfl, hstored, hpnotes⟩
  have hflagged : Flagged s ((s₁.record (.select caller r c i source)).begin caller r i)
      caller r source := by
    cases hregisters : caller.registers with
    | false => exact hselect.flagged_of_not_registers hregisters
    | true =>
        rw [begin_of_registers hregisters]
        cases r with
        | none =>
            obtain ⟨hsubpools, hflag⟩ := hselect.flagged
            refine ⟨fun q hon => ?_, fun q _ => ?_, fun q hreg => ?_, fun _ => hsubpools⟩
            · cases hon.1
            · exact (hflag q).trans (if_neg fun hq => by cases hq.1)
            · cases hreg.1
        | some q => exact hselect.flagged_of_registers hregisters
  refine ⟨s₁, i, source, hselect, hentered, ?_⟩
  rw [heq]
  -- the call that begins changes no flag and no subpool
  exact ⟨hflagged.on, hflagged.same, hflagged.registers, hflagged.subpools⟩

/-- A select begins work for a request only if it pops an interpreter under handler
scope. -/
theorem Selected.worksFor (hpools : PoolsOk s.tipool s.next)
    (h : Selected site s caller c r dcfg s₁ i source)
    (hclean : ∀ p, source = .popped (some p) → (s.interp i).request = none) :
    ∀ j q, s₁.WorksFor j q ↔ s.WorksFor j q ∨ source = .popped none ∧ j = i ∧ r = some q := by
  intro j q
  cases h with
  | rcfg => simp
  | found => simp
  | @handler i tipool _ _ hpop _ hmip =>
      rw [← hmip] at hpop
      obtain ⟨hfresh, hbusy, -⟩ :=
        hpools.busy_popped hpop (show (s.handlerPopped tipool i r).tipool = _ from rfl) rfl
      rw [State.WorksFor, hbusy]
      by_cases hji : j = i
      · subst hji
        simp [State.WorksFor, State.handlerPopped, hfresh]
      · simp [State.WorksFor, State.handlerPopped, hji]
  | @kept i tipool p _ _ hpop _ hmip _ =>
      rw [← hmip] at hpop
      obtain ⟨-, hbusy, -⟩ :=
        hpools.busy_popped hpop (show (s.keptPopped tipool i p).tipool = _ from rfl) rfl
      have hnone := hclean p rfl
      rw [State.WorksFor, hbusy]
      by_cases hji : j = i
      · subst hji
        simp [State.WorksFor, State.keptPopped, hnone]
      · simp [State.WorksFor, State.keptPopped, hji]

theorem State.phases_eq (s : State) : s.phases = s.uses.filterMap Event.phase := by
  unfold State.phases State.uses
  rw [List.filterMap_filter]
  refine List.filterMap_congr fun e _ => ?_
  cases e <;> rfl

/-- The conditions read nothing that the step has changed before the select. -/
theorem SelectsOnce.before (h : SelectsOnce site s caller c r dcfg) (hbefore : Before s s₀) :
    SelectsOnce site s₀ caller c r dcfg := by
  have hphases : s₀.phases = s.phases := by
    rw [State.phases_eq, hbefore.uses, ← State.phases_eq]
  obtain ⟨hpops, hphase, hpool⟩ := h
  refine ⟨fun hpops' => hphases ▸ hpops (hbefore.popsForHandler hpops'), hphases ▸ hphase, ?_⟩
  rintro ⟨hrcfg, hkept, hscope⟩ x hx
  rw [hbefore.interp]
  refine hpool ⟨by rwa [← hbefore.rcfg], (firstKept_congr hbefore.userdata).symm.trans hkept,
    hscope⟩ x ?_
  rwa [State.nextInterp, hbefore.tipool, hbefore.next] at hx

/-- What a pool is to keep works for no request. -/
theorem SelectsOnce.request_eq_none (h : SelectsOnce site s caller c r dcfg)
    (hselect : Selected site s caller c r dcfg s₁ i source) :
    ∀ p, source = .popped (some p) → (s.interp i).request = none := by
  rintro p rfl
  cases hselect with
  | kept hrcfg hkept hpop hscope _ _ => exact h.2.2 ⟨hrcfg, hkept, hscope⟩ _ hpop

/-- The state that a caller leaves, for the invariant. -/
structure Entering (s s' : State) (caller : Caller) (c : ConnId) (r : Option ReqId) (i : InterpId)
    (source : Source) : Prop extends Flagged s s' caller r source where
  log : s'.log = .select caller r c i source :: s.log
  frames : s'.frames = (c, .selected caller r i source) :: s.frames
  leaked : s'.leaked = s.leaked
  status : s'.status = s.status
  worksFor : ∀ j q, s'.WorksFor j q ↔
    s.WorksFor j q ∨ source = .popped none ∧ j = i ∧ r = some q
  pops : source = .popped none → caller ≠ .cleanup ∧
    ∃ q, r = some q ∧ (caller.isPhase = true → ∀ x ∈ s.phases, x.1 ≠ q)

theorem entering (hpools : PoolsOk s.tipool s.next) (hok : SelectsOnce site s caller c r dcfg)
    (h : s.enter site caller c r dcfg = some s') :
    ∃ i source, Entering s s' caller c r i source := by
  obtain ⟨s₁, i, source, hselect, hentered, hflagged⟩ := enter_flagged hpools h
  have hworks := hselect.worksFor hpools (hok.request_eq_none hselect)
  have hsame : s₁.log = s.log ∧ s₁.leaked = s.leaked ∧ s₁.status = s.status := by
    cases hselect <;> exact ⟨rfl, rfl, rfl⟩
  obtain ⟨hlog, hleaked, hstatus⟩ := hsame
  refine ⟨i, source, hflagged, hlog ▸ hentered.log, hselect.frames ▸ hentered.frames,
    hentered.leaked.trans hleaked, hentered.status.trans hstatus, fun j q => ?_, ?_⟩
  · rw [← hworks, State.WorksFor, State.WorksFor, State.Busy, State.Busy, hentered.tipool,
      hentered.interp]
  · rintro rfl
    have hpops := hselect.popsForHandler
    obtain ⟨hcaller, hfirst⟩ := hok.1 hpops
    refine ⟨hcaller, ?_⟩
    cases r with
    | none =>
        -- without a request the scope is connection
        cases hpops.2.2
    | some q => exact ⟨q, rfl, fun hphase => hfirst hphase q rfl⟩

theorem Caller.isPhase_ne (h : caller.isPhase = true) : caller ≠ .cleanup ∧ caller ≠ .reqCleanup :=
  ⟨fun heq => by simp [heq, Caller.isPhase] at h, fun heq => by simp [heq, Caller.isPhase] at h⟩

namespace Entering

theorem mem_frames (h : Entering s s' caller c r i source) {x : ConnId × Frame}
    (hx : x ∈ s'.frames) : x = (c, .selected caller r i source) ∨ x ∈ s.frames := by
  rw [h.frames] at hx
  exact List.mem_cons.mp hx

theorem mem_of_mem (h : Entering s s' caller c r i source) {x : ConnId × Frame}
    (hx : x ∈ s.frames) : x ∈ s'.frames := by
  rw [h.frames]
  exact List.mem_cons_of_mem _ hx

theorem cleaned (h : Entering s s' caller c r i source) : s'.cleaned = s.cleaned := by
  rw [State.cleaned, h.log]
  rfl

theorem stranded (h : Entering s s' caller c r i source) (hj : j ∈ s.stranded) :
    j ∈ s'.stranded := by
  rw [State.stranded, h.frames, h.leaked]
  rcases List.mem_append.mp hj with hj | hj
  · obtain ⟨x, hx, hstrands⟩ := List.mem_filterMap.mp hj
    refine List.mem_append_left _ (List.mem_filterMap.mpr ⟨x, List.mem_cons_of_mem _ hx, hstrands⟩)
  · exact List.mem_append_right _ hj

/-- Only a call of `modperl_config_req_cleanup` is one. -/
theorem reqCleanup (h : Entering s s' caller c r i source) (hcaller : caller ≠ .reqCleanup) :
    s'.frames.filterMap (·.2.reqCleanup) = s.frames.filterMap (·.2.reqCleanup) := by
  rw [h.frames]
  refine List.filterMap_cons_none ?_
  cases caller with
  | reqCleanup => exact absurd rfl hcaller
  | _ => rfl

/-- Cleanup handlers, and what runs for a connection. -/
theorem quiet (h : Entering s s' caller c r i source)
    (hcaller : r = none ∧ caller ≠ .reqCleanup ∨ caller = .cleanup)
    (hflag : ∀ q, r = some q → (s.rcfg q).cleanupRegistered = true) : Quiet s s' := by
  have hsource : source ≠ .popped none := by
    intro hsource
    obtain ⟨hne, q, hq, -⟩ := h.pops hsource
    rcases hcaller with ⟨hr, -⟩ | hcleanup
    · rw [hr] at hq
      cases hq
    · exact hne hcleanup
  have hreqCleanup : caller ≠ .reqCleanup := by
    rcases hcaller with ⟨-, hne⟩ | rfl
    · exact hne
    · simp
  have hphase : (Frame.selected caller r i source).phase = none ∧
      (Event.select caller r c i source).phase = none := by
    rcases hcaller with ⟨rfl, -⟩ | rfl
    · exact ⟨rfl, rfl⟩
    · cases r <;> exact ⟨rfl, rfl⟩
  constructor
  case log =>
    refine ⟨[_], h.log, fun e he => ?_⟩
    rw [List.mem_singleton.mp he]
    exact ⟨hphase.2, rfl⟩
  case frames =>
    intro x hx
    rcases h.mem_frames hx with rfl | hx
    · refine .inr ⟨hphase.1, ?_, by simp, by simp [hsource]⟩
      cases caller with
      | reqCleanup => exact absurd rfl hreqCleanup
      | _ => rfl
    · exact .inl hx
  case unselect =>
    exact fun _ _ _ _ _ _ hx => h.mem_of_mem hx
  case reqCleanup =>
    exact h.reqCleanup hreqCleanup
  case stranded =>
    exact fun _ hj => h.stranded hj
  case subpools =>
    -- what is to be registered is registered already
    refine h.subpools fun q hreg => ?_
    have hoff := hreg.2.2.2
    rw [hflag q hreg.1] at hoff
    cases hoff
  case flag =>
    intro q
    by_cases hon : TurnsOn caller r source q
    · rw [h.on q hon, hflag q hon.1]
    · exact h.same q hon
  case worksFor =>
    intro j q
    rw [h.worksFor]
    simp [hsource]
  case age =>
    exact fun q => le_of_eq (by rw [h.status])
  case ended =>
    exact fun q hq => h.status ▸ hq

variable (h : Entering s s' caller c (some q) i source) (hphase : caller.isPhase = true)

include h hphase

/-- A phase begins. -/
theorem phases : s'.phases = (q, i, source) :: s.phases := by
  rw [State.phases, h.log]
  exact List.filterMap_cons_some (if_pos hphase)

theorem framePhase {x : ConnId × Frame} (hx : x ∈ s'.frames) {y : PhaseUse}
    (hy : x.2.phase = some y) : y = (q, i, source) ∨ x ∈ s.frames := by
  rcases h.mem_frames hx with rfl | hx
  · simp only [Frame.phase, hphase, if_true, Option.some.injEq] at hy
    exact .inl hy.symm
  · exact .inr hx

theorem cleansUp {x : ConnId × Frame} (hx : x ∈ s'.frames) {q' : ReqId}
    (hq : x.2.cleansUp = some q' ∨ x.2.reqCleanup = some q' ∨
      ∃ i p reset b, x.2 = .unselect i q' p reset b) : x ∈ s.frames := by
  refine (h.mem_frames hx).resolve_left ?_
  rintro rfl
  have hne := Caller.isPhase_ne hphase
  rcases hq with hq | hq | ⟨_, _, _, _, hq⟩
  · cases caller with
    | reqCleanup => exact hne.2 rfl
    | _ => cases hq
  · cases caller with
    | reqCleanup => exact hne.2 rfl
    | _ => cases hq
  · cases hq

omit hphase in
theorem called {caller' : Caller} {q' : ReqId} (hran : s'.Called caller' q') :
    s.Called caller' q' ∨ q' = q ∧ caller = caller' := by
  obtain ⟨e, he, hcalls⟩ := hran
  rw [h.log] at he
  rcases List.mem_cons.mp he with rfl | he
  · obtain ⟨rfl, rfl⟩ := Prod.mk.inj (Option.some.inj hcalls)
    exact .inr ⟨rfl, rfl⟩
  · exact .inl ⟨e, he, hcalls⟩

omit hphase in
theorem handlerRan {q' : ReqId} (hran : s'.HandlerRan q') (hne : q' ≠ q) : s.HandlerRan q' :=
  hran.of_called fun _ _ hcalled => (h.called hcalled).resolve_right fun heq => hne heq.1

end Entering

namespace State

theorem count_triggers (s : State) (q : ReqId) : s.triggers.count q =
    s.subpools.count q + (s.frames.filterMap (·.2.reqCleanup)).count q + s.cleaned.count q := by
  rw [triggers, List.count_append, List.count_append]

theorem count_reqCleanup_pos (h : ∃ x ∈ s.frames, x.2.reqCleanup = some q) :
    0 < (s.frames.filterMap (·.2.reqCleanup)).count q := by
  obtain ⟨x, hx, hreq⟩ := h
  exact List.count_pos_iff.mpr (List.mem_filterMap.mpr ⟨x, hx, hreq⟩)

theorem count_reqCleanup_pop (htop : s.top c = some f) (q : ReqId) :
    (s.frames.filterMap (·.2.reqCleanup)).count q =
      f.reqCleanup.toList.count q + ((s.pop c).frames.filterMap (·.2.reqCleanup)).count q := by
  have hperm := frames_perm htop
  rw [(hperm.filterMap _).count_eq]
  cases hreq : f.reqCleanup with
  | none => simp [hreq]
  | some q' => simp [hreq, List.count_cons, add_comm]

end State

/-- Two calls are about to clean up: `modperl_config_req_cleanup` and an unselect. -/
theorem Frame.reqCleanup_or_of_cleansUp (h : f.cleansUp = some q) :
    f.reqCleanup = some q ∨ ∃ i p reset, f = .unselect i q p reset false := by
  cases f with
  | selected caller r i source =>
      cases caller with
      | reqCleanup => exact .inl h
      | _ => cases h
  | unselect i q' p reset b =>
      cases b with
      | true => cases h
      | false =>
          obtain rfl := Option.some.inj h
          exact .inr ⟨i, p, reset, rfl⟩
  | _ => cases h

namespace Once

/-- The subpool cleans up no request whose interpreter does. -/
theorem not_handled (h : Once s owed) (hq : q ∈ owed ∨ ∃ x ∈ s.frames, x.2.reqCleanup = some q) :
    ¬s.Handled q := by
  intro hh
  obtain ⟨haccount, -⟩ := h.handled q hh
  have hcount := s.count_triggers q
  rcases hq with howed | hframe
  · have hpos := List.count_pos_iff.mpr howed
    omega
  · have hpos := State.count_reqCleanup_pos hframe
    omega

/-- The subpool cleans up a request for which that is registered, and once. -/
theorem registered (h : Once s owed) (hq : q ∈ owed ∨ ∃ x ∈ s.frames, x.2.reqCleanup = some q) :
    (s.rcfg q).cleanupRegistered = true ∧ owed.count q + s.triggers.count q = 1 := by
  have haccount := h.account q (h.not_handled hq)
  have hcount := s.count_triggers q
  split_ifs at haccount with hon
  · exact ⟨hon, haccount⟩
  · rcases hq with howed | hframe
    · have hpos := List.count_pos_iff.mpr howed
      omega
    · have hpos := State.count_reqCleanup_pos hframe
      omega

end Once

/-- A caller that has popped no interpreter for the handler registers the cleanup if,
and only if, that turns the flag on. -/
theorem Entering.account (h : Entering s s' caller c (some q) i source)
    (hsource : source ≠ .popped none) (q' : ReqId) :
    s'.subpools.count q' + (if (s.rcfg q').cleanupRegistered then 1 else 0) =
      s.subpools.count q' + (if (s'.rcfg q').cleanupRegistered then 1 else 0) := by
  by_cases hreg : Registers s caller (some q) source q
  · have hsubpools := h.registers q hreg
    obtain ⟨-, hregisters, -, hoff⟩ := hreg
    rw [hsubpools]
    by_cases hq : q' = q
    · subst hq
      rw [h.on q' ⟨rfl, .inl hregisters⟩, hoff]
      simp
    · have hon : ¬TurnsOn caller (some q) source q' := fun hon => hq (Option.some.inj hon.1).symm
      rw [h.same q' hon, List.count_cons_of_ne (Ne.symm hq)]
  · have hnot : ∀ q'', ¬Registers s caller (some q) source q'' := by
      intro q'' hreg'
      exact hreg (Option.some.inj hreg'.1 ▸ hreg')
    rw [h.subpools hnot]
    by_cases hon : TurnsOn caller (some q) source q'
    · rw [h.on q' hon]
      obtain ⟨hq, hcaller⟩ := hon
      obtain rfl := Option.some.inj hq
      have hflag : (s.rcfg q).cleanupRegistered = true := by
        by_contra hoff
        exact hreg ⟨rfl, hcaller.resolve_right hsource, hsource, by simpa using hoff⟩
      rw [hflag]
    · rw [h.same q' hon]

namespace Once

section Phase

variable (h : Once s []) (he : Entering s s' caller c (some q) i source)
  (hphase : caller.isPhase = true)

include h he hphase

theorem frames_phase : ∀ x ∈ s'.frames, ∀ y, x.2.phase = some y → y ∈ s'.phases := by
  intro x hx y hy
  rw [he.phases hphase]
  rcases he.framePhase hphase hx hy with rfl | hx
  · exact List.mem_cons_self
  · exact List.mem_cons_of_mem _ (h.frames x hx y hy)

theorem cleanups_phase (c' : ConnId) (r : Option ReqId) (j : InterpId) :
    (c', .selected .cleanup r j (.popped none)) ∉ s'.frames := by
  intro hx
  rcases he.mem_frames hx with heq | hx
  · cases heq
    exact (Caller.isPhase_ne hphase).1 rfl
  · exact h.cleanups c' r j hx

/-- The phase is of a request that has not been cleaned up. -/
theorem done_phase (hnotdone : q ∉ s.cleaned) : ∀ q' ∈ s'.cleaned, ∀ x ∈ s'.frames,
    (∀ y, x.2.phase ≠ some (q', y)) ∧ x.2.cleansUp ≠ some q' := by
  intro q' hdone x hx
  rw [he.cleaned] at hdone
  refine ⟨fun y hy => ?_, fun hq => ?_⟩
  · rcases he.framePhase hphase hx hy with heq | hx
    · exact hnotdone ((Prod.mk.inj heq).1 ▸ hdone)
    · exact (h.done q' hdone x hx).1 y hy
  · exact (h.done q' hdone x (he.cleansUp hphase hx (.inl hq))).2 hq

/-- The phase is of a request whose subpool is not being destroyed. -/
theorem alone_phase (hcall : ∀ x ∈ s.frames, x.2.reqCleanup ≠ some q) : ∀ q',
    q' ∈ ([] : List ReqId) ∨ (∃ x ∈ s'.frames, x.2.reqCleanup = some q') →
      ∀ x ∈ s'.frames, ∀ y, x.2.phase ≠ some (q', y) := by
  intro q' halone x hx y hy
  obtain ⟨x', hx', hreq⟩ := halone.resolve_left List.not_mem_nil
  have hx' := he.cleansUp hphase hx' (.inr (.inl hreq))
  rcases he.framePhase hphase hx hy with heq | hx
  · obtain rfl := (Prod.mk.inj heq).1
    exact hcall x' hx' hreq
  · exact h.alone q' (.inr ⟨x', hx', hreq⟩) x hx y hy

theorem order_phase (hnotdone : q ∉ s.cleaned) : s'.log.Pairwise fun e e' =>
    ∀ q, e'.cleans = some q → ∀ y, e.phase ≠ some (q, y) := by
  rw [he.log, List.pairwise_cons]
  refine ⟨fun e' he' q' hq' y hy => hnotdone ?_, h.order⟩
  simp only [Event.phase, hphase, if_true, Option.some.injEq, Prod.mk.injEq] at hy
  exact hy.1 ▸ List.mem_filterMap.mpr ⟨e', he', hq'⟩

end Phase

/-- A phase begins in an interpreter that a pool keeps. -/
theorem enter_phase (h : Once s []) (he : Entering s s' caller c (some q) i source)
    (hphase : caller.isPhase = true) (hsource : source ≠ .popped none)
    (hlive : s.status (.req q) = .live) (hnot : ¬s.Handled q)
    (hending : ∀ x ∈ s.frames, x.2.reqCleanup = some q → s.status (.req q) = .ending) :
    Once s' [] := by
  have hphases := he.phases hphase
  have hcleaned := he.cleaned
  have hne := Caller.isPhase_ne hphase
  -- the pool of the request lives, so that its subpool has not cleaned it up
  have hnotdone : q ∉ s.cleaned := by
    intro hdone
    have hage := h.closed q hdone hnot
    simp [hlive, PoolStatus.age] at hage
  have hmem : ∀ q' j, (q', j, .popped none) ∈ s'.phases ↔ (q', j, .popped none) ∈ s.phases := by
    intro q' j
    rw [hphases, List.mem_cons]
    refine or_iff_right fun heq => hsource ?_
    exact (Prod.mk.inj (Prod.mk.inj heq).2).2.symm
  have hhandled : ∀ q', s'.Handled q' ↔ s.Handled q' := fun q' => exists_congr (hmem q')
  have hworks : ∀ j q', s'.WorksFor j q' ↔ s.WorksFor j q' := by
    intro j q'
    rw [he.worksFor]
    simp [hsource]
  have hflag : ∀ q', (s.rcfg q').cleanupRegistered = true →
      (s'.rcfg q').cleanupRegistered = true := by
    intro q' hon
    by_cases hturns : TurnsOn caller (some q) source q'
    · exact he.on q' hturns
    · rw [he.same q' hturns, hon]
  -- the flag goes on exactly when the subpool gets the cleanup
  have htriggers : ∀ q', s'.triggers.count q' + (if (s.rcfg q').cleanupRegistered then 1 else 0) =
      s.triggers.count q' + (if (s'.rcfg q').cleanupRegistered then 1 else 0) := by
    intro q'
    have haccount := he.account hsource q'
    rw [State.count_triggers, State.count_triggers, he.reqCleanup hne.2, hcleaned]
    omega
  exact
    { frames := h.frames_phase he hphase
      cleanups := h.cleanups_phase he hphase
      single := fun q' j x hj hx => by
        rw [hmem] at hj
        rw [hphases] at hx
        rcases List.mem_cons.mp hx with heq | hx
        · cases heq
          exact absurd ⟨j, hj⟩ hnot
        · exact h.single q' j x hj hx
      request := fun j q' hj => by
        rw [hmem]
        exact (h.request j q' ((hworks j q').mp hj)).imp_right he.stranded
      account := fun q' hn => by
        have haccount := h.account q' ((hhandled q').not.mp hn)
        have := htriggers q'
        simp only [List.count_nil] at haccount ⊢
        omega
      handled := fun q' hh => by
        have hh := (hhandled q').mp hh
        have hq : ¬TurnsOn caller (some q) source q' := by
          rintro ⟨heq, -⟩
          exact hnot (Option.some.inj heq ▸ hh)
        have htrigger := htriggers q'
        rw [he.same q' hq] at htrigger
        obtain ⟨haccount, hle⟩ := h.handled q' hh
        rw [hcleaned]
        exact ⟨by omega, hle⟩
      pending := fun q' j hj hdone => by
        rw [hmem] at hj
        rw [hcleaned] at hdone
        obtain ⟨hworks', hon⟩ := h.pending q' j hj hdone
        exact ⟨(hworks j q').mpr hworks', hflag q' hon⟩
      done := h.done_phase he hphase hnotdone
      last := fun q' j hj hdone hj' => by
        rw [hmem] at hj
        rw [hcleaned] at hdone
        obtain ⟨c', p, reset, hx⟩ := h.last q' j hj hdone ((hworks j q').mp hj')
        exact ⟨c', p, reset, he.mem_of_mem hx⟩
      unselect := fun c' j q' p reset b hx => by
        rw [hmem, hworks, hcleaned]
        exact h.unselect c' j q' p reset b
          (he.cleansUp hphase hx (.inr (.inr ⟨_, _, _, _, rfl⟩)))
      first := fun q' hon => by
        rw [hphases]
        by_cases hturns : TurnsOn caller (some q) source q'
        · obtain rfl := Option.some.inj hturns.1
          exact ⟨_, List.mem_cons_self⟩
        · rw [he.same q' hturns] at hon
          exact (h.first q' hon).imp fun _ => List.mem_cons_of_mem _
      closed := fun q' hdone hn => by
        rw [he.status]
        exact h.closed q' (hcleaned ▸ hdone) ((hhandled q').not.mp hn)
      alone := h.alone_phase he hphase fun x hx hreq => by
        have hstatus := hending x hx hreq
        rw [hlive] at hstatus
        cases hstatus
      ran := fun q' hran hn => by
        rcases he.called hran with hran | ⟨rfl, rfl⟩
        · exact hflag q' (h.ran q' hran ((hhandled q').not.mp hn))
        · exact he.on q' ⟨rfl, .inl rfl⟩
      atEnd := fun q' hended => by
        rw [he.status] at hended
        obtain ⟨hput, hdone⟩ := h.atEnd q' hended
        refine ⟨fun j hj hj' => hput j ((hmem q' j).mp hj) ((hworks j q').mp hj'), fun hran => ?_⟩
        rw [hcleaned]
        refine hdone (he.handlerRan hran ?_)
        rintro rfl
        rw [hlive] at hended
        cases hended
      order := h.order_phase he hphase hnotdone }

/-- The only phase of a request begins, in an interpreter popped under handler scope. -/
theorem enter_handler (h : Once s []) (he : Entering s s' caller c (some q) i (.popped none))
    (hphase : caller.isPhase = true) (hlive : s.status (.req q) = .live) : Once s' [] := by
  have hphases := he.phases hphase
  have hcleaned := he.cleaned
  have hne := Caller.isPhase_ne hphase
  have hfirst : ∀ x, (q, x) ∉ s.phases := by
    obtain ⟨-, q', hq', hnone⟩ := he.pops rfl
    obtain rfl := Option.some.inj hq'
    exact fun x hx => hnone hphase _ hx rfl
  -- nothing is registered for the request yet
  have htrigger : s.triggers.count q = 0 := by
    have haccount := h.account q fun ⟨j, hj⟩ => hfirst _ hj
    have hoff : (s.rcfg q).cleanupRegistered = false := by
      by_contra hon
      obtain ⟨x, hx⟩ := h.first q (by simpa using hon)
      exact hfirst x hx
    simpa [hoff] using haccount
  have hcount := s.count_triggers q
  have hnotdone : q ∉ s.cleaned := List.count_eq_zero.mp (by omega)
  have hsubpools : s'.subpools = s.subpools :=
    he.subpools fun q' hreg => hreg.2.2.1 rfl
  have htriggers : s'.triggers = s.triggers := by
    rw [State.triggers, State.triggers, hsubpools, he.reqCleanup hne.2, hcleaned]
  have hon : (s'.rcfg q).cleanupRegistered = true := he.on q ⟨rfl, .inr rfl⟩
  have hflag : ∀ q', q' ≠ q →
      (s'.rcfg q').cleanupRegistered = (s.rcfg q').cleanupRegistered :=
    fun q' hq => he.same q' fun hturns => hq (Option.some.inj hturns.1).symm
  have hmem : ∀ q' j, (q', j, .popped none) ∈ s'.phases ↔
      q' = q ∧ j = i ∨ (q', j, .popped none) ∈ s.phases := by
    intro q' j
    rw [hphases, List.mem_cons, Prod.mk.injEq, Prod.mk.injEq]
    simp
  have hother : ∀ q', (∃ x, (q', x) ∈ s.phases) → q' ≠ q := by
    rintro q' ⟨x, hx⟩ rfl
    exact hfirst x hx
  have hhandled : ∀ q', s'.Handled q' ↔ q' = q ∨ s.Handled q' := by
    intro q'
    constructor
    · rintro ⟨j, hj⟩
      exact ((hmem q' j).mp hj).imp And.left fun hj => ⟨j, hj⟩
    · rintro (rfl | ⟨j, hj⟩)
      · exact ⟨i, (hmem q' i).mpr (.inl ⟨rfl, rfl⟩)⟩
      · exact ⟨j, (hmem q' j).mpr (.inr hj)⟩
  have hworks : ∀ j q', s'.WorksFor j q' ↔ s.WorksFor j q' ∨ j = i ∧ q' = q := by
    intro j q'
    rw [he.worksFor]
    simp [eq_comm]
  have hold : ∀ j q', q' ≠ q → s'.WorksFor j q' → s.WorksFor j q' :=
    fun j q' hq hj => ((hworks j q').mp hj).resolve_right fun heq => hq heq.2
  exact
    { frames := h.frames_phase he hphase
      cleanups := h.cleanups_phase he hphase
      single := fun q' j x hj hx => by
        rw [hphases] at hx
        rcases (hmem q' j).mp hj with ⟨rfl, rfl⟩ | hj
        · rcases List.mem_cons.mp hx with heq | hx
          · exact (Prod.mk.inj heq).2
          · exact absurd hx (hfirst x)
        · rcases List.mem_cons.mp hx with heq | hx
          · exact absurd (Prod.mk.inj heq).1 (hother q' ⟨_, hj⟩)
          · exact h.single q' j x hj hx
      request := fun j q' hj => by
        rw [hmem]
        rcases (hworks j q').mp hj with hj | ⟨rfl, rfl⟩
        · exact (h.request j q' hj).imp .inr he.stranded
        · exact .inl (.inl ⟨rfl, rfl⟩)
      account := fun q' hn => by
        rw [hhandled, not_or] at hn
        rw [htriggers, hflag q' hn.1]
        exact h.account q' hn.2
      handled := fun q' hh => by
        rw [htriggers, hcleaned]
        rcases (hhandled q').mp hh with rfl | hh
        · simp only [List.count_nil]
          omega
        · exact h.handled q' hh
      pending := fun q' j hj hdone => by
        rw [hcleaned] at hdone
        rcases (hmem q' j).mp hj with ⟨rfl, rfl⟩ | hj
        · exact ⟨(hworks j q').mpr (.inr ⟨rfl, rfl⟩), hon⟩
        · obtain ⟨hworks', hon'⟩ := h.pending q' j hj hdone
          exact ⟨(hworks j q').mpr (.inl hworks'), by rw [hflag q' (hother q' ⟨_, hj⟩), hon']⟩
      done := h.done_phase he hphase hnotdone
      last := fun q' j hj hdone hj' => by
        rw [hcleaned] at hdone
        rcases (hmem q' j).mp hj with ⟨rfl, rfl⟩ | hj
        · exact absurd hdone hnotdone
        · obtain ⟨c', p, reset, hx⟩ :=
            h.last q' j hj hdone (hold j q' (hother q' ⟨_, hj⟩) hj')
          exact ⟨c', p, reset, he.mem_of_mem hx⟩
      unselect := fun c' j q' p reset b hx => by
        obtain ⟨hj, hj', hdone⟩ := h.unselect c' j q' p reset b
          (he.cleansUp hphase hx (.inr (.inr ⟨_, _, _, _, rfl⟩)))
        exact ⟨(hmem q' j).mpr (.inr hj), (hworks j q').mpr (.inl hj'),
          fun hb => hcleaned ▸ hdone hb⟩
      first := fun q' hon' => by
        rw [hphases]
        by_cases hq : q' = q
        · subst hq
          exact ⟨_, List.mem_cons_self⟩
        · rw [hflag q' hq] at hon'
          exact (h.first q' hon').imp fun _ => List.mem_cons_of_mem _
      closed := fun q' hdone hn => by
        rw [hhandled, not_or] at hn
        rw [he.status]
        exact h.closed q' (hcleaned ▸ hdone) hn.2
      alone := h.alone_phase he hphase fun x hx hreq => by
        have hpos := State.count_reqCleanup_pos ⟨x, hx, hreq⟩
        omega
      ran := fun q' hran hn => by
        rw [hhandled, not_or] at hn
        rcases he.called hran with hran | ⟨hq, -⟩
        · rw [hflag q' hn.1]
          exact h.ran q' hran hn.2
        · exact absurd hq hn.1
      atEnd := fun q' hended => by
        rw [he.status] at hended
        have hq : q' ≠ q := by
          rintro rfl
          rw [hlive] at hended
          cases hended
        obtain ⟨hput, hdone⟩ := h.atEnd q' hended
        refine ⟨fun j hj hj' => ?_, fun hran => ?_⟩
        · exact hput j (((hmem q' j).mp hj).resolve_left fun heq => hq heq.1) (hold j q' hq hj')
        · rw [hcleaned]
          exact hdone (he.handlerRan hran hq)
      order := h.order_phase he hphase hnotdone }

end Once

end ModPerl
