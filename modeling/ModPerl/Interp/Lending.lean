import ModPerl.Interp.Plain

/-!
# Lending

What holds while response handlers lend their interpreters (`Lending`): how the calls of a
thread stand on each other, and which response handlers have lost their interpreter.  A
step on a state that meets this is one on the counterpart as well, or leaves it as it is.
-/

namespace ModPerl

open Machine

variable {site : Site} {s s' s₀ s₁ : State} {a : Act} {caller : Caller} {r : Option ReqId}
  {c : ConnId} {dcfg : InterpScope} {i j : InterpId} {source : Source} {p : PoolId} {q : ReqId}
  {f g : Frame} {pool : Option PoolId} {reset : Option ReqId} {gone : List ReqId}

/-! ## The invariant -/

/-- The request whose cleanup `modperl_interp_unselect` is about to call. -/
def Frame.awaits : Frame → Option ReqId
  | .unselect _ q _ _ false => some q
  | _ => none

/-- The call may make other calls, as `State.MayCall` has it. -/
def Frame.mayCall : Frame → Bool
  | .selected .reqCleanup _ _ _ => false
  | .selected _ _ _ _ => true
  | .perlCleanup _ _ _ => true
  | _ => false

theorem mayCall_iff : s.MayCall c ↔ ∀ f ∈ s.top c, f.mayCall = true := by
  unfold State.MayCall
  cases s.top c with
  | none => simp
  | some f =>
      cases f with
      | selected caller r i source => cases caller <;> simp [Frame.mayCall]
      | _ => simp [Frame.mayCall]

/-- How a call stands on the one below it: that is not about to call a cleanup; it may call
a response handler; and it is the response handler if an interpreter is borrowed. -/
structure Frame.Rests (site : Site) (gone : List ReqId) (c : ConnId) (f : Frame)
    (below : Option Frame) : Prop where
  awaits : ∀ g ∈ below, g.awaits = none
  stores : ∀ q i, f.stores = some (q, i) →
    site.connection q = c ∧ ∀ g ∈ below, g.mayCall = true
  borrows : ∀ caller r i, f = .selected caller r i .rcfg →
    caller = .handlers ∧ ∃ q, r = some q ∧ q ∉ gone ∧ ∃ g ∈ below, g.stores = some (q, i)

/-- The innermost call of a thread among these calls. -/
def innermost (frames : List (ConnId × Frame)) (c : ConnId) : Option Frame :=
  (frames.find? (·.1 = c)).map Prod.snd

/-- Every call stands well on the one below it. -/
def Stacked (site : Site) (gone : List ReqId) : List (ConnId × Frame) → Prop
  | [] => True
  | (c, f) :: rest => f.Rests site gone c (innermost rest c) ∧ Stacked site gone rest

section Stacked

variable {frames pre post : List (ConnId × Frame)} {c' : ConnId}

theorem innermost_remove (pre : List (ConnId × Frame)) (hc : c' ≠ c) :
    innermost (pre ++ (c, f) :: post) c' = innermost (pre ++ post) c' := by
  have hskip : ((c, f) :: post).find? (fun x => decide (x.1 = c')) =
      post.find? fun x => decide (x.1 = c') :=
    List.find?_cons_of_neg (by simpa using hc.symm)
  simp only [innermost, List.find?_append, hskip]

theorem mem_of_innermost (h : innermost frames c = some f) : (c, f) ∈ frames := by
  obtain ⟨⟨c', f'⟩, hfind, rfl⟩ := Option.map_eq_some_iff.mp h
  obtain rfl : c' = c := by simpa using List.find?_some hfind
  exact List.mem_of_find?_eq_some hfind

namespace Stacked

/-- The innermost call of a thread returns. -/
theorem remove (h : Stacked site gone (pre ++ (c, f) :: post)) (hpre : ∀ x ∈ pre, x.1 ≠ c) :
    f.Rests site gone c (innermost (pre ++ post) c) ∧ Stacked site gone (pre ++ post) := by
  induction pre with
  | nil => exact h
  | cons x pre ih =>
      obtain ⟨c', f'⟩ := x
      have hc : c' ≠ c := hpre _ List.mem_cons_self
      obtain ⟨hf, hrest⟩ := ih h.2 fun y hy => hpre y (List.mem_cons_of_mem _ hy)
      have hinner : innermost ((c', f') :: (pre ++ post)) c = innermost (pre ++ post) c :=
        innermost_remove [] hc.symm
      have hthis : f'.Rests site gone c' (innermost (pre ++ post) c') :=
        innermost_remove (f := f) pre hc ▸ h.1
      exact ⟨hinner ▸ hf, hthis, hrest⟩

theorem top (h : Stacked site gone s.frames) (htop : s.top c = some f) :
    f.Rests site gone c ((s.pop c).top c) ∧ Stacked site gone (s.pop c).frames := by
  obtain ⟨pre, post, hsplit, hpre, hpop⟩ := top_eq_some htop
  rw [hsplit] at h
  have hremove := h.remove hpre
  rw [← hpop] at hremove
  exact hremove

/-- Who is about to call a cleanup is the innermost call of its thread. -/
theorem top_of_awaits (h : Stacked site gone frames) (hx : (c, g) ∈ frames)
    (hg : g.awaits ≠ none) : innermost frames c = some g := by
  induction frames with
  | nil => cases hx
  | cons x rest ih =>
      obtain ⟨c', f'⟩ := x
      rcases List.mem_cons.mp hx with heq | hx
      · obtain ⟨rfl, rfl⟩ := Prod.mk.inj heq
        simp [innermost]
      · have hbelow := ih h.2 hx
        by_cases hc : c' = c
        · subst hc
          exact absurd (h.1.awaits g hbelow) hg
        · exact (innermost_remove [] (Ne.symm hc)).trans hbelow

/-- Who has borrowed an interpreter runs the handlers of a response handler that still has it. -/
theorem borrows (h : Stacked site gone frames)
    (hx : (c, .selected caller r i .rcfg) ∈ frames) : caller = .handlers ∧
      ∃ q, r = some q ∧ q ∉ gone ∧ ∃ g, (c, g) ∈ frames ∧ g.stores = some (q, i) := by
  induction frames with
  | nil => cases hx
  | cons x rest ih =>
      rcases List.mem_cons.mp hx with rfl | hx
      · obtain ⟨hcaller, q, hr, hq, g, hg, hstores⟩ := h.1.borrows caller r i rfl
        exact ⟨hcaller, q, hr, hq, g, List.mem_cons_of_mem _ (mem_of_innermost hg), hstores⟩
      · obtain ⟨hcaller, q, hr, hq, g, hg, hstores⟩ := ih h.2 hx
        exact ⟨hcaller, q, hr, hq, g, List.mem_cons_of_mem _ hg, hstores⟩

/-- A response handler loses its interpreter that nobody has borrowed any more. -/
theorem lose (h : Stacked site gone frames)
    (hno : ∀ x ∈ frames, ∀ caller i, x.2 ≠ .selected caller (some q) i .rcfg) :
    Stacked site (q :: gone) frames := by
  induction frames with
  | nil => trivial
  | cons x rest ih =>
      obtain ⟨c', f'⟩ := x
      refine ⟨⟨h.1.awaits, h.1.stores, fun caller r i hf => ?_⟩,
        ih h.2 fun y hy => hno y (List.mem_cons_of_mem _ hy)⟩
      obtain ⟨hcaller, q', hr, hq', hg⟩ := h.1.borrows caller r i hf
      refine ⟨hcaller, q', hr, ?_, hg⟩
      have hne : q' ≠ q := by
        rintro rfl
        exact hno _ List.mem_cons_self caller i (hr ▸ hf)
      simp [hne, hq']

end Stacked

end Stacked

/-- What holds when response handlers lend their interpreters: of `gone` those have lost
them already.  A request of which one was lent has a phase under handler scope, and none was
lent after the cleanup. -/
structure Lending (site : Site) (gone : List ReqId) (s : State) : Prop where
  stacked : Stacked site gone s.frames
  lost : ∀ q ∈ gone, q ∈ s.cleaned ∨ ∃ f, (site.connection q, f) ∈ s.frames ∧ f.awaits = some q
  handled : ∀ q ∈ gone, s.Handled q
  lent : ∀ e ∈ s.log, e.plain = none → ∀ x, e.calls = some x → s.Handled x.2
  order : s.log.Pairwise fun e e' =>
    e.plain = none → ∀ q, e'.cleans = some q → ∀ y, e.phase ≠ some (q, y)

namespace Lending

theorem start : Lending site [] (.start site) := by
  constructor <;> simp [State.start, Stacked]

/-- Nothing is lent in a step that leaves the stacks alone. -/
theorem congr (h : Lending site gone s) (es : List Event) (hframes : s'.frames = s.frames)
    (hlog : s'.log = es ++ s.log) (hes : ∀ e ∈ es, e.plain ≠ none) : Lending site gone s' := by
  have hcleaned : ∀ q ∈ s.cleaned, q ∈ s'.cleaned := by
    intro q hq
    rw [State.cleaned, hlog, List.filterMap_append]
    exact List.mem_append_right _ hq
  have hhandled : ∀ q, s.Handled q → s'.Handled q := by
    rintro q ⟨i, hi⟩
    refine ⟨i, ?_⟩
    rw [State.phases, hlog, List.filterMap_append]
    exact List.mem_append_right _ hi
  refine ⟨hframes ▸ h.stacked, fun q hq => ?_, fun q hq => hhandled q (h.handled q hq),
    fun e he hplain x hx => ?_, ?_⟩
  · rw [hframes]
    exact (h.lost q hq).imp_left (hcleaned q)
  · rw [hlog] at he
    rcases List.mem_append.mp he with he | he
    · exact absurd hplain (hes e he)
    · exact hhandled _ (h.lent e he hplain x hx)
  · rw [hlog]
    refine List.pairwise_append.mpr ⟨?_, h.order, ?_⟩
    · exact List.Pairwise.imp_of_mem (fun he _ _ hplain => absurd hplain (hes _ he))
        (List.pairwise_of_forall (R := fun _ _ => True) fun _ _ => trivial)
    · exact fun e he _ _ hplain => absurd hplain (hes e he)

/-- The innermost call of a thread returns that is not about to call a cleanup. -/
theorem pop (h : Lending site gone s) (htop : s.top c = some f) (hf : f.awaits = none) :
    Lending site gone (s.pop c) := by
  refine ⟨(h.stacked.top htop).2, fun q hq => (h.lost q hq).imp_right fun ⟨g, hg, hawaits⟩ => ?_,
    h.handled, h.lent, h.order⟩
  obtain ⟨pre, post, hsplit, -, hpop⟩ := top_eq_some htop
  refine ⟨g, ?_, hawaits⟩
  have hne : g ≠ f := by
    rintro rfl
    rw [hf] at hawaits
    cases hawaits
  rw [hsplit] at hg
  rw [hpop]
  simpa [hne] using hg

/-- A call begins. -/
theorem push (h : Lending site gone s) (hf : f.Rests site gone c (s.top c)) :
    Lending site gone (s.push c f) :=
  ⟨⟨hf, h.stacked⟩,
    fun q hq => (h.lost q hq).imp_right fun ⟨g, hg, hawaits⟩ =>
      ⟨g, List.mem_cons_of_mem _ hg, hawaits⟩,
    h.handled, h.lent, h.order⟩

end Lending

/-! ## Steps without lending -/

/-- The counterpart of a call needs the same pools … -/
theorem Frame.plain_chain (h : f.plain gone = some g) : g.chain site c = f.chain site c := by
  rcases Frame.plain_eq_some h with ⟨q, i, hstores, -, rfl⟩ | ⟨i, q, p, reset, called, rfl, rfl⟩ |
    ⟨-, rfl, -⟩
  · rcases Frame.eq_selected_of_stores hstores with rfl | rfl <;> rfl
  · rfl
  · rfl

/-- … may call, and runs the same Perl code. -/
theorem Frame.plain_calls (h : f.plain gone = some g) :
    g.mayCall = f.mayCall ∧ ∀ i, f.perl = some i → g.perl = some i := by
  rcases Frame.plain_eq_some h with ⟨q, i, hstores, -, rfl⟩ | ⟨i, q, p, reset, called, rfl, rfl⟩ |
    ⟨-, rfl, -⟩
  · rcases Frame.eq_selected_of_stores hstores with rfl | rfl <;>
      exact ⟨rfl, fun _ hp => by cases hp⟩
  · exact ⟨rfl, fun _ hp => by cases hp⟩
  · exact ⟨rfl, fun _ hp => hp⟩

namespace State

theorem unused_plain (h : s.Unused site p) : (s.plain gone).Unused site p := by
  intro x hx
  obtain ⟨f, hf, hplain⟩ := mem_plain_frames.mp hx
  rw [Frame.plain_chain hplain]
  exact h _ hf

/-- The response handlers below may call as well. -/
theorem mayCall_plain (h : Stacked site gone s.frames) (hcall : s.MayCall c) :
    (s.plain gone).MayCall c := by
  induction hn : s.frames.length using Nat.strong_induction_on generalizing s with
  | _ n ih =>
      cases htop : s.top c with
      | none =>
          have hnone : (s.plain gone).top c = none := by
            by_contra hsome
            obtain ⟨g, hg⟩ := Option.ne_none_iff_exists'.mp hsome
            obtain ⟨f, hf, -⟩ := mem_plain_frames.mp (mem_of_top hg)
            have hfind : s.frames.find? (·.1 = c) = none := by simpa [State.top] using htop
            simpa using List.find?_eq_none.mp hfind _ hf
          exact mayCall_iff.mpr (by simp [hnone])
      | some f =>
          cases hf : f.plain gone with
          | some g =>
              refine mayCall_iff.mpr fun g' hg' => ?_
              rw [(plain_pop gone htop hf).1] at hg'
              obtain rfl := Option.some.inj hg'
              rw [(Frame.plain_calls hf).1]
              exact mayCall_iff.mp hcall f htop
          | none =>
              rw [← plain_pop_none htop hf]
              obtain ⟨hrests, hstacked⟩ := h.top htop
              have hlength : (s.pop c).frames.length < n := by
                have hperm := (frames_perm htop).length_eq
                rw [List.length_cons] at hperm
                omega
              refine ih _ hlength hstacked (mayCall_iff.mpr fun g hg => ?_) rfl
              rcases Frame.plain_eq_none hf with ⟨q, i, hstores, -⟩ | ⟨caller, r, i, rfl⟩
              · exact (hrests.stores q i hstores).2 g hg
              · obtain ⟨-, q, -, -, g', hg', hstores⟩ := hrests.borrows caller r i rfl
                obtain rfl := Option.some.inj (hg.symm.trans hg')
                rcases Frame.eq_selected_of_stores hstores with rfl | rfl <;> rfl

/-- The handlers of a response handler run in its interpreter. -/
theorem running_plain (h : Stacked site gone s.frames) (hi : s.running c = some i) :
    (s.plain gone).running c = some i := by
  obtain ⟨f, htop, hperl⟩ := Option.bind_eq_some_iff.mp hi
  cases hf : f.plain gone with
  | some g =>
      exact Option.bind_eq_some_iff.mpr
        ⟨g, (plain_pop gone htop hf).1, (Frame.plain_calls hf).2 i hperl⟩
  | none =>
      rcases Frame.plain_eq_none hf with ⟨q, j, hstores, -⟩ | ⟨caller, r, j, rfl⟩
      · rcases Frame.eq_selected_of_stores hstores with rfl | rfl <;> cases hperl
      · obtain ⟨rfl, q, -, hq, g, hg, hstores⟩ := (h.top htop).1.borrows caller r j rfl
        have hplain : g.plain gone = some (.selected .filter (some q) j (.popped none)) :=
          (Frame.plain_of_stores hstores).trans (if_neg hq)
        rw [← plain_pop_none htop hf]
        exact Option.bind_eq_some_iff.mpr ⟨_, (plain_pop gone hg hplain).1, hperl⟩

theorem endsOnce_plain (hlent : Lending site gone s) (h : EndsOnce s q) :
    EndsOnce (s.plain gone) q := by
  refine ⟨fun x hx => h.1 x (of_mem_plain_phases hx), fun hfilter => ?_⟩
  rcases called_of_plain hfilter with hfilter | ⟨-, hh⟩
  · rcases h.2 hfilter with ⟨e, he, hcalls⟩ | hh
    · cases hplain : e.plain with
      | none => exact .inr (handled_plain.mpr (hlent.lent e he hplain _ hcalls))
      | some e' =>
          exact .inl ⟨e', List.mem_filterMap.mpr ⟨e, he, hplain⟩,
            Event.calls_plain hplain hcalls rfl⟩
    · exact .inr (handled_plain.mpr hh)
  · exact .inr (handled_plain.mpr hh)

end State

/-! ## Selects -/

/-- A response handler passes the same connection as a filter, and searches the same pools. -/
theorem connArg_of_isResponse (h : caller.isResponse = true) :
    State.connArg site caller c r = State.connArg site .filter c r := by
  cases r with
  | none => rfl
  | some q => cases caller <;> first | rfl | cases h

theorem searched_of_isResponse (h : caller.isResponse = true) :
    site.searched caller c r dcfg = site.searched .filter c r dcfg := by
  simp only [Site.searched, connArg_of_isResponse h]

theorem SelectsOnce.filter (h : SelectsOnce site s caller c r dcfg)
    (hcaller : caller.isResponse = true) : SelectsOnce site s .filter c r dcfg := by
  have hphase : caller.isPhase = true := by cases caller <;> first | rfl | cases hcaller
  have hsearched : site.searched caller c r dcfg = site.searched .filter c r dcfg :=
    searched_of_isResponse hcaller
  refine ⟨fun hpops => ⟨by simp, fun _ => (h.1 ?_).2 hphase⟩, fun _ => h.2.1 hphase,
    fun hpops => h.2.2 ?_⟩
  · exact ⟨hpops.1, hsearched ▸ hpops.2.1, hpops.2.2⟩
  · exact ⟨hpops.1, hsearched ▸ hpops.2.1, hpops.2.2⟩

/-- The conditions on a select are the same without lending. -/
theorem SelectsOnce.plain (h : SelectsOnce site s caller c r dcfg)
    (hnone : (r.bind fun q => (s.rcfg q).interp) = none) :
    SelectsOnce site (s.plain gone) caller c r dcfg := by
  have hkept : (s.plain gone).firstKept (site.searched caller c r dcfg) =
      s.firstKept (site.searched caller c r dcfg) := firstKept_congr rfl
  refine ⟨fun hpops => ?_, fun hphase q hq x hx => h.2.1 hphase q hq x (State.of_mem_plain_phases hx),
    fun hpops => h.2.2 ⟨hnone, hkept ▸ hpops.2.1, hpops.2.2⟩⟩
  have honce := h.1 ⟨hnone, hkept ▸ hpops.2.1, hpops.2.2⟩
  exact ⟨honce.1, fun hphase q hq x hx => honce.2 hphase q hq x (State.of_mem_plain_phases hx)⟩

/-- A request with a phase under handler scope has no other. -/
theorem SelectsOnce.not_handled (h : SelectsOnce site s caller c (some q) dcfg)
    (hphase : caller.isPhase = true) : ¬s.Handled q := by
  rintro ⟨i, hi⟩
  exact h.2.1 hphase q rfl _ hi rfl rfl

/-- A select that finds nothing in `rcfg->interp`, and the same select of any caller that
passes the same connection, without lending. -/
theorem enter_plain (gone : List ReqId) (hpools : PoolsOk s.tipool s.next)
    (hnone : (r.bind fun q => (s.rcfg q).interp) = none)
    (hs : s.enter site caller c r dcfg = some s') :
    ∃ (s₁ : State) (i : InterpId) (source : Source), source ≠ .rcfg ∧ s₁.frames = s.frames ∧ s₁.log = s.log ∧
      s' = ((s₁.record (.select caller r c i source)).begin caller r i).push c
        (.selected caller r i source) ∧
      ∀ caller', State.connArg site caller' c r = State.connArg site caller c r →
        (s.plain gone).enter site caller' c r dcfg =
          some ((((s₁.plain gone).record (.select caller' r c i source)).begin caller' r i).push c
            (.selected caller' r i source)) := by
  obtain ⟨⟨s₁, i, source⟩, hselect, heq⟩ := Option.bind_eq_some_iff.mp hs
  have hselected := select_cases hpools hselect
  have hlog : s₁.log = s.log := by cases hselected <;> rfl
  have hsource : source ≠ .rcfg := by
    rintro rfl
    cases hselected with
    | rcfg hr hi => simp [hr, hi] at hnone
  refine ⟨s₁, i, source, hsource, hselected.frames, hlog, (Option.some.inj heq).symm,
    fun caller' harg => ?_⟩
  unfold State.enter
  rw [harg, State.plain_select hnone, hselect]
  rfl

theorem Frame.plain_selected (hsource : source ≠ .rcfg)
    (hstores : (Frame.selected caller r i source).stores = none) :
    (Frame.selected caller r i source).plain gone = some (.selected caller r i source) := by
  unfold Frame.plain
  rw [hstores]
  cases source <;> first | rfl | exact absurd rfl hsource

theorem Event.plain_select (hsource : source ≠ .rcfg)
    (hstores : (Frame.selected caller r i source).stores = none) :
    (Event.select caller r c i source).plain = some (.select caller r c i source) := by
  unfold Event.plain
  split
  · next heq =>
      cases heq
      cases hstores
  · next heq =>
      cases heq
      cases hstores
  · next heq =>
      cases heq
      exact absurd rfl hsource
  · rfl

theorem Event.plain_ne_none (hsource : source ≠ .rcfg) :
    (Event.select caller r c i source).plain ≠ none := by
  intro h
  obtain ⟨_, _, _, _, heq⟩ := Event.plain_eq_none h
  cases heq
  exact hsource rfl

/-- What a caller does that lends nobody its interpreter. -/
theorem State.plain_begin (h : caller.isResponse = false) :
    (s.begin caller r i).plain gone = (s.plain gone).begin caller r i := by
  cases caller with
  | handlers => exact plain_cleanupRegister
  | cleanup => exact plain_cleanupRegister
  | filter => rfl
  | reqCleanup => rfl
  | _ => cases h

/-- What a response handler stores is not seen. -/
theorem State.plain_begin_response (h : caller.isResponse = true) :
    (s.begin caller r i).plain gone = s.plain gone := by
  cases caller with
  | responseHandler =>
      cases r with
      | none => rfl
      | some q => exact (apply_ite _ _ _ _).trans (by rw [plain_setInterpRcfg, ite_self])
  | responseHandlerCgi =>
      cases r with
      | none => rfl
      | some q => exact (apply_ite _ _ _ _).trans (by rw [plain_setInterpRcfg, ite_self])
  | _ => cases h

/-- Everyone but a response handler selects as without lending. -/
theorem enter_plain_of_not (hpools : PoolsOk s.tipool s.next)
    (hnone : (r.bind fun q => (s.rcfg q).interp) = none) (hcaller : caller.isResponse = false)
    (hs : s.enter site caller c r dcfg = some s') :
    (s.plain gone).enter site caller c r dcfg = some (s'.plain gone) := by
  obtain ⟨s₁, i, source, hsource, -, -, rfl, hplain⟩ := enter_plain gone hpools hnone hs
  have hstores : (Frame.selected caller r i source).stores = none := by
    cases caller <;> first | rfl | cases hcaller
  rw [hplain caller rfl, State.plain_push (Frame.plain_selected hsource hstores),
    State.plain_begin hcaller, State.plain_record (Event.plain_select hsource hstores)]

/-- A response handler selects as a filter does, if it pops an interpreter that it will put
back. -/
theorem enter_plain_of_stores (hpools : PoolsOk s.tipool s.next)
    (hnone : ((some q).bind fun q => (s.rcfg q).interp) = none)
    (hcaller : caller.isResponse = true) (hq : q ∉ gone)
    (hs : s.enter site caller c (some q) dcfg = some s') :
    (s.plain gone).enter site .filter c (some q) dcfg = some (s'.plain gone) ∨
      ∃ (s₁ : State) (i : InterpId) (source : Source), source ≠ .popped none ∧ source ≠ .rcfg ∧
        s'.plain gone = ((s₁.record (.select caller (some q) c i source)).push c
          (.selected caller (some q) i source)) ∧
        (s.plain gone).enter site caller c (some q) dcfg =
          some (((s₁.record (.select caller (some q) c i source)).begin caller (some q) i).push c
            (.selected caller (some q) i source)) := by
  obtain ⟨s₁, i, source, hsource, -, -, rfl, hplain⟩ := enter_plain gone hpools hnone hs
  by_cases hpopped : source = .popped none
  · subst hpopped
    have hstores : (Frame.selected caller (some q) i (.popped none)).stores = some (q, i) := by
      cases caller <;> first | rfl | cases hcaller
    have hevent : (Event.select caller (some q) c i (.popped none)).plain =
        some (.select .filter (some q) c i (.popped none)) := by
      cases caller <;> first | rfl | cases hcaller
    refine .inl ?_
    rw [hplain .filter (connArg_of_isResponse hcaller).symm,
      State.plain_push ((Frame.plain_of_stores hstores).trans (if_neg hq)),
      State.plain_begin_response hcaller, State.plain_record hevent]
    rfl
  · have hstores : (Frame.selected caller (some q) i source).stores = none :=
      Frame.selected_stores hpopped
    refine .inr ⟨s₁.plain gone, i, source, hpopped, hsource, ?_, hplain caller rfl⟩
    rw [State.plain_push (Frame.plain_selected hsource hstores), State.plain_begin_response hcaller,
      State.plain_record (Event.plain_select hsource hstores)]

namespace Lending

/-- A select that borrows nothing. -/
theorem enter (h : Lending site gone s) (hpools : PoolsOk s.tipool s.next)
    (hnone : (r.bind fun q => (s.rcfg q).interp) = none)
    (hawaits : ∀ g ∈ s.top c, g.awaits = none)
    (hresponse : caller.isResponse = true → ∀ q, r = some q → site.connection q = c ∧ s.MayCall c)
    (hs : s.enter site caller c r dcfg = some s') : Lending site gone s' := by
  obtain ⟨s₁, i, source, hsource, hframes, hlog, rfl, -⟩ := enter_plain gone hpools hnone hs
  have hentered := entered_begin s₁ caller c r i source
  have hrecord : Lending site gone (s.record (.select caller r c i source)) :=
    h.congr [.select caller r c i source] rfl rfl fun e he =>
      List.mem_singleton.mp he ▸ Event.plain_ne_none hsource
  have hpush := hrecord.push (c := c) (f := .selected caller r i source)
    ⟨hawaits, fun q j hstores => ?_, fun caller r j heq => ?_⟩
  · refine hpush.congr [] ?_ ?_ (by simp)
    · rw [hentered.frames, hframes]
      rfl
    · rw [hentered.log, hlog]
      rfl
  · have hq : caller.isResponse = true ∧ r = some q := by
      rcases Frame.eq_selected_of_stores hstores with heq | heq <;> cases heq <;> exact ⟨rfl, rfl⟩
    obtain ⟨hthread, hcall⟩ := hresponse hq.1 q hq.2
    exact ⟨hthread, mayCall_iff.mp hcall⟩
  · cases heq
    exact absurd rfl hsource

/-! ## Releases -/

theorem resetRcfg (h : Lending site gone s) : Lending site gone (s.resetRcfg reset) := by
  refine h.congr [] ?_ ?_ (by simp) <;> cases reset <;> rfl

theorem putback (h : Lending site gone s) : Lending site gone (s.putback site i pool) := by
  unfold State.putback
  simp only
  split_ifs
  · refine h.congr [.putback i pool] rfl rfl fun e he => ?_
    rw [List.mem_singleton.mp he]
    simp [Event.plain]
  · exact h.congr [] rfl rfl (by simp)

theorem unselect (h : Lending site gone s) (hawaits : ∀ g ∈ s.top c, g.awaits = none) :
    Lending site gone (s.unselect site c i pool reset) := by
  unfold State.unselect
  split_ifs
  · exact resetRcfg (h.congr [] rfl rfl (by simp))
  · cases (s.interp i).request with
    | none => exact h.putback.resetRcfg
    | some q => exact h.push ⟨hawaits, fun _ _ hq => (by cases hq), fun _ _ _ hf => (by cases hf)⟩

theorem leaveSelected (h : Lending site gone s) (hawaits : ∀ g ∈ s.top c, g.awaits = none) :
    Lending site gone (s.leaveSelected site c caller r i) := by
  unfold State.leaveSelected
  split_ifs
  · cases caller with
    | responseHandler =>
        refine h.resetRcfg.unselect ?_
        cases r <;> exact hawaits
    | _ => exact h.unselect hawaits
  · exact h

theorem runCleanup {k : Cleanup} (h : Lending site gone s)
    (hawaits : ∀ g ∈ s.top (site.thread p), g.awaits = none) :
    Lending site gone (s.runCleanup site p k) := by
  cases k with
  | unselect i => exact h.unselect hawaits
  | pnotes q i => exact h.congr [] rfl rfl (by simp)
  | apool i interp =>
      cases interp with
      | none => exact h
      | some j => exact h.unselect hawaits
  | perl i interp =>
      exact h.push ⟨hawaits, fun _ _ hq => (by cases hq), fun _ _ _ hf => (by cases hf)⟩

/-- `modperl_interp_unselect` calls the cleanup. -/
theorem calls (h : Lending site gone s) (htop : s.top c = some (.unselect i q pool reset false)) :
    Lending site gone
      (((s.pop c).push c (.unselect i q pool reset true)).record (.requestCleanup q)) := by
  obtain ⟨hrests, hstacked⟩ := h.stacked.top htop
  obtain ⟨pre, post, hsplit, -, hpop⟩ := top_eq_some htop
  refine ⟨⟨⟨hrests.awaits, fun _ _ hq => (by cases hq), fun _ _ _ hf => (by cases hf)⟩, hstacked⟩,
    fun q' hq' => ?_, h.handled, fun e he => ?_, ?_⟩
  · by_cases hq : q' = q
    · exact .inl (hq ▸ List.mem_cons_self)
    · refine (h.lost q' hq').imp (List.mem_cons_of_mem _) fun ⟨g, hg, hawaits⟩ => ?_
      refine ⟨g, List.mem_cons_of_mem _ ?_, hawaits⟩
      have hne : g ≠ .unselect i q pool reset false := by
        rintro rfl
        exact hq (Option.some.inj hawaits).symm
      rw [hsplit] at hg
      rw [hpop]
      simpa [hne] using hg
  · rcases List.mem_cons.mp he with rfl | he
    · exact fun hplain => by cases hplain
    · exact h.lent e he
  · exact List.pairwise_cons.mpr ⟨fun _ _ hplain => (by cases hplain), h.order⟩

theorem requestCleanup {found : Bool} (h : Lending site gone (s.record (.requestCleanup q)))
    (hpools : PoolsOk s.tipool s.next)
    (hnone : found = true ∧ site.enable (site.server q) = true → (s.rcfg q).interp = none)
    (hawaits : ∀ g ∈ s.top c, g.awaits = none)
    (hs : s.requestCleanup site c q found dcfg = some s') : Lending site gone s' := by
  rcases State.requestCleanup_inv hs with ⟨hfound, hs⟩ | ⟨-, rfl⟩
  · exact h.enter (r := some q) hpools (hnone hfound) hawaits (fun hcaller => by cases hcaller) hs
  · exact h

end Lending

theorem plain_requestCleanup (gone : List ReqId) {found : Bool} (hpools : PoolsOk s.tipool s.next)
    (hnone : found = true ∧ site.enable (site.server q) = true → (s.rcfg q).interp = none)
    (hs : s.requestCleanup site c q found dcfg = some s') :
    (s.plain gone).requestCleanup site c q found dcfg = some (s'.plain gone) := by
  rcases State.requestCleanup_inv hs with ⟨hfound, hs⟩ | ⟨hfound, rfl⟩
  · exact (if_pos hfound).trans
      (enter_plain_of_not (s := s.record (.requestCleanup q)) (r := some q) hpools (hnone hfound)
        rfl hs)
  · exact if_neg hfound

theorem Frame.awaits_of_mayCall (h : f.mayCall = true) : f.awaits = none := by
  cases f with
  | unselect => cases h
  | _ => rfl

theorem awaits_of_mayCall (h : s.MayCall c) : ∀ g ∈ s.top c, g.awaits = none :=
  fun g hg => Frame.awaits_of_mayCall (mayCall_iff.mp h g hg)

end ModPerl
