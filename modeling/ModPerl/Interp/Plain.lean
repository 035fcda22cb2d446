import ModPerl.Interp.RequestCleanup

/-!
# Runs without lending

A response handler that has popped its interpreter under handler scope stores it in
`rcfg->interp`, where `modperl_callback_run_handlers` finds it: it lends it to the handlers.
The counterpart of a state without lending (`State.plain`) has a filter in place of the
response handler, and no select of the handlers.  The functions of the interpreters lead
from counterparts to counterparts.
-/

namespace ModPerl

open Machine

variable {site : Site} {s s' s₀ s₁ : State} {a : Act} {caller : Caller} {r : Option ReqId}
  {c : ConnId} {dcfg : InterpScope} {i j : InterpId} {source : Source} {p : PoolId} {q : ReqId}
  {f g : Frame} {pool : Option PoolId} {reset : Option ReqId} {gone : List ReqId}

/-- The call without lending: the handlers of a response handler make no select, and what
it had popped itself is a filter's, until it is put back. -/
def Frame.plain (gone : List ReqId) (f : Frame) : Option Frame :=
  match f.stores with
  | some (q, i) => if q ∈ gone then none else some (.selected .filter (some q) i (.popped none))
  | none =>
      match f with
      | .selected _ _ _ .rcfg => none
      | .unselect i q p _ called => some (.unselect i q p none called)
      | f => some f

def Event.plain : Event → Option Event
  | .select .responseHandler (some q) c i (.popped none) =>
      some (.select .filter (some q) c i (.popped none))
  | .select .responseHandlerCgi (some q) c i (.popped none) =>
      some (.select .filter (some q) c i (.popped none))
  | .select _ _ _ _ .rcfg => none
  | e => some e

/-- The state without lending, where the response handlers of some requests have lost their
interpreter already. -/
def State.plain (gone : List ReqId) (s : State) : State :=
  { s with
    rcfg := fun q => { s.rcfg q with interp := none }
    frames := s.frames.filterMap fun x => (x.2.plain gone).map fun f => (x.1, f)
    log := s.log.filterMap Event.plain }

/-! ## Calls and events -/

theorem Frame.plain_of_stores (h : f.stores = some (q, i)) : f.plain gone =
    if q ∈ gone then none else some (.selected .filter (some q) i (.popped none)) := by
  simp only [Frame.plain, h]

/-- Who has no counterpart is a response handler that has lost its interpreter, or has
borrowed one. -/
theorem Frame.plain_eq_none (h : f.plain gone = none) :
    (∃ q i, f.stores = some (q, i) ∧ q ∈ gone) ∨
      ∃ caller r i, f = .selected caller r i .rcfg := by
  unfold Frame.plain at h
  split at h
  · next q i hstores =>
      exact .inl ⟨q, i, hstores, by simpa using h⟩
  · split at h
    · exact .inr ⟨_, _, _, rfl⟩
    · cases h
    · cases h

/-- The counterpart of a call. -/
theorem Frame.plain_eq_some (h : f.plain gone = some g) :
    (∃ q i, f.stores = some (q, i) ∧ q ∉ gone ∧
      g = .selected .filter (some q) i (.popped none)) ∨
    (∃ i q p reset called, f = .unselect i q p reset called ∧ g = .unselect i q p none called) ∨
    f.stores = none ∧ g = f ∧ (∀ caller r i, f ≠ .selected caller r i .rcfg) ∧
      ∀ i q p reset called, f ≠ .unselect i q p reset called := by
  unfold Frame.plain at h
  split at h
  · next q i hstores =>
      obtain ⟨hq, h⟩ := Option.ite_none_left_eq_some.mp h
      exact .inl ⟨q, i, hstores, hq, (Option.some.inj h).symm⟩
  · next hstores =>
      split at h
      · cases h
      · exact .inr (.inl ⟨_, _, _, _, _, rfl, (Option.some.inj h).symm⟩)
      · next hrcfg hunselect =>
          exact .inr (.inr ⟨hstores, (Option.some.inj h).symm, fun _ _ _ heq => hrcfg _ _ _ heq,
            fun _ _ _ _ _ heq => hunselect _ _ _ _ _ heq⟩)

theorem Frame.eq_selected_of_stores (h : f.stores = some (q, i)) :
    f = .selected .responseHandler (some q) i (.popped none) ∨
      f = .selected .responseHandlerCgi (some q) i (.popped none) := by
  unfold Frame.stores at h
  split at h
  · obtain ⟨rfl, rfl⟩ := Prod.mk.inj (Option.some.inj h)
    exact .inl rfl
  · obtain ⟨rfl, rfl⟩ := Prod.mk.inj (Option.some.inj h)
    exact .inr rfl
  · cases h

/-- An event without lending is the same phase, and the same cleanup … -/
theorem Event.plain_eq_some {e e' : Event} (h : e.plain = some e') :
    e'.phase = e.phase ∧ e'.cleans = e.cleans ∧ ∀ x, e'.calls = some x → e.calls = some x ∨
      x.1 = .filter ∧ ∃ i, e.phase = some (x.2, i, .popped none) := by
  unfold Event.plain at h
  split at h
  · obtain rfl := Option.some.inj h
    exact ⟨rfl, rfl, fun x hx => by cases hx; exact .inr ⟨rfl, _, rfl⟩⟩
  · obtain rfl := Option.some.inj h
    exact ⟨rfl, rfl, fun x hx => by cases hx; exact .inr ⟨rfl, _, rfl⟩⟩
  · cases h
  · obtain rfl := Option.some.inj h
    exact ⟨rfl, rfl, fun x hx => .inl hx⟩

theorem Event.calls_plain {e e' : Event} (h : e.plain = some e')
    (hcalls : e.calls = some (caller, q)) (hcaller : caller.isResponse = false) :
    e'.calls = some (caller, q) := by
  unfold Event.plain at h
  split at h
  · obtain ⟨rfl, -⟩ := Prod.mk.inj (Option.some.inj hcalls)
    cases hcaller
  · obtain ⟨rfl, -⟩ := Prod.mk.inj (Option.some.inj hcalls)
    cases hcaller
  · cases h
  · exact Option.some.inj h ▸ hcalls

/-- … and only a select that borrows has none. -/
theorem Event.plain_eq_none {e : Event} (h : e.plain = none) :
    ∃ caller r c i, e = .select caller r c i .rcfg := by
  unfold Event.plain at h
  split at h
  · cases h
  · cases h
  · exact ⟨_, _, _, _, rfl⟩
  · cases h

/-! ## Stacks -/

namespace State

theorem mem_plain_frames {x : ConnId × Frame} : x ∈ (s.plain gone).frames ↔
    ∃ f, (x.1, f) ∈ s.frames ∧ f.plain gone = some x.2 := by
  obtain ⟨c, g⟩ := x
  simp only [plain, List.mem_filterMap, Option.map_eq_some_iff, Prod.mk.injEq]
  constructor
  · intro h
    obtain ⟨⟨c', f⟩, hx, g', hg, rfl, rfl⟩ := h
    exact ⟨f, hx, hg⟩
  · intro h
    obtain ⟨f, hx, hg⟩ := h
    exact ⟨(c, f), hx, g, hg, rfl, rfl⟩

theorem top_of_split {pre post : List (ConnId × Frame)} (hsplit : s.frames = pre ++ (c, f) :: post)
    (hpre : ∀ x ∈ pre, x.1 ≠ c) : s.top c = some f ∧ (s.pop c).frames = pre ++ post := by
  constructor
  · rw [top, hsplit, List.find?_append, List.find?_eq_none.mpr fun x hx => by simp [hpre x hx]]
    simp
  · rw [pop, hsplit, List.eraseP_append_right _ fun x hx => by simp [hpre x hx],
      List.eraseP_cons_of_pos (by simp)]

/-- The innermost call of a thread and its counterpart. -/
theorem plain_pop (gone : List ReqId) (htop : s.top c = some f) (hf : f.plain gone = some g) :
    (s.plain gone).top c = some g ∧ (s.pop c).plain gone = (s.plain gone).pop c := by
  obtain ⟨pre, post, hsplit, hpre, hpop⟩ := top_eq_some htop
  have hframes : (s.plain gone).frames =
      (pre.filterMap fun x => (x.2.plain gone).map fun f => (x.1, f)) ++ (c, g) ::
        post.filterMap fun x => (x.2.plain gone).map fun f => (x.1, f) := by
    simp only [plain, hsplit, List.filterMap_append]
    rw [List.filterMap_cons_some (b := (c, g)) (by simp [hf])]
  have hother : ∀ x ∈ pre.filterMap fun x => (x.2.plain gone).map fun f => (x.1, f), x.1 ≠ c := by
    intro x hx
    obtain ⟨y, hy, hxy⟩ := List.mem_filterMap.mp hx
    obtain ⟨f', -, rfl⟩ := Option.map_eq_some_iff.mp hxy
    exact hpre y hy
  obtain ⟨htop', hpop'⟩ := top_of_split hframes hother
  refine ⟨htop', ?_⟩
  have heq : (s.pop c).frames.filterMap (fun x => (x.2.plain gone).map fun f => (x.1, f)) =
      ((s.plain gone).pop c).frames := by
    rw [hpop', hpop, List.filterMap_append]
  exact congrArg (fun frames => { s.plain gone with frames := frames }) heq

/-- A call without a counterpart returns. -/
theorem plain_pop_none (htop : s.top c = some f) (hf : f.plain gone = none) :
    (s.pop c).plain gone = s.plain gone := by
  obtain ⟨pre, post, hsplit, hpre, hpop⟩ := top_eq_some htop
  have heq : (s.pop c).frames.filterMap (fun x => (x.2.plain gone).map fun f => (x.1, f)) =
      (s.plain gone).frames := by
    simp only [plain, hsplit, hpop, List.filterMap_append]
    rw [List.filterMap_cons_none (by simp [hf])]
  exact congrArg (fun frames => { s.plain gone with frames := frames }) heq

theorem plain_push (hf : f.plain gone = some g) :
    (s.push c f).plain gone = (s.plain gone).push c g := by
  simp only [plain, push]
  rw [List.filterMap_cons_some (b := (c, g)) (by simp [hf])]

theorem plain_push_none (hf : f.plain gone = none) : (s.push c f).plain gone = s.plain gone := by
  simp only [plain, push]
  rw [List.filterMap_cons_none (by simp [hf])]

/-- Only the response handler of a request notices that it has lost its interpreter. -/
theorem plain_cons (h : ∀ x ∈ s.frames, ∀ i, x.2.stores ≠ some (q, i)) :
    s.plain (q :: gone) = s.plain gone := by
  have heq : ∀ x ∈ s.frames, x.2.plain (q :: gone) = x.2.plain gone := by
    intro x hx
    unfold Frame.plain
    split
    · next q' i hstores =>
        have hq : q' ≠ q := by
          rintro rfl
          exact h x hx i hstores
        simp [hq]
    · rfl
  have hframes : s.frames.filterMap (fun x => (x.2.plain (q :: gone)).map fun f => (x.1, f)) =
      s.frames.filterMap fun x => (x.2.plain gone).map fun f => (x.1, f) :=
    List.filterMap_congr fun x hx => by rw [heq x hx]
  simp only [plain, hframes]

/-! ## The history -/

theorem cleaned_plain (s : State) (gone : List ReqId) : (s.plain gone).cleaned = s.cleaned := by
  simp only [cleaned, plain, List.filterMap_filterMap]
  refine List.filterMap_congr fun e _ => ?_
  cases he : e.plain with
  | none =>
      obtain ⟨_, _, _, _, rfl⟩ := Event.plain_eq_none he
      rfl
  | some e' => exact (Event.plain_eq_some he).2.1

theorem mem_phases {y : PhaseUse} : y ∈ s.phases ↔ ∃ e ∈ s.log, e.phase = some y :=
  List.mem_filterMap

theorem of_mem_plain_phases {y : PhaseUse} (hy : y ∈ (s.plain gone).phases) : y ∈ s.phases := by
  obtain ⟨e', he', hphase⟩ := mem_phases.mp hy
  obtain ⟨e, he, hplain⟩ := List.mem_filterMap.mp he'
  exact mem_phases.mpr ⟨e, he, (Event.plain_eq_some hplain).1 ▸ hphase⟩

theorem mem_plain_phases {y : PhaseUse} (hy : y ∈ s.phases) (hsource : y.2.2 ≠ .rcfg) :
    y ∈ (s.plain gone).phases := by
  obtain ⟨e, he, hphase⟩ := mem_phases.mp hy
  cases hplain : e.plain with
  | none =>
      obtain ⟨caller, r, c, i, rfl⟩ := Event.plain_eq_none hplain
      cases r with
      | none => cases hphase
      | some q =>
          obtain ⟨-, heq⟩ := Option.ite_none_right_eq_some.mp hphase
          exact absurd (Option.some.inj heq ▸ rfl) hsource
  | some e' =>
      exact mem_phases.mpr ⟨e', List.mem_filterMap.mpr ⟨e, he, hplain⟩,
        (Event.plain_eq_some hplain).1.trans hphase⟩

theorem handled_plain : (s.plain gone).Handled q ↔ s.Handled q :=
  ⟨fun ⟨i, hi⟩ => ⟨i, of_mem_plain_phases hi⟩, fun ⟨i, hi⟩ => ⟨i, mem_plain_phases hi (by simp)⟩⟩

theorem called_of_plain (h : (s.plain gone).Called caller q) :
    s.Called caller q ∨ caller = .filter ∧ s.Handled q := by
  obtain ⟨e', he', hcalls⟩ := h
  obtain ⟨e, he, hplain⟩ := List.mem_filterMap.mp he'
  rcases (Event.plain_eq_some hplain).2.2 _ hcalls with hcalls | ⟨hfilter, i, hphase⟩
  · exact .inl ⟨e, he, hcalls⟩
  · exact .inr ⟨hfilter, i, mem_phases.mpr ⟨e, he, hphase⟩⟩

/-! ## What the functions do -/

theorem plain_setRcfg {f : ReqConfig → ReqConfig}
    (hf : ∀ x, { f x with interp := none } = f { x with interp := none }) :
    (s.setRcfg q f).plain gone = (s.plain gone).setRcfg q f := by
  have heq : (fun q' => { Function.update s.rcfg q (f (s.rcfg q)) q' with interp := none }) =
      Function.update (s.plain gone).rcfg q (f ((s.plain gone).rcfg q)) := by
    funext q'
    by_cases hq : q' = q
    · subst hq
      simp only [Function.update_self, hf, plain]
    · simp only [Function.update_of_ne hq, plain]
  simp only [plain, setRcfg] at heq ⊢
  rw [heq]

theorem plain_setInterpRcfg {x : Option InterpId} :
    (s.setRcfg q fun y => { y with interp := x }).plain gone = s.plain gone := by
  have heq : (fun q' => { Function.update s.rcfg q { s.rcfg q with interp := x } q' with
      interp := none }) = (s.plain gone).rcfg := by
    funext q'
    by_cases hq : q' = q
    · subst hq
      simp only [Function.update_self, plain]
    · simp only [Function.update_of_ne hq, plain]
  simp only [plain, setRcfg] at heq ⊢
  rw [heq]

theorem plain_setInterp {f : Interp → Interp} :
    (s.setInterp i f).plain gone = (s.plain gone).setInterp i f := rfl

theorem plain_resetRcfg : (s.resetRcfg reset).plain gone = s.plain gone := by
  cases reset with
  | none => rfl
  | some q => exact plain_setInterpRcfg

theorem plain_putback : (s.putback site i pool).plain gone = (s.plain gone).putback site i pool := by
  have hbusy : (s.setInterp i fun x =>
      { x with inUse := false, putback := false, thx := false }).Busy i ↔
        ((s.plain gone).setInterp i fun x =>
          { x with inUse := false, putback := false, thx := false }).Busy i := .rfl
  unfold putback
  simp only [hbusy]
  split_ifs <;> rfl

theorem plain_unselect : (s.unselect site c i pool reset).plain gone =
    (s.plain gone).unselect site c i pool none := by
  unfold unselect
  rw [show ((s.plain gone).interp i) = s.interp i from rfl]
  split_ifs
  · exact plain_resetRcfg
  · cases (s.interp i).request with
    | none => exact plain_resetRcfg.trans plain_putback
    | some q => exact plain_push rfl

/-- A caller that puts its interpreter back does it as a filter. -/
theorem plain_leaveSelected : (s.leaveSelected site c caller r i).plain gone =
    (s.plain gone).leaveSelected site c .filter r i := by
  unfold leaveSelected
  rw [show ((s.plain gone).interp i) = s.interp i from rfl]
  split_ifs
  · cases caller with
    | responseHandler => exact plain_unselect.trans (by rw [plain_resetRcfg])
    | _ => exact plain_unselect
  · rfl

theorem leaveSelected_filter (h : caller.isResponse = false) :
    s.leaveSelected site c .filter r i = s.leaveSelected site c caller r i := by
  cases caller <;> first | rfl | cases h

theorem plain_unselectRest : (s.unselectRest site i q pool reset).plain gone =
    (s.plain gone).unselectRest site i q pool none := by
  unfold unselectRest
  rw [plain_resetRcfg, plain_putback, plain_setRcfg fun _ => rfl]
  rfl

theorem plain_addRef : ((s.plain gone).addRef i) = ((s.addRef i).1.plain gone, (s.addRef i).2) := by
  unfold addRef
  rw [show ((s.plain gone).interp i) = s.interp i from rfl]
  split_ifs <;> rfl

theorem plain_takeOwnership :
    (s.takeOwnership p i).plain gone = (s.plain gone).takeOwnership p i := by
  simp only [takeOwnership, plain_addRef]
  rfl

theorem plain_cleanupRegisterPerl :
    (s.cleanupRegisterPerl p i).plain gone = (s.plain gone).cleanupRegisterPerl p i := by
  simp only [cleanupRegisterPerl, plain_addRef]
  rfl

theorem plain_pnotes : (s.pnotes q i).plain gone = (s.plain gone).pnotes q i := by
  unfold pnotes
  rw [show ((s.plain gone).rcfg q).pnotes = (s.rcfg q).pnotes from rfl]
  split
  · rfl
  · exact plain_setRcfg (s := { s with cleanups := (.req q, .pnotes q i) :: s.cleanups })
      fun _ => rfl

theorem plain_runCleanup {k : Cleanup} :
    (s.runCleanup site p k).plain gone = (s.plain gone).runCleanup site p k := by
  cases k with
  | unselect i => exact plain_unselect
  | pnotes q i => exact plain_setRcfg fun _ => rfl
  | apool i interp =>
      cases interp with
      | none => rfl
      | some j => exact plain_unselect
  | perl i interp => exact plain_push rfl

theorem plain_cleanupRegister :
    (s.cleanupRegister r).plain gone = (s.plain gone).cleanupRegister r := by
  unfold cleanupRegister
  cases r with
  | none => rfl
  | some q =>
      simp only
      rw [show ((s.plain gone).rcfg q).cleanupRegistered = (s.rcfg q).cleanupRegistered from rfl]
      split_ifs
      · rfl
      · exact plain_setRcfg (s := { s with subpools := q :: s.subpools }) fun _ => rfl

theorem plain_record {e e' : Event} (he : e.plain = some e') :
    (s.record e).plain gone = (s.plain gone).record e' := by
  simp only [plain, record]
  rw [List.filterMap_cons_some he]

theorem plain_interpGet {m : MipId} : (s.plain gone).interpGet site m =
    (s.interpGet site m).map fun x => (x.1.plain gone, x.2) := by
  unfold interpGet
  rw [show (s.plain gone).tipool = s.tipool from rfl, show (s.plain gone).next = s.next from rfl]
  cases (s.tipool m).pop (site.interpPoolCfg m) ⟨m, s.next m⟩ <;> rfl

/-- A select that finds nothing in `rcfg->interp` does the same without lending. -/
theorem plain_select {arg : Option ConnId} {srv : ServerId}
    (hnone : (r.bind fun q => (s.rcfg q).interp) = none) :
    (s.plain gone).select site r arg srv dcfg =
      (s.select site r arg srv dcfg).map fun x => (x.1.plain gone, x.2) := by
  have hnone' : (r.bind fun q => ((s.plain gone).rcfg q).interp) = none := by cases r <;> rfl
  unfold select
  simp only [hnone, hnone']
  have hkept : (s.plain gone).firstKept (site.consulted r arg (site.scope r srv dcfg)).1 =
      s.firstKept (site.consulted r arg (site.scope r srv dcfg)).1 := firstKept_congr rfl
  rw [hkept]
  cases s.firstKept (site.consulted r arg (site.scope r srv dcfg)).1 with
  | some x => rfl
  | none =>
      rw [plain_interpGet]
      cases s.interpGet site (site.mip srv) with
      | none => rfl
      | some x =>
          simp only [Option.map_some, Option.bind_eq_bind, Option.bind_some]
          split_ifs
          · cases r with
            | none => rfl
            | some q =>
                simp only [Option.elim_some, Option.map_some, Option.some.injEq, Prod.mk.injEq,
                  and_true]
                rw [plain_setInterp, plain_setRcfg fun _ => rfl, plain_setInterp, plain_setInterp]
          · cases (site.consulted r arg (site.scope r srv dcfg)).2 <;> rfl

end State

end ModPerl
