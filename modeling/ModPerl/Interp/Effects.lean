import ModPerl.Interp.Machine

/-!
# What the functions do to the state

One lemma for each function: what `modperl_interp_select` may return and which
state it leaves (`select_cases`), what a putback does to the tipool, and what
taking the innermost call off a stack does to the list of all calls.  The
invariants use these and do not unfold the functions again.
-/

namespace ModPerl

/-! ## The tipools -/

/-- Every interpreter is in the tipool that its name says, once, and the numbers
from `next` on are not in use. -/
structure PoolsOk (tipool : MipId → ItemPool InterpId) (next : MipId → ℕ) : Prop where
  ids : ∀ m, ∀ i ∈ (tipool m).all, i.mip = m ∧ i.serial < next m
  nodup : ∀ m, (tipool m).all.Nodup

namespace PoolsOk

variable {tipool : MipId → ItemPool InterpId} {next : MipId → ℕ} {cfg : TipoolConfig} {m : MipId}
  {i j : InterpId} {p : ItemPool InterpId} {n : ℤ}

theorem start (site : Site) : PoolsOk (State.start site).tipool (State.start site).next where
  ids m i hi := by
    simp only [State.start, ItemPool.all, List.append_nil, List.mem_map, List.mem_range] at hi
    obtain ⟨k, hk, rfl⟩ := hi
    exact ⟨rfl, hk⟩
  nodup m := by
    simp only [State.start, ItemPool.all, List.append_nil]
    refine List.Nodup.map (fun a b hab => ?_) List.nodup_range
    simpa using hab

theorem fresh_notMem (h : PoolsOk tipool next) : (⟨m, next m⟩ : InterpId) ∉ (tipool m).all :=
  fun hmem => absurd (h.ids m _ hmem).2 (lt_irrefl _)

/-- Replace one tipool by one with the same interpreters, some missing and at most the new one
added. -/
theorem update (h : PoolsOk tipool next) (hnodup : p.all.Nodup)
    (hsub : ∀ j ∈ p.all, j ∈ (tipool m).all ∨ j = ⟨m, next m⟩) :
    PoolsOk (Function.update tipool m p) (Function.update next m (next m + 1)) where
  ids m' j hj := by
    by_cases hm : m' = m
    · subst hm
      rw [Function.update_self] at hj ⊢
      rcases hsub j hj with hj | rfl
      · exact ⟨(h.ids _ j hj).1, Nat.lt_succ_of_lt (h.ids _ j hj).2⟩
      · exact ⟨rfl, Nat.lt_succ_self _⟩
    · rw [Function.update_of_ne hm] at hj ⊢
      exact h.ids m' j hj
  nodup m' := by
    by_cases hm : m' = m
    · subst hm
      rwa [Function.update_self]
    · rw [Function.update_of_ne hm]
      exact h.nodup m'

/-- A popped interpreter was not in use. -/
theorem pop (h : PoolsOk tipool next)
    (hpop : (tipool m).pop cfg ⟨m, next m⟩ = some (i, p)) :
    i.mip = m ∧ i ∉ (tipool m).busy ∧ (∀ j, j ∈ p.busy ↔ j ∈ (tipool m).busy ∨ j = i) ∧
      PoolsOk (Function.update tipool m p) (Function.update next m (next m + 1)) := by
  have hnodup := h.nodup m
  rcases ItemPool.pop_cases hpop with ⟨rest, hidle, rfl⟩ | ⟨hidle, rfl, rfl, -⟩
  · simp only [ItemPool.all, hidle] at hnodup
    have hperm : (rest ++ ((tipool m).busy ++ [i])).Perm (i :: (rest ++ (tipool m).busy)) := by
      rw [← List.append_assoc]
      exact List.perm_append_singleton _ _
    have hi : i ∈ (tipool m).all := by simp [ItemPool.all, hidle]
    refine ⟨(h.ids m i hi).1, fun hbusy => ?_, fun j => by simp, h.update ?_ fun j hj => .inl ?_⟩
    · exact (List.nodup_cons.mp hnodup).1 (List.mem_append_right _ hbusy)
    · exact (hperm.nodup_iff).mpr hnodup
    · have := hperm.mem_iff.mp hj
      simpa [ItemPool.all, hidle] using this
  · simp only [ItemPool.all, hidle, List.nil_append] at hnodup
    have hfresh := h.fresh_notMem (m := m)
    simp only [ItemPool.all, hidle, List.nil_append] at hfresh
    refine ⟨rfl, hfresh, fun j => by simp, h.update ?_ fun j hj => ?_⟩
    · simpa [ItemPool.all] using List.Nodup.append hnodup (List.nodup_singleton _)
        (by simpa using hfresh)
    · simpa [ItemPool.all, hidle] using hj

/-- An interpreter that is put back is no longer in use. -/
theorem putback (h : PoolsOk tipool next) (cfg : TipoolConfig) (n : ℤ)
    (hbusy : i ∈ (tipool m).busy) :
    (∀ j, j ∈ ((tipool m).putback cfg n ⟨m, next m⟩ i).busy ↔ j ∈ (tipool m).busy ∧ j ≠ i) ∧
      PoolsOk (Function.update tipool m ((tipool m).putback cfg n ⟨m, next m⟩ i))
        (Function.update next m (next m + 1)) := by
  have hnodup := h.nodup m
  have hfresh := h.fresh_notMem (m := m)
  obtain ⟨xs, ys, -, hsplit, hrelease⟩ := ItemPool.exists_release hbusy
  have herase : (tipool m).busy.erase i = xs ++ ys := congrArg ItemPool.busy hrelease
  have hperm : (tipool m).all.Perm (i :: ((tipool m).idle ++ (xs ++ ys))) := by
    rw [ItemPool.all, hsplit, ← List.append_assoc, ← List.append_assoc]
    exact List.perm_middle
  have hnd := List.nodup_cons.mp (hperm.nodup_iff.mp hnodup)
  have hfresh' := mt hperm.mem_iff.mpr hfresh
  refine ⟨fun j => ?_, h.update ?_ fun j hj => ?_⟩
  · rw [ItemPool.putback_release, hrelease, hsplit]
    have hi : i ∉ xs ++ ys := fun hi => hnd.1 (List.mem_append_right _ hi)
    simp only [List.mem_append, List.mem_cons] at hi ⊢
    constructor
    · rintro (hj | hj)
      · exact ⟨.inl hj, fun heq => hi (.inl (heq ▸ hj))⟩
      · exact ⟨.inr (.inr hj), fun heq => hi (.inr (heq ▸ hj))⟩
    · rintro ⟨hj | hj | hj, hne⟩
      · exact .inl hj
      · exact absurd hj hne
      · exact .inr hj
  · -- it is kept, or destroyed, or destroyed and replaced by a new one
    rcases ItemPool.putback_cases cfg n ⟨m, next m⟩ (tipool m) i with heq | heq | heq <;>
      rw [heq, ItemPool.all, herase]
    · exact List.nodup_cons.mpr hnd
    · exact hnd.2
    · have hperm' : (((tipool m).idle ++ [(⟨m, next m⟩ : InterpId)]) ++ (xs ++ ys)).Perm
          (⟨m, next m⟩ :: ((tipool m).idle ++ (xs ++ ys))) := by
        rw [List.append_assoc]
        exact List.perm_middle
      exact hperm'.nodup_iff.mpr
        (List.nodup_cons.mpr ⟨fun hmem => hfresh' (List.mem_cons_of_mem _ hmem), hnd.2⟩)
  · rw [hperm.mem_iff]
    rcases ItemPool.putback_cases cfg n ⟨m, next m⟩ (tipool m) i with heq | heq | heq <;>
      rw [heq, ItemPool.all, herase] at hj
    · exact .inl hj
    · exact .inl (List.mem_cons_of_mem _ hj)
    · simp only [List.mem_append, List.mem_cons, List.not_mem_nil, or_false] at hj ⊢
      tauto

variable {s s' : State}

/-- After a pop one more interpreter is in use. -/
theorem busy_popped (h : PoolsOk s.tipool s.next)
    (hpop : (s.tipool i.mip).pop cfg ⟨i.mip, s.next i.mip⟩ = some (i, p))
    (htipool : s'.tipool = Function.update s.tipool i.mip p)
    (hnext : s'.next = Function.update s.next i.mip (s.next i.mip + 1)) :
    ¬s.Busy i ∧ (∀ j, s'.Busy j ↔ s.Busy j ∨ j = i) ∧ PoolsOk s'.tipool s'.next := by
  obtain ⟨-, hfresh, hmem, hpools⟩ := h.pop hpop
  refine ⟨hfresh, fun j => ?_, by rw [htipool, hnext]; exact hpools⟩
  unfold State.Busy
  rw [htipool]
  by_cases hj : j.mip = i.mip
  · rw [hj, Function.update_self, hmem]
  · rw [Function.update_of_ne hj]
    exact ⟨.inl, fun h => h.resolve_right fun heq => hj (heq ▸ rfl)⟩

/-- What the end of `modperl_interp_unselect` leaves: the interpreter is not in use. -/
theorem busy_putback (h : PoolsOk s.tipool s.next) (site : Site) (p : Option PoolId)
    (hi : s.Busy i) : (∀ j, (s.putback site i p).Busy j ↔ s.Busy j ∧ j ≠ i) ∧
      PoolsOk (s.putback site i p).tipool (s.putback site i p).next := by
  obtain ⟨hmem, hpools⟩ := h.putback (site.interpPoolCfg i.mip) (s.interp i).numRequests hi
  have hcond : (s.setInterp i fun x =>
    { x with inUse := false, putback := false, thx := false }).Busy i := hi
  unfold State.putback
  simp only [if_pos hcond]
  simp only [State.setInterp, Function.update_self]
  refine ⟨fun j => ?_, hpools⟩
  unfold State.Busy
  by_cases hj : j.mip = i.mip
  · simp only [hj, Function.update_self]
    exact hmem j
  · simp only [Function.update_of_ne hj]
    exact ⟨fun hb => ⟨hb, fun heq => hj (heq ▸ rfl)⟩, And.left⟩

end PoolsOk

/-! ## `modperl_interp_select` -/

section Select

variable {site : Site} {s s' : State} {caller : Caller} {r : Option ReqId} {c : ConnId}
  {scope dcfg : InterpScope} {i : InterpId} {source : Source} {p : PoolId} {ps : List PoolId}

theorem firstKept_eq_some (h : s.firstKept ps = some (p, i)) : p ∈ ps ∧ s.userdata p = some i := by
  induction ps with
  | nil => simp [State.firstKept] at h
  | cons q ps ih =>
      unfold State.firstKept at h
      cases hq : s.userdata q with
      | some j =>
          rw [hq] at h
          obtain ⟨rfl, rfl⟩ := Prod.mk.inj (Option.some.inj h)
          exact ⟨List.mem_cons_self, hq⟩
      | none =>
          rw [hq] at h
          exact (ih h).imp_left (List.mem_cons_of_mem _)

theorem firstKept_eq_none (h : s.firstKept ps = none) (hp : p ∈ ps) : s.userdata p = none := by
  induction ps with
  | nil => simp at hp
  | cons q ps ih =>
      unfold State.firstKept at h
      cases hq : s.userdata q with
      | some j => simp [hq] at h
      | none =>
          rw [hq] at h
          rcases List.mem_cons.mp hp with rfl | hp
          · exact hq
          · exact ih h hp

theorem firstKept_congr (h : s'.userdata = s.userdata) : s'.firstKept ps = s.firstKept ps := by
  induction ps with
  | nil => rfl
  | cons p ps ih => simp only [State.firstKept, h, ih]

/-- The search stops at the first pool that has an interpreter. -/
theorem find?_eq_of_firstKept {ps : List PoolId} :
    ps.find? (fun p => (s.userdata p).isSome) = (s.firstKept ps).map Prod.fst := by
  induction ps with
  | nil => rfl
  | cons p ps ih =>
      unfold State.firstKept
      cases hp : s.userdata p with
      | none => simp [hp, ih]
      | some i => simp [hp]

/-- The pools that a caller's select consults. -/
def Site.searched (site : Site) (caller : Caller) (c : ConnId) (r : Option ReqId)
    (dcfg : InterpScope) : List PoolId :=
  (site.consulted r (State.connArg site caller c r)
    (site.scope r (site.serverOf c r) dcfg)).1

/-- The pool that it would keep a new interpreter in. -/
def Site.keeper (site : Site) (caller : Caller) (c : ConnId) (r : Option ReqId)
    (dcfg : InterpScope) : Option PoolId :=
  (site.consulted r (State.connArg site caller c r)
    (site.scope r (site.serverOf c r) dcfg)).2

/-- They are among the pools in which an interpreter for the request may be kept. -/
theorem searched_subset (hp : p ∈ site.searched caller c r dcfg) : p ∈ site.chain c r := by
  have hreq : ∀ r scope, p ∈ site.requestPools r scope ++ [.conn (site.connection r)] →
      p ∈ site.chain c (some r) := by
    intro r scope hp
    unfold Site.requestPools at hp
    simp only [Site.chain, Site.above, List.mem_cons, List.mem_append, List.not_mem_nil,
      or_false] at hp ⊢
    rcases hp with hp | hp
    · split_ifs at hp
      · exact .inr (.inl hp)
      · exact .inl (List.mem_singleton.mp hp)
    · exact .inr (.inr hp)
  unfold Site.searched Site.consulted at hp
  cases r with
  | none => simpa [State.connArg, Site.scope, Site.chain] using hp
  | some r =>
      cases harg : State.connArg site caller c (some r) with
      | none =>
          rw [harg] at hp
          exact hreq r _ hp
      | some c' =>
          have hc' : c' = site.connection r := by
            simp only [State.connArg] at harg
            split_ifs at harg <;> exact (Option.some.inj harg).symm
          rw [harg] at hp
          simp only at hp
          split_ifs at hp
          · rw [List.mem_singleton.mp hp, hc']
            simp [Site.chain, Site.above]
          · exact hreq r _ hp

/-- A new interpreter is kept in a pool that has been searched. -/
theorem keeper_mem_searched (hp : site.keeper caller c r dcfg = some p) :
    p ∈ site.searched caller c r dcfg := by
  unfold Site.keeper at hp
  unfold Site.searched
  revert hp
  generalize State.connArg site caller c r = arg
  generalize site.scope r (site.serverOf c r) dcfg = scope
  intro hp
  cases arg <;> cases r <;> simp only [Site.consulted] at hp ⊢
  · exact absurd hp (by simp)
  · exact List.mem_append_left _ (List.mem_of_getLast? hp)
  · split_ifs at hp ⊢
    exact List.mem_singleton.mpr (Option.some.inj hp).symm
  · split_ifs at hp ⊢
    · exact List.mem_singleton.mpr (Option.some.inj hp).symm
    · exact List.mem_append_left _ (List.mem_of_getLast? hp)

namespace State

/-- The state after a select under handler scope has popped an interpreter. -/
def handlerPopped (s : State) (tipool : ItemPool InterpId) (i : InterpId) (r : Option ReqId) :
    State :=
  { s with
    tipool := Function.update s.tipool i.mip tipool
    next := Function.update s.next i.mip (s.next i.mip + 1)
    interp := Function.update s.interp i
      { s.interp i with
        numRequests := (s.interp i).numRequests + 1, inUse := true, request := r,
        putback := true, thx := true }
    rcfg := r.elim s.rcfg fun r =>
      Function.update s.rcfg r { s.rcfg r with cleanupRegistered := true } }

theorem rcfg_handlerPopped (s : State) (tipool : ItemPool InterpId) (i : InterpId)
    (r : Option ReqId) (q : ReqId) :
    ((s.handlerPopped tipool i r).rcfg q).interp = (s.rcfg q).interp ∧
      ((s.handlerPopped tipool i r).rcfg q).pnotes = (s.rcfg q).pnotes := by
  cases r with
  | none => exact ⟨rfl, rfl⟩
  | some r => by_cases hqr : q = r <;> simp [State.handlerPopped, hqr, Function.update_of_ne]

/-- The state after a select under another scope has popped one and kept it in `p`. -/
def keptPopped (s : State) (tipool : ItemPool InterpId) (i : InterpId) (p : PoolId) : State :=
  { s with
    tipool := Function.update s.tipool i.mip tipool
    next := Function.update s.next i.mip (s.next i.mip + 1)
    interp := Function.update s.interp i
      { s.interp i with
        numRequests := (s.interp i).numRequests + 1, inUse := true, thx := true }
    userdata := Function.update s.userdata p (some i)
    cleanups := (p, .unselect i) :: s.cleanups }

end State

end Select

/-- What a call of `modperl_interp_select` returns, and the state it leaves. -/
inductive Selected (site : Site) (s : State) (caller : Caller) (c : ConnId) (r : Option ReqId)
    (dcfg : InterpScope) : State → InterpId → Source → Prop
  /-- `rcfg->interp` -/
  | rcfg {q : ReqId} {i : InterpId} : r = some q → (s.rcfg q).interp = some i →
      Selected site s caller c r dcfg s i .rcfg
  /-- an interpreter kept in a pool -/
  | found {p : PoolId} {i : InterpId} : (r.bind fun r => (s.rcfg r).interp) = none →
      s.firstKept (site.searched caller c r dcfg) = some (p, i) →
      Selected site s caller c r dcfg s i (.found p)
  /-- a popped interpreter, under handler scope … -/
  | handler {i : InterpId} {tipool : ItemPool InterpId} :
      (r.bind fun r => (s.rcfg r).interp) = none →
      s.firstKept (site.searched caller c r dcfg) = none →
      (s.tipool (site.mip (site.serverOf c r))).pop
        (site.interpPoolCfg (site.mip (site.serverOf c r)))
        ⟨site.mip (site.serverOf c r), s.next (site.mip (site.serverOf c r))⟩ = some (i, tipool) →
      site.scope r (site.serverOf c r) dcfg = .handler →
      i.mip = site.mip (site.serverOf c r) →
      Selected site s caller c r dcfg (s.handlerPopped tipool i r) i (.popped none)
  /-- … and under any other -/
  | kept {i : InterpId} {tipool : ItemPool InterpId} {p : PoolId} :
      (r.bind fun r => (s.rcfg r).interp) = none →
      s.firstKept (site.searched caller c r dcfg) = none →
      (s.tipool (site.mip (site.serverOf c r))).pop
        (site.interpPoolCfg (site.mip (site.serverOf c r)))
        ⟨site.mip (site.serverOf c r), s.next (site.mip (site.serverOf c r))⟩ = some (i, tipool) →
      site.scope r (site.serverOf c r) dcfg ≠ .handler →
      i.mip = site.mip (site.serverOf c r) →
      site.keeper caller c r dcfg = some p →
      Selected site s caller c r dcfg (s.keptPopped tipool i p) i (.popped (some p))

section Select

variable {site : Site} {s s' s₁ : State} {caller : Caller} {r : Option ReqId} {c : ConnId}
  {dcfg : InterpScope} {i : InterpId} {source : Source}

/-- Either nothing changes, or an interpreter that was not in use is popped. -/
theorem Selected.busy (h : Selected site s caller c r dcfg s₁ i source)
    (hpools : PoolsOk s.tipool s.next) :
    (s₁ = s ∧ ∀ kept, source ≠ .popped kept) ∨
      ((∃ kept, source = .popped kept) ∧ ¬s.Busy i ∧ (∀ j, s₁.Busy j ↔ s.Busy j ∨ j = i) ∧
        PoolsOk s₁.tipool s₁.next ∧ s₁.log = s.log) := by
  cases h with
  | rcfg => exact .inl ⟨rfl, by simp⟩
  | found => exact .inl ⟨rfl, by simp⟩
  | @handler i tipool _ _ hpop _ hmip =>
      rw [← hmip] at hpop
      obtain ⟨hfresh, hbusy, hpools'⟩ :=
        hpools.busy_popped hpop (show (s.handlerPopped tipool i r).tipool = _ from rfl) rfl
      exact .inr ⟨⟨_, rfl⟩, hfresh, hbusy, hpools', rfl⟩
  | @kept i tipool p _ _ hpop _ hmip _ =>
      rw [← hmip] at hpop
      obtain ⟨hfresh, hbusy, hpools'⟩ :=
        hpools.busy_popped hpop (show (s.keptPopped tipool i p).tipool = _ from rfl) rfl
      exact .inr ⟨⟨_, rfl⟩, hfresh, hbusy, hpools', rfl⟩

/-- Everything that `modperl_interp_select` can do. -/
theorem select_cases (hpools : PoolsOk s.tipool s.next)
    (h : s.select site r (State.connArg site caller c r) (site.serverOf c r) dcfg =
      some (s', i, source)) : Selected site s caller c r dcfg s' i source := by
  unfold State.select at h
  -- the request config first, then the pools, then the interpreter pool of the server
  cases hrcfg : r.bind fun r => (s.rcfg r).interp with
  | some j =>
      rw [hrcfg] at h
      simp only [Option.some.injEq, Prod.mk.injEq] at h
      obtain ⟨rfl, rfl, rfl⟩ := h
      obtain ⟨q, hq, hinterp⟩ := Option.bind_eq_some_iff.mp hrcfg
      exact .rcfg hq hinterp
  | none =>
      rw [hrcfg] at h
      simp only at h
      rw [show s.firstKept (site.consulted r (State.connArg site caller c r)
        (site.scope r (site.serverOf c r) dcfg)).1 =
          s.firstKept (site.searched caller c r dcfg) from rfl] at h
      cases hkept : s.firstKept (site.searched caller c r dcfg) with
      | some x =>
          obtain ⟨p, j⟩ := x
          rw [hkept] at h
          simp only [Option.some.injEq, Prod.mk.injEq] at h
          obtain ⟨rfl, rfl, rfl⟩ := h
          exact .found hrcfg hkept
      | none =>
          rw [hkept] at h
          simp only [State.interpGet, Option.bind_eq_bind] at h
          obtain ⟨⟨s₁, j⟩, hget, h⟩ := Option.bind_eq_some_iff.mp h
          obtain ⟨⟨j', tipool⟩, hpop, hget⟩ := Option.bind_eq_some_iff.mp hget
          simp only [Option.some.injEq, Prod.mk.injEq] at hget
          obtain ⟨rfl, rfl⟩ := hget
          have hmip := (hpools.pop hpop).1
          simp only at h
          split_ifs at h with hscope
          · simp only [Option.some.injEq, Prod.mk.injEq] at h
            obtain ⟨rfl, rfl, rfl⟩ := h
            have hs' : Selected site s caller c r dcfg (s.handlerPopped tipool j' r) j'
                (.popped none) := .handler hrcfg hkept hpop hscope hmip
            convert hs' using 1
            cases r <;> simp [State.handlerPopped, State.setInterp, State.setRcfg, hmip]
          · obtain ⟨p, hp, h⟩ := Option.bind_eq_some_iff.mp h
            simp only [Option.some.injEq, Prod.mk.injEq] at h
            obtain ⟨rfl, rfl, rfl⟩ := h
            have hs' : Selected site s caller c r dcfg (s.keptPopped tipool j' p) j'
                (.popped (some p)) := .kept hrcfg hkept hpop hscope hmip hp
            convert hs' using 1
            simp [State.keptPopped, State.keepInterp, State.setInterp, hmip]

/-- A response handler stores an interpreter that is to be put back in `rcfg->interp`. -/
def Caller.isResponse : Caller → Bool
  | .responseHandler => true
  | .responseHandlerCgi => true
  | _ => false

/-- What the caller does before the Perl code runs changes `rcfg` and registers the
request cleanup, and nothing else. -/
theorem begin_eq (s : State) (caller : Caller) (r : Option ReqId) (i : InterpId) :
    ∃ rcfg subpools, s.begin caller r i = { s with rcfg := rcfg, subpools := subpools } ∧
      (∀ q, (rcfg q).pnotes = (s.rcfg q).pnotes) ∧
      ∀ q, (rcfg q).interp = if caller.isResponse = true ∧ r = some q ∧
        (s.interp i).putback = true then some i else (s.rcfg q).interp := by
  have hregister : ∃ rcfg subpools,
      s.cleanupRegister r = { s with rcfg := rcfg, subpools := subpools } ∧
        (∀ q, (rcfg q).pnotes = (s.rcfg q).pnotes) ∧ ∀ q, (rcfg q).interp = (s.rcfg q).interp := by
    unfold State.cleanupRegister
    cases r with
    | none => exact ⟨_, _, rfl, fun _ => rfl, fun _ => rfl⟩
    | some r =>
        simp only
        split_ifs
        · exact ⟨_, _, rfl, fun _ => rfl, fun _ => rfl⟩
        · refine ⟨_, _, rfl, fun q => ?_, fun q => ?_⟩ <;>
            by_cases hq : q = r <;> simp [hq, Function.update_of_ne]
  -- a response handler stores an interpreter that is to be put back
  have hresponse : ∀ q, ∃ rcfg subpools,
      (if (s.interp i).putback then s.setRcfg q fun x => { x with interp := some i } else s) =
        { s with rcfg := rcfg, subpools := subpools } ∧
        (∀ q, (rcfg q).pnotes = (s.rcfg q).pnotes) ∧
        ∀ q', (rcfg q').interp = if q = q' ∧ (s.interp i).putback = true then some i
          else (s.rcfg q').interp := by
    intro q
    split_ifs with hputback
    · refine ⟨_, _, rfl, fun q' => ?_, fun q' => ?_⟩ <;>
        by_cases hq : q = q' <;> simp [hq, hputback, Function.update_of_ne, Ne.symm]
    · exact ⟨_, _, rfl, fun _ => rfl, fun q' => by simp [hputback]⟩
  cases caller with
  | handlers => simpa [State.begin, Caller.isResponse] using hregister
  | cleanup => simpa [State.begin, Caller.isResponse] using hregister
  | filter => exact ⟨_, _, rfl, fun _ => rfl, fun q => by simp [Caller.isResponse]⟩
  | reqCleanup => exact ⟨_, _, rfl, fun _ => rfl, fun q => by simp [Caller.isResponse]⟩
  | responseHandler =>
      cases r with
      | none => exact ⟨_, _, rfl, fun _ => rfl, fun q => by simp⟩
      | some q => simpa [State.begin, Caller.isResponse] using hresponse q
  | responseHandlerCgi =>
      cases r with
      | none => exact ⟨_, _, rfl, fun _ => rfl, fun q => by simp⟩
      | some q => simpa [State.begin, Caller.isResponse] using hresponse q

/-- What a caller of `modperl_interp_select` does. -/
theorem enter_eq_some (hpools : PoolsOk s.tipool s.next)
    (h : s.enter site caller c r dcfg = some s') :
    ∃ s₁ i source, Selected site s caller c r dcfg s₁ i source ∧
      s' = ((s₁.record (.select caller r c i source)).begin caller r i).push c
        (.selected caller r i source) := by
  obtain ⟨⟨s₁, i, source⟩, hselect, heq⟩ := Option.bind_eq_some_iff.mp h
  exact ⟨s₁, i, source, select_cases hpools hselect, (Option.some.inj heq).symm⟩

end Select

/-! ## Stacks and cleanups -/

section Lists

variable {α : Type*} {s : State} {c : ConnId} {f : Frame} {p : PoolId} {k : Cleanup}

/-- The first element that passes a test, and the list without it. -/
theorem find?_eraseP {l : List α} {test : α → Bool} {a : α} (h : l.find? test = some a) :
    ∃ pre post, l = pre ++ a :: post ∧ (∀ b ∈ pre, test b = false) ∧
      l.eraseP test = pre ++ post := by
  obtain ⟨htest, pre, post, rfl, hpre⟩ := List.find?_eq_some_iff_append.mp h
  have hpre' : ∀ b ∈ pre, test b = false := fun b hb => by simpa using hpre b hb
  refine ⟨pre, post, rfl, hpre', ?_⟩
  rw [List.eraseP_append_right _ (by simpa using hpre'), List.eraseP_cons_of_pos htest]

theorem top_eq_some (h : s.top c = some f) :
    ∃ pre post, s.frames = pre ++ (c, f) :: post ∧ (∀ x ∈ pre, x.1 ≠ c) ∧
      (s.pop c).frames = pre ++ post := by
  obtain ⟨⟨c', f'⟩, hfind, rfl⟩ := Option.map_eq_some_iff.mp h
  obtain rfl : c' = c := by simpa using List.find?_some hfind
  obtain ⟨pre, post, hsplit, hpre, herase⟩ := find?_eraseP hfind
  exact ⟨pre, post, hsplit, fun x hx => of_decide_eq_false (hpre x hx), herase⟩

theorem mem_of_top (h : s.top c = some f) : (c, f) ∈ s.frames := by
  obtain ⟨pre, post, hsplit, -, -⟩ := top_eq_some h
  simp [hsplit]

theorem frames_perm (h : s.top c = some f) : s.frames.Perm ((c, f) :: (s.pop c).frames) := by
  obtain ⟨pre, post, hsplit, -, hpop⟩ := top_eq_some h
  rw [hsplit, hpop]
  exact List.perm_middle

theorem nextCleanup_eq_some (h : s.nextCleanup p = some k) :
    ∃ pre post, s.cleanups = pre ++ (p, k) :: post ∧ (∀ x ∈ pre, x.1 ≠ p) ∧
      (s.dropCleanup p).cleanups = pre ++ post := by
  obtain ⟨⟨p', k'⟩, hfind, rfl⟩ := Option.map_eq_some_iff.mp h
  obtain rfl : p' = p := by simpa using List.find?_some hfind
  obtain ⟨pre, post, hsplit, hpre, herase⟩ := find?_eraseP hfind
  exact ⟨pre, post, hsplit, fun x hx => of_decide_eq_false (hpre x hx), herase⟩

theorem nextCleanup_eq_none (h : s.nextCleanup p = none) {x : PoolId × Cleanup}
    (hx : x ∈ s.cleanups) : x.1 ≠ p := by
  have hnone : s.cleanups.find? (·.1 = p) = none := by simpa [State.nextCleanup] using h
  simpa using List.find?_eq_none.mp hnone x hx

end Lists

end ModPerl
