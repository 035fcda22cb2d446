import ModPerl.Interp.Preservation

/-!
# The step lemma

The remaining steps one after the other, then `Sound.step` and what it gives for
whole runs.
-/

namespace ModPerl

open Machine

variable {site : Site} {s s' : State} {caller : Caller} {r : Option ReqId} {c : ConnId}
  {dcfg : InterpScope} {i : InterpId} {source : Source} {p : PoolId} {f g : Frame}
  {k : Cleanup} {q : ReqId}

namespace State

variable (s)

theorem setStatus_self : s.setStatus p (s.status p) = s := by
  simp only [State.setStatus, Function.update_eq_self]

theorem leaveSelected_of_not (h : (s.interp i).putback = false) :
    s.leaveSelected site c caller r i = s := by
  unfold State.leaveSelected
  exact if_neg (by simp [h])

theorem addRef_of_thx (h : (s.interp i).thx = true) :
    s.addRef i = (s.setInterp i fun x => { x with refcnt := x.refcnt + 1 }, some i) :=
  if_pos h

end State

namespace Ledger

/-- A cleanup that keeps nothing is registered. -/
theorem cons (h : Ledger s []) (hholds : k.holds = none) (howns : k.owns = none)
    (hdata : k.perlData = none) : Ledger { s with cleanups := (p, k) :: s.cleanups } [] := by
  constructor
  case pools =>
    exact h.pools
  case account =>
    intro i
    refine Eq.trans ?_ (h.account i)
    simp only [State.holders, List.count_append, count_filterMap_cons, hholds, Option.toList_none,
      List.count_nil]
    omega
  case idle =>
    exact h.idle
  case thx =>
    exact h.thx
  case owners =>
    have heq : ({ s with cleanups := (p, k) :: s.cleanups } : State).owners = s.owners := by
      simp only [State.owners]
      rw [List.filterMap_cons_none (by exact howns)]
    rw [heq]
    exact h.owners
  case final =>
    exact h.final
  case data =>
    intro x hx i j hij
    rcases List.mem_cons.mp hx with rfl | hx
    · simp [hdata] at hij
    · exact h.data x hx i j hij
  case calls =>
    exact h.calls

/-- What the innermost call owned has no other owner. -/
theorem notMem_owners_pop (h : Ledger s []) (htop : s.top c = some f) (hf : f.owns = some i) :
    i ∉ (s.pop c).owners := by
  obtain ⟨pre, post, hsplit, -, hpop⟩ := top_eq_some htop
  have howners := h.owners
  have hperm : s.owners.Perm (i :: (s.pop c).owners) := by
    have hsplit' : ((pre ++ (c, f) :: post).filterMap (·.2.owns)).Perm
        (f.owns.toList ++ (pre ++ post).filterMap (·.2.owns)) := perm_filterMap_split
    simp only [hf, Option.toList_some, List.singleton_append] at hsplit'
    simp only [State.owners, hpop, hsplit]
    exact (hsplit'.append_right _).append_right _
  exact (List.nodup_cons.mp (hperm.nodup_iff.mp howners)).1

end Ledger

namespace Keeping

/-- A pool that has no cleanups left forgets its interpreter. -/
theorem forget (h : Keeping s) (hnone : s.nextCleanup p = none) :
    Keeping { s with userdata := Function.update s.userdata p none } where
  kept q i hq := by
    have hqp : q ≠ p := nextCleanup_eq_none hnone hq
    simpa only [Function.update_of_ne hqp] using h.kept q i hq
  userdata q i hu hq := by
    by_cases hqp : q = p
    · subst hqp
      simp at hu
    · simp only [Function.update_of_ne hqp] at hu
      exact h.userdata q i hu hq
  custom q k := by
    by_cases hqp : PoolId.custom q k = p
    · subst hqp
      simp
    · simpa only [Function.update_of_ne hqp] using h.custom q k
  clearing := h.clearing
  unborn q hq := by
    by_cases hqp : q = p
    · subst hqp
      simp
    · simpa only [Function.update_of_ne hqp] using h.unborn q hq

end Keeping

namespace Supported

variable {frames pre post : List (ConnId × Frame)}

/-- What the innermost call borrows is stored below it. -/
theorem of_split (h : Supported (pre ++ (c, f) :: post)) (hsource : f.source = some .rcfg) :
    ∃ r i g, f.borrows = some (r, i) ∧ (c, g) ∈ pre ++ post ∧ g.stores = some (r, i) := by
  induction pre with
  | nil => exact h.1 hsource
  | cons x pre ih =>
      obtain ⟨r, i, g, hborrows, hg, hstores⟩ := ih h.2
      exact ⟨r, i, g, hborrows, List.mem_cons_of_mem _ hg, hstores⟩

end Supported

/-- Only what was popped under handler scope is held and stored. -/
theorem Frame.selected_holds (h : source ≠ .popped none) :
    (Frame.selected caller r i source).holds = none := by
  cases source with
  | popped kept => cases kept <;> simp_all [Frame.holds]
  | _ => rfl

theorem Frame.selected_stores (h : source ≠ .popped none) :
    (Frame.selected caller r i source).stores = none := by
  unfold Frame.stores
  split <;> simp_all

namespace Sound

theorem start : Sound site (.start site) where
  ledger := by
    have hbusy : ∀ i, ¬(State.start site).Busy i := by simp [State.Busy, State.start]
    exact ⟨.start site, fun i => by rw [if_neg (hbusy i)]; rfl, fun _ _ => ⟨rfl, rfl, rfl⟩,
      fun i hi => absurd hi (hbusy i), by simp [State.owners, State.start],
      by simp [State.start], by simp [State.start], by simp [State.start]⟩
  keeping := ⟨by simp [State.start], by simp [State.start], fun _ _ => rfl,
    by simp [State.start], fun _ _ => rfl⟩
  calls := ⟨by simp [State.start], by simp [State.start], trivial,
    by simp [State.start, ReqConfig.new], .nil, by simp [State.start], by simp [State.start]⟩
  tree := ⟨by simp [State.start], by simp [State.start]⟩

/-- An interpreter is kept in one pool only … -/
theorem kept_unique (h : Sound site s) {p p' : PoolId} (hp : (p, .unselect i) ∈ s.cleanups)
    (hp' : (p', .unselect i) ∈ s.cleanups) : p = p' := by
  by_contra hne
  have hcount : 2 ≤ (s.cleanups.filterMap (·.2.owns)).count i :=
    two_le_count_filterMap hp hp' (by simpa using hne) rfl rfl
  have hnodup : (s.cleanups.filterMap (·.2.owns)).Nodup :=
    (List.nodup_append.mp (List.nodup_append.mp h.ledger.owners).1).2.1
  have hle := List.nodup_iff_count_le_one.mp hnodup i
  omega

/-- … and is in use. -/
theorem busy_of_userdata (h : Sound site s) (hp : s.userdata p = some i) (hintact : s.Intact p) :
    s.Busy i :=
  h.ledger.busy_of_cleanup (h.keeping.userdata p i hp hintact) rfl

/-! ## The cleanups of a pool -/

/-- A cleanup is taken off a pool that no call needs. -/
theorem dropCleanup (h : Sound site s) {st : PoolStatus} (hnext : s.nextCleanup p = some k)
    (hchildless : s.Childless site p) (hunused : s.Unused site p)
    (hst : (s.status p = .ending ∨ s.status p = .cleaning) ∧ st = .cleaning ∨
      s.status p = .clearing ∧ st = .clearing) :
    Ledger ((s.setStatus p st).dropCleanup p) k.holds.toList ∧
      Keeping ((s.setStatus p st).dropCleanup p) ∧
      Calls site ((s.setStatus p st).dropCleanup p) none ∧
      Tree site ((s.setStatus p st).dropCleanup p) := by
  have hborn : s.status p ≠ .unborn ∧ s.status p ≠ .ended := by
    rcases hst with ⟨hst | hst, -⟩ | ⟨hst, -⟩ <;> simp [hst]
  have hcustom : st = .clearing → ∃ q k, p = .custom q k := by
    rintro rfl
    exact h.keeping.clearing p (by simpa using hst)
  have hkeeping : Keeping (s.setStatus p st) := by
    refine h.keeping.setStatus s.pools (fun _ hst' => ?_) hcustom fun hst' => ?_
    · rcases hst with ⟨-, rfl⟩ | ⟨hst, -⟩
      · simp at hst'
      · exact .inr (.inr hst)
    · simp [hst'] at hst
  have hcalls : Calls site (s.setStatus p st) none := by
    refine h.calls.setStatus ?_
    rintro c' r i source hx rfl
    exact hunused _ hx (by simp [Frame.chain, Site.chain])
  have htree : Tree site (s.setStatus p st) :=
    h.tree.setStatus hborn.1 hborn.2 (.inr hchildless.1)
  refine ⟨(h.ledger.dropCleanup hnext).congr rfl rfl rfl rfl rfl rfl, hkeeping.dropCleanup hnext ?_,
    hcalls.dropCleanup hunused hnext, htree.congr rfl rfl⟩
  by_cases hclearing : st = .clearing
  · obtain ⟨q, k', rfl⟩ := hcustom hclearing
    exact .inr (h.keeping.custom q k')
  · refine .inl ?_
    simp only [hclearing, and_false, or_false] at hst
    simp [State.Intact, State.setStatus, hst.2]

/-- A cleanup of a pool runs. -/
theorem runCleanup (h : Sound site s) {st : PoolStatus} (hnext : s.nextCleanup p = some k)
    (hchildless : s.Childless site p) (hunused : s.Unused site p)
    (hcall : s.MayCall (site.thread p))
    (hst : (s.status p = .ending ∨ s.status p = .cleaning) ∧ st = .cleaning ∨
      s.status p = .clearing ∧ st = .clearing) :
    Sound site (((s.setStatus p st).dropCleanup p).runCleanup site p k) := by
  obtain ⟨hledger, hkeeping, hcalls, htree⟩ := h.dropCleanup hnext hchildless hunused hst
  have honTop : ∀ g, (site.thread p, g) ∈ s.frames → g.resets = none :=
    fun g hg => h.calls.resets_of_mayCall hcall hg
  have hdata := h.ledger.data (p, k) (by
    obtain ⟨pre, post, hsplit, -⟩ := nextCleanup_eq_some hnext
    simp [hsplit])
  set s₁ := (s.setStatus p st).dropCleanup p
  -- a cleanup that holds no interpreter leaves nothing owed
  have hdone : k.holds = none → Sound site s₁ := by
    intro hholds
    rw [hholds] at hledger
    exact ⟨hledger, hkeeping, hcalls, htree⟩
  cases k with
  | unselect i => exact of_unselect hledger hkeeping hcalls htree (by simp) honTop
  | pnotes q i =>
      refine (hdone rfl).congr rfl rfl rfl (fun q' => ?_) rfl rfl rfl rfl rfl rfl
      by_cases hq : q' = q <;>
        simp [State.runCleanup, State.setRcfg, hq, Function.update_of_ne]
  | apool i interp =>
      cases interp with
      | none => exact hdone rfl
      | some j => exact of_unselect hledger hkeeping hcalls htree (by simp) honTop
  | perl i interp =>
      obtain rfl := hdata i interp rfl
      refine ⟨hledger.push (fun _ hj => by cases hj) (fun _ _ _ _ _ hf => by cases hf)
        (fun p' j j' hf => ?_), hkeeping.congr (fun _ _ => .rfl) rfl rfl fun _ h => h,
        hcalls.push (fun _ _ _ hf => by cases hf) (fun _ _ hf => by cases hf)
          (fun hf => by cases hf) (fun _ _ _ hne => by cases hne) honTop (fun _ hf => by cases hf)
          (fun _ _ _ hf => by cases hf), htree.congr rfl rfl⟩
      cases hf
      rfl

/-- `apr_pool_destroy` returns. -/
theorem endedPool (h : Sound site s) (hstatus : s.status p = .ending ∨ s.status p = .cleaning)
    (hnone : s.nextCleanup p = none) (hchildless : s.Childless site p)
    (hunused : s.Unused site p) :
    Sound site ({ s with userdata := Function.update s.userdata p none }.setStatus p .ended) where
  ledger := h.ledger.congr rfl rfl rfl rfl rfl rfl
  keeping := (h.keeping.forget hnone).setStatus s.pools (fun hu => absurd (by simp) hu) (by simp)
    (by simp)
  calls := by
    have hcalls : Calls site { s with userdata := Function.update s.userdata p none } none :=
      h.calls.congr rfl (fun _ _ _ _ _ => rfl) (fun _ _ _ _ _ _ hk => hk) (fun _ _ hr _ => hr)
        fun _ _ _ _ _ => rfl
    refine hcalls.setStatus ?_
    rintro c' r i source hx rfl
    exact hunused _ hx (by simp [Frame.chain, Site.chain])
  tree := by
    have htree : Tree site { s with userdata := Function.update s.userdata p none } :=
      h.tree.congr rfl rfl
    refine htree.setStatus ?_ ?_ (.inr hchildless.1) <;>
      rcases hstatus with hstatus | hstatus <;> simp [hstatus]

/-! ## Perl code -/

/-- Perl code registers a cleanup that keeps its interpreter. -/
theorem register (h : Sound site s) (hrunning : s.running c = some i)
    (hk : k = .apool i (some i) ∨ k = .perl i (some i)) :
    Sound site { s.setInterp i fun x => { x with refcnt := x.refcnt + 1 } with
      cleanups := (p, k) :: s.cleanups } := by
  obtain ⟨hbusy, hfinal⟩ := h.running hrunning
  have hother : ∀ j, j ≠ i → (s.setInterp i fun x => { x with refcnt := x.refcnt + 1 }).interp j =
      s.interp j := fun j hj => Function.update_of_ne hj _ _
  have hsame : (s.setInterp i fun x => { x with refcnt := x.refcnt + 1 }).interp i =
      { s.interp i with refcnt := (s.interp i).refcnt + 1 } := Function.update_self _ _ _
  have hflag : ∀ j, ((s.setInterp i fun x => { x with refcnt := x.refcnt + 1 }).interp j).putback =
      (s.interp j).putback := by
    intro j
    by_cases hji : j = i
    · rw [hji, hsame]
    · rw [hother j hji]
  have hunselect : ∀ q j, (q, Cleanup.unselect j) ∈ (p, k) :: s.cleanups ↔
      (q, Cleanup.unselect j) ∈ s.cleanups := by
    intro q j
    rcases hk with rfl | rfl <;> simp
  constructor
  case ledger =>
    refine h.ledger.register hbusy hfinal ?_ ?_ ?_ rfl rfl hother (by rw [hsame]) (by rw [hsame])
      rfl rfl rfl <;> rcases hk with rfl | rfl <;> rfl
  case keeping =>
    exact h.keeping.congr hunselect rfl rfl fun j hj => hflag j ▸ hj
  case calls =>
    exact h.calls.congr rfl (fun _ _ _ j _ => hflag j)
      (fun _ _ _ _ _ _ hk => (hunselect _ _).mpr hk) (fun _ _ hr _ => hr) fun _ _ _ _ _ => rfl
  case tree =>
    exact h.tree.congr rfl rfl

theorem takeOwnership (h : Sound site s) (hrunning : s.running c = some i) :
    Sound site (s.takeOwnership p i) := by
  have hthx := h.ledger.thx i (h.running hrunning).1
  simp only [State.takeOwnership, s.addRef_of_thx hthx]
  exact h.register hrunning (.inl rfl)

theorem cleanupRegisterPerl (h : Sound site s) (hrunning : s.running c = some i) :
    Sound site (s.cleanupRegisterPerl p i) := by
  have hthx := h.ledger.thx i (h.running hrunning).1
  simp only [State.cleanupRegisterPerl, s.addRef_of_thx hthx]
  exact h.register hrunning (.inr rfl)

theorem pnotes (h : Sound site s) : Sound site (s.pnotes q i) := by
  unfold State.pnotes
  split
  · exact h
  · have hcons : Sound site { s with cleanups := (.req q, .pnotes q i) :: s.cleanups } :=
      ⟨h.ledger.cons rfl rfl rfl, h.keeping.congr (fun _ _ => by simp) rfl rfl fun _ h => h,
        h.calls.congr rfl (fun _ _ _ _ _ => rfl)
          (fun _ _ _ _ _ _ hk => List.mem_cons_of_mem _ hk) (fun _ _ hr _ => hr)
          fun _ _ _ _ _ => rfl,
        h.tree.congr rfl rfl⟩
    refine hcons.congr rfl rfl rfl (fun q' => ?_) rfl rfl rfl rfl rfl rfl
    by_cases hq : q' = q <;> simp [State.setRcfg, hq, Function.update_of_ne]

/-! ## Returning -/

/-- A call returns that holds nothing. -/
theorem pop (h : Sound site s) (htop : s.top c = some f) (hholds : f.holds = none)
    (hclears : f.stores = none) : Sound site (s.pop c) where
  ledger := by
    have hledger := h.ledger.pop htop
    rwa [hholds] at hledger
  keeping := h.keeping.congr (fun _ _ => .rfl) rfl rfl fun _ h => h
  calls := h.calls.pop htop (by simp [hclears]) (by simp [hholds])
  tree := h.tree.congr rfl rfl

/-- A call is replaced by another one that holds the same. -/
theorem replaceTop (h : Sound site s) (htop : s.top c = some f) (hholds : g.holds = f.holds)
    (howns : g.owns = f.owns) (hbased : g.based = f.based)
    (hchain : g.chain site c = f.chain site c)
    (hsource : g.source = some .rcfg → f.source = some .rcfg ∧ g.borrows = f.borrows)
    (hstores : f.stores = none) (hresets : g.resets = f.resets)
    (hclears : ∀ q, g.clears = some q → f.clears = some q)
    (hfinal : ∀ i r p q b, g = .unselect i r p q b → (s.interp i).refcnt = 0)
    (hselected : ∀ caller r i source, g ≠ .selected caller r i source)
    (hperl : ∀ p i j, g ≠ .perlCleanup p i j) : Sound site ((s.pop c).push c g) := by
  obtain ⟨pre, post, hsplit, hpre, hpop⟩ := top_eq_some htop
  have hf := mem_of_top htop
  -- between the two calls nobody answers for the reset of `rcfg`
  let except : Option (ReqId × InterpId) := f.resets.bind fun q => f.holds.map fun i => (q, i)
  have hcalls : Calls site (s.pop c) except := by
    refine h.calls.pop htop (by simp [hstores]) fun q i hq hi => ?_
    simp [except, hq, hi]
  refine ⟨?_, h.keeping.congr (fun _ _ => .rfl) rfl rfl fun _ h => h, ?_, h.tree.congr rfl rfl⟩
  · have hledger := h.ledger.pop htop
    rw [← hholds] at hledger
    refine hledger.push (fun i hi => ?_) hfinal fun p i j hg => absurd hg (hperl p i j)
    exact h.ledger.notMem_owners_pop htop (howns ▸ hi)
  · refine hcalls.push (fun caller r i hg => absurd hg (hselected _ _ _ _)) (fun p i hp => ?_)
      (fun hs => ?_) (fun q i _ hq => .inr ?_) (fun g' hg' => h.calls.resets_of_pop htop hg')
      (fun q hq => h.calls.thread c f hf q (hclears q hq))
      fun r i source hg => absurd hg (hselected _ _ _ _)
    · rw [hchain]
      exact h.calls.based c f hf p i (hbased ▸ hp)
    · obtain ⟨hfs, hborrows⟩ := hsource hs
      have hsupported := h.calls.borrowed
      rw [hsplit] at hsupported
      rw [hborrows, hpop]
      exact hsupported.of_split hfs
    · obtain ⟨q', hq', hqi⟩ := Option.bind_eq_some_iff.mp hq.symm
      obtain ⟨i', hi', heq⟩ := Option.map_eq_some_iff.mp hqi
      obtain ⟨rfl, rfl⟩ := Prod.mk.inj heq
      exact ⟨hresets ▸ hq', hholds ▸ hi'⟩

/-- A call that has popped its interpreter under handler scope puts it back. -/
theorem leave_popped (h : Sound site s)
    (htop : s.top c = some (.selected caller r i (.popped none))) :
    Sound site ((s.pop c).leaveSelected site c caller r i) := by
  have hf := mem_of_top htop
  have hflag : ((s.pop c).interp i).putback = true := h.calls.flagged c caller r i hf
  have hledger : Ledger (s.pop c) [i] := h.ledger.pop htop
  have hkeeping : Keeping (s.pop c) := h.keeping.congr (fun _ _ => .rfl) rfl rfl fun _ h => h
  have htree : Tree site (s.pop c) := h.tree.congr rfl rfl
  have honTop : ∀ g, (c, g) ∈ (s.pop c).frames → g.resets = none :=
    fun g hg => h.calls.resets_of_pop htop hg
  have hcalls : caller.isResponse = false → Calls site (s.pop c) none := by
    intro hcaller
    refine h.calls.pop htop (fun q j hq => ?_) (fun _ _ hq => by cases hq)
    unfold Frame.stores at hq
    split at hq <;> simp_all [Caller.isResponse]
  have hresponse : caller.isResponse = true → Calls site (s.pop c) (r.map fun q => (q, i)) := by
    intro hcaller
    refine h.calls.pop htop (fun q j hq => ?_) (fun _ _ hq => by cases hq)
    cases caller <;> cases r <;> simp_all [Caller.isResponse, Frame.stores]
  unfold State.leaveSelected
  rw [if_pos hflag]
  -- a response handler clears what it has stored in `rcfg`, the CGI one after its unselect
  cases caller with
  | responseHandler =>
      have hreset : Calls site ((s.pop c).resetRcfg r) none :=
        (hresponse rfl).resetRcfg (by cases r <;> rfl)
      refine of_unselect ?_ ?_ hreset ?_ (by simp) fun g hg => honTop g ?_ <;> cases r
      · exact hledger
      · exact hledger.congr rfl rfl rfl rfl rfl rfl
      · exact hkeeping
      · exact hkeeping.congr (fun _ _ => .rfl) rfl rfl fun _ h => h
      · exact htree
      · exact htree.congr rfl rfl
      · exact hg
      · exact hg
  | responseHandlerCgi =>
      refine of_unselect hledger hkeeping (hresponse rfl) htree (fun q hq => ?_) honTop
      exact h.calls.thread c _ hf q hq
  | _ => exact of_unselect hledger hkeeping (hcalls rfl) htree (by simp) honTop

/-- A call whose interpreter a pool keeps does not put it back. -/
theorem putback_of_based (h : Sound site s) (hf : (c, f) ∈ s.frames)
    (hbased : f.based = some (p, i)) : (s.interp i).putback = false :=
  (h.keeping.kept p i (h.calls.based c f hf p i hbased).2).2

/-- `mpxs_cleanup_run` returns. -/
theorem leave_perlCleanup (h : Sound site s) (htop : s.top c = some (.perlCleanup p i (some i))) :
    Sound site ((s.pop c).unselect site c i none none) := by
  have hcalls : Calls site (s.pop c) none :=
    h.calls.pop htop (by simp [Frame.stores]) (by simp [Frame.resets])
  exact of_unselect (h.ledger.pop htop) (h.keeping.congr (fun _ _ => .rfl) rfl rfl fun _ h => h)
    hcalls (h.tree.congr rfl rfl) (by simp) fun g hg => h.calls.resets_of_pop htop hg

/-! ## `modperl_config_request_cleanup` -/

theorem record (h : Sound site s) (e : Event) : Sound site (s.record e) :=
  h.congr rfl rfl rfl (fun _ => rfl) rfl rfl rfl rfl rfl rfl

/-- The end of `modperl_interp_unselect`. -/
theorem unselectRest (h : Sound site s) {pool : Option PoolId} {reset : Option ReqId}
    (htop : s.top c = some (.unselect i q pool reset true)) :
    Sound site ((s.pop c).unselectRest site i q pool reset) := by
  have hledger : Ledger (s.pop c) [i] := h.ledger.pop htop
  have hmap : (reset.map fun q => (q, i)).map Prod.fst = reset := by cases reset <;> rfl
  have hcalls : Calls site (s.pop c) (reset.map fun q => (q, i)) := by
    refine h.calls.pop htop (by simp [Frame.stores]) fun q' j hq hj => ?_
    simp only [Frame.resets, Frame.holds, Option.some.injEq] at hq hj
    rw [hq, hj]
    rfl
  have hledger' : Ledger ((s.pop c).setRcfg q fun x => { x with cleanupRegistered := false }) [i] :=
    hledger.congr rfl rfl rfl rfl rfl rfl
  refine of_putback hledger' (h.ledger.final c i q pool reset true (mem_of_top htop))
    (h.keeping.congr (fun _ _ => .rfl) rfl rfl fun _ h => h) ?_ (h.tree.congr rfl rfl) hmap
  refine hcalls.congr rfl (fun _ _ _ _ _ => rfl) (fun _ _ _ _ _ _ hk => hk) (fun q' j hq _ => ?_)
    fun _ _ _ _ _ => rfl
  by_cases hqq : q' = q
  · subst hqq
    simpa [State.setRcfg] using hq
  · simpa only [State.setRcfg, Function.update_of_ne hqq] using hq

/-- The end of `modperl_config_req_cleanup` under handler scope. -/
theorem leak (h : Sound site s) (htop : s.top c = some (.reqCleanupDone q i (.popped none))) :
    Sound site { s.pop c with leaked := i :: s.leaked } := by
  have hledger : Ledger (s.pop c) [i] := h.ledger.pop htop
  refine ⟨hledger.leak (h.ledger.notMem_owners_pop htop rfl),
    h.keeping.congr (fun _ _ => .rfl) rfl rfl fun _ h => h, ?_, h.tree.congr rfl rfl⟩
  have hcalls : Calls site (s.pop c) none :=
    h.calls.pop htop (by simp [Frame.stores]) (by simp [Frame.resets])
  exact hcalls.congr rfl (fun _ _ _ _ _ => rfl) (fun _ _ _ _ _ _ hk => hk) (fun _ _ hr _ => hr)
    fun _ _ _ _ _ => rfl

end Sound

/-! ## Steps that keep the invariant -/

/-- A call does not put back what it has borrowed; `modperl_interp_unselect` runs no
cleanup handlers while `rcfg->interp` is still set, and not in a pool that is being
destroyed or has ended. -/
def StepOk (site : Site) (s : State) : Act → Prop
  | .leave c =>
      match s.top c with
      | some (.selected _ _ i .rcfg) => (s.interp i).putback = false
      | _ => True
  | .requestCleanup c found dcfg =>
      match s.top c with
      | some (.unselect _ r _ reset false) => found = true → site.enable (site.server r) = true →
          reset = none ∧ s.SelectsIntact site .cleanup c (some r) dcfg
      | _ => True
  | _ => True

/-- A condition on a call that has found its interpreter in `rcfg->interp`. -/
def decidableFound (f : Option Frame) (P : InterpId → Prop) [DecidablePred P] :
    Decidable (match f with
      | some (.selected _ _ i .rcfg) => P i
      | _ => True) :=
  decidable_of_iff ((match f with
      | some (.selected _ _ i .rcfg) => decide (P i)
      | _ => true) = true) (by split <;> simp)

/-- A condition on an unselect that has not yet called the cleanup. -/
def decidableUnselect (f : Option Frame) (P : ReqId → Option ReqId → Prop)
    [∀ r reset, Decidable (P r reset)] :
    Decidable (match f with
      | some (.unselect _ r _ reset false) => P r reset
      | _ => True) :=
  decidable_of_iff ((match f with
      | some (.unselect _ r _ reset false) => decide (P r reset)
      | _ => true) = true) (by split <;> simp)

instance : DecidableRel (StepOk site) := fun s a =>
  decidable_of_iff ((match a with
      | .leave c => @decide _ (decidableFound (s.top c) fun i => (s.interp i).putback = false)
      | .requestCleanup c found dcfg =>
          @decide _ (decidableUnselect (s.top c) fun r reset => found = true →
            site.enable (site.server r) = true →
              reset = none ∧ s.SelectsIntact site .cleanup c (some r) dcfg)
      | _ => true) = true) <| by
    unfold StepOk
    split
    · exact @decide_eq_true_iff _ (decidableFound _ _)
    · exact @decide_eq_true_iff _ (decidableUnselect _ _)
    · simp

namespace Sound

/-- `modperl_config_request_cleanup`, called by `modperl_interp_unselect`. -/
theorem requestCleanup_unselect (h : Sound site s) {pool : Option PoolId} {reset : Option ReqId}
    {found : Bool} (htop : s.top c = some (.unselect i q pool reset false))
    (hok : found = true → site.enable (site.server q) = true →
      reset = none ∧ s.SelectsIntact site .cleanup c (some q) dcfg)
    (hs : ((s.pop c).push c (.unselect i q pool reset true)).requestCleanup site c q found dcfg =
      some s') : Sound site s' := by
  have h₁ : Sound site ((s.pop c).push c (.unselect i q pool reset true)) := by
    refine h.replaceTop htop rfl rfl rfl rfl (by simp [Frame.source]) rfl rfl
      (fun _ hq => hq) (fun i' _ _ _ _ hg => ?_) (by simp) (by simp)
    cases hg
    exact h.ledger.final c i q pool reset false (mem_of_top htop)
  rcases State.requestCleanup_inv hs with ⟨hfound, hs⟩ | ⟨-, rfl⟩
  · obtain ⟨rfl, hselects⟩ := hok hfound.1 hfound.2
    refine (h₁.record _).enter (hselects.congr rfl rfl rfl) (by simp [Caller.isResponse])
      (fun g hg => ?_) (by simp) hs
    rcases List.mem_cons.mp hg with heq | hg
    · obtain ⟨-, rfl⟩ := Prod.mk.inj heq
      rfl
    · exact h.calls.resets_of_pop htop hg
  · exact h₁.record _

/-- The same, called by `modperl_config_req_cleanup`. -/
theorem requestCleanup_reqCleanup (h : Sound site s) {found : Bool}
    (htop : s.top c = some (.selected .reqCleanup (some q) i source))
    (hs : ((s.pop c).push c (.reqCleanupDone q i source)).requestCleanup site c q found dcfg =
      some s') : Sound site s' := by
  have hf := mem_of_top htop
  obtain ⟨hthread, hstatus⟩ := h.calls.reqCleanup c q i source hf
  have h₁ : Sound site ((s.pop c).push c (.reqCleanupDone q i source)) := by
    refine h.replaceTop htop ?_ ?_ ?_ rfl (fun hs => ?_) ?_ rfl (fun _ hq => by cases hq)
      (by simp) (by simp) (by simp)
    · cases source with
      | popped kept => cases kept <;> rfl
      | _ => rfl
    · cases source with
      | popped kept => cases kept <;> rfl
      | _ => rfl
    · cases source with
      | popped kept => cases kept <;> rfl
      | _ => rfl
    · simp only [Frame.source, Option.some.injEq] at hs
      rw [hs]
      exact ⟨rfl, rfl⟩
    · cases source with
      | popped kept => cases kept <;> rfl
      | _ => rfl
  rcases State.requestCleanup_inv hs with ⟨-, hs⟩ | ⟨-, rfl⟩
  · refine (h₁.record _).enter (State.selectsIntact_of_chain (fun q' hq' => ?_) fun p hp => ?_)
      (by simp [Caller.isResponse]) (fun g hg => ?_) (by simp) hs
    · rwa [← Option.some.inj hq']
    · rcases List.mem_cons.mp hp with rfl | hp
      · exact .inr (.inl hstatus)
      · exact h.tree.above (.req q) (by simp [hstatus]) (by simp [hstatus]) p hp
    · rcases List.mem_cons.mp hg with heq | hg
      · obtain ⟨-, rfl⟩ := Prod.mk.inj heq
        rfl
      · exact h.calls.resets_of_pop htop hg
  · exact h₁.record _

/-- A call returns. -/
theorem leaveSelected (h : Sound site s) (hok : StepOk site s (.leave c))
    (htop : s.top c = some (.selected caller r i source)) :
    Sound site ((s.pop c).leaveSelected site c caller r i) := by
  have hkeep : (s.interp i).putback = false → source ≠ .popped none →
      Sound site ((s.pop c).leaveSelected site c caller r i) := by
    intro hflag hsource
    rw [State.leaveSelected_of_not (s.pop c) hflag]
    exact h.pop htop (Frame.selected_holds hsource) (Frame.selected_stores hsource)
  cases source with
  | rcfg =>
      simp only [StepOk, htop] at hok
      exact hkeep hok (by simp)
  | found p => exact hkeep (h.putback_of_based (mem_of_top htop) rfl) (by simp)
  | popped kept =>
      cases kept with
      | none => exact h.leave_popped htop
      | some p => exact hkeep (h.putback_of_based (mem_of_top htop) rfl) (by simp)

/-- The step lemma. -/
theorem step (h : Sound site s) {a : Act} (hok : StepOk site s a)
    (hs : ModPerl.step site s a = some s') : Sound site s' := by
  cases step_inv hs with
  | openPool p hunborn habove =>
      exact h.openPool hunborn fun q hq => .inl (habove q hq)
  | endPool p hlive => exact h.setStatus_of_intact (.inl hlive) (by simp) (by simp)
  | reqCleanup r dcfg hending _ _ hcall henter =>
      have h₁ : Sound site { s with subpools := s.subpools.erase r } :=
        h.congr rfl rfl rfl (fun _ => rfl) rfl rfl rfl rfl rfl rfl
      have hthread : ∀ q, some r = some q → site.connection q = site.connection r :=
        fun q hq => by rw [Option.some.inj hq]
      refine h₁.enter (State.selectsIntact_of_chain hthread fun p hp => ?_) (fun _ => hthread)
        (fun g hg => h.calls.resets_of_mayCall hcall hg) (fun _ q hq => ?_) henter
      · rcases List.mem_cons.mp hp with rfl | hp
        · exact .inr (.inl hending)
        · exact h.tree.above (.req r) (by simp [hending]) (by simp [hending]) p hp
      · rwa [← Option.some.inj hq]
  | firstCleanup p k hnext hchildless hunused hcall hending =>
      exact h.runCleanup hnext hchildless hunused hcall (.inl ⟨.inl hending, rfl⟩)
  | laterCleanup p k hnext hchildless hunused hcall hstatus =>
      have hsame : s.dropCleanup p = (s.setStatus p (s.status p)).dropCleanup p := by
        rw [s.setStatus_self]
      rw [hsame]
      refine h.runCleanup hnext hchildless hunused hcall ?_
      rcases hstatus with hstatus | hstatus
      · exact .inl ⟨.inr hstatus, hstatus⟩
      · exact .inr ⟨hstatus, hstatus⟩
  | endedPool p hstatus hnext hchildless hunused =>
      exact h.endedPool hstatus hnext hchildless hunused
  | handlers c r found dcfg hcall hserves _ henter =>
      exact h.enter_of_serves hcall hserves (by simp) henter
  | noHandlers => exact h
  | filter c r dcfg hcall hserves henter =>
      exact h.enter_of_serves hcall hserves (by simp) henter
  | response r cgi dcfg hcall hserves henter =>
      exact h.enter_of_serves hcall hserves (by cases cgi <;> simp) henter
  | leave c caller r i source htop => exact h.leaveSelected hok htop
  | leavePerl c p perl htop => cases h.ledger.calls c p perl none (mem_of_top htop)
  | leaveInterp c p perl i htop =>
      obtain rfl := Option.some.inj (h.ledger.calls c p perl (some i) (mem_of_top htop))
      exact h.leave_perlCleanup htop
  | unselectCleanup c found dcfg i r p reset htop hcleanup =>
      simp only [StepOk, htop] at hok
      exact h.requestCleanup_unselect htop hok hcleanup
  | subpoolCleanup c found dcfg i r source htop hcleanup =>
      exact h.requestCleanup_reqCleanup htop hcleanup
  | unselectRest c i r p reset htop => exact h.unselectRest htop
  | leak c r i htop => exact h.leak htop
  | subpoolDone c r i source htop hsource =>
      -- only a popped interpreter is held until the end
      refine h.pop htop ?_ rfl
      unfold Frame.holds
      split <;> simp_all
  | pnotes => exact h.pnotes
  | newPool c parent serial i hrunning hunborn hintact =>
      have h₁ := h.openPool hunborn fun q hq => by
        rcases List.mem_cons.mp hq with rfl | hq
        · exact hintact
        · refine h.tree.above parent ?_ ?_ q hq <;>
            rcases hintact with hintact | hintact | hintact <;> simp [hintact]
      exact h₁.takeOwnership hrunning
  | clearPool c parent serial i _ hlive =>
      exact h.setStatus_of_intact (.inl hlive) (by simp) fun _ => ⟨_, _, rfl⟩
  | clearedPool c p i hrunning hclearing =>
      have h₁ : Sound site (s.setStatus p .live) :=
        h.setStatus_of_intact (.inr hclearing) (by simp) (by simp)
      exact h₁.takeOwnership hrunning
  | registerCleanup c p i hrunning => exact h.cleanupRegisterPerl hrunning

/-- The run lemma, for every guard that is strong enough. -/
theorem of_reachable {ok : State → Act → Prop} (himp : ∀ s a, ok s a → StepOk site s a)
    (h : Reachable (ModPerl.step site) ok (.start site) s) : Sound site s :=
  h.invariant .start fun _ _ _ _ hi hok hs => hi.step (himp _ _ hok) hs

end Sound

end ModPerl
