import ModPerl.Interp.Phases
import ModPerl.Interp.Refcount

/-!
# One interpreter for each scope unit

The same scope is in force everywhere: request, subrequest or connection.  Then
the pool in which `modperl_interp_select` keeps a new interpreter, and the pools
in which it looks for one, agree: of the pools searched only that of the scope
unit can have an interpreter (`firstKept_searched`).  So a unit pops one
interpreter, all selects of its members return it, and the destruction of the
pool of the unit puts it back (`one_interp_per_unit`).
-/

namespace ModPerl

open Machine

variable {site : Site} {s s' s₀ s₁ : State} {a : Act} {caller : Caller} {r : Option ReqId}
  {c : ConnId} {dcfg scope : InterpScope} {i j : InterpId} {source : Source} {p P : PoolId}
  {q : ReqId}

/-! ## Scope units -/

/-- The pool of the scope unit of a request, or of a connection: that of the
uppermost main request, of the request itself, or of the connection. -/
def Site.unitPool (site : Site) (scope : InterpScope) (c : ConnId) : Option ReqId → PoolId
  | none => .conn c
  | some r =>
      match scope with
      | .connection => .conn (site.connection r)
      | .request => .req ((site.mains r).getLast?.getD r)
      | _ => .req r

/-- The pool belongs to a scope unit. -/
def Site.IsUnit (site : Site) (scope : InterpScope) : PoolId → Prop
  | .conn _ => scope = .connection
  | .req r => scope = .subrequest ∨ scope = .request ∧ site.mains r = []
  | .custom _ _ => False

/-- The uppermost main request, and no other, has no main request. -/
theorem mains_eq_nil_iff {l : List ReqId} {r m : ReqId} (hl : site.mains r = l) (hm : m ∈ l) :
    site.mains m = [] → l.getLast? = some m := by
  induction l generalizing r with
  | nil => simp at hm
  | cons m₀ rest ih =>
      intro hnil
      have hrest := site.mains_tail r m₀ rest hl
      rcases List.mem_cons.mp hm with rfl | hm
      · rw [hnil] at hrest
        subst hrest
        rfl
      · rw [List.getLast?_cons_of_ne_nil (List.ne_nil_of_mem hm)]
        exact ih hrest hm hnil

theorem mains_getLast {l : List ReqId} {r m : ReqId} (hl : site.mains r = l)
    (hm : l.getLast? = some m) : site.mains m = [] := by
  induction l generalizing r with
  | nil => simp at hm
  | cons m₀ rest ih =>
      have hrest := site.mains_tail r m₀ rest hl
      cases rest with
      | nil =>
          simp only [List.getLast?_singleton, Option.some.injEq] at hm
          exact hm ▸ hrest
      | cons m₁ rest => exact ih hrest (by simpa using hm)

/-- What a select searches under a uniform scope. -/
structure Uniform (site : Site) (scope : InterpScope) (searched : List PoolId)
    (keeper : Option PoolId) (unit : PoolId) : Prop where
  keeper : keeper = some unit
  mem : unit ∈ searched
  isUnit : site.IsUnit scope unit
  others : ∀ p ∈ searched, site.IsUnit scope p → p = unit

/-- The request pools that are searched, unless connection scope is in force. -/
theorem uniform_requestPools (hscope : scope = .request ∨ scope = .subrequest) (q : ReqId) :
    Uniform site scope (site.requestPools q scope ++ [.conn (site.connection q)])
      (site.requestPools q scope).getLast? (site.unitPool scope c (some q)) := by
  have hconn : ¬site.IsUnit scope (.conn (site.connection q)) := by
    rintro rfl
    simp at hscope
  rcases hscope with rfl | rfl
  · cases hmains : site.mains q with
    | nil =>
        have hpools : site.requestPools q .request = [.req q] := by
          simp [Site.requestPools, Site.isSubrequest, hmains]
        have hunit : site.unitPool .request c (some q) = .req q := by
          simp [Site.unitPool, hmains]
        rw [hpools, hunit]
        refine ⟨rfl, by simp, .inr ⟨rfl, hmains⟩, fun p hp hu => ?_⟩
        simp only [List.singleton_append, List.mem_cons, List.not_mem_nil, or_false] at hp
        exact hp.resolve_right fun heq => hconn (heq ▸ hu)
    | cons m rest =>
        obtain ⟨u, hu⟩ : ∃ u, (site.mains q).getLast? = some u :=
          ⟨_, List.getLast?_eq_some_getLast (by simp [hmains])⟩
        have hpools : site.requestPools q .request = (site.mains q).map .req := by
          simp [Site.requestPools, Site.isSubrequest, hmains]
        have hunit : site.unitPool .request c (some q) = .req u := by
          simp [Site.unitPool, hu]
        rw [hpools, hunit]
        refine ⟨by simp [hu], ?_, .inr ⟨rfl, mains_getLast rfl hu⟩, fun p hp hisUnit => ?_⟩
        · simp [List.mem_of_getLast? hu]
        · simp only [List.mem_append, List.mem_map, List.mem_singleton] at hp
          rcases hp with ⟨m', hm', rfl⟩ | rfl
          · rcases hisUnit with hsub | ⟨-, hnil⟩
            · cases hsub
            · have hlast := mains_eq_nil_iff rfl hm' hnil
              rw [Option.some.inj (hlast.symm.trans hu)]
          · exact absurd hisUnit hconn
  · have hpools : site.requestPools q .subrequest = [.req q] := by simp [Site.requestPools]
    rw [hpools]
    refine ⟨rfl, by simp [Site.unitPool], .inl rfl, fun p hp hu => ?_⟩
    simp only [List.singleton_append, List.mem_cons, List.not_mem_nil, or_false] at hp
    exact hp.resolve_right fun heq => hconn (heq ▸ hu)

theorem uniform_searched (hscope : scope = .request ∨ scope = .subrequest ∨ scope = .connection)
    (huniform : ∀ srv, site.interpScope srv = scope) (hdcfg : dcfg = .undef ∨ dcfg = scope)
    (hr : r = none → scope = .connection) :
    Uniform site scope (site.searched caller c r dcfg) (site.keeper caller c r dcfg)
      (site.unitPool scope c r) := by
  -- a directory can only say what the server says
  have hforce : site.scope r (site.serverOf c r) dcfg = scope := by
    cases r with
    | none => exact (hr rfl).symm
    | some q =>
        simp only [Site.scope, huniform]
        rcases hdcfg with rfl | rfl
        · simp
        · rw [if_pos]
          rcases hscope with rfl | rfl | rfl <;> simp
  have hconnection : ∀ c', scope = .connection → Uniform site scope [.conn c'] (some (.conn c'))
      (.conn c') :=
    fun c' hc => ⟨rfl, by simp, hc, fun p hp _ => List.mem_singleton.mp hp⟩
  unfold Site.searched Site.keeper
  rw [hforce]
  cases r with
  | none =>
      obtain rfl := hr rfl
      exact hconnection c rfl
  | some q =>
      by_cases hc : scope = .connection
      · subst hc
        have harg : State.connArg site caller c (some q) = some (site.connection q) := by
          simp only [State.connArg, huniform, if_true, ite_self]
        rw [harg]
        exact hconnection _ rfl
      · have hpools : Uniform site scope _ _ (site.unitPool scope c (some q)) :=
          uniform_requestPools (hscope.imp_right fun h => h.resolve_right hc) q
        have hconsulted : ∀ arg, site.consulted (some q) arg scope =
            (site.requestPools q scope ++ [.conn (site.connection q)],
              (site.requestPools q scope).getLast?) := by
          intro arg
          cases arg <;> simp [Site.consulted, hc]
        rw [hconsulted]
        exact hpools

/-- A select under a uniform scope is answered by the pool of its unit. -/
theorem Uniform.select {U : PoolId}
    (h : Uniform site scope (site.searched caller c r dcfg) (site.keeper caller c r dcfg) U)
    (hkept : Unflagged s) (hunits : ∀ p i, s.userdata p = some i → site.IsUnit scope p)
    (hscope : site.scope r (site.serverOf c r) dcfg ≠ .handler)
    (hselect : Selected site s caller c r dcfg s₁ i source) :
    source = .found U ∧ s.userdata U = some i ∧ s₁ = s ∨
      source = .popped (some U) ∧ s.userdata U = none ∧
        ∃ tipool, s₁ = s.keptPopped tipool i U := by
  cases hselect with
  | rcfg _ hrcfg => simp [hkept.stored] at hrcfg
  | @found p i _ hfound =>
      obtain ⟨hp, hu⟩ := firstKept_eq_some hfound
      obtain rfl := h.others p hp (hunits p i hu)
      exact .inl ⟨rfl, hu, rfl⟩
  | handler _ _ _ hhandler _ => exact absurd hhandler hscope
  | @kept i tipool p _ hnone _ _ _ hkeeper =>
      obtain rfl := Option.some.inj (h.keeper.symm.trans hkeeper)
      exact .inr ⟨rfl, firstKept_eq_none hnone h.mem, tipool, rfl⟩

/-! ## The history of a unit -/

/-- The selects made for the unit that has the pool, the newest first. -/
def State.unitSelects (s : State) (site : Site) (scope : InterpScope) (P : PoolId) :
    List (InterpId × Source) :=
  s.uses.filterMap fun
    | .select _ r c i source => if site.unitPool scope c r = P then some (i, source) else none
    | _ => none

/-- The select has called `modperl_tipool_pop`. -/
def Source.isPopped : Source → Bool
  | .popped _ => true
  | _ => false

/-- How many of them have called `modperl_tipool_pop`. -/
def State.unitPops (s : State) (site : Site) (scope : InterpScope) (P : PoolId) : ℕ :=
  (s.unitSelects site scope P).countP fun x => x.2.isPopped

/-- What the destruction of the pool has put back. -/
def State.poolPutbacks (s : State) (P : PoolId) : List InterpId :=
  s.uses.filterMap fun
    | .putback i (some p) => if p = P then some i else none
    | _ => none

/-- The history of a unit: nothing was selected, the pool keeps the one interpreter that was
popped, or the pool has released it. -/
inductive UnitUse (site : Site) (scope : InterpScope) (s : State) (P : PoolId) : Prop
  | unused : s.unitSelects site scope P = [] → s.poolPutbacks P = [] → s.userdata P = none →
      UnitUse site scope s P
  | kept (i : InterpId) : (∀ x ∈ s.unitSelects site scope P, x.1 = i) →
      s.unitPops site scope P = 1 → s.poolPutbacks P = [] → (P, .unselect i) ∈ s.cleanups →
      UnitUse site scope s P
  | released (i : InterpId) : (∀ x ∈ s.unitSelects site scope P, x.1 = i) →
      s.unitPops site scope P = 1 → s.poolPutbacks P = [i] → 3 ≤ (s.status P).age →
      (∀ j, (P, .unselect j) ∉ s.cleanups) → UnitUse site scope s P

/-- The unit is not concerned. -/
theorem UnitUse.congr (h : UnitUse site scope s P)
    (hselects : s'.unitSelects site scope P = s.unitSelects site scope P)
    (hputbacks : s'.poolPutbacks P = s.poolPutbacks P)
    (huserdata : ∀ i, s'.userdata P = some i → s.userdata P = some i)
    (hcleanups : ∀ i, (P, .unselect i) ∈ s'.cleanups ↔ (P, .unselect i) ∈ s.cleanups)
    (hage : (s.status P).age ≤ (s'.status P).age) : UnitUse site scope s' P := by
  have hpops : s'.unitPops site scope P = s.unitPops site scope P := by
    simp only [State.unitPops, hselects]
  cases h with
  | unused hnil hput hnone =>
      refine .unused (hselects.trans hnil) (hputbacks.trans hput) ?_
      by_contra hne
      obtain ⟨i, hi⟩ := Option.ne_none_iff_exists'.mp hne
      simpa [hnone] using huserdata i hi
  | kept i hall hone hput hmem =>
      exact .kept i (by rwa [hselects]) (hpops.trans hone) (hputbacks.trans hput)
        ((hcleanups i).mpr hmem)
  | released i hall hone hput hst hnot =>
      exact .released i (by rwa [hselects]) (hpops.trans hone) (hputbacks.trans hput)
        (hst.trans hage) fun j hj => hnot j ((hcleanups j).mp hj)

/-! ## The invariant -/

/-- The scope is the same everywhere, connection-level handlers and filters run under connection
scope only, and no reference is left when a pool releases its interpreter. -/
def UnitOk (site : Site) (scope : InterpScope) (s : State) (a : Act) : Prop :=
  (match s.selecting site a with
    | some (_, _, r, dcfg) => (dcfg = .undef ∨ dcfg = scope) ∧ (r = none → scope = .connection)
    | none => True) ∧
  match a with
  | .runCleanup p =>
      match s.nextCleanup p with
      | some (.unselect i) => (s.interp i).refcnt = 0
      | _ => True
  | _ => True

instance : DecidableRel (UnitOk site scope) := fun s a =>
  decidable_of_iff ((∀ x ∈ s.selecting site a,
      (x.2.2.2 = .undef ∨ x.2.2.2 = scope) ∧ (x.2.2.1 = none → scope = .connection)) ∧
      (match a with
        | .runCleanup p =>
            match s.nextCleanup p with
            | some (.unselect i) => decide ((s.interp i).refcnt = 0)
            | _ => true
        | _ => true) = true) <| by
    unfold UnitOk
    refine and_congr ?_ ?_
    · cases s.selecting site a <;> simp
    · cases a with
      | runCleanup p =>
          dsimp only
          split <;> simp
      | _ => simp

/-- The invariant of a run under a uniform scope. -/
structure InUnits (site : Site) (scope : InterpScope) (s : State) : Prop where
  phased : Phased site s
  userdata : ∀ p i, s.userdata p = some i → site.IsUnit scope p
  kept : ∀ p i, (p, .unselect i) ∈ s.cleanups → s.status p ≠ .ended
  apool : ∀ p i j, (p, .apool i j) ∈ s.cleanups → ∃ q n, p = .custom q n
  units : ∀ P, site.IsUnit scope P → UnitUse site scope s P

/-- The destruction of the pool runs `modperl_interp_unselect`, and nobody else refers to the
interpreter. -/
theorem runCleanup_unselect (h : Unflagged s)
    (hs : step site s (.runCleanup p) = some s') (hnext : s.nextCleanup p = some (.unselect i))
    (hrefcnt : (s.interp i).refcnt = 0) :
    ∃ s₀, s₀.cleanups = (s.dropCleanup p).cleanups ∧ Calm s s₀ ∧
      (s.status p = .clearing ∨ 3 ≤ (s₀.status p).age) ∧ s' = s₀.putback site i (some p) := by
  obtain ⟨k, hk, hs⟩ := Option.bind_eq_some_iff.mp hs
  obtain rfl := Option.some.inj (hk.symm.trans hnext)
  have hunselect : ∀ s₀ : State, s₀.interp = s.interp →
      s₀.runCleanup site p (.unselect i) = s₀.putback site i (some p) := by
    intro s₀ hinterp
    simp only [State.runCleanup, State.unselect, hinterp, hrefcnt, h.request, State.resetRcfg,
      ne_eq, not_true_eq_false, if_false]
  have hdrop := Calm.dropCleanup s p
  split_ifs at hs
  split at hs
  · next hstatus =>
      refine ⟨(s.dropCleanup p).setStatus p .cleaning, rfl, hdrop.trans (Calm.setStatus _ ?_),
        .inr ?_, (Option.some.inj hs).symm.trans (hunselect _ rfl)⟩
      · simp [State.dropCleanup, hstatus, PoolStatus.age]
      · simp [State.setStatus, PoolStatus.age]
  · next hstatus =>
      refine ⟨s.dropCleanup p, rfl, hdrop, .inr ?_,
        (Option.some.inj hs).symm.trans (hunselect _ rfl)⟩
      simp [State.dropCleanup, hstatus, PoolStatus.age]
  · next hstatus =>
      exact ⟨s.dropCleanup p, rfl, hdrop, .inl hstatus,
        (Option.some.inj hs).symm.trans (hunselect _ rfl)⟩
  · cases hs

/-- A cleanup that releases no kept interpreter leaves those that do. -/
theorem Cleaned.unselect_iff (h : Cleaned site s a s') (ha : s.selecting site a = none)
    (hrun : ∀ i, ¬(a = .runCleanup P ∧ s.nextCleanup P = some (.unselect i))) :
    ∀ i, (P, .unselect i) ∈ s'.cleanups ↔ (P, .unselect i) ∈ s.cleanups := by
  intro i
  cases h with
  | same hsame => rw [hsame.1]
  | kept ha' => simp [ha] at ha'
  | registered hk hcleanups _ =>
      rw [hcleanups]
      rcases hk with rfl | ⟨rfl, -⟩ <;> simp
  | pnotes _ _ _ hcleanups _ =>
      rw [hcleanups]
      simp
  | @run p k ha' hnext _ _ hcleanups _ =>
      obtain ⟨pre, post, hsplit, -, hdrop⟩ := nextCleanup_eq_some hnext
      have hne : (P, Cleanup.unselect i) ≠ (p, k) := by
        rintro heq
        obtain ⟨rfl, rfl⟩ := Prod.mk.inj heq
        exact hrun i ⟨ha', hnext⟩
      rw [hcleanups, hdrop, hsplit]
      simp [hne]

namespace InUnits

theorem start : InUnits site scope (.start site) where
  phased := .start
  userdata := by simp [State.start]
  kept := by simp [State.start]
  apool := by simp [State.start]
  units P _ := .unused rfl rfl rfl

/-- What a select adds to the history of its unit. -/
theorem select_unit {U : PoolId} (h : UnitUse site scope s U) (hkeeping : Keeping s)
    (hintact : s.Intact U) (hU : site.unitPool scope c r = U) (hbefore : Before s s₀)
    (hsource : source = .found U ∧ s₀.userdata U = some i ∧ s₁ = s₀ ∨
      source = .popped (some U) ∧ s₀.userdata U = none ∧
        ∃ tipool, s₁ = s₀.keptPopped tipool i U)
    (huses : s'.uses = .select caller r c i source :: s.uses)
    (hcleanups : s'.cleanups = s₁.cleanups) : UnitUse site scope s' U := by
  have hselects : s'.unitSelects site scope U = (i, source) :: s.unitSelects site scope U := by
    simp [State.unitSelects, huses, hU]
  have hputbacks : s'.poolPutbacks U = s.poolPutbacks U := by
    simp [State.poolPutbacks, huses]
  have hpops : s'.unitPops site scope U = s.unitPops site scope U +
      if source.isPopped then 1 else 0 := by
    rw [State.unitPops, hselects, List.countP_cons]
    rfl
  cases h with
  | unused hnil hput hnone =>
      rcases hsource with ⟨-, hsome, -⟩ | ⟨rfl, -, tipool, rfl⟩
      · rw [hbefore.userdata, hnone] at hsome
        cases hsome
      · refine .kept i ?_ ?_ (hputbacks.trans hput) ?_
        · simp [hselects, hnil]
        · rw [hpops, State.unitPops, hnil]
          rfl
        · rw [hcleanups]
          exact List.mem_cons_self
  | kept j hall hone hput hmem =>
      obtain ⟨hu, -⟩ := hkeeping.kept U j hmem
      rw [← hbefore.userdata] at hu
      rcases hsource with ⟨rfl, hsome, rfl⟩ | ⟨-, hnone, -⟩
      · obtain rfl := Option.some.inj (hsome.symm.trans hu)
        refine .kept i ?_ ?_ (hputbacks.trans hput) ?_
        · rw [hselects]
          exact List.forall_mem_cons.mpr ⟨rfl, hall⟩
        · rw [hpops, hone]
          rfl
        · rw [hcleanups, hbefore.cleanups]
          exact hmem
      · simp [hu] at hnone
  | released j _ _ _ hst _ =>
      rcases hintact with h | h | h <;> simp [h, PoolStatus.age] at hst

/-- The pool releases the interpreter of its unit. -/
theorem release_unit (h : InUnits site scope s) (hsound' : Sound site s')
    (hP : site.IsUnit scope P) (hs : step site s (.runCleanup P) = some s')
    (hnext : s.nextCleanup P = some (.unselect i)) (hrefcnt : (s.interp i).refcnt = 0) :
    UnitUse site scope s' P := by
  have hkeeping := h.phased.sound.keeping
  have hpools := h.phased.sound.ledger.pools
  obtain ⟨s₀, hcleanups, hcalm, hold, rfl⟩ :=
    runCleanup_unselect h.phased.kept.toUnflagged hs hnext hrefcnt
  obtain ⟨pre, post, hsplit, -, hdrop⟩ := nextCleanup_eq_some hnext
  have hmem : (P, Cleanup.unselect i) ∈ s.cleanups := by simp [hsplit]
  have hbusy₀ : s₀.Busy i :=
    (busy_calm hcalm).mpr (h.phased.sound.ledger.busy_of_cleanup hmem rfl)
  have hpools₀ : PoolsOk s₀.tipool s₀.next := by
    rw [hcalm.tipool, hcalm.next]
    exact hpools
  have hidle : ¬(s₀.putback site i (some P)).Busy i := fun hb =>
    ((hpools₀.busy_putback site (some P) hbusy₀).1 i |>.mp hb).2 rfl
  have huses : (s₀.putback site i (some P)).uses = .putback i (some P) :: s.uses := by
    rw [uses_putback, if_pos hbusy₀, hcalm.uses]
  have hputcleanups : (s₀.putback site i (some P)).cleanups = (s.dropCleanup P).cleanups := by
    obtain ⟨_, _, _, _, heq⟩ := Sound.putback_eq site s₀ i (some P)
    rw [heq]
    exact hcleanups
  have hselects : (s₀.putback site i (some P)).unitSelects site scope P =
      s.unitSelects site scope P := by
    simp [State.unitSelects, huses]
  have hputbacks : (s₀.putback site i (some P)).poolPutbacks P = i :: s.poolPutbacks P := by
    simp [State.poolPutbacks, huses]
  have hold' : 3 ≤ (s₀.status P).age := by
    refine hold.resolve_left fun hst => ?_
    obtain ⟨q, k, rfl⟩ := hkeeping.clearing P hst
    exact hP
  -- another cleanup of the pool would hold the same interpreter, which is idle
  have hnone : ∀ j, (P, Cleanup.unselect j) ∉ (s₀.putback site i (some P)).cleanups := by
    intro j hj
    have hj₀ : (P, Cleanup.unselect j) ∈ s.cleanups := by
      rw [hputcleanups, hdrop] at hj
      rw [hsplit]
      simp only [List.mem_append, List.mem_cons] at hj ⊢
      tauto
    have hij := (hkeeping.kept P j hj₀).1.symm.trans (hkeeping.kept P i hmem).1
    obtain rfl := Option.some.inj hij
    exact hidle (hsound'.ledger.busy_of_cleanup hj rfl)
  cases h.units P hP with
  | unused _ _ hnone => simp [(hkeeping.kept P i hmem).1] at hnone
  | kept j hall hone hput hj =>
      have hij := (hkeeping.kept P j hj).1.symm.trans (hkeeping.kept P i hmem).1
      obtain rfl := Option.some.inj hij
      refine .released j ?_ ?_ ?_ ?_ hnone
      · rwa [hselects]
      · rwa [State.unitPops, hselects]
      · rw [hputbacks, hput]
      · obtain ⟨_, _, _, _, heq⟩ := Sound.putback_eq site s₀ j (some P)
        rw [heq]
        exact hold'
  | released j _ _ _ _ hnot => exact absurd hmem (hnot i)

variable (hscope : scope = .request ∨ scope = .subrequest ∨ scope = .connection)
  (huniform : ∀ srv, site.interpScope srv = scope)

include hscope huniform

/-- No select is made under handler scope. -/
theorem scopedOk (hok : UnitOk site scope s a) : ScopedOk site s a := by
  unfold ScopedOk
  split
  · next caller c r dcfg ha =>
      obtain ⟨hdcfg, -⟩ : (dcfg = .undef ∨ dcfg = scope) ∧ _ := by
        simpa only [UnitOk, ha] using hok.1
      cases r with
      | none => simp [Site.scope]
      | some q =>
          simp only [Site.scope, huniform]
          rcases hscope with rfl | rfl | rfl <;> rcases hdcfg with rfl | rfl <;> simp
  · trivial

/-- A select, made in a step. -/
theorem uniform (hok : UnitOk site scope s a)
    (ha : s.selecting site a = some (caller, c, r, dcfg)) :
    Uniform site scope (site.searched caller c r dcfg) (site.keeper caller c r dcfg)
      (site.unitPool scope c r) := by
  obtain ⟨hdcfg, hr⟩ : (dcfg = .undef ∨ dcfg = scope) ∧ (r = none → scope = .connection) := by
    simpa only [UnitOk, ha] using hok.1
  exact uniform_searched hscope huniform hdcfg hr

/-- A step that selects. -/
theorem step_select (h : InUnits site scope s) (hok : UnitOk site scope s a)
    (hs : ModPerl.step site s a = some s')
    (ha : s.selecting site a = some (caller, c, r, dcfg)) (hbefore : Before s s₀)
    (henter : s₀.enter site caller c r dcfg = some s') :
    (∀ p i, s'.userdata p = some i → site.IsUnit scope p) ∧
      ∀ P, site.IsUnit scope P → UnitUse site scope s' P := by
  have hpools := h.phased.sound.ledger.pools
  obtain ⟨s₁, i, source, hselect, hentered⟩ := enter_cases henter (hbefore.poolsOk hpools)
  have huniform' := uniform hscope huniform hok ha
  have hunits₀ : ∀ p i, s₀.userdata p = some i → site.IsUnit scope p := by
    rw [hbefore.userdata]
    exact h.userdata
  have hsource := huniform'.select (h.phased.kept.toUnflagged.calm hbefore.calm) hunits₀
    ((scopedOk hscope huniform hok).scope ha) hselect
  have hintact := (h.phased.kept.chain h.phased.sound hs ha).2 _ (searched_subset huniform'.mem)
  have huses : s'.uses = .select caller r c i source :: s.uses := by
    rw [hentered.uses, ← hbefore.uses]
    rcases hsource with ⟨-, -, rfl⟩ | ⟨-, -, tipool, rfl⟩ <;> rfl
  -- the select is about the pool of its own unit alone
  have hother : ∀ P, P ≠ site.unitPool scope c r → s'.userdata P = s.userdata P ∧
      ∀ j, (P, .unselect j) ∈ s'.cleanups ↔ (P, .unselect j) ∈ s.cleanups := by
    intro P hP
    rw [hentered.userdata, hentered.cleanups, ← hbefore.userdata, ← hbefore.cleanups]
    rcases hsource with ⟨-, -, rfl⟩ | ⟨-, -, tipool, rfl⟩
    · exact ⟨rfl, fun _ => .rfl⟩
    · exact ⟨by simp [State.keptPopped, Function.update_of_ne hP],
        fun j => by simp [State.keptPopped, hP]⟩
  refine ⟨fun p j hp => ?_, fun P hP => ?_⟩
  · by_cases heq : p = site.unitPool scope c r
    · exact heq ▸ huniform'.isUnit
    · exact h.userdata p j ((hother p heq).1 ▸ hp)
  · by_cases heq : P = site.unitPool scope c r
    · subst heq
      exact select_unit (h.units _ hP) h.phased.sound.keeping hintact rfl hbefore hsource huses
        hentered.cleanups
    · refine (h.units P hP).congr ?_ ?_ (fun j hj => (hother P heq).1 ▸ hj) (hother P heq).2
        (step_age hpools hs P)
      · simp [State.unitSelects, huses, Ne.symm heq]
      · simp [State.poolPutbacks, huses]

omit hscope huniform in
/-- A step that does not select, and does not release a kept interpreter. -/
theorem step_quiet (h : InUnits site scope s) (hs : ModPerl.step site s a = some s')
    (ha : s.selecting site a = none)
    (hrun : ∀ i, ¬(a = .runCleanup P ∧ s.nextCleanup P = some (.unselect i)))
    (hP : site.IsUnit scope P) : UnitUse site scope s' P := by
  have hpools := h.phased.sound.ledger.pools
  have hcleanups := (step_cleanups hpools hs).unselect_iff ha hrun
  have hage := step_age hpools hs P
  -- the history has no new event, or one that is not about the unit
  have huses : s'.unitSelects site scope P = s.unitSelects site scope P ∧
      s'.poolPutbacks P = s.poolPutbacks P ∧
      ∀ i, s'.userdata P = some i → s.userdata P = some i := by
    cases step_effect hs with
    | select s₀ ha' => simp [ha] at ha'
    | putback s₀ i pool _ hinfo hcalm hcalm' =>
        have hpool : pool ≠ some P := by
          rintro rfl
          rcases hinfo with ⟨-, hnone | ⟨p, k, hp, ha', hnext, hk⟩⟩ | ⟨c, q, reset, htop⟩
          · cases hnone
          · obtain rfl := Option.some.inj hp
            obtain ⟨_, _, hsplit, -, -⟩ := nextCleanup_eq_some hnext
            cases k with
            | unselect j => exact hrun j ⟨ha', hnext⟩
            | apool j interp =>
                obtain ⟨q, n, rfl⟩ := h.apool P j interp (by simp [hsplit])
                exact hP
            | _ => simp [Cleanup.releasesInterp] at hk
          · exact h.phased.kept.unselect _ _ _ _ _ _ (mem_of_top htop)
        have huses : s'.uses =
            if s₀.Busy i then .putback i pool :: s.uses else s.uses := by
          rw [hcalm'.uses, uses_putback, hcalm.uses]
        obtain ⟨_, _, _, _, heq⟩ := Sound.putback_eq site s₀ i pool
        refine ⟨?_, ?_, fun j hj => hcalm.kept P j ?_⟩
        · rw [State.unitSelects, huses]
          split_ifs <;> rfl
        · rw [State.poolPutbacks, huses]
          split_ifs
          · cases pool with
            | none => rfl
            | some p =>
                exact List.filterMap_cons_none (if_neg fun hp => hpool (congrArg some hp))
          · rfl
        · have := hcalm'.kept P j hj
          rwa [heq] at this
    | leak _ _ hcalm =>
        exact ⟨congrArg (List.filterMap _) hcalm.uses, congrArg (List.filterMap _) hcalm.uses,
          hcalm.kept P⟩
    | calm _ hcalm =>
        exact ⟨congrArg (List.filterMap _) hcalm.uses, congrArg (List.filterMap _) hcalm.uses,
          hcalm.kept P⟩
  exact (h.units P hP).congr huses.1 huses.2.1 huses.2.2 hcleanups hage

omit hscope huniform in
/-- A pool ends after its last cleanup, and none is registered with a pool that has ended. -/
theorem step_kept (h : InUnits site scope s) (hs : ModPerl.step site s a = some s') (p : PoolId)
    (i : InterpId) (hp : (p, .unselect i) ∈ s'.cleanups) : s'.status p ≠ .ended := by
  intro hended
  have hpools := h.phased.sound.ledger.pools
  rcases step_ended hpools hs hended with hold | ⟨-, hnext, heq⟩
  · have hnew : (p, Cleanup.unselect i) ∈ s.cleanups → False := fun hmem => h.kept p i hmem hold
    cases step_cleanups hpools hs with
    | same hsame => exact hnew (hsame.1 ▸ hp)
    | @kept caller c r dcfg s₀ s₁ j p' ha hbefore hselect _ hcleanups _ =>
        rw [hcleanups] at hp
        rcases List.mem_cons.mp hp with heq | hp
        · -- the pool that keeps the interpreter is intact
          obtain ⟨rfl, -⟩ := Prod.mk.inj heq
          cases hselect with
          | kept _ _ _ _ _ hkeeper =>
              have hintact := (h.phased.kept.chain h.phased.sound hs ha).2 _
                (searched_subset (keeper_mem_searched hkeeper))
              simp [State.Intact, hold] at hintact
        · exact hnew hp
    | registered hk hcleanups _ =>
        rw [hcleanups] at hp
        rcases hk with rfl | ⟨rfl, -⟩ <;> exact hnew (by simpa using hp)
    | pnotes _ _ _ hcleanups _ =>
        rw [hcleanups] at hp
        exact hnew (by simpa using hp)
    | run _ _ _ _ hcleanups _ =>
        rw [hcleanups] at hp
        exact hnew (List.mem_of_mem_eraseP hp)
  · exact nextCleanup_eq_none hnext (heq ▸ hp) rfl

omit hscope huniform in
/-- Perl code registers with the pools that it has made. -/
theorem step_apool (h : InUnits site scope s) (hs : ModPerl.step site s a = some s') (p : PoolId)
    (i : InterpId) (j : Option InterpId) (hp : (p, .apool i j) ∈ s'.cleanups) :
    ∃ q n, p = .custom q n := by
  cases step_cleanups h.phased.sound.ledger.pools hs with
  | same hsame => exact h.apool p i j (hsame.1 ▸ hp)
  | kept _ _ _ _ hcleanups _ =>
      rw [hcleanups] at hp
      exact h.apool p i j (by simpa using hp)
  | registered hk hcleanups _ =>
      rw [hcleanups] at hp
      rcases List.mem_cons.mp hp with heq | hp
      · obtain ⟨rfl, rfl⟩ := Prod.mk.inj heq
        rcases hk with hk | ⟨-, hst | hcustom⟩
        · cases hk
        · exact h.phased.sound.keeping.clearing p hst
        · exact hcustom
      · exact h.apool p i j hp
  | pnotes _ _ _ hcleanups _ =>
      rw [hcleanups] at hp
      exact h.apool p i j (by simpa using hp)
  | run _ _ _ _ hcleanups _ =>
      rw [hcleanups] at hp
      exact h.apool p i j (List.mem_of_mem_eraseP hp)

/-- The step lemma. -/
theorem step (h : InUnits site scope s) (hok : UnitOk site scope s a)
    (hs : ModPerl.step site s a = some s') : InUnits site scope s' := by
  have hphased' := h.phased.step (scopedOk hscope huniform hok) hs
  have hkept' := h.step_kept hs
  have hapool' := h.step_apool hs
  by_cases hsel : ∃ caller c r dcfg, s.selecting site a = some (caller, c, r, dcfg)
  · obtain ⟨caller, c, r, dcfg, ha⟩ := hsel
    cases step_effect hs with
    | select s₀ ha' hbefore henter =>
        obtain ⟨huserdata, hunits⟩ :=
          h.step_select hscope huniform hok hs ha' hbefore henter
        exact ⟨hphased', huserdata, hkept', hapool', hunits⟩
    | putback _ _ _ hnone => simp [ha] at hnone
    | leak hnone => simp [ha] at hnone
    | calm hnone => simp [ha] at hnone
  · have ha : s.selecting site a = none := by
      by_contra hne
      obtain ⟨⟨caller, c, r, dcfg⟩, hx⟩ := Option.ne_none_iff_exists'.mp hne
      exact hsel ⟨caller, c, r, dcfg, hx⟩
    refine ⟨hphased', fun p i hp => ?_, hkept', hapool', fun P hP => ?_⟩
    · cases step_effect hs with
      | select s₀ ha' => simp [ha] at ha'
      | putback s₀ j pool _ _ hcalm hcalm' =>
          obtain ⟨_, _, _, _, heq⟩ := Sound.putback_eq site s₀ j pool
          have hp₀ := hcalm'.kept p i hp
          rw [heq] at hp₀
          exact h.userdata p i (hcalm.kept p i hp₀)
      | leak _ _ hcalm => exact h.userdata p i (hcalm.kept p i hp)
      | calm _ hcalm => exact h.userdata p i (hcalm.kept p i hp)
    · by_cases hrun : ∃ i, a = .runCleanup P ∧ s.nextCleanup P = some (.unselect i)
      · obtain ⟨i, rfl, hnext⟩ := hrun
        have hrefcnt : (s.interp i).refcnt = 0 := by
          simpa only [UnitOk, hnext] using hok.2
        exact release_unit h hphased'.sound hP hs hnext hrefcnt
      · exact step_quiet h hs ha (not_exists.mp hrun) hP

end InUnits

/-! ## The last use of an interpreter -/

/-- An interpreter is in use if it was popped after it was put back last. -/
def Traced (s : State) : Prop :=
  ∀ i, s.Busy i ↔ s.uses.findSome? (Event.takes i) = some true

namespace Traced

theorem start : Traced (.start site) := by
  intro i
  simp [State.uses, State.Busy, State.start]

theorem iff_taken (s : State) : Traced s ↔ ∀ i, s.Busy i ↔ (s.taken i).head? = some true := by
  simp only [Traced, State.taken, List.head?_filterMap]

/-- The step lemma. -/
theorem step (h : Traced s) (hpools : PoolsOk s.tipool s.next)
    (hs : ModPerl.step site s a = some s') : Traced s' := by
  rw [iff_taken] at h ⊢
  intro i
  cases (step_moved hpools hs : Moved i s s') with
  | same hbusy htaken => rw [hbusy, htaken, h i]
  | popped hfresh hbusy htaken => simp [htaken, hbusy]
  | putback hbusy hidle htaken => simp [htaken, hidle]

/-- After a putback the interpreter is idle until it is popped again. -/
theorem idle (h : Traced s) {later earlier : List Event}
    (huses : s.uses = later ++ .putback i (some P) :: earlier)
    (hlater : ∀ caller r c kept, Event.select caller r c i (.popped kept) ∉ later) :
    ¬s.Busy i := by
  have hpopped : later.findSome? (Event.takes i) ≠ some true := by
    intro hsome
    obtain ⟨e, he, htakes⟩ := List.exists_of_findSome?_eq_some hsome
    cases e with
    | select caller r c j source =>
        cases source with
        | popped kept =>
            obtain rfl : j = i := by
              by_contra hne
              simp [Event.takes, hne] at htakes
            exact hlater caller r c kept he
        | _ => simp [Event.takes] at htakes
    | putback j p => simp [Event.takes] at htakes
    | _ => simp [Event.takes] at htakes
  rw [h i, huses, List.findSome?_append]
  cases hfirst : later.findSome? (Event.takes i) with
  | none => simp [Event.takes]
  | some b =>
      rw [hfirst] at hpopped
      simpa using hpopped

end Traced

/-! ## Runs -/

/-- The use of a scope unit, whose pool is `P`. -/
structure OneInterpPerUnit (site : Site) (scope : InterpScope) (s : State) (P : PoolId) :
    Prop where
  /-- All selects of the unit have returned the same interpreter. -/
  same : ∀ x ∈ s.unitSelects site scope P, ∀ y ∈ s.unitSelects site scope P, x.1 = y.1
  /-- The first of them has popped it, and no other has popped one. -/
  popped : s.unitPops site scope P = if s.unitSelects site scope P = [] then 0 else 1
  /-- It stays in use while the pool of the unit lives. -/
  held : s.Intact P → s.poolPutbacks P = [] ∧ ∀ x ∈ s.unitSelects site scope P, s.Busy x.1
  /-- The destruction of the pool has put it back once. -/
  returned : s.status P = .ended →
    s.poolPutbacks P = ((s.unitSelects site scope P).head?.map Prod.fst).toList
  /-- From then on it is idle, as long as nobody pops it again. -/
  idle : s.status P = .ended → ∀ x ∈ s.unitSelects site scope P, ∃ later earlier,
    s.uses = later ++ .putback x.1 (some P) :: earlier ∧
      ((∀ caller r c kept, Event.select caller r c x.1 (.popped kept) ∉ later) → ¬s.Busy x.1)

/-- What the pool has put back is in the history. -/
theorem mem_poolPutbacks : i ∈ s.poolPutbacks P ↔ Event.putback i (some P) ∈ s.uses := by
  simp only [State.poolPutbacks, List.mem_filterMap]
  constructor
  · intro h
    obtain ⟨e, he, heq⟩ := h
    split at heq
    · next j p =>
        obtain ⟨rfl, rfl⟩ : p = P ∧ j = i := by simpa using heq
        exact he
    · cases heq
  · intro he
    exact ⟨_, he, if_pos rfl⟩

theorem UnitUse.oneInterp (h : UnitUse site scope s P) (hsound : Sound site s)
    (htraced : Traced s) (hkept : ∀ i, (P, .unselect i) ∈ s.cleanups → s.status P ≠ .ended) :
    OneInterpPerUnit site scope s P := by
  have hne : s.unitPops site scope P = 1 → s.unitSelects site scope P ≠ [] := by
    intro hone hnil
    simp [State.unitPops, hnil] at hone
  cases h with
  | unused hnil hput hnone =>
      refine ⟨?_, ?_, fun _ => ⟨hput, ?_⟩, fun _ => ?_, fun _ => ?_⟩ <;>
        simp [State.unitPops, hnil, hput]
  | kept i hall hone hput hmem =>
      refine ⟨fun x hx y hy => (hall x hx).trans (hall y hy).symm, ?_, fun _ => ⟨hput, ?_⟩,
        fun hended => absurd hended (hkept i hmem), fun hended => absurd hended (hkept i hmem)⟩
      · rw [hone, if_neg (hne hone)]
      · intro x hx
        rw [hall x hx]
        exact hsound.ledger.busy_of_cleanup hmem rfl
  | released i hall hone hput hage _ =>
      refine ⟨fun x hx y hy => (hall x hx).trans (hall y hy).symm, ?_, fun hintact => ?_,
        fun _ => ?_, fun _ x hx => ?_⟩
      · rw [hone, if_neg (hne hone)]
      · rcases hintact with h | h | h <;> simp [h, PoolStatus.age] at hage
      · obtain ⟨x, hx⟩ := List.exists_mem_of_ne_nil _ (hne hone)
        cases hselects : s.unitSelects site scope P with
        | nil => simp [hselects] at hx
        | cons y ys =>
            rw [hput, ← hall y (hselects ▸ List.mem_cons_self)]
            rfl
      · have hmem : i ∈ s.poolPutbacks P := by simp [hput]
        obtain ⟨later, earlier, huses⟩ := List.append_of_mem (mem_poolPutbacks.mp hmem)
        rw [hall x hx]
        exact ⟨later, earlier, huses, htraced.idle huses⟩

/-- In every run under a uniform scope each unit has one interpreter, popped
once, and put back once by the destruction of the pool of the unit. -/
theorem one_interp_per_unit
    (hscope : scope = .request ∨ scope = .subrequest ∨ scope = .connection)
    (huniform : ∀ srv, site.interpScope srv = scope)
    (h : Reachable (step site) (UnitOk site scope) (.start site) s) (c : ConnId)
    (r : Option ReqId) (hr : r = none → scope = .connection) :
    OneInterpPerUnit site scope s (site.unitPool scope c r) := by
  have hinv : InUnits site scope s ∧ Traced s :=
    h.invariant (I := fun s => InUnits site scope s ∧ Traced s) ⟨.start, .start⟩
      fun _ _ _ _ hi hok hs =>
        ⟨hi.1.step hscope huniform hok hs, hi.2.step hi.1.phased.sound.ledger.pools hs⟩
  obtain ⟨hunits, htraced⟩ := hinv
  have hunit : site.IsUnit scope (site.unitPool scope c r) :=
    (uniform_searched hscope huniform (.inl rfl) hr : Uniform site scope
      (site.searched .handlers c r .undef) _ _).isUnit
  exact (hunits.units _ hunit).oneInterp hunits.phased.sound htraced fun i hi =>
    hunits.kept _ i hi

/-- Every request but the first is a sub-request of the one before it. -/
def nested (scope : InterpScope) : Site where
  mip _ := 0
  interpScope _ := scope
  enable _ := true
  interpPoolCfg _ := .default
  baseServer _ := 0
  connection _ := 0
  server _ := 0
  mains r := (List.range r).reverse
  mains_tail r m rest h := by
    cases r with
    | zero => simp at h
    | succ r =>
        rw [List.range_succ, List.reverse_append, List.reverse_singleton,
          List.singleton_append, List.cons.injEq] at h
        exact h.1 ▸ h.2
  mains_connection _ _ _ := rfl
  mains_server _ _ _ := rfl

/-- The first select comes from a sub-request, the next from the main request; the
pool of the main request is destroyed. -/
theorem one_interp_per_unit_nested : ∃ s : State,
    OneInterpPerUnit (nested .request) .request s ((nested .request).unitPool .request 0 (some 1)) ∧
      (nested .request).unitPool .request 0 (some 1) = .req 0 ∧ s.status (.req 0) = .ended ∧
      s.unitSelects (nested .request) .request (.req 0) = [(⟨0, 0⟩, .found (.req 0)),
        (⟨0, 0⟩, .found (.req 0)), (⟨0, 0⟩, .found (.req 0)),
        (⟨0, 0⟩, .popped (some (.req 0)))] := by
  obtain ⟨s, hs, hended, hselects⟩ : ∃ s : State,
      Reachable (step (nested .request)) (UnitOk (nested .request) .request)
        (.start (nested .request)) s ∧ s.status (.req 0) = .ended ∧
        s.unitSelects (nested .request) .request (.req 0) = [(⟨0, 0⟩, .found (.req 0)),
          (⟨0, 0⟩, .found (.req 0)), (⟨0, 0⟩, .found (.req 0)),
          (⟨0, 0⟩, .popped (some (.req 0)))] :=
    Reachable.exists_of_run (show runOk _ _ _ [.openPool (.conn 0), .openPool (.req 0),
      .openPool (.req 1), .handlers 0 (some 1) true .undef, .leave 0,
      .handlers 0 (some 0) true .request, .leave 0, .endPool (.req 1), .reqCleanup 1 .undef,
      .requestCleanup 0 false .undef, .cleanedUp 0, .endedPool (.req 1), .endPool (.req 0),
      .reqCleanup 0 .undef, .requestCleanup 0 false .undef, .cleanedUp 0, .runCleanup (.req 0),
      .endedPool (.req 0)] by decide +kernel) (by decide +kernel)
  exact ⟨s, one_interp_per_unit (.inl rfl) (fun _ => rfl) hs 0 (some 1) (by simp), by decide,
    hended, hselects⟩

end ModPerl
