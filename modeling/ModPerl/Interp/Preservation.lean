import ModPerl.Interp.Sound

/-!
# Every step keeps the invariant

First the callers of `modperl_interp_select`, then `modperl_interp_unselect`,
then the remaining steps; `Sound.step` puts them together.
-/

namespace ModPerl

open Machine

variable {site : Site} {s s' s₁ : State} {caller : Caller} {r : Option ReqId} {c : ConnId}
  {dcfg : InterpScope} {i : InterpId} {source : Source} {p : PoolId} {f : Frame}
  {except : Option (ReqId × InterpId)}

/-- The interpreter that a call uses. -/
def Frame.interp : Frame → InterpId
  | .selected _ _ i _ => i
  | .unselect i _ _ _ _ => i
  | .reqCleanupDone _ i _ => i
  | .perlCleanup _ i _ => i

/-- A select takes its interpreter from the stack of its own thread, from an intact pool or
from the tipool, and what it keeps it keeps in an intact pool. -/
def State.SelectsIntact (site : Site) (s : State) (caller : Caller) (c : ConnId)
    (r : Option ReqId) (dcfg : InterpScope) : Prop :=
  match r.bind fun r => (s.rcfg r).interp with
  | some _ => ∀ q ∈ r, site.connection q = c
  | none =>
      match s.firstKept (site.searched caller c r dcfg) with
      | some (p, _) => s.Intact p
      | none => site.scope r (site.serverOf c r) dcfg = .handler ∨
          ∀ p ∈ site.keeper caller c r dcfg, s.Intact p

instance : Decidable (s.SelectsIntact site caller c r dcfg) := by
  unfold State.SelectsIntact
  split
  · infer_instance
  · split <;> infer_instance

/-- A select for a request, or connection, all of whose pools are intact. -/
theorem State.selectsIntact_of_chain (hthread : ∀ q, r = some q → site.connection q = c)
    (hintact : ∀ p ∈ site.chain c r, s.Intact p) : s.SelectsIntact site caller c r dcfg := by
  unfold State.SelectsIntact
  split
  · exact hthread
  · split
    · next p i hkept => exact hintact p (searched_subset (firstKept_eq_some hkept).1)
    · exact .inr fun p hp => hintact p (searched_subset (keeper_mem_searched hp))

theorem State.SelectsIntact.congr (h : s.SelectsIntact site caller c r dcfg)
    (hrcfg : s'.rcfg = s.rcfg) (huserdata : s'.userdata = s.userdata)
    (hstatus : s'.status = s.status) : s'.SelectsIntact site caller c r dcfg := by
  simpa only [State.SelectsIntact, firstKept_congr huserdata, hrcfg, State.Intact, hstatus] using h

/-- The call is `modperl_interp_unselect` for the interpreter. -/
def Frame.unselects (f : Frame) (i : InterpId) : Prop := ∃ r p q b, f = .unselect i r p q b

theorem Frame.perl_eq_some (h : f.perl = some i) : f.interp = i ∧ ∀ j, ¬f.unselects j := by
  cases f with
  | selected caller r i source =>
      refine ⟨?_, fun j ⟨_, _, _, _, heq⟩ => by cases heq⟩
      cases caller <;> simp_all [Frame.perl, Frame.interp]
  | perlCleanup =>
      exact ⟨by simpa [Frame.perl, Frame.interp] using h, fun j ⟨_, _, _, _, heq⟩ => by cases heq⟩
  | _ => simp [Frame.perl] at h

namespace Sound

/-! ## Calls use interpreters that are in use -/

/-- Whoever uses an interpreter without releasing it relies on a holder. -/
theorem exists_holder (h : Sound site s) (hf : (c, f) ∈ s.frames)
    (hnot : ∀ j, ¬f.unselects j) :
    (∃ x ∈ s.frames, x.2.holds = some f.interp ∧ ∀ j, ¬x.2.unselects j) ∨
      ∃ x ∈ s.cleanups, x.2.holds = some f.interp := by
  have hstored : f.source = some .rcfg → f.borrows.map Prod.snd = some f.interp →
      ∃ x ∈ s.frames, x.2.holds = some f.interp ∧ ∀ j, ¬x.2.unselects j := by
    intro hsource hborrows
    obtain ⟨r, i, g, hb, hg, hstores⟩ := h.calls.borrowed.exists_stores hf hsource
    rw [hb, Option.map_some, Option.some.injEq] at hborrows
    refine ⟨(c, g), hg, ?_⟩
    rw [← hborrows]
    unfold Frame.stores at hstores
    split at hstores <;> simp_all [Frame.holds, Frame.unselects]
  have hbased : ∀ p, f.based = some (p, f.interp) →
      ∃ x ∈ s.cleanups, x.2.holds = some f.interp :=
    fun p hp => ⟨_, (h.calls.based c f hf p f.interp hp).2, rfl⟩
  -- where the interpreter is from says who holds it
  cases f with
  | selected caller r i source =>
      cases source with
      | rcfg =>
          cases r with
          | none =>
              obtain ⟨r, i, g, hb, -⟩ := h.calls.borrowed.exists_stores hf rfl
              simp [Frame.borrows] at hb
          | some r => exact .inl (hstored rfl rfl)
      | found p => exact .inr (hbased p rfl)
      | popped kept =>
          cases kept with
          | none => exact .inl ⟨_, hf, rfl, hnot⟩
          | some p => exact .inr (hbased p rfl)
  | reqCleanupDone r i source =>
      cases source with
      | rcfg => exact .inl (hstored rfl rfl)
      | found p => exact .inr (hbased p rfl)
      | popped kept =>
          cases kept with
          | none => exact .inl ⟨_, hf, rfl, hnot⟩
          | some p => exact .inr (hbased p rfl)
  | unselect i r p q b => exact absurd ⟨r, p, q, b, rfl⟩ (hnot i)
  | perlCleanup p i j =>
      obtain rfl := h.ledger.calls c p i j hf
      exact .inl ⟨_, hf, rfl, hnot⟩

/-- The interpreter of every call is in use. -/
theorem busy (h : Sound site s) (hf : (c, f) ∈ s.frames) : s.Busy f.interp := by
  by_cases hnot : ∀ j, ¬f.unselects j
  · rcases h.exists_holder hf hnot with ⟨x, hx, hholds, -⟩ | ⟨x, hx, hholds⟩
    · exact h.ledger.busy_of_frame hx hholds
    · exact h.ledger.busy_of_cleanup hx hholds
  · simp only [not_forall, not_not] at hnot
    obtain ⟨j, r, p, q, b, rfl⟩ := hnot
    exact h.ledger.busy_of_frame hf rfl

/-- While a call runs Perl code nobody is in the middle of the final release of its interpreter. -/
theorem running (h : Sound site s) (hrunning : s.running c = some i) :
    s.Busy i ∧ ∀ c r p q b, (c, .unselect i r p q b) ∉ s.frames := by
  obtain ⟨f, htop, hperl⟩ := Option.bind_eq_some_iff.mp hrunning
  obtain ⟨rfl, hnot⟩ := Frame.perl_eq_some hperl
  have hf := mem_of_top htop
  refine ⟨h.busy hf, fun c' r p q b hx => ?_⟩
  have hbusy := h.busy hf
  have haccount := h.ledger.account f.interp
  rw [if_pos hbusy, h.ledger.final _ _ _ _ _ _ hx] at haccount
  -- the holder that the call relies on and the releasing call are two
  simp only [State.holders, List.count_append, List.count_nil] at haccount
  rcases h.exists_holder hf hnot with ⟨y, hy, hholds, hynot⟩ | ⟨y, hy, hholds⟩
  · have hne : y ≠ (c', .unselect f.interp r p q b) := by
      rintro rfl
      exact hynot _ ⟨r, p, q, b, rfl⟩
    have := two_le_count_filterMap (f := fun x : ConnId × Frame => x.2.holds) hy hx hne hholds rfl
    omega
  · have h₁ : 0 < (s.frames.filterMap (·.2.holds)).count f.interp :=
      List.count_pos_iff.mpr (List.mem_filterMap.mpr ⟨_, hx, rfl⟩)
    have h₂ : 0 < (s.cleanups.filterMap (·.2.holds)).count f.interp :=
      List.count_pos_iff.mpr (List.mem_filterMap.mpr ⟨y, hy, hholds⟩)
    omega

/-! ## Callers of `modperl_interp_select` -/

/-- The part of `enter` after the select. -/
theorem push_selected {e : Event}
    (hledger : Ledger s₁ (Frame.selected caller r i source).holds.toList)
    (hkeeping : Keeping s₁) (hcalls : Calls site s₁ none) (htree : Tree site s₁)
    (howns : source = .popped none → i ∉ s₁.owners)
    (hflagged : source = .popped none → (s₁.interp i).putback = true)
    (hthread : caller.isResponse = true → ∀ q, r = some q → site.connection q = c)
    (hstores : source ≠ .popped none → (s₁.interp i).putback = true → ∀ q, r = some q →
      (s₁.rcfg q).interp = some i)
    (hbased : ∀ p, (Frame.selected caller r i source).based = some (p, i) →
      p ∈ site.chain c r ∧ (p, .unselect i) ∈ s₁.cleanups)
    (hborrowed : source = .rcfg → ∃ q g, r = some q ∧ (c, g) ∈ s₁.frames ∧
      g.stores = some (q, i))
    (honTop : ∀ g, (c, g) ∈ s₁.frames → g.resets = none)
    (hreqCleanup : caller = .reqCleanup → ∀ q, r = some q →
      site.connection q = c ∧ s₁.status (.req q) = .ending) :
    Sound site (((s₁.record e).begin caller r i).push c (.selected caller r i source)) := by
  obtain ⟨rcfg, subpools, heq, -, hrcfg⟩ := begin_eq (s₁.record e) caller r i
  rw [heq]
  change ∀ q, (rcfg q).interp = if caller.isResponse = true ∧ r = some q ∧
    (s₁.interp i).putback = true then some i else (s₁.rcfg q).interp at hrcfg
  set s₂ : State := { s₁.record e with rcfg := rcfg, subpools := subpools }
  -- a response handler that has popped its interpreter stores it only now
  let except : Option (ReqId × InterpId) :=
    if caller.isResponse = true ∧ (s₁.interp i).putback = true ∧ source = .popped none then
      r.map fun q => (q, i)
    else none
  have hcalls₂ : Calls site s₂ except := by
    refine (hcalls.mono except).congr rfl (fun _ _ _ _ _ => rfl) (fun _ _ _ _ _ _ hk => hk)
      (fun q j hq hne => ?_) fun _ _ _ _ _ => rfl
    change (rcfg q).interp = some j at hq
    rw [hrcfg] at hq
    split_ifs at hq with hset
    · obtain rfl := Option.some.inj hq
      by_cases hpopped : source = .popped none
      · exact absurd (by simp [except, hset, hpopped]) hne
      · exact hstores hpopped hset.2.2 q hset.2.1
    · exact hq
  have hledger₂ : Ledger s₂ (Frame.selected caller r i source).holds.toList :=
    hledger.congr rfl rfl rfl rfl rfl rfl
  have hexcept : ∀ q j, some (q, j) = except → caller.isResponse = true ∧ r = some q ∧ i = j ∧
      source = .popped none := by
    intro q j hq
    simp only [except] at hq
    split_ifs at hq with hset
    obtain ⟨q', hr, heq⟩ := Option.map_eq_some_iff.mp hq.symm
    obtain ⟨rfl, rfl⟩ := Prod.mk.inj heq
    exact ⟨hset.1, hr, rfl, hset.2.2⟩
  constructor
  case ledger =>
    refine hledger₂.push (fun j hj => ?_) (fun _ _ _ _ _ hf => by cases hf)
      fun _ _ _ hf => by cases hf
    have : source = .popped none ∧ i = j := by
      unfold Frame.owns at hj
      split at hj <;> simp_all
    exact this.2 ▸ howns this.1
  case keeping =>
    exact hkeeping.congr (fun _ _ => .rfl) rfl rfl fun _ h => h
  case calls =>
    refine hcalls₂.push (fun caller' r' j hf => ?_) (fun p j hf => ?_) (fun hf => ?_)
      (fun q j hq hne => ?_) honTop (fun q hq => ?_) fun q j source' hf => ?_
    · cases hf
      exact hflagged rfl
    · have hj : j = i := by
        unfold Frame.based at hf
        split at hf <;> simp_all
      subst hj
      exact hbased p hf
    · obtain ⟨q, g, rfl, hg, hgs⟩ := hborrowed (by simpa [Frame.source] using hf)
      refine ⟨q, i, g, ?_, hg, hgs⟩
      simp only [Frame.source, Option.some.injEq] at hf
      rw [hf]
      rfl
    · obtain ⟨hresponse, rfl, rfl, rfl⟩ := hexcept q j hne
      refine .inl ?_
      cases caller <;> simp_all [Caller.isResponse, Frame.stores]
    · have hresponse : caller.isResponse = true ∧ r = some q := by
        unfold Frame.clears at hq
        split at hq <;> simp_all [Caller.isResponse]
      exact hthread hresponse.1 q hresponse.2
    · cases hf
      exact hreqCleanup rfl q rfl
  case tree =>
    exact htree.congr rfl rfl

/-- A popped interpreter is kept in no pool. -/
theorem notMem_cleanups (h : Ledger s []) (hi : ¬s.Busy i) (p : PoolId) :
    (p, .unselect i) ∉ s.cleanups :=
  fun hp => hi (h.busy_of_cleanup hp rfl)

/-- A select that pops an interpreter under handler scope. -/
theorem push_handlerPopped (h : Sound site s) {tipool : ItemPool InterpId} {cfg : TipoolConfig}
    {e : Event} (hpop : (s.tipool i.mip).pop cfg ⟨i.mip, s.next i.mip⟩ = some (i, tipool))
    (hthread : caller.isResponse = true → ∀ q, r = some q → site.connection q = c)
    (honTop : ∀ g, (c, g) ∈ s.frames → g.resets = none)
    (hreqCleanup : caller = .reqCleanup → ∀ q, r = some q →
      site.connection q = c ∧ s.status (.req q) = .ending) :
    Sound site ((((s.handlerPopped tipool i r).record e).begin caller r i).push c
      (.selected caller r i (.popped none))) := by
  have hinterp : ∀ j, j ≠ i → (s.handlerPopped tipool i r).interp j = s.interp j :=
    fun j hj => Function.update_of_ne hj _ _
  have hsame : (s.handlerPopped tipool i r).interp i = { s.interp i with
      numRequests := (s.interp i).numRequests + 1, inUse := true, request := r,
      putback := true, thx := true } := Function.update_self _ _ _
  obtain ⟨hledger, howns, hfresh⟩ := h.ledger.popped hpop
    (show (s.handlerPopped tipool i r).tipool = _ from rfl) rfl hinterp (by rw [hsame])
    (by rw [hsame]) rfl rfl rfl
  have hcalls : Calls site (s.handlerPopped tipool i r) none := by
    refine h.calls.congr rfl (fun c caller r j hx => ?_) (fun _ _ _ _ _ _ hk => hk)
      (fun q j hq _ => ?_) fun _ _ _ _ _ => rfl
    · have hj : j ≠ i := fun heq => hfresh (heq ▸ h.busy hx)
      rw [hinterp j hj]
    · rwa [(s.rcfg_handlerPopped tipool i r q).1] at hq
  refine push_selected hledger (h.keeping.handlerPopped (notMem_cleanups h.ledger hfresh)) hcalls
    (h.tree.congr rfl rfl) (fun _ => howns) (fun _ => by rw [hsame]) hthread (fun hne => ?_)
    (fun p hp => ?_) (fun hne => ?_) honTop hreqCleanup
  · exact absurd rfl hne
  · simp [Frame.based] at hp
  · cases hne

theorem chain_ne_custom (hp : p ∈ site.chain c r) (q : PoolId) (k : ℕ) : p ≠ .custom q k := by
  rintro rfl
  cases r <;> simp [Site.chain, Site.above] at hp

/-- A select that pops an interpreter and keeps it in a pool. -/
theorem push_keptPopped (h : Sound site s) {tipool : ItemPool InterpId} {cfg : TipoolConfig}
    {e : Event} (hpop : (s.tipool i.mip).pop cfg ⟨i.mip, s.next i.mip⟩ = some (i, tipool))
    (hp : s.userdata p = none) (hchain : p ∈ site.chain c r) (hintact : s.Intact p)
    (hthread : caller.isResponse = true → ∀ q, r = some q → site.connection q = c)
    (honTop : ∀ g, (c, g) ∈ s.frames → g.resets = none)
    (hreqCleanup : caller = .reqCleanup → ∀ q, r = some q →
      site.connection q = c ∧ s.status (.req q) = .ending) :
    Sound site ((((s.keptPopped tipool i p).record e).begin caller r i).push c
      (.selected caller r i (.popped (some p)))) := by
  -- the state between `modperl_interp_get` and `set_interp`
  let s₁ : State := { s with
    tipool := Function.update s.tipool i.mip tipool
    next := Function.update s.next i.mip (s.next i.mip + 1)
    interp := Function.update s.interp i
      { s.interp i with
        numRequests := (s.interp i).numRequests + 1, inUse := true, thx := true } }
  have hinterp : ∀ j, j ≠ i → s₁.interp j = s.interp j := fun j hj => Function.update_of_ne hj _ _
  have hsame : s₁.interp i = { s.interp i with
      numRequests := (s.interp i).numRequests + 1, inUse := true, thx := true } :=
    Function.update_self _ _ _
  obtain ⟨hledger, howns, hfresh⟩ := h.ledger.popped hpop (show s₁.tipool = _ from rfl) rfl hinterp
    (by rw [hsame]) (by rw [hsame]) rfl rfl rfl
  have hflag := (h.ledger.idle i hfresh).2.1
  have hcalls : Calls site (s.keptPopped tipool i p) none := by
    refine h.calls.congr rfl (fun c caller r j hx => ?_)
      (fun _ _ _ _ _ _ hk => List.mem_cons_of_mem _ hk) (fun _ _ hq _ => hq) fun _ _ _ _ _ => rfl
    have hj : j ≠ i := fun heq => hfresh (heq ▸ h.busy hx)
    exact congrArg _ (hinterp j hj)
  have hkeeping : Keeping (s.keptPopped tipool i p) :=
    h.keeping.keptPopped (notMem_cleanups h.ledger hfresh) hflag hp hintact
      (chain_ne_custom hchain)
  refine push_selected (hledger.keepInterp howns) hkeeping hcalls (h.tree.congr rfl rfl)
    (fun hne => by cases hne) (fun hne => by cases hne) hthread (fun _ hputback => ?_)
    (fun p' hp' => ?_) (fun hne => by cases hne) honTop hreqCleanup
  · have : (s₁.interp i).putback = true := hputback
    simp [hsame, hflag] at this
  · simp only [Frame.based, Option.some.injEq, Prod.mk.injEq, and_true] at hp'
    subst hp'
    exact ⟨hchain, List.mem_cons_self⟩

/-- A caller of `modperl_interp_select`. -/
theorem enter (h : Sound site s) (hselects : s.SelectsIntact site caller c r dcfg)
    (hthread : caller.isResponse = true ∨ caller = .reqCleanup →
      ∀ q, r = some q → site.connection q = c)
    (honTop : ∀ g, (c, g) ∈ s.frames → g.resets = none)
    (hreqCleanup : caller = .reqCleanup → ∀ q, r = some q → s.status (.req q) = .ending)
    (hs : s.enter site caller c r dcfg = some s') : Sound site s' := by
  obtain ⟨s₁, i, source, hselect, rfl⟩ := enter_eq_some h.ledger.pools hs
  have hresponse : caller.isResponse = true → ∀ q, r = some q → site.connection q = c :=
    fun heq => hthread (.inl heq)
  have hending : caller = .reqCleanup → ∀ q, r = some q →
      site.connection q = c ∧ s.status (.req q) = .ending :=
    fun heq q hq => ⟨hthread (.inr heq) q hq, hreqCleanup heq q hq⟩
  -- the four sources of an interpreter
  cases hselect with
  | @rcfg q i hr hrcfg =>
      obtain ⟨f, hf, hfr⟩ := h.calls.stored q i hrcfg (by simp)
      subst hr
      simp only [State.SelectsIntact, Option.bind_some, hrcfg] at hselects
      rw [hselects q rfl] at hf
      refine push_selected h.ledger h.keeping h.calls h.tree (by simp) (by simp)
        hresponse (fun _ _ q' hq' => ?_) (by simp [Frame.based]) (fun _ => ?_) honTop hending
      · obtain rfl := Option.some.inj hq'
        exact hrcfg
      · rcases hfr with hfr | ⟨hfr, -⟩
        · exact ⟨q, f, rfl, hf, hfr⟩
        · simp [honTop f hf] at hfr
  | @found p i hnone hkept =>
      obtain ⟨hp, hu⟩ := firstKept_eq_some hkept
      simp only [State.SelectsIntact, hnone, hkept] at hselects
      have hk := h.keeping.userdata p i hu hselects
      refine push_selected h.ledger h.keeping h.calls h.tree (by simp) (by simp)
        hresponse (fun _ hputback => ?_) (fun p' hp' => ?_) (by simp) honTop hending
      · simp [(h.keeping.kept p i hk).2] at hputback
      · simp only [Frame.based, Option.some.injEq, Prod.mk.injEq, and_true] at hp'
        subst hp'
        exact ⟨searched_subset hp, hk⟩
  | @handler i tipool hnone hkept hpop hscope hmip =>
      rw [← hmip] at hpop
      exact h.push_handlerPopped hpop hresponse honTop hending
  | @kept i tipool p hnone hkept hpop hscope hmip hkeeper =>
      rw [← hmip] at hpop
      have hp := keeper_mem_searched hkeeper
      simp only [State.SelectsIntact, hnone, hkept, hscope, false_or] at hselects
      exact h.push_keptPopped hpop (firstKept_eq_none hkept hp) (searched_subset hp)
        (hselects p hkeeper) hresponse honTop hending

/-! ## `modperl_interp_unselect` -/

/-- A putback changes the tipool and the flags of the interpreter. -/
theorem putback_eq (site : Site) (s : State) (i : InterpId) (p : Option PoolId) :
    ∃ tipool next interp log, s.putback site i p =
      { s with tipool := tipool, next := next, interp := interp, log := log } := by
  unfold State.putback
  simp only
  split_ifs
  · exact ⟨_, _, _, _, rfl⟩
  · exact ⟨_, _, _, _, rfl⟩

/-- No call or pool has the interpreter, so its flags may change. -/
theorem calls_of_notMem (hcalls : Calls site s except) (hi : i ∉ s.holders)
    (hother : ∀ j, j ≠ i → s'.interp j = s.interp j) (hframes : s'.frames = s.frames)
    (hcleanups : s'.cleanups = s.cleanups) (hrcfg : s'.rcfg = s.rcfg)
    (hstatus : s'.status = s.status) : Calls site s' except := by
  refine hcalls.congr hframes (fun c caller r j hx => ?_) (fun _ _ _ _ _ _ hk => hcleanups ▸ hk)
    (fun r j hr _ => hrcfg ▸ hr) fun _ _ _ _ _ => by rw [hstatus]
  have hji : j ≠ i := by
    rintro rfl
    exact hi (List.mem_append_left _ (List.mem_append_left _
      (List.mem_filterMap.mpr ⟨_, hx, rfl⟩)))
  rw [hother j hji]

/-- The request config that still names an interpreter which nobody owns is reset. -/
theorem of_resetRcfg (hledger : Ledger s []) (hkeeping : Keeping s) (hcalls : Calls site s except)
    (htree : Tree site s) {reset : Option ReqId} (hreset : except.map Prod.fst = reset) :
    Sound site (s.resetRcfg reset) := by
  refine ⟨?_, ?_, hcalls.resetRcfg hreset, ?_⟩
  · cases reset with
    | none => exact hledger
    | some r => exact hledger.congr rfl rfl rfl rfl rfl rfl
  · cases reset with
    | none => exact hkeeping
    | some r => exact hkeeping.congr (fun _ _ => .rfl) rfl rfl fun _ h => h
  · cases reset with
    | none => exact htree
    | some r => exact htree.congr rfl rfl

/-- The last release. -/
theorem of_putback (hledger : Ledger s [i]) (hrefcnt : (s.interp i).refcnt = 0)
    (hkeeping : Keeping s) (hcalls : Calls site s except) (htree : Tree site s)
    {reset : Option ReqId} (hreset : except.map Prod.fst = reset) {p : Option PoolId} :
    Sound site ((s.putback site i p).resetRcfg reset) := by
  have hledger' : Ledger (s.putback site i p) [] := hledger.putback hrefcnt
  have hinterp := Ledger.interp_putback site s i p
  obtain ⟨tipool, next, interp, log, heq⟩ := putback_eq site s i p
  rw [heq] at hledger' hinterp ⊢
  have hother : ∀ j, j ≠ i → interp j = s.interp j := fun j hj => by
    rw [show interp = _ from hinterp, Function.update_of_ne hj]
  have hcalls' : Calls site { s with
      tipool := tipool, next := next, interp := interp, log := log } except :=
    calls_of_notMem hcalls (hledger.notMem_holders hrefcnt) hother rfl rfl rfl rfl
  have hkeeping' : Keeping { s with
      tipool := tipool, next := next, interp := interp, log := log } := by
    refine hkeeping.congr (fun _ _ => .rfl) rfl rfl fun j hj => ?_
    by_cases hji : j = i
    · subst hji
      simp only [show interp = _ from hinterp, Function.update_self] at hj
      simp at hj
    · rwa [show _ = _ from congrArg Interp.putback (hother j hji)] at hj
  exact of_resetRcfg hledger' hkeeping' hcalls' (htree.congr rfl rfl) hreset

/-- `modperl_interp_unselect` on an interpreter that is owed. -/
theorem of_unselect (hledger : Ledger s [i]) (hkeeping : Keeping s) {reset : Option ReqId}
    (hcalls : Calls site s (reset.map fun q => (q, i))) (htree : Tree site s)
    (hthread : ∀ q, reset = some q → site.connection q = c)
    (honTop : ∀ g, (c, g) ∈ s.frames → g.resets = none) {p : Option PoolId} :
    Sound site (s.unselect site c i p reset) := by
  have hmap : (reset.map fun q => (q, i)).map Prod.fst = reset := by cases reset <;> rfl
  unfold State.unselect
  split_ifs with hrefcnt
  · have hinterp : ∀ j, ((s.setInterp i fun x =>
        { x with refcnt := x.refcnt - 1 }).interp j).putback = (s.interp j).putback := by
      intro j
      by_cases hji : j = i <;> simp [State.setInterp, hji, Function.update_of_ne]
    have hledger' := hledger.decrement hrefcnt
    have hkeeping' : Keeping (s.setInterp i fun x => { x with refcnt := x.refcnt - 1 }) :=
      hkeeping.congr (fun _ _ => .rfl) rfl rfl fun j hj => hinterp j ▸ hj
    have hcalls' : Calls site (s.setInterp i fun x => { x with refcnt := x.refcnt - 1 })
        (reset.map fun q => (q, i)) :=
      hcalls.congr rfl (fun _ _ _ j _ => hinterp j) (fun _ _ _ _ _ _ hk => hk)
        (fun _ _ hr _ => hr) fun _ _ _ _ _ => rfl
    exact of_resetRcfg hledger' hkeeping' hcalls' (htree.congr rfl rfl) hmap
  · rw [not_not] at hrefcnt
    split
    · exact of_putback hledger hrefcnt hkeeping hcalls htree hmap
    · refine ⟨?_, hkeeping.congr (fun _ _ => .rfl) rfl rfl fun _ h => h, ?_, htree.congr rfl rfl⟩
      · refine hledger.push (fun j hj => ?_) (fun j r p q b hf => ?_) fun _ _ _ hf => by cases hf
        · obtain rfl := Option.some.inj hj
          exact hledger.notMem_owners hrefcnt
        · cases hf
          exact hrefcnt
      · refine hcalls.push (fun _ _ _ hf => by cases hf) (fun _ _ hf => by cases hf)
          (fun hf => by cases hf) (fun q j hq hqj => ?_) honTop (fun q hq => hthread q hq)
          fun _ _ _ hf => by cases hf
        obtain ⟨q', hq', heq⟩ := Option.map_eq_some_iff.mp hqj.symm
        obtain ⟨rfl, rfl⟩ := Prod.mk.inj heq
        exact .inr ⟨hq', rfl⟩

/-! ## Pools -/

/-- What the invariant does not read. -/
theorem congr (h : Sound site s) (htipool : s'.tipool = s.tipool) (hnext : s'.next = s.next)
    (hinterp : s'.interp = s.interp) (hrcfg : ∀ r, (s'.rcfg r).interp = (s.rcfg r).interp)
    (huserdata : s'.userdata = s.userdata) (hcleanups : s'.cleanups = s.cleanups)
    (hstatus : s'.status = s.status) (hpools : s'.pools = s.pools) (hframes : s'.frames = s.frames)
    (hleaked : s'.leaked = s.leaked) : Sound site s' where
  ledger := h.ledger.congr htipool hnext hinterp hframes hcleanups hleaked
  keeping := h.keeping.congr (fun _ _ => by rw [hcleanups]) huserdata hstatus
    fun i hi => hinterp ▸ hi
  calls := h.calls.congr hframes (fun _ _ _ i _ => by rw [hinterp])
    (fun _ _ _ _ _ _ hk => hcleanups ▸ hk) (fun r i hr _ => hrcfg r ▸ hr)
    fun _ _ _ _ _ => by rw [hstatus]
  tree := h.tree.congr hstatus hpools

theorem intact_chain (h : Sound site s) (hserves : s.Serves site c r) :
    ∀ p ∈ site.chain c r, s.Intact p := by
  intro p hp
  cases r with
  | none =>
      obtain rfl := List.mem_singleton.mp hp
      exact .inl hserves
  | some r =>
      rcases List.mem_cons.mp hp with rfl | hp
      · exact .inl hserves.2
      · exact h.tree.above (.req r) (by simp [hserves.2]) (by simp [hserves.2]) p hp

/-- A phase, a filter or a response handler begins. -/
theorem enter_of_serves (h : Sound site s) (hcall : s.MayCall c) (hserves : s.Serves site c r)
    (hcaller : caller ≠ .reqCleanup) (hs : s.enter site caller c r dcfg = some s') :
    Sound site s' := by
  have hthread : ∀ q, r = some q → site.connection q = c := by
    rintro q rfl
    exact hserves.1
  exact h.enter (State.selectsIntact_of_chain hthread (h.intact_chain hserves)) (fun _ => hthread)
    (fun g hg => h.calls.resets_of_mayCall hcall hg) (fun heq => absurd heq hcaller) hs

theorem openPool (h : Sound site s) (hunborn : s.status p = .unborn)
    (habove : ∀ q ∈ site.above p, s.Intact q) :
    Sound site ({ s with pools := p :: s.pools }.setStatus p .live) where
  ledger := h.ledger.congr rfl rfl rfl rfl rfl rfl
  keeping := h.keeping.setStatus _ (fun hne => absurd (h.keeping.unborn p hunborn) hne) (by simp)
    (by simp)
  calls := by
    have hcalls : Calls site { s with pools := p :: s.pools } none :=
      h.calls.congr rfl (fun _ _ _ _ _ => rfl) (fun _ _ _ _ _ _ hk => hk) (fun _ _ hr _ => hr)
        fun _ _ _ _ _ => rfl
    refine hcalls.setStatus fun c r i source hx heq => ?_
    have := (h.calls.reqCleanup c r i source hx).2
    rw [← heq, hunborn] at this
    cases this
  tree := h.tree.create habove

/-- A pool that is live, or about to be cleared, is not taken apart yet. -/
theorem setStatus_of_intact {st : PoolStatus} (h : Sound site s)
    (hlive : s.status p = .live ∨ s.status p = .clearing)
    (hst : st = .live ∨ st = .ending ∨ st = .clearing)
    (hclearing : st = .clearing → ∃ q k, p = .custom q k) : Sound site (s.setStatus p st) where
  ledger := h.ledger.congr rfl rfl rfl rfl rfl rfl
  keeping := by
    refine h.keeping.setStatus s.pools (fun _ _ => ?_) hclearing fun heq => ?_
    · rcases hlive with hlive | hlive
      · exact .inl hlive
      · exact .inr (.inr hlive)
    · subst heq
      simp at hst
  calls := by
    refine h.calls.setStatus fun c r i source hx heq => ?_
    have := (h.calls.reqCleanup c r i source hx).2
    rw [← heq] at this
    rcases hlive with hlive | hlive <;> simp [hlive] at this
  tree := by
    refine h.tree.setStatus ?_ ?_ (.inl ?_)
    · rcases hlive with hlive | hlive <;> simp [hlive]
    · rcases hlive with hlive | hlive <;> simp [hlive]
    · simpa [State.Intact, State.setStatus] using hst

end Sound

end ModPerl
