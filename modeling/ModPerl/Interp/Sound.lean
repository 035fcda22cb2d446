import ModPerl.Interp.Ledger

/-!
# Kept, borrowed and released

The invariant that all statements about the use of interpreters rest on.  Beside
the ledger it says where the interpreter of every call comes from: the call has
popped it, a pool that the call needs keeps it, or the call has borrowed it, by
`rcfg->interp`, from a response handler further down its own stack.

`Sound.step` is the step lemma.  Two things are not guaranteed by the code and
are conditions on the step (`StepOk`): that a call does not put back what it has
borrowed, and that `modperl_interp_unselect`, if it runs cleanup handlers at
all, runs them in an interpreter of their own.
-/

namespace ModPerl

/-! ## Where the interpreter of a call comes from -/

def Frame.source : Frame → Option Source
  | .selected _ _ _ source => some source
  | .reqCleanupDone _ _ source => some source
  | _ => none

/-- The pool that keeps the interpreter of the call. -/
def Frame.based : Frame → Option (PoolId × InterpId)
  | .selected _ _ i (.found p) => some (p, i)
  | .selected _ _ i (.popped (some p)) => some (p, i)
  | .reqCleanupDone _ i (.found p) => some (p, i)
  | .reqCleanupDone _ i (.popped (some p)) => some (p, i)
  | _ => none

/-- The request whose `rcfg->interp` the call uses. -/
def Frame.borrows : Frame → Option (ReqId × InterpId)
  | .selected _ (some r) i .rcfg => some (r, i)
  | .reqCleanupDone r i .rcfg => some (r, i)
  | _ => none

/-- A response handler that has popped its interpreter stores it in `rcfg->interp`. -/
def Frame.stores : Frame → Option (ReqId × InterpId)
  | .selected .responseHandler (some r) i (.popped none) => some (r, i)
  | .selected .responseHandlerCgi (some r) i (.popped none) => some (r, i)
  | _ => none

/-- The request whose `rcfg->interp` is reset when the call returns. -/
def Frame.resets : Frame → Option ReqId
  | .unselect _ _ _ reset _ => reset
  | _ => none

/-- The request whose `rcfg->interp` has to be cleared by this call. -/
def Frame.clears : Frame → Option ReqId
  | .selected .responseHandler r _ (.popped none) => r
  | .selected .responseHandlerCgi r _ (.popped none) => r
  | .unselect _ _ _ reset _ => reset
  | _ => none

theorem Frame.clears_of_stores {f : Frame} {r : ReqId} {i : InterpId}
    (h : f.stores = some (r, i) ∨ f.resets = some r ∧ f.holds = some i) : f.clears = some r := by
  rcases h with h | ⟨h, -⟩
  · unfold Frame.stores at h
    split at h <;> simp_all [Frame.clears]
  · unfold Frame.resets at h
    split at h <;> simp_all [Frame.clears]

/-- Below every call that borrows an interpreter there is the response handler
that has stored it. -/
def Supported : List (ConnId × Frame) → Prop
  | [] => True
  | (c, f) :: rest =>
      (f.source = some .rcfg → ∃ r i g, f.borrows = some (r, i) ∧ (c, g) ∈ rest ∧
        g.stores = some (r, i)) ∧ Supported rest

/-! ## The invariant -/

/-- Pools and the interpreters kept in them. -/
structure Keeping (s : State) : Prop where
  kept : ∀ p i, (p, .unselect i) ∈ s.cleanups →
    s.userdata p = some i ∧ (s.interp i).putback = false
  userdata : ∀ p i, s.userdata p = some i → s.Intact p → (p, .unselect i) ∈ s.cleanups
  custom : ∀ q k, s.userdata (.custom q k) = none
  clearing : ∀ p, s.status p = .clearing → ∃ q k, p = .custom q k
  unborn : ∀ p, s.status p = .unborn → s.userdata p = none

/-- The calls and their interpreters; `except` is an entry in `rcfg->interp` that may be stale. -/
structure Calls (site : Site) (s : State) (except : Option (ReqId × InterpId)) : Prop where
  flagged : ∀ c caller r i, (c, .selected caller r i (.popped none)) ∈ s.frames →
    (s.interp i).putback = true
  based : ∀ c f, (c, f) ∈ s.frames → ∀ p i, f.based = some (p, i) →
    p ∈ f.chain site c ∧ (p, .unselect i) ∈ s.cleanups
  borrowed : Supported s.frames
  stored : ∀ r i, (s.rcfg r).interp = some i → some (r, i) ≠ except →
    ∃ f, (site.connection r, f) ∈ s.frames ∧
      (f.stores = some (r, i) ∨ f.resets = some r ∧ f.holds = some i)
  onTop : s.frames.Pairwise fun x y => x.1 = y.1 → y.2.resets = none
  thread : ∀ c f, (c, f) ∈ s.frames → ∀ r, f.clears = some r → site.connection r = c
  reqCleanup : ∀ c r i source, (c, .selected .reqCleanup (some r) i source) ∈ s.frames →
    site.connection r = c ∧ s.status (.req r) = .ending

/-- A pool that has not ended lies in pools that nothing has been taken away from. -/
structure Tree (site : Site) (s : State) : Prop where
  above : ∀ q, s.status q ≠ .unborn → s.status q ≠ .ended → ∀ p ∈ site.above q, s.Intact p
  created : ∀ q, s.status q ≠ .unborn → q ∈ s.pools

structure Sound (site : Site) (s : State) : Prop where
  ledger : Ledger s []
  keeping : Keeping s
  calls : Calls site s none
  tree : Tree site s

/-! ## Pools -/

section Pools

variable {site : Site} {s s' : State} {i : InterpId} {p q : PoolId} {st : PoolStatus}
  {tipool : ItemPool InterpId} {r : Option ReqId}

namespace Keeping

theorem congr (h : Keeping s)
    (hcleanups : ∀ p i, (p, .unselect i) ∈ s'.cleanups ↔ (p, .unselect i) ∈ s.cleanups)
    (huserdata : s'.userdata = s.userdata) (hstatus : s'.status = s.status)
    (hputback : ∀ i, (s'.interp i).putback = true → (s.interp i).putback = true) : Keeping s' where
  kept p i hp := by
    obtain ⟨hu, hf⟩ := h.kept p i ((hcleanups p i).mp hp)
    refine ⟨huserdata ▸ hu, ?_⟩
    by_contra hne
    rw [hputback i (by simpa using hne)] at hf
    simp at hf
  userdata p i hu hp := by
    rw [hcleanups]
    exact h.userdata p i (huserdata ▸ hu) (by simpa only [State.Intact, hstatus] using hp)
  custom q k := huserdata ▸ h.custom q k
  clearing p hp := h.clearing p (hstatus ▸ hp)
  unborn p hp := by
    rw [huserdata]
    exact h.unborn p (hstatus ▸ hp)

/-- A pool changes its status, but is not one whose interpreter would be needed then. -/
theorem setStatus (h : Keeping s) (pools : List PoolId)
    (hintact : s.userdata p ≠ none → st = .live ∨ st = .ending ∨ st = .clearing → s.Intact p)
    (hclearing : st = .clearing → ∃ q k, p = .custom q k)
    (hunborn : st = .unborn → s.userdata p = none) :
    Keeping ({ s with pools := pools }.setStatus p st) where
  kept := h.kept
  userdata q i hu hq := by
    refine h.userdata q i hu ?_
    by_cases hqp : q = p
    · subst hqp
      refine hintact (by simp only [State.setStatus] at hu; simp [hu]) ?_
      simpa only [State.Intact, State.setStatus, Function.update_self] using hq
    · simpa only [State.Intact, State.setStatus, Function.update_of_ne hqp] using hq
  custom := h.custom
  clearing q hq := by
    by_cases hqp : q = p
    · subst hqp
      simp only [State.setStatus, Function.update_self] at hq
      exact hclearing hq
    · simp only [State.setStatus, Function.update_of_ne hqp] at hq
      exact h.clearing q hq
  unborn q hq := by
    by_cases hqp : q = p
    · subst hqp
      simp only [State.setStatus, Function.update_self] at hq
      exact hunborn hq
    · simp only [State.setStatus, Function.update_of_ne hqp] at hq
      exact h.unborn q hq

/-- A cleanup of a pool is taken away that has nothing left to keep. -/
theorem dropCleanup (h : Keeping s) {k : Cleanup} (hnext : s.nextCleanup p = some k)
    (hp : ¬s.Intact p ∨ s.userdata p = none) : Keeping (s.dropCleanup p) := by
  obtain ⟨pre, post, hsplit, -, hdrop⟩ := nextCleanup_eq_some hnext
  have hmem : ∀ x ∈ (s.dropCleanup p).cleanups, x ∈ s.cleanups := by
    intro x hx
    rw [hdrop] at hx
    rw [hsplit]
    simp only [List.mem_append, List.mem_cons] at hx ⊢
    tauto
  refine ⟨fun q i hq => h.kept q i (hmem _ hq), fun q i hu hq => ?_, h.custom, h.clearing,
    h.unborn⟩
  have hk := h.userdata q i hu hq
  have hqp : q ≠ p := by
    rintro rfl
    rcases hp with hp | hp
    · exact hp hq
    · simp only [State.dropCleanup] at hu
      simp [hp] at hu
  rw [hdrop]
  rw [hsplit] at hk
  simp only [List.mem_append, List.mem_cons, Prod.mk.injEq] at hk ⊢
  tauto

theorem handlerPopped (h : Keeping s) (hi : ∀ p, (p, .unselect i) ∉ s.cleanups) :
    Keeping (s.handlerPopped tipool i r) where
  kept p j hp := by
    have hji : j ≠ i := by
      rintro rfl
      exact hi p hp
    refine (h.kept p j hp).imp_right fun hf => ?_
    simpa only [State.handlerPopped, Function.update_of_ne hji] using hf
  userdata := h.userdata
  custom := h.custom
  clearing := h.clearing
  unborn := h.unborn

theorem keptPopped (h : Keeping s) (hi : ∀ p, (p, .unselect i) ∉ s.cleanups)
    (hflag : (s.interp i).putback = false) (hp : s.userdata p = none) (hintact : s.Intact p)
    (hcustom : ∀ q k, p ≠ .custom q k) : Keeping (s.keptPopped tipool i p) where
  kept q j hq := by
    rcases List.mem_cons.mp hq with heq | hq
    · simp only [Prod.mk.injEq, Cleanup.unselect.injEq] at heq
      obtain ⟨rfl, rfl⟩ := heq
      simpa [State.keptPopped] using hflag
    · have hold : (q, .unselect j) ∈ s.cleanups := hq
      have hji : j ≠ i := fun heq => hi q (heq ▸ hold)
      obtain ⟨hu, hf⟩ := h.kept q j hold
      have hqp : q ≠ p := by
        rintro rfl
        simp [hp] at hu
      simpa only [State.keptPopped, Function.update_of_ne hji, Function.update_of_ne hqp] using
        ⟨hu, hf⟩
  userdata q j hu hq := by
    by_cases hqp : q = p
    · subst hqp
      simp only [State.keptPopped, Function.update_self, Option.some.injEq] at hu
      exact hu ▸ List.mem_cons_self
    · simp only [State.keptPopped, Function.update_of_ne hqp] at hu
      exact List.mem_cons_of_mem _ (h.userdata q j hu hq)
  custom q k := by
    simpa only [State.keptPopped, Function.update_of_ne (hcustom q k).symm] using h.custom q k
  clearing := h.clearing
  unborn q hq := by
    have hqp : q ≠ p := by
      rintro rfl
      simp only [State.Intact] at hintact
      rw [show s.status q = .unborn from hq] at hintact
      simp at hintact
    simpa only [State.keptPopped, Function.update_of_ne hqp] using h.unborn q hq

end Keeping

namespace Tree

theorem congr (h : Tree site s) (hstatus : s'.status = s.status) (hpools : s'.pools = s.pools) :
    Tree site s' where
  above q := by simpa only [State.Intact, hstatus] using h.above q
  created q := by simpa only [hstatus, hpools] using h.created q

/-- A pool is created below pools that nothing has been taken away from. -/
theorem create (h : Tree site s)
    (habove : ∀ q ∈ site.above p, s.Intact q) :
    Tree site ({ s with pools := p :: s.pools }.setStatus p .live) := by
  have hintact : ∀ q, s.Intact q →
      ({ s with pools := p :: s.pools }.setStatus p .live).Intact q := by
    intro q hq
    by_cases hqp : q = p
    · exact .inl (by simp [State.setStatus, hqp])
    · simpa only [State.Intact, State.setStatus, Function.update_of_ne hqp] using hq
  constructor
  case above =>
    intro q hq hq' x hx
    by_cases hqp : q = p
    · exact hintact x (habove x (hqp ▸ hx))
    · simp only [State.setStatus, Function.update_of_ne hqp] at hq hq'
      exact hintact x (h.above q hq hq' x hx)
  case created =>
    intro q hq
    by_cases hqp : q = p
    · exact hqp ▸ List.mem_cons_self
    · simp only [State.setStatus, Function.update_of_ne hqp] at hq
      exact List.mem_cons_of_mem _ (h.created q hq)

/-- A pool that exists changes its status; if it is then no longer intact, its subpools have
ended. -/
theorem setStatus (h : Tree site s) (hborn : s.status p ≠ .unborn) (hended : s.status p ≠ .ended)
    (hbelow : (s.setStatus p st).Intact p ∨
      ∀ q ∈ s.pools, p ∈ site.above q → s.status q = .ended) :
    Tree site (s.setStatus p st) := by
  have hother : ∀ q, q ≠ p → (s.setStatus p st).status q = s.status q :=
    fun q hq => Function.update_of_ne hq _ _
  constructor
  case above =>
    intro q hq hq' x hx
    by_cases hxp : x = p
    · subst hxp
      rcases hbelow with hintact | hbelow
      · exact hintact
      · by_cases hqx : q = x
        · subst hqx
          exact absurd (hbelow q (h.created q hborn) hx) hended
        · rw [hother q hqx] at hq hq'
          exact absurd (hbelow q (h.created q hq) hx) hq'
    · have hintact : s.Intact x := by
        by_cases hqp : q = p
        · exact h.above q (hqp ▸ hborn) (hqp ▸ hended) x hx
        · rw [hother q hqp] at hq hq'
          exact h.above q hq hq' x hx
      simpa only [State.Intact, hother x hxp] using hintact
  case created =>
    intro q hq
    by_cases hqp : q = p
    · exact h.created q (hqp ▸ hborn)
    · rw [hother q hqp] at hq
      exact h.created q hq

end Tree

end Pools

/-! ## Calls -/

section Calls

variable {site : Site} {s s' : State} {i j : InterpId} {p : PoolId} {c : ConnId} {f g : Frame}
  {r : ReqId} {except : Option (ReqId × InterpId)} {frames pre post : List (ConnId × Frame)}

namespace Supported

/-- Whoever borrows has somebody with the interpreter on his stack. -/
theorem exists_stores (h : Supported frames) (hf : (c, f) ∈ frames)
    (hsource : f.source = some .rcfg) :
    ∃ r i g, f.borrows = some (r, i) ∧ (c, g) ∈ frames ∧ g.stores = some (r, i) := by
  induction frames with
  | nil => simp at hf
  | cons x rest ih =>
      rcases List.mem_cons.mp hf with rfl | hf
      · obtain ⟨r, i, g, hborrows, hg, hstores⟩ := h.1 hsource
        exact ⟨r, i, g, hborrows, List.mem_cons_of_mem _ hg, hstores⟩
      · obtain ⟨r, i, g, hborrows, hg, hstores⟩ := ih h.2 hf
        exact ⟨r, i, g, hborrows, List.mem_cons_of_mem _ hg, hstores⟩

/-- Only calls further up a stack depend on a call, so the innermost may go. -/
theorem pop (h : Supported (pre ++ (c, f) :: post)) (hpre : ∀ x ∈ pre, x.1 ≠ c) :
    Supported (pre ++ post) := by
  induction pre with
  | nil => exact h.2
  | cons x pre ih =>
      obtain ⟨c', f'⟩ := x
      obtain ⟨hx, hrest⟩ := h
      refine ⟨fun hsource => ?_, ih hrest fun y hy => hpre y (List.mem_cons_of_mem _ hy)⟩
      obtain ⟨r, i, g, hborrows, hg, hstores⟩ := hx hsource
      refine ⟨r, i, g, hborrows, ?_, hstores⟩
      -- what supports a call is of the same thread, and further down
      have hxc : c' ≠ c := hpre (c', f') List.mem_cons_self
      rcases List.mem_append.mp hg with hg | hg
      · exact List.mem_append_left _ hg
      · rcases List.mem_cons.mp hg with heq | hg
        · exact absurd (Prod.mk.inj heq).1 hxc
        · exact List.mem_append_right _ hg

end Supported

namespace Calls

theorem mono (h : Calls site s none) (except : Option (ReqId × InterpId)) : Calls site s except :=
  ⟨h.flagged, h.based, h.borrowed, fun r i hr _ => h.stored r i hr (by simp), h.onTop,
    h.thread, h.reqCleanup⟩

/-- The invariant reads the stacks, the flags, the cleanups, `rcfg->interp` and the pools of the
requests that are cleaned up. -/
theorem congr (h : Calls site s except) (hframes : s'.frames = s.frames)
    (hputback : ∀ c caller r i, (c, .selected caller r i (.popped none)) ∈ s.frames →
      (s'.interp i).putback = (s.interp i).putback)
    (hcleanups : ∀ c f p i, (c, f) ∈ s.frames → f.based = some (p, i) →
      (p, .unselect i) ∈ s.cleanups → (p, .unselect i) ∈ s'.cleanups)
    (hrcfg : ∀ r i, (s'.rcfg r).interp = some i → some (r, i) ≠ except →
      (s.rcfg r).interp = some i)
    (hstatus : ∀ c r i source, (c, .selected .reqCleanup (some r) i source) ∈ s.frames →
      s'.status (.req r) = s.status (.req r)) : Calls site s' except where
  flagged c caller r i hx := by
    rw [hframes] at hx
    rw [hputback c caller r i hx]
    exact h.flagged c caller r i hx
  based c f hx p i hf := by
    rw [hframes] at hx
    obtain ⟨hp, hk⟩ := h.based c f hx p i hf
    exact ⟨hp, hcleanups c f p i hx hf hk⟩
  borrowed := hframes ▸ h.borrowed
  stored r i hr hne := by
    rw [hframes]
    exact h.stored r i (hrcfg r i hr hne) hne
  onTop := hframes ▸ h.onTop
  thread := hframes ▸ h.thread
  reqCleanup c r i source hx := by
    rw [hframes] at hx
    rw [hstatus c r i source hx]
    exact h.reqCleanup c r i source hx

/-- The innermost call of a thread returns. -/
theorem pop (h : Calls site s none) (htop : s.top c = some f)
    (hstores : ∀ r i, f.stores = some (r, i) → some (r, i) = except)
    (hresets : ∀ r i, f.resets = some r → f.holds = some i → some (r, i) = except) :
    Calls site (s.pop c) except := by
  obtain ⟨pre, post, hsplit, hpre, hpop⟩ := top_eq_some htop
  have hmem : ∀ x ∈ (s.pop c).frames, x ∈ s.frames := by
    intro x hx
    rw [hpop] at hx
    rw [hsplit]
    simp only [List.mem_append, List.mem_cons] at hx ⊢
    tauto
  constructor
  case flagged =>
    exact fun c caller r i hx => h.flagged c caller r i (hmem _ hx)
  case based =>
    exact fun c f hx => h.based c f (hmem _ hx)
  case borrowed =>
    rw [hpop]
    exact (hsplit ▸ h.borrowed).pop hpre
  case stored =>
    intro r i hr hne
    obtain ⟨g, hg, hgr⟩ := h.stored r i hr (by simp)
    refine ⟨g, ?_, hgr⟩
    rw [hsplit] at hg
    rw [hpop]
    simp only [List.mem_append, List.mem_cons, Prod.mk.injEq] at hg ⊢
    rcases hg with hg | ⟨-, rfl⟩ | hg
    · exact .inl hg
    · rcases hgr with hgr | ⟨hgr, hgi⟩
      · exact absurd (hstores r i hgr) hne
      · exact absurd (hresets r i hgr hgi) hne
    · exact .inr hg
  case onTop =>
    rw [hpop]
    have htop := h.onTop
    rw [hsplit] at htop
    exact htop.sublist (List.Sublist.append (.refl _) (List.sublist_cons_self _ _))
  case thread =>
    exact fun c f hx => h.thread c f (hmem _ hx)
  case reqCleanup =>
    exact fun c r i source hx => h.reqCleanup c r i source (hmem _ hx)

/-- A call begins. -/
theorem push (h : Calls site s except)
    (hflagged : ∀ caller r i, f = .selected caller r i (.popped none) →
      (s.interp i).putback = true)
    (hbased : ∀ p i, f.based = some (p, i) → p ∈ f.chain site c ∧ (p, .unselect i) ∈ s.cleanups)
    (hborrowed : f.source = some .rcfg → ∃ r i g, f.borrows = some (r, i) ∧
      (c, g) ∈ s.frames ∧ g.stores = some (r, i))
    (hstored : ∀ r i, (s.rcfg r).interp = some i → some (r, i) = except →
      f.stores = some (r, i) ∨ f.resets = some r ∧ f.holds = some i)
    (honTop : ∀ g, (c, g) ∈ s.frames → g.resets = none)
    (hthread : ∀ r, f.clears = some r → site.connection r = c)
    (hreqCleanup : ∀ r i source, f = .selected .reqCleanup (some r) i source →
      site.connection r = c ∧ s.status (.req r) = .ending) : Calls site (s.push c f) none := by
  constructor
  case flagged =>
    intro c' caller r i hx
    rcases List.mem_cons.mp hx with heq | hx
    · exact hflagged caller r i (Prod.mk.inj heq).2.symm
    · exact h.flagged c' caller r i hx
  case based =>
    intro c' g hx p i hg
    rcases List.mem_cons.mp hx with heq | hx
    · obtain ⟨rfl, rfl⟩ := Prod.mk.inj heq
      exact hbased p i hg
    · exact h.based c' g hx p i hg
  case borrowed =>
    exact ⟨hborrowed, h.borrowed⟩
  case stored =>
    intro r i hr _
    by_cases hne : some (r, i) = except
    · have hf := hstored r i hr hne
      refine ⟨f, ?_, hf⟩
      rw [hthread r (f.clears_of_stores hf)]
      exact List.mem_cons_self
    · obtain ⟨g, hg, hgr⟩ := h.stored r i hr hne
      exact ⟨g, List.mem_cons_of_mem _ hg, hgr⟩
  case onTop =>
    refine List.pairwise_cons.mpr ⟨?_, h.onTop⟩
    rintro ⟨c', g⟩ hx (rfl : c = c')
    exact honTop g hx
  case thread =>
    intro c' g hx r hr
    rcases List.mem_cons.mp hx with heq | hx
    · obtain ⟨rfl, rfl⟩ := Prod.mk.inj heq
      exact hthread r hr
    · exact h.thread c' g hx r hr
  case reqCleanup =>
    intro c' r i source hx
    rcases List.mem_cons.mp hx with heq | hx
    · obtain ⟨rfl, rfl⟩ := Prod.mk.inj heq
      exact hreqCleanup r i source rfl
    · exact h.reqCleanup c' r i source hx

/-- `rcfg->interp` is reset. -/
theorem resetRcfg (h : Calls site s except) {reset : Option ReqId}
    (hreset : except.map Prod.fst = reset) : Calls site (s.resetRcfg reset) none := by
  subst hreset
  cases except with
  | none => exact h
  | some x =>
      obtain ⟨r, i⟩ := x
      refine ⟨h.flagged, h.based, h.borrowed, fun q j hq _ => ?_, h.onTop, h.thread, h.reqCleanup⟩
      by_cases hqr : q = r
      · subst hqr
        simp [State.resetRcfg, State.setRcfg] at hq
      · simp only [State.resetRcfg, Option.map_some, State.setRcfg,
          Function.update_of_ne hqr] at hq
        exact h.stored q j hq (by simp [hqr])

/-- A pool changes its status that no request is being cleaned up for. -/
theorem setStatus (h : Calls site s except) {st : PoolStatus}
    (hp : ∀ c r i source, (c, .selected .reqCleanup (some r) i source) ∈ s.frames → p ≠ .req r) :
    Calls site (s.setStatus p st) except :=
  h.congr rfl (fun _ _ _ _ _ => rfl) (fun _ _ _ _ _ _ hk => hk) (fun _ _ hr _ => hr)
    fun c r i source hx => Function.update_of_ne (hp c r i source hx).symm _ _

/-- A cleanup of a pool is taken away that no call needs. -/
theorem dropCleanup (h : Calls site s except) (hunused : s.Unused site p) {k : Cleanup}
    (hnext : s.nextCleanup p = some k) : Calls site (s.dropCleanup p) except := by
  obtain ⟨pre, post, hsplit, -, hdrop⟩ := nextCleanup_eq_some hnext
  refine h.congr rfl (fun _ _ _ _ _ => rfl) (fun c f q i hx hf hk => ?_) (fun _ _ hr _ => hr)
    fun _ _ _ _ _ => rfl
  have hqp : q ≠ p := by
    rintro rfl
    exact hunused _ hx (h.based c f hx q i hf).1
  rw [hdrop]
  rw [hsplit] at hk
  simp only [List.mem_append, List.mem_cons, Prod.mk.injEq] at hk ⊢
  tauto

/-- Below the innermost call of a thread nothing is left to be reset. -/
theorem resets_of_pop (h : Calls site s except) (htop : s.top c = some f)
    (hg : (c, g) ∈ (s.pop c).frames) : g.resets = none := by
  obtain ⟨pre, post, hsplit, hpre, hpop⟩ := top_eq_some htop
  rw [hpop] at hg
  rcases List.mem_append.mp hg with hg | hg
  · exact absurd rfl (hpre _ hg)
  · have honTop := h.onTop
    rw [hsplit] at honTop
    exact (List.pairwise_cons.mp (List.pairwise_append.mp honTop).2.1).1 _ hg rfl

/-- A thread that may call has no reset before it. -/
theorem resets_of_mayCall (h : Calls site s except) (hcall : s.MayCall c) (hg : (c, g) ∈ s.frames) :
    g.resets = none := by
  unfold State.MayCall at hcall
  cases htop : s.top c with
  | none =>
      have hnone : s.frames.find? (·.1 = c) = none := by simpa [State.top] using htop
      simpa using List.find?_eq_none.mp hnone (c, g) hg
  | some f =>
      rw [htop] at hcall
      obtain ⟨pre, post, hsplit, -, hpop⟩ := top_eq_some htop
      by_cases hgf : g = f
      · subst hgf
        cases g with
        | unselect => exact absurd hcall id
        | _ => rfl
      · refine h.resets_of_pop htop ?_
        rw [hsplit] at hg
        rw [hpop]
        simp only [List.mem_append, List.mem_cons, Prod.mk.injEq, hgf, and_false,
          false_or] at hg ⊢
        exact hg

end Calls

end Calls

end ModPerl
