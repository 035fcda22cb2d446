import ModPerl.Interp.Effects

/-!
# Who holds an interpreter

A call, a cleanup or nobody is obliged to call `modperl_interp_unselect` for an
interpreter; `State.holders` lists these obligations.  The ledger balances when
an interpreter in use has one holder more than its `refcnt` says, and one that
is not in use has none.  A step that takes an obligation away owes its release
until it has called `modperl_interp_unselect`: the ledger is kept with a list of
what is owed.

Among the holders are those that are there because of the scope, and not because
of an `APR::Pool`: an interpreter has one such owner at most (`State.owners`).
-/

namespace ModPerl

/-! ## Holders and owners -/

/-- The interpreter that the call, when it returns, will release. -/
def Frame.holds : Frame → Option InterpId
  | .selected _ _ i (.popped none) => some i
  | .unselect i _ _ _ _ => some i
  | .reqCleanupDone _ i (.popped none) => some i
  | .perlCleanup _ _ interp => interp
  | _ => none

/-- The interpreter that the call has popped, and kept in no pool. -/
def Frame.owns : Frame → Option InterpId
  | .selected _ _ i (.popped none) => some i
  | .unselect i _ _ _ _ => some i
  | .reqCleanupDone _ i (.popped none) => some i
  | _ => none

def Cleanup.holds : Cleanup → Option InterpId
  | .unselect i => some i
  | .pnotes _ _ => none
  | .apool _ interp => interp
  | .perl _ interp => interp

def Cleanup.owns : Cleanup → Option InterpId
  | .unselect i => some i
  | _ => none

/-- The interpreter in whose heap the Perl data of a cleanup lives, with the
interpreter that is released after it. -/
def Cleanup.perlData : Cleanup → Option (InterpId × Option InterpId)
  | .apool i interp => some (i, interp)
  | .perl i interp => some (i, interp)
  | _ => none

namespace State

variable (s : State)

/-- The obligations to call `modperl_interp_unselect`, and the leaked interpreters. -/
def holders : List InterpId :=
  s.frames.filterMap (·.2.holds) ++ s.cleanups.filterMap (·.2.holds) ++ s.leaked

/-- Those of them that the scope of a select has made. -/
def owners : List InterpId :=
  s.frames.filterMap (·.2.owns) ++ s.cleanups.filterMap (·.2.owns) ++ s.leaked

end State

section Lists

variable {α : Type*} {f : α → Option InterpId} {l pre post : List α} {a b : α} {i : InterpId}

theorem count_filterMap_cons :
    ((a :: l).filterMap f).count i = (f a).toList.count i + (l.filterMap f).count i := by
  cases hfa : f a <;> simp [hfa, List.count_cons, add_comm]

theorem count_filterMap_split : ((pre ++ a :: post).filterMap f).count i =
    (f a).toList.count i + ((pre ++ post).filterMap f).count i := by
  rw [List.filterMap_append, List.count_append, count_filterMap_cons, List.filterMap_append,
    List.count_append]
  omega

theorem perm_filterMap_split :
    ((pre ++ a :: post).filterMap f).Perm ((f a).toList ++ (pre ++ post).filterMap f) := by
  refine (List.perm_middle.filterMap f).trans (.of_eq ?_)
  cases hfa : f a <;> simp [hfa]

theorem two_le_count_filterMap (ha : a ∈ l) (hb : b ∈ l) (hne : a ≠ b) (hfa : f a = some i)
    (hfb : f b = some i) : 2 ≤ (l.filterMap f).count i := by
  obtain ⟨pre, post, rfl⟩ := List.append_of_mem ha
  have hb' : b ∈ pre ++ post := by
    simp only [List.mem_append, List.mem_cons] at hb ⊢
    rcases hb with hb | rfl | hb
    · exact .inl hb
    · exact absurd rfl hne
    · exact .inr hb
  have hpos : 0 < ((pre ++ post).filterMap f).count i :=
    List.count_pos_iff.mpr (List.mem_filterMap.mpr ⟨b, hb', hfb⟩)
  rw [count_filterMap_split, hfa]
  simp only [Option.toList_some, List.count_singleton_self]
  omega

end Lists

/-! ## The ledger -/

/-- Every interpreter in use has one holder more than its `refcnt`, if what is
owed is counted as held. -/
structure Ledger (s : State) (owed : List InterpId) : Prop where
  pools : PoolsOk s.tipool s.next
  account : ∀ i, owed.count i + s.holders.count i =
    if s.Busy i then (s.interp i).refcnt + 1 else 0
  idle : ∀ i, ¬s.Busy i →
    (s.interp i).refcnt = 0 ∧ (s.interp i).putback = false ∧ (s.interp i).thx = false
  thx : ∀ i, s.Busy i → (s.interp i).thx = true
  owners : s.owners.Nodup
  /-- `modperl_interp_unselect` has found `refcnt == 0`. -/
  final : ∀ c i r p q b, (c, .unselect i r p q b) ∈ s.frames → (s.interp i).refcnt = 0
  /-- Perl data on a cleanup keeps its interpreter. -/
  data : ∀ x ∈ s.cleanups, ∀ i j, x.2.perlData = some (i, j) → j = some i
  calls : ∀ c p i j, (c, .perlCleanup p i j) ∈ s.frames → j = some i

namespace Ledger

variable {site : Site} {s s' : State} {owed : List InterpId} {i j : InterpId} {c : ConnId}
  {f : Frame} {p : PoolId} {k : Cleanup}

/-- The ledger reads the tipools, the flags of the interpreters, and who holds them. -/
theorem congr (h : Ledger s owed) (htipool : s'.tipool = s.tipool) (hnext : s'.next = s.next)
    (hinterp : s'.interp = s.interp) (hframes : s'.frames = s.frames)
    (hcleanups : s'.cleanups = s.cleanups) (hleaked : s'.leaked = s.leaked) : Ledger s' owed := by
  obtain ⟨hpools, haccount, hidle, hthx, howners, hfinal, hdata, hcalls⟩ := h
  constructor <;> simp only [State.holders, State.owners, State.Busy, htipool, hnext, hinterp,
    hframes, hcleanups, hleaked] at * <;> assumption

theorem busy_iff (h : Ledger s owed) : s.Busy i ↔ i ∈ owed ∨ i ∈ s.holders := by
  have hi := h.account i
  constructor
  · intro hbusy
    rw [if_pos hbusy] at hi
    by_contra hnot
    rw [not_or] at hnot
    rw [List.count_eq_zero_of_not_mem hnot.1, List.count_eq_zero_of_not_mem hnot.2] at hi
    omega
  · intro hmem
    by_contra hbusy
    rw [if_neg hbusy] at hi
    rcases hmem with hmem | hmem <;> have := List.count_pos_iff.mpr hmem <;> omega

/-- Owners hold. -/
theorem mem_holders_of_mem_owners (hi : i ∈ s.owners) : i ∈ s.holders := by
  have hframe : ∀ f : Frame, f.owns = some i → f.holds = some i := by
    intro f hf
    cases f with
    | selected caller r i source =>
        cases source with
        | popped kept => cases kept <;> simp_all [Frame.owns, Frame.holds]
        | _ => simp [Frame.owns] at hf
    | reqCleanupDone r i source =>
        cases source with
        | popped kept => cases kept <;> simp_all [Frame.owns, Frame.holds]
        | _ => simp [Frame.owns] at hf
    | unselect => simpa [Frame.owns, Frame.holds] using hf
    | perlCleanup => simp [Frame.owns] at hf
  have hcleanup : ∀ k : Cleanup, k.owns = some i → k.holds = some i := by
    intro k hk
    cases k <;> simp_all [Cleanup.owns, Cleanup.holds]
  simp only [State.owners, State.holders, List.mem_append, List.mem_filterMap] at hi ⊢
  rcases hi with (⟨x, hx, hi⟩ | ⟨x, hx, hi⟩) | hi
  · exact .inl (.inl ⟨x, hx, hframe _ hi⟩)
  · exact .inl (.inr ⟨x, hx, hcleanup _ hi⟩)
  · exact .inr hi

theorem busy_of_frame (h : Ledger s owed) {x : ConnId × Frame} (hx : x ∈ s.frames)
    (hi : x.2.holds = some i) : s.Busy i :=
  h.busy_iff.mpr (.inr (List.mem_append_left _ (List.mem_append_left _
    (List.mem_filterMap.mpr ⟨x, hx, hi⟩))))

theorem busy_of_cleanup (h : Ledger s owed) {x : PoolId × Cleanup} (hx : x ∈ s.cleanups)
    (hi : x.2.holds = some i) : s.Busy i :=
  h.busy_iff.mpr (.inr (List.mem_append_left _ (List.mem_append_right _
    (List.mem_filterMap.mpr ⟨x, hx, hi⟩))))

/-- An interpreter that is owed and has no reference left has no other holder. -/
theorem notMem_holders (h : Ledger s [i]) (hrefcnt : (s.interp i).refcnt = 0) :
    i ∉ s.holders := by
  have hi := h.account i
  rw [if_pos (h.busy_iff.mpr (.inl (List.mem_singleton.mpr rfl))), hrefcnt] at hi
  simp only [List.count_singleton_self] at hi
  exact List.count_eq_zero.mp (by omega)

theorem notMem_owners (h : Ledger s [i]) (hrefcnt : (s.interp i).refcnt = 0) : i ∉ s.owners :=
  fun hmem => h.notMem_holders hrefcnt (mem_holders_of_mem_owners hmem)

/-! ### Taking obligations away -/

/-- A call returns, and owes what it held. -/
theorem pop (h : Ledger s []) (htop : s.top c = some f) : Ledger (s.pop c) f.holds.toList := by
  obtain ⟨pre, post, hsplit, -, hpop⟩ := top_eq_some htop
  have hmem : ∀ x ∈ (s.pop c).frames, x ∈ s.frames := by
    intro x hx
    rw [hpop] at hx
    rw [hsplit]
    simp only [List.mem_append, List.mem_cons] at hx ⊢
    tauto
  constructor
  case pools =>
    exact h.pools
  case account =>
    intro i
    refine Eq.trans ?_ (h.account i)
    simp only [State.holders, hpop, hsplit, List.count_append, count_filterMap_split,
      List.count_nil]
    simp only [State.pop, List.filterMap_append, List.count_append]
    omega
  case idle =>
    exact h.idle
  case thx =>
    exact h.thx
  case owners =>
    have hsub : (s.pop c).owners.Sublist s.owners := by
      refine List.Sublist.append (List.Sublist.append (List.Sublist.filterMap _ ?_) (.refl _))
        (.refl _)
      rw [hpop, hsplit]
      exact List.Sublist.append (.refl _) (List.sublist_cons_self _ _)
    exact h.owners.sublist hsub
  case final =>
    exact fun c i r p q b hx => h.final c i r p q b (hmem _ hx)
  case data =>
    exact h.data
  case calls =>
    exact fun c p i j hx => h.calls c p i j (hmem _ hx)

/-- A cleanup is taken off its pool. -/
theorem dropCleanup (h : Ledger s []) (hnext : s.nextCleanup p = some k) :
    Ledger (s.dropCleanup p) k.holds.toList := by
  obtain ⟨pre, post, hsplit, -, hdrop⟩ := nextCleanup_eq_some hnext
  constructor
  case pools =>
    exact h.pools
  case account =>
    intro i
    refine Eq.trans ?_ (h.account i)
    simp only [State.holders, hdrop, hsplit, List.count_append, count_filterMap_split,
      List.count_nil]
    simp only [State.dropCleanup, List.filterMap_append, List.count_append]
    omega
  case idle =>
    exact h.idle
  case thx =>
    exact h.thx
  case owners =>
    have hsub : (s.dropCleanup p).owners.Sublist s.owners := by
      refine List.Sublist.append (List.Sublist.append (.refl _) (List.Sublist.filterMap _ ?_))
        (.refl _)
      rw [hdrop, hsplit]
      exact List.Sublist.append (.refl _) (List.sublist_cons_self _ _)
    exact h.owners.sublist hsub
  case final =>
    exact h.final
  case data =>
    intro x hx
    refine h.data x ?_
    rw [hdrop] at hx
    rw [hsplit]
    simp only [List.mem_append, List.mem_cons] at hx ⊢
    tauto
  case calls =>
    exact h.calls

/-! ### Taking obligations on -/

/-- A call begins, and takes over what is owed. -/
theorem push (h : Ledger s f.holds.toList) (howns : ∀ i, f.owns = some i → i ∉ s.owners)
    (hfinal : ∀ i r p q b, f = .unselect i r p q b → (s.interp i).refcnt = 0)
    (hcalls : ∀ p i j, f = .perlCleanup p i j → j = some i) : Ledger (s.push c f) [] := by
  constructor
  case pools =>
    exact h.pools
  case account =>
    intro i
    refine Eq.trans ?_ (h.account i)
    simp only [State.holders, State.push, List.count_append, count_filterMap_cons, List.count_nil]
    omega
  case idle =>
    exact h.idle
  case thx =>
    exact h.thx
  case owners =>
    have hperm : (s.push c f).owners.Perm (f.owns.toList ++ s.owners) := by
      simp only [State.owners, State.push]
      cases hi : f.owns <;> simp [hi]
    refine hperm.nodup_iff.mpr (List.Nodup.append ?_ h.owners ?_)
    · cases f.owns <;> simp
    · intro i hi hi'
      exact howns i (Option.mem_toList.mp hi) hi'
  case final =>
    intro c' i r p q b hx
    rcases List.mem_cons.mp hx with heq | hx
    · exact hfinal i r p q b (Prod.mk.inj heq).2.symm
    · exact h.final c' i r p q b hx
  case data =>
    exact h.data
  case calls =>
    intro c' p i j hx
    rcases List.mem_cons.mp hx with heq | hx
    · exact hcalls p i j (Prod.mk.inj heq).2.symm
    · exact h.calls c' p i j hx

/-- Pools and flags after a pop: the interpreter is in use, and owed. -/
theorem popped (h : Ledger s []) {tipool : ItemPool InterpId} {cfg : TipoolConfig}
    (hpop : (s.tipool i.mip).pop cfg ⟨i.mip, s.next i.mip⟩ = some (i, tipool))
    (htipool : s'.tipool = Function.update s.tipool i.mip tipool)
    (hnext : s'.next = Function.update s.next i.mip (s.next i.mip + 1))
    (hinterp : ∀ j, j ≠ i → s'.interp j = s.interp j)
    (hrefcnt : (s'.interp i).refcnt = (s.interp i).refcnt) (hthx : (s'.interp i).thx = true)
    (hframes : s'.frames = s.frames) (hcleanups : s'.cleanups = s.cleanups)
    (hleaked : s'.leaked = s.leaked) : Ledger s' [i] ∧ i ∉ s'.owners ∧ ¬s.Busy i := by
  obtain ⟨hfresh, hbusy, hpools⟩ := h.pools.busy_popped hpop htipool hnext
  have hnot : i ∉ s.holders := fun hi => hfresh (h.busy_iff.mpr (.inr hi))
  have hholders : s'.holders = s.holders := by
    simp only [State.holders, hframes, hcleanups, hleaked]
  have howners : s'.owners = s.owners := by
    simp only [State.owners, hframes, hcleanups, hleaked]
  refine ⟨⟨hpools, ?account, ?idle, ?thx, ?owners, ?final, ?data, ?calls⟩, ?unowned, hfresh⟩
  case account =>
    intro j
    have hacc := h.account j
    rw [hholders]
    by_cases hj : j = i
    · -- nobody held it, and now its popper does
      subst hj
      rw [if_pos ((hbusy j).mpr (.inr rfl)), hrefcnt, (h.idle j hfresh).1,
        List.count_eq_zero_of_not_mem hnot, List.count_singleton_self]
    · rw [hinterp j hj, List.count_singleton, if_neg (by simpa using Ne.symm hj)]
      simp only [List.count_nil] at hacc
      simpa only [hbusy, hj, or_false] using hacc
  case idle =>
    intro j hj
    have hj' := mt (hbusy j).mpr hj
    rw [not_or] at hj'
    rw [hinterp j hj'.2]
    exact h.idle j hj'.1
  case thx =>
    intro j hj
    by_cases hji : j = i
    · rw [hji, hthx]
    · rw [hinterp j hji]
      exact h.thx j (((hbusy j).mp hj).resolve_right hji)
  case owners =>
    rw [howners]
    exact h.owners
  case final =>
    intro c j r p q b hx
    rw [hframes] at hx
    have hji : j ≠ i := fun heq => hfresh (heq ▸ h.busy_of_frame hx rfl)
    rw [hinterp j hji]
    exact h.final c j r p q b hx
  case data =>
    rw [hcleanups]
    exact h.data
  case calls =>
    rw [hframes]
    exact h.calls
  case unowned =>
    rw [howners]
    exact fun hi => hnot (mem_holders_of_mem_owners hi)

/-- `set_interp`: the pool takes over what is owed. -/
theorem keepInterp (h : Ledger s [i]) (hi : i ∉ s.owners) : Ledger (s.keepInterp p i) [] := by
  constructor
  case pools =>
    exact h.pools
  case account =>
    intro j
    refine Eq.trans ?_ (h.account j)
    simp only [State.holders, State.keepInterp, List.count_append, count_filterMap_cons,
      Cleanup.holds, Option.toList_some, List.count_nil]
    omega
  case idle =>
    exact h.idle
  case thx =>
    exact h.thx
  case owners =>
    have hperm : (s.keepInterp p i).owners.Perm (i :: s.owners) := by
      simp only [State.owners, State.keepInterp, Cleanup.owns, List.append_assoc]
      exact List.perm_middle
    exact hperm.nodup_iff.mpr (List.nodup_cons.mpr ⟨hi, h.owners⟩)
  case final =>
    exact h.final
  case data =>
    intro x hx
    rcases List.mem_cons.mp hx with rfl | hx
    · simp [Cleanup.perlData]
    · exact h.data x hx
  case calls =>
    exact h.calls

/-- Perl code registers a cleanup that keeps its interpreter. -/
theorem register (h : Ledger s []) (hi : s.Busy i)
    (hfinal : ∀ c r p q b, (c, .unselect i r p q b) ∉ s.frames) (hholds : k.holds = some i)
    (howns : k.owns = none) (hdata : k.perlData = some (i, some i))
    (htipool : s'.tipool = s.tipool) (hnext : s'.next = s.next)
    (hother : ∀ j, j ≠ i → s'.interp j = s.interp j)
    (hrefcnt : (s'.interp i).refcnt = (s.interp i).refcnt + 1)
    (hthx : (s'.interp i).thx = (s.interp i).thx) (hframes : s'.frames = s.frames)
    (hcleanups : s'.cleanups = (p, k) :: s.cleanups) (hleaked : s'.leaked = s.leaked) :
    Ledger s' [] := by
  have hbusy : ∀ j, s'.Busy j ↔ s.Busy j := fun j => by simp only [State.Busy, htipool]
  have hne : ∀ j, ¬s.Busy j → j ≠ i := fun j hj heq => hj (heq ▸ hi)
  constructor
  case pools =>
    rw [htipool, hnext]
    exact h.pools
  case account =>
    intro j
    have hj := h.account j
    simp only [State.holders, List.count_append, List.count_nil] at hj
    simp only [State.holders, hframes, hcleanups, hleaked, List.count_append, count_filterMap_cons,
      hholds, Option.toList_some, List.count_nil, hbusy]
    -- the new cleanup holds it once more, and `refcnt` counts that
    by_cases hji : j = i
    · subst hji
      rw [if_pos hi] at hj
      rw [if_pos hi, hrefcnt, List.count_singleton_self]
      omega
    · rw [hother j hji, List.count_singleton, if_neg (by simpa using Ne.symm hji)]
      omega
  case idle =>
    intro j hj
    rw [hbusy] at hj
    rw [hother j (hne j hj)]
    exact h.idle j hj
  case thx =>
    intro j hj
    rw [hbusy] at hj
    by_cases hji : j = i
    · rw [hji, hthx]
      exact h.thx i hi
    · rw [hother j hji]
      exact h.thx j hj
  case owners =>
    have heq : s'.owners = s.owners := by
      simp only [State.owners, hframes, hcleanups, hleaked]
      rw [List.filterMap_cons_none (by exact howns)]
    rw [heq]
    exact h.owners
  case final =>
    intro c j r p q b hx
    rw [hframes] at hx
    have hji : j ≠ i := by
      rintro rfl
      exact hfinal c r p q b hx
    rw [hother j hji]
    exact h.final c j r p q b hx
  case data =>
    intro x hx j j' hj
    rw [hcleanups] at hx
    rcases List.mem_cons.mp hx with rfl | hx
    · obtain ⟨rfl, rfl⟩ := Prod.mk.inj (Option.some.inj (hdata.symm.trans hj))
      rfl
    · exact h.data x hx j j' hj
  case calls =>
    rw [hframes]
    exact h.calls

/-! ### Releasing -/

/-- A release that is not the last one. -/
theorem decrement (h : Ledger s [i]) (hrefcnt : (s.interp i).refcnt ≠ 0) :
    Ledger (s.setInterp i fun x => { x with refcnt := x.refcnt - 1 }) [] := by
  have hbusy : s.Busy i := h.busy_iff.mpr (.inl (List.mem_singleton.mpr rfl))
  have hother : ∀ j, j ≠ i →
      (s.setInterp i fun x => { x with refcnt := x.refcnt - 1 }).interp j = s.interp j :=
    fun j hj => Function.update_of_ne hj _ _
  have hsame : (s.setInterp i fun x => { x with refcnt := x.refcnt - 1 }).interp i =
      { s.interp i with refcnt := (s.interp i).refcnt - 1 } := Function.update_self _ _ _
  constructor
  case pools =>
    exact h.pools
  case account =>
    intro j
    have hj := h.account j
    change List.count j [] + s.holders.count j =
      if s.Busy j then ((s.setInterp i _).interp j).refcnt + 1 else 0
    -- the holder that was owed is gone from both sides
    by_cases hji : j = i
    · subst hji
      rw [if_pos hbusy, List.count_singleton_self] at hj
      rw [if_pos hbusy, hsame, List.count_nil]
      simp only
      omega
    · rw [hother j hji, ← hj, List.count_singleton, if_neg (by simpa using Ne.symm hji),
        List.count_nil]
  case idle =>
    intro j hj
    change ¬s.Busy j at hj
    have hji : j ≠ i := fun heq => hj (heq ▸ hbusy)
    simpa only [hother j hji] using h.idle j hj
  case thx =>
    intro j hj
    change s.Busy j at hj
    by_cases hji : j = i
    · subst hji
      simpa only [hsame] using h.thx j hj
    · simpa only [hother j hji] using h.thx j hj
  case owners =>
    exact h.owners
  case final =>
    intro c j r p q b hx
    have hji : j ≠ i := by
      rintro rfl
      exact hrefcnt (h.final c j r p q b hx)
    simpa only [hother j hji] using h.final c j r p q b hx
  case data =>
    exact h.data
  case calls =>
    exact h.calls

theorem interp_putback (site : Site) (s : State) (i : InterpId) (p : Option PoolId) :
    (s.putback site i p).interp =
    Function.update s.interp i
      { s.interp i with inUse := false, putback := false, thx := false } := by
  unfold State.putback
  simp only
  split_ifs <;> rfl

/-- The last holder releases the interpreter. -/
theorem putback (h : Ledger s [i]) (hrefcnt : (s.interp i).refcnt = 0) {p : Option PoolId} :
    Ledger (s.putback site i p) [] := by
  have hi : s.Busy i := h.busy_iff.mpr (.inl (List.mem_singleton.mpr rfl))
  obtain ⟨hbusy, hpools⟩ := h.pools.busy_putback site p hi
  have hfields : (s.putback site i p).frames = s.frames ∧
      (s.putback site i p).cleanups = s.cleanups ∧ (s.putback site i p).leaked = s.leaked := by
    unfold State.putback
    simp only
    split_ifs <;> exact ⟨rfl, rfl, rfl⟩
  obtain ⟨hframes, hcleanups, hleaked⟩ := hfields
  have hholders : (s.putback site i p).holders = s.holders := by
    simp only [State.holders, hframes, hcleanups, hleaked]
  have hother : ∀ j, j ≠ i → (s.putback site i p).interp j = s.interp j := fun j hj => by
    rw [interp_putback, Function.update_of_ne hj]
  have hnot := h.notMem_holders hrefcnt
  constructor
  case pools =>
    exact hpools
  case account =>
    intro j
    rw [hholders]
    -- it was owed and held by nobody: now it is neither in use nor counted
    by_cases hji : j = i
    · subst hji
      rw [if_neg fun hb => ((hbusy j).mp hb).2 rfl, List.count_eq_zero_of_not_mem hnot,
        List.count_nil]
    · have hj := h.account j
      rw [List.count_singleton, if_neg (by simpa using Ne.symm hji)] at hj
      rw [hother j hji]
      simpa only [List.count_nil, hbusy, ne_eq, hji, not_false_eq_true, and_true] using hj
  case idle =>
    intro j hj
    by_cases hji : j = i
    · subst hji
      rw [interp_putback, Function.update_self]
      exact ⟨hrefcnt, rfl, rfl⟩
    · rw [hother j hji]
      exact h.idle j fun hb => hj ((hbusy j).mpr ⟨hb, hji⟩)
  case thx =>
    intro j hj
    obtain ⟨hb, hji⟩ := (hbusy j).mp hj
    rw [hother j hji]
    exact h.thx j hb
  case owners =>
    simpa only [State.owners, hframes, hcleanups, hleaked] using h.owners
  case final =>
    intro c j r p' q b hx
    rw [hframes] at hx
    by_cases hji : j = i
    · subst hji
      rw [interp_putback, Function.update_self]
      exact hrefcnt
    · rw [hother j hji]
      exact h.final c j r p' q b hx
  case data =>
    rw [hcleanups]
    exact h.data
  case calls =>
    rw [hframes]
    exact h.calls

/-- Nobody will release the interpreter. -/
theorem leak (h : Ledger s [i]) (hi : i ∉ s.owners) :
    Ledger { s with leaked := i :: s.leaked } [] := by
  constructor
  case pools =>
    exact h.pools
  case account =>
    intro j
    refine Eq.trans ?_ (h.account j)
    simp only [State.holders, List.count_append, List.count_cons, List.count_nil]
    omega
  case idle =>
    exact h.idle
  case thx =>
    exact h.thx
  case owners =>
    have hperm : ({ s with leaked := i :: s.leaked } : State).owners.Perm (i :: s.owners) := by
      simp only [State.owners]
      exact List.perm_middle
    exact hperm.nodup_iff.mpr (List.nodup_cons.mpr ⟨hi, h.owners⟩)
  case final =>
    exact h.final
  case data =>
    exact h.data
  case calls =>
    exact h.calls

end Ledger

end ModPerl
