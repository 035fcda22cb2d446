import ModPerl.Interp.Kept

/-!
# One interpreter for all phases of a request

Without handler scope the first select for a request is answered by a pool, and
this pool keeps the interpreter until the request has ended.  Later selects
return the same interpreter if, and only if, they are answered by the same pool
(`one_interp_per_request`).  They need not be: `modperl_interp_select` reads the
scope in force and the connection argument anew each time, and looks in other
pools (`interp_changes_between_phases`).
-/

namespace ModPerl

open Machine

variable {site : Site} {s s' s₀ s₁ : State} {a : Act} {caller : Caller} {r : Option ReqId}
  {c : ConnId} {dcfg : InterpScope} {i j : InterpId} {source : Source} {p : PoolId} {q : ReqId}

/-- The selects for a request, the newest first: the interpreters returned, and
the pools that keep them. -/
def State.selectsFor (s : State) (q : ReqId) : List (InterpId × Option PoolId) :=
  s.uses.filterMap fun
    | .select _ (some q') _ i source => if q' = q then some (i, source.pool) else none
    | _ => none

/-- The pool that has answered the first select for the request. -/
def State.firstPool (s : State) (q : ReqId) : Option PoolId :=
  (s.selectsFor q).getLast?.bind Prod.snd

/-- All selects for the request have returned the same interpreter. -/
def OneInterp (s : State) (q : ReqId) : Prop :=
  ∀ x ∈ s.selectsFor q, ∀ y ∈ s.selectsFor q, x.1 = y.1

instance : Decidable (OneInterp s q) := inferInstanceAs (Decidable (∀ x ∈ _, _))

/-- If there were selects for the request, then the pool that answered the first
one is searched, and no pool searched before it has an interpreter. -/
def FirstPoolServes (site : Site) (s : State) (a : Act) : Prop :=
  match s.selecting site a with
  | some (caller, c, some q, dcfg) => ∀ p ∈ s.firstPool q,
      (site.searched caller c (some q) dcfg).find? (fun p' => (s.userdata p').isSome) = some p
  | _ => True

instance : DecidableRel (FirstPoolServes site) := fun s a =>
  decidable_of_iff (∀ x ∈ s.selecting site a, ∀ q ∈ x.2.2.1, ∀ p ∈ s.firstPool q,
      (site.searched x.1 x.2.1 (some q) x.2.2.2).find? (fun p' => (s.userdata p').isSome) =
        some p) <| by
    unfold FirstPoolServes
    rcases s.selecting site a with _ | ⟨caller, c, _ | q, dcfg⟩ <;> simp

/-- A select for the request is added to the history … -/
theorem selectsFor_of_selecting (hpools : PoolsOk s.tipool s.next)
    (hs : step site s a = some s') (ha : s.selecting site a = some (caller, c, some q, dcfg)) :
    ∃ s₀ s₁ i source, Before s s₀ ∧ Selected site s₀ caller c (some q) dcfg s₁ i source ∧
      s'.selectsFor q = (i, source.pool) :: s.selectsFor q := by
  cases step_effect hs with
  | select s₀ ha' hbefore henter =>
      obtain ⟨rfl, rfl, rfl, rfl⟩ : _ = caller ∧ _ = c ∧ _ = some q ∧ _ = dcfg := by
        simpa using ha'.symm.trans ha
      obtain ⟨s₁, i, source, hselect, hentered⟩ := enter_cases henter (hbefore.poolsOk hpools)
      have huses : s₁.uses = s.uses := by
        rw [← hbefore.uses]
        cases hselect <;> rfl
      exact ⟨s₀, s₁, i, source, hbefore, hselect, by
        simp [State.selectsFor, hentered.uses, huses]⟩
  | putback _ _ _ hnone => simp [ha] at hnone
  | leak hnone => simp [ha] at hnone
  | calm hnone => simp [ha] at hnone

/-- … and nothing else is. -/
theorem selectsFor_of_not (hpools : PoolsOk s.tipool s.next) (hs : step site s a = some s')
    (ha : ∀ caller c dcfg, s.selecting site a ≠ some (caller, c, some q, dcfg)) :
    s'.selectsFor q = s.selectsFor q := by
  cases step_effect hs with
  | @select caller c r dcfg s₀ ha' hbefore henter =>
      obtain ⟨s₁, i, source, hselect, hentered⟩ := enter_cases henter (hbefore.poolsOk hpools)
      have huses : s₁.uses = s.uses := by
        rw [← hbefore.uses]
        cases hselect <;> rfl
      rw [State.selectsFor, hentered.uses, huses]
      cases r with
      | none => rfl
      | some q' =>
          refine List.filterMap_cons_none (if_neg fun heq : q' = q => ?_)
          exact ha _ _ _ (heq ▸ ha')
  | putback s₀ i p _ _ hcalm hcalm' =>
      rw [State.selectsFor, hcalm'.uses, uses_putback, hcalm.uses]
      split_ifs <;> rfl
  | leak _ _ hcalm => exact congrArg (List.filterMap _) hcalm.uses
  | calm _ hcalm => exact congrArg (List.filterMap _) hcalm.uses

/-- While the pools of the request are intact, the pool of an earlier select still keeps what it
has answered. -/
theorem Remembered.selectsFor (h : Remembered site s) {k : Option PoolId}
    (hx : (i, k) ∈ s.selectsFor q) : ∃ p, k = some p ∧ p ∈ site.chain c (some q) ∧
      ((∀ p ∈ site.chain c (some q), s.Intact p) → s.userdata p = some i) := by
  obtain ⟨e, he, heq⟩ := List.mem_filterMap.mp hx
  cases e with
  | select caller r c' j source =>
      cases r with
      | none => simp at heq
      | some q' =>
          simp only [Option.ite_none_right_eq_some, Option.some.injEq, Prod.mk.injEq] at heq
          obtain ⟨rfl, rfl, rfl⟩ := heq
          obtain ⟨p, hpool, hchain, -, hkeeps⟩ := h caller _ c' j source he
          exact ⟨p, hpool, hchain, hkeeps⟩
  | _ => simp at heq

/-- The first select for the request, if there was one. -/
theorem exists_firstPool (h : Remembered site s) (hne : s.selectsFor q ≠ []) :
    ∃ p i, s.firstPool q = some p ∧ (i, some p) ∈ s.selectsFor q := by
  have hlast := List.getLast?_eq_some_getLast hne
  obtain ⟨⟨i, k⟩, hx⟩ : ∃ x, (s.selectsFor q).getLast? = some x := ⟨_, hlast⟩
  have hmem := List.mem_of_getLast? hx
  obtain ⟨p, rfl, -⟩ := h.selectsFor (c := 0) hmem
  exact ⟨p, i, by simp [State.firstPool, hx], hmem⟩

/-- The invariant of a run without handler scope. -/
structure Phased (site : Site) (s : State) : Prop where
  sound : Sound site s
  kept : AllKept s
  remembered : Remembered site s

namespace Phased

theorem start : Phased site (.start site) :=
  ⟨.start, .start, fun _ _ _ _ _ h => by simp [State.uses, State.start] at h⟩

theorem step (h : Phased site s) (hok : ScopedOk site s a)
    (hs : ModPerl.step site s a = some s') : Phased site s' where
  sound := h.sound.step h.kept.stepOk hs
  kept := h.kept.step h.sound.ledger.pools hok hs
  remembered := h.remembered.step h.kept h.sound hok hs

/-- A select returns the interpreter of the first one if and only if the pool of the first one
answers it. -/
theorem select_eq_iff (h : Phased site s) (hok : ScopedOk site s a)
    (hs : ModPerl.step site s a = some s')
    (ha : s.selecting site a = some (caller, c, some q, dcfg)) (hbefore : Before s s₀)
    (hselect : Selected site s₀ caller c (some q) dcfg s₁ i source)
    (hx : (j, some p) ∈ s.selectsFor q) :
    i = j ↔ (site.searched caller c (some q) dcfg).find?
      (fun p' => (s.userdata p').isSome) = some p := by
  obtain ⟨-, hintact⟩ := h.kept.chain h.sound hs ha
  obtain ⟨p', hp', hchain, hkeeps⟩ := h.remembered.selectsFor (c := c) hx
  obtain rfl := Option.some.inj hp'
  have hp := hkeeps hintact
  rw [find?_eq_of_firstKept, ← firstKept_congr hbefore.userdata]
  cases hselect with
  | rcfg _ hrcfg =>
      rw [hbefore.rcfg] at hrcfg
      simp [h.kept.stored] at hrcfg
  | @found p₁ i _ hfound =>
      obtain ⟨hp₁, hu⟩ := firstKept_eq_some hfound
      rw [hbefore.userdata] at hu
      rw [hfound, Option.map_some, Option.some.injEq]
      constructor
      · rintro rfl
        exact h.sound.kept_unique
          (h.sound.keeping.userdata _ _ hu (hintact _ (searched_subset hp₁)))
          (h.sound.keeping.userdata _ _ hp (hintact _ hchain))
      · rintro rfl
        exact Option.some.inj (hu.symm.trans hp)
  | handler _ _ _ hhandler _ => exact absurd hhandler (hok.scope ha)
  | @kept i tipool p₁ _ hnone hpop _ hmip _ =>
      rw [hnone, Option.map_none]
      refine iff_of_false (fun heq => ?_) (by simp)
      -- a popped interpreter was not in use, and the one of the first select is
      rw [← hmip] at hpop
      have hfresh := ((hbefore.poolsOk h.sound.ledger.pools).pop hpop).2.1
      rw [hbefore.tipool] at hfresh
      exact hfresh (heq ▸ h.sound.busy_of_userdata hp (hintact _ hchain))

/-- One step: the requests still have one interpreter each if and only if the condition is met. -/
theorem oneInterp_iff (h : Phased site s) (hone : ∀ q, OneInterp s q) (hok : ScopedOk site s a)
    (hs : ModPerl.step site s a = some s') :
    (∀ q, OneInterp s' q) ↔ FirstPoolServes site s a := by
  have hpools := h.sound.ledger.pools
  by_cases hsel : ∃ caller c q dcfg, s.selecting site a = some (caller, c, some q, dcfg)
  · obtain ⟨caller, c, q, dcfg, ha⟩ := hsel
    obtain ⟨s₀, s₁, i, source, hbefore, hselect, hnew⟩ := selectsFor_of_selecting hpools hs ha
    -- a select agrees with the first one of its request exactly if that pool serves it
    have hiff := fun {j p} => h.select_eq_iff (j := j) (p := p) hok hs ha hbefore hselect
    simp only [FirstPoolServes, ha]
    constructor
    · intro hone' p hp
      obtain ⟨⟨j, k⟩, hx, rfl⟩ := Option.bind_eq_some_iff.mp hp
      have hmem := List.mem_of_getLast? hx
      refine (hiff hmem).mp (hone' q (i, source.pool) ?_ (j, some p) ?_) <;> rw [hnew]
      · exact List.mem_cons_self
      · exact List.mem_cons_of_mem _ hmem
    · intro hserves q'
      by_cases hq : q' = q
      · subst hq
        -- the selects so far agree with the one that a pool served first
        have hall : ∀ x ∈ s.selectsFor q', x.1 = i := by
          intro x hx
          obtain ⟨p, j, hp, hj⟩ := exists_firstPool h.remembered (List.ne_nil_of_mem hx)
          exact (hone q' x hx _ hj).trans ((hiff hj).mpr (hserves p hp)).symm
        have hall' : ∀ x ∈ s'.selectsFor q', x.1 = i := by
          intro x hx
          rw [hnew] at hx
          rcases List.mem_cons.mp hx with rfl | hx
          · rfl
          · exact hall x hx
        exact fun x hx y hy => (hall' x hx).trans (hall' y hy).symm
      · have hsame : s'.selectsFor q' = s.selectsFor q' := by
          refine selectsFor_of_not hpools hs fun _ _ _ heq => hq ?_
          simpa using (congrArg (Option.map fun x => x.2.2.1) (heq.symm.trans ha))
        simpa only [OneInterp, hsame] using hone q'
  · simp only [not_exists] at hsel
    refine iff_of_true (fun q => ?_) ?_
    · have hsame : s'.selectsFor q = s.selectsFor q :=
        selectsFor_of_not hpools hs fun caller c dcfg => hsel caller c q dcfg
      simpa only [OneInterp, hsame] using hone q
    · unfold FirstPoolServes
      split
      · next ha => exact absurd ha (hsel _ _ _ _)
      · trivial

end Phased

/-- In a run without handler scope in which every request is served by the pool
of its first select, no request changes its interpreter; and the first select
that another pool answers changes it. -/
theorem one_interp_per_request
    (h : Reachable (step site) (fun s a => ScopedOk site s a ∧ FirstPoolServes site s a)
      (.start site) s) :
    (∀ q, OneInterp s q) ∧ ∀ a s', ScopedOk site s a → ¬FirstPoolServes site s a →
      step site s a = some s' → ∃ q, ¬OneInterp s' q := by
  have hinv : Phased site s ∧ ∀ q, OneInterp s q := by
    refine h.invariant (I := fun s => Phased site s ∧ ∀ q, OneInterp s q)
      ⟨.start, fun q x hx => by simp [State.selectsFor, State.uses, State.start] at hx⟩ ?_
    rintro s a s' - ⟨hphased, hone⟩ ⟨hok, hserves⟩ hs
    exact ⟨hphased.step hok hs, (hphased.oneInterp_iff hone hok hs).mpr hserves⟩
  obtain ⟨hphased, hone⟩ := hinv
  refine ⟨hone, fun a s' hok hserves hs => ?_⟩
  by_contra hall
  simp only [not_exists, not_not] at hall
  exact hserves ((hphased.oneInterp_iff hone hok hs).mp hall)

/-- The scope of the server is connection.  A `<Location>` sets request, which is
in force in the first phase and not in the second. -/
def locationScope : Site := .shared .connection .default id

/-- The second phase changes the interpreter. -/
theorem one_interp_per_request_location : ∃ s s' : State,
    step locationScope s (.handlers 0 (some 0) true .undef) = some s' ∧
      (∀ q, OneInterp s q) ∧ ∃ q, ¬OneInterp s' q := by
  obtain ⟨s, hs, hok, hserves, hstep⟩ : ∃ s : State,
      Reachable (step locationScope)
        (fun s a => ScopedOk locationScope s a ∧ FirstPoolServes locationScope s a)
        (.start locationScope) s ∧ ScopedOk locationScope s (.handlers 0 (some 0) true .undef) ∧
        ¬FirstPoolServes locationScope s (.handlers 0 (some 0) true .undef) ∧
        (step locationScope s (.handlers 0 (some 0) true .undef)).isSome = true :=
    Reachable.exists_of_run (show runOk _ _ _ [.openPool (.conn 0), .openPool (.req 0),
      .handlers 0 (some 0) true .request, .leave 0] by decide +kernel) (by decide +kernel)
  obtain ⟨s', hs'⟩ := Option.isSome_iff_exists.mp hstep
  obtain ⟨hone, hchange⟩ := one_interp_per_request hs
  exact ⟨s, s', hs', hone, hchange _ s' hok hserves hs'⟩

/-- `PerlTransHandler` runs in an interpreter kept in `r->pool`, and the next
phase in one kept in `c->pool`. -/
theorem interp_changes_between_phases : ∃ s : State,
    Reachable (step locationScope) (ScopedOk locationScope) (.start locationScope) s ∧
      s.selectsFor 0 = [(⟨0, 1⟩, some (.conn 0)), (⟨0, 0⟩, some (.req 0))] ∧ ¬OneInterp s 0 :=
  Reachable.exists_of_run (show runOk _ _ _ [.openPool (.conn 0), .openPool (.req 0),
    .handlers 0 (some 0) true .request, .leave 0, .handlers 0 (some 0) true .undef]
    by decide +kernel) (by decide +kernel)

end ModPerl
