import ModPerl.Interp.Stacks

/-!
# Without handler scope

If `PerlInterpScope handler` is in force nowhere, then every interpreter in use
is kept in a pool: no interpreter carries a request or the flag
`MpInterpPUTBACK`, and `rcfg->interp` stays `NULL` (`AllKept`).  A pool that has
answered a select for a request still keeps that interpreter as long as all pools
of the request are there (`Remembered`).
-/

namespace ModPerl

variable {site : Site} {s s' s₀ s₁ : State} {a : Act} {caller : Caller} {r : Option ReqId}
  {c : ConnId} {dcfg : InterpScope} {i j : InterpId} {source : Source} {p : PoolId} {q : ReqId}

/-- The pool that keeps the interpreter. -/
def Source.pool : Source → Option PoolId
  | .rcfg => none
  | .found p => some p
  | .popped kept => kept

/-- No select pops an interpreter that is kept in no pool. -/
def ScopedOk (site : Site) (s : State) (a : Act) : Prop :=
  match s.selecting site a with
  | some (_, c, r, dcfg) => site.scope r (site.serverOf c r) dcfg ≠ .handler
  | none => True

instance : DecidableRel (ScopedOk site) := fun s a =>
  decidable_of_iff (∀ x ∈ s.selecting site a,
      site.scope x.2.2.1 (site.serverOf x.2.1 x.2.2.1) x.2.2.2 ≠ .handler) <| by
    unfold ScopedOk
    cases s.selecting site a <;> simp

theorem ScopedOk.scope (h : ScopedOk site s a)
    (ha : s.selecting site a = some (caller, c, r, dcfg)) :
    site.scope r (site.serverOf c r) dcfg ≠ .handler := by
  simpa only [ScopedOk, ha] using h

/-- No interpreter is to be put back by a handler. -/
structure Unflagged (s : State) : Prop where
  request : ∀ i, (s.interp i).request = none
  flag : ∀ i, (s.interp i).putback = false
  stored : ∀ q, (s.rcfg q).interp = none

namespace Unflagged

theorem calm (h : Unflagged s) (hcalm : Calm s s') : Unflagged s' where
  request i := (hcalm.request i).trans (h.request i)
  flag i := (hcalm.flag i).trans (h.flag i)
  stored q := by
    by_contra hne
    obtain ⟨i, hi⟩ := Option.ne_none_iff_exists'.mp hne
    simpa [h.stored] using hcalm.stored q i hi

theorem putback (h : Unflagged s) (p : Option PoolId) : Unflagged (s.putback site i p) := by
  have hinterp := Ledger.interp_putback site s i p
  obtain ⟨_, _, _, _, heq⟩ := Sound.putback_eq site s i p
  rw [heq] at hinterp ⊢
  refine ⟨fun j => ?_, fun j => ?_, h.stored⟩ <;> rw [hinterp] <;> by_cases hji : j = i
  · subst hji
    simpa using h.request j
  · simpa only [Function.update_of_ne hji] using h.request j
  · subst hji
    simp
  · simpa only [Function.update_of_ne hji] using h.flag j

/-- A select finds its interpreter in a pool, or keeps it in one. -/
theorem select (h : Unflagged s) (hscope : site.scope r (site.serverOf c r) dcfg ≠ .handler)
    (hselect : Selected site s caller c r dcfg s₁ i source) :
    Unflagged s₁ ∧ ∃ p, source.pool = some p := by
  cases hselect with
  | rcfg _ hrcfg => simp [h.stored] at hrcfg
  | @found p i => exact ⟨h, p, rfl⟩
  | handler _ _ _ hhandler _ => exact absurd hhandler hscope
  | @kept i tipool p =>
      refine ⟨⟨fun j => ?_, fun j => ?_, h.stored⟩, p, rfl⟩ <;> by_cases hji : j = i
      · subst hji
        simpa [State.keptPopped] using h.request j
      · simpa only [State.keptPopped, Function.update_of_ne hji] using h.request j
      · subst hji
        simpa [State.keptPopped] using h.flag j
      · simpa only [State.keptPopped, Function.update_of_ne hji] using h.flag j

theorem entered (h : Unflagged s₁) (hentered : Entered s₁ caller c r i source s') :
    Unflagged s' where
  request := hentered.interp ▸ h.request
  flag := hentered.interp ▸ h.flag
  stored q := by
    rw [hentered.stored, if_neg (by simp [h.flag]), h.stored]

theorem step (h : Unflagged s) (hpools : PoolsOk s.tipool s.next) (hok : ScopedOk site s a)
    (hs : ModPerl.step site s a = some s') : Unflagged s' := by
  cases step_effect hs with
  | select s₀ ha hbefore henter =>
      obtain ⟨s₁, i, source, hselect, hentered⟩ := enter_cases henter (hbefore.poolsOk hpools)
      exact ((h.calm hbefore.calm).select (hok.scope ha) hselect).1.entered hentered
  | putback s₀ i p _ _ hcalm hcalm' => exact ((h.calm hcalm).putback p).calm hcalm'
  | @leak c q i _ _ hcalm =>
      have h' : Unflagged { s with leaked := i :: s.leaked } := ⟨h.request, h.flag, h.stored⟩
      exact h'.calm hcalm
  | calm _ hcalm => exact h.calm hcalm

end Unflagged

/-- Every interpreter in use is kept in a pool. -/
structure AllKept (s : State) : Prop extends Unflagged s where
  selected : ∀ c caller r i source, (c, .selected caller r i source) ∈ s.frames →
    ∃ p, source.pool = some p
  unselect : ∀ c i q p reset b, (c, .unselect i q p reset b) ∉ s.frames

namespace AllKept

theorem start : AllKept (.start site) :=
  ⟨⟨fun _ => rfl, fun _ => rfl, fun _ => rfl⟩, by simp [State.start], by simp [State.start]⟩

/-- Without handler scope the conditions on a step are met. -/
theorem stepOk (h : AllKept s) : StepOk site s a := by
  cases a with
  | leave c =>
      simp only [StepOk]
      split
      · exact h.flag _
      · trivial
  | requestCleanup c found dcfg =>
      simp only [StepOk]
      split
      · next htop => exact absurd (mem_of_top htop) (h.unselect _ _ _ _ _ _)
      · trivial
  | _ => trivial

theorem step (h : AllKept s) (hpools : PoolsOk s.tipool s.next) (hok : ScopedOk site s a)
    (hs : ModPerl.step site s a = some s') : AllKept s' where
  toUnflagged := h.toUnflagged.step hpools hok hs
  selected c caller r i source hx := by
    rcases step_frames hpools hs hx with hx | hx
    · exact h.selected c caller r i source hx
    · cases hx with
      | selected ha hbefore hselect _ =>
          exact ((h.toUnflagged.calm hbefore.calm).select (hok.scope ha) hselect).2
  unselect c i q p reset b hx := by
    rcases step_frames hpools hs hx with hx | hx
    · exact h.unselect c i q p reset b hx
    · cases hx with
      | unselect _ hrequest _ => simp [h.request] at hrequest
      | called htop => exact h.unselect _ _ _ _ _ _ (mem_of_top htop)

/-- Every select is made for a request, or a connection, all of whose pools are intact. -/
theorem chain (h : AllKept s) (hsound : Sound site s) (hs : ModPerl.step site s a = some s')
    (ha : s.selecting site a = some (caller, c, r, dcfg)) :
    (∀ q, r = some q → site.connection q = c) ∧ ∀ p ∈ site.chain c r, s.Intact p :=
  hsound.chain_of_calling (step_calling hs ha) fun _ _ _ _ htop =>
    h.unselect _ _ _ _ _ _ (mem_of_top htop)

end AllKept

/-! ## What a pool has answered once -/

/-- A pool that has answered a select keeps that interpreter while all pools of the request, or
of the connection, are intact. -/
def Remembered (site : Site) (s : State) : Prop :=
  ∀ caller r c i source, .select caller r c i source ∈ s.uses → ∃ p, source.pool = some p ∧
    p ∈ site.chain c r ∧ (∀ q ∈ site.chain c r, s.status q ≠ .unborn) ∧
    ((∀ q ∈ site.chain c r, s.Intact q) → s.userdata p = some i)

theorem intact_of_age (hborn : s.status p ≠ .unborn) (hage : (s.status p).age ≤ (s'.status p).age)
    (h : s'.Intact p) : s.Intact p := by
  unfold State.Intact at *
  cases hs : s.status p <;> rcases h with h | h | h <;> simp_all [PoolStatus.age]

/-- An old answer is still good. -/
theorem Remembered.persists (hpools : PoolsOk s.tipool s.next)
    (hs : ModPerl.step site s a = some s') (hborn : ∀ q ∈ site.chain c r, s.status q ≠ .unborn)
    (hp : p ∈ site.chain c r)
    (hkept : (∀ q ∈ site.chain c r, s.Intact q) → s.userdata p = some i) :
    (∀ q ∈ site.chain c r, s'.status q ≠ .unborn) ∧
      ((∀ q ∈ site.chain c r, s'.Intact q) → s'.userdata p = some i) := by
  refine ⟨fun q hq hunborn => ?_, fun hintact => ?_⟩
  · have hage := step_age hpools hs q
    have hborn := hborn q hq
    rw [hunborn] at hage
    cases hst : s.status q <;> rw [hst] at hage hborn <;> simp_all [PoolStatus.age]
  · have hold := hkept fun q hq =>
      intact_of_age (hborn q hq) (step_age hpools hs q) (hintact q hq)
    rcases step_userdata hpools hs hold with hkeep | hended
    · exact hkeep
    · have hp' := hintact p hp
      simp [State.Intact, hended] at hp'

theorem Remembered.step (h : Remembered site s) (hkept : AllKept s) (hsound : Sound site s)
    (hok : ScopedOk site s a) (hs : ModPerl.step site s a = some s') : Remembered site s' := by
  have hpools := hsound.ledger.pools
  -- only the select of the step itself is new
  have hold : ∀ caller r c i source, .select caller r c i source ∈ s.uses →
      ∃ p, source.pool = some p ∧ p ∈ site.chain c r ∧
        (∀ q ∈ site.chain c r, s'.status q ≠ .unborn) ∧
        ((∀ q ∈ site.chain c r, s'.Intact q) → s'.userdata p = some i) := by
    intro caller r c i source hmem
    obtain ⟨p, hpool, hp, hborn, hkeeps⟩ := h caller r c i source hmem
    exact ⟨p, hpool, hp, Remembered.persists hpools hs hborn hp hkeeps⟩
  intro caller r c i source hmem
  cases step_effect hs with
  | @select caller' c' r' dcfg s₀ ha hbefore henter =>
      obtain ⟨s₁, j, source', hselect, hentered⟩ := enter_cases henter (hbefore.poolsOk hpools)
      have huses : s₁.uses = s.uses := by
        rw [← hbefore.uses]
        cases hselect <;> rfl
      rw [hentered.uses, huses] at hmem
      rcases List.mem_cons.mp hmem with heq | hmem
      · cases heq
        obtain ⟨hthread, hintact⟩ := hkept.chain hsound hs ha
        have hborn : ∀ q ∈ site.chain c r, s'.status q ≠ .unborn := by
          intro q hq hunborn
          have hstatus : s₁.status = s.status := by
            rw [← hbefore.status]
            cases hselect <;> rfl
          rw [hentered.status, hstatus] at hunborn
          have := hintact q hq
          simp [State.Intact, hunborn] at this
        have hscope := hok.scope ha
        cases hselect with
        | rcfg _ hrcfg =>
            rw [hbefore.rcfg] at hrcfg
            simp [hkept.stored] at hrcfg
        | @found p i _ hfound =>
            obtain ⟨hp, hu⟩ := firstKept_eq_some hfound
            refine ⟨p, rfl, searched_subset hp, hborn, fun _ => ?_⟩
            rw [hentered.userdata]
            exact hu
        | handler _ _ _ hhandler _ => exact absurd hhandler hscope
        | @kept i tipool p _ _ _ _ _ hkeeper =>
            refine ⟨p, rfl, searched_subset (keeper_mem_searched hkeeper), hborn, fun _ => ?_⟩
            rw [hentered.userdata]
            simp [State.keptPopped]
      · exact hold _ _ _ _ _ hmem
  | putback s₀ j p' _ _ hcalm hcalm' =>
      refine hold caller r c i source ?_
      rw [hcalm'.uses, uses_putback, hcalm.uses] at hmem
      split_ifs at hmem
      · simpa using hmem
      · exact hmem
  | leak _ _ hcalm => exact hold _ _ _ _ _ (hcalm.uses ▸ hmem)
  | calm _ hcalm => exact hold _ _ _ _ _ (hcalm.uses ▸ hmem)

end ModPerl
