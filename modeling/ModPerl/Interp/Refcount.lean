import ModPerl.Interp.Stacks

/-!
# The reference count

`interp->refcnt` counts the holders of an interpreter but one: the owner that the
scope of a select has made, the pools that an `APR::Pool` object owns, and the
Perl cleanups registered on pools.  An interpreter goes back to the tipool in the
step in which the last of them releases it, and once for each time it was popped
(`refcount_exact`).

That is so as long as nobody releases what he does not hold.  `MP_INTERP_PUTBACK`
tests a flag of the interpreter and not whether its caller has popped it, so the
handlers that run inside `modperl_response_handler` put back the interpreter of
the response handler (`refcount_nested_putback`).
-/

namespace ModPerl

open Machine

variable {site : Site} {s s' s₀ s₁ : State} {a : Act} {caller : Caller} {r : Option ReqId}
  {c : ConnId} {dcfg : InterpScope} {i j : InterpId} {source : Source}

/-- How often the interpreter was taken from its tipool … -/
def State.pops (s : State) (i : InterpId) : ℕ :=
  s.uses.countP fun
    | .select _ _ _ j (.popped _) => j = i
    | _ => false

/-- … and how often it was put back. -/
def State.putbacks (s : State) (i : InterpId) : ℕ :=
  s.uses.countP fun
    | .putback j _ => j = i
    | _ => false

theorem busy_calm (hcalm : Calm s s') : s'.Busy i ↔ s.Busy i := by
  simp only [State.Busy, hcalm.tipool]

/-! ## What a step does to an interpreter -/

/-- Whether the event takes the interpreter from its tipool, or puts it back. -/
def Event.takes (i : InterpId) : Event → Option Bool
  | .select _ _ _ j (.popped _) => if j = i then some true else none
  | .putback j _ => if j = i then some false else none
  | _ => none

/-- The pops (`true`) and putbacks of an interpreter, the last first. -/
def State.taken (s : State) (i : InterpId) : List Bool :=
  s.uses.filterMap (Event.takes i)

theorem pops_eq (s : State) (i : InterpId) : s.pops i = (s.taken i).count true := by
  simp only [State.pops, State.taken, List.count_filterMap]
  refine List.countP_congr fun e _ => ?_
  cases e with
  | select caller r c j source => cases source <;> simp [Event.takes]
  | _ => simp [Event.takes]

theorem putbacks_eq (s : State) (i : InterpId) : s.putbacks i = (s.taken i).count false := by
  simp only [State.putbacks, State.taken, List.count_filterMap]
  refine List.countP_congr fun e _ => ?_
  cases e with
  | select caller r c j source => cases source <;> simp [Event.takes]
  | _ => simp [Event.takes]

/-- A step does nothing to an interpreter, pops one that is idle, or puts back one in use. -/
inductive Moved (i : InterpId) (s s' : State) : Prop
  | same : (s'.Busy i ↔ s.Busy i) → s'.taken i = s.taken i → Moved i s s'
  | popped : ¬s.Busy i → s'.Busy i → s'.taken i = true :: s.taken i → Moved i s s'
  | putback : s.Busy i → ¬s'.Busy i → s'.taken i = false :: s.taken i → Moved i s s'

namespace Moved

theorem congr (h : Moved i s s') (hbusy₀ : s₀.Busy i ↔ s.Busy i) (huses₀ : s₀.uses = s.uses)
    (hbusy₁ : s₁.Busy i ↔ s'.Busy i) (huses₁ : s₁.uses = s'.uses) : Moved i s₀ s₁ := by
  have htaken₀ : s₀.taken i = s.taken i := by rw [State.taken, State.taken, huses₀]
  have htaken₁ : s₁.taken i = s'.taken i := by rw [State.taken, State.taken, huses₁]
  cases h with
  | same hbusy htaken =>
      exact .same (by rw [hbusy₁, hbusy₀, hbusy]) (by rw [htaken₁, htaken₀, htaken])
  | popped hfresh hbusy htaken =>
      exact .popped (by rwa [hbusy₀]) (by rwa [hbusy₁]) (by rw [htaken₁, htaken₀, htaken])
  | putback hbusy hidle htaken =>
      exact .putback (by rwa [hbusy₀]) (by rwa [hbusy₁]) (by rw [htaken₁, htaken₀, htaken])

theorem calm (hcalm : Calm s s') : Moved i s s' :=
  .same (busy_calm hcalm) (by rw [State.taken, State.taken, hcalm.uses])

/-- `modperl_interp_select` pops the interpreter that it returns, or none. -/
theorem select (hpools : PoolsOk s.tipool s.next)
    (hselect : Selected site s caller c r dcfg s₁ i source)
    (hentered : Entered s₁ caller c r i source s') : Moved j s s' := by
  have hbusy' : s'.Busy j ↔ s₁.Busy j := by simp only [State.Busy, hentered.tipool]
  have htaken : s'.taken j =
      (Event.takes j (.select caller r c i source)).toList ++ s₁.taken j := by
    simp only [State.taken, hentered.uses, List.filterMap_cons]
    split <;> simp [*]
  rcases hselect.busy hpools with ⟨rfl, hsource⟩ | ⟨⟨kept, rfl⟩, hfresh, hbusy, -, hlog⟩
  · refine .same hbusy' (htaken.trans ?_)
    cases source with
    | popped kept => exact absurd rfl (hsource kept)
    | _ => rfl
  · have huses : s₁.uses = s.uses := congrArg (List.filter Event.isUse) hlog
    rw [State.taken, State.taken, huses] at htaken
    rw [hbusy] at hbusy'
    by_cases hij : i = j
    · subst hij
      exact .popped hfresh (hbusy'.mpr (.inr rfl)) (by simpa [Event.takes, State.taken] using htaken)
    · have hji : ¬j = i := Ne.symm hij
      exact .same (by simpa [hji] using hbusy')
        (by simpa [Event.takes, hij, State.taken] using htaken)

/-- `modperl_interp_unselect` puts back an interpreter that is in use. -/
theorem unselect (hpools : PoolsOk s.tipool s.next) (p : Option PoolId) :
    Moved j s (s.putback site i p) := by
  by_cases hi : s.Busy i
  · have hbusy := (hpools.busy_putback site p hi).1 j
    have htaken : (s.putback site i p).taken j =
        (Event.takes j (.putback i p)).toList ++ s.taken j := by
      simp only [State.taken, uses_putback, if_pos hi, List.filterMap_cons]
      split <;> simp [*]
    by_cases hij : i = j
    · subst hij
      exact .putback hi (fun h => (hbusy.mp h).2 rfl) (by simpa [Event.takes] using htaken)
    · have hji : ¬j = i := Ne.symm hij
      exact .same (by simpa [hji] using hbusy) (by simpa [Event.takes, hij] using htaken)
  · have hcond : ¬(s.setInterp i fun x =>
      { x with inUse := false, putback := false, thx := false }).Busy i := hi
    simp only [State.putback, if_neg hcond]
    exact .same .rfl rfl

end Moved

theorem step_moved (hpools : PoolsOk s.tipool s.next) (hs : step site s a = some s') :
    Moved i s s' := by
  cases step_effect hs with
  | select s₀ _ hbefore henter =>
      have hpools₀ := hbefore.poolsOk hpools
      obtain ⟨s₁, j, source, hselect, hentered⟩ := enter_cases henter hpools₀
      exact (Moved.select hpools₀ hselect hentered).congr (busy_calm hbefore.calm).symm
        hbefore.calm.uses.symm .rfl rfl
  | putback s₀ j p _ _ hcalm hcalm' =>
      have hpools₀ : PoolsOk s₀.tipool s₀.next := by
        rw [hcalm.tipool, hcalm.next]
        exact hpools
      exact (Moved.unselect hpools₀ p).congr (busy_calm hcalm).symm hcalm.uses.symm
        (busy_calm hcalm') hcalm'.uses
  | leak _ _ hcalm =>
      exact .same (by simp only [State.Busy, hcalm.tipool]) (congrArg (List.filterMap _) hcalm.uses)
  | calm _ hcalm => exact .calm hcalm

/-- Every pop has its putback, but for the interpreters in use. -/
def Balanced (s : State) : Prop :=
  ∀ i, s.pops i = s.putbacks i + if s.Busy i then 1 else 0

theorem Balanced.start : Balanced (.start site) := by
  intro i
  simp [State.pops, State.putbacks, State.uses, State.Busy, State.start]

/-- The step lemma. -/
theorem Balanced.step (h : Balanced s) (hpools : PoolsOk s.tipool s.next)
    (hs : step site s a = some s') : Balanced s' := by
  intro i
  have hi := h i
  rw [pops_eq, putbacks_eq] at hi ⊢
  cases (step_moved hpools hs : Moved i s s') with
  | same hbusy htaken => simpa only [htaken, hbusy] using hi
  | popped hfresh hbusy htaken => simpa [htaken, hbusy, hfresh] using hi
  | putback hbusy hidle htaken => simpa [htaken, hbusy, hidle] using hi

/-! ## The step in which an interpreter is returned -/

/-- Only the last release takes an interpreter off the busy list. -/
theorem Sound.refcnt_of_returned (h : Sound site s) (hs : ModPerl.step site s a = some s')
    (hi : s.Busy i) (hreturned : ¬s'.Busy i) : (s.interp i).refcnt = 0 := by
  cases step_effect hs with
  | select s₀ _ hbefore henter =>
      have hpools₀ := hbefore.poolsOk h.ledger.pools
      obtain ⟨s₁, j, source, hselect, hentered⟩ := enter_cases henter hpools₀
      have hbusy' : s'.Busy i ↔ s₁.Busy i := by simp only [State.Busy, hentered.tipool]
      rw [hbusy'] at hreturned
      have hi₀ : s₀.Busy i := (busy_calm hbefore.calm).mpr hi
      rcases hselect.busy hpools₀ with ⟨rfl, -⟩ | ⟨-, -, hbusy, -, -⟩
      · exact absurd hi₀ hreturned
      · exact absurd ((hbusy i).mpr (.inl hi₀)) hreturned
  | putback s₀ j p _ hrefcnt hcalm hcalm' =>
      rw [busy_calm hcalm'] at hreturned
      have hi₀ : s₀.Busy i := (busy_calm hcalm).mpr hi
      have hpools₀ : PoolsOk s₀.tipool s₀.next := by
        rw [hcalm.tipool, hcalm.next]
        exact h.ledger.pools
      -- what was returned is what was put back
      have hj : s₀.Busy j := by
        by_contra hj
        refine hreturned ?_
        have hcond : ¬(s₀.setInterp j fun x =>
          { x with inUse := false, putback := false, thx := false }).Busy j := hj
        simp only [State.putback, if_neg hcond]
        exact hi₀
      have hij : i = j := by
        by_contra hij
        exact hreturned (((hpools₀.busy_putback site p hj).1 i).mpr ⟨hi₀, hij⟩)
      subst hij
      rcases hrefcnt with ⟨hrefcnt, -⟩ | ⟨c, q, reset, htop⟩
      · exact hrefcnt
      · exact h.ledger.final c i q p reset true (mem_of_top htop)
  | leak _ _ hcalm => exact absurd ((busy_calm hcalm).mpr hi) hreturned
  | calm _ hcalm => exact absurd ((busy_calm hcalm).mpr hi) hreturned

/-! ## Runs -/

/-- `modperl_config_req_cleanup` does not put back what its select has popped. -/
def NoLeak (site : Site) (s : State) : Act → Prop
  | .reqCleanup r dcfg =>
      ¬s.PopsForHandler site .reqCleanup (site.connection r) (some r) dcfg
  | _ => True

instance : DecidableRel (NoLeak site) := fun s a => by
  unfold NoLeak
  split <;> infer_instance

/-- Who calls `modperl_interp_unselect` has a reference of his own, and who has one calls it. -/
def RefcountOk (site : Site) (s : State) (a : Act) : Prop := StepOk site s a ∧ NoLeak site s a

instance : DecidableRel (RefcountOk site) := fun s a =>
  inferInstanceAs (Decidable (StepOk site s a ∧ NoLeak site s a))

/-- No interpreter is popped that nobody will put back. -/
structure NoneLeaked (s : State) : Prop where
  leaked : s.leaked = []
  selected : ∀ c r i, (c, .selected .reqCleanup r i (.popped none)) ∉ s.frames
  done : ∀ c q i, (c, .reqCleanupDone q i (.popped none)) ∉ s.frames

theorem NoneLeaked.step (h : NoneLeaked s) (hpools : PoolsOk s.tipool s.next)
    (hok : NoLeak site s a) (hs : ModPerl.step site s a = some s') : NoneLeaked s' where
  leaked := by
    cases step_effect hs with
    | select s₀ _ hbefore henter =>
        obtain ⟨s₁, i, source, hselect, hentered⟩ := enter_cases henter (hbefore.poolsOk hpools)
        have hleaked : s₁.leaked = s₀.leaked := by cases hselect <;> rfl
        rw [hentered.leaked, hleaked, hbefore.leaked, h.leaked]
    | putback s₀ i p _ _ hcalm hcalm' =>
        obtain ⟨_, _, _, _, heq⟩ := Sound.putback_eq site s₀ i p
        rw [hcalm'.leaked, heq]
        exact hcalm.leaked.trans h.leaked
    | leak _ htop _ => exact absurd (mem_of_top htop) (h.done _ _ _)
    | calm _ hcalm => rw [hcalm.leaked, h.leaked]
  selected c r i hx := by
    rcases step_frames hpools hs hx with hx | hx
    · exact h.selected c r i hx
    · cases hx with
      | selected ha hbefore hselect _ =>
          have hpops := hbefore.popsForHandler hselect.popsForHandler
          -- only `modperl_config_req_cleanup` leaves one behind
          cases a with
          | reqCleanup q dcfg =>
              simp only [State.selecting, Option.some.injEq, Prod.mk.injEq] at ha
              obtain ⟨-, rfl, rfl, rfl⟩ := ha
              exact hok hpops
          | handlers =>
              simp only [State.selecting] at ha
              split_ifs at ha
              simp at ha
          | response r cgi dcfg => cases cgi <;> simp [State.selecting] at ha
          | requestCleanup =>
              simp only [State.selecting] at ha
              split at ha
              · split_ifs at ha
                simp at ha
              · split_ifs at ha
                simp at ha
              · cases ha
          | _ => simp [State.selecting] at ha
  done c q i hx := by
    rcases step_frames hpools hs hx with hx | hx
    · exact h.done c q i hx
    · cases hx with
      | done htop => exact h.selected c _ i (mem_of_top htop)

/-- The reference count of every interpreter is right. -/
structure RefcountExact (s : State) : Prop where
  /-- An interpreter in use has one holder more than `refcnt`, any other has none. -/
  account : ∀ i, s.holders.count i = if s.Busy i then (s.interp i).refcnt + 1 else 0
  /-- Every pop has had its putback, but for the interpreters in use. -/
  balanced : ∀ i, s.pops i = s.putbacks i + if s.Busy i then 1 else 0
  /-- The holders are calls and cleanups, which will release it. -/
  leaked : s.leaked = []
  /-- The Perl data of a registered cleanup lives in an interpreter in use … -/
  registered : ∀ x ∈ s.cleanups, ∀ i j, x.2.perlData = some (i, j) → s.Busy i
  /-- … and so it does while the cleanup runs. -/
  running : ∀ c p i j, (c, .perlCleanup p i j) ∈ s.frames → s.Busy i

theorem Sound.refcountExact (h : Sound site s) (hbalanced : Balanced s) (hleak : NoneLeaked s) :
    RefcountExact s where
  account i := by simpa using h.ledger.account i
  balanced := hbalanced
  leaked := hleak.leaked
  registered x hx i j hij := by
    have hj := h.ledger.data x hx i j hij
    subst hj
    refine h.ledger.busy_of_cleanup hx ?_
    obtain ⟨p, k⟩ := x
    cases k <;> simp_all [Cleanup.perlData, Cleanup.holds]
  running c p i j hx := h.busy hx

/-- In every run the reference counts are right, and a step puts an interpreter
back if and only if nobody holds it after the step; then there was one holder
before it, who has released it. -/
theorem refcount_exact (h : Reachable (step site) (RefcountOk site) (.start site) s) :
    RefcountExact s ∧ ∀ a s' i, RefcountOk site s a → step site s a = some s' → s.Busy i →
      (¬s'.Busy i ↔ i ∉ s'.holders) ∧ (¬s'.Busy i → s.holders.count i = 1) := by
  have hinv : Sound site s ∧ Balanced s ∧ NoneLeaked s := by
    refine h.invariant (I := fun s => Sound site s ∧ Balanced s ∧ NoneLeaked s)
      ⟨.start, .start, rfl, by simp [State.start], by simp [State.start]⟩ ?_
    rintro s a s' - ⟨hsound, hbalanced, hleak⟩ hok hs
    exact ⟨hsound.step hok.1 hs, hbalanced.step hsound.ledger.pools hs,
      hleak.step hsound.ledger.pools hok.2 hs⟩
  obtain ⟨hsound, hbalanced, hleak⟩ := hinv
  refine ⟨hsound.refcountExact hbalanced hleak, fun a s' i hok hs hi => ⟨?_, fun hreturned => ?_⟩⟩
  · have hsound' := hsound.step hok.1 hs
    simpa using not_congr (hsound'.ledger.busy_iff (i := i))
  · have haccount := hsound.ledger.account i
    rw [if_pos hi, hsound.refcnt_of_returned hs hi hreturned] at haccount
    simpa using haccount

/-- A handler creates an `APR::Pool` below the pool of its request, and returns;
the pool is destroyed. -/
def poolOutlivesHandler : List Act :=
  [.openPool (.conn 0), .openPool (.req 0), .handlers 0 (some 0) true .undef,
    .newPool 0 (.req 0) 7, .leave 0, .endPool (.custom (.req 0) 7),
    .runCleanup (.custom (.req 0) 7), .requestCleanup 0 false .undef]

/-- The destruction of that pool puts the interpreter back. -/
theorem refcount_exact_pool : ∃ s s' : State,
    step (.shared .handler .default id) s (.cleanedUp 0) = some s' ∧ s.Busy ⟨0, 0⟩ ∧
      ¬s'.Busy ⟨0, 0⟩ ∧ RefcountExact s ∧ s.holders.count ⟨0, 0⟩ = 1 ∧ ⟨0, 0⟩ ∉ s'.holders := by
  obtain ⟨s, hs, hok, hbusy, hstep⟩ : ∃ s : State,
      Reachable (step (.shared .handler .default id)) (RefcountOk (.shared .handler .default id))
        (.start (.shared .handler .default id)) s ∧
        RefcountOk (.shared .handler .default id) s (.cleanedUp 0) ∧ s.Busy ⟨0, 0⟩ ∧
        (step (.shared .handler .default id) s (.cleanedUp 0)).any
          (fun s' => decide ¬s'.Busy ⟨0, 0⟩) = true :=
    Reachable.exists_of_run (show runOk _ _ _ poolOutlivesHandler by decide +kernel)
      (by decide +kernel)
  obtain ⟨s', hs', hreturned⟩ := Option.any_eq_true _ _ |>.mp hstep
  have hreturned := of_decide_eq_true hreturned
  obtain ⟨hexact, hlast⟩ := refcount_exact hs
  obtain ⟨hiff, hcount⟩ := hlast _ s' ⟨0, 0⟩ hok hs' hbusy
  exact ⟨s, s', hs', hbusy, hreturned, hexact, hcount hreturned, hiff.mp hreturned⟩

/-- The handler that runs inside the response handler returns, and the
interpreter goes back to the tipool while the response handler still has it. -/
theorem refcount_nested_putback : ∃ s : State,
    Reachable (step (.shared .handler .default id)) Always
      (.start (.shared .handler .default id)) s ∧
      (0, .selected .responseHandler (some 0) ⟨0, 0⟩ (.popped none)) ∈ s.frames ∧
      s.putbacks ⟨0, 0⟩ = 1 ∧ ¬s.Busy ⟨0, 0⟩ :=
  Reachable.exists_of_run (Reachable.runOk_always [.openPool (.conn 0), .openPool (.req 0),
    .response 0 false .undef, .handlers 0 (some 0) true .undef, .leave 0,
    .requestCleanup 0 false .undef, .cleanedUp 0]) (by decide +kernel)

end ModPerl
