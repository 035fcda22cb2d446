import ModPerl.Interp.History

/-!
# Virtual hosts with pools of interpreters of their own

An interpreter that is kept for a request has been popped for its server: main
requests and sub-requests have the same server, and `rcfg->interp` was popped for
the request itself.  In the pool of a connection, however, the interpreter of
another server may be kept, and `modperl_interp_select` does not look where it
comes from.  A select returns an interpreter of the server's own pool unless it is
answered by the pool of the connection, and the interpreter there was popped for
a server that has other interpreters (`vhost_isolation`).
-/

namespace ModPerl

open Machine

variable {site : Site} {s s' s₀ s₁ : State} {a : Act} {caller : Caller} {r : Option ReqId}
  {q q' : ReqId} {c c' : ConnId} {dcfg : InterpScope} {i : InterpId} {source : Source}
  {p : PoolId}

/-- The server for which the interpreter that the pool of the connection keeps was popped. -/
def State.connServer (s : State) (site : Site) (c : ConnId) : Option ServerId :=
  s.uses.findSome? fun
    | .select _ r c' _ (.popped (some (.conn c''))) =>
        if c'' = c then some (site.serverOf c' r) else none
    | _ => none

/-- All selects for requests have returned interpreters of the server's own pool. -/
def Isolated (site : Site) (s : State) : Prop :=
  ∀ caller q c i source, .select caller (some q) c i source ∈ s.uses →
    i.mip = site.mip (site.server q)

/-- If the pool of the connection answers a select for a request, then it was filled for a server
that has the same interpreters. -/
def SameServers (site : Site) (s : State) (a : Act) : Prop :=
  match s.selecting site a with
  | some (caller, c, some q, dcfg) => (s.rcfg q).interp = none →
      (site.searched caller c (some q) dcfg).find? (fun p => (s.userdata p).isSome) =
        some (.conn (site.connection q)) →
      ∀ srv ∈ s.connServer site (site.connection q), site.mip srv = site.mip (site.server q)
  | _ => True

instance : DecidableRel (SameServers site) := fun s a => by
  unfold SameServers
  split <;> infer_instance

/-! ## Tipools without conditions -/

/-- Every step keeps every interpreter in its tipool. -/
theorem step_poolsOk (hpools : PoolsOk s.tipool s.next) (hs : step site s a = some s') :
    PoolsOk s'.tipool s'.next := by
  cases step_effect hs with
  | select s₀ _ hbefore henter =>
      have hpools₀ := hbefore.poolsOk hpools
      obtain ⟨s₁, i, source, hselect, hentered⟩ := enter_cases henter hpools₀
      rw [hentered.tipool, hentered.next]
      rcases hselect.busy hpools₀ with ⟨rfl, -⟩ | ⟨-, -, -, hpools₁, -⟩
      · exact hpools₀
      · exact hpools₁
  | putback s₀ i p _ _ hcalm hcalm' =>
      have hpools₀ : PoolsOk s₀.tipool s₀.next := by
        rw [hcalm.tipool, hcalm.next]
        exact hpools
      rw [hcalm'.tipool, hcalm'.next]
      by_cases hi : s₀.Busy i
      · exact (hpools₀.busy_putback site p hi).2
      · have hcond : ¬(s₀.setInterp i fun x =>
          { x with inUse := false, putback := false, thx := false }).Busy i := hi
        simp only [State.putback, if_neg hcond]
        exact hpools₀
  | leak _ _ hcalm =>
      rw [hcalm.tipool, hcalm.next]
      exact hpools
  | calm _ hcalm =>
      rw [hcalm.tipool, hcalm.next]
      exact hpools

/-! ## The pools of a request -/

/-- The pools that are searched for a request belong to its connection, or to requests of its
server. -/
theorem searched_cases (hp : p ∈ site.searched caller c (some q) dcfg) :
    p = .conn (site.connection q) ∨ ∃ q', p = .req q' ∧ site.server q' = site.server q := by
  have hchain := searched_subset hp
  simp only [Site.chain, Site.above, List.mem_cons, List.mem_append, List.mem_map,
    List.not_mem_nil, or_false] at hchain
  rcases hchain with rfl | ⟨m, hm, rfl⟩ | rfl
  · exact .inr ⟨q, rfl, rfl⟩
  · exact .inr ⟨m, rfl, site.mains_server q m hm⟩
  · exact .inl rfl

/-- Those that are searched for a connection itself. -/
theorem searched_conn (hp : p ∈ site.searched caller c none dcfg) : p = .conn c := by
  simpa [Site.chain] using searched_subset hp

/-! ## The invariant -/

/-- Where an interpreter is kept, it is one of the server's. -/
structure Housed (site : Site) (s : State) : Prop where
  pools : PoolsOk s.tipool s.next
  conn : ∀ c i, s.userdata (.conn c) = some i →
    ∃ srv, s.connServer site c = some srv ∧ i.mip = site.mip srv
  req : ∀ q i, s.userdata (.req q) = some i → i.mip = site.mip (site.server q)
  stored : ∀ q i, (s.rcfg q).interp = some i → i.mip = site.mip (site.server q)

namespace Housed

theorem start : Housed site (.start site) where
  pools := .start site
  conn := by simp [State.start]
  req := by simp [State.start]
  stored := by simp [State.start, ReqConfig.new]

/-- A select for a request returns an interpreter of its server if and only if the condition is
met. -/
theorem select_iff (h : Housed site s) (ha : s.selecting site a = some (caller, c, some q, dcfg))
    (hbefore : Before s s₀) (hselect : Selected site s₀ caller c (some q) dcfg s₁ i source) :
    i.mip = site.mip (site.server q) ↔ SameServers site s a := by
  simp only [SameServers, ha, find?_eq_of_firstKept, ← firstKept_congr hbefore.userdata]
  cases hselect with
  | rcfg hq hrcfg =>
      obtain rfl := Option.some.inj hq
      rw [hbefore.rcfg] at hrcfg
      exact iff_of_true (h.stored q i hrcfg) fun hnone => by simp [hnone] at hrcfg
  | @found p i hnone hfound =>
      have hrcfg : (s.rcfg q).interp = none := by
        rw [← hbefore.rcfg]
        exact hnone
      obtain ⟨hp, hu⟩ := firstKept_eq_some hfound
      rw [hbefore.userdata] at hu
      rw [hfound, Option.map_some, Option.some.injEq]
      rcases searched_cases hp with rfl | ⟨q', rfl, hq'⟩
      · obtain ⟨srv, hsrv, hmip⟩ := h.conn _ i hu
        simp [hrcfg, hsrv, hmip]
      · exact iff_of_true (hq' ▸ h.req q' i hu) (by simp)
  | handler _ hnone _ _ hmip => exact iff_of_true hmip (by simp [hnone])
  | kept _ hnone _ _ hmip _ => exact iff_of_true hmip (by simp [hnone])

/-- A connection goes with the server of the last interpreter that it was given. -/
theorem connServer_select (huses : s'.uses = .select caller r c i source :: s.uses) (c' : ConnId) :
    s'.connServer site c' = if source = .popped (some (.conn c')) then some (site.serverOf c r)
      else s.connServer site c' := by
  rw [State.connServer, huses, List.findSome?_cons]
  cases source with
  | popped kept =>
      cases kept with
      | none => rfl
      | some p =>
          cases p with
          | conn c'' => by_cases hc : c'' = c' <;> simp [hc, State.connServer]
          | _ => simp [State.connServer]
  | _ => rfl

/-- A step that does not select leaves everything where it is. -/
theorem calm (h : Housed site s) (hpools : PoolsOk s'.tipool s'.next)
    (huses : ∀ c, s'.connServer site c = s.connServer site c)
    (hkept : ∀ p i, s'.userdata p = some i → s.userdata p = some i)
    (hstored : ∀ q i, (s'.rcfg q).interp = some i → (s.rcfg q).interp = some i) :
    Housed site s' where
  pools := hpools
  conn c i hi := by
    rw [huses]
    exact h.conn c i (hkept _ i hi)
  req q i hi := h.req q i (hkept _ i hi)
  stored q i hi := h.stored q i (hstored q i hi)

/-- A select that meets the condition. -/
theorem select (h : Housed site s) (hpools : PoolsOk s'.tipool s'.next)
    (hmip : ∀ q, r = some q → i.mip = site.mip (site.server q)) (hbefore : Before s s₀)
    (hselect : Selected site s₀ caller c r dcfg s₁ i source)
    (hentered : Entered s₁ caller c r i source s') : Housed site s' := by
  have hstored : (∀ q, (s₁.rcfg q).interp = (s.rcfg q).interp) → ∀ q j,
      (s'.rcfg q).interp = some j → j.mip = site.mip (site.server q) := by
    intro heq q j hj
    rw [hentered.stored] at hj
    split_ifs at hj with hcond
    · exact Option.some.inj hj ▸ hmip q hcond.2.1
    · exact h.stored q j (heq q ▸ hj)
  have huses : s'.uses = .select caller r c i source :: s.uses := by
    rw [hentered.uses, ← hbefore.uses]
    cases hselect <;> rfl
  -- no connection is given an interpreter, and nothing that is kept changes
  have hsame : (∀ c', source ≠ .popped (some (.conn c'))) → s₁.userdata = s.userdata →
      (∀ q, (s₁.rcfg q).interp = (s.rcfg q).interp) → Housed site s' := by
    intro hsource huserdata hrcfg
    refine ⟨hpools, fun c' j hj => ?_, fun q j hj => ?_, hstored hrcfg⟩ <;>
      rw [hentered.userdata, huserdata] at hj
    · rw [connServer_select huses, if_neg (hsource c')]
      exact h.conn c' j hj
    · exact h.req q j hj
  cases hselect with
  | rcfg => exact hsame (by simp) hbefore.userdata fun q => by rw [hbefore.rcfg]
  | found => exact hsame (by simp) hbefore.userdata fun q => by rw [hbefore.rcfg]
  | @handler i tipool =>
      refine hsame (by simp) hbefore.userdata fun q => ?_
      rw [(s₀.rcfg_handlerPopped tipool i r q).1, hbefore.rcfg]
  | @kept i tipool p _ _ _ _ hpopped hkeeper =>
      have hp := keeper_mem_searched hkeeper
      have hrcfg : ∀ q, ((s₀.keptPopped tipool i p).rcfg q).interp = (s.rcfg q).interp :=
        fun q => by rw [← hbefore.rcfg]; rfl
      have hother : ∀ p', p' ≠ p → s'.userdata p' = s.userdata p' := by
        intro p' hne
        rw [hentered.userdata, ← hbefore.userdata]
        exact Function.update_of_ne hne _ _
      have hself : s'.userdata p = some i := by
        rw [hentered.userdata]
        exact Function.update_self _ _ _
      refine ⟨hpools, fun c' j hj => ?_, fun q j hj => ?_, hstored hrcfg⟩
      · rw [connServer_select huses]
        split_ifs with hc
        · obtain rfl : p = .conn c' := by simpa using hc
          rw [hself] at hj
          exact ⟨_, rfl, Option.some.inj hj ▸ hpopped⟩
        · rw [hother _ fun heq => hc (by rw [heq])] at hj
          exact h.conn c' j hj
      · by_cases hq : PoolId.req q = p
        · rw [hq, hself] at hj
          obtain rfl := Option.some.inj hj
          cases r with
          | none =>
              rw [← hq] at hp
              simpa using searched_conn hp
          | some q₀ =>
              rcases searched_cases hp with heq | ⟨q', heq, hserver'⟩
              · rw [heq] at hq
                cases hq
              · rw [heq] at hq
                obtain rfl := PoolId.req.inj hq
                rw [hserver']
                exact hmip q₀ rfl
        · rw [hother _ hq] at hj
          exact h.req q j hj

/-- The step lemma. -/
theorem step (h : Housed site s) (hok : SameServers site s a)
    (hs : ModPerl.step site s a = some s') : Housed site s' := by
  have hpools := step_poolsOk h.pools hs
  cases step_effect hs with
  | @select caller c r dcfg s₀ ha hbefore henter =>
      obtain ⟨s₁, i, source, hselect, hentered⟩ := enter_cases henter (hbefore.poolsOk h.pools)
      refine h.select hpools (fun q hq => ?_) hbefore hselect hentered
      subst hq
      exact (h.select_iff ha hbefore hselect).mpr hok
  | putback s₀ i p _ _ hcalm hcalm' =>
      obtain ⟨_, _, _, _, heq⟩ := Sound.putback_eq site s₀ i p
      refine h.calm hpools (fun c => ?_) (fun p' j hj => ?_) fun q j hj => ?_
      · rw [State.connServer, hcalm'.uses, uses_putback, hcalm.uses]
        split_ifs <;> rfl
      · have := hcalm'.kept p' j hj
        rw [heq] at this
        exact hcalm.kept p' j this
      · have := hcalm'.stored q j hj
        rw [heq] at this
        exact hcalm.stored q j this
  | leak _ _ hcalm =>
      exact h.calm hpools (fun c => congrArg (List.findSome? _) hcalm.uses) hcalm.kept hcalm.stored
  | calm _ hcalm =>
      exact h.calm hpools (fun c => congrArg (List.findSome? _) hcalm.uses) hcalm.kept hcalm.stored

/-- One step: all selects for requests have returned interpreters of their server if and only if
the condition is met. -/
theorem isolated_iff (h : Housed site s) (hisolated : Isolated site s)
    (hs : ModPerl.step site s a = some s') : Isolated site s' ↔ SameServers site s a := by
  -- a step that adds no select for a request
  have hquiet : (∀ caller c q dcfg, s.selecting site a ≠ some (caller, c, some q, dcfg)) →
      (∀ caller q c i source, .select caller (some q) c i source ∈ s'.uses →
        .select caller (some q) c i source ∈ s.uses) →
      (Isolated site s' ↔ SameServers site s a) := by
    intro ha hback
    refine iff_of_true (fun caller q c i source hmem => ?_) ?_
    · exact hisolated _ _ _ _ _ (hback _ _ _ _ _ hmem)
    · unfold SameServers
      split
      · next ha' => exact absurd ha' (ha _ _ _ _)
      · trivial
  cases step_effect hs with
  | @select caller c r dcfg s₀ ha hbefore henter =>
      obtain ⟨s₁, i, source, hselect, hentered⟩ := enter_cases henter (hbefore.poolsOk h.pools)
      have huses : s'.uses = .select caller r c i source :: s.uses := by
        rw [hentered.uses, ← hbefore.uses]
        cases hselect <;> rfl
      cases r with
      | none =>
          refine hquiet (by simp [ha]) fun caller' q c' i' source' hmem => ?_
          simpa [huses] using hmem
      | some q =>
          rw [← h.select_iff ha hbefore hselect]
          constructor
          · intro hall
            exact hall caller q c i source (huses ▸ List.mem_cons_self)
          · intro hmip caller' q' c' i' source' hmem
            rw [huses] at hmem
            rcases List.mem_cons.mp hmem with heq | hmem
            · cases heq
              exact hmip
            · exact hisolated _ _ _ _ _ hmem
  | putback s₀ i p ha _ hcalm hcalm' =>
      refine hquiet (by simp [ha]) fun caller q c j source hmem => ?_
      rw [hcalm'.uses, uses_putback, hcalm.uses] at hmem
      split_ifs at hmem
      · simpa using hmem
      · exact hmem
  | leak ha _ hcalm => exact hquiet (by simp [ha]) fun _ _ _ _ _ hmem => hcalm.uses ▸ hmem
  | calm ha hcalm => exact hquiet (by simp [ha]) fun _ _ _ _ _ hmem => hcalm.uses ▸ hmem

end Housed

/-! ## Runs -/

/-- In a run in which no request finds, in the pool of its connection, an
interpreter that was popped for a server with other interpreters, all requests get
interpreters of their own server; the first step that does otherwise gives a
request one of another server. -/
theorem vhost_isolation (h : Reachable (step site) (SameServers site) (.start site) s) :
    Isolated site s ∧ ∀ a s', ¬SameServers site s a → step site s a = some s' →
      ¬Isolated site s' := by
  have hinv : Housed site s ∧ Isolated site s := by
    refine h.invariant (I := fun s => Housed site s ∧ Isolated site s)
      ⟨.start, fun _ _ _ _ _ hmem => by simp [State.uses, State.start] at hmem⟩ ?_
    rintro s a s' - ⟨hhoused, hisolated⟩ hok hs
    exact ⟨hhoused.step hok hs, (hhoused.isolated_iff hisolated hs).mpr hok⟩
  exact ⟨hinv.2, fun a s' hok hs => mt (hinv.1.isolated_iff hinv.2 hs).mp hok⟩

/-- Every request has a virtual host of its own, with its own interpreters; all of
them come in one connection, in which the base server runs connection handlers. -/
def vhosts : Site where
  mip srv := srv
  interpScope _ := .request
  enable _ := true
  interpPoolCfg _ := .default
  baseServer _ := 0
  connection _ := 0
  server r := r
  mains _ := []
  mains_tail := Site.mains_tail_nil
  mains_connection := by simp
  mains_server := by simp

/-- A `PerlPreConnectionHandler` of the base server has run; the next request is
for a virtual host. -/
theorem vhost_isolation_preConnection : ∃ s s' : State,
    step vhosts s (.handlers 0 (some 1) true .undef) = some s' ∧ Isolated vhosts s ∧
      ¬Isolated vhosts s' := by
  obtain ⟨s, hs, hok, hstep⟩ : ∃ s : State,
      Reachable (step vhosts) (SameServers vhosts) (.start vhosts) s ∧
        ¬SameServers vhosts s (.handlers 0 (some 1) true .undef) ∧
        (step vhosts s (.handlers 0 (some 1) true .undef)).isSome = true :=
    Reachable.exists_of_run (show runOk _ _ _ [.openPool (.conn 0),
      .handlers 0 none true .undef, .leave 0, .openPool (.req 1)] by decide +kernel)
      (by decide +kernel)
  obtain ⟨s', hs'⟩ := Option.isSome_iff_exists.mp hstep
  obtain ⟨hisolated, hbreaks⟩ := vhost_isolation hs
  exact ⟨s, s', hs', hisolated, hbreaks _ s' hok hs'⟩

/-- The virtual host of the request has interpreters of its own, and the request
gets one of the base server. -/
theorem vhost_finds_base_interp : ∃ s : State,
    Reachable (step vhosts) Always (.start vhosts) s ∧
      .select .handlers (some 1) 0 ⟨0, 0⟩ (.found (.conn 0)) ∈ s.uses ∧
      vhosts.mip (vhosts.server 1) = 1 ∧ ¬Isolated vhosts s := by
  obtain ⟨s, hs, hmem⟩ : ∃ s : State,
      Reachable (step vhosts) Always (.start vhosts) s ∧
        .select .handlers (some 1) 0 ⟨0, 0⟩ (.found (.conn 0)) ∈ s.uses :=
    Reachable.exists_of_run (Reachable.runOk_always [.openPool (.conn 0),
      .handlers 0 none true .undef, .leave 0, .openPool (.req 1),
      .handlers 0 (some 1) true .undef]) (by decide +kernel)
  exact ⟨s, hs, hmem, rfl, fun hall => absurd (hall _ _ _ _ _ hmem) (by decide)⟩

end ModPerl
