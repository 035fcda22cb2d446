import ModPerl.Interp.Ownership

/-!
# `pnotes`

The hash of `$r->pnotes` lives in the heap of the interpreter that made the first
access, and a cleanup of the request's pool releases it there.  It is safe with
that interpreter as long as a pool of the request keeps the interpreter: then the
pool's cleanup that puts it back comes after the one that releases the hash
(`PnotesKept`), and everybody who finds the interpreter in that pool is the
request, a part of it, or the connection it belongs to.

Nothing in `modperl_pnotes` asks whether a pool keeps the interpreter, or the same
pool as before.  Both are conditions on the access (`PnotesOk`).
-/

namespace ModPerl

open Machine

variable {site : Site} {s s' s₀ s₁ : State} {a : Act} {caller : Caller} {r : Option ReqId}
  {c : ConnId} {dcfg : InterpScope} {i : InterpId} {source : Source} {p p' : PoolId} {q : ReqId}
  {n : Pnotes} {k : Cleanup}

/-- The pools of a request: its own and those that contain it. -/
def Site.poolsOf (site : Site) (q : ReqId) : List PoolId := site.chain (site.connection q) (some q)

/-- An access to the `pnotes` of a request is made in an interpreter that one of the
request's pools keeps, and the one that kept that of the first access. -/
def AccessOk (site : Site) (s : State) : Act → Prop
  | .pnotes c q => ∀ i ∈ s.running c, ∃ p ∈ site.poolsOf q,
      (p, .unselect i) ∈ s.cleanups ∧ ∀ n ∈ (s.rcfg q).pnotes, n.kept = some p
  | _ => True

instance : DecidableRel (AccessOk site) := fun s a => by
  unfold AccessOk
  split <;> infer_instance

/-- The conditions on a step. -/
def PnotesOk (site : Site) (s : State) (a : Act) : Prop := StepOk site s a ∧ AccessOk site s a

instance : DecidableRel (PnotesOk site) := fun s a =>
  inferInstanceAs (Decidable (StepOk site s a ∧ AccessOk site s a))

/-- The interpreter is in use; a pool of the request has it, and who has selected it
did so for a request, or a connection, with the same pool. -/
structure HeldFor (site : Site) (s : State) (q : ReqId) (i : InterpId) : Prop where
  busy : s.Busy i
  shared : ∃ p ∈ site.poolsOf q, s.userdata p = some i ∧
    ∀ c caller r source, (c, .selected caller r i source) ∈ s.frames → p ∈ site.chain c r

/-- A hash will be released by a cleanup that is newer than the one that puts its
interpreter back; and each such cleanup has its hash. -/
structure PnotesKept (site : Site) (s : State) : Prop where
  kept : ∀ q n, (s.rcfg q).pnotes = some n → ∃ p ∈ site.poolsOf q, n.kept = some p ∧
    [(.req q, .pnotes q n.perl), (p, .unselect n.perl)].Sublist s.cleanups
  cleanup : ∀ p q i, (p, .pnotes q i) ∈ s.cleanups → p = .req q ∧
    s.status (.req q) ≠ .unborn ∧ s.status (.req q) ≠ .ended ∧
    ∃ n, (s.rcfg q).pnotes = some n ∧ n.perl = i
  once : (s.cleanups.filterMap (·.2.releases)).Nodup

section Lists

variable {α : Type*} {l pre post : List α} {x : α}

/-- A sublist stays one if something else is taken away. -/
theorem sublist_of_notMem (h : l.Sublist (pre ++ x :: post)) (hx : x ∉ l) :
    l.Sublist (pre ++ post) := by
  obtain ⟨l₁, l₂, rfl, h₁, h₂⟩ := List.sublist_append_iff.mp h
  refine h₁.append ?_
  rcases List.sublist_cons_iff.mp h₂ with h₂ | ⟨l₃, rfl, -⟩
  · exact h₂
  · exact absurd (List.mem_append_right _ List.mem_cons_self) hx

end Lists

namespace Sound

/-- An interpreter that a pool keeps has no other owner. -/
theorem not_owns_of_kept (h : Sound site s) (hkept : (p, .unselect i) ∈ s.cleanups)
    {f : Frame} (hf : (c, f) ∈ s.frames) : f.owns ≠ some i := by
  intro howns
  have hframe : i ∈ s.frames.filterMap (·.2.owns) := List.mem_filterMap.mpr ⟨_, hf, howns⟩
  have hpool : i ∈ s.cleanups.filterMap (·.2.owns) := List.mem_filterMap.mpr ⟨_, hkept, rfl⟩
  have hnodup := (List.nodup_append.mp h.ledger.owners).1
  exact (List.nodup_append.mp hnodup).2.2 i hframe i hpool rfl

/-- Who has selected an interpreter that a pool keeps has that pool. -/
theorem mem_chain_of_kept (h : Sound site s) (hkept : (p, .unselect i) ∈ s.cleanups)
    (hf : (c, .selected caller r i source) ∈ s.frames) : p ∈ site.chain c r := by
  have hbased : ∀ p', (Frame.selected caller r i source).based = some (p', i) →
      p ∈ site.chain c r := by
    intro p' hp'
    obtain ⟨hchain, hkept'⟩ := h.calls.based c _ hf p' i hp'
    exact h.kept_unique hkept hkept' ▸ hchain
  cases source with
  | rcfg =>
      obtain ⟨r', i', g, hborrows, hg, hstores⟩ := h.calls.borrowed.exists_stores hf rfl
      refine absurd ?_ (h.not_owns_of_kept hkept hg)
      cases r with
      | none => cases hborrows
      | some r =>
          obtain ⟨-, rfl⟩ := Prod.mk.inj (Option.some.inj hborrows)
          unfold Frame.stores at hstores
          split at hstores <;> simp_all [Frame.owns]
  | found p' => exact hbased p' rfl
  | popped kept =>
      cases kept with
      | none => exact absurd rfl (h.not_owns_of_kept hkept hf)
      | some p' => exact hbased p' rfl

theorem heldFor (h : Sound site s) (hp : p ∈ site.poolsOf q)
    (hkept : (p, .unselect i) ∈ s.cleanups) : HeldFor site s q i :=
  ⟨h.ledger.busy_of_cleanup hkept rfl, p, hp, (h.keeping.kept p i hkept).1,
    fun _ _ _ _ hf => h.mem_chain_of_kept hkept hf⟩

end Sound

/-- A pool that has cleanups has not ended. -/
theorem status_of_cleanup (hpools : PoolsOk s.tipool s.next) (hs : step site s a = some s')
    (hk : (p, k) ∈ s.cleanups) (hborn : s.status p ≠ .unborn) (hended : s.status p ≠ .ended) :
    s'.status p ≠ .unborn ∧ s'.status p ≠ .ended := by
  constructor
  · intro hunborn
    have hage := step_age hpools hs p
    rw [hunborn] at hage
    cases hst : s.status p <;> simp_all [PoolStatus.age]
  · intro hend
    rcases step_ended hpools hs hend with h | ⟨-, hnone, -⟩
    · exact hended h
    · exact nextCleanup_eq_none hnone hk rfl

theorem keptIn_eq_some (h : Sound site s) (hkept : (p, .unselect i) ∈ s.cleanups) :
    s.keptIn i = some p := by
  unfold State.keptIn
  cases hfind : s.cleanups.find? (·.2 = .unselect i) with
  | none =>
      have hnone := List.find?_eq_none.mp hfind _ hkept
      simp at hnone
  | some x =>
      obtain ⟨p', k⟩ := x
      obtain rfl : k = .unselect i := by simpa using List.find?_some hfind
      rw [Option.map_some, h.kept_unique (List.mem_of_find?_eq_some hfind) hkept]

namespace PnotesKept

theorem start : PnotesKept site (.start site) where
  kept q n hn := by cases hn
  cleanup p q i hk := by cases hk
  once := List.nodup_nil

/-- The hashes are the same, and at most a cleanup was added that releases none. -/
theorem of_suffix (h : PnotesKept site s) (hpools : PoolsOk s.tipool s.next)
    (hs : ModPerl.step site s a = some s') (new : List (PoolId × Cleanup))
    (hnew : new.filterMap (·.2.releases) = []) (hcleanups : s'.cleanups = new ++ s.cleanups)
    (hpnotes : ∀ q, (s'.rcfg q).pnotes = (s.rcfg q).pnotes) : PnotesKept site s' where
  kept q n hn := by
    rw [hpnotes] at hn
    obtain ⟨p, hp, hkept, hsublist⟩ := h.kept q n hn
    exact ⟨p, hp, hkept, hcleanups ▸ hsublist.trans (List.sublist_append_right _ _)⟩
  cleanup p q i hk := by
    rw [hcleanups] at hk
    rcases List.mem_append.mp hk with hk | hk
    · have hmem : q ∈ new.filterMap (·.2.releases) := List.mem_filterMap.mpr ⟨_, hk, rfl⟩
      rw [hnew] at hmem
      cases hmem
    · obtain ⟨rfl, hborn, hended, hn⟩ := h.cleanup p q i hk
      obtain ⟨hborn', hended'⟩ := status_of_cleanup hpools hs hk hborn hended
      exact ⟨rfl, hborn', hended', by rwa [hpnotes]⟩
  once := by
    rw [hcleanups, List.filterMap_append, hnew]
    exact h.once

/-- The first access. -/
theorem of_pnotes (h : PnotesKept site s) (hsound : Sound site s)
    (hok : AccessOk site s (.pnotes c q)) (hs : ModPerl.step site s (.pnotes c q) = some s')
    (hrunning : s.running c = some i) (hnone : (s.rcfg q).pnotes = none)
    (hcleanups : s'.cleanups = (.req q, .pnotes q i) :: s.cleanups)
    (hpnotes : ∀ q', (s'.rcfg q').pnotes =
      if q' = q then some ⟨i, s.keptIn i⟩ else (s.rcfg q').pnotes) : PnotesKept site s' := by
  have hpools := hsound.ledger.pools
  -- the interpreter that runs is kept by a pool of the request
  obtain ⟨p, hp, hkept, -⟩ := hok i hrunning
  have halive : s.status (.req q) ≠ .unborn ∧ s.status (.req q) ≠ .ended := by
    obtain ⟨_, -, hs⟩ := Option.bind_eq_some_iff.mp hs
    split_ifs at hs with hcond
    rcases hcond.2 with hst | hst | hst <;> simp [hst]
  constructor
  case kept =>
    intro q' n hn
    rw [hpnotes] at hn
    split_ifs at hn with hq
    · obtain rfl := Option.some.inj hn
      subst hq
      refine ⟨p, hp, keptIn_eq_some hsound hkept, ?_⟩
      rw [hcleanups]
      exact (List.singleton_sublist.mpr hkept).cons_cons _
    · obtain ⟨p', hp', hkept', hsublist⟩ := h.kept q' n hn
      exact ⟨p', hp', hkept', hcleanups ▸ hsublist.cons _⟩
  case cleanup =>
    intro p' q' i' hk
    rw [hcleanups] at hk
    rcases List.mem_cons.mp hk with heq | hk
    · cases heq
      refine ⟨rfl, fun hunborn => ?_, fun hend => ?_, _, by rw [hpnotes, if_pos rfl], rfl⟩
      · have hage := step_age hpools hs (.req q)
        rw [hunborn] at hage
        cases hst : s.status (.req q) <;> simp_all [PoolStatus.age]
      · rcases step_ended hpools hs hend with hst | ⟨hact, -⟩
        · exact halive.2 hst
        · cases hact
    · obtain ⟨rfl, hborn, hended, n, hn, hperl⟩ := h.cleanup p' q' i' hk
      obtain ⟨hborn', hended'⟩ := status_of_cleanup hpools hs hk hborn hended
      have hne : q' ≠ q := by
        rintro rfl
        rw [hnone] at hn
        cases hn
      exact ⟨rfl, hborn', hended', n, by rw [hpnotes, if_neg hne, hn], hperl⟩
  case once =>
    have hreleases : s'.cleanups.filterMap (·.2.releases) =
        q :: s.cleanups.filterMap (·.2.releases) := by
      rw [hcleanups]
      rfl
    rw [hreleases, List.nodup_cons]
    refine ⟨fun hmem => ?_, h.once⟩
    obtain ⟨⟨p', k⟩, hk, hreleases⟩ := List.mem_filterMap.mp hmem
    cases k with
    | pnotes q' i' =>
        obtain rfl := Option.some.inj hreleases
        obtain ⟨-, -, -, n, hn, -⟩ := h.cleanup p' _ i' hk
        rw [hnone] at hn
        cases hn
    | _ => cases hreleases

/-- The cleanup that puts the interpreter back is not the newest one of the request's pool. -/
theorem not_unselect_first (hsound : Sound site s) {pre post : List (PoolId × Cleanup)}
    (hsplit : s.cleanups = pre ++ (p, .unselect i) :: post) (hpre : ∀ x ∈ pre, x.1 ≠ p)
    (hself : p = .req q)
    (hsublist : [(.req q, .pnotes q i), (p, .unselect i)].Sublist
      (pre ++ (p, .unselect i) :: post)) : False := by
  obtain ⟨l₁, l₂, heq, h₁, h₂⟩ := List.sublist_append_iff.mp hsublist
  have hpost : [(.req q, .pnotes q i), (p, .unselect i)].Sublist ((p, .unselect i) :: post) := by
    cases l₁ with
    | nil => exact heq ▸ h₂
    | cons x l₁ =>
        have hx : x = (.req q, .pnotes q i) := (List.cons.inj heq).1.symm
        exact absurd (by rw [hx, hself]) (hpre x (h₁.subset List.mem_cons_self))
  have hmem : (p, .unselect i) ∈ post := by
    rcases List.sublist_cons_iff.mp hpost with hpost | ⟨l₃, hl₃, -⟩
    · exact hpost.subset (List.mem_cons_of_mem _ List.mem_cons_self)
    · cases hl₃
  -- no interpreter is kept twice
  have howners : (s.cleanups.filterMap (·.2.owns)).Nodup :=
    (List.nodup_append.mp (List.nodup_append.mp hsound.ledger.owners).1).2.1
  rw [hsplit] at howners
  have hperm : ((pre ++ (p, .unselect i) :: post).filterMap (·.2.owns)).Perm
      (i :: (pre ++ post).filterMap (·.2.owns)) := perm_filterMap_split
  refine (List.nodup_cons.mp (hperm.nodup_iff.mp howners)).1 ?_
  exact List.mem_filterMap.mpr ⟨_, List.mem_append_right _ hmem, rfl⟩

/-- A cleanup runs. -/
theorem of_run (h : PnotesKept site s) (hsound : Sound site s)
    (hs : ModPerl.step site s (.runCleanup p) = some s') (hnext : s.nextCleanup p = some k)
    (hchildless : s.Childless site p) (hcleanups : s'.cleanups = (s.dropCleanup p).cleanups)
    (hpnotes : ∀ q, (s'.rcfg q).pnotes =
      if k.releases = some q then none else (s.rcfg q).pnotes) : PnotesKept site s' := by
  obtain ⟨pre, post, hsplit, hpre, hdrop⟩ := nextCleanup_eq_some hnext
  rw [hdrop] at hcleanups
  have hold : ∀ x ∈ pre ++ post, x ∈ s.cleanups := by
    intro x hx
    rw [hsplit]
    simp only [List.mem_append, List.mem_cons] at hx ⊢
    exact hx.imp_right .inr
  have honce := h.once
  rw [hsplit] at honce
  constructor
  case kept =>
    intro q n hn
    rw [hpnotes] at hn
    split_ifs at hn with hreleases
    obtain ⟨p₀, hp₀, hkept, hsublist⟩ := h.kept q n hn
    refine ⟨p₀, hp₀, hkept, ?_⟩
    rw [hcleanups]
    rw [hsplit] at hsublist
    refine sublist_of_notMem hsublist fun hmem => ?_
    rcases List.mem_cons.mp hmem with heq | hmem
    · cases heq
      exact hreleases rfl
    · obtain ⟨rfl, rfl⟩ := Prod.mk.inj (List.mem_singleton.mp hmem)
      refine (List.mem_cons.mp hp₀).elim (fun hself => ?_) fun habove => ?_
      · exact not_unselect_first hsound hsplit hpre hself hsublist
      · -- the request's pool is below this one, and has its cleanup still
        have hnote : (.req q, .pnotes q n.perl) ∈ s.cleanups := by
          rw [hsplit]
          exact hsublist.subset List.mem_cons_self
        obtain ⟨-, hborn, hended, -⟩ := h.cleanup _ _ _ hnote
        exact hended (hchildless.1 (.req q) (hsound.tree.created _ hborn) habove)
  case cleanup =>
    intro p' q i hk
    rw [hcleanups] at hk
    obtain ⟨rfl, hborn, hended, n, hn, hperl⟩ := h.cleanup p' q i (hold _ hk)
    obtain ⟨hborn', hended'⟩ :=
      status_of_cleanup hsound.ledger.pools hs (hold _ hk) hborn hended
    refine ⟨rfl, hborn', hended', n, ?_, hperl⟩
    rw [hpnotes, if_neg, hn]
    intro hreleases
    -- a request has one such cleanup, and this is another one
    have hperm : ((pre ++ (p, k) :: post).filterMap (·.2.releases)).Perm
        (q :: (pre ++ post).filterMap (·.2.releases)) := by
      refine (List.perm_middle.filterMap _).trans (.of_eq ?_)
      exact List.filterMap_cons_some hreleases
    exact (List.nodup_cons.mp (hperm.nodup_iff.mp honce)).1 (List.mem_filterMap.mpr ⟨_, hk, rfl⟩)
  case once =>
    rw [hcleanups]
    refine honce.sublist (List.Sublist.filterMap _ ?_)
    exact List.Sublist.append (List.Sublist.refl _) (List.sublist_cons_self _ _)

/-- The step lemma. -/
theorem step (h : PnotesKept site s) (hsound : Sound site s) (hok : AccessOk site s a)
    (hs : ModPerl.step site s a = some s') : PnotesKept site s' := by
  have hpools := hsound.ledger.pools
  cases step_cleanups hpools hs with
  | same hsame => exact h.of_suffix hpools hs [] rfl hsame.1 hsame.2
  | kept _ _ _ _ hcleanups hpnotes =>
      exact h.of_suffix hpools hs [_] rfl hcleanups hpnotes
  | registered hk hcleanups hpnotes =>
      refine h.of_suffix hpools hs [_] ?_ hcleanups hpnotes
      rcases hk with rfl | ⟨rfl, -⟩ <;> rfl
  | pnotes ha hrunning hnone hcleanups hpnotes =>
      subst ha
      exact h.of_pnotes hsound hok hs hrunning hnone hcleanups hpnotes
  | run ha hnext hchildless _ hcleanups hpnotes =>
      subst ha
      exact h.of_run hsound hs hnext hchildless hcleanups hpnotes

theorem heldFor (h : PnotesKept site s) (hsound : Sound site s)
    (hn : (s.rcfg q).pnotes = some n) : HeldFor site s q n.perl := by
  obtain ⟨p, hp, -, hsublist⟩ := h.kept q n hn
  exact hsound.heldFor hp (hsublist.subset (List.mem_cons_of_mem _ List.mem_cons_self))

/-- An access in an interpreter that a pool of the request keeps is made by the
interpreter of the first one exactly if that pool kept it. -/
theorem perl_eq_iff (h : PnotesKept site s) (hsound : Sound site s)
    (hn : (s.rcfg q).pnotes = some n) (hkept : (p, .unselect i) ∈ s.cleanups) :
    n.perl = i ↔ n.kept = some p := by
  obtain ⟨p', -, hkept', hsublist⟩ := h.kept q n hn
  have hperl : (p', .unselect n.perl) ∈ s.cleanups :=
    hsublist.subset (List.mem_cons_of_mem _ List.mem_cons_self)
  rw [hkept', Option.some.injEq]
  constructor
  · rintro rfl
    exact hsound.kept_unique hperl hkept
  · rintro rfl
    have huserdata := (hsound.keeping.kept p' _ hperl).1
    rw [(hsound.keeping.kept p' i hkept).1] at huserdata
    exact (Option.some.inj huserdata).symm

end PnotesKept

/-- In a run in which every access to the `pnotes` of a request is made in an
interpreter kept in a pool of the request, always the same pool: a hash belongs to an
interpreter that is in use for its request only, until it is released; it is accessed,
and released, by that interpreter.  The first access in an interpreter that another
pool keeps is made by another interpreter. -/
theorem pnotes_stay (h : Reachable (step site) (PnotesOk site) (.start site) s) :
    (∀ q n, (s.rcfg q).pnotes = some n → HeldFor site s q n.perl) ∧
    (∀ c q i s', s.running c = some i → PnotesOk site s (.pnotes c q) →
      step site s (.pnotes c q) = some s' → HeldFor site s q i ∧
        ∃ n, (s'.rcfg q).pnotes = some n ∧ n.perl = i ∧ ∀ m ∈ (s.rcfg q).pnotes, m = n) ∧
    (∀ p q i, s.nextCleanup p = some (.pnotes q i) → p = .req q ∧ HeldFor site s q i ∧
      ∃ n, (s.rcfg q).pnotes = some n ∧ n.perl = i) ∧
    ∀ q n p i, (s.rcfg q).pnotes = some n → (p, .unselect i) ∈ s.cleanups → n.kept ≠ some p →
      n.perl ≠ i := by
  have hinv : Sound site s ∧ PnotesKept site s := by
    refine h.invariant (I := fun s => Sound site s ∧ PnotesKept site s) ⟨.start, .start⟩ ?_
    rintro s a s' - ⟨hsound, hkept⟩ ⟨hok, haccess⟩ hs
    exact ⟨hsound.step hok hs, hkept.step hsound haccess hs⟩
  obtain ⟨hsound, hkept⟩ := hinv
  refine ⟨fun q n hn => hkept.heldFor hsound hn, ?_, ?_, ?_⟩
  · intro c q i s' hrunning hok hs
    obtain ⟨p, hp, hkeeps, hsame⟩ := hok.2 i hrunning
    refine ⟨hsound.heldFor hp hkeeps, ?_⟩
    obtain ⟨j, hj, hs⟩ := Option.bind_eq_some_iff.mp hs
    obtain rfl := Option.some.inj (hrunning.symm.trans hj)
    split_ifs at hs
    rw [← Option.some.inj hs]
    cases hn : (s.rcfg q).pnotes with
    | none =>
        refine ⟨⟨i, s.keptIn i⟩, ?_, rfl, fun m hm => by cases hm⟩
        simp [State.pnotes, hn, State.setRcfg]
    | some n =>
        refine ⟨n, ?_, (hkept.perl_eq_iff hsound hn hkeeps).mpr (hsame n hn), ?_⟩
        · simp [State.pnotes, hn]
        · exact fun m hm => (Option.some.inj hm).symm
  · intro p q i hnext
    obtain ⟨pre, post, hsplit, -⟩ := nextCleanup_eq_some hnext
    obtain ⟨rfl, -, -, n, hn, rfl⟩ := hkept.cleanup p q i (by simp [hsplit])
    exact ⟨rfl, hkept.heldFor hsound hn, n, hn, rfl⟩
  · intro q n p i hn hkeeps hother hperl
    exact hother ((hkept.perl_eq_iff hsound hn hkeeps).mp hperl)

/-- A request with two phases that use its `pnotes`; the second connection has its
own interpreter. -/
theorem pnotes_stay_two : ∃ s : State,
    (∃ n, (s.rcfg 0).pnotes = some n ∧ HeldFor (.shared .request .default id) s 0 n.perl) ∧
      s.running 1 = some ⟨0, 1⟩ := by
  obtain ⟨s, hs, hsome, hrunning⟩ : ∃ s : State,
      Reachable (step (.shared .request .default id)) (PnotesOk (.shared .request .default id))
        (.start (.shared .request .default id)) s ∧
        (s.rcfg 0).pnotes.isSome = true ∧ s.running 1 = some ⟨0, 1⟩ :=
    Reachable.exists_of_run (show runOk _ _ _ [.openPool (.conn 0), .openPool (.req 0),
      .openPool (.conn 1), .openPool (.req 1), .handlers 0 (some 0) true .undef, .pnotes 0 0,
      .leave 0, .handlers 1 (some 1) true .undef, .handlers 0 (some 0) true .undef, .pnotes 0 0]
      by decide +kernel) (by decide +kernel)
  obtain ⟨n, hn⟩ := Option.isSome_iff_exists.mp hsome
  exact ⟨s, ⟨n, hn, (pnotes_stay hs).1 0 n hn⟩, hrunning⟩

/-- Under handler scope the interpreter of the first access is put back, the other
request pops it, and the second access is made by another one. -/
theorem pnotes_of_another : ∃ s s' : State,
    Reachable (step (.shared .handler .default id)) (StepOk (.shared .handler .default id))
      (.start (.shared .handler .default id)) s ∧
    step (.shared .handler .default id) s (.pnotes 0 0) = some s' ∧
    s.running 0 = some ⟨0, 1⟩ ∧ s.Uses 1 ⟨0, 0⟩ ∧
    ∃ n, (s.rcfg 0).pnotes = some n ∧ n.perl = ⟨0, 0⟩ := by
  obtain ⟨s, hs, hrunning, huses, hperl, hstep⟩ : ∃ s : State,
      Reachable (step (.shared .handler .default id)) (StepOk (.shared .handler .default id))
        (.start (.shared .handler .default id)) s ∧
        s.running 0 = some ⟨0, 1⟩ ∧ s.Uses 1 ⟨0, 0⟩ ∧
        (s.rcfg 0).pnotes.map Pnotes.perl = some ⟨0, 0⟩ ∧
        (step (.shared .handler .default id) s (.pnotes 0 0)).isSome = true :=
    Reachable.exists_of_run (show runOk _ _ _ [.openPool (.conn 0), .openPool (.req 0),
      .openPool (.conn 1), .openPool (.req 1), .handlers 0 (some 0) true .undef, .pnotes 0 0,
      .leave 0, .requestCleanup 0 false .undef, .cleanedUp 0, .handlers 1 (some 1) true .undef,
      .handlers 0 (some 0) true .undef] by decide +kernel) (by decide +kernel)
  obtain ⟨s', hs'⟩ := Option.isSome_iff_exists.mp hstep
  obtain ⟨n, hn, hperl⟩ := Option.map_eq_some_iff.mp hperl
  exact ⟨s, s', hs, hs', hrunning, huses, n, hn, hperl⟩

end ModPerl
