import ModPerl.Library.Machine
import Mathlib.Data.List.Basic
import Mathlib.Logic.Function.Basic

/-!
# The global request of a thread

Setting the global request registers a cleanup with the pool of the new request, which puts
the old value back.  This is a stack: the request that was set last has to go first.
Sub-requests live in sub-pools of their parent, and each may be kept as long as its caller
likes, so that the pools of a thread are destroyed in any order in which sub-pools go before
their parent.

A pool is destroyed in steps.  Its cleanups run one after the other, the newest first; a
cleanup handler among them may still set the global request.  Then the memory is freed, with
all requests in it.
-/

namespace ModPerl

open Machine

/-- `request_rec`: its pool, and `MpReqSET_GLOBAL_REQUEST`. -/
structure GlobalReq where
  pool : ℕ
  isSet : Bool
  deriving DecidableEq

/-- A pool that has not been freed, and the one that it is a sub-pool of. -/
structure ReqPool where
  id : ℕ
  parent : Option ℕ
  deriving DecidableEq

/-- What a thread knows of its requests. -/
structure ReqThread where
  /-- `MP_tls_request_rec` -/
  tls : Option ℕ
  /-- All requests so far, by their address.  No address is used twice. -/
  requests : List GlobalReq
  /-- The newest first. -/
  pools : List ReqPool
  /-- `modperl_tls_cleanup_data_t` of the cleanups of a pool, the newest first. -/
  cleanups : ℕ → List (Option ℕ)
  /-- The pool whose cleanups run. -/
  closing : Option ℕ

namespace ReqThread

def start : ReqThread where
  tls := none
  requests := []
  pools := []
  cleanups := fun _ => []
  closing := none

/-- `r->pool` -/
def poolOf (s : ReqThread) (r : ℕ) : Option ℕ := s.requests[r]?.map GlobalReq.pool

/-- The pool has not been freed. -/
def HasPool (s : ReqThread) (p : ℕ) : Prop := p ∈ s.pools.map ReqPool.id

instance (s : ReqThread) (p : ℕ) : Decidable (s.HasPool p) :=
  inferInstanceAs (Decidable (_ ∈ _))

/-- The pool of the request has not been freed. -/
def Alive (s : ReqThread) (r : ℕ) : Prop := ∃ p, s.poolOf r = some p ∧ s.HasPool p

instance (s : ReqThread) (r : ℕ) : Decidable (s.Alive r) :=
  match h : s.poolOf r with
  | none => isFalse fun ⟨p, hp, _⟩ => by rw [h] at hp; cases hp
  | some p =>
      decidable_of_iff (s.HasPool p)
        ⟨fun hp => ⟨p, h, hp⟩, fun ⟨q, hq, hhas⟩ => by
          rw [h] at hq
          exact Option.some.inj hq ▸ hhas⟩

/-- `modperl_tls_reset_cleanup` -/
def tlsResetCleanup (p : ℕ) (data : Option ℕ) (s : ReqThread) : ReqThread :=
  { s with cleanups := Function.update s.cleanups p (data :: s.cleanups p) }

/-- `modperl_global_request_set` -/
def requestSet (s : ReqThread) (r : ℕ) : Option ReqThread :=
  s.requests[r]?.map fun req =>
    { s.tlsResetCleanup req.pool s.tls with
      tls := some r
      requests := s.requests.set r { req with isSet := true } }

/-- `modperl_global_request_cfg_set`: the first argument is `MpDirGLOBAL_REQUEST`. -/
def requestCfgSet (global : Bool) (s : ReqThread) (r : ℕ) : Option ReqThread :=
  s.requests[r]?.bind fun req => if global && !req.isSet then s.requestSet r else some s

/-- The next cleanup of the pool that is destroyed: `modperl_tls_reset`. -/
def runCleanup (s : ReqThread) : Option ReqThread :=
  s.closing.bind fun p =>
    match s.cleanups p with
    | [] => none
    | data :: rest => some { s with tls := data, cleanups := Function.update s.cleanups p rest }

/-- The memory is freed once all cleanups have run. -/
def free (s : ReqThread) : Option ReqThread :=
  s.closing.bind fun p =>
    if s.cleanups p = [] then
      some { s with pools := s.pools.filter (·.id ≠ p), closing := none }
    else none

end ReqThread

/-- What happens on the thread. -/
inductive ReqAction
  /-- A request with a pool of its own; a sub-request has a sub-pool of the pool of its
  parent. -/
  | create (parent : Option ℕ)
  /-- An internal redirect: a new request in the pool of the old one. -/
  | redirect (r : ℕ)
  | requestSet (r : ℕ)
  | requestCfgSet (global : Bool) (r : ℕ)
  /-- The destruction of a pool without sub-pools begins. -/
  | destroy (p : ℕ)
  | runCleanup
  | free

namespace ReqThread

/-- One step. -/
def step (s : ReqThread) : ReqAction → Option ReqThread
  | .create parent =>
      if s.closing = none ∧ ∀ r, parent = some r → s.Alive r then
        some { s with
          requests := s.requests ++ [⟨s.requests.length, false⟩]
          pools := ⟨s.requests.length, parent.bind s.poolOf⟩ :: s.pools }
      else none
  | .redirect r =>
      (s.poolOf r).bind fun p =>
        if s.closing = none ∧ s.HasPool p then
          some { s with requests := s.requests ++ [⟨p, false⟩] }
        else none
  | .requestSet r => if s.Alive r then s.requestSet r else none
  | .requestCfgSet global r => if s.Alive r then s.requestCfgSet global r else none
  | .destroy p =>
      if s.closing = none ∧ s.HasPool p ∧ ∀ pool ∈ s.pools, pool.parent ≠ some p then
        some { s with closing := some p }
      else none
  | .runCleanup => s.runCleanup
  | .free => s.free

/-- When the memory of a pool is freed, no cleanup of another pool has saved one of its
requests: those that were set while it was the global request are gone. -/
def LastSetFirst (s : ReqThread) : ReqAction → Prop
  | .free => ∀ pool ∈ s.pools, s.closing ≠ some pool.id →
      ∀ data ∈ s.cleanups pool.id, data.bind s.poolOf = none ∨ data.bind s.poolOf ≠ s.closing
  | _ => True

instance : DecidableRel LastSetFirst := fun s a => by
  cases a <;> unfold LastSetFirst <;> infer_instance

/-! ## Pools and their requests -/

/-- Pools are older than their sub-pools, and what is registered, is registered with a pool that
is there. -/
structure Placed (s : ReqThread) : Prop where
  requests : ∀ r p, s.poolOf r = some p → p < s.requests.length
  ids : s.pools.Pairwise fun a b => b.id < a.id
  bound : ∀ pool ∈ s.pools, pool.id < s.requests.length
  parents : ∀ pool ∈ s.pools, ∀ p, pool.parent = some p → p < pool.id
  cleanups : ∀ p, s.cleanups p ≠ [] → s.HasPool p
  closing : ∀ p, s.closing = some p → s.HasPool p

theorem placed_start : start.Placed where
  requests := fun _ _ h => nomatch h
  ids := .nil
  bound := fun _ h => nomatch h
  parents := fun _ h => nomatch h
  cleanups := fun _ h => absurd rfl h
  closing := fun _ h => nomatch h

variable {s s' : ReqThread} {r p q : ℕ}

theorem hasPool_iff : s.HasPool p ↔ ∃ pool ∈ s.pools, pool.id = p := List.mem_map

theorem Placed.lt_of_hasPool (h : s.Placed) (hp : s.HasPool p) : p < s.requests.length := by
  obtain ⟨pool, hpool, rfl⟩ := hasPool_iff.mp hp
  exact h.bound pool hpool

/-- A set saves the old value in the pool of the request. -/
theorem requestSet_eq (hr : s.poolOf r = some p) :
    ∃ s', s.requestSet r = some s' ∧ s'.tls = some r ∧ s'.poolOf = s.poolOf ∧
      s'.requests.length = s.requests.length ∧ s'.pools = s.pools ∧
      s'.closing = s.closing ∧
      s'.cleanups = Function.update s.cleanups p (s.tls :: s.cleanups p) := by
  obtain ⟨req, hreq, rfl⟩ := Option.map_eq_some_iff.mp hr
  have hres : s.requestSet r = some { s.tlsResetCleanup req.pool s.tls with
      tls := some r
      requests := s.requests.set r { req with isSet := true } } := by
    rw [requestSet, hreq]
    rfl
  refine ⟨_, hres, rfl, ?_, List.length_set, rfl, rfl, rfl⟩
  funext r'
  show ((s.requests.set r { req with isSet := true })[r']?).map GlobalReq.pool = s.poolOf r'
  rw [List.getElem?_set, poolOf]
  split_ifs with heq hlt
  · rw [← heq, hreq]
    rfl
  · rw [← heq, List.getElem?_eq_none (Nat.le_of_not_lt hlt)]
  · rfl

/-- A set because of the options is a set, or nothing. -/
theorem requestCfgSet_eq {global : Bool} (hr : s.poolOf r = some p) :
    s.requestCfgSet global r = s.requestSet r ∨ s.requestCfgSet global r = some s := by
  obtain ⟨req, hreq, -⟩ := Option.map_eq_some_iff.mp hr
  rw [requestCfgSet, hreq, Option.bind_some]
  split_ifs
  · exact .inl rfl
  · exact .inr rfl

/-- A new request changes nothing for the others. -/
theorem poolOf_append {p' : ℕ} {req : GlobalReq}
    (hs : s'.requests = s.requests ++ [req]) (hr : s'.poolOf r = some p') :
    r < s.requests.length ∧ s.poolOf r = some p' ∨ r = s.requests.length ∧ p' = req.pool := by
  rw [poolOf, hs] at hr
  by_cases hlt : r < s.requests.length
  · rw [List.getElem?_append_left hlt] at hr
    exact .inl ⟨hlt, hr⟩
  · rw [List.getElem?_append_right (Nat.le_of_not_lt hlt)] at hr
    obtain ⟨req', hreq', rfl⟩ := Option.map_eq_some_iff.mp hr
    rw [List.getElem?_singleton] at hreq'
    obtain ⟨hlen, heq⟩ := Option.ite_none_right_eq_some.mp hreq'
    exact .inr ⟨by omega, (Option.some.inj heq) ▸ rfl⟩

theorem poolOf_append_of_eq {req : GlobalReq} (hs : s'.requests = s.requests ++ [req])
    (hr : s.poolOf r = some p) : s'.poolOf r = some p := by
  obtain ⟨req', hreq, -⟩ := Option.map_eq_some_iff.mp hr
  have hlt : r < s.requests.length := (List.getElem?_eq_some_iff.mp hreq).1
  rw [poolOf, hs, List.getElem?_append_left hlt]
  exact hr

/-- What a step can do. -/
inductive Effect (s s' : ReqThread) (a : ReqAction) : Prop
  | same (h : s' = s)
  | create (parent : Option ℕ) (hclosing : s.closing = none)
      (hparent : ∀ r, parent = some r → s.Alive r)
      (h : s' = { s with
        requests := s.requests ++ [⟨s.requests.length, false⟩]
        pools := ⟨s.requests.length, parent.bind s.poolOf⟩ :: s.pools })
  | redirect (p : ℕ) (hclosing : s.closing = none) (hp : s.HasPool p)
      (h : s' = { s with requests := s.requests ++ [⟨p, false⟩] })
  | set (r p : ℕ) (hr : s.poolOf r = some p) (hp : s.HasPool p) (h : s.requestSet r = some s')
  | destroy (p : ℕ) (hclosing : s.closing = none) (hp : s.HasPool p)
      (h : s' = { s with closing := some p })
  | cleanup (p : ℕ) (data : Option ℕ) (rest : List (Option ℕ)) (hclosing : s.closing = some p)
      (hcleanups : s.cleanups p = data :: rest)
      (h : s' = { s with tls := data, cleanups := Function.update s.cleanups p rest })
  | free (p : ℕ) (ha : a = .free) (hclosing : s.closing = some p) (hcleanups : s.cleanups p = [])
      (h : s' = { s with pools := s.pools.filter (·.id ≠ p), closing := none })

theorem step_effect {a : ReqAction} (hs : s.step a = some s') : Effect s s' a := by
  cases a with
  | create parent =>
      obtain ⟨⟨hclosing, hparent⟩, hs⟩ := Option.ite_none_right_eq_some.mp hs
      exact .create parent hclosing hparent (Option.some.inj hs).symm
  | redirect r =>
      obtain ⟨p, -, hs⟩ := Option.bind_eq_some_iff.mp hs
      obtain ⟨⟨hclosing, hp⟩, hs⟩ := Option.ite_none_right_eq_some.mp hs
      exact .redirect p hclosing hp (Option.some.inj hs).symm
  | requestSet r =>
      obtain ⟨⟨p, hr, hp⟩, hs⟩ := Option.ite_none_right_eq_some.mp hs
      exact .set r p hr hp hs
  | requestCfgSet global r =>
      obtain ⟨⟨p, hr, hp⟩, hs⟩ := Option.ite_none_right_eq_some.mp hs
      rcases @requestCfgSet_eq s r p global hr with heq | heq
      · exact .set r p hr hp (heq ▸ hs)
      · rw [heq] at hs
        exact .same (Option.some.inj hs).symm
  | destroy p =>
      obtain ⟨⟨hclosing, hp, -⟩, hs⟩ := Option.ite_none_right_eq_some.mp hs
      exact .destroy p hclosing hp (Option.some.inj hs).symm
  | runCleanup =>
      obtain ⟨p, hclosing, hs⟩ := Option.bind_eq_some_iff.mp hs
      split at hs
      · cases hs
      · exact .cleanup p _ _ hclosing ‹_› (Option.some.inj hs).symm
  | free =>
      obtain ⟨p, hclosing, hs⟩ := Option.bind_eq_some_iff.mp hs
      obtain ⟨hcleanups, hs⟩ := Option.ite_none_right_eq_some.mp hs
      exact .free p rfl hclosing hcleanups (Option.some.inj hs).symm

theorem length_append {req : GlobalReq} (hreq : s'.requests = s.requests ++ [req]) :
    s'.requests.length = s.requests.length + 1 := by
  rw [hreq, List.length_append, List.length_singleton]

/-- A request is added, in a pool of its own or in one that is there. -/
theorem Placed.poolOf_lt (h : s.Placed) {req : GlobalReq} (hreq : s'.requests = s.requests ++ [req])
    (hle : req.pool ≤ s.requests.length) (hr : s'.poolOf r = some p) :
    p < s'.requests.length := by
  have hlen := length_append hreq
  rcases poolOf_append hreq hr with ⟨-, hr⟩ | ⟨-, rfl⟩
  · have hp := h.requests r p hr
    omega
  · omega

theorem Placed.step (h : s.Placed) {a : ReqAction} (hs : s.step a = some s') : s'.Placed := by
  cases step_effect hs with
  | same heq => exact heq ▸ h
  | create parent hclosing hparent heq =>
      have hreq : s'.requests = s.requests ++ [⟨s.requests.length, false⟩] := by rw [heq]
      have hlen := length_append hreq
      have hhas : ∀ p, s.HasPool p → s'.HasPool p := by
        intro p hp
        rw [heq]
        exact List.mem_cons_of_mem _ hp
      refine ⟨?requests, ?ids, ?bound, ?parents, ?cleanups, ?closing⟩
      case requests => exact fun r p => h.poolOf_lt hreq (Nat.le_refl _)
      case ids =>
        -- the new pool is newer than the others
        rw [heq]
        exact List.pairwise_cons.mpr ⟨h.bound, h.ids⟩
      case bound =>
        intro pool hpool
        rw [heq] at hpool
        rcases List.mem_cons.mp hpool with rfl | hpool
        · exact hlen ▸ Nat.lt_succ_self _
        · have hp := h.bound pool hpool
          omega
      case parents =>
        intro pool hpool p hp
        rw [heq] at hpool
        rcases List.mem_cons.mp hpool with rfl | hpool
        · obtain ⟨r, -, hr⟩ := Option.bind_eq_some_iff.mp hp
          exact h.requests r p hr
        · exact h.parents pool hpool p hp
      case cleanups =>
        intro p hp
        rw [heq] at hp
        exact hhas p (h.cleanups p hp)
      case closing =>
        intro p hp
        rw [heq] at hp
        exact hhas p (h.closing p hp)
  | redirect p hclosing hp heq =>
      have hreq : s'.requests = s.requests ++ [⟨p, false⟩] := by rw [heq]
      have hlen := length_append hreq
      have hle : p ≤ s.requests.length := Nat.le_of_lt (h.lt_of_hasPool hp)
      have hrequests := fun r q => h.poolOf_lt (r := r) (p := q) hreq hle
      subst heq
      refine ⟨hrequests, h.ids, fun pool hpool => ?_, h.parents, h.cleanups, h.closing⟩
      have hlt := h.bound pool hpool
      omega
  | set r p hr hp hset =>
      obtain ⟨s₁, hres, -, hpoolOf, hlen, hpools, hclosing, hcleanups⟩ := requestSet_eq hr
      obtain rfl := Option.some.inj (hset.symm.trans hres)
      have hhas : s'.HasPool = s.HasPool := by
        funext p
        rw [HasPool, HasPool, hpools]
      refine ⟨?requests, hpools ▸ h.ids, ?bound, hpools ▸ h.parents, ?cleanups, ?closing⟩
      case requests =>
        rw [hpoolOf, hlen]
        exact h.requests
      case bound =>
        rw [hpools, hlen]
        exact h.bound
      case cleanups =>
        intro q hq
        rw [hhas]
        by_cases hqp : q = p
        · exact hqp ▸ hp
        · rw [hcleanups, Function.update_of_ne hqp] at hq
          exact h.cleanups q hq
      case closing =>
        rw [hhas, hclosing]
        exact h.closing
  | destroy p hclosing hp heq =>
      subst heq
      refine ⟨h.requests, h.ids, h.bound, h.parents, h.cleanups, ?_⟩
      intro q hq
      exact Option.some.inj hq ▸ hp
  | cleanup p data rest hclosing hcleanups heq =>
      subst heq
      refine ⟨h.requests, h.ids, h.bound, h.parents, ?_, h.closing⟩
      intro q hq
      by_cases hqp : q = p
      · exact hqp ▸ h.closing p hclosing
      · exact h.cleanups q fun hnil => hq ((Function.update_of_ne hqp ..).trans hnil)
  | free p ha hclosing hcleanups heq =>
      subst heq
      refine ⟨h.requests, h.ids.filter _, ?_, ?_, ?_, fun _ hq => nomatch hq⟩
      · exact fun pool hpool => h.bound pool (List.mem_of_mem_filter hpool)
      · exact fun pool hpool => h.parents pool (List.mem_of_mem_filter hpool)
      · intro q hq
        obtain ⟨pool, hpool, rfl⟩ := hasPool_iff.mp (h.cleanups q hq)
        refine hasPool_iff.mpr ⟨pool, List.mem_filter.mpr ⟨hpool, decide_eq_true ?_⟩, rfl⟩
        rintro rfl
        exact hq hcleanups

/-! ## The stack of saved values -/

/-- The global request and the saved ones are there, and so is, in their pool, the cleanup that
was registered when they were set. -/
structure Sound (s : ReqThread) : Prop extends Placed s where
  current : ∀ r, s.tls = some r → ∃ p, s.poolOf r = some p ∧ s.cleanups p ≠ []
  saved : ∀ q r, some r ∈ s.cleanups q → ∃ p, s.poolOf r = some p ∧ s.HasPool p ∧
    (q = p ∨ s.cleanups p ≠ [] ∨ s.closing = some p)
  oldest : ∀ p r, (s.cleanups p).getLast? = some (some r) → s.poolOf r ≠ some p

theorem sound_start : start.Sound where
  toPlaced := placed_start
  current := fun _ h => nomatch h
  saved := fun _ _ h => nomatch h
  oldest := fun _ _ h => nomatch h

namespace Sound

variable (h : s.Sound)

include h

/-- Requests and pools are added. -/
theorem extend (hplaced : s'.Placed) (htls : s'.tls = s.tls) (hcleanups : s'.cleanups = s.cleanups)
    (hclosing : s'.closing = s.closing) (hhas : ∀ p, s.HasPool p → s'.HasPool p)
    (hpoolOf : ∀ r p, s.poolOf r = some p → s'.poolOf r = some p) : s'.Sound := by
  refine ⟨hplaced, ?current, ?saved, ?oldest⟩
  case current =>
    intro r hr
    obtain ⟨p, hp, hne⟩ := h.current r (htls ▸ hr)
    exact ⟨p, hpoolOf r p hp, hcleanups ▸ hne⟩
  case saved =>
    intro q r hr
    rw [hcleanups] at hr
    obtain ⟨p, hp, hpool, hstill⟩ := h.saved q r hr
    exact ⟨p, hpoolOf r p hp, hhas p hpool, hcleanups ▸ hclosing ▸ hstill⟩
  case oldest =>
    intro p r hlast hr
    rw [hcleanups] at hlast
    obtain ⟨p', hp', -⟩ := h.saved p r (List.mem_of_getLast? hlast)
    obtain rfl := Option.some.inj ((hpoolOf r p' hp').symm.trans hr)
    exact h.oldest p' r hlast hp'

theorem requestSet (hplaced : s'.Placed) (hr : s.poolOf r = some p)
    (hset : s.requestSet r = some s') : s'.Sound := by
  obtain ⟨s₁, hres, htls, hpoolOf, -, hpools, hclosing, hcleanups⟩ := requestSet_eq hr
  obtain rfl := Option.some.inj (hset.symm.trans hres)
  have hself : s'.cleanups p = s.tls :: s.cleanups p := by
    rw [hcleanups, Function.update_self]
  have hother : ∀ q, q ≠ p → s'.cleanups q = s.cleanups q := fun q hq => by
    rw [hcleanups, Function.update_of_ne hq]
  have hgrow : ∀ q, s.cleanups q ≠ [] → s'.cleanups q ≠ [] := by
    intro q hq
    by_cases hqp : q = p
    · rw [hqp, hself]
      exact List.cons_ne_nil _ _
    · rwa [hother q hqp]
  have hold : ∀ q r', some r' ∈ s.cleanups q → ∃ p', s'.poolOf r' = some p' ∧ s'.HasPool p' ∧
      (q = p' ∨ s'.cleanups p' ≠ [] ∨ s'.closing = some p') := by
    intro q r' hmem
    obtain ⟨p', hp', hpool, hstill⟩ := h.saved q r' hmem
    refine ⟨p', hpoolOf ▸ hp', ?_, hstill.imp_right (Or.imp (hgrow p') (hclosing ▸ ·))⟩
    rwa [HasPool, hpools]
  refine ⟨hplaced, ?current, ?saved, ?oldest⟩
  case current =>
    intro r' hr'
    rw [htls] at hr'
    obtain rfl := Option.some.inj hr'
    refine ⟨p, hpoolOf ▸ hr, ?_⟩
    rw [hself]
    exact List.cons_ne_nil _ _
  case saved =>
    intro q r' hmem
    by_cases hqp : q = p
    · rw [hqp, hself] at hmem
      -- the request that is saved now was the current one
      rcases List.mem_cons.mp hmem with heq | hmem
      · obtain ⟨p', hp', hne⟩ := h.current r' heq.symm
        refine ⟨p', hpoolOf ▸ hp', ?_, .inr (.inl (hgrow p' hne))⟩
        rw [HasPool, hpools]
        exact h.cleanups p' hne
      · rw [hqp]
        exact hold p r' hmem
    · rw [hother q hqp] at hmem
      exact hold q r' hmem
  case oldest =>
    intro q r' hlast
    rw [hpoolOf]
    by_cases hqp : q = p
    · subst hqp
      rw [hself] at hlast
      cases hnil : s.cleanups q with
      | nil =>
          -- the current request has a cleanup in its pool, so this is another pool
          rw [hnil] at hlast
          obtain ⟨p', hp', hne⟩ := h.current r' (Option.some.inj hlast)
          intro heq
          obtain rfl := Option.some.inj (hp'.symm.trans heq)
          exact hne hnil
      | cons data rest =>
          rw [hnil, List.getLast?_cons_cons, ← hnil] at hlast
          exact h.oldest q r' hlast
    · rw [hother q hqp] at hlast
      exact h.oldest q r' hlast

theorem runCleanup {data : Option ℕ} {rest : List (Option ℕ)} (hplaced : s'.Placed)
    (hclosing : s.closing = some p) (hcleanups : s.cleanups p = data :: rest)
    (heq : s' = { s with tls := data, cleanups := Function.update s.cleanups p rest }) :
    s'.Sound := by
  subst heq
  have hother : ∀ q, q ≠ p → Function.update s.cleanups p rest q = s.cleanups q := fun q hq =>
    Function.update_of_ne hq ..
  have hsub : ∀ q d, d ∈ Function.update s.cleanups p rest q → d ∈ s.cleanups q := by
    intro q d hd
    by_cases hqp : q = p
    · rw [hqp, Function.update_self] at hd
      rw [hqp, hcleanups]
      exact List.mem_cons_of_mem data hd
    · rwa [hother q hqp] at hd
  refine ⟨hplaced, ?current, ?saved, ?oldest⟩
  case current =>
    intro r hr
    have hdata : data = some r := hr
    have hmem : some r ∈ s.cleanups p := by
      rw [hcleanups, hdata]
      exact List.mem_cons_self
    obtain ⟨p', hp', -, hstill⟩ := h.saved p r hmem
    refine ⟨p', hp', ?_⟩
    show Function.update s.cleanups p rest p' ≠ []
    by_cases hpp : p' = p
    · -- the oldest cleanup of a pool does not point into the pool
      subst hpp
      rw [Function.update_self]
      rintro rfl
      refine h.oldest p' r ?_ hp'
      rw [hcleanups, hdata]
      rfl
    · rw [hother p' hpp]
      rcases hstill with heq | hne | hc
      · exact absurd heq.symm hpp
      · exact hne
      · rw [hclosing] at hc
        exact absurd (Option.some.inj hc).symm hpp
  case saved =>
    intro q r hmem
    obtain ⟨p', hp', hhas, hstill⟩ := h.saved q r (hsub q _ hmem)
    refine ⟨p', hp', hhas, hstill.imp_right ?_⟩
    rintro (hne | hc)
    · by_cases hpp : p' = p
      · exact .inr (hpp ▸ hclosing)
      · exact .inl fun hnil => hne ((hother p' hpp).symm.trans hnil)
    · exact .inr hc
  case oldest =>
    intro q r hlast
    have hlast : (Function.update s.cleanups p rest q).getLast? = some (some r) := hlast
    refine h.oldest q r ?_
    by_cases hqp : q = p
    · rw [hqp, Function.update_self] at hlast
      rw [hqp, hcleanups, List.getLast?_cons, hlast]
      rfl
    · rwa [hother q hqp] at hlast

/-- The pool that is freed is saved nowhere, so nothing dangles. -/
theorem free (hplaced : s'.Placed) (hok : LastSetFirst s .free) (hclosing : s.closing = some p)
    (hcleanups : s.cleanups p = [])
    (heq : s' = { s with pools := s.pools.filter (·.id ≠ p), closing := none }) : s'.Sound := by
  subst heq
  refine ⟨hplaced, h.current, ?_, h.oldest⟩
  intro q r hmem
  have hmem : some r ∈ s.cleanups q := hmem
  obtain ⟨p', hp', hhas, hstill⟩ := h.saved q r hmem
  obtain ⟨pool, hpool, rfl⟩ := hasPool_iff.mp (h.cleanups q (List.ne_nil_of_mem hmem))
  have hne : s.closing ≠ some pool.id := by
    intro heq
    rw [hclosing] at heq
    rw [← Option.some.inj heq, hcleanups] at hmem
    cases hmem
  have hsaved := hok pool hpool hne (some r) hmem
  rw [Option.bind_some, hp', hclosing] at hsaved
  have hpp : p' ≠ p := by
    rintro rfl
    rcases hsaved with hnone | hself
    · cases hnone
    · exact hself rfl
  refine ⟨p', hp', ?_, ?_⟩
  · obtain ⟨pool', hpool', rfl⟩ := hasPool_iff.mp hhas
    exact hasPool_iff.mpr ⟨pool', List.mem_filter.mpr ⟨hpool', decide_eq_true hpp⟩, rfl⟩
  · rcases hstill with heq | hnil | hc
    · exact .inl heq
    · exact .inr (.inl hnil)
    · rw [hclosing] at hc
      exact absurd (Option.some.inj hc).symm hpp

/-- Where the newest set goes first, a step keeps the stack. -/
theorem step {a : ReqAction} (hok : LastSetFirst s a) (hs : s.step a = some s') : s'.Sound := by
  have hplaced := h.toPlaced.step hs
  cases step_effect hs with
  | same heq => exact heq ▸ h
  | create parent hclosing hparent heq =>
      have hreq : s'.requests = s.requests ++ [⟨s.requests.length, false⟩] := by rw [heq]
      refine h.extend hplaced ?_ ?_ ?_ ?_ (fun r p => poolOf_append_of_eq hreq)
      all_goals subst heq
      · rfl
      · rfl
      · rfl
      · exact fun p hp => List.mem_cons_of_mem _ hp
  | redirect p hclosing hp heq =>
      have hreq : s'.requests = s.requests ++ [⟨p, false⟩] := by rw [heq]
      refine h.extend hplaced ?_ ?_ ?_ ?_ (fun r p => poolOf_append_of_eq hreq)
      all_goals subst heq
      · rfl
      · rfl
      · rfl
      · exact fun _ hp => hp
  | set r p hr hp hset => exact h.requestSet hplaced hr hset
  | destroy p hclosing hp heq =>
      subst heq
      refine ⟨hplaced, h.current, ?_, h.oldest⟩
      intro q r hmem
      obtain ⟨p', hp', hhas, hstill⟩ := h.saved q r hmem
      refine ⟨p', hp', hhas, hstill.imp_right ?_⟩
      rintro (hne | hc)
      · exact .inl hne
      · rw [hclosing] at hc
        cases hc
  | cleanup p data rest hclosing hcleanups heq => exact h.runCleanup hplaced hclosing hcleanups heq
  | free p ha hclosing hcleanups heq =>
      subst ha
      exact h.free hplaced hok hclosing hcleanups heq

theorem alive (hr : s.tls = some r) : s.Alive r := by
  obtain ⟨p, hp, hne⟩ := h.current r hr
  exact ⟨p, hp, h.cleanups p hne⟩

end Sound

/-! ## Runs -/

theorem Placed.of_reachable (h : s.Placed) (hreach : Reachable ReqThread.step Always s s') :
    s'.Placed :=
  hreach.invariant h fun _ _ _ _ hplaced _ hs => hplaced.step hs

theorem sound_of_reachable (h : Reachable step LastSetFirst start s) : s.Sound :=
  h.invariant sound_start fun _ _ _ _ hsound hok hs => hsound.step hok hs

theorem reachable_of_step {a : ReqAction} (hs : s.step a = some s') :
    Reachable step Always s s' :=
  .step a .start trivial hs

/-- The cleanup that saved a request whose memory was freed will run. -/
theorem dangles_of_closing (hclosing : s.closing = some q) (hmem : some r ∈ s.cleanups q)
    (hdead : ¬s.Alive r) :
    ∃ s', Reachable step Always s s' ∧ s'.tls = some r ∧ ¬s'.Alive r := by
  generalize hlist : s.cleanups q = list at hmem
  induction list generalizing s with
  | nil => cases hmem
  | cons data rest ih =>
      have hs : s.step .runCleanup =
          some { s with tls := data, cleanups := Function.update s.cleanups q rest } := by
        rw [step, ReqThread.runCleanup, hclosing, Option.bind_some, hlist]
      have hreach := reachable_of_step hs
      rcases List.mem_cons.mp hmem with rfl | hmem
      · exact ⟨_, hreach, rfl, hdead⟩
      · obtain ⟨s', hreach', hres⟩ := @ih { s with
          tls := data, cleanups := Function.update s.cleanups q rest } hclosing hdead
          (Function.update_self ..) hmem
        exact ⟨s', hreach.trans hreach', hres⟩

/-- All cleanups of a pool run. -/
theorem exists_closed (hclosing : s.closing = some p) :
    ∃ s', Reachable step Always s s' ∧ s'.closing = some p ∧ s'.cleanups p = [] ∧
      s'.pools = s.pools ∧ s'.requests = s.requests ∧
      ∀ q, q ≠ p → s'.cleanups q = s.cleanups q := by
  generalize hlist : s.cleanups p = list
  induction list generalizing s with
  | nil => exact ⟨s, .start, hclosing, hlist, rfl, rfl, fun _ _ => rfl⟩
  | cons data rest ih =>
      have hs : s.step .runCleanup =
          some { s with tls := data, cleanups := Function.update s.cleanups p rest } := by
        rw [step, ReqThread.runCleanup, hclosing, Option.bind_some, hlist]
      obtain ⟨s', hreach, hclosing', hnil, hpools, hreq, hother⟩ := @ih { s with
        tls := data, cleanups := Function.update s.cleanups p rest } hclosing
        (Function.update_self ..)
      refine ⟨s', (reachable_of_step hs).trans hreach, hclosing', hnil,
        hpools, hreq, fun q hq => ?_⟩
      rw [hother q hq]
      exact Function.update_of_ne hq ..

/-- The newest pool has no sub-pools. -/
theorem Placed.destroy_newest (h : s.Placed) {pool : ReqPool} {rest : List ReqPool}
    (hclosing : s.closing = none) (hpools : s.pools = pool :: rest) :
    s.step (.destroy pool.id) = some { s with closing := some pool.id } := by
  refine if_pos ⟨hclosing, ?_, fun pool' hpool' hparent => ?_⟩
  · rw [HasPool, hpools]
    exact List.mem_cons_self
  · have hlt := h.parents pool' hpool' _ hparent
    have hids := h.ids
    rw [hpools] at hpool' hids
    rcases List.mem_cons.mp hpool' with rfl | hmem
    · exact Nat.lt_irrefl _ hlt
    · exact Nat.lt_asymm hlt ((List.pairwise_cons.mp hids).1 pool' hmem)

/-- The pools may go in the reverse order of their creation, until the one with the cleanup goes:
the induction is on the number of pools. -/
theorem Placed.dangles (h : s.Placed) (hclosing : s.closing = none) (hq : s.HasPool q)
    (hmem : some r ∈ s.cleanups q) (hdead : ¬s.Alive r) :
    ∃ s', Reachable ReqThread.step Always s s' ∧ s'.tls = some r ∧ ¬s'.Alive r := by
  induction hn : s.pools.length using Nat.strongRecOn generalizing s with
  | ind n ih =>
      cases hpools : s.pools with
      | nil =>
          rw [HasPool, hpools] at hq
          cases hq
      | cons pool rest =>
          have hdestroy := h.destroy_newest hclosing hpools
          have hreach := reachable_of_step hdestroy
          by_cases hpq : pool.id = q
          · -- the pool with the cleanup is the newest
            obtain ⟨s', hreach', hres⟩ := @dangles_of_closing { s with closing := some pool.id } r q
              (congrArg some hpq) hmem hdead
            exact ⟨s', hreach.trans hreach', hres⟩
          -- another one goes first: its cleanups run, and it is freed
          obtain ⟨s₁, hreach₁, hclosing₁, hnil, hpools₁, hreq₁, hother₁⟩ :=
            @exists_closed { s with closing := some pool.id } pool.id rfl
          have hfree : s₁.step .free =
              some { s₁ with pools := s₁.pools.filter (·.id ≠ pool.id), closing := none } := by
            rw [ReqThread.step, ReqThread.free, hclosing₁, Option.bind_some, if_pos hnil]
          have hreach₂ := (hreach.trans hreach₁).trans (reachable_of_step hfree)
          have hlen : (s₁.pools.filter (·.id ≠ pool.id)).length < n := by
            rw [hpools₁, ← hn]
            refine List.length_filter_lt_length_iff_exists.mpr ⟨pool, ?_, by simp⟩
            rw [hpools]
            exact List.mem_cons_self
          have hq₂ : q ∈ (s₁.pools.filter (·.id ≠ pool.id)).map ReqPool.id := by
            obtain ⟨pool', hpool', rfl⟩ := hasPool_iff.mp hq
            rw [hpools₁]
            exact List.mem_map_of_mem
              (List.mem_filter.mpr ⟨hpool', decide_eq_true fun heq => hpq heq.symm⟩)
          have hmem₂ : some r ∈ s₁.cleanups q := by
            rw [hother₁ q fun heq => hpq heq.symm]
            exact hmem
          have hdead₂ : ¬Alive { s₁ with
              pools := s₁.pools.filter (·.id ≠ pool.id), closing := none } r := by
            rintro ⟨p, hp, hhas⟩
            refine hdead ⟨p, ?_, ?_⟩
            · rw [poolOf, ← hreq₁]
              exact hp
            · obtain ⟨pool', hpool', rfl⟩ := hasPool_iff.mp hhas
              have hpool' := List.mem_of_mem_filter hpool'
              rw [hpools₁] at hpool'
              exact List.mem_map_of_mem hpool'
          obtain ⟨s', hreach', hres⟩ :=
            ih _ hlen (h.of_reachable hreach₂) rfl hq₂ hmem₂ hdead₂ rfl
          exact ⟨s', hreach₂.trans hreach', hres⟩

/-- A request that is saved in the cleanup of another pool when it is freed will be set again. -/
theorem Placed.dangles_of_free (hplaced : s'.Placed) {a : ReqAction} (hbad : ¬LastSetFirst s a)
    (hs : s.step a = some s') :
    ∃ s'' r, Reachable ReqThread.step Always s' s'' ∧ s''.tls = some r ∧ ¬s''.Alive r := by
  cases a with
  | free =>
      obtain ⟨p, hclosing, hs⟩ := Option.bind_eq_some_iff.mp hs
      obtain ⟨hcleanups, hs⟩ := Option.ite_none_right_eq_some.mp hs
      obtain rfl := Option.some.inj hs
      simp only [LastSetFirst, not_forall, not_or, not_not] at hbad
      obtain ⟨pool, hpool, hne, data, hdata, hsome, hsame⟩ := hbad
      rw [hclosing] at hne hsame
      obtain ⟨r, rfl, hr⟩ := Option.bind_eq_some_iff.mp hsame
      obtain ⟨s'', hreach', hdangles⟩ := @Placed.dangles _ r pool.id hplaced rfl
        (List.mem_map_of_mem (List.mem_filter.mpr
          ⟨hpool, decide_eq_true fun heq => hne (congrArg some heq.symm)⟩))
        hdata (by
          rintro ⟨p', hp', hhas⟩
          obtain rfl := Option.some.inj (hr.symm.trans hp')
          obtain ⟨pool', hpool', heq⟩ := hasPool_iff.mp hhas
          simpa [heq] using (List.mem_filter.mp hpool').2)
      exact ⟨s'', r, hreach', hdangles⟩
  | _ => exact absurd trivial hbad

/-- Where each request is freed only after the requests that were set while it was the global
request, the global request is a request that has not been freed.  Whenever a request is freed
before, a state can be reached in which the global request dangles. -/
theorem global_request_alive_iff (s : ReqThread) :
    (Reachable step LastSetFirst start s → ∀ r, s.tls = some r → s.Alive r) ∧
    ∀ a s', Reachable step Always start s → ¬LastSetFirst s a → s.step a = some s' →
      ∃ s'' r, Reachable step Always s' s'' ∧ s''.tls = some r ∧ ¬s''.Alive r := by
  refine ⟨fun hreach r hr => (sound_of_reachable hreach).alive hr, ?_⟩
  intro a s' hreach hbad hs
  exact ((placed_start.of_reachable hreach).step hs).dangles_of_free hbad hs

/-- A sub-request is set and destroyed while its parent is the global request. -/
theorem global_request_alive_nested : ∃ s, Reachable step LastSetFirst start s ∧
    s.tls = some 0 ∧ ¬s.Alive 1 ∧ s.Alive 0 := by
  obtain ⟨s, hreach, htls, hdead⟩ :
      ∃ s, Reachable step LastSetFirst start s ∧ s.tls = some 0 ∧ ¬s.Alive 1 :=
    Reachable.exists_of_run
      (show runOk _ _ _ [.create none, .requestSet 0, .create (some 0), .requestCfgSet true 1,
        .destroy 1, .runCleanup, .free] by decide +kernel)
      (by decide +kernel)
  exact ⟨s, hreach, htls, hdead, (global_request_alive_iff s).1 hreach 0 htls⟩

/-- A sub-request is set before its parent, and both are destroyed with the parent. -/
theorem global_request_dangles : ∃ s, Reachable step Always start s ∧
    s.tls = some 1 ∧ ¬s.Alive 1 :=
  Reachable.exists_of_run
    (show runOk _ _ _ [.create none, .create (some 0), .requestSet 1, .requestSet 0,
      .destroy 1, .runCleanup, .free, .destroy 0, .runCleanup] by decide +kernel)
    (by decide +kernel)

end ReqThread

end ModPerl
