import ModPerl.Library.Arena
import ModPerl.Library.Forest
import ModPerl.Library.Machine
import Mathlib.Data.List.Range

/-!
# `APR::Pool` objects

An `APR::Pool` object that Perl code made owns its pool: it carries ext magic, and
the pool has a cleanup that takes the pool away from the object, so that neither a
destruction of the pool behind its back, by the server or through a pool further up,
nor its own `DESTROY` destroys a pool twice, or another one that was given the same
address.  An object made from an owning one holds a reference to it in the magic.

The pools of a process form a forest.  `apr_pool_destroy` and `apr_pool_clear` take
down what is below a pool and run all cleanups, those of the pools below first, and
of one pool those registered last first.  A result of `none` is an access to a
pool or an object that is gone, a reference count below zero, or an interpreter that
is given back to its pool although cleanups that need it remain.
-/

namespace ModPerl

open Machine

/-- What is registered with a pool: `mpxs_apr_pool_cleanup` for the body of an object,
or `mpxs_cleanup_run` for a Perl subroutine, by the number of its registration. -/
inductive PoolCleanup
  | account (sv : Nat)
  | perl (id : Nat)
  deriving DecidableEq

/-- The number of a Perl cleanup. -/
def PoolCleanup.perlId : PoolCleanup → Option Nat
  | .account _ => none
  | .perl id => some id

/-- `apr_pool_t`: its address, and its cleanups, the last one first. -/
structure AprPool where
  addr : Nat
  cleanups : List PoolCleanup
  deriving DecidableEq

/-- The body of an object: the address in its IV, which is `0` when the pool is gone,
its ext magic with the `mg_obj`, and its reference count. -/
structure PoolSv where
  iv : Nat
  magic : Option (Option Nat)
  refcnt : Nat
  deriving DecidableEq

/-- The pools, the bodies of the objects ever made, the mortal references, those from
elsewhere (Perl variables, and objects of other classes that need the pool), the
number of Perl cleanups registered and those that were run, and the references to the
interpreter that cleanups hold. -/
structure PoolWorld where
  pools : Forest AprPool
  svs : Arena PoolSv
  mortals : List Nat
  refs : List Nat
  registered : Nat
  ran : List Nat
  interpRefcnt : Nat

namespace PoolWorld

/-- No pool but the server's own, which is not modelled. -/
def init : PoolWorld := ⟨.nil, [], [], [], 0, [], 0⟩

/-- The addresses of the pools that are there. -/
def addrs (s : PoolWorld) : List Nat := s.pools.keys AprPool.addr

/-- The body of an object, if it was not freed. -/
def sv? (s : PoolWorld) (sv : Nat) : Option PoolSv := s.svs.get? sv

/-- `MP_APR_POOL_SV_DROPS_OWNERSHIP_RUN`: the reference to the object of the parent
becomes a mortal one. -/
def dropsOwnership (s : PoolWorld) (sv : Nat) : Option PoolWorld :=
  (s.sv? sv).map fun body =>
    { s with
      svs := s.svs.set sv (some { body with iv := 0, magic := none })
      mortals := body.magic.join.toList ++ s.mortals }

/-- `modperl_interp_unselect` of an interpreter that a cleanup has a reference to. -/
def interpUnselect (s : PoolWorld) : Option PoolWorld :=
  if s.interpRefcnt = 0 then none else some { s with interpRefcnt := s.interpRefcnt - 1 }

/-- `mpxs_apr_pool_cleanup` and `mpxs_cleanup_run` -/
def runCleanup (s : PoolWorld) : PoolCleanup → Option PoolWorld
  | .account sv => (s.dropsOwnership sv).bind interpUnselect
  | .perl id => interpUnselect { s with ran := s.ran ++ [id] }

/-- The cleanups of a tree, in the order in which they are run. -/
def cleanupsOf (d : Forest.Detached AprPool) : List PoolCleanup :=
  (d.below.labels ++ [d.label]).flatMap AprPool.cleanups

/-- `apr_pool_destroy` -/
def aprPoolDestroy (s : PoolWorld) (addr : Nat) : Option PoolWorld :=
  (s.pools.detach AprPool.addr addr).bind fun d =>
    (cleanupsOf d).foldlM runCleanup { s with pools := d.rest }

/-- `apr_pool_clear` -/
def aprPoolClear (s : PoolWorld) (addr : Nat) : Option PoolWorld :=
  (s.pools.detach AprPool.addr addr).bind fun d =>
    (cleanupsOf d).foldlM runCleanup
      { s with
        pools := s.pools.modify AprPool.addr addr fun p _ => ({ p with cleanups := [] }, .nil) }

/-- `apr_pool_create`, with the address that the new pool gets. -/
def aprPoolCreate (s : PoolWorld) (parent addr : Nat) : Option PoolWorld :=
  if parent = 0 then some { s with pools := .node ⟨addr, []⟩ .nil s.pools }
  else if parent ∈ s.addrs then
    some
      { s with
        pools := s.pools.modify AprPool.addr parent fun p child =>
          (p, .node ⟨addr, []⟩ .nil child) }
  else none

/-- `apr_pool_cleanup_register` -/
def aprPoolCleanupRegister (s : PoolWorld) (addr : Nat) (c : PoolCleanup) : PoolWorld :=
  { s with
    pools := s.pools.modify AprPool.addr addr fun p child =>
      ({ p with cleanups := c :: p.cleanups }, child) }

/-- `MP_APR_POOL_SV_TAKES_OWNERSHIP` -/
def takesOwnership (s : PoolWorld) (sv addr : Nat) : Option PoolWorld :=
  (s.sv? sv).map fun body =>
    { s.aprPoolCleanupRegister addr (.account sv) with
      svs := s.svs.set sv (some { body with iv := addr, magic := some none })
      interpRefcnt := s.interpRefcnt + 1 }

/-- `mpxs_add_pool_magic` on an object that was just made. -/
def addPoolMagic (s : PoolWorld) (sv pool : Nat) : Option PoolWorld :=
  (s.sv? pool).bind fun parent =>
    if parent.magic.isSome then
      (s.sv? sv).map fun body =>
        { s with
          svs := (s.svs.set sv (some { body with magic := some (some pool) })).set pool
            (some { parent with refcnt := parent.refcnt + 1 }) }
    else some s

/-- `mpxs_apr_pool_create` with the class name or a pool of the server: the object, to
which Perl has a reference. -/
def poolCreate (s : PoolWorld) (parent addr : Nat) : Option PoolWorld :=
  (s.aprPoolCreate parent addr).bind fun s =>
    let s' : PoolWorld :=
      { s with svs := s.svs ++ [some ⟨addr, none, 1⟩], refs := s.svs.length :: s.refs }
    s'.takesOwnership s.svs.length addr

/-- `mpxs_apr_pool_create` with an object. -/
def poolCreateFrom (s : PoolWorld) (pool addr : Nat) : Option PoolWorld :=
  (s.sv? pool).bind fun parent =>
    (s.poolCreate parent.iv addr).bind fun s' =>
      if parent.iv ≠ 0 then s'.addPoolMagic s.svs.length pool else some s'

/-- `mpxs_apr_pool_DESTROY` -/
def poolDestroy (s : PoolWorld) (sv : Nat) : Option PoolWorld :=
  (s.sv? sv).bind fun body => if body.magic.isSome then s.aprPoolDestroy body.iv else some s

/-- `mpxs_APR__Pool_clear` -/
def poolClear (s : PoolWorld) (sv : Nat) : Option PoolWorld :=
  (s.sv? sv).bind fun body =>
    if body.magic.isSome then
      (s.aprPoolClear body.iv).bind fun s => s.takesOwnership sv body.iv
    else s.aprPoolClear body.iv

/-- `mpxs_apr_pool_cleanup_register` -/
def poolCleanupRegister (s : PoolWorld) (addr : Nat) : Option PoolWorld :=
  if addr ∈ s.addrs then
    some
      { s.aprPoolCleanupRegister addr (.perl s.registered) with
        registered := s.registered + 1
        interpRefcnt := s.interpRefcnt + 1 }
  else none

/-- `SvREFCNT_inc` -/
def refcntInc (s : PoolWorld) (sv : Nat) : Option PoolWorld :=
  (s.sv? sv).map fun body =>
    { s with svs := s.svs.set sv (some { body with refcnt := body.refcnt + 1 }) }

/-- `SvREFCNT_dec`: the last reference calls `DESTROY` and frees the body.  It has no magic
then, which would be freed with it. -/
def refcntDec (s : PoolWorld) (sv : Nat) : Option PoolWorld :=
  (s.sv? sv).bind fun body =>
    if body.refcnt = 1 then
      (s.poolDestroy sv).bind fun s =>
        (s.sv? sv).bind fun body =>
          if body.magic.isSome then none else some { s with svs := s.svs.set sv none }
    else if body.refcnt = 0 then none
    else some { s with svs := s.svs.set sv (some { body with refcnt := body.refcnt - 1 }) }

/-- What Perl code and the server do.  Pools of the server, and pools that Perl code has
another object for, without ownership, are given by their address. -/
inductive Act
  | create (addr : Nat)
  | createFrom (sv addr : Nat)
  | createUnder (parent addr : Nat)
  | hold (sv : Nat)
  | release (sv : Nat)
  | destroy (sv : Nat)
  | clear (sv : Nat)
  | clearUnowned (addr : Nat)
  | cleanupRegister (addr : Nat)
  | serverCreate (parent addr : Nat)
  | serverDestroy (addr : Nat)
  | freeTmps
  deriving DecidableEq

def step (s : PoolWorld) : Act → Option PoolWorld
  | .create addr => s.poolCreate 0 addr
  | .createFrom sv addr => s.poolCreateFrom sv addr
  | .createUnder parent addr => s.poolCreate parent addr
  | .hold sv => (s.refcntInc sv).map fun s => { s with refs := sv :: s.refs }
  | .release sv => refcntDec { s with refs := s.refs.erase sv } sv
  | .destroy sv => s.poolDestroy sv
  | .clear sv => s.poolClear sv
  | .clearUnowned addr => s.aprPoolClear addr
  | .cleanupRegister addr => s.poolCleanupRegister addr
  | .serverCreate parent addr => s.aprPoolCreate parent addr
  | .serverDestroy addr => s.aprPoolDestroy addr
  | .freeTmps =>
      match s.mortals with
      | [] => some s
      | sv :: mortals => refcntDec { s with mortals } sv

/-- The address that a new pool gets is that of no other one. -/
def Fresh (s : PoolWorld) (addr : Nat) : Prop := addr ≠ 0 ∧ addr ∉ s.addrs

instance (s : PoolWorld) (addr : Nat) : Decidable (s.Fresh addr) :=
  inferInstanceAs (Decidable (_ ∧ _))

/-- The pool is one of the server: no object has it. -/
def ServerPool (s : PoolWorld) (addr : Nat) : Prop :=
  addr ∈ s.addrs ∧
    ∀ p ∈ s.pools.labels, p.addr = addr → ∀ c ∈ p.cleanups, c.perlId.isSome = true

instance (s : PoolWorld) (addr : Nat) : Decidable (s.ServerPool addr) :=
  inferInstanceAs (Decidable (_ ∧ _))

/-- An object is used while there is a reference to it, and what is done with a pool,
other than to ask for its destruction or for a new pool, while the pool is there. -/
def Legal (s : PoolWorld) : Act → Prop
  | .create addr => s.Fresh addr
  | .createFrom sv addr => sv ∈ s.refs ∧ s.Fresh addr
  | .createUnder parent addr => parent ∈ s.addrs ∧ s.Fresh addr
  | .hold sv => sv ∈ s.refs
  | .release sv => sv ∈ s.refs
  | .destroy sv => sv ∈ s.refs
  | .clear sv => sv ∈ s.refs ∧ ∀ body ∈ s.sv? sv, body.iv ≠ 0
  | .clearUnowned addr => addr ∈ s.addrs
  | .cleanupRegister addr => addr ∈ s.addrs
  | .serverCreate parent addr => (parent = 0 ∨ s.ServerPool parent) ∧ s.Fresh addr
  | .serverDestroy addr => s.ServerPool addr
  | .freeTmps => True

instance : DecidableRel Legal
  | s, .create addr => inferInstanceAs (Decidable (s.Fresh addr))
  | s, .createFrom sv addr => inferInstanceAs (Decidable (sv ∈ s.refs ∧ s.Fresh addr))
  | s, .createUnder parent addr => inferInstanceAs (Decidable (parent ∈ s.addrs ∧ s.Fresh addr))
  | s, .hold sv => inferInstanceAs (Decidable (sv ∈ s.refs))
  | s, .release sv => inferInstanceAs (Decidable (sv ∈ s.refs))
  | s, .destroy sv => inferInstanceAs (Decidable (sv ∈ s.refs))
  | s, .clear sv => inferInstanceAs (Decidable (sv ∈ s.refs ∧ ∀ body ∈ s.sv? sv, body.iv ≠ 0))
  | s, .clearUnowned addr => inferInstanceAs (Decidable (addr ∈ s.addrs))
  | s, .cleanupRegister addr => inferInstanceAs (Decidable (addr ∈ s.addrs))
  | s, .serverCreate parent addr =>
      inferInstanceAs (Decidable ((parent = 0 ∨ s.ServerPool parent) ∧ s.Fresh addr))
  | s, .serverDestroy addr => inferInstanceAs (Decidable (s.ServerPool addr))
  | _, .freeTmps => isTrue trivial

/-- All cleanups that are registered. -/
def pending (s : PoolWorld) : List PoolCleanup := s.pools.labels.flatMap AprPool.cleanups

/-- The reference in the magic of a body. -/
def linkOf (body : PoolSv) : Option Nat := body.magic.join

/-- All references to bodies: these at hand, those from elsewhere, the mortal ones and
those in the magic of other bodies. -/
def holders (s : PoolWorld) (hand : List Nat) : List Nat :=
  hand ++ (s.refs ++ (s.mortals ++ s.svs.refs linkOf))

/-- While these cleanups are still to be run, and these references to be given back:
the objects with magic are those with a cleanup, which is registered with the pool that
the object points to; one without has no pool.  The reference counts count the
references, every Perl cleanup is pending or was run, once, and the interpreter is
needed by the pending ones. -/
structure Owned (s : PoolWorld) (todo : List PoolCleanup) (hand : List Nat) : Prop where
  nodup : s.addrs.Nodup
  notNull : 0 ∉ s.addrs
  once : (todo ++ s.pending).Nodup
  account : ∀ p ∈ s.pools.labels, ∀ sv, .account sv ∈ p.cleanups →
    ∃ body, s.sv? sv = some body ∧ body.iv = p.addr
  single : ∀ p ∈ s.pools.labels, ∀ sv sv', .account sv ∈ p.cleanups →
    .account sv' ∈ p.cleanups → sv = sv'
  unrun : ∀ sv, .account sv ∈ todo → ∃ body, s.sv? sv = some body
  magic : ∀ sv body, s.sv? sv = some body →
    (body.magic.isSome = true ↔ .account sv ∈ todo ++ s.pending)
  inert : ∀ sv body, s.sv? sv = some body → body.magic = none → body.iv = 0
  refcnt : ∀ sv body, s.sv? sv = some body →
    body.refcnt = (s.holders hand).count sv ∧ 0 < body.refcnt
  gone : ∀ sv, s.sv? sv = none → sv ∉ s.holders hand
  ran : ((todo ++ s.pending).filterMap PoolCleanup.perlId ++ s.ran).Perm (List.range s.registered)
  interp : s.interpRefcnt = (todo ++ s.pending).length

variable {s s' : PoolWorld} {todo : List PoolCleanup} {hand : List Nat} {sv sv' addr : Nat}
  {body : PoolSv}

/-! ## Bodies -/

/-- What a body that is replaced changes in the count of the references. -/
theorem count_holders_set (h : s.sv? sv = some body) (o : Option PoolSv) (hand : List Nat)
    (a : Nat) :
    (holders { s with svs := s.svs.set sv o } hand).count a + body.magic.join.toList.count a =
      (s.holders hand).count a + (o.bind linkOf).toList.count a := by
  have hset := Arena.count_refs_set linkOf h o a
  simp only [holders, linkOf, List.count_append] at hset ⊢
  omega

/-! ## Running cleanups -/

theorem unrun_nil (s : PoolWorld) (sv : Nat) (h : PoolCleanup.account sv ∈ []) :
    ∃ body, s.sv? sv = some body := by
  cases h

/-- The objects of these cleanups lose their pools, and nothing else is changed of the
pools and the objects. -/
structure Ran (s : PoolWorld) (cs : List PoolCleanup) (s' : PoolWorld) : Prop where
  pools : s'.pools = s.pools
  refs : s'.refs = s.refs
  registered : s'.registered = s.registered
  length : s'.svs.length = s.svs.length
  other : ∀ sv, .account sv ∉ cs → s'.sv? sv = s.sv? sv
  lost : ∀ sv, .account sv ∈ cs → ∃ body, s'.sv? sv = some body ∧ body.magic = none ∧
    ∀ body₀, s.sv? sv = some body₀ → body.refcnt = body₀.refcnt

theorem interpUnselect_eq (h : s.interpRefcnt ≠ 0) :
    s.interpUnselect = some { s with interpRefcnt := s.interpRefcnt - 1 } := if_neg h

theorem Owned.runCleanup {c : PoolCleanup} (h : Owned s (c :: todo) hand) :
    ∃ s', s.runCleanup c = some s' ∧ Owned s' todo hand ∧ Ran s [c] s' := by
  have hinterp : s.interpRefcnt ≠ 0 := by
    rw [h.interp]
    simp
  have honce := List.nodup_cons.mp h.once
  cases c with
  | perl id =>
      refine ⟨_, interpUnselect_eq hinterp, ?_, rfl, rfl, rfl, rfl, fun _ _ => rfl, ?_⟩
      · refine ⟨h.nodup, h.notNull, honce.2, h.account, h.single, ?_, ?_, h.inert, h.refcnt, h.gone,
          ?_, ?_⟩
        · exact fun sv hsv => h.unrun sv (List.mem_cons_of_mem _ hsv)
        · intro sv body hbody
          rw [h.magic sv body hbody]
          simp [PoolWorld.pending]
        · have hran := h.ran
          simp only [List.cons_append, List.filterMap_cons, PoolCleanup.perlId] at hran
          refine List.Perm.trans ?_ hran
          rw [← List.append_assoc]
          exact (List.perm_append_singleton id _)
        · have hcount := h.interp
          simp only [List.cons_append, List.length_cons] at hcount
          simp only [hcount, Nat.add_sub_cancel]
          rfl
      · intro sv hsv
        simp at hsv
  | account sv =>
      obtain ⟨body, hbody⟩ := h.unrun sv List.mem_cons_self
      have hlt := Arena.lt_length hbody
      have hne : ∀ sv', .account sv' ∈ todo ++ s.pending → sv ≠ sv' := by
        rintro sv' hmem rfl
        exact honce.1 hmem
      set s' : PoolWorld := { s with
        svs := s.svs.set sv (some { body with iv := 0, magic := none })
        mortals := body.magic.join.toList ++ s.mortals
        interpRefcnt := s.interpRefcnt - 1 } with hs'
      have hself : s'.sv? sv = some { body with iv := 0, magic := none } := by
        rw [hs', sv?, Arena.get?_set hlt, if_pos rfl]
      have hother : ∀ sv', sv ≠ sv' → s'.sv? sv' = s.sv? sv' := by
        intro sv' hsv
        rw [hs', sv?, Arena.get?_set hlt, if_neg hsv]
        rfl
      -- the reference in the magic is a mortal one now
      have hholders : ∀ a, (s'.holders hand).count a = (s.holders hand).count a := by
        intro a
        have hset := count_holders_set hbody (some { body with iv := 0, magic := none }) hand a
        rw [show (some { body with iv := 0, magic := none }).bind linkOf = none from rfl] at hset
        simp only [hs', holders, List.count_append, Option.toList_none, List.count_nil] at hset ⊢
        omega
      have hrun : s.runCleanup (.account sv) = some s' := by
        rw [PoolWorld.runCleanup, dropsOwnership, hbody, Option.map_some, Option.bind_some]
        exact if_neg hinterp
      refine ⟨s', hrun, ?_, rfl, rfl, rfl, List.length_set, ?_, ?_⟩
      · refine ⟨h.nodup, h.notNull, honce.2, ?_, h.single, ?_, ?_, ?_, ?_, ?_, h.ran, ?_⟩
        · intro p hp sv' hsv
          rw [hother sv' (hne sv' (List.mem_append_right _ (List.mem_flatMap.mpr ⟨p, hp, hsv⟩)))]
          exact h.account p hp sv' hsv
        · intro sv' hsv
          rw [hother sv' (hne sv' (List.mem_append_left _ hsv))]
          exact h.unrun sv' (List.mem_cons_of_mem _ hsv)
        · intro sv' body' hbody'
          by_cases heq : sv = sv'
          · subst heq
            rw [hself, Option.some_inj] at hbody'
            rw [← hbody']
            exact ⟨fun hsome => (by cases hsome), fun hmem => absurd hmem honce.1⟩
          · rw [hother sv' heq] at hbody'
            rw [h.magic sv' body' hbody', List.cons_append, List.mem_cons,
              PoolCleanup.account.injEq]
            exact ⟨fun hmem => hmem.resolve_left (Ne.symm heq), .inr⟩
        · intro sv' body' hbody' hnone
          by_cases heq : sv = sv'
          · subst heq
            rw [hself, Option.some_inj] at hbody'
            rw [← hbody']
          · exact h.inert sv' body' (hother sv' heq ▸ hbody') hnone
        · intro sv' body' hbody'
          rw [hholders]
          by_cases heq : sv = sv'
          · subst heq
            rw [hself, Option.some_inj] at hbody'
            rw [← hbody']
            exact h.refcnt sv body hbody
          · exact h.refcnt sv' body' (hother sv' heq ▸ hbody')
        · intro sv' hnone
          rw [← List.count_eq_zero, hholders, List.count_eq_zero]
          by_cases heq : sv = sv'
          · subst heq
            rw [hself] at hnone
            cases hnone
          · exact h.gone sv' (hother sv' heq ▸ hnone)
        · have hcount := h.interp
          simp only [List.cons_append, List.length_cons] at hcount
          simp only [hs', hcount, Nat.add_sub_cancel]
          rfl
      · intro sv' hsv
        refine hother sv' fun heq => hsv ?_
        rw [heq]
        exact List.mem_singleton_self _
      · intro sv' hsv
        obtain rfl : sv' = sv := by simpa using hsv
        refine ⟨_, hself, rfl, fun body₀ hbody₀ => ?_⟩
        rw [hbody, Option.some_inj] at hbody₀
        rw [← hbody₀]

theorem Ran.refl (s : PoolWorld) : Ran s [] s :=
  ⟨rfl, rfl, rfl, rfl, fun _ _ => rfl, fun _ hsv => by cases hsv⟩

theorem Ran.cons {c : PoolCleanup} {cs : List PoolCleanup} {s₁ : PoolWorld} (h : Ran s [c] s₁)
    (h' : Ran s₁ cs s') (hnot : c ∉ cs) : Ran s (c :: cs) s' where
  pools := h'.pools.trans h.pools
  refs := h'.refs.trans h.refs
  registered := h'.registered.trans h.registered
  length := h'.length.trans h.length
  other sv hsv := by
    rw [List.mem_cons, not_or] at hsv
    rw [h'.other sv hsv.2, h.other sv (by simpa using hsv.1)]
  lost sv hsv := by
    rcases List.mem_cons.mp hsv with heq | hsv
    · rw [h'.other sv (heq ▸ hnot)]
      exact h.lost sv (heq ▸ List.mem_singleton_self _)
    · have hfirst : s₁.sv? sv = s.sv? sv := by
        refine h.other sv fun heq => hnot ?_
        rw [← List.mem_singleton.mp heq]
        exact hsv
      obtain ⟨body, hbody, hnone, hcount⟩ := h'.lost sv hsv
      exact ⟨body, hbody, hnone, fun body₀ hbody₀ => hcount body₀ (hfirst ▸ hbody₀)⟩

/-- All cleanups of a list can be run, in this order. -/
theorem Owned.runCleanups {cs : List PoolCleanup} (h : Owned s (cs ++ todo) hand) :
    ∃ s', cs.foldlM PoolWorld.runCleanup s = some s' ∧ Owned s' todo hand ∧ Ran s cs s' := by
  induction cs generalizing s with
  | nil => exact ⟨s, rfl, h, .refl s⟩
  | cons c cs ih =>
      obtain ⟨s₁, hrun, howned, hran⟩ := (show Owned s (c :: (cs ++ todo)) hand from h).runCleanup
      obtain ⟨s', hrest, howned', hran'⟩ := ih howned
      have hnot : c ∉ cs := fun hmem =>
        (List.nodup_cons.mp h.once).1 (List.mem_append_left _ (List.mem_append_left _ hmem))
      refine ⟨s', ?_, howned', hran.cons hran' hnot⟩
      rw [List.foldlM_cons, hrun]
      exact hrest

/-! ## Taking pools down -/

/-- The pools are replaced by others: each is one of before with no more cleanups, and what
is registered is what was, less what is to be run. -/
theorem Owned.replace (h : Owned s [] hand) {f : Forest AprPool}
    (hnodup : (f.keys AprPool.addr).Nodup) (hsub : ∀ p ∈ f.labels, ∃ p₀ ∈ s.pools.labels,
      p₀.addr = p.addr ∧ p.cleanups ⊆ p₀.cleanups)
    (hperm : (todo ++ f.labels.flatMap AprPool.cleanups).Perm s.pending) :
    Owned { s with pools := f } todo hand where
  nodup := hnodup
  notNull hzero := by
    obtain ⟨p, hp, hzero⟩ := List.mem_map.mp hzero
    obtain ⟨p₀, hp₀, haddr, -⟩ := hsub p hp
    exact h.notNull (List.mem_map.mpr ⟨p₀, hp₀, haddr.trans hzero⟩)
  once := hperm.nodup_iff.mpr h.once
  account p hp sv hsv := by
    obtain ⟨p₀, hp₀, haddr, hcleanups⟩ := hsub p hp
    exact haddr ▸ h.account p₀ hp₀ sv (hcleanups hsv)
  single p hp sv sv' hsv hsv' := by
    obtain ⟨p₀, hp₀, -, hcleanups⟩ := hsub p hp
    exact h.single p₀ hp₀ sv sv' (hcleanups hsv) (hcleanups hsv')
  unrun sv hsv := by
    have hmem : .account sv ∈ s.pending := hperm.mem_iff.mp (List.mem_append_left _ hsv)
    obtain ⟨p, hp, hsv⟩ := List.mem_flatMap.mp hmem
    obtain ⟨body, hbody, -⟩ := h.account p hp sv hsv
    exact ⟨body, hbody⟩
  magic sv body hbody := (h.magic sv body hbody).trans hperm.mem_iff.symm
  inert := h.inert
  refcnt := h.refcnt
  gone := h.gone
  ran := ((hperm.filterMap _).append_right _).trans h.ran
  interp := h.interp.trans hperm.length_eq.symm

theorem pending_perm {d : Forest.Detached AprPool}
    (hd : s.pools.detach AprPool.addr addr = some d) :
    s.pending.Perm (cleanupsOf d ++ d.rest.labels.flatMap AprPool.cleanups) := by
  rw [PoolWorld.pending, cleanupsOf, ← List.flatMap_append]
  exact (Forest.detach_perm hd).flatMap_right _

/-- A pool that is there can be destroyed. -/
theorem Owned.aprPoolDestroy (h : Owned s [] hand) (haddr : addr ∈ s.addrs) :
    ∃ d s', s.pools.detach AprPool.addr addr = some d ∧ s.aprPoolDestroy addr = some s' ∧
      Owned s' [] hand ∧ Ran { s with pools := d.rest } (cleanupsOf d) s' := by
  obtain ⟨d, hd⟩ := Forest.exists_detach haddr
  have hnodup := (Forest.detach_keys hd).nodup_iff.mp h.nodup
  have howned : Owned { s with pools := d.rest } (cleanupsOf d ++ []) hand := by
    refine h.replace (List.nodup_append.mp hnodup).2.1 (fun p hp => ⟨p, ?_, rfl, fun _ => id⟩) ?_
    · exact (Forest.detach_perm hd).mem_iff.mpr (List.mem_append_right _ hp)
    · rw [List.append_nil]
      exact (pending_perm hd).symm
  obtain ⟨s', hrun, howned', hran⟩ := howned.runCleanups
  exact ⟨d, s', hd, by rw [PoolWorld.aprPoolDestroy, hd]; exact hrun, howned', hran⟩

/-- A pool that is there can be cleared. -/
theorem Owned.aprPoolClear (h : Owned s [] hand) (haddr : addr ∈ s.addrs) :
    ∃ d f s', s.pools.detach AprPool.addr addr = some d ∧ s.aprPoolClear addr = some s' ∧
      f.labels.Perm ({ d.label with cleanups := [] } :: d.rest.labels) ∧
      Owned s' [] hand ∧ Ran { s with pools := f } (cleanupsOf d) s' := by
  obtain ⟨d, hd⟩ := Forest.exists_detach haddr
  have hnodup := (Forest.detach_keys hd).nodup_iff.mp h.nodup
  set f := s.pools.modify AprPool.addr addr fun p _ => ({ p with cleanups := [] }, .nil) with hf
  have hlabels : f.labels.Perm ({ d.label with cleanups := [] } :: d.rest.labels) := by
    simpa using Forest.modify_perm (g := fun p _ => ({ p with cleanups := [] }, .nil)) hd
  have howned : Owned { s with pools := f } (cleanupsOf d ++ []) hand := by
    refine h.replace ?_ (fun p hp => ?_) ?_
    · have hkeys : (f.keys AprPool.addr).Perm (addr :: d.rest.keys AprPool.addr) := by
        have hmap := hlabels.map AprPool.addr
        simpa [Forest.keys, ← Forest.detach_key hd] using hmap
      rw [hkeys.nodup_iff]
      simp only [List.append_assoc] at hnodup
      exact (List.nodup_append.mp hnodup).2.1
    · rcases List.mem_cons.mp (hlabels.mem_iff.mp hp) with rfl | hp
      · refine ⟨d.label, (Forest.detach_perm hd).mem_iff.mpr ?_, rfl, List.nil_subset _⟩
        simp
      · exact ⟨p, (Forest.detach_perm hd).mem_iff.mpr (List.mem_append_right _ hp), rfl,
          fun _ => id⟩
    · rw [List.append_nil]
      refine List.Perm.trans ?_ (pending_perm hd).symm
      refine List.Perm.append_left _ ?_
      simpa using hlabels.flatMap_right AprPool.cleanups
  obtain ⟨s', hrun, howned', hran⟩ := howned.runCleanups
  exact ⟨d, f, s', hd, by rw [PoolWorld.aprPoolClear, hd]; exact hrun, hlabels, howned', hran⟩

/-- An object with magic has a pool, and its cleanup is registered there. -/
theorem Owned.exists_pool (h : Owned s [] hand) (hbody : s.sv? sv = some body)
    (hmagic : body.magic.isSome = true) :
    ∃ d, s.pools.detach AprPool.addr body.iv = some d ∧ .account sv ∈ d.label.cleanups := by
  obtain ⟨p, hp, hsv⟩ := List.mem_flatMap.mp ((h.magic sv body hbody).mp hmagic)
  obtain ⟨body', hbody', haddr⟩ := h.account p hp sv hsv
  obtain rfl : body = body' := Option.some.inj (hbody.symm.trans hbody')
  obtain ⟨d, hd⟩ := Forest.exists_detach (List.mem_map.mpr ⟨p, hp, haddr.symm⟩)
  have hlabel : d.label ∈ s.pools.labels := (Forest.detach_perm hd).mem_iff.mpr (by simp)
  have heq : p = d.label :=
    List.inj_on_of_nodup_map h.nodup hp hlabel (haddr.symm.trans (Forest.detach_key hd).symm)
  exact ⟨d, hd, heq ▸ hsv⟩

theorem mem_addrs_of_detach {d : Forest.Detached AprPool}
    (hd : s.pools.detach AprPool.addr addr = some d) : addr ∈ s.addrs := by
  by_contra hnot
  rw [Forest.detach_eq_none.mpr hnot] at hd
  cases hd

/-- `DESTROY` never meets a pool that is gone, and leaves no magic behind. -/
theorem Owned.poolDestroy (h : Owned s [] hand) (hbody : s.sv? sv = some body) :
    ∃ s' body', s.poolDestroy sv = some s' ∧ Owned s' [] hand ∧ s'.refs = s.refs ∧
      s'.sv? sv = some body' ∧ body'.magic = none ∧ body'.refcnt = body.refcnt := by
  rw [PoolWorld.poolDestroy, hbody, Option.bind_some]
  split_ifs with hmagic
  · obtain ⟨d, hd, hsv⟩ := h.exists_pool hbody hmagic
    obtain ⟨d', s', hd', hrun, howned, hran⟩ := h.aprPoolDestroy (mem_addrs_of_detach hd)
    obtain rfl : d = d' := Option.some.inj (hd.symm.trans hd')
    have hmem : .account sv ∈ cleanupsOf d := by simp [cleanupsOf, hsv]
    obtain ⟨body', hbody', hnone, hcount⟩ := hran.lost sv hmem
    exact ⟨s', body', hrun, howned, hran.refs, hbody', hnone, hcount body hbody⟩
  · exact ⟨s, body, rfl, h, rfl, hbody, by simpa using hmagic, rfl⟩

/-! ## Reference counts -/

/-- The count of a body, and the reference in its magic, are changed along with the
references that are at hand or elsewhere. -/
theorem Owned.setSv (h : Owned s [] hand) {hand' refs' : List Nat}
    (hbody : s.sv? sv = some body) (body' : PoolSv) (hiv : body'.iv = body.iv)
    (hmagic : body'.magic.isSome = body.magic.isSome) (hpos : 0 < body'.refcnt)
    (hcount : ∀ a, (hand' ++ refs').count a + body'.magic.join.toList.count a +
        (if sv = a then body.refcnt else 0) =
      (hand ++ s.refs).count a + body.magic.join.toList.count a +
        (if sv = a then body'.refcnt else 0)) :
    Owned { s with svs := s.svs.set sv (some body'), refs := refs' } [] hand' := by
  have hlt := Arena.lt_length hbody
  set s' : PoolWorld := { s with svs := s.svs.set sv (some body'), refs := refs' } with hs'
  have hsv : s'.sv? sv = some body' := by
    rw [hs', sv?, Arena.get?_set hlt, if_pos rfl]
  have hsv' : ∀ sv', sv ≠ sv' → s'.sv? sv' = s.sv? sv' := by
    intro sv' hne
    rw [hs', sv?, Arena.get?_set hlt, if_neg hne]
    rfl
  have hholders : ∀ a, (s'.holders hand').count a + (if sv = a then body.refcnt else 0) =
      (s.holders hand).count a + (if sv = a then body'.refcnt else 0) := by
    intro a
    have hset := count_holders_set hbody (some body') hand a
    have hcount' := hcount a
    rw [show (some body').bind linkOf = body'.magic.join from rfl] at hset
    simp only [hs', holders, List.count_append] at hset hcount' ⊢
    omega
  refine ⟨h.nodup, h.notNull, h.once, ?_, h.single, unrun_nil _, ?_, ?_, ?_, ?_, h.ran, h.interp⟩
  · intro p hp sv' hmem
    obtain ⟨body₁, hbody₁, haddr⟩ := h.account p hp sv' hmem
    by_cases heq : sv = sv'
    · subst heq
      obtain rfl : body = body₁ := Option.some.inj (hbody.symm.trans hbody₁)
      exact ⟨_, hsv, hiv.trans haddr⟩
    · exact ⟨body₁, (hsv' sv' heq).trans hbody₁, haddr⟩
  · intro sv' body₁ hbody₁
    by_cases heq : sv = sv'
    · subst heq
      rw [hsv, Option.some_inj] at hbody₁
      rw [← hbody₁, hmagic]
      exact h.magic sv body hbody
    · exact h.magic sv' body₁ (hsv' sv' heq ▸ hbody₁)
  · intro sv' body₁ hbody₁ hnone
    by_cases heq : sv = sv'
    · subst heq
      rw [hsv, Option.some_inj] at hbody₁
      rw [← hbody₁] at hnone ⊢
      rw [hnone] at hmagic
      exact hiv.trans (h.inert sv body hbody (Option.isSome_eq_false_iff.mp hmagic.symm |>
        Option.isNone_iff_eq_none.mp))
    · exact h.inert sv' body₁ (hsv' sv' heq ▸ hbody₁) hnone
  · intro sv' body₁ hbody₁
    have hsum := hholders sv'
    by_cases heq : sv = sv'
    · subst heq
      rw [hsv, Option.some_inj] at hbody₁
      obtain ⟨hbefore, -⟩ := h.refcnt sv body hbody
      rw [if_pos rfl, if_pos rfl] at hsum
      rw [← hbody₁]
      exact ⟨by omega, hpos⟩
    · rw [if_neg heq, if_neg heq] at hsum
      obtain ⟨hbefore, hpos'⟩ := h.refcnt sv' body₁ (hsv' sv' heq ▸ hbody₁)
      exact ⟨by omega, hpos'⟩
  · intro sv' hgone
    have hsum := hholders sv'
    by_cases heq : sv = sv'
    · subst heq
      rw [hsv] at hgone
      cases hgone
    · rw [if_neg heq, if_neg heq] at hsum
      have hbefore := List.count_eq_zero.mpr (h.gone sv' (hsv' sv' heq ▸ hgone))
      exact List.count_eq_zero.mp (by omega)

theorem Owned.refcntInc (h : Owned s [] hand) (hbody : s.sv? sv = some body) :
    ∃ s', s.refcntInc sv = some s' ∧ Owned { s' with refs := sv :: s'.refs } [] hand := by
  refine ⟨_, by rw [PoolWorld.refcntInc, hbody]; rfl, ?_⟩
  refine h.setSv hbody _ rfl rfl (Nat.succ_pos _) fun a => ?_
  simp only [List.count_append, List.count_cons, beq_iff_eq]
  split_ifs <;> omega

/-- A body without magic goes with its last reference. -/
theorem Owned.free (h : Owned s [] (sv :: hand)) (hbody : s.sv? sv = some body)
    (hnone : body.magic = none) (hone : body.refcnt = 1) :
    Owned { s with svs := s.svs.set sv none } [] hand := by
  have hlt := Arena.lt_length hbody
  set s' : PoolWorld := { s with svs := s.svs.set sv none } with hs'
  have hsv : s'.sv? sv = none := by rw [hs', sv?, Arena.get?_set hlt, if_pos rfl]
  have hsv' : ∀ sv', sv ≠ sv' → s'.sv? sv' = s.sv? sv' := by
    intro sv' hne
    rw [hs', sv?, Arena.get?_set hlt, if_neg hne]
    rfl
  have hne : ∀ {sv' body'}, s'.sv? sv' = some body' → sv ≠ sv' := by
    rintro sv' body' hbody' rfl
    rw [hsv] at hbody'
    cases hbody'
  have hcount : ∀ a, (s'.holders hand).count a + [sv].count a =
      (s.holders (sv :: hand)).count a := by
    intro a
    have hset := count_holders_set hbody none hand a
    rw [show (none : Option PoolSv).bind linkOf = none from rfl, hnone] at hset
    simp only [hs', holders, List.count_append, List.count_cons, List.count_nil,
      Option.join_none, Option.toList_none] at hset ⊢
    omega
  refine ⟨h.nodup, h.notNull, h.once, ?_, h.single, unrun_nil _, ?_, ?_, ?_, ?_, h.ran, h.interp⟩
  · intro p hp sv' hmem
    obtain ⟨body', hbody', haddr⟩ := h.account p hp sv' hmem
    by_cases heq : sv = sv'
    · subst heq
      have hpending : .account sv ∈ [] ++ s.pending := List.mem_flatMap.mpr ⟨p, hp, hmem⟩
      have hsome := (h.magic sv body hbody).mpr hpending
      rw [hnone] at hsome
      cases hsome
    · exact ⟨body', (hsv' sv' heq).trans hbody', haddr⟩
  · exact fun sv' body' hbody' => h.magic sv' body' (hsv' sv' (hne hbody') ▸ hbody')
  · exact fun sv' body' hbody' => h.inert sv' body' (hsv' sv' (hne hbody') ▸ hbody')
  · intro sv' body' hbody'
    have hcount' := hcount sv'
    rw [List.count_cons_of_ne (hne hbody'), List.count_nil] at hcount'
    obtain ⟨hbefore, hpos⟩ := h.refcnt sv' body' (hsv' sv' (hne hbody') ▸ hbody')
    exact ⟨by omega, hpos⟩
  · intro sv' hgone
    have hcount' := hcount sv'
    refine List.count_eq_zero.mp ?_
    by_cases heq : sv = sv'
    · subst heq
      have hbefore := (h.refcnt sv body hbody).1
      rw [List.count_singleton_self] at hcount'
      omega
    · have hbefore := List.count_eq_zero.mpr (h.gone sv' (hsv' sv' heq ▸ hgone))
      omega

/-- A reference that is there can be given back. -/
theorem Owned.refcntDec (h : Owned s [] (sv :: hand)) :
    ∃ s', s.refcntDec sv = some s' ∧ Owned s' [] hand := by
  have hheld : sv ∈ s.holders (sv :: hand) := List.mem_cons_self
  obtain ⟨body, hbody⟩ : ∃ body, s.sv? sv = some body := by
    by_contra hnone
    exact h.gone sv (Option.eq_none_iff_forall_ne_some.mpr fun body hbody => hnone ⟨body, hbody⟩)
      hheld
  rw [PoolWorld.refcntDec, hbody, Option.bind_some]
  split_ifs with hone hzero
  · obtain ⟨s₁, body₁, hdestroy, howned, -, hbody₁, hnone, hcount⟩ := h.poolDestroy hbody
    refine ⟨_, ?_, howned.free hbody₁ hnone (hcount.trans hone)⟩
    rw [hdestroy, Option.bind_some, hbody₁, Option.bind_some, hnone]
    rfl
  · have hpos := (h.refcnt sv body hbody).2
    omega
  · refine ⟨_, rfl, h.setSv hbody _ rfl rfl (by simp only; omega) fun a => ?_⟩
    simp only [List.count_append, List.count_cons, beq_iff_eq]
    split_ifs <;> omega

/-! ## New pools and objects -/

/-- A pool without cleanups is put in, at the top or below another one. -/
theorem Owned.leaf (h : Owned s [] hand) {f : Forest AprPool} (hfresh : s.Fresh addr)
    (hf : f.labels.Perm (⟨addr, []⟩ :: s.pools.labels)) : Owned { s with pools := f } [] hand := by
  have hkeys : (f.keys AprPool.addr).Perm (addr :: s.addrs) := by
    simpa [Forest.keys, addrs] using hf.map AprPool.addr
  have hpending : (f.labels.flatMap AprPool.cleanups).Perm s.pending := by
    simpa [PoolWorld.pending] using hf.flatMap_right AprPool.cleanups
  have hlabel : ∀ p ∈ f.labels, p = ⟨addr, []⟩ ∨ p ∈ s.pools.labels := fun p hp =>
    List.mem_cons.mp (hf.mem_iff.mp hp)
  refine ⟨?_, ?_, hpending.nodup_iff.mpr h.once, ?_, ?_, unrun_nil _, ?_, h.inert, h.refcnt, h.gone,
    ?_, h.interp.trans hpending.length_eq.symm⟩
  · exact hkeys.nodup_iff.mpr (List.nodup_cons.mpr ⟨hfresh.2, h.nodup⟩)
  · intro hzero
    rcases List.mem_cons.mp (hkeys.mem_iff.mp hzero) with hzero | hzero
    · exact hfresh.1 hzero.symm
    · exact h.notNull hzero
  · intro p hp sv hsv
    rcases hlabel p hp with rfl | hp
    · cases hsv
    · exact h.account p hp sv hsv
  · intro p hp sv sv' hsv hsv'
    rcases hlabel p hp with rfl | hp
    · cases hsv
    · exact h.single p hp sv sv' hsv hsv'
  · exact fun sv body hbody => (h.magic sv body hbody).trans hpending.mem_iff.symm
  · exact ((hpending.filterMap _).append_right _).trans h.ran

/-- The address of a pool that is there. -/
theorem Owned.aprPoolCreate (h : Owned s [] hand) {parent : Nat}
    (hparent : parent = 0 ∨ parent ∈ s.addrs) (hfresh : s.Fresh addr) :
    ∃ f, s.aprPoolCreate parent addr = some { s with pools := f } ∧
      f.labels.Perm (⟨addr, []⟩ :: s.pools.labels) ∧ Owned { s with pools := f } [] hand := by
  rw [PoolWorld.aprPoolCreate]
  split_ifs with hzero hmem
  · have hf : (Forest.node ⟨addr, []⟩ .nil s.pools).labels.Perm (⟨addr, []⟩ :: s.pools.labels) := by
      simp
    exact ⟨_, rfl, hf, h.leaf hfresh hf⟩
  · obtain ⟨d, hd⟩ := Forest.exists_detach hmem
    have hf : (s.pools.modify AprPool.addr parent fun p child =>
        (p, .node ⟨addr, []⟩ .nil child)).labels.Perm (⟨addr, []⟩ :: s.pools.labels) := by
      refine (Forest.modify_perm hd).trans ?_
      simpa using ((Forest.detach_perm hd).symm.cons ⟨addr, []⟩)
    exact ⟨_, rfl, hf, h.leaf hfresh hf⟩
  · exact absurd (hparent.resolve_left hzero) hmem

/-- What is registered with a pool that is there. -/
theorem cleanupRegister_perm {d : Forest.Detached AprPool} (c : PoolCleanup)
    (hd : s.pools.detach AprPool.addr addr = some d) :
    (s.aprPoolCleanupRegister addr c).pools.labels.Perm
      ({ d.label with cleanups := c :: d.label.cleanups } ::
        (d.below.labels ++ d.rest.labels)) := by
  refine (Forest.modify_perm hd).trans ?_
  simp

theorem cleanupRegister_pending {d : Forest.Detached AprPool} (c : PoolCleanup)
    (hd : s.pools.detach AprPool.addr addr = some d) :
    (s.aprPoolCleanupRegister addr c).pending.Perm (c :: s.pending) := by
  calc (s.aprPoolCleanupRegister addr c).pending
    _ |>.Perm ((c :: d.label.cleanups) ++
          (d.below.labels ++ d.rest.labels).flatMap AprPool.cleanups) :=
        (cleanupRegister_perm c hd).flatMap_right AprPool.cleanups
    _ |>.Perm (c :: ((d.below.labels ++ [d.label]) ++ d.rest.labels).flatMap AprPool.cleanups) := by
        simp only [List.cons_append, List.flatMap_append, List.flatMap_cons, List.flatMap_nil,
          List.append_assoc]
        exact (List.perm_append_comm_assoc _ _ _).cons c
    _ |>.Perm (c :: s.pending) :=
        ((Forest.detach_perm hd).flatMap_right AprPool.cleanups).symm.cons c

theorem cleanupRegister_addrs {d : Forest.Detached AprPool} (c : PoolCleanup)
    (hd : s.pools.detach AprPool.addr addr = some d) :
    (s.aprPoolCleanupRegister addr c).addrs.Perm s.addrs := by
  have hnew := (cleanupRegister_perm c hd).map AprPool.addr
  have hold := (Forest.detach_perm hd).map AprPool.addr
  refine hnew.trans (List.Perm.trans ?_ hold.symm)
  simpa using List.perm_middle.symm

/-- A pool that is registered with has the cleanup more, and the other pools are as
before. -/
theorem cleanupRegister_labels {d : Forest.Detached AprPool} {c : PoolCleanup} {p : AprPool}
    (hd : s.pools.detach AprPool.addr addr = some d)
    (hp : p ∈ (s.aprPoolCleanupRegister addr c).pools.labels) :
    p = { d.label with cleanups := c :: d.label.cleanups } ∨ p ∈ s.pools.labels := by
  rcases List.mem_cons.mp ((cleanupRegister_perm c hd).mem_iff.mp hp) with rfl | hp
  · exact .inl rfl
  · refine .inr ((Forest.detach_perm hd).mem_iff.mpr ?_)
    rcases List.mem_append.mp hp with hp | hp <;> simp [hp]

theorem detach_label_mem {d : Forest.Detached AprPool}
    (hd : s.pools.detach AprPool.addr addr = some d) : d.label ∈ s.pools.labels :=
  (Forest.detach_perm hd).mem_iff.mpr (by simp)

/-- A Perl cleanup is registered with a pool that is there. -/
theorem Owned.poolCleanupRegister (h : Owned s [] hand) (haddr : addr ∈ s.addrs) :
    ∃ s', s.poolCleanupRegister addr = some s' ∧ Owned s' [] hand := by
  obtain ⟨d, hd⟩ := Forest.exists_detach haddr
  have hpending := cleanupRegister_pending (.perl s.registered) hd
  have hnew : .perl s.registered ∉ s.pending := by
    intro hmem
    have hid : s.registered ∈ ([] ++ s.pending).filterMap PoolCleanup.perlId :=
      List.mem_filterMap.mpr ⟨_, hmem, rfl⟩
    have hrange := h.ran.mem_iff.mp (List.mem_append_left _ hid)
    exact absurd (List.mem_range.mp hrange) (Nat.lt_irrefl _)
  refine ⟨_, by rw [PoolWorld.poolCleanupRegister, if_pos haddr], ?_⟩
  refine ⟨(cleanupRegister_addrs _ hd).nodup_iff.mpr h.nodup, ?_, ?_, ?_, ?_, unrun_nil _, ?_,
    h.inert, h.refcnt, h.gone, ?_, ?_⟩
  · exact fun hzero => h.notNull ((cleanupRegister_addrs _ hd).mem_iff.mp hzero)
  · exact hpending.nodup_iff.mpr (List.nodup_cons.mpr ⟨hnew, h.once⟩)
  · intro p hp sv hsv
    rcases cleanupRegister_labels hd hp with rfl | hp
    · exact h.account d.label (detach_label_mem hd) sv (by simpa using hsv)
    · exact h.account p hp sv hsv
  · intro p hp sv sv' hsv hsv'
    rcases cleanupRegister_labels hd hp with rfl | hp
    · exact h.single d.label (detach_label_mem hd) sv sv' (by simpa using hsv) (by simpa using hsv')
    · exact h.single p hp sv sv' hsv hsv'
  · intro sv body hbody
    rw [h.magic sv body hbody]
    have hother : .account sv ∈ s.pending ↔ .account sv ∈ .perl s.registered :: s.pending := by
      simp
    exact hother.trans hpending.mem_iff.symm
  · refine ((hpending.filterMap _).append_right _).trans ?_
    rw [List.filterMap_cons]
    refine (h.ran.cons s.registered).trans ?_
    rw [List.range_succ]
    exact (List.perm_append_singleton _ _).symm
  · exact (congrArg Nat.succ h.interp).trans hpending.length_eq.symm

/-- An object without a pool takes one that no object has. -/
theorem Owned.takesOwnership (h : Owned s [] hand) (hbody : s.sv? sv = some body)
    (hnone : body.magic = none) {d : Forest.Detached AprPool}
    (hd : s.pools.detach AprPool.addr addr = some d)
    (hfree : ∀ sv', .account sv' ∉ d.label.cleanups) :
    ∃ s', s.takesOwnership sv addr = some s' ∧ Owned s' [] hand ∧ s'.refs = s.refs ∧
      s'.sv? sv = some { body with iv := addr, magic := some none } ∧
      (∀ sv', sv ≠ sv' → s'.sv? sv' = s.sv? sv') ∧
      s'.pools = (s.aprPoolCleanupRegister addr (.account sv)).pools := by
  have hlt := Arena.lt_length hbody
  set s' : PoolWorld := { s.aprPoolCleanupRegister addr (.account sv) with
    svs := s.svs.set sv (some { body with iv := addr, magic := some none })
    interpRefcnt := s.interpRefcnt + 1 } with hs'
  have hsv : s'.sv? sv = some { body with iv := addr, magic := some none } := by
    rw [hs', sv?, Arena.get?_set hlt, if_pos rfl]
  have hsv' : ∀ sv', sv ≠ sv' → s'.sv? sv' = s.sv? sv' := by
    intro sv' hne
    rw [hs', sv?, Arena.get?_set hlt, if_neg hne]
    rfl
  have hpending : s'.pending.Perm (.account sv :: s.pending) := cleanupRegister_pending _ hd
  have haddrs : s'.addrs.Perm s.addrs := cleanupRegister_addrs _ hd
  have hnew : .account sv ∉ s.pending := by
    intro hmem
    have hsome := (h.magic sv body hbody).mpr hmem
    rw [hnone] at hsome
    cases hsome
  have hcount : ∀ a, (s'.holders hand).count a = (s.holders hand).count a := by
    intro a
    have hset := count_holders_set hbody (some { body with iv := addr, magic := some none }) hand a
    rw [hnone, show (some { body with iv := addr, magic := some none }).bind linkOf = none from rfl]
      at hset
    exact Nat.add_right_cancel hset
  refine ⟨s', by rw [PoolWorld.takesOwnership, hbody]; rfl, ?_, rfl, hsv, hsv', rfl⟩
  refine ⟨haddrs.nodup_iff.mpr h.nodup, fun hzero => h.notNull (haddrs.mem_iff.mp hzero),
    hpending.nodup_iff.mpr (List.nodup_cons.mpr ⟨hnew, h.once⟩), ?_, ?_, unrun_nil _, ?_, ?_, ?_,
    ?_, ?_, ?_⟩
  · intro p hp sv' hmem
    rcases cleanupRegister_labels hd hp with rfl | hp
    · rcases List.mem_cons.mp hmem with heq | hmem
      · obtain rfl := PoolCleanup.account.inj heq
        exact ⟨_, hsv, (Forest.detach_key hd).symm⟩
      · exact absurd hmem (hfree sv')
    · have hne : sv ≠ sv' := by
        rintro rfl
        exact hnew (List.mem_flatMap.mpr ⟨p, hp, hmem⟩)
      rw [hsv' sv' hne]
      exact h.account p hp sv' hmem
  · intro p hp sv₁ sv₂ hmem₁ hmem₂
    rcases cleanupRegister_labels hd hp with rfl | hp
    · have honly : ∀ sv', .account sv' ∈ PoolCleanup.account sv :: d.label.cleanups → sv' = sv := by
        intro sv' hmem
        rcases List.mem_cons.mp hmem with heq | hmem
        · exact PoolCleanup.account.inj heq
        · exact absurd hmem (hfree sv')
      exact (honly sv₁ hmem₁).trans (honly sv₂ hmem₂).symm
    · exact h.single p hp sv₁ sv₂ hmem₁ hmem₂
  · intro sv' body' hbody'
    rw [List.nil_append, hpending.mem_iff, List.mem_cons]
    by_cases heq : sv = sv'
    · subst heq
      rw [hsv, Option.some_inj] at hbody'
      rw [← hbody']
      exact ⟨fun _ => .inl rfl, fun _ => rfl⟩
    · rw [h.magic sv' body' (hsv' sv' heq ▸ hbody'), PoolCleanup.account.injEq]
      exact (or_iff_right (Ne.symm heq)).symm
  · intro sv' body' hbody' hnone'
    by_cases heq : sv = sv'
    · subst heq
      rw [hsv, Option.some_inj] at hbody'
      rw [← hbody'] at hnone'
      cases hnone'
    · exact h.inert sv' body' (hsv' sv' heq ▸ hbody') hnone'
  · intro sv' body' hbody'
    rw [hcount]
    by_cases heq : sv = sv'
    · subst heq
      rw [hsv, Option.some_inj] at hbody'
      rw [← hbody']
      exact h.refcnt sv body hbody
    · exact h.refcnt sv' body' (hsv' sv' heq ▸ hbody')
  · intro sv' hgone
    rw [← List.count_eq_zero, hcount, List.count_eq_zero]
    by_cases heq : sv = sv'
    · subst heq
      rw [hsv] at hgone
      cases hgone
    · exact h.gone sv' (hsv' sv' heq ▸ hgone)
  · exact ((hpending.filterMap _).append_right _).trans h.ran
  · exact (congrArg Nat.succ h.interp).trans hpending.length_eq.symm

/-- The body of a new object, to which Perl has the only reference. -/
theorem Owned.newSv (h : Owned s [] hand) :
    Owned { s with
      svs := s.svs ++ [some ⟨0, none, 1⟩], refs := s.svs.length :: s.refs } [] hand := by
  set s' : PoolWorld := { s with
    svs := s.svs ++ [some ⟨0, none, 1⟩], refs := s.svs.length :: s.refs } with hs'
  have hself : s'.sv? s.svs.length = some ⟨0, none, 1⟩ := by simp [hs', sv?]
  have hother : ∀ sv', sv' ≠ s.svs.length → s'.sv? sv' = s.sv? sv' := by
    intro sv' hne
    exact Arena.get?_concat_of_ne _ hne
  have hnone : s.sv? s.svs.length = none := by simp [sv?]
  have hcount : ∀ a, (s'.holders hand).count a = (s.svs.length :: s.holders hand).count a := by
    intro a
    simp only [hs', holders, Arena.refs_concat, Option.bind_some, linkOf, Option.join_none,
      Option.toList_none, List.append_nil, List.count_append, List.count_cons]
    omega
  refine ⟨h.nodup, h.notNull, h.once, ?_, h.single, unrun_nil _, ?_, ?_, ?_, ?_, h.ran, h.interp⟩
  · intro p hp sv' hmem
    obtain ⟨body, hbody, haddr⟩ := h.account p hp sv' hmem
    exact ⟨body, (hother sv' (Arena.lt_length hbody).ne).trans hbody, haddr⟩
  · intro sv' body' hbody'
    by_cases heq : sv' = s.svs.length
    · subst heq
      rw [hself, Option.some_inj] at hbody'
      rw [← hbody']
      refine ⟨fun hsome => (by cases hsome), fun hmem => ?_⟩
      obtain ⟨p, hp, hmem⟩ := List.mem_flatMap.mp hmem
      obtain ⟨body, hbody, -⟩ := h.account p hp _ hmem
      rw [hnone] at hbody
      cases hbody
    · exact h.magic sv' body' (hother sv' heq ▸ hbody')
  · intro sv' body' hbody' hmagic
    by_cases heq : sv' = s.svs.length
    · subst heq
      rw [hself, Option.some_inj] at hbody'
      rw [← hbody']
    · exact h.inert sv' body' (hother sv' heq ▸ hbody') hmagic
  · intro sv' body' hbody'
    rw [hcount]
    by_cases heq : sv' = s.svs.length
    · subst heq
      rw [hself, Option.some_inj] at hbody'
      rw [← hbody', List.count_cons_self, List.count_eq_zero.mpr (h.gone _ hnone)]
      exact ⟨rfl, Nat.one_pos⟩
    · rw [List.count_cons_of_ne (Ne.symm heq)]
      exact h.refcnt sv' body' (hother sv' heq ▸ hbody')
  · intro sv' hgone
    have hne : sv' ≠ s.svs.length := by
      rintro rfl
      rw [hself] at hgone
      cases hgone
    rw [← List.count_eq_zero, hcount, List.count_cons_of_ne (Ne.symm hne), List.count_eq_zero]
    exact h.gone sv' (hother sv' hne ▸ hgone)

/-- What the IV was does not matter to an object that takes a pool. -/
theorem takesOwnership_newSv (s : PoolWorld) (refs : List Nat) (iv addr : Nat) :
    takesOwnership { s with svs := s.svs ++ [some ⟨iv, none, 1⟩], refs } s.svs.length addr =
      takesOwnership { s with svs := s.svs ++ [some ⟨0, none, 1⟩], refs } s.svs.length addr := by
  simp [takesOwnership, sv?, aprPoolCleanupRegister]

/-- A new object has its pool, and nothing changes for the others. -/
theorem Owned.poolCreate (h : Owned s [] hand) {parent : Nat}
    (hparent : parent = 0 ∨ parent ∈ s.addrs) (hfresh : s.Fresh addr) :
    ∃ s', s.poolCreate parent addr = some s' ∧ Owned s' [] hand ∧
      s'.refs = s.svs.length :: s.refs ∧
      s'.sv? s.svs.length = some ⟨addr, some none, 1⟩ ∧
      ∀ sv', sv' ≠ s.svs.length → s'.sv? sv' = s.sv? sv' := by
  obtain ⟨f, hcreate, hf, howned⟩ := h.aprPoolCreate hparent hfresh
  have hnew := howned.newSv
  set s₁ : PoolWorld := { s with pools := f } with hs₁
  set s₂ : PoolWorld :=
    { s₁ with svs := s₁.svs ++ [some ⟨0, none, 1⟩], refs := s₁.svs.length :: s₁.refs } with hs₂
  have hbody : s₂.sv? s.svs.length = some ⟨0, none, 1⟩ := by simp [hs₂, hs₁, sv?]
  have hleaf : ⟨addr, []⟩ ∈ s₂.pools.labels := hf.mem_iff.mpr List.mem_cons_self
  obtain ⟨d, hd⟩ : ∃ d, s₂.pools.detach AprPool.addr addr = some d :=
    Forest.exists_detach (List.mem_map.mpr ⟨_, hleaf, rfl⟩)
  have hlabel : d.label = ⟨addr, []⟩ :=
    List.inj_on_of_nodup_map hnew.nodup (detach_label_mem hd) hleaf (Forest.detach_key hd)
  obtain ⟨s', htakes, howned', hrefs, hsv, hother, -⟩ :=
    hnew.takesOwnership hbody rfl hd (by simp [hlabel])
  refine ⟨s', ?_, howned', hrefs, hsv, fun sv' hne => ?_⟩
  · rw [PoolWorld.poolCreate, hcreate, Option.bind_some]
    exact (takesOwnership_newSv s₁ _ addr addr).trans htakes
  · rw [hother sv' (Ne.symm hne)]
    exact Arena.get?_concat_of_ne _ hne

/-- The object of a parent that has a pool is referred to by the magic of the child's. -/
theorem Owned.addPoolMagic (h : Owned s [] hand) {pool : Nat} {parent : PoolSv}
    (hbody : s.sv? sv = some body) (hmagic : body.magic = some none)
    (hparent : s.sv? pool = some parent) (hne : sv ≠ pool) :
    ∃ s', s.addPoolMagic sv pool = some s' ∧ Owned s' [] hand := by
  rw [PoolWorld.addPoolMagic, hparent, Option.bind_some]
  split_ifs with hcustom
  · have hheld : Owned { s with
        svs := s.svs.set pool (some { parent with refcnt := parent.refcnt + 1 }) } []
        (pool :: hand) := by
      refine h.setSv hparent _ rfl rfl (Nat.succ_pos _) fun a => ?_
      simp only [List.count_append, List.count_cons, beq_iff_eq]
      split_ifs <;> omega
    have hbody' : sv? { s with
        svs := s.svs.set pool (some { parent with refcnt := parent.refcnt + 1 }) } sv =
          some body := by
      rw [sv?, Arena.get?_set (Arena.lt_length hparent), if_neg (Ne.symm hne)]
      exact hbody
    refine ⟨_, by rw [hbody]; rfl, ?_⟩
    dsimp only
    rw [List.set_comm _ _ hne]
    refine hheld.setSv hbody' { body with magic := some (some pool) } rfl (by rw [hmagic]; rfl)
      (h.refcnt sv body hbody).2 fun a => ?_
    rw [hmagic]
    simp only [List.count_append, List.count_cons, beq_iff_eq, Option.join_some, Option.toList_some,
      Option.toList_none, List.count_nil]
    omega
  · exact ⟨s, rfl, h⟩

/-! ## Every step -/

theorem Owned.init : Owned PoolWorld.init [] [] := by
  have hnone : ∀ sv body, PoolWorld.init.sv? sv ≠ some body := fun sv body h => by
    rw [sv?, PoolWorld.init, Arena.get?_of_length_le (Nat.zero_le sv)] at h
    cases h
  exact ⟨List.nodup_nil, List.not_mem_nil, List.nodup_nil, fun _ hp => (by cases hp),
    fun _ hp => (by cases hp), unrun_nil _,
    fun sv body h => absurd h (hnone sv body), fun sv body h => absurd h (hnone sv body),
    fun sv body h => absurd h (hnone sv body), fun _ _ => List.not_mem_nil, .nil, rfl⟩

theorem Owned.mem_refs (h : Owned s [] hand) (hsv : sv ∈ s.refs) :
    ∃ body, s.sv? sv = some body := by
  by_contra hnone
  refine h.gone sv (Option.eq_none_iff_forall_ne_some.mpr fun body hbody => hnone ⟨body, hbody⟩) ?_
  exact List.mem_append_right _ (List.mem_append_left _ hsv)

/-- A reference that is not counted as one from elsewhere any more is at hand. -/
theorem Owned.take (h : Owned s [] []) (hsv : sv ∈ s.refs) :
    Owned { s with refs := s.refs.erase sv } [] [sv] := by
  have hholders : ∀ a, (holders { s with refs := s.refs.erase sv } [sv]).count a =
      (s.holders []).count a := by
    intro a
    have hperm := (List.perm_cons_erase hsv).count_eq a
    simp only [holders, List.count_append, List.count_cons, List.count_nil] at hperm ⊢
    omega
  refine ⟨h.nodup, h.notNull, h.once, h.account, h.single, unrun_nil _, h.magic, h.inert, ?_, ?_,
    h.ran, h.interp⟩
  · intro sv' body hbody
    rw [hholders]
    exact h.refcnt sv' body hbody
  · intro sv' hgone
    rw [← List.count_eq_zero, hholders, List.count_eq_zero]
    exact h.gone sv' hgone

theorem Owned.takeMortal {mortals : List Nat} (h : Owned s [] [])
    (hmortals : s.mortals = sv :: mortals) :
    Owned { s with mortals } [] [sv] := by
  have hholders : ∀ a, (holders { s with mortals } [sv]).count a = (s.holders []).count a := by
    intro a
    simp only [holders, hmortals, List.count_append, List.count_cons, List.count_nil]
    omega
  refine ⟨h.nodup, h.notNull, h.once, h.account, h.single, unrun_nil _, h.magic, h.inert, ?_, ?_,
    h.ran, h.interp⟩
  · intro sv' body hbody
    rw [hholders]
    exact h.refcnt sv' body hbody
  · intro sv' hgone
    rw [← List.count_eq_zero, hholders, List.count_eq_zero]
    exact h.gone sv' hgone

/-- An object that has its pool has it again after a `clear`. -/
theorem Owned.poolClear (h : Owned s [] []) (hbody : s.sv? sv = some body) (hiv : body.iv ≠ 0) :
    ∃ s', s.poolClear sv = some s' ∧ Owned s' [] [] := by
  cases hmagic : body.magic with
  | none => exact absurd (h.inert sv body hbody hmagic) hiv
  | some link =>
      have hcustom : body.magic.isSome = true := by rw [hmagic]; rfl
      obtain ⟨d, hd, hsv⟩ := h.exists_pool hbody hcustom
      obtain ⟨d', f, s₁, hd', hclear, hf, howned, hran⟩ :=
        h.aprPoolClear (mem_addrs_of_detach hd)
      obtain rfl : d = d' := Option.some.inj (hd.symm.trans hd')
      obtain ⟨body₁, hbody₁, hnone, -⟩ := hran.lost sv (by simp [cleanupsOf, hsv])
      have hleaf : { d.label with cleanups := [] } ∈ s₁.pools.labels := by
        rw [hran.pools]
        exact hf.mem_iff.mpr List.mem_cons_self
      have haddr : body.iv ∈ s₁.addrs :=
        List.mem_map.mpr ⟨_, hleaf, Forest.detach_key hd⟩
      obtain ⟨d₁, hd₁⟩ := Forest.exists_detach haddr
      have hlabel : d₁.label = { d.label with cleanups := [] } :=
        List.inj_on_of_nodup_map howned.nodup (detach_label_mem hd₁) hleaf
          ((Forest.detach_key hd₁).trans (Forest.detach_key hd).symm)
      obtain ⟨s', htakes, howned', -⟩ :=
        howned.takesOwnership hbody₁ hnone hd₁ (by simp [hlabel])
      refine ⟨s', ?_, howned'⟩
      rw [PoolWorld.poolClear, hbody, Option.bind_some, if_pos hcustom, hclear]
      exact htakes

/-- Every legal step is possible, and keeps the ownership. -/
theorem Owned.step (h : Owned s [] []) {a : Act} (ha : s.Legal a) :
    ∃ s', s.step a = some s' ∧ Owned s' [] [] := by
  cases a with
  | create addr =>
      obtain ⟨s', hs', howned, -⟩ := h.poolCreate (.inl rfl) ha
      exact ⟨s', hs', howned⟩
  | createFrom sv addr =>
      obtain ⟨parent, hparent⟩ := h.mem_refs ha.1
      have hlive : parent.iv = 0 ∨ parent.iv ∈ s.addrs := by
        cases hmagic : parent.magic with
        | none => exact .inl (h.inert sv parent hparent hmagic)
        | some link =>
            obtain ⟨d, hd, -⟩ := h.exists_pool hparent (by rw [hmagic]; rfl)
            exact .inr (mem_addrs_of_detach hd)
      obtain ⟨s₁, hs₁, howned, -, hnew, hother⟩ := h.poolCreate hlive ha.2
      have hne : s.svs.length ≠ sv := (Arena.lt_length hparent).ne'
      have hparent₁ : s₁.sv? sv = some parent := (hother sv (Ne.symm hne)).trans hparent
      obtain ⟨s₂, hs₂, howned₂⟩ := howned.addPoolMagic hnew rfl hparent₁ hne
      rw [PoolWorld.step, poolCreateFrom, hparent, Option.bind_some, hs₁, Option.bind_some]
      split_ifs
      · exact ⟨s₂, hs₂, howned₂⟩
      · exact ⟨s₁, rfl, howned⟩
  | createUnder parent addr =>
      obtain ⟨s', hs', howned, -⟩ := h.poolCreate (.inr ha.1) ha.2
      exact ⟨s', hs', howned⟩
  | hold sv =>
      obtain ⟨body, hbody⟩ := h.mem_refs ha
      obtain ⟨s', hs', howned⟩ := h.refcntInc hbody
      exact ⟨_, by rw [PoolWorld.step, hs', Option.map_some], howned⟩
  | release sv => exact (h.take ha).refcntDec
  | destroy sv =>
      obtain ⟨body, hbody⟩ := h.mem_refs ha
      obtain ⟨s', -, hs', howned, -⟩ := h.poolDestroy hbody
      exact ⟨s', hs', howned⟩
  | clear sv =>
      obtain ⟨body, hbody⟩ := h.mem_refs ha.1
      exact h.poolClear hbody (ha.2 body hbody)
  | clearUnowned addr =>
      obtain ⟨-, -, s', -, hs', -, howned, -⟩ := h.aprPoolClear ha
      exact ⟨s', hs', howned⟩
  | cleanupRegister addr => exact h.poolCleanupRegister ha
  | serverCreate parent addr =>
      obtain ⟨f, hs', -, howned⟩ := h.aprPoolCreate (ha.1.imp_right And.left) ha.2
      exact ⟨_, hs', howned⟩
  | serverDestroy addr =>
      obtain ⟨-, s', -, hs', howned, -⟩ := h.aprPoolDestroy ha.1
      exact ⟨s', hs', howned⟩
  | freeTmps =>
      rw [PoolWorld.step]
      cases hmortals : s.mortals with
      | nil => exact ⟨s, rfl, h⟩
      | cons sv mortals => exact (h.takeMortal hmortals).refcntDec

theorem Owned.of_reachable (h : Reachable PoolWorld.step Legal PoolWorld.init s) :
    Owned s [] [] := by
  refine h.invariant (I := fun s => Owned s [] []) .init fun s a s' _ howned ha hs => ?_
  obtain ⟨s₁, hs₁, howned₁⟩ := howned.step ha
  rw [hs, Option.some_inj] at hs₁
  exact hs₁ ▸ howned₁

end PoolWorld

end ModPerl
