import ModPerl.Apr.PoolObject
import Mathlib.Data.List.Chain

/-!
# The parents of `APR::Pool` objects

The magic of an object refers to the object of its parent, so that the parent's object
does not go out of scope first: the destruction of the parent would take the pool of
the child with it.  Only `clear` drops this reference for good, as the cleanup that it
runs takes the magic away, and the object gets a new one without it; and a pool that is
made with an object that does not own its own has no such reference.

Without these two, each pool below that of an object is the pool of an object that
refers to it, all the way down (`Linked`).  So what goes out of scope takes no pool
from any other object.
-/

namespace ModPerl

open Machine

namespace PoolWorld

/-- The object has this pool, and this reference in its magic. -/
def Owns (s : PoolWorld) (sv addr : Nat) (link : Option Nat) : Prop :=
  ∃ refcnt, s.sv? sv = some ⟨addr, some link, refcnt⟩

/-- If the pool above has an object, the one below has an object that refers to it. -/
def Refers (s : PoolWorld) (below above : Nat) : Prop :=
  ∀ psv plink, s.Owns psv above plink → ∃ sv, s.Owns sv below (some psv)

/-- The objects of pools refer to those of the pools above them. -/
def Linked (s : PoolWorld) : Prop :=
  ∀ addr path, s.pools.above AprPool.addr addr = some path →
    (addr :: path).IsChain s.Refers

/-- Neither is a pool cleared nor one made with an object that does not own its own. -/
def LegalLinked (s : PoolWorld) (a : Act) : Prop :=
  s.Legal a ∧
    match a with
    | .clear _ => False
    | .clearUnowned _ => False
    | .createUnder parent _ => s.ServerPool parent
    | _ => True

variable {s s' s'' : PoolWorld} {hand : List Nat} {sv sv' addr parent : Nat} {link : Option Nat}
  {body : PoolSv} {a : Act}

theorem Owns.magic (h : s.Owns sv addr link) :
    ∃ body, s.sv? sv = some body ∧ body.iv = addr ∧ body.magic.isSome = true := by
  obtain ⟨n, hn⟩ := h
  exact ⟨_, hn, rfl, rfl⟩

/-- An object has its pool by a cleanup that is registered there. -/
theorem Owned.exists_pool_of_owns (h : Owned s [] hand) (ho : s.Owns sv addr link) :
    ∃ d, s.pools.detach AprPool.addr addr = some d ∧ .account sv ∈ d.label.cleanups := by
  obtain ⟨body, hbody, rfl, hmagic⟩ := ho.magic
  exact h.exists_pool hbody hmagic

theorem Owned.owns_unique (h : Owned s [] hand) {link' : Option Nat} (ho : s.Owns sv addr link)
    (ho' : s.Owns sv' addr link') : sv = sv' := by
  obtain ⟨d, hd, hsv⟩ := h.exists_pool_of_owns ho
  obtain ⟨d', hd', hsv'⟩ := h.exists_pool_of_owns ho'
  obtain rfl : d = d' := Option.some.inj (hd.symm.trans hd')
  exact h.single d.label (detach_label_mem hd) sv sv' hsv hsv'

/-! ## Steps that take pools away -/

/-- Pools went away with the objects' hold on them, and nothing else changed. -/
structure Shrinks (s s' : PoolWorld) : Prop where
  above : ∀ addr path, s'.pools.above AprPool.addr addr = some path →
    s.pools.above AprPool.addr addr = some path
  owns : ∀ sv addr link, s'.Owns sv addr link → s.Owns sv addr link
  kept : ∀ sv addr link, addr ∈ s'.addrs → s.Owns sv addr link → s'.Owns sv addr link

theorem Shrinks.refl (s : PoolWorld) : Shrinks s s :=
  ⟨fun _ _ => id, fun _ _ _ => id, fun _ _ _ _ => id⟩

theorem Linked.shrinks (h : s.Linked) (hs : Shrinks s s') : s'.Linked := by
  intro addr path hpath
  have hmem : ∀ b ∈ addr :: path, b ∈ s'.addrs := by
    intro b hb
    rcases List.mem_cons.mp hb with rfl | hb
    · by_contra hnot
      rw [Forest.above_eq_none.mpr hnot] at hpath
      cases hpath
    · exact Forest.mem_keys_of_above hpath hb
  refine (h addr path (hs.above addr path hpath)).imp_of_mem_imp fun b k hb hk hrefers => ?_
  intro psv plink howns
  obtain ⟨sv, hsv⟩ := hrefers psv plink (hs.owns psv k plink howns)
  exact ⟨sv, hs.kept sv b (some psv) (hmem b hb) hsv⟩

theorem Owned.aprPoolDestroy_shrinks (h : Owned s [] hand) (hs : s.aprPoolDestroy addr = some s')
    (haddr : addr ∈ s.addrs) : Shrinks s s' := by
  obtain ⟨d, s₁, hd, hs₁, -, hran⟩ := h.aprPoolDestroy haddr
  obtain rfl : s₁ = s' := Option.some.inj (hs₁.symm.trans hs)
  have hpools : s₁.pools = d.rest := hran.pools
  have hkeys := (Forest.detach_keys hd).nodup_iff.mp h.nodup
  refine ⟨fun b path hpath => ?_, fun sv k link howns => ?_, fun sv k link hk howns => ?_⟩
  · rw [hpools] at hpath
    have hb : b ∈ d.rest.keys AprPool.addr := by
      by_contra hnot
      rw [Forest.above_eq_none.mpr hnot] at hpath
      cases hpath
    exact (Forest.above_rest h.nodup hd hb).symm.trans hpath
  · by_cases hsv : .account sv ∈ cleanupsOf d
    · obtain ⟨body, hbody, hnone, -⟩ := hran.lost sv hsv
      obtain ⟨n, hn⟩ := howns
      rw [hbody, Option.some_inj] at hn
      rw [hn] at hnone
      cases hnone
    · obtain ⟨n, hn⟩ := howns
      exact ⟨n, (hran.other sv hsv).symm.trans hn⟩
  · have hsv : .account sv ∉ cleanupsOf d := by
      intro hmem
      obtain ⟨p, hp, hsv⟩ := List.mem_flatMap.mp hmem
      obtain ⟨body, hbody, haddr⟩ := h.account p
        ((Forest.detach_perm hd).mem_iff.mpr (List.mem_append_left _ hp)) sv hsv
      obtain ⟨n, hn⟩ := howns
      obtain rfl : body = _ := Option.some.inj (hbody.symm.trans hn)
      rw [addrs, hpools] at hk
      refine (List.nodup_append.mp hkeys).2.2 k ?_ k hk rfl
      rw [← Forest.detach_key hd]
      have hmap := List.mem_map_of_mem (f := AprPool.addr) hp
      simpa [Forest.keys, ← haddr] using hmap
    obtain ⟨n, hn⟩ := howns
    exact ⟨n, (hran.other sv hsv).trans hn⟩

theorem Owned.poolDestroy_shrinks (h : Owned s [] hand) (hs : s.poolDestroy sv = some s')
    (hbody : s.sv? sv = some body) : Shrinks s s' := by
  rw [PoolWorld.poolDestroy, hbody, Option.bind_some] at hs
  split_ifs at hs with hmagic
  · obtain ⟨d, hd, -⟩ := h.exists_pool hbody hmagic
    exact h.aprPoolDestroy_shrinks hs (mem_addrs_of_detach hd)
  · obtain rfl := Option.some.inj hs
    exact .refl s

/-- The count of a body is none of what the object owns. -/
theorem shrinks_setRefcnt (hbody : s.sv? sv = some body) (refcnt : Nat) (refs : List Nat) :
    Shrinks s { s with svs := s.svs.set sv (some { body with refcnt }), refs } := by
  have hlt := Arena.lt_length hbody
  have hiff : ∀ sv' addr link,
      Owns { s with svs := s.svs.set sv (some { body with refcnt }), refs } sv' addr link ↔
        s.Owns sv' addr link := by
    intro sv' addr link
    unfold Owns
    rw [sv?, Arena.get?_set hlt]
    split_ifs with heq
    · subst heq
      rw [hbody]
      obtain ⟨iv, magic, n⟩ := body
      simp
    · exact Iff.rfl
  exact ⟨fun _ _ => id, fun sv addr link => (hiff sv addr link).mp,
    fun sv addr link _ => (hiff sv addr link).mpr⟩

/-- A body without magic owns nothing. -/
theorem shrinks_free (hbody : s.sv? sv = some body) (hnone : body.magic = none) :
    Shrinks s { s with svs := s.svs.set sv none } := by
  have hlt := Arena.lt_length hbody
  have hiff : ∀ sv' addr link, Owns { s with svs := s.svs.set sv none } sv' addr link ↔
      s.Owns sv' addr link := by
    intro sv' addr link
    unfold Owns
    rw [sv?, Arena.get?_set hlt]
    split_ifs with heq
    · subst heq
      rw [hbody]
      obtain ⟨iv, magic, n⟩ := body
      simp only at hnone
      simp [hnone]
    · exact Iff.rfl
  exact ⟨fun _ _ => id, fun sv addr link => (hiff sv addr link).mp,
    fun sv addr link _ => (hiff sv addr link).mpr⟩

theorem Shrinks.trans (h : Shrinks s s') (h' : Shrinks s' s'') : Shrinks s s'' where
  above addr path hpath := h.above addr path (h'.above addr path hpath)
  owns sv addr link howns := h.owns sv addr link (h'.owns sv addr link howns)
  kept sv addr link haddr howns := by
    have hmem : addr ∈ s'.addrs := by
      obtain ⟨path, hpath⟩ := Forest.exists_above haddr
      by_contra hnot
      have hnone := h'.above addr path hpath
      rw [Forest.above_eq_none.mpr hnot] at hnone
      cases hnone
    exact h'.kept sv addr link haddr (h.kept sv addr link hmem howns)

/-- A reference that is given back. -/
theorem Owned.refcntDec_shrinks (h : Owned s [] (sv :: hand)) (hs : s.refcntDec sv = some s') :
    Shrinks s s' := by
  cases hbody : s.sv? sv with
  | none =>
      rw [PoolWorld.refcntDec, hbody] at hs
      cases hs
  | some body =>
      rw [PoolWorld.refcntDec, hbody, Option.bind_some] at hs
      split_ifs at hs
      · obtain ⟨s₁, body₁, hdestroy, -, -, hbody₁, hnone, -⟩ := h.poolDestroy hbody
        rw [hdestroy, Option.bind_some, hbody₁, Option.bind_some, hnone] at hs
        obtain rfl := Option.some.inj hs
        exact (h.poolDestroy_shrinks hdestroy hbody).trans (shrinks_free hbody₁ hnone)
      · obtain rfl := Option.some.inj hs
        exact shrinks_setRefcnt hbody (body.refcnt - 1) s.refs

/-! ## What goes out of scope -/

theorem exists_isChain_of_mem {α : Type} {R : α → α → Prop} {x y : α} {l : List α}
    (h : (x :: l).IsChain R) (hy : y ∈ l) : ∃ z, R z y := by
  induction l generalizing x with
  | nil => cases hy
  | cons w l ih =>
      rw [List.isChain_cons_cons] at h
      rcases List.mem_cons.mp hy with rfl | hy
      · exact ⟨x, h.1⟩
      · exact ih h.2 hy

/-- A reference in a magic is counted beside the one at hand. -/
theorem Owned.one_lt_refcnt (h : Owned s [] (sv :: hand)) (hbody : s.sv? sv = some body)
    (hlink : s.Owns sv' addr (some sv)) : 1 < body.refcnt := by
  obtain ⟨n, hn⟩ := hlink
  have hmem : sv ∈ s.svs.refs linkOf := Arena.mem_refs.mpr ⟨sv', _, hn, rfl⟩
  have hcount := List.count_pos_iff.mpr hmem
  rw [(h.refcnt sv body hbody).1]
  simp only [holders, List.count_append, List.count_cons_self]
  omega

/-- What goes out of scope takes no pool from another object. -/
theorem Owned.refcntDec_keeps (h : Owned s [] (sv :: hand)) (hlinked : s.Linked)
    (hs : s.refcntDec sv = some s') (hne : sv' ≠ sv) (howns : s.Owns sv' addr link) :
    s'.Owns sv' addr link := by
  have haddr : addr ∈ s.addrs := by
    obtain ⟨d, hd, -⟩ := h.exists_pool_of_owns howns
    exact mem_addrs_of_detach hd
  refine (h.refcntDec_shrinks hs).kept sv' addr link ?_ howns
  cases hbody : s.sv? sv with
  | none =>
      rw [PoolWorld.refcntDec, hbody] at hs
      cases hs
  | some body =>
      rw [PoolWorld.refcntDec, hbody, Option.bind_some] at hs
      split_ifs at hs with hone
      · obtain ⟨s₁, body₁, hdestroy, -, -, hbody₁, hnone, -⟩ := h.poolDestroy hbody
        rw [hdestroy, Option.bind_some, hbody₁, Option.bind_some, hnone] at hs
        obtain rfl := Option.some.inj hs
        rw [PoolWorld.poolDestroy, hbody, Option.bind_some] at hdestroy
        split_ifs at hdestroy with hmagic
        · obtain ⟨d, hd, hsv⟩ := h.exists_pool hbody hmagic
          obtain ⟨d', s₂, hd', hs₂, -, hran⟩ := h.aprPoolDestroy (mem_addrs_of_detach hd)
          obtain rfl : d = d' := Option.some.inj (hd.symm.trans hd')
          obtain rfl : s₁ = s₂ := Option.some.inj (hdestroy.symm.trans hs₂)
          have hself : ∃ plink, s.Owns sv body.iv plink := by
            obtain ⟨plink, hplink⟩ := Option.isSome_iff_exists.mp hmagic
            exact ⟨plink, body.refcnt, by rw [hbody, ← hplink]⟩
          obtain ⟨plink, hself⟩ := hself
          have hpools : s₁.pools = d.rest := hran.pools
          change addr ∈ s₁.addrs
          rw [addrs, hpools]
          rcases List.mem_append.mp ((Forest.detach_keys hd).mem_iff.mp haddr) with hbelow | hrest
          · exfalso
            rcases List.mem_append.mp hbelow with hbelow | hroot
            · -- the object of the pool next below refers to the one that goes
              obtain ⟨path, hpath, hmem⟩ := Forest.above_of_mem_below h.nodup hd hbelow
              obtain ⟨b, hrefers⟩ := exists_isChain_of_mem (hlinked addr path hpath) hmem
              obtain ⟨sv₁, hlink⟩ := hrefers sv plink hself
              have hcount := h.one_lt_refcnt hbody hlink
              omega
            · rw [List.mem_singleton] at hroot
              subst hroot
              exact hne (h.owns_unique howns hself)
          · exact hrest
        · obtain rfl := Option.some.inj hdestroy
          exact haddr
      · obtain rfl := Option.some.inj hs
        exact haddr

/-! ## Steps that put pools in -/

/-- A new pool keeps the objects linked if it is one more leaf that refers to the pool
above, and nothing else changed. -/
theorem Linked.grow (h : s.Linked) (hfresh : addr ∉ s.addrs)
    (habove : ∀ b, b ≠ addr → s'.pools.above AprPool.addr b = s.pools.above AprPool.addr b)
    (hnew : s'.pools.above AprPool.addr addr = some [] ∨ ∃ k path,
      s'.pools.above AprPool.addr addr = some (k :: path) ∧
        s.pools.above AprPool.addr k = some path ∧ s'.Refers addr k)
    (howns : ∀ sv b link, b ≠ addr → (s'.Owns sv b link ↔ s.Owns sv b link)) : s'.Linked := by
  have hold : ∀ b path, s.pools.above AprPool.addr b = some path →
      (b :: path).IsChain s'.Refers := by
    intro b path hpath
    have hmem : ∀ c ∈ b :: path, c ≠ addr := by
      rintro c hc rfl
      rcases List.mem_cons.mp hc with rfl | hc
      · rw [Forest.above_eq_none.mpr hfresh] at hpath
        cases hpath
      · exact hfresh (Forest.mem_keys_of_above hpath hc)
    refine (h b path hpath).imp_of_mem_imp fun c k hc hk hrefers psv plink ho => ?_
    obtain ⟨sv, hsv⟩ := hrefers psv plink ((howns psv k plink (hmem k hk)).mp ho)
    exact ⟨sv, (howns sv c (some psv) (hmem c hc)).mpr hsv⟩
  intro b path hpath
  by_cases hb : b = addr
  · subst hb
    rcases hnew with hnew | ⟨k, path₀, hnew, hk, hrefers⟩
    · rw [hnew, Option.some_inj] at hpath
      rw [← hpath]
      exact List.isChain_singleton b
    · rw [hnew, Option.some_inj] at hpath
      rw [← hpath, List.isChain_cons_cons]
      exact ⟨hrefers, hold k path₀ hk⟩
  · rw [habove b hb] at hpath
    exact hold b path hpath

/-- Where a new pool is put. -/
theorem aprPoolCreate_above (hs : s.aprPoolCreate parent addr = some s') (hfresh : s.Fresh addr) :
    (∀ b, b ≠ addr → s'.pools.above AprPool.addr b = s.pools.above AprPool.addr b) ∧
      (parent = 0 ∧ s'.pools.above AprPool.addr addr = some [] ∨
        parent ∈ s.addrs ∧ ∃ path, s'.pools.above AprPool.addr addr = some (parent :: path) ∧
          s.pools.above AprPool.addr parent = some path) := by
  have hleaf : ∀ b, b ≠ addr → ∀ child : Forest AprPool,
      (Forest.node ⟨addr, []⟩ .nil child).above AprPool.addr b = child.above AprPool.addr b :=
    fun b hb child => Forest.above_node_sibling (Ne.symm hb) List.not_mem_nil
  rw [aprPoolCreate] at hs
  split_ifs at hs with hzero hmem
  · obtain rfl := Option.some.inj hs
    exact ⟨fun b hb => hleaf b hb _, .inl ⟨hzero, Forest.above_node_self rfl⟩⟩
  · obtain rfl := Option.some.inj hs
    obtain ⟨path, hpath⟩ := Forest.exists_above hmem
    refine ⟨fun b hb => Forest.above_modify id _ (fun _ => rfl) (hleaf b hb),
      .inr ⟨hmem, path, ?_, hpath⟩⟩
    exact Forest.above_modify_leaf ⟨addr, []⟩ hfresh.2 hpath

theorem above_cleanupRegister (s : PoolWorld) (k b : Nat) (c : PoolCleanup) :
    (s.aprPoolCleanupRegister k c).pools.above AprPool.addr b = s.pools.above AprPool.addr b :=
  Forest.above_modify _ id (fun _ => rfl) fun _ => rfl

/-- Where the pool of a new object is put. -/
theorem poolCreate_above (hs : s.poolCreate parent addr = some s') (hfresh : s.Fresh addr) :
    (∀ b, b ≠ addr → s'.pools.above AprPool.addr b = s.pools.above AprPool.addr b) ∧
      (parent = 0 ∧ s'.pools.above AprPool.addr addr = some [] ∨
        parent ∈ s.addrs ∧ ∃ path, s'.pools.above AprPool.addr addr = some (parent :: path) ∧
          s.pools.above AprPool.addr parent = some path) := by
  obtain ⟨s₁, hs₁, htakes⟩ := Option.bind_eq_some_iff.mp hs
  obtain ⟨body, -, rfl⟩ := Option.map_eq_some_iff.mp htakes
  have hsame := fun b => above_cleanupRegister
    { s₁ with svs := s₁.svs ++ [some ⟨addr, none, 1⟩], refs := s₁.svs.length :: s₁.refs } addr b
    (.account s₁.svs.length)
  have hcreate := aprPoolCreate_above hs₁ hfresh
  refine ⟨fun b hb => (hsame b).trans (hcreate.1 b hb), ?_⟩
  rcases hcreate.2 with ⟨hzero, habove⟩ | ⟨hmem, path, habove, hparent⟩
  · exact .inl ⟨hzero, (hsame addr).trans habove⟩
  · exact .inr ⟨hmem, path, (hsame addr).trans habove, hparent⟩

/-- A new object has its pool, without a reference, and the others have theirs. -/
theorem Owned.poolCreate_owns (h : Owned s [] hand) (hparent : parent = 0 ∨ parent ∈ s.addrs)
    (hfresh : s.Fresh addr) :
    ∃ s', s.poolCreate parent addr = some s' ∧ Owned s' [] hand ∧
      s'.sv? s.svs.length = some ⟨addr, some none, 1⟩ ∧
      (∀ sv', sv' ≠ s.svs.length → s'.sv? sv' = s.sv? sv') ∧
      ∀ sv b link, b ≠ addr → (s'.Owns sv b link ↔ s.Owns sv b link) := by
  obtain ⟨s', hs', howned, -, hnew, hother⟩ := h.poolCreate hparent hfresh
  refine ⟨s', hs', howned, hnew, hother, fun sv b link hb => ?_⟩
  unfold Owns
  by_cases heq : sv = s.svs.length
  · have hnone : s.sv? s.svs.length = none := by simp [sv?]
    rw [heq, hnew, hnone]
    simp [Ne.symm hb]
  · rw [hother sv heq]

/-- Nothing owns a pool of the server. -/
theorem Owned.not_owns_server (h : Owned s [] hand) (hserver : s.ServerPool addr) :
    ¬s.Owns sv addr link := by
  intro howns
  obtain ⟨d, hd, hsv⟩ := h.exists_pool_of_owns howns
  have hperl := hserver.2 d.label (detach_label_mem hd) (Forest.detach_key hd) _ hsv
  cases hperl

/-- A pool put in at the top, or below one that nothing owns. -/
theorem Linked.create (h : s.Linked) (hfresh : s.Fresh addr) (hcreate :
      (∀ b, b ≠ addr → s'.pools.above AprPool.addr b = s.pools.above AprPool.addr b) ∧
        (parent = 0 ∧ s'.pools.above AprPool.addr addr = some [] ∨
          parent ∈ s.addrs ∧ ∃ path, s'.pools.above AprPool.addr addr = some (parent :: path) ∧
            s.pools.above AprPool.addr parent = some path))
    (howns : ∀ sv b link, b ≠ addr → (s'.Owns sv b link ↔ s.Owns sv b link))
    (hrefers : parent ∈ s.addrs → s'.Refers addr parent) : s'.Linked := by
  refine h.grow hfresh.2 hcreate.1 ?_ howns
  rcases hcreate.2 with ⟨-, habove⟩ | ⟨hmem, path, habove, hparent⟩
  · exact .inl habove
  · exact .inr ⟨parent, path, habove, hparent, hrefers hmem⟩

instance : DecidableRel LegalLinked
  | s, .create addr => decidable_of_iff (s.Fresh addr) (and_iff_left trivial).symm
  | s, .createFrom sv addr =>
      decidable_of_iff (sv ∈ s.refs ∧ s.Fresh addr) (and_iff_left trivial).symm
  | s, .createUnder parent addr => inferInstanceAs (Decidable
      (s.Legal (.createUnder parent addr) ∧ s.ServerPool parent))
  | s, .hold sv => decidable_of_iff (sv ∈ s.refs) (and_iff_left trivial).symm
  | s, .release sv => decidable_of_iff (sv ∈ s.refs) (and_iff_left trivial).symm
  | s, .destroy sv => decidable_of_iff (sv ∈ s.refs) (and_iff_left trivial).symm
  | _, .clear _ => isFalse And.right
  | _, .clearUnowned _ => isFalse And.right
  | s, .cleanupRegister addr => decidable_of_iff (addr ∈ s.addrs) (and_iff_left trivial).symm
  | s, .serverCreate parent addr =>
      decidable_of_iff (s.Legal (.serverCreate parent addr)) (and_iff_left trivial).symm
  | s, .serverDestroy addr => decidable_of_iff (s.ServerPool addr) (and_iff_left trivial).symm
  | _, .freeTmps => isTrue ⟨trivial, trivial⟩

/-- What a child's object that refers to its parent's owns, and what the others do. -/
theorem addPoolMagic_owns {pool : Nat} {parentBody : PoolSv} {n : Nat}
    (hs : s.addPoolMagic sv pool = some s') (hbody : s.sv? sv = some ⟨addr, some none, n⟩)
    (hparent : s.sv? pool = some parentBody) (hcustom : parentBody.magic.isSome = true)
    (hne : sv ≠ pool) :
    s'.pools = s.pools ∧ s'.Owns sv addr (some pool) ∧
      ∀ sv' b link, b ≠ addr → (s'.Owns sv' b link ↔ s.Owns sv' b link) := by
  rw [addPoolMagic, hparent, Option.bind_some, if_pos hcustom, hbody, Option.map_some] at hs
  obtain rfl := Option.some.inj hs
  have hlt := Arena.lt_length hbody
  have hlt' : pool < (s.svs.set sv (some ⟨addr, some (some pool), n⟩)).length := by
    rw [List.length_set]
    exact Arena.lt_length hparent
  refine ⟨rfl, ⟨n, ?_⟩, fun sv' b link hb => ?_⟩
  · rw [sv?, Arena.get?_set hlt', if_neg (Ne.symm hne), Arena.get?_set hlt, if_pos rfl]
  · unfold Owns
    rw [sv?, Arena.get?_set hlt', Arena.get?_set hlt]
    split_ifs with hpool hself
    · subst hpool
      rw [hparent]
      obtain ⟨iv, magic, m⟩ := parentBody
      simp
    · subst hself
      rw [hbody]
      simp [Ne.symm hb]
    · exact Iff.rfl

theorem Owned.poolCreateFrom_owns (h : Owned s [] []) (hlinked : s.Linked) (hsv : sv ∈ s.refs)
    (hfresh : s.Fresh addr) (hs : s.poolCreateFrom sv addr = some s') :
    s'.Linked ∧ ∀ sv' b link, b ≠ addr → (s'.Owns sv' b link ↔ s.Owns sv' b link) := by
  obtain ⟨parent, hparent⟩ := h.mem_refs hsv
  have hne : s.svs.length ≠ sv := (Arena.lt_length hparent).ne'
  cases hmagic : parent.magic with
  | none =>
      have hiv := h.inert sv parent hparent hmagic
      obtain ⟨s₁, hs₁, -, -, -, howns⟩ := h.poolCreate_owns (.inl rfl) hfresh
      rw [poolCreateFrom, hparent, Option.bind_some, hiv, hs₁, Option.bind_some,
        if_neg (not_not.mpr rfl)] at hs
      obtain rfl := Option.some.inj hs
      refine ⟨hlinked.create hfresh (poolCreate_above hs₁ hfresh) howns fun hmem => ?_, howns⟩
      exact absurd hmem h.notNull
  | some plink =>
      have hcustom : parent.magic.isSome = true := by rw [hmagic]; rfl
      obtain ⟨d, hd, -⟩ := h.exists_pool hparent hcustom
      have hmem := mem_addrs_of_detach hd
      have hiv : parent.iv ≠ 0 := fun hzero => h.notNull (hzero ▸ hmem)
      obtain ⟨s₁, hs₁, -, hnew, hother, howns⟩ := h.poolCreate_owns (.inr hmem) hfresh
      have hparent₁ : s₁.sv? sv = some parent := (hother sv (Ne.symm hne)).trans hparent
      rw [poolCreateFrom, hparent, Option.bind_some, hs₁, Option.bind_some, if_pos hiv] at hs
      obtain ⟨hpools, hlink, howns'⟩ := addPoolMagic_owns hs hnew hparent₁ hcustom hne
      have hboth : ∀ sv' b link, b ≠ addr → (s'.Owns sv' b link ↔ s.Owns sv' b link) :=
        fun sv' b link hb => (howns' sv' b link hb).trans (howns sv' b link hb)
      have hcreate := poolCreate_above hs₁ hfresh
      rw [← hpools] at hcreate
      refine ⟨hlinked.create hfresh hcreate hboth fun _ psv plink' ho => ?_, hboth⟩
      -- the object of the parent is the one that the child was made with
      have hp : parent.iv ≠ addr := fun heq => hfresh.2 (heq ▸ hmem)
      have hself : s.Owns sv parent.iv plink := ⟨parent.refcnt, by rw [hparent, ← hmagic]⟩
      obtain rfl : psv = sv := h.owns_unique ((hboth psv parent.iv plink' hp).mp ho) hself
      exact ⟨_, hlink⟩

theorem mem_addrs_of_owns (h : Owned s [] hand) (howns : s.Owns sv addr link) : addr ∈ s.addrs := by
  obtain ⟨d, hd, -⟩ := h.exists_pool_of_owns howns
  exact mem_addrs_of_detach hd

/-- An object that is still referred to after a reference was given back has its pool. -/
theorem Owned.refcntDec_keeps_self (h : Owned s [] (sv :: hand)) (hs : s.refcntDec sv = some s')
    (hsv : sv ∈ s'.refs) (howns : s.Owns sv addr link) : s'.Owns sv addr link := by
  obtain ⟨s₁, hs₁, howned⟩ := h.refcntDec
  obtain rfl : s' = s₁ := Option.some.inj (hs.symm.trans hs₁)
  obtain ⟨body, hbody, -⟩ := howns.magic
  rw [PoolWorld.refcntDec, hbody, Option.bind_some] at hs
  split_ifs at hs
  · obtain ⟨s₂, body₂, hdestroy, -, -, hbody₂, hnone, -⟩ := h.poolDestroy hbody
    rw [hdestroy, Option.bind_some, hbody₂, Option.bind_some, hnone] at hs
    obtain rfl := Option.some.inj hs
    obtain ⟨body₁, hbody₁⟩ := howned.mem_refs hsv
    rw [sv?, Arena.get?_set (Arena.lt_length hbody₂), if_pos rfl] at hbody₁
    cases hbody₁
  · obtain rfl := Option.some.inj hs
    have haddr : addr ∈ s.addrs := mem_addrs_of_owns h howns
    exact (shrinks_setRefcnt hbody (body.refcnt - 1) s.refs).kept sv addr link haddr howns

theorem Owned.refcntDec_linked (h : Owned s [] (sv :: hand)) (hlinked : s.Linked)
    (hs : s.refcntDec sv = some s') :
    s'.Linked ∧ ∀ sv' addr link, sv' ∈ s'.refs → s.Owns sv' addr link → s'.Owns sv' addr link := by
  refine ⟨hlinked.shrinks (h.refcntDec_shrinks hs), fun sv' addr link hsv' howns => ?_⟩
  by_cases heq : sv' = sv
  · subst heq
    exact h.refcntDec_keeps_self hs hsv' howns
  · exact h.refcntDec_keeps hlinked hs heq howns

/-- What a legal step without `clear` does to the objects: they stay linked, and unless it
destroys a pool, those that Perl code holds on to keep theirs. -/
theorem Owned.step_linked (h : Owned s [] []) (hlinked : s.Linked) (ha : s.LegalLinked a)
    (hs : s.step a = some s') :
    s'.Linked ∧ ((∀ sv, a ≠ .destroy sv) → (∀ addr, a ≠ .serverDestroy addr) →
      ∀ sv addr link, sv ∈ s'.refs → s.Owns sv addr link → s'.Owns sv addr link) := by
  have hkeep : ∀ {addr : Nat}, s.Fresh addr →
      (∀ sv b link, b ≠ addr → (s'.Owns sv b link ↔ s.Owns sv b link)) →
      ∀ sv b link, s.Owns sv b link → s'.Owns sv b link := by
    intro addr hfresh howns sv b link ho
    refine (howns sv b link ?_).mpr ho
    rintro rfl
    exact hfresh.2 (mem_addrs_of_owns h ho)
  cases a with
  | create addr =>
      obtain ⟨s₁, hs₁, -, -, -, howns⟩ := h.poolCreate_owns (.inl rfl) ha.1
      obtain rfl : s' = s₁ := Option.some.inj (hs.symm.trans hs₁)
      exact ⟨hlinked.create ha.1 (poolCreate_above hs₁ ha.1) howns
        fun hmem => absurd hmem h.notNull, fun _ _ sv b link _ => hkeep ha.1 howns sv b link⟩
  | createFrom sv addr =>
      obtain ⟨hlinked', howns⟩ := h.poolCreateFrom_owns hlinked ha.1.1 ha.1.2 hs
      exact ⟨hlinked', fun _ _ sv b link _ => hkeep ha.1.2 howns sv b link⟩
  | createUnder parent addr =>
      obtain ⟨s₁, hs₁, -, -, -, howns⟩ := h.poolCreate_owns (.inr ha.1.1) ha.1.2
      obtain rfl : s' = s₁ := Option.some.inj (hs.symm.trans hs₁)
      refine ⟨hlinked.create ha.1.2 (poolCreate_above hs₁ ha.1.2) howns fun hmem psv plink ho => ?_,
        fun _ _ sv b link _ => hkeep ha.1.2 howns sv b link⟩
      have hne : parent ≠ addr := fun heq => ha.1.2.2 (heq ▸ hmem)
      exact absurd ((howns psv parent plink hne).mp ho) (h.not_owns_server ha.2)
  | hold sv =>
      obtain ⟨body, hbody⟩ := h.mem_refs ha.1
      rw [PoolWorld.step, PoolWorld.refcntInc, hbody] at hs
      obtain rfl := Option.some.inj hs
      have hshrinks := shrinks_setRefcnt hbody (body.refcnt + 1) (sv :: s.refs)
      refine ⟨hlinked.shrinks hshrinks, fun _ _ sv b link _ ho => ?_⟩
      have haddr : b ∈ s.addrs := mem_addrs_of_owns h ho
      exact hshrinks.kept sv b link haddr ho
  | release sv =>
      obtain ⟨hlinked', hkept⟩ := (h.take ha.1).refcntDec_linked hlinked hs
      exact ⟨hlinked', fun _ _ => hkept⟩
  | destroy sv =>
      obtain ⟨body, hbody⟩ := h.mem_refs ha.1
      exact ⟨hlinked.shrinks (h.poolDestroy_shrinks hs hbody), fun hne => absurd rfl (hne sv)⟩
  | clear sv => exact ha.2.elim
  | clearUnowned addr => exact ha.2.elim
  | cleanupRegister addr =>
      rw [PoolWorld.step, PoolWorld.poolCleanupRegister,
        if_pos (show addr ∈ s.addrs from ha.1)] at hs
      obtain rfl := Option.some.inj hs
      have habove := fun b => above_cleanupRegister s addr b (.perl s.registered)
      exact ⟨fun b path hpath => hlinked b path ((habove b).symm.trans hpath),
        fun _ _ _ _ _ _ => id⟩
  | serverCreate parent addr =>
      have hcreate := aprPoolCreate_above hs ha.1.2
      obtain ⟨f, hs₁, -, -⟩ := h.aprPoolCreate (ha.1.1.imp_right And.left) ha.1.2
      obtain rfl := Option.some.inj (hs.symm.trans hs₁)
      refine ⟨hlinked.create ha.1.2 hcreate (fun _ _ _ _ => Iff.rfl) fun hmem psv plink ho => ?_,
        fun _ _ _ _ _ _ => id⟩
      rcases ha.1.1 with rfl | hserver
      · exact absurd hmem h.notNull
      · exact absurd ho (h.not_owns_server hserver)
  | serverDestroy addr =>
      exact ⟨hlinked.shrinks (h.aprPoolDestroy_shrinks hs ha.1.1),
        fun _ hne => absurd rfl (hne addr)⟩
  | freeTmps =>
      rw [PoolWorld.step] at hs
      cases hmortals : s.mortals with
      | nil =>
          rw [hmortals] at hs
          obtain rfl := Option.some.inj hs
          exact ⟨hlinked, fun _ _ _ _ _ _ => id⟩
      | cons sv mortals =>
          rw [hmortals] at hs
          obtain ⟨hlinked', hkept⟩ := (h.takeMortal hmortals).refcntDec_linked hlinked hs
          exact ⟨hlinked', fun _ _ => hkept⟩

theorem linked_of_reachable (h : Reachable PoolWorld.step LegalLinked PoolWorld.init s) :
    Owned s [] [] ∧ s.Linked := by
  refine h.invariant (I := fun s => Owned s [] [] ∧ s.Linked) ⟨.init, ?_⟩
    fun s a s' _ hinv ha hs => ?_
  · intro addr path hpath
    cases hpath
  · obtain ⟨s₁, hs₁, howned⟩ := hinv.1.step ha.1
    rw [hs, Option.some_inj] at hs₁
    exact ⟨hs₁ ▸ howned, (hinv.1.step_linked hinv.2 ha hs).1⟩

end PoolWorld

end ModPerl
