import ModPerl.Tipool.ItemPool

/-!
# The code computes the item pool

`Repr t p` says that the memory of the pool `t` represents the item pool `p`:
its two lists are well formed and hold exactly the cells of `p`, in order, each
with its item, and its counters are the lengths of the lists.  An item of `p` is
a pair of a list cell and the item it carries.

Each function of `modperl_tipool.c` succeeds on a represented pool, and its
result represents what the operation of `ItemPool` of that name computes.
-/

namespace ModPerl

open DoublyLinked

variable {Item : Type}

/-- The pool in memory represents the item pool `p`. -/
structure Repr (t : Tipool Item) (p : ItemPool (Addr × Item)) : Prop where
  /-- The idle list is well formed: linked both ways, without predecessor of its head, acyclic. -/
  idle : IsList t.cell t.idle (p.idle.map Prod.fst)
  /-- So is the busy list. -/
  busy : IsList t.cell t.busy (p.busy.map Prod.fst)
  /-- Every cell carries its item. -/
  data : ∀ x ∈ p.all, (t.cell x.1).map Cell.data = some (some x.2)
  /-- No cell is on both lists, or twice on one. -/
  addrs : (p.all.map Prod.fst).Nodup
  /-- Neither is an item. -/
  datas : (p.all.map Prod.snd).Nodup
  /-- The items on the lists are the ones created and not yet destroyed. -/
  items : t.items.Perm (p.all.map Prod.snd)
  /-- Only cells of the lists are allocated. -/
  cells : t.cells = p.all.length
  size : t.size = p.all.length
  inUse : t.inUse = p.busy.length

/-- `malloc` returned memory that is not in use. -/
def Fresh (t : Tipool Item) (fresh : Addr × Item) : Prop :=
  t.cell fresh.1 = none ∧ fresh.2 ∉ t.items

namespace Repr

variable {t t' : Tipool Item} {p p' : ItemPool (Addr × Item)} {cfg : TipoolConfig} {n : ℤ}
  {x y fresh : Addr × Item} {rest : List (Addr × Item)}

theorem new : Repr (tipoolNew : Tipool Item) .empty where
  idle := isList_nil_iff.mpr rfl
  busy := isList_nil_iff.mpr rfl
  data := by simp [ItemPool.all, ItemPool.empty]
  addrs := by simp [ItemPool.all, ItemPool.empty]
  datas := by simp [ItemPool.all, ItemPool.empty]
  items := by simp [ItemPool.all, ItemPool.empty, tipoolNew]
  cells := rfl
  size := rfl
  inUse := rfl

/-- The cells of the lists are allocated. -/
theorem exists_cell (hr : Repr t p) (hx : x ∈ p.all) :
    ∃ c, t.cell x.1 = some c ∧ c.data = some x.2 := by
  simpa using hr.data x hx

theorem disjoint (hr : Repr t p) :
    (p.idle.map Prod.fst).Disjoint (p.busy.map Prod.fst) := by
  have haddrs := hr.addrs
  rw [ItemPool.all, List.map_append] at haddrs
  exact List.disjoint_of_nodup_append haddrs

/-- A cell is on a list together with one item only. -/
theorem eq_of_fst (hr : Repr t p) (hx : x ∈ p.all) (hy : y ∈ p.all) (heq : x.1 = y.1) : x = y :=
  List.inj_on_of_nodup_map hr.addrs hx hy heq

theorem eq_of_snd (hr : Repr t p) (hx : x ∈ p.all) (hy : y ∈ p.all) (heq : x.2 = y.2) : x = y :=
  List.inj_on_of_nodup_map hr.datas hx hy heq

/-- `mustWait` holds exactly when there is no idle item. -/
theorem mustWait_iff (hr : Repr t p) : mustWait t = true ↔ p.idle = [] := by
  simp [mustWait, hr.size, hr.inUse, ItemPool.all]

theorem fresh_fst (hr : Repr t p) (hfresh : Fresh t fresh) (hx : x ∈ p.all) : x.1 ≠ fresh.1 := by
  obtain ⟨c, hc, -⟩ := hr.exists_cell hx
  intro heq
  rw [heq, hfresh.1] at hc
  simp at hc

theorem fresh_snd (hr : Repr t p) (hfresh : Fresh t fresh) (hx : x ∈ p.all) : x.2 ≠ fresh.2 := by
  rintro heq
  exact hfresh.2 (heq ▸ hr.items.mem_iff.mpr (List.mem_map_of_mem hx))

/-- Moving items between the lists of a represented pool. -/
theorem of_perm (hr : Repr t p) (hperm : p'.all.Perm p.all)
    (hidle : IsList t'.cell t'.idle (p'.idle.map Prod.fst))
    (hbusy : IsList t'.cell t'.busy (p'.busy.map Prod.fst))
    (hdata : ∀ a, (t'.cell a).map Cell.data = (t.cell a).map Cell.data)
    (hitems : t'.items = t.items) (hcells : t'.cells = t.cells) (hsize : t'.size = t.size)
    (hinUse : t'.inUse = p'.busy.length) : Repr t' p' where
  idle := hidle
  busy := hbusy
  data x hx := by rw [hdata, hr.data x (hperm.mem_iff.mp hx)]
  addrs := (hperm.map Prod.fst).nodup_iff.mpr hr.addrs
  datas := (hperm.map Prod.snd).nodup_iff.mpr hr.datas
  items := by
    rw [hitems]
    exact hr.items.trans (hperm.map Prod.snd).symm
  cells := by rw [hcells, hr.cells, hperm.length_eq]
  size := by rw [hsize, hr.size, hperm.length_eq]
  inUse := hinUse

variable [DecidableEq Item]

/-! ## Growing -/

/-- An allocation that succeeds returned memory that was not in use. -/
theorem fresh_of_growAdd (h : tipoolGrowAdd t fresh = some t') : Fresh t fresh := by
  unfold tipoolGrowAdd at h
  split_ifs at h with hmem
  refine ⟨?_, hmem⟩
  by_contra hcell
  simp [tipoolAdd, listNew, Option.isSome_iff_ne_none.mpr hcell] at h

/-- A new item is appended to the idle list. -/
theorem growAdd (hr : Repr t p) (hfresh : Fresh t fresh) :
    ∃ t', tipoolGrowAdd t fresh = some t' ∧ Repr t' { p with idle := p.idle ++ [fresh] } ∧
      ∀ f, Fresh t f → f.1 ≠ fresh.1 → f.2 ≠ fresh.2 → Fresh t' f := by
  -- the heap with the new cell, before it is linked
  set h₁ : ListHeap Item := write (Function.update t.cell fresh.1 (some ⟨none, none, none⟩))
    fresh.1 (fun c => { c with data := some fresh.2 }) with hh₁
  have hnew : h₁ fresh.1 = some ⟨none, none, some fresh.2⟩ := by simp [hh₁]
  have hold : ∀ x ∈ p.all, h₁ x.1 = t.cell x.1 := by
    intro x hx
    have hne := hr.fresh_fst hfresh hx
    rw [hh₁, write_of_ne hne, Function.update_of_ne hne]
  have hidle₁ : IsList h₁ t.idle (p.idle.map Prod.fst) := by
    refine hr.idle.congr fun b hb => ?_
    obtain ⟨x, hx, rfl⟩ := List.mem_map.mp hb
    exact hold x (List.mem_append_left _ hx)
  have hbusy₁ : IsList h₁ t.busy (p.busy.map Prod.fst) := by
    refine hr.busy.congr fun b hb => ?_
    obtain ⟨x, hx, rfl⟩ := List.mem_map.mp hb
    exact hold x (List.mem_append_right _ hx)
  have hmem : ∀ x ∈ p.all, fresh.1 ≠ x.1 := fun x hx => (hr.fresh_fst hfresh hx).symm
  have hmemIdle : fresh.1 ∉ p.idle.map Prod.fst := by
    rw [List.mem_map]
    rintro ⟨x, hx, hxa⟩
    exact hmem x (List.mem_append_left _ hx) hxa.symm
  have hfuel : (p.idle.map Prod.fst).length ≤ t.cells + 1 := by
    simp only [List.length_map, hr.cells, ItemPool.all, List.length_append]
    omega
  obtain ⟨h₂, idle', heq, hlist, hrel⟩ := listAppend_spec hidle₁ hnew hmemIdle hfuel
  have hperm : (ItemPool.mk (p.idle ++ [fresh]) p.busy).all.Perm (fresh :: p.all) := by
    simp [ItemPool.all, List.perm_middle]
  refine ⟨{ t with
    cell := h₂, cells := t.cells + 1, items := fresh.2 :: t.items, idle := idle',
    size := t.size + 1 }, ?_, ?_, fun f hf hfst hsnd => ⟨?_, by simp [hsnd, hf.2]⟩⟩
  · simp only [tipoolGrowAdd, if_neg hfresh.2, tipoolAdd, listNew_eq hfresh.1, Option.bind_eq_bind,
      Option.bind_some, ← hh₁, heq]
  · constructor
    · simpa using hlist
    · refine hrel.isList hbusy₁ fun b hb hb' => ?_
      rcases List.mem_append.mp hb' with hb' | hb'
      · exact hr.disjoint hb' hb
      · obtain ⟨x, hx, rfl⟩ := List.mem_map.mp hb
        exact hmem x (List.mem_append_right _ hx) (List.mem_singleton.mp hb').symm
    · intro x hx
      rw [hrel.data]
      rcases List.mem_cons.mp (hperm.mem_iff.mp hx) with rfl | hx
      · rw [hnew]
        rfl
      · rw [hold x hx, hr.data x hx]
    · refine (hperm.map Prod.fst).nodup_iff.mpr (List.nodup_cons.mpr ⟨?_, hr.addrs⟩)
      rw [List.mem_map]
      rintro ⟨x, hx, hxa⟩
      exact hmem x hx hxa.symm
    · refine (hperm.map Prod.snd).nodup_iff.mpr (List.nodup_cons.mpr ⟨?_, hr.datas⟩)
      rw [List.mem_map]
      rintro ⟨x, hx, hxd⟩
      exact hr.fresh_snd hfresh hx hxd
    · exact (hr.items.cons fresh.2).trans (hperm.map Prod.snd).symm
    · rw [hperm.length_eq, List.length_cons, hr.cells]
    · rw [hperm.length_eq, List.length_cons]
      simp [hr.size]
    · exact hr.inUse
  · have hcell : (h₂ f.1).isSome = (h₁ f.1).isSome := hrel.isSome_eq f.1
    rw [hh₁, write_of_ne hfst, Function.update_of_ne hfst, hf.1] at hcell
    simpa using hcell

/-- `modperl_tipool_init` on an empty idle list. -/
theorem initLoop {n : ℕ} {fresh : List (Addr × Item)} (hr : Repr t p)
    (h : tipoolInitLoop n t fresh = some t') :
    n ≤ fresh.length ∧ Repr t' { p with idle := p.idle ++ fresh.take n } := by
  induction n generalizing t p fresh with
  | zero =>
      obtain rfl := Option.some.inj h
      exact ⟨Nat.zero_le _, by simpa using hr⟩
  | succ n ih =>
      cases fresh with
      | nil => exact absurd h (by simp [tipoolInitLoop])
      | cons f rest =>
          obtain ⟨t₁, ht₁, hrest⟩ := Option.bind_eq_some_iff.mp h
          obtain ⟨t₂, ht₂, hr₂, -⟩ := hr.growAdd (fresh_of_growAdd ht₁)
          obtain rfl := Option.some.inj (ht₁.symm.trans ht₂)
          obtain ⟨hle, hr'⟩ := ih hr₂ hrest
          exact ⟨by simpa using hle, by simpa using hr'⟩

/-- Addresses and items for `modperl_tipool_init`: enough of them, not in use, and different. -/
def FreshList (t : Tipool Item) (n : ℕ) (fresh : List (Addr × Item)) : Prop :=
  n ≤ fresh.length ∧ (∀ f ∈ fresh, Fresh t f) ∧
    fresh.Pairwise fun f g => g.1 ≠ f.1 ∧ g.2 ≠ f.2

theorem initLoop_isSome {n : ℕ} {fresh : List (Addr × Item)} (hr : Repr t p)
    (hfresh : FreshList t n fresh) : ∃ t', tipoolInitLoop n t fresh = some t' := by
  induction n generalizing t p fresh with
  | zero => exact ⟨t, by simp [tipoolInitLoop]⟩
  | succ n ih =>
      obtain ⟨hlen, hall, hdiff⟩ := hfresh
      cases fresh with
      | nil => simp at hlen
      | cons f rest =>
          obtain ⟨hf, hrest⟩ := List.pairwise_cons.mp hdiff
          obtain ⟨t₁, ht₁, hr₁, hkeep⟩ := hr.growAdd (hall f (List.mem_cons_self ..))
          have hfresh₁ : FreshList t₁ n rest := ⟨by simpa using hlen, fun g hg =>
            hkeep g (hall g (List.mem_cons_of_mem _ hg)) (hf g hg).1 (hf g hg).2, hrest⟩
          obtain ⟨t', ht'⟩ := ih hr₁ hfresh₁
          exact ⟨t', by simp only [tipoolInitLoop, Option.bind_eq_bind, ht₁, Option.bind_some, ht']⟩

/-- `modperl_tipool_pop` before its wait loop. -/
theorem grow (hr : Repr t p) (h : tipoolGrow cfg t fresh = some t') :
    Repr t' (p.grow cfg fresh) := by
  unfold tipoolGrow at h
  have hiff := hr.mustWait_iff
  simp only [mustWait, decide_eq_true_eq] at hiff
  unfold ItemPool.grow
  simp only [← hr.size, ← hiff]
  split_ifs at h with hwait hmax
  · obtain ⟨t₁, heq, hr₁, -⟩ := hr.growAdd (fresh_of_growAdd h)
    obtain rfl := Option.some.inj (h.symm.trans heq)
    rw [if_pos ⟨hwait, hmax⟩]
    simpa [hiff.mp hwait] using hr₁
  · obtain rfl := Option.some.inj h
    rwa [if_neg fun hgrow => hmax hgrow.2]
  · obtain rfl := Option.some.inj h
    rwa [if_neg fun hgrow => hwait hgrow.1]

theorem grow_isSome (hr : Repr t p) (hfresh : Fresh t fresh) :
    ∃ t', tipoolGrow cfg t fresh = some t' := by
  unfold tipoolGrow
  split_ifs
  · exact (hr.growAdd hfresh).imp fun _ h => h.1
  · exact ⟨t, rfl⟩
  · exact ⟨t, rfl⟩

/-! ## Handing out -/

omit [DecidableEq Item] in
/-- `modperl_tipool_pop` after its wait loop: it hands out the head of the idle
list, so that the `PANIC` branch is not taken. -/
theorem take (hr : Repr t p) (hidle : p.idle = x :: rest) :
    ∃ t', tipoolTake t = some (t', x.1) ∧ Repr t' ⟨rest, p.busy ++ [x]⟩ := by
  have hhead : t.idle = some x.1 := by simpa [hidle] using hr.idle.head_eq
  have hlen : t.cells = rest.length + 1 + p.busy.length := by
    rw [hr.cells, ItemPool.all, hidle, List.length_append, List.length_cons]
  have hdisj := hr.disjoint
  have hlist := hr.idle
  rw [hidle, List.map_cons] at hdisj hlist
  have hnd := List.nodup_cons.mp hlist.nodup
  -- the head leaves the idle list …
  obtain ⟨h₁, idle', heq₁, hlist₁, hrel₁⟩ :=
    listRemove_spec (show IsList _ _ ([] ++ x.1 :: _) from hlist) (n := t.cells) (by simp; omega)
  rw [hhead] at heq₁
  have hbusy₁ : IsList h₁ t.busy (p.busy.map Prod.fst) :=
    hrel₁.isList hr.busy fun b hb hb' => hdisj (List.mem_cons_of_mem _ (by simpa using hb')) hb
  obtain ⟨c, hc, -⟩ := hr.exists_cell (x := x) (by simp [ItemPool.all, hidle])
  have hc₁ : h₁ x.1 = some c := by rw [hrel₁.frame _ (by simpa using hnd.1), hc]
  have hxbusy : x.1 ∉ p.busy.map Prod.fst := hdisj (List.mem_cons_self ..)
  -- … and is appended to the busy list
  obtain ⟨h₂, busy', heq₂, hlist₂, hrel₂⟩ :=
    listAppend_spec hbusy₁ hc₁ hxbusy (n := t.cells) (by simp; omega)
  refine ⟨{ t with cell := h₂, idle := idle', busy := busy', inUse := t.inUse + 1 }, ?_, ?_⟩
  · simp only [tipoolTake, hhead, Option.bind_eq_bind, heq₁, Option.bind_some, heq₂]
  refine hr.of_perm ?_ ?_ (by simpa using hlist₂) ?_ rfl rfl rfl (by simp [hr.inUse])
  · simp only [ItemPool.all, hidle, List.cons_append, ← List.append_assoc]
    exact List.perm_append_singleton _ _
  · refine hrel₂.isList (by simpa using hlist₁) fun b hb hb' => ?_
    rcases List.mem_append.mp hb' with hb' | hb'
    · exact hdisj (List.mem_cons_of_mem _ hb) hb'
    · exact hnd.1 (List.mem_singleton.mp hb' ▸ hb)
  · intro a
    rw [hrel₂.data, hrel₁.data]

/-! ## Putting back -/

/-- The two ways in which `modperl_tipool_putback_base` is told what comes back. -/
def Names (listp : Option Addr) (data : Option Item) (x : Addr × Item) : Prop :=
  listp = some x.1 ∨ listp = none ∧ data = some x.2

theorem unbusy (hr : Repr t p) (hx : x ∈ p.busy) {listp : Option Addr} {data : Option Item}
    (hnames : Names listp data x) :
    ∃ h busy', tipoolUnbusy t listp data = some ({ t with cell := h, busy := busy' }, some x.1) ∧
      IsList h busy' ((p.release x).busy.map Prod.fst) ∧
      Relinked t.cell h ((p.release x).busy.map Prod.fst) := by
  obtain ⟨xs, ys, -, hsplit, hrelease⟩ := ItemPool.exists_release hx
  have hlist := hr.busy
  rw [hsplit, List.map_append, List.map_cons] at hlist
  have hfuel : (xs.map Prod.fst).length < t.cells := by
    rw [hr.cells, ItemPool.all, hsplit]
    simp
    omega
  rw [hrelease, List.map_append]
  rcases hnames with rfl | ⟨rfl, rfl⟩
  · obtain ⟨h, busy', heq, hres⟩ := listRemove_spec hlist hfuel
    exact ⟨h, busy', by simp only [tipoolUnbusy, Option.bind_eq_bind, heq, Option.bind_some], hres⟩
  · obtain ⟨c, hc, hdata⟩ := hr.exists_cell (List.mem_append_right _ hx)
    -- no other busy cell carries the item
    have hother : ∀ a ∈ xs.map Prod.fst, ∀ d, t.cell a = some d → d.data ≠ some x.2 := by
      intro a ha d hd hdx
      obtain ⟨y, hy, rfl⟩ := List.mem_map.mp ha
      have hybusy : y ∈ p.all := List.mem_append_right _ (by simp [hsplit, hy])
      obtain ⟨d', hd', hdata'⟩ := hr.exists_cell hybusy
      obtain rfl := Option.some.inj (hd.symm.trans hd')
      have heq : y = x := hr.eq_of_snd hybusy (List.mem_append_right _ hx)
        (Option.some.inj (hdata'.symm.trans hdx))
      have hnd := (List.nodup_append'.mp hlist.nodup).2.2
      exact hnd (List.mem_map_of_mem hy) (heq ▸ List.mem_cons_self ..)
    obtain ⟨h, busy', heq, hres⟩ := listRemoveData_spec hlist hc hdata hother hfuel
    exact ⟨h, busy', by simp only [tipoolUnbusy, Option.bind_eq_bind, heq, Option.bind_some], hres⟩

/-- The item becomes the first idle one. -/
theorem release (hr : Repr t p) (hx : x ∈ p.busy) {listp : Option Addr} {data : Option Item}
    (hnames : Names listp data x) :
    ∃ t₁ h idle', tipoolUnbusy t listp data = some (t₁, some x.1) ∧
      listPrepend t₁.cell t₁.idle (some x.1) = some (h, idle') ∧
      Repr { t₁ with cell := h, idle := idle', inUse := t₁.inUse - 1 } (p.release x) ∧
      ∀ f, Fresh t f → Fresh { t₁ with cell := h, idle := idle', inUse := t₁.inUse - 1 } f := by
  obtain ⟨h₁, busy', heq₁, hlist₁, hrel₁⟩ := hr.unbusy hx hnames
  obtain ⟨xs, ys, -, hsplit, hrelease⟩ := ItemPool.exists_release hx
  rw [hrelease] at hlist₁ hrel₁ ⊢
  have hperm : (x :: (xs ++ ys)).Perm p.busy := hsplit ▸ List.perm_middle.symm
  have hnd := (hperm.map Prod.fst).nodup_iff.mpr hr.busy.nodup
  rw [List.map_cons, List.nodup_cons] at hnd
  have hsub : ∀ b ∈ (xs ++ ys).map Prod.fst, b ∈ p.busy.map Prod.fst := fun b hb =>
    (hperm.map Prod.fst).mem_iff.mp (List.mem_cons_of_mem _ hb)
  have hidle₁ : IsList h₁ t.idle (p.idle.map Prod.fst) :=
    hrel₁.isList hr.idle fun b hb hb' => hr.disjoint hb (hsub b hb')
  -- the item is off the busy list, and not yet on the idle one
  have hxidle : x.1 ∉ p.idle.map Prod.fst := fun h => hr.disjoint h (List.mem_map_of_mem hx)
  obtain ⟨c, hc, -⟩ := hr.exists_cell (List.mem_append_right _ hx)
  have hc₁ : h₁ x.1 = some c := by rw [hrel₁.frame _ hnd.1, hc]
  obtain ⟨h₂, idle', heq₂, hlist₂, hrel₂⟩ := listPrepend_spec hidle₁ hc₁ hxidle
  refine ⟨_, h₂, idle', heq₁, heq₂, hr.of_perm ?all (by simpa using hlist₂) ?busy ?data rfl rfl rfl
    ?inUse, fun f hf => ⟨?fresh, hf.2⟩⟩
  case all =>
    simp only [ItemPool.all]
    exact List.perm_middle.symm.trans (hperm.append_left _)
  case busy =>
    refine hrel₂.isList hlist₁ fun b hb hb' => ?_
    rcases List.mem_cons.mp hb' with rfl | hb'
    · exact hnd.1 hb
    · exact hr.disjoint hb' (hsub b hb)
  case data =>
    intro a
    rw [hrel₂.data, hrel₁.data]
  case inUse =>
    have hlen := hperm.length_eq
    rw [List.length_cons] at hlen
    simp only [hr.inUse]
    omega
  case fresh =>
    have hcell : (h₂ f.1).isSome = (t.cell f.1).isSome := by
      rw [hrel₂.isSome_eq, hrel₁.isSome_eq]
    simpa [hf.1] using hcell

/-- The first idle item is taken off its list, destroyed and freed. -/
theorem drop (hr : Repr t p) (hidle : p.idle = x :: rest) :
    ∃ t₁ t₂, tipoolRemove t x.1 = some t₁ ∧ tipoolDestroyItem t₁ x.1 = some t₂ ∧
      Repr t₂ { p with idle := rest } ∧ ∀ f, Fresh t f → Fresh t₂ f := by
  have hlist := hr.idle
  have hdisj := hr.disjoint
  rw [hidle, List.map_cons] at hlist hdisj
  have hnd := List.nodup_cons.mp hlist.nodup
  have hall : p.all = x :: (rest ++ p.busy) := by simp [ItemPool.all, hidle]
  -- the list without its head, then the heap without its cell
  obtain ⟨h₁, idle', heq₁, hlist₁, hrel₁⟩ :=
    listRemove_spec (show IsList _ _ ([] ++ x.1 :: _) from hlist) (n := t.cells)
      (by simp [hr.cells, hall])
  obtain ⟨c, hc, hdata⟩ := hr.exists_cell (x := x) (by simp [hall])
  have hc₁ : h₁ x.1 = some c := by rw [hrel₁.frame _ (by simpa using hnd.1), hc]
  have hxbusy : x.1 ∉ p.busy.map Prod.fst := hdisj (List.mem_cons_self ..)
  have haddrs := hr.addrs
  have hdatas := hr.datas
  have hitems := hr.items
  rw [hall, List.map_cons] at haddrs hdatas hitems
  refine ⟨{ t with cell := h₁, idle := idle', size := t.size - 1 }, { t with
    cell := Function.update h₁ x.1 none, cells := t.cells - 1, items := t.items.erase x.2,
    idle := idle', size := t.size - 1 }, ?remove, by simp [tipoolDestroyItem, hc₁, hdata], ?repr,
    ?fresh⟩
  case remove =>
    simp only [tipoolRemove, Option.bind_eq_bind, heq₁, Option.bind_some]
  case repr =>
    refine ⟨?idle, ?busy, ?data, (List.nodup_cons.mp haddrs).2, (List.nodup_cons.mp hdatas).2,
      ?items, ?cells, ?size, hr.inUse⟩
    case idle =>
      refine (show IsList h₁ idle' (rest.map Prod.fst) by simpa using hlist₁).congr fun b hb => ?_
      exact Function.update_of_ne (ne_of_mem_of_not_mem hb hnd.1) _ _
    case busy =>
      refine (hrel₁.isList hr.busy fun b hb hb' => hdisj (List.mem_cons_of_mem _ ?_) hb).congr
        fun b hb => Function.update_of_ne (ne_of_mem_of_not_mem hb hxbusy) _ _
      simpa using hb'
    case data =>
      intro y hy
      have hne : y.1 ≠ x.1 := fun heq =>
        (List.nodup_cons.mp haddrs).1 (heq ▸ List.mem_map_of_mem hy)
      simp only [Function.update_of_ne hne]
      rw [hrel₁.data]
      exact hr.data y (by simp [hall]; exact .inr (by simpa [ItemPool.all] using hy))
    case items =>
      simpa [ItemPool.all] using hitems.erase x.2
    case cells =>
      rw [hr.cells, hall, List.length_cons, ItemPool.all, Nat.add_sub_cancel]
    case size =>
      have hsize := hr.size
      rw [hall, List.length_cons] at hsize
      simp only [hsize, ItemPool.all]
      omega
  case fresh =>
    rintro f ⟨hcell, hitem⟩
    refine ⟨?_, fun hmem => hitem (List.mem_of_mem_erase hmem)⟩
    have hf : h₁ f.1 = none := by
      have := hrel₁.isSome_eq f.1
      simpa [hcell] using this
    simp only [Function.update_apply, hf, ite_self]

/-- The end of `modperl_tipool_putback_base`. -/
theorem manage (hr : Repr t p) (hidle : p.idle = x :: rest)
    (h : tipoolManage cfg t x.1 n fresh = some t') : Repr t' (p.manage cfg n fresh) := by
  obtain ⟨t₁, t₂, heq₁, heq₂, hr₂, -⟩ := hr.drop hidle
  have hspare : t.size - t.inUse = p.idle.length := by
    rw [hr.size, hr.inUse, ItemPool.all, List.length_append]
    omega
  have hspare₂ : t₂.size - t₂.inUse = rest.length := by
    simp only [hr₂.size, hr₂.inUse, ItemPool.all, List.length_append]
    omega
  simp only [tipoolManage, hspare] at h
  split_ifs at h with hdrop
  · rw [ItemPool.manage, if_pos (show p.tooMany cfg ∨ ItemPool.wornOut cfg n from hdrop), hidle,
      List.tail_cons]
    simp only [Option.bind_eq_bind, heq₁, heq₂, Option.bind_some, hspare₂] at h
    split_ifs at h with hgrow
    · obtain ⟨t₃, heq₃, hr₃, -⟩ := hr₂.growAdd (fresh_of_growAdd h)
      obtain rfl := Option.some.inj (h.symm.trans heq₃)
      rw [if_pos (show ItemPool.wornOut cfg n ∧ _ from hgrow)]
      exact hr₃
    · obtain rfl := Option.some.inj h
      rw [if_neg (show ¬(ItemPool.wornOut cfg n ∧ _) from hgrow)]
      exact hr₂
  · obtain rfl := Option.some.inj h
    rw [ItemPool.manage, if_neg (show ¬(p.tooMany cfg ∨ ItemPool.wornOut cfg n) from hdrop)]
    exact hr

theorem manage_isSome (hr : Repr t p) (hidle : p.idle = x :: rest) (hfresh : Fresh t fresh) :
    ∃ t', tipoolManage cfg t x.1 n fresh = some t' := by
  obtain ⟨t₁, t₂, heq₁, heq₂, hr₂, hfresh₂⟩ := hr.drop hidle
  simp only [tipoolManage, Option.bind_eq_bind, heq₁, heq₂, Option.bind_some]
  split_ifs
  · exact (hr₂.growAdd (hfresh₂ _ hfresh)).imp fun _ h => h.1
  · exact ⟨t₂, rfl⟩
  · exact ⟨t, rfl⟩

/-- `modperl_tipool_putback_base` on a busy item reaches the signal and computes `putback`. -/
theorem putbackBase (hr : Repr t p) (hx : x ∈ p.busy) {listp : Option Addr} {data : Option Item}
    (hnames : Names listp data x) {signal : Bool}
    (h : tipoolPutbackBase cfg t listp data n fresh = some (t', signal)) :
    signal = true ∧ Repr t' (p.putback cfg n fresh x) := by
  obtain ⟨t₁, h₁, idle', heq₁, heq₂, hr₁, -⟩ := hr.release hx hnames
  have hinUse : t₁.inUse - 1 = (p.busy.length : ℤ) - 1 := by
    obtain ⟨xs, ys, -, hsplit, hrelease⟩ := ItemPool.exists_release hx
    have h := hr₁.inUse
    rw [hrelease] at h
    simp only [hsplit, List.length_append, List.length_cons] at h ⊢
    omega
  simp only [tipoolPutbackBase, Option.bind_eq_bind, heq₁, Option.bind_some, heq₂, hinUse] at h
  unfold ItemPool.putback
  split_ifs at h with hmax
  · obtain ⟨rfl, rfl⟩ := Prod.mk.inj (Option.some.inj h)
    rw [if_pos hmax]
    exact ⟨rfl, by simpa [hinUse] using hr₁⟩
  · obtain ⟨t₂, ht₂, heq₃⟩ := Option.bind_eq_some_iff.mp h
    obtain ⟨rfl, rfl⟩ := Prod.mk.inj (Option.some.inj heq₃)
    rw [if_neg hmax]
    exact ⟨rfl, hr₁.manage rfl (by simpa [hinUse] using ht₂)⟩

theorem putbackBase_isSome (hr : Repr t p) (hx : x ∈ p.busy) {listp : Option Addr}
    {data : Option Item} (hnames : Names listp data x) (hfresh : Fresh t fresh) :
    ∃ r, tipoolPutbackBase cfg t listp data n fresh = some r := by
  obtain ⟨t₁, h₁, idle', heq₁, heq₂, hr₁, hfresh₁⟩ := hr.release hx hnames
  simp only [tipoolPutbackBase, Option.bind_eq_bind, heq₁, Option.bind_some, heq₂]
  split_ifs
  · exact ⟨_, rfl⟩
  · obtain ⟨t₂, ht₂⟩ : ∃ t₂, tipoolManage cfg _ x.1 n fresh = some t₂ :=
      hr₁.manage_isSome rfl (hfresh₁ _ hfresh)
    exact ⟨(t₂, true), by rw [ht₂, Option.bind_some]⟩

end Repr

end ModPerl
