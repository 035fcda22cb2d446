import ModPerl.Tipool.Invariant

/-!
# Retirement of interpreters

An item that has served more than `max_requests` requests when it is put back is
destroyed, and nobody gets it again (`retirement`): unless every interpreter that
`max` allows is in use at that moment.  Then the putback is in a hurry, because
another thread may be blocking, and leaves the pool alone; the item is idle and
will be handed out next (`retirement_under_load`).

Items are names: the grow callback makes a new interpreter each time, so a name
that it has offered once it does not offer again.
-/

namespace ModPerl

open DoublyLinked CondVar Machine

/-! ## Over item pools -/

namespace ItemPool

variable {α : Type*} [DecidableEq α] {cfg : TipoolConfig} {n : ℤ} {fresh a b : α} {p : ItemPool α}

/-- A worn-out item does not come back, unless the putback is in a hurry. -/
theorem putback_wornOut (hworn : wornOut cfg n) (hload : (p.busy.length : ℤ) ≠ cfg.max)
    (ha : a ∈ p.busy) (hnodup : p.all.Nodup) (hb : b ∈ (p.putback cfg n fresh a).all) :
    b ∈ p.all ∧ b ≠ a ∨ b = fresh := by
  obtain ⟨-, hbusy, hdisj⟩ := List.nodup_append'.mp hnodup
  have hrest : b ∈ p.idle ++ p.busy.erase a → b ∈ p.all ∧ b ≠ a := by
    intro hb
    rcases List.mem_append.mp hb with hb | hb
    · exact ⟨List.mem_append_left _ hb, fun heq => hdisj hb (heq ▸ ha)⟩
    · exact ⟨List.mem_append_right _ (List.mem_of_mem_erase hb), (hbusy.mem_erase_iff.mp hb).1⟩
  unfold putback at hb
  rw [if_neg (fun heq => hload (by omega)), manage, if_pos (.inr hworn)] at hb
  split_ifs at hb
  · simp only [all, release, List.tail_cons, List.append_assoc, List.mem_append,
      List.mem_singleton] at hb
    rcases hb with hb | rfl | hb
    · exact .inl (hrest (List.mem_append_left _ hb))
    · exact .inr rfl
    · exact .inl (hrest (List.mem_append_right _ hb))
  · exact .inl (hrest hb)

/-- Whatever is in a pool after a putback was there before, or is the fresh item. -/
theorem mem_putback (hb : b ∈ (p.putback cfg n fresh a).all) (ha : a ∈ p.busy) :
    b ∈ p.all ∨ b = fresh := by
  have herase : ∀ c, c ∈ p.busy.erase a → c ∈ p.busy := fun c => List.mem_of_mem_erase
  rcases putback_cases cfg n fresh p a with heq | heq | heq <;> rw [heq] at hb <;>
    simp only [all, List.mem_append, List.mem_cons, List.not_mem_nil, or_false] at hb ⊢
  · rcases hb with (rfl | hb) | hb
    · exact .inl (.inr ha)
    · exact .inl (.inl hb)
    · exact .inl (.inr (herase b hb))
  · exact .inl (hb.imp_right (herase b))
  · rcases hb with (hb | rfl) | hb
    · exact .inl (.inl hb)
    · exact .inr rfl
    · exact .inl (.inr (herase b hb))

end ItemPool

/-- The items that the grow callback would make. -/
def ItemAct.offers {α : Type*} : ItemAct α → List α
  | .init fresh => fresh
  | .pop _ fresh => [fresh]
  | .resume _ => []
  | .spurious _ => []
  | .putback _ _ fresh _ => [fresh]

namespace ItemMonitor

variable {α : Type*} {cfg : TipoolConfig} {m m' : ItemMonitor α} {t : Thread} {b : α}

theorem mem_waitOrTake (hb : b ∈ (m.waitOrTake t).pool.all) : b ∈ m.pool.all := by
  rcases m.waitOrTake_cases t with ⟨-, heq⟩ | ⟨a, rest, hidle, heq⟩
  · rwa [heq] at hb
  · rw [heq] at hb
    simp only [ItemPool.all, hidle, List.mem_append, List.mem_cons, List.not_mem_nil,
      or_false] at hb ⊢
    tauto

/-- Whatever is in the pool after a step was there before, or is new. -/
theorem mem_step [DecidableEq α] {a : ItemAct α} (hs : itemStep cfg m a = some m')
    (hb : b ∈ m'.pool.all) : b ∈ m.pool.all ∨ b ∈ a.offers := by
  cases a with
  | init fresh =>
      simp only [itemStep] at hs
      split_ifs at hs
      obtain rfl := Option.some.inj hs
      simp only [ItemPool.all, ItemAct.offers, List.mem_append] at hb ⊢
      tauto
  | pop t fresh =>
      simp only [itemStep] at hs
      split_ifs at hs
      obtain rfl := Option.some.inj hs
      have hgrow := mem_waitOrTake hb
      rcases ItemPool.grow_cases cfg fresh m.pool with ⟨-, -, heq⟩ | ⟨-, heq⟩
      · simp only [heq, ItemPool.all, ItemAct.offers, List.mem_append, List.mem_singleton]
          at hgrow ⊢
        tauto
      · simp only [heq] at hgrow
        exact .inl hgrow
  | resume t =>
      simp only [itemStep] at hs
      split_ifs at hs
      obtain rfl := Option.some.inj hs
      have hb' := mem_waitOrTake hb
      exact .inl hb'
  | spurious t =>
      simp only [itemStep] at hs
      split_ifs at hs
      obtain rfl := Option.some.inj hs
      have hb' := mem_waitOrTake hb
      exact .inl hb'
  | putback a n fresh pick =>
      simp only [itemStep] at hs
      split_ifs at hs with hput
      obtain rfl := Option.some.inj hs
      exact (ItemPool.mem_putback hb hput.1).imp_right List.mem_singleton.mpr

end ItemMonitor

/-! ## In memory -/

variable {Item : Type}

/-- The items that the grow callback would make in a critical section. -/
def TipoolAct.offers : TipoolAct Item → List Item
  | .init fresh => fresh.map Prod.snd
  | .pop _ fresh => [fresh.2]
  | .resume _ => []
  | .spurious _ => []
  | .putback _ _ fresh _ => [fresh.2]
  | .putbackData _ _ fresh _ => [fresh.2]

/-- The item that a critical section puts back, and its `num_requests`. -/
def Monitor.returned (s : Monitor Item) : TipoolAct Item → Option (Item × ℤ)
  | .putback listp n _ _ => (s.held.find? (·.1 = listp)).map fun x => (x.2, n)
  | .putbackData data n _ _ => some (data, n)
  | _ => none

/-- The pool with its history: the items that the grow callback has offered, and
those that were put back worn out while less than `max` were in use. -/
structure Retiring (Item : Type) where
  monitor : Monitor Item
  offered : List Item
  retired : List Item

/-- After `modperl_tipool_new`. -/
def Retiring.new : Retiring Item := ⟨.new, [], []⟩

/-- A putback ends the service of an item: it has served too often, and less than
`max` items are in use. -/
def Monitor.retires (cfg : TipoolConfig) (s : Monitor Item) (a : TipoolAct Item) : Option Item :=
  match s.returned a with
  | some (data, n) => if n > cfg.maxRequests ∧ s.pool.inUse ≠ cfg.max then some data else none
  | none => none

variable [DecidableEq Item]

/-- A step of the pool.  The grow callback offers new items only. -/
def retiringStep (cfg : TipoolConfig) (s : Retiring Item) (a : TipoolAct Item) :
    Option (Retiring Item) :=
  if ∀ d ∈ a.offers, d ∉ s.offered then do
    let m ← tipoolStep cfg s.monitor a
    some ⟨m, a.offers ++ s.offered, (s.monitor.retires cfg a).toList ++ s.retired⟩
  else none

/-! ## What a step does -/

namespace Represents

variable {cfg : TipoolConfig} {s s' : Monitor Item} {m m' : ItemMonitor (Addr × Item)}
  {a : TipoolAct Item} {a' : ItemAct (Addr × Item)} {x fresh : Addr × Item} {n : ℤ}
  {pick : Option Thread} {d : Item}

omit [DecidableEq Item] in
theorem mem_items_iff (h : Represents s m) : d ∈ s.pool.items ↔ ∃ x ∈ m.pool.all, x.2 = d := by
  rw [h.pool.items.mem_iff, List.mem_map]

omit [DecidableEq Item] in
theorem offers_of_matches (hmatch : a.Matches a') (hx : x ∈ a'.offers) : x.2 ∈ a.offers := by
  cases hmatch with
  | init => exact List.mem_map_of_mem (List.mem_of_mem_take hx)
  | resume => simp [ItemAct.offers] at hx
  | spurious => simp [ItemAct.offers] at hx
  | _ =>
      simp only [ItemAct.offers, List.mem_singleton] at hx
      simp [TipoolAct.offers, hx]

omit [DecidableEq Item] in
/-- What is put back is the item that the caller means. -/
theorem returned_eq (h : Represents s m) (hmatch : a.Matches (.putback x n fresh pick))
    (hx : x ∈ m.pool.busy) : s.returned a = some (x.2, n) := by
  cases hmatch with
  | putback => simp [Monitor.returned, h.find_fst (h.held.mem_iff.mpr hx)]
  | putbackData => rfl

omit [DecidableEq Item] in
/-- The other critical sections put nothing back. -/
theorem returned_eq_none (hmatch : a.Matches a') (hnot : ∀ x n fresh pick,
    a' ≠ .putback x n fresh pick) : s.returned a = none := by
  cases hmatch with
  | putback => exact absurd rfl (hnot _ _ _ _)
  | putbackData => exact absurd rfl (hnot _ _ _ _)
  | _ => rfl

/-- A retired item is destroyed. -/
theorem notMem_of_retires (hworn : 1 ≤ cfg.maxRequests) (h : Represents s m)
    (hmatch : a.Matches a') (hm' : itemStep cfg m a' = some m') (h' : Represents s' m')
    (hretires : s.retires cfg a = some d) (hnew : d ∉ a.offers) : d ∉ s'.pool.items := by
  by_cases hput : ∃ x n fresh pick, a' = .putback x n fresh pick
  · obtain ⟨x, n, fresh, pick, rfl⟩ := hput
    simp only [itemStep] at hm'
    split_ifs at hm' with hcond
    obtain rfl := Option.some.inj hm'
    simp only [Monitor.retires, h.returned_eq hmatch hcond.1] at hretires
    split_ifs at hretires with hload
    obtain rfl := Option.some.inj hretires
    rw [h.pool.inUse] at hload
    rw [h'.mem_items_iff]
    rintro ⟨y, hy, hyx⟩
    have hnodup : m.pool.all.Nodup := h.pool.datas.of_map _
    rcases ItemPool.putback_wornOut ⟨by omega, hload.1⟩ hload.2 hcond.1 hnodup hy with
      ⟨hall, hne⟩ | rfl
    · exact hne (h.pool.eq_of_snd hall (List.mem_append_right _ hcond.1) hyx)
    · exact hnew (hyx ▸ offers_of_matches hmatch (List.mem_singleton_self _))
  · simp only [not_exists] at hput
    simp [Monitor.retires, returned_eq_none hmatch hput] at hretires

end Represents

/-! ## Runs -/

/-- Every item was offered once, and no retired item is left. -/
structure Retiring.Ok (s : Retiring Item) : Prop where
  represents : ∃ m, Represents s.monitor m
  items : ∀ d ∈ s.monitor.pool.items, d ∈ s.offered
  retired : ∀ d ∈ s.retired, d ∈ s.offered ∧ d ∉ s.monitor.pool.items

namespace Retiring.Ok

variable {cfg : TipoolConfig} {s s' : Retiring Item} {a : TipoolAct Item}

omit [DecidableEq Item] in
theorem new : (.new : Retiring Item).Ok :=
  ⟨⟨_, .new⟩, by simp [Retiring.new, Monitor.new, tipoolNew], by simp [Retiring.new]⟩

theorem step (hworn : 1 ≤ cfg.maxRequests) (h : s.Ok) (hs : retiringStep cfg s a = some s') :
    s'.Ok := by
  simp only [retiringStep] at hs
  split_ifs at hs with hnew
  obtain ⟨m₁, hm₁, hs⟩ := Option.bind_eq_some_iff.mp hs
  obtain rfl := Option.some.inj hs
  obtain ⟨m, hrep⟩ := h.represents
  rcases hrep.step hm₁ with ⟨⟨fresh, rfl⟩, rfl⟩ | ⟨a', m', hmatch, hm', hrep'⟩
  · refine ⟨⟨m, hrep⟩, fun d hd => List.mem_append_right _ (h.items d hd), fun d hd => ?_⟩
    exact (h.retired d hd).imp_left (List.mem_append_right _)
  · have hback : ∀ d ∈ m₁.pool.items, d ∈ s.monitor.pool.items ∨ d ∈ a.offers := by
      intro d hd
      obtain ⟨x, hx, rfl⟩ := hrep'.mem_items_iff.mp hd
      refine (ItemMonitor.mem_step hm' hx).imp (fun hx => ?_) (Represents.offers_of_matches hmatch)
      exact hrep.mem_items_iff.mpr ⟨x, hx, rfl⟩
    refine ⟨⟨m', hrep'⟩, fun d hd => ?_, fun d hd => ?_⟩
    · rcases hback d hd with hd | hd
      · exact List.mem_append_right _ (h.items d hd)
      · exact List.mem_append_left _ hd
    · rcases List.mem_append.mp hd with hd | hd
      · have hretires := Option.mem_toList.mp hd
        -- what is retired was given back in this step, and was in use before
        have hheld : d ∈ s.offered := by
          refine h.items d (hrep.mem_items_iff.mpr ?_)
          by_cases hput : ∃ x n fresh pick, a' = .putback x n fresh pick
          · obtain ⟨x, n, fresh, pick, rfl⟩ := hput
            simp only [itemStep] at hm'
            split_ifs at hm' with hcond
            simp only [Monitor.retires, hrep.returned_eq hmatch hcond.1] at hretires
            split_ifs at hretires
            exact ⟨x, List.mem_append_right _ hcond.1, Option.some.inj hretires⟩
          · simp only [not_exists] at hput
            simp [Monitor.retires, Represents.returned_eq_none hmatch hput] at hretires
        exact ⟨List.mem_append_right _ hheld,
          hrep.notMem_of_retires hworn hmatch hm' hrep' hretires fun hd => hnew d hd hheld⟩
      · obtain ⟨hoffered, hgone⟩ := h.retired d hd
        refine ⟨List.mem_append_right _ hoffered, fun hd => ?_⟩
        exact (hback d hd).elim hgone fun hd => hnew d hd hoffered

end Retiring.Ok

/-- An item that is put back worn out while less than `max` items are in use is
destroyed by the putback, and no pop ever returns it again.  If `max` items are
in use it is kept, in front of the idle ones. -/
theorem retirement {cfg : TipoolConfig} (hworn : 1 ≤ cfg.maxRequests) {s : Retiring Item}
    (h : Reachable (retiringStep cfg) Always .new s) :
    (∀ d ∈ s.retired, d ∉ s.monitor.pool.items ∧ d ∉ s.monitor.held.map Prod.snd) ∧
      ∀ a d n s', s.monitor.returned a = some (d, n) → retiringStep cfg s a = some s' →
        (s.monitor.pool.inUse ≠ cfg.max → n > cfg.maxRequests → d ∈ s'.retired) ∧
          (s.monitor.pool.inUse = cfg.max →
            (s'.monitor.pool.idle.bind s'.monitor.pool.cell).bind Cell.data = some d) := by
  have hinv : s.Ok := h.invariant .new fun _ _ _ _ hi _ hs => hi.step hworn hs
  obtain ⟨m, hrep⟩ := hinv.represents
  refine ⟨fun d hd => ⟨(hinv.retired d hd).2, fun hheld => ?_⟩, fun a d n s' hreturned hs => ?_⟩
  · obtain ⟨x, hx, rfl⟩ := List.mem_map.mp hheld
    refine (hinv.retired _ hd).2 (hrep.mem_items_iff.mpr ⟨x, ?_, rfl⟩)
    exact List.mem_append_right _ (hrep.held.mem_iff.mp hx)
  · simp only [retiringStep] at hs
    split_ifs at hs with hnew
    obtain ⟨m₁, hm₁, hs⟩ := Option.bind_eq_some_iff.mp hs
    obtain rfl := Option.some.inj hs
    refine ⟨fun hload hn => List.mem_append_left _ ?_, fun hload => ?_⟩
    · simp [Monitor.retires, hreturned, hload, hn]
    · rcases hrep.step hm₁ with ⟨⟨fresh, rfl⟩, -⟩ | ⟨a', m', hmatch, hm', hrep'⟩
      · simp [Monitor.returned] at hreturned
      · by_cases hput : ∃ x n fresh pick, a' = .putback x n fresh pick
        · obtain ⟨x, k, fresh, pick, rfl⟩ := hput
          simp only [itemStep] at hm'
          split_ifs at hm' with hcond
          obtain rfl := Option.some.inj hm'
          rw [hrep.returned_eq hmatch hcond.1, Option.some.injEq, Prod.mk.injEq] at hreturned
          obtain ⟨rfl, rfl⟩ := hreturned
          rw [hrep.pool.inUse] at hload
          -- everything was in use: the item is kept, whatever its requests
          have hhurry : m.pool.putback cfg k fresh x = m.pool.release x := by
            rw [ItemPool.putback, if_pos (by omega)]
          have hidle : (m.pool.putback cfg k fresh x).idle = x :: m.pool.idle := by
            rw [hhurry, ItemPool.release]
          have hhead := hrep'.pool.idle.head_eq
          simp only [hidle, List.map_cons, List.head?_cons] at hhead
          obtain ⟨c, hc, hdata⟩ := hrep'.pool.exists_cell (x := x) (by
            simp only [ItemPool.all, hidle]
            simp)
          simp [hhead, hc, hdata]
        · simp only [not_exists] at hput
          simp [Represents.returned_eq_none hmatch hput] at hreturned

/-- One of three items is put back after two requests, where one is allowed. -/
theorem retirement_three : ∃ s : Retiring ℕ,
    s.monitor.pool.size = 3 ∧ s.retired = [11] ∧ 11 ∉ s.monitor.pool.items := by
  obtain ⟨s, hs, hsize, hretired⟩ : ∃ s : Retiring ℕ,
      Reachable (retiringStep { TipoolConfig.default with maxRequests := 1 }) Always .new s ∧
        s.monitor.pool.size = 3 ∧ s.retired = [11] :=
    Reachable.exists_of_run (Reachable.runOk_always [.init [(1, 11), (2, 12), (3, 13)],
      .pop 0 (4, 14), .putbackData 11 1 (5, 15) none, .pop 0 (6, 16),
      .putbackData 11 2 (7, 17) none]) (by decide +kernel)
  refine ⟨s, hsize, hretired, ?_⟩
  exact ((retirement (by decide) hs).1 11 (by simp [hretired])).1

/-- One interpreter that serves one request at most. -/
def oneForOne : TipoolConfig :=
  { TipoolConfig.default with start := 1, max := 1, maxRequests := 1 }

/-- It serves a second request, is kept, and is popped for a third. -/
theorem retirement_under_load : ∃ s s' s'' : Retiring ℕ,
    Reachable (retiringStep oneForOne) Always .new s ∧
      s.monitor.returned (.putbackData 11 2 (4, 14) none) = some (11, 2) ∧
      retiringStep oneForOne s (.putbackData 11 2 (4, 14) none) = some s' ∧
      11 ∈ s'.monitor.pool.items ∧ retiringStep oneForOne s' (.pop 0 (5, 15)) = some s'' ∧
      s''.monitor.held = [(1, 11)] := by
  obtain ⟨s, hs, hstep⟩ : ∃ s : Retiring ℕ,
      Reachable (retiringStep oneForOne) Always .new s ∧
        (retiringStep oneForOne s (.putbackData 11 2 (4, 14) none)).any (fun s' =>
          decide (11 ∈ s'.monitor.pool.items) &&
            (retiringStep oneForOne s' (.pop 0 (5, 15))).any fun s'' =>
              decide (s''.monitor.held = [(1, 11)])) = true :=
    Reachable.exists_of_run (Reachable.runOk_always [.init [(1, 11)], .pop 0 (2, 12),
      .putbackData 11 1 (3, 13) none, .pop 0 (6, 16)]) (by decide +kernel)
  obtain ⟨s', hs', hrest⟩ := (Option.any_eq_true _ _).mp hstep
  rw [Bool.and_eq_true] at hrest
  obtain ⟨s'', hs'', hheld⟩ := (Option.any_eq_true _ _).mp hrest.2
  exact ⟨s, s', s'', hs, rfl, hs', of_decide_eq_true hrest.1, hs'', of_decide_eq_true hheld⟩

end ModPerl
