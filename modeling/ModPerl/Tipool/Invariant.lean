import ModPerl.Tipool.Monitor

/-!
# The representation invariant of the pool

Over item pools the only thing to prove is the bound on the size
(`Bounded.step`).  Everything else that the code relies on is in the
representation: `tipool_invariant` reads it off a reachable state in memory,
together with the fact that no critical section faults there.

The bound is `max start max` unless both are negative, as they may be:
`modperl_cmd_interp_start` and `modperl_cmd_interp_max` store what `atoi`
returns.  An empty pool then already exceeds it (`tipool_size_exceeds`).
-/

namespace ModPerl

open DoublyLinked CondVar Machine

/-! ## The size of an item pool -/

namespace ItemMonitor

variable {α : Type*} {cfg : TipoolConfig} {m m' : ItemMonitor α} {t : Thread}

/-- What a thread does with the lock at its wait loop: it sleeps if no item is
idle, and takes the first idle item otherwise. -/
theorem waitOrTake_cases (m : ItemMonitor α) (t : Thread) :
    m.pool.idle = [] ∧ m.waitOrTake t = { m with waiters := m.waiters.sleep t } ∨
      ∃ a rest, m.pool.idle = a :: rest ∧
        m.waitOrTake t = { m with pool := ⟨rest, m.pool.busy ++ [a]⟩ } := by
  unfold waitOrTake ItemPool.take
  cases hidle : m.pool.idle with
  | nil => exact .inl ⟨rfl, rfl⟩
  | cons a rest => exact .inr ⟨a, rest, rfl, rfl⟩

theorem length_waitOrTake (m : ItemMonitor α) (t : Thread) :
    (m.waitOrTake t).pool.all.length = m.pool.all.length := by
  rcases m.waitOrTake_cases t with ⟨-, heq⟩ | ⟨a, rest, hidle, heq⟩
  · rw [heq]
  · simp [heq, ItemPool.all, hidle]
    omega

@[simp] theorem serving_waitOrTake (m : ItemMonitor α) (t : Thread) :
    (m.waitOrTake t).serving = m.serving := by
  rcases m.waitOrTake_cases t with ⟨-, heq⟩ | ⟨_, _, -, heq⟩ <;> rw [heq]

/-- The pool is never larger than at its start or than `max` allows, and before
the first pop nothing is in use and nobody waits. -/
structure Bounded (cfg : TipoolConfig) (m : ItemMonitor α) : Prop where
  size : (m.pool.all.length : ℤ) ≤ max (max cfg.start cfg.max) 0
  idle : m.serving = false → m.pool.busy = [] ∧ m.waiters = .none

namespace Bounded

theorem new : Bounded cfg (.new : ItemMonitor α) := by
  refine ⟨?_, fun _ => ⟨rfl, rfl⟩⟩
  simp [ItemMonitor.new, ItemPool.all, ItemPool.empty]

/-- A thread that holds the lock at its wait loop. -/
theorem waitOrTake (hsize : (m.pool.all.length : ℤ) ≤ max (max cfg.start cfg.max) 0)
    (hserving : m.serving = true) : (m.waitOrTake t).Bounded cfg :=
  ⟨by rwa [length_waitOrTake], by simp [hserving]⟩

/-- A thread that waits has called `modperl_tipool_pop`. -/
theorem serving_of_blocked (h : Bounded cfg m) (ht : m.waiters.Blocked t) : m.serving = true := by
  by_contra hs
  rcases ht with ht | ht <;> simp [(h.idle (by simpa using hs)).2, Waiters.none] at ht

variable [DecidableEq α]

theorem step {a : ItemAct α} (h : Bounded cfg m) (hs : itemStep cfg m a = some m') :
    Bounded cfg m' := by
  cases a with
  | init fresh =>
      simp only [itemStep] at hs
      split_ifs at hs with hinit
      obtain rfl := Option.some.inj hs
      obtain ⟨hserving, -, hlen⟩ := hinit
      refine ⟨?_, h.idle⟩
      simp only [ItemPool.all, (h.idle hserving).1, List.append_nil, hlen]
      omega
  | pop t fresh =>
      simp only [itemStep] at hs
      split_ifs at hs
      obtain rfl := Option.some.inj hs
      refine waitOrTake ?_ rfl
      -- the pool grows only below `max`
      rcases ItemPool.grow_cases cfg fresh m.pool with ⟨hidle, hlt, heq⟩ | ⟨-, heq⟩
      · simp only [heq, ItemPool.all, hidle] at hlt ⊢
        simp only [List.nil_append, List.length_append, List.length_singleton] at hlt ⊢
        omega
      · simpa only [heq] using h.size
  | resume t =>
      simp only [itemStep] at hs
      split_ifs at hs with ht
      obtain rfl := Option.some.inj hs
      exact waitOrTake h.size (h.serving_of_blocked (.inr ht))
  | spurious t =>
      simp only [itemStep] at hs
      split_ifs at hs with ht
      obtain rfl := Option.some.inj hs
      exact waitOrTake h.size (h.serving_of_blocked (.inl ht))
  | putback a n fresh pick =>
      simp only [itemStep] at hs
      split_ifs at hs with hput
      obtain rfl := Option.some.inj hs
      have hserving : m.serving = true := by
        by_contra hserving
        simp [(h.idle (by simpa using hserving)).1] at hput
      refine ⟨le_trans ?_ h.size, by simp [hserving]⟩
      obtain ⟨hbusy, hidle⟩ := ItemPool.putback_lengths cfg n fresh hput.1
      simp only [ItemPool.all, List.length_append]
      omega

end Bounded

end ItemMonitor

/-! ## The pool in memory -/

variable {Item : Type}

/-- The pool in an unlocked state, with the cells of its idle and its busy list. -/
structure TipoolOk (cfg : TipoolConfig) (t : Tipool Item) (idle busy : List Addr) : Prop where
  /-- `next` and `prev` are inverse, the head has no `prev`, and there is no cycle. -/
  idle_isList : IsList t.cell t.idle idle
  busy_isList : IsList t.cell t.busy busy
  /-- The lists are disjoint and hold no cell twice. -/
  nodup : (idle ++ busy).Nodup
  /-- Each cell carries an item that has been created and not destroyed, and no two the same. -/
  items : ∃ datas : List Item, datas.Nodup ∧ (∀ d ∈ datas, d ∈ t.items) ∧
    (idle ++ busy).map (fun a => (t.cell a).bind Cell.data) = datas.map some
  inUse : (busy.length : ℤ) = t.inUse
  size : (idle.length : ℤ) + busy.length = t.size
  bound : t.size ≤ max (max cfg.start cfg.max) 0

theorem Repr.tipoolOk {cfg : TipoolConfig} {t : Tipool Item} {p : ItemPool (Addr × Item)}
    (h : Repr t p) (hbound : (p.all.length : ℤ) ≤ max (max cfg.start cfg.max) 0) :
    TipoolOk cfg t (p.idle.map Prod.fst) (p.busy.map Prod.fst) where
  idle_isList := h.idle
  busy_isList := h.busy
  nodup := by simpa [ItemPool.all] using h.addrs
  items := by
    refine ⟨p.all.map Prod.snd, h.datas, fun d hd => h.items.mem_iff.mpr hd, ?_⟩
    rw [← List.map_append, List.map_map, List.map_map]
    refine List.map_congr_left fun x hx => ?_
    obtain ⟨c, hc, hdata⟩ := h.exists_cell hx
    simp [hc, hdata]
  inUse := by simp [h.inUse]
  size := by simp [h.size, ItemPool.all]
  bound := h.size ▸ hbound

variable [DecidableEq Item]

/-- In every reachable state the pool is well formed, and whatever the callers
do next does not fault: no null or freed pointer is dereferenced, every
traversal of a list ends, and a pop that stops waiting gets an item. -/
theorem tipool_invariant {cfg : TipoolConfig} {s : Monitor Item}
    (h : Reachable (tipoolStep cfg) Always .new s) :
    (∃ idle busy, TipoolOk cfg s.pool idle busy) ∧
      ∀ a, TipoolAllowed s a → FreshFor cfg s.pool a → ∃ s', tipoolStep cfg s a = some s' := by
  obtain ⟨m, hm, hrep⟩ := tipool_simulates Always (fun _ _ _ _ _ _ _ => trivial) h
  have hbounded : m.Bounded cfg := hm.invariant .new fun _ _ _ _ hi _ hs => hi.step hs
  exact ⟨⟨_, _, hrep.pool.tipoolOk hbounded.size⟩, fun a => hrep.exists_step⟩

/-- A pool of three with one item in use. -/
theorem tipool_invariant_three :
    ∃ s : Monitor ℕ, Reachable (tipoolStep .default) Always .new s ∧ s.pool.size = 3 ∧
      s.pool.inUse = 1 ∧ ∃ idle busy, TipoolOk .default s.pool idle busy := by
  obtain ⟨s, hs, hprop⟩ : ∃ s : Monitor ℕ, Reachable (tipoolStep .default) Always .new s ∧
      s.pool.size = 3 ∧ s.pool.inUse = 1 :=
    Reachable.exists_of_run
      (Reachable.runOk_always [.init [(1, 11), (2, 12), (3, 13)], .pop 0 (4, 14)])
      (by decide +kernel)
  exact ⟨s, hs, hprop.1, hprop.2, (tipool_invariant hs).1⟩

/-- With `PerlInterpStart` and `PerlInterpMax` both negative the empty pool is larger than both. -/
theorem tipool_size_exceeds :
    ∃ (cfg : TipoolConfig) (s : Monitor ℕ), Reachable (tipoolStep cfg) Always .new s ∧
      ¬s.pool.size ≤ max cfg.start cfg.max :=
  ⟨{ TipoolConfig.default with start := -1, max := -1 }, .new, .start, by decide⟩

end ModPerl
