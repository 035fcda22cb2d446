import ModPerl.Tipool.Invariant

/-!
# Waking up

Both results count the woken threads against what is left for the sleeping
ones (`Waiters.Covers`).

No wake-up is lost: as long as a thread sleeps there are at least as many woken
threads as idle items (`ItemMonitor.NoLostWakeup`).  An item may be taken by a
third thread, or be destroyed and created again, after its signal.

That a thread sleeps although the pool may still grow is another matter.
`modperl_tipool_pop` decides about growing once, before it waits, and a putback
may destroy an item while several threads wait.  A woken thread that then finds
every item in use goes back to sleep, its signal is spent, and nobody grows the
pool (`tipool_stalls`).  These are the only steps that lead there
(`growth_iff`): without them the woken threads cover the idle items and the
growth that is left (`ItemMonitor.GrowthCovered`).
-/

namespace ModPerl

open DoublyLinked CondVar Machine

/-! ## Over item pools -/

namespace ItemMonitor

variable {α : Type*} {cfg : TipoolConfig} {m m' : ItemMonitor α} {t : Thread}

/-- The woken threads cover the idle items. -/
def NoLostWakeup (m : ItemMonitor α) : Prop := m.waiters.Covers m.pool.idle.length

/-- The woken threads cover the idle items and the growth that is left:
`|idle| + (max - size) = max - in_use`. -/
def GrowthCovered (cfg : TipoolConfig) (m : ItemMonitor α) : Prop :=
  m.waiters.Covers (cfg.max - m.pool.busy.length)

/-- A woken thread finds every item in use although the pool may grow. -/
def Wasted (cfg : TipoolConfig) (m : ItemMonitor α) : ItemAct α → Prop
  | .resume _ => m.pool.idle = [] ∧ (m.pool.all.length : ℤ) < cfg.max
  | _ => False

/-- A thread at its wait loop that takes an item leaves one less to cover. -/
theorem NoLostWakeup.waitOrTake (h : m.waiters.Covers (m.pool.idle.length - 1)) :
    (m.waitOrTake t).NoLostWakeup := by
  rcases m.waitOrTake_cases t with ⟨hidle, heq⟩ | ⟨a, rest, hidle, heq⟩
  · simpa [NoLostWakeup, heq, hidle] using Waiters.Covers.sleep (w := m.waiters) (t := t) (n := 0)
      (by omega)
  · simpa [NoLostWakeup, heq, hidle] using h

/-- A thread that sleeps again must not be needed: either the pool is full, or
others were asleep already and cover the growth. -/
theorem GrowthCovered.waitOrTake (h : m.waiters.Covers (cfg.max - m.pool.busy.length - 1))
    (hsleep : m.pool.idle = [] → cfg.max - m.pool.busy.length ≤ m.waiters.woken.length) :
    (m.waitOrTake t).GrowthCovered cfg := by
  rcases m.waitOrTake_cases t with ⟨hidle, heq⟩ | ⟨a, rest, hidle, heq⟩
  · simpa [GrowthCovered, heq] using Waiters.Covers.sleep (t := t) (hsleep hidle)
  · simpa [GrowthCovered, heq, sub_add_eq_sub_sub] using h

variable [DecidableEq α]

omit [DecidableEq α] in
/-- Before the first pop nobody sleeps. -/
theorem Bounded.covers (h : m.Bounded cfg) (hserving : m.serving = false) {n : ℤ} :
    m.waiters.Covers n :=
  .of_sleeping_eq_nil (by rw [(h.idle hserving).2]; rfl)

theorem NoLostWakeup.step {a : ItemAct α} (hb : m.Bounded cfg) (h : m.NoLostWakeup)
    (hs : itemStep cfg m a = some m') : m'.NoLostWakeup := by
  cases a with
  | init fresh =>
      simp only [itemStep] at hs
      split_ifs at hs with hinit
      obtain rfl := Option.some.inj hs
      exact hb.covers hinit.1
  | pop t fresh =>
      simp only [itemStep] at hs
      split_ifs at hs
      obtain rfl := Option.some.inj hs
      refine NoLostWakeup.waitOrTake ?_
      -- growing adds the item that this thread takes
      rcases ItemPool.grow_cases cfg fresh m.pool with ⟨-, -, heq⟩ | ⟨-, heq⟩
      · simp only [heq]
        exact fun _ => by simp
      · simpa only [heq] using h.mono (by omega)
  | resume t =>
      simp only [itemStep] at hs
      split_ifs at hs with ht
      obtain rfl := Option.some.inj hs
      exact .waitOrTake (h.resume ht)
  | spurious t =>
      simp only [itemStep] at hs
      split_ifs at hs with ht
      obtain rfl := Option.some.inj hs
      exact .waitOrTake (h.spurious.mono (by simp))
  | putback a n fresh pick =>
      simp only [itemStep] at hs
      split_ifs at hs with hput
      obtain rfl := Option.some.inj hs
      have hidle := (ItemPool.putback_lengths cfg n fresh hput.1).2
      exact (h.signal hput.2).mono (by exact_mod_cast hidle)

theorem GrowthCovered.step {a : ItemAct α} (hb : m.Bounded cfg) (h : m.GrowthCovered cfg)
    (hok : ¬m.Wasted cfg a) (hs : itemStep cfg m a = some m') : m'.GrowthCovered cfg := by
  cases a with
  | init fresh =>
      simp only [itemStep] at hs
      split_ifs at hs with hinit
      obtain rfl := Option.some.inj hs
      exact hb.covers hinit.1
  | pop t fresh =>
      simp only [itemStep] at hs
      split_ifs at hs
      obtain rfl := Option.some.inj hs
      -- a thread sleeps here only when the pool is full
      rcases ItemPool.grow_cases cfg fresh m.pool with ⟨-, -, heq⟩ | ⟨hfull, heq⟩
      · refine .waitOrTake ?_ (by simp [heq])
        simp only [heq]
        exact h.mono (by omega)
      · refine .waitOrTake ?_ fun hidle => ?_
        · simp only [heq]
          exact h.mono (by omega)
        · simp only [heq] at hidle ⊢
          have hmax := hfull hidle
          simp only [ItemPool.all, hidle, List.nil_append] at hmax
          omega
  | resume t =>
      simp only [itemStep] at hs
      split_ifs at hs with ht
      obtain rfl := Option.some.inj hs
      refine .waitOrTake (h.resume ht) fun hidle => ?_
      simp only at hidle ⊢
      have hmax : cfg.max ≤ (m.pool.all.length : ℤ) := not_lt.mp fun hlt => hok ⟨hidle, hlt⟩
      simp only [ItemPool.all, hidle, List.nil_append] at hmax
      omega
  | spurious t =>
      simp only [itemStep] at hs
      split_ifs at hs with ht
      obtain rfl := Option.some.inj hs
      exact .waitOrTake (h.spurious.mono (by simp only; omega)) fun _ => h (List.ne_nil_of_mem ht)
  | putback a n fresh pick =>
      simp only [itemStep] at hs
      split_ifs at hs with hput
      obtain rfl := Option.some.inj hs
      have hbusy := (ItemPool.putback_lengths cfg n fresh hput.1).1
      exact (h.signal hput.2).mono (by simp only; omega)

end ItemMonitor

/-! ## In memory -/

variable {Item : Type}

/-- A thread sleeps, nobody is on the way, and the pool is not full although
every item is in use. -/
def Stalled (cfg : TipoolConfig) (s : Monitor Item) : Prop :=
  s.waiters.sleeping ≠ [] ∧ s.waiters.woken = [] ∧ s.pool.size = s.pool.inUse ∧
    s.pool.size < cfg.max

instance (cfg : TipoolConfig) : DecidablePred (Stalled cfg : Monitor Item → Prop) :=
  fun _ => inferInstanceAs (Decidable (_ ∧ _ ∧ _ ∧ _))

/-- The woken thread, when it gets the lock, does not find every item in use
while the pool may grow. -/
def WakeupServes (cfg : TipoolConfig) (s : Monitor Item) : TipoolAct Item → Prop
  | .resume _ => ¬(s.pool.size = s.pool.inUse ∧ s.pool.size < cfg.max)
  | _ => True

instance (cfg : TipoolConfig) :
    DecidableRel (WakeupServes cfg : Monitor Item → TipoolAct Item → Prop)
  | _, .resume _ => inferInstanceAs (Decidable (¬_))
  | _, .init _ | _, .pop _ _ | _, .spurious _ | _, .putback _ _ _ _ | _, .putbackData _ _ _ _ =>
      isTrue trivial

variable [DecidableEq Item]

omit [DecidableEq Item] in
theorem Represents.not_wasted {cfg : TipoolConfig} {s : Monitor Item}
    {m : ItemMonitor (Addr × Item)} {a : TipoolAct Item} {a' : ItemAct (Addr × Item)}
    (hrep : Represents s m) (hmatch : a.Matches a') (hok : WakeupServes cfg s a) :
    ¬m.Wasted cfg a' := by
  cases hmatch with
  | resume =>
      rintro ⟨hidle, hlt⟩
      refine hok ⟨?_, hrep.pool.size ▸ hlt⟩
      rw [hrep.pool.size, hrep.pool.inUse, ItemPool.all, hidle, List.nil_append]
  | _ => exact not_false

/-- While a thread sleeps there are as many woken threads as idle items, or as
sleeping threads if these are fewer. -/
theorem no_lost_wakeup {cfg : TipoolConfig} {s : Monitor Item}
    (h : Reachable (tipoolStep cfg) Always .new s) :
    ∃ idle, IsList s.pool.cell s.pool.idle idle ∧
      min idle.length s.waiters.sleeping.length ≤ s.waiters.woken.length := by
  obtain ⟨m, hm, hrep⟩ := tipool_simulates Always (fun _ _ _ _ _ _ _ => trivial) h
  have hinv : m.Bounded cfg ∧ m.NoLostWakeup :=
    hm.invariant (I := fun m => m.Bounded cfg ∧ m.NoLostWakeup)
      ⟨.new, Waiters.Covers.of_sleeping_eq_nil rfl⟩
      fun _ _ _ _ hi _ hs => ⟨hi.1.step hs, hi.2.step hi.1 hs⟩
  refine ⟨_, hrep.pool.idle, ?_⟩
  rw [hrep.waiters, List.length_map]
  by_cases hnil : m.waiters.sleeping = []
  · simp [hnil]
  · exact min_le_of_left_le (by exact_mod_cast hinv.2 hnil)

/-- Threads 3 and 4 wait for two interpreters in use; one is put back, and thread 3
is on its way. -/
theorem no_lost_wakeup_two : ∃ s : Monitor ℕ,
    (s.waiters.sleeping = [4] ∧ s.waiters.woken = [3] ∧ s.pool.idle = some 1) ∧
      ∃ idle, IsList s.pool.cell s.pool.idle idle ∧
        min idle.length s.waiters.sleeping.length ≤ s.waiters.woken.length := by
  obtain ⟨s, hs, hprop⟩ : ∃ s : Monitor ℕ,
      Reachable (tipoolStep { TipoolConfig.default with start := 2, max := 2 }) Always .new s ∧
        s.waiters.sleeping = [4] ∧ s.waiters.woken = [3] ∧ s.pool.idle = some 1 :=
    Reachable.exists_of_run (Reachable.runOk_always [.init [(1, 11), (2, 12)], .pop 1 (3, 13),
      .pop 2 (3, 13), .pop 3 (3, 13), .pop 4 (3, 13), .putback 1 1 (3, 13) (some 3)])
      (by decide +kernel)
  exact ⟨s, hprop, no_lost_wakeup hs⟩

/-- From a state in which every item is in use although the pool may grow, and
somebody waits, the woken threads go back to sleep one after the other. -/
theorem exists_stalled {cfg : TipoolConfig} {s : Monitor Item}
    (hwait : s.waiters.sleeping ≠ [] ∨ s.waiters.woken ≠ []) (hused : s.pool.size = s.pool.inUse)
    (hroom : s.pool.size < cfg.max) :
    ∃ s', Reachable (tipoolStep cfg) Always s s' ∧ Stalled cfg s' := by
  cases hwoken : s.waiters.woken with
  | nil => exact ⟨s, .start, by simpa [hwoken] using hwait, hwoken, hused, hroom⟩
  | cons t rest =>
      let w := (s.waiters.resume t).sleep t
      have hstep : tipoolStep cfg s (.resume t) = some { s with waiters := w } := by
        have ht : TipoolAllowed s (.resume t) := by simp [TipoolAllowed, hwoken]
        simp [tipoolStep, ht, tipoolExec, Monitor.waitOrTake, mustWait, hused, w]
      have hdec : w.woken.length < s.waiters.woken.length := by
        simp [w, Waiters.sleep, Waiters.resume, hwoken]
      obtain ⟨s', hs', hstalled⟩ := exists_stalled (s := { s with waiters := w })
        (.inl (by simp [w, Waiters.sleep])) hused hroom
      exact ⟨s', (Reachable.step _ .start trivial hstep).trans hs', hstalled⟩
termination_by s.waiters.woken.length

/-- If no signal is wasted then no thread is left asleep while the pool may
grow.  A wasted signal leads there, when the other woken threads run. -/
theorem no_wait_while_pool_may_grow {cfg : TipoolConfig} :
    (∀ s : Monitor Item, Reachable (tipoolStep cfg) (WakeupServes cfg) .new s → ¬Stalled cfg s) ∧
      ∀ (s : Monitor Item) (a : TipoolAct Item), Reachable (tipoolStep cfg) Always .new s →
        TipoolAllowed s a → ¬WakeupServes cfg s a →
        ∃ s', Reachable (tipoolStep cfg) Always s s' ∧ Stalled cfg s' := by
  constructor
  · rintro s h ⟨hsleep, hwoken, hused, hroom⟩
    obtain ⟨m, hm, hrep⟩ := tipool_simulates (fun m a => ¬m.Wasted cfg a)
      (fun _ _ _ _ hrep hmatch hok => hrep.not_wasted hmatch hok) h
    have hinv : m.Bounded cfg ∧ m.GrowthCovered cfg :=
      hm.invariant (I := fun m => m.Bounded cfg ∧ m.GrowthCovered cfg)
        ⟨.new, Waiters.Covers.of_sleeping_eq_nil rfl⟩
        fun _ _ _ _ hi hok hs => ⟨hi.1.step hs, hi.2.step hi.1 hok hs⟩
    have hcover := hinv.2 (hrep.waiters ▸ hsleep)
    rw [← hrep.waiters, hwoken, ← hrep.pool.inUse] at hcover
    simp only [List.length_nil] at hcover
    omega
  · intro s a h hallowed hok
    cases a with
    | resume t =>
        obtain ⟨hused, hroom⟩ := not_not.mp hok
        exact exists_stalled (.inr (List.ne_nil_of_mem hallowed)) hused hroom
    | _ => exact absurd trivial hok

/-- Two interpreters, neither of which is kept as a spare. -/
def twoNoSpare : TipoolConfig := { TipoolConfig.default with start := 2, max := 2, maxSpare := 0 }

/-- Threads 1 and 2 use both interpreters, threads 3 and 4 wait.  The first
putback keeps its item (`in_use == max - 1`), the second one destroys its own;
thread 3 gets the item that is left, and thread 4 sleeps although one more
interpreter is allowed. -/
def stallingRun : List (TipoolAct ℕ) :=
  [.init [(1, 11), (2, 12)], .pop 1 (3, 13), .pop 2 (3, 13), .pop 3 (3, 13), .pop 4 (3, 13),
    .putbackData 11 1 (3, 13) (some 3), .putbackData 12 1 (3, 13) (some 4), .resume 3, .resume 4]

/-- Until thread 4 runs no signal is wasted, and its own is. -/
theorem no_wait_while_pool_may_grow_two : ∃ s : Monitor ℕ,
    s.waiters.woken = [4] ∧ ¬Stalled twoNoSpare s ∧
      ∃ s', Reachable (tipoolStep twoNoSpare) Always s s' ∧ Stalled twoNoSpare s' := by
  obtain ⟨s, hs, hwoken, hallowed, hwasted⟩ : ∃ s : Monitor ℕ,
      Reachable (tipoolStep twoNoSpare) (WakeupServes twoNoSpare) .new s ∧
        s.waiters.woken = [4] ∧ TipoolAllowed s (.resume 4) ∧
          ¬WakeupServes twoNoSpare s (.resume 4) :=
    Reachable.exists_of_run (show runOk _ _ _ (stallingRun.take 8) by decide +kernel)
      (by decide +kernel)
  exact ⟨s, hwoken, no_wait_while_pool_may_grow.1 s hs,
    no_wait_while_pool_may_grow.2 s _ hs.always hallowed hwasted⟩

/-- The pool stalls. -/
theorem tipool_stalls :
    ∃ s : Monitor ℕ, Reachable (tipoolStep twoNoSpare) Always .new s ∧ Stalled twoNoSpare s := by
  exact Reachable.exists_of_run (Reachable.runOk_always stallingRun) (by decide +kernel)

end ModPerl
