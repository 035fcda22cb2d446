import ModPerl.Library.CondVar
import ModPerl.Library.Machine
import ModPerl.Tipool.Refinement

/-!
# Threads at the pool

The pool as any number of threads use it: every critical section under `tiplock`
is one step, and `COND_WAIT` splits `modperl_tipool_pop` at its wait loop.  A
thread that finds every item in use goes to sleep; a putback signals one of the
sleeping threads (`modperl_tipool_broadcast` is `COND_SIGNAL`); a woken thread
tests the condition of the loop again when it gets the lock, after any steps of
other threads.

`tipoolStep` runs the functions of `modperl_tipool.c` in memory.  `itemStep`
does the same with the operations of `ItemPool`, and `tipool_simulates` shows
that every state of the first machine represents a state of the second.
-/

namespace ModPerl

open DoublyLinked CondVar Machine

abbrev Thread := ℕ

variable {Item : Type}

/-! ## The pool in memory -/

/-- The shared state: the pool, what has been popped and not yet put back, and
the threads at the condition variable `available`. -/
structure Monitor (Item : Type) where
  pool : Tipool Item
  held : List (Addr × Item)
  waiters : Waiters Thread
  /-- A thread has called `modperl_tipool_pop`. -/
  serving : Bool

/-- A critical section.  The last argument of a putback is the thread that its
signal picks; `fresh` is what the allocator and the grow callback would return. -/
inductive TipoolAct (Item : Type) where
  | init (fresh : List (Addr × Item))
  | pop (thread : Thread) (fresh : Addr × Item)
  | resume (thread : Thread)
  | spurious (thread : Thread)
  | putback (listp : Addr) (numRequests : ℤ) (fresh : Addr × Item) (pick : Option Thread)
  | putbackData (data : Item) (numRequests : ℤ) (fresh : Addr × Item) (pick : Option Thread)

namespace Monitor

/-- After `modperl_tipool_new`. -/
def new : Monitor Item := ⟨tipoolNew, [], .none, false⟩

/-- The thread holds the lock, before the test of the wait loop. -/
def waitOrTake (s : Monitor Item) (thread : Thread) : Option (Monitor Item) :=
  if mustWait s.pool then some { s with waiters := s.waiters.sleep thread }
  else do
    let (pool, listp) ← tipoolTake s.pool
    let c ← pool.cell listp
    let data ← c.data
    some { s with pool := pool, held := s.held ++ [(listp, data)] }

variable [DecidableEq Item]

/-- The end of a putback: the item is no longer held, and the signal is delivered. -/
def afterPutback (s : Monitor Item) (x : Addr × Item) (pick : Option Thread) :
    Tipool Item × Bool → Option (Monitor Item)
  | (pool, signal) =>
      some { s with
        pool := pool, held := s.held.erase x,
        waiters := if signal then s.waiters.signal pick else s.waiters }

end Monitor

variable [DecidableEq Item]

/-- What the callers promise.  The pool is filled at start-up only (by
`modperl_init_clones`, before any thread serves), a waiting thread does nothing
else, and what is put back was popped and not yet put back. -/
def TipoolAllowed (s : Monitor Item) : TipoolAct Item → Prop
  | .init _ => s.serving = false
  | .pop thread _ => ¬s.waiters.Blocked thread
  | .resume thread => thread ∈ s.waiters.woken
  | .spurious thread => thread ∈ s.waiters.sleeping
  | .putback listp _ _ pick => listp ∈ s.held.map Prod.fst ∧ s.waiters.MayPick pick
  | .putbackData data _ _ pick => data ∈ s.held.map Prod.snd ∧ s.waiters.MayPick pick

instance (s : Monitor Item) : ∀ a, Decidable (TipoolAllowed s a)
  | .init _ => inferInstanceAs (Decidable (_ = _))
  | .pop _ _ => inferInstanceAs (Decidable (¬_))
  | .resume _ => inferInstanceAs (Decidable (_ ∈ _))
  | .spurious _ => inferInstanceAs (Decidable (_ ∈ _))
  | .putback _ _ _ _ => inferInstanceAs (Decidable (_ ∧ _))
  | .putbackData _ _ _ _ => inferInstanceAs (Decidable (_ ∧ _))

/-- What the allocator promises: memory that is not in use. -/
def FreshFor (cfg : TipoolConfig) (t : Tipool Item) : TipoolAct Item → Prop
  | .init fresh => Repr.FreshList t cfg.start.toNat fresh
  | .pop _ fresh => Fresh t fresh
  | .resume _ => True
  | .spurious _ => True
  | .putback _ _ fresh _ => Fresh t fresh
  | .putbackData _ _ fresh _ => Fresh t fresh

/-- The code of one critical section. -/
def tipoolExec (cfg : TipoolConfig) (s : Monitor Item) : TipoolAct Item → Option (Monitor Item)
  | .init fresh =>
      -- `modperl_init_clones` leaves a pool alone that is already filled
      if s.pool.idle.isSome then some s
      else do
        let pool ← tipoolInit cfg s.pool fresh
        some { s with pool := pool }
  | .pop thread fresh => do
      let pool ← tipoolGrow cfg s.pool fresh
      ({ s with pool := pool, serving := true } : Monitor Item).waitOrTake thread
  | .resume thread =>
      ({ s with waiters := s.waiters.resume thread } : Monitor Item).waitOrTake thread
  | .spurious thread =>
      ({ s with waiters := s.waiters.spurious thread } : Monitor Item).waitOrTake thread
  | .putback listp numRequests fresh pick => do
      let x ← s.held.find? (·.1 = listp)
      let r ← tipoolPutback cfg s.pool listp numRequests fresh
      s.afterPutback x pick r
  | .putbackData data numRequests fresh pick => do
      let x ← s.held.find? (·.2 = data)
      let r ← tipoolPutbackData cfg s.pool data numRequests fresh
      s.afterPutback x pick r

/-- A step of the machine.  It fails on an action that the callers do not make,
and where the code faults. -/
def tipoolStep (cfg : TipoolConfig) (s : Monitor Item) (a : TipoolAct Item) :
    Option (Monitor Item) :=
  if TipoolAllowed s a then tipoolExec cfg s a else none

/-! ## The item pool -/

/-- The same machine over an item pool. -/
structure ItemMonitor (α : Type*) where
  pool : ItemPool α
  waiters : Waiters Thread
  serving : Bool

inductive ItemAct (α : Type*) where
  | init (fresh : List α)
  | pop (thread : Thread) (fresh : α)
  | resume (thread : Thread)
  | spurious (thread : Thread)
  | putback (a : α) (numRequests : ℤ) (fresh : α) (pick : Option Thread)

namespace ItemMonitor

variable {α : Type*}

def new : ItemMonitor α := ⟨.empty, .none, false⟩

def waitOrTake (m : ItemMonitor α) (thread : Thread) : ItemMonitor α :=
  match m.pool.take with
  | some (_, pool) => { m with pool := pool }
  | none => { m with waiters := m.waiters.sleep thread }

end ItemMonitor

variable {α : Type*} [DecidableEq α]

def itemStep (cfg : TipoolConfig) (m : ItemMonitor α) : ItemAct α → Option (ItemMonitor α)
  | .init fresh =>
      if m.serving = false ∧ m.pool.idle = [] ∧ fresh.length = cfg.start.toNat then
        some { m with pool := ⟨fresh, m.pool.busy⟩ }
      else none
  | .pop thread fresh =>
      if m.waiters.Blocked thread then none
      else some (({ m with pool := m.pool.grow cfg fresh, serving := true } :
        ItemMonitor α).waitOrTake thread)
  | .resume thread =>
      if thread ∈ m.waiters.woken then
        some (({ m with waiters := m.waiters.resume thread } : ItemMonitor α).waitOrTake thread)
      else none
  | .spurious thread =>
      if thread ∈ m.waiters.sleeping then
        some (({ m with waiters := m.waiters.spurious thread } : ItemMonitor α).waitOrTake thread)
      else none
  | .putback a numRequests fresh pick =>
      if a ∈ m.pool.busy ∧ m.waiters.MayPick pick then
        some { m with
          pool := m.pool.putback cfg numRequests fresh a, waiters := m.waiters.signal pick }
      else none

/-! ## Every state in memory represents a state over an item pool -/

/-- The state in memory represents the state over an item pool. -/
structure Represents (s : Monitor Item) (m : ItemMonitor (Addr × Item)) : Prop where
  pool : Repr s.pool m.pool
  held : s.held.Perm m.pool.busy
  waiters : s.waiters = m.waiters
  serving : s.serving = m.serving

/-- The two machines do the same thing. -/
inductive TipoolAct.Matches : TipoolAct Item → ItemAct (Addr × Item) → Prop
  | init {fresh n} : Matches (.init fresh) (.init (fresh.take n))
  | pop {t fresh} : Matches (.pop t fresh) (.pop t fresh)
  | resume {t} : Matches (.resume t) (.resume t)
  | spurious {t} : Matches (.spurious t) (.spurious t)
  | putback {x n fresh pick} : Matches (.putback x.1 n fresh pick) (.putback x n fresh pick)
  | putbackData {x n fresh pick} :
      Matches (.putbackData x.2 n fresh pick) (.putback x n fresh pick)

namespace Represents

variable {cfg : TipoolConfig} {s s' : Monitor Item} {m : ItemMonitor (Addr × Item)}
  {x fresh : Addr × Item} {n : ℤ} {pick : Option Thread} {t : Thread}

omit [DecidableEq Item]

theorem new : Represents (.new : Monitor Item) .new := ⟨.new, .rfl, rfl, rfl⟩

/-- After the wait loop there is an idle item, and the thread gets it. -/
theorem exists_waitOrTake (h : Represents s m) (t : Thread) :
    ∃ s', s.waitOrTake t = some s' ∧ Represents s' (m.waitOrTake t) := by
  unfold Monitor.waitOrTake ItemMonitor.waitOrTake ItemPool.take
  cases hidle : m.pool.idle with
  | nil =>
      rw [if_pos (h.pool.mustWait_iff.mpr hidle)]
      exact ⟨_, rfl, ⟨h.pool, h.held, by rw [h.waiters], h.serving⟩⟩
  | cons x rest =>
      have hwait : ¬mustWait s.pool = true := fun hw => by
        simp [h.pool.mustWait_iff.mp hw] at hidle
      obtain ⟨pool, htake, hpool⟩ := h.pool.take hidle
      obtain ⟨c, hc, hdata⟩ := hpool.exists_cell (x := x) (by simp [ItemPool.all])
      refine ⟨{ s with pool := pool, held := s.held ++ [x] }, ?_, ⟨hpool, ?_, h.waiters, h.serving⟩⟩
      · simp only [if_neg hwait, Option.bind_eq_bind, htake, Option.bind_some, hc, hdata]
      · exact h.held.append_right [x]

/-- What is put back is found among what is held. -/
theorem find_held (h : Represents s m) (hx : x ∈ s.held) {test : Addr × Item → Bool}
    (htest : test x = true) (hinj : ∀ y ∈ m.pool.all, test y = true → y = x) :
    s.held.find? test = some x := by
  have hfound : (s.held.find? test).isSome := List.find?_isSome.mpr ⟨x, hx, htest⟩
  obtain ⟨y, hy⟩ := Option.isSome_iff_exists.mp hfound
  have hbusy := h.held.mem_iff.mp (List.mem_of_find?_eq_some hy)
  rw [hy, hinj y (List.mem_append_right _ hbusy) (List.find?_some hy)]

theorem find_fst (h : Represents s m) (hx : x ∈ s.held) :
    s.held.find? (·.1 = x.1) = some x :=
  h.find_held hx (decide_eq_true rfl) fun _ hy heq =>
    h.pool.eq_of_fst hy (List.mem_append_right _ (h.held.mem_iff.mp hx)) (of_decide_eq_true heq)

theorem resume (h : Represents s m) :
    Represents { s with waiters := s.waiters.resume t }
      { m with waiters := m.waiters.resume t } :=
  ⟨h.pool, h.held, by rw [h.waiters], h.serving⟩

theorem spurious (h : Represents s m) :
    Represents { s with waiters := s.waiters.spurious t }
      { m with waiters := m.waiters.spurious t } :=
  ⟨h.pool, h.held, by rw [h.waiters], h.serving⟩

variable [DecidableEq Item]

theorem find_snd (h : Represents s m) (hx : x ∈ s.held) :
    s.held.find? (·.2 = x.2) = some x :=
  h.find_held hx (decide_eq_true rfl) fun _ hy heq =>
    h.pool.eq_of_snd hy (List.mem_append_right _ (h.held.mem_iff.mp hx)) (of_decide_eq_true heq)

theorem grow (h : Represents s m) {pool : Tipool Item}
    (hpool : tipoolGrow cfg s.pool fresh = some pool) :
    Represents { s with pool := pool, serving := true }
      { m with pool := m.pool.grow cfg fresh, serving := true } := by
  refine ⟨h.pool.grow hpool, ?_, h.waiters, rfl⟩
  rcases ItemPool.grow_cases cfg fresh m.pool with ⟨-, -, heq⟩ | ⟨-, heq⟩ <;>
    simpa only [heq] using h.held

/-- Both putbacks, on what is held. -/
theorem putbackBase (h : Represents s m) (hx : x ∈ s.held) (hpick : s.waiters.MayPick pick)
    {listp : Option Addr} {data : Option Item} (hnames : Repr.Names listp data x)
    {r : Tipool Item × Bool} (hr : tipoolPutbackBase cfg s.pool listp data n fresh = some r)
    (hs' : s.afterPutback x pick r = some s') :
    ∃ m', itemStep cfg m (.putback x n fresh pick) = some m' ∧ Represents s' m' := by
  obtain ⟨pool, signal⟩ := r
  have hbusy := h.held.mem_iff.mp hx
  obtain ⟨rfl, hpool⟩ := h.pool.putbackBase hbusy hnames hr
  obtain rfl := Option.some.inj hs'
  refine ⟨_, if_pos ⟨hbusy, h.waiters ▸ hpick⟩, hpool, ?_, by simp [h.waiters], h.serving⟩
  obtain ⟨xs, ys, -, hsplit, hrelease⟩ := ItemPool.exists_release hbusy
  have hperm : (x :: s.held.erase x).Perm (x :: (xs ++ ys)) :=
    (List.perm_cons_erase hx).symm.trans (h.held.trans (hsplit ▸ List.perm_middle))
  simpa [ItemPool.putback_release, hrelease] using hperm.cons_inv

/-- One step of the first machine is one step of the second, or none if the pool is to be filled
again. -/
theorem step {a : TipoolAct Item} (h : Represents s m) (hs : tipoolStep cfg s a = some s') :
    (∃ fresh, a = .init fresh) ∧ s' = s ∨
      ∃ a' m', a.Matches a' ∧ itemStep cfg m a' = some m' ∧ Represents s' m' := by
  unfold tipoolStep at hs
  split_ifs at hs with hallowed
  cases a with
  | init fresh =>
      simp only [tipoolExec] at hs
      split_ifs at hs with hidle
      · exact .inl ⟨⟨fresh, rfl⟩, (Option.some.inj hs).symm⟩
      · obtain ⟨pool, hpool, hs⟩ := Option.bind_eq_some_iff.mp hs
        obtain rfl := Option.some.inj hs
        obtain ⟨hle, hrepr⟩ := h.pool.initLoop hpool
        have hnil : m.pool.idle = [] := by
          have := h.pool.idle.head_eq
          cases hi : m.pool.idle with
          | nil => rfl
          | cons x rest => simp [hi, this] at hidle
        refine .inr ⟨_, _, .init (n := cfg.start.toNat),
          if_pos ⟨h.serving ▸ hallowed, hnil, ?_⟩, ?_⟩
        · exact ⟨by simpa [hnil] using hrepr, h.held, h.waiters, h.serving⟩
        · rw [List.length_take, min_eq_left hle]
  | pop t fresh =>
      obtain ⟨pool, hpool, hs⟩ := Option.bind_eq_some_iff.mp hs
      obtain ⟨s₁, hs₁, hrep⟩ := (h.grow hpool).exists_waitOrTake t
      obtain rfl := Option.some.inj (hs.symm.trans hs₁)
      exact .inr ⟨_, _, .pop, if_neg (h.waiters ▸ hallowed), hrep⟩
  | resume t =>
      obtain ⟨s₁, hs₁, hrep⟩ := (h.resume (t := t)).exists_waitOrTake t
      obtain rfl := Option.some.inj (hs.symm.trans hs₁)
      exact .inr ⟨_, _, .resume, if_pos (h.waiters ▸ hallowed), hrep⟩
  | spurious t =>
      obtain ⟨s₁, hs₁, hrep⟩ := (h.spurious (t := t)).exists_waitOrTake t
      obtain rfl := Option.some.inj (hs.symm.trans hs₁)
      exact .inr ⟨_, _, .spurious, if_pos (h.waiters ▸ hallowed), hrep⟩
  | putback listp n fresh pick =>
      obtain ⟨hmem, hpick⟩ := hallowed
      obtain ⟨x, hx, rfl⟩ := List.mem_map.mp hmem
      simp only [tipoolExec, h.find_fst hx, Option.bind_eq_bind, Option.bind_some] at hs
      obtain ⟨r, hr, hs⟩ := Option.bind_eq_some_iff.mp hs
      -- the item is found by its list, or by its data; then both are put back alike
      obtain ⟨m', hm', hrep⟩ := h.putbackBase hx hpick (.inl rfl) hr hs
      exact .inr ⟨_, m', .putback, hm', hrep⟩
  | putbackData data n fresh pick =>
      obtain ⟨hmem, hpick⟩ := hallowed
      obtain ⟨x, hx, rfl⟩ := List.mem_map.mp hmem
      simp only [tipoolExec, h.find_snd hx, Option.bind_eq_bind, Option.bind_some] at hs
      obtain ⟨r, hr, hs⟩ := Option.bind_eq_some_iff.mp hs
      obtain ⟨m', hm', hrep⟩ := h.putbackBase hx hpick (.inr ⟨rfl, rfl⟩) hr hs
      exact .inr ⟨_, m', .putbackData, hm', hrep⟩

/-- No action that the callers make faults: the code dereferences no null or
freed pointer, every traversal ends, and the `PANIC` branch is not taken. -/
theorem exists_step (h : Represents s m) {a : TipoolAct Item} (hallowed : TipoolAllowed s a)
    (hfresh : FreshFor cfg s.pool a) : ∃ s', tipoolStep cfg s a = some s' := by
  unfold tipoolStep
  rw [if_pos hallowed]
  cases a with
  | init fresh =>
      simp only [tipoolExec]
      split_ifs
      · exact ⟨s, rfl⟩
      · obtain ⟨pool, hpool⟩ := h.pool.initLoop_isSome hfresh
        exact ⟨_, by rw [tipoolInit, hpool]; rfl⟩
  | pop t fresh =>
      obtain ⟨pool, hpool⟩ : ∃ pool, tipoolGrow cfg s.pool fresh = some pool :=
        h.pool.grow_isSome hfresh
      have h₁ := (h.grow hpool).exists_waitOrTake t
      exact h₁.imp fun s' hs' => by rw [tipoolExec, hpool]; exact hs'.1
  | resume t => exact (h.resume.exists_waitOrTake t).imp fun _ hs' => hs'.1
  | spurious t => exact (h.spurious.exists_waitOrTake t).imp fun _ hs' => hs'.1
  | putback listp n fresh pick =>
      obtain ⟨x, hx, rfl⟩ := List.mem_map.mp hallowed.1
      obtain ⟨r, hr⟩ : ∃ r, tipoolPutbackBase cfg s.pool (some x.1) none n fresh = some r :=
        h.pool.putbackBase_isSome (h.held.mem_iff.mp hx) (.inl rfl) hfresh
      exact ⟨_, by rw [tipoolExec, h.find_fst hx, tipoolPutback, hr]; rfl⟩
  | putbackData data n fresh pick =>
      obtain ⟨x, hx, rfl⟩ := List.mem_map.mp hallowed.1
      obtain ⟨r, hr⟩ : ∃ r, tipoolPutbackBase cfg s.pool none (some x.2) n fresh = some r :=
        h.pool.putbackBase_isSome (h.held.mem_iff.mp hx) (.inr ⟨rfl, rfl⟩) hfresh
      exact ⟨_, by rw [tipoolExec, h.find_snd hx, tipoolPutbackData, hr]; rfl⟩

end Represents

/-- Every state the machine in memory reaches represents a state that the one
over item pools reaches, under any guards that agree. -/
theorem tipool_simulates {cfg : TipoolConfig} {s : Monitor Item}
    {ok : Monitor Item → TipoolAct Item → Prop}
    (ok' : ItemMonitor (Addr × Item) → ItemAct (Addr × Item) → Prop)
    (hguard : ∀ s m a a', Represents s m → a.Matches a' → ok s a → ok' m a')
    (h : Reachable (tipoolStep cfg) ok .new s) :
    ∃ m, Reachable (itemStep cfg) ok' .new m ∧ Represents s m := by
  refine h.simulation .new fun s a s' m _ hrep hok hs => ?_
  rcases hrep.step hs with ⟨-, rfl⟩ | ⟨a', m', hmatch, hm', hrep'⟩
  · exact ⟨m, .start, hrep⟩
  · exact ⟨m', .step a' .start (hguard _ _ _ _ hrep hmatch hok) hm', hrep'⟩

end ModPerl
