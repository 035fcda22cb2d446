import ModPerl.Tipool.Pool

/-!
# What the pool is for

`ItemPool` is the pool as its clients think of it: the idle items, in the order
in which they will be handed out, and the busy ones.  Its counters are the
lengths of these lists and it has no memory of its own.  `ItemPool.pop` hands
out an item, a new one if there is none idle and the configuration allows it;
`ItemPool.putback` takes a busy item back and decides whether it is kept.

`Refinement.lean` shows that the functions of `modperl_tipool.c` compute these.
-/

namespace ModPerl

/-- The idle items and the busy items. -/
structure ItemPool (α : Type*) where
  idle : List α
  busy : List α
  deriving DecidableEq

namespace ItemPool

variable {α : Type*}

/-- The empty pool. -/
def empty : ItemPool α := ⟨[], []⟩

/-- All items of the pool. -/
def all (p : ItemPool α) : List α := p.idle ++ p.busy

/-- Before an item is handed out: create one when none is idle and the pool may grow. -/
def grow (cfg : TipoolConfig) (fresh : α) (p : ItemPool α) : ItemPool α :=
  if p.idle = [] ∧ (p.all.length : ℤ) < cfg.max then { p with idle := [fresh] } else p

/-- Hand out the first idle item. -/
def take (p : ItemPool α) : Option (α × ItemPool α) :=
  match p.idle with
  | [] => none
  | a :: rest => some (a, ⟨rest, p.busy ++ [a]⟩)

/-- Hand out an item; `none` when the caller has to wait for one. -/
def pop (cfg : TipoolConfig) (fresh : α) (p : ItemPool α) : Option (α × ItemPool α) :=
  (p.grow cfg fresh).take

/-- A busy item becomes the first idle one. -/
def release [DecidableEq α] (p : ItemPool α) (a : α) : ItemPool α := ⟨a :: p.idle, p.busy.erase a⟩

/-- Is an item that comes back one too many, or worn out? -/
def tooMany (cfg : TipoolConfig) (p : ItemPool α) : Prop := (p.idle.length : ℤ) > cfg.maxSpare

/-- Has the item served more than its share? -/
def wornOut (cfg : TipoolConfig) (numRequests : ℤ) : Prop :=
  numRequests > 0 ∧ numRequests > cfg.maxRequests

instance (cfg : TipoolConfig) (p : ItemPool α) : Decidable (p.tooMany cfg) :=
  inferInstanceAs (Decidable (_ > _))

instance (cfg : TipoolConfig) (n : ℤ) : Decidable (wornOut cfg n) :=
  inferInstanceAs (Decidable (_ ∧ _))

/-- Drop the first idle item when it is one too many or worn out, and replace a
worn-out one when too few are left. -/
def manage (cfg : TipoolConfig) (numRequests : ℤ) (fresh : α) (p : ItemPool α) : ItemPool α :=
  if p.tooMany cfg ∨ wornOut cfg numRequests then
    if wornOut cfg numRequests ∧ (p.idle.tail.length : ℤ) < cfg.minSpare then
      { p with idle := p.idle.tail ++ [fresh] }
    else { p with idle := p.idle.tail }
  else p

/-- Take back a busy item.  With exactly one place left the pool is not managed. -/
def putback [DecidableEq α] (cfg : TipoolConfig) (numRequests : ℤ) (fresh : α) (p : ItemPool α)
    (a : α) : ItemPool α :=
  if (p.busy.length : ℤ) - 1 = cfg.max - 1 then p.release a
  else (p.release a).manage cfg numRequests fresh

/-! ## The items of a pool -/

section Items

variable {cfg : TipoolConfig} {n : ℤ} {fresh a b : α} {p p' : ItemPool α}

theorem grow_cases (cfg : TipoolConfig) (fresh : α) (p : ItemPool α) :
    p.idle = [] ∧ (p.all.length : ℤ) < cfg.max ∧ p.grow cfg fresh = { p with idle := [fresh] } ∨
      (p.idle = [] → cfg.max ≤ (p.all.length : ℤ)) ∧ p.grow cfg fresh = p := by
  unfold grow
  split_ifs with h
  · exact .inl ⟨h.1, h.2, rfl⟩
  · exact .inr ⟨fun hidle => not_lt.mp fun hlt => h ⟨hidle, hlt⟩, rfl⟩

theorem take_eq_some_iff : p.take = some (a, p') ↔
    ∃ rest, p.idle = a :: rest ∧ p' = ⟨rest, p.busy ++ [a]⟩ := by
  unfold take
  cases hidle : p.idle with
  | nil => simp
  | cons b rest =>
      simp only [Option.some.injEq, Prod.mk.injEq, List.cons.injEq]
      constructor
      · rintro ⟨rfl, rfl⟩
        exact ⟨rest, ⟨rfl, rfl⟩, rfl⟩
      · rintro ⟨_, ⟨rfl, rfl⟩, rfl⟩
        exact ⟨rfl, rfl⟩

/-- A popped item was the first idle one, or is the fresh one of a pool that had none idle. -/
theorem pop_cases (h : p.pop cfg fresh = some (a, p')) :
    (∃ rest, p.idle = a :: rest ∧ p' = ⟨rest, p.busy ++ [a]⟩) ∨
      p.idle = [] ∧ a = fresh ∧ p' = ⟨[], p.busy ++ [fresh]⟩ ∧ (p.all.length : ℤ) < cfg.max := by
  obtain ⟨rest, hidle, hp'⟩ := take_eq_some_iff.mp h
  rcases grow_cases cfg fresh p with ⟨hnil, hlt, hgrow⟩ | ⟨-, hgrow⟩
  · rw [hgrow] at hidle hp'
    obtain ⟨rfl, rfl⟩ := List.cons.inj hidle
    exact .inr ⟨hnil, rfl, hp', hlt⟩
  · rw [hgrow] at hidle hp'
    exact .inl ⟨rest, hidle, hp'⟩

/-- Where the released item was among the busy ones. -/
theorem exists_release [DecidableEq α] (h : a ∈ p.busy) :
    ∃ xs ys, a ∉ xs ∧ p.busy = xs ++ a :: ys ∧ p.release a = ⟨a :: p.idle, xs ++ ys⟩ := by
  obtain ⟨xs, ys, hmem, hsplit, herase⟩ := List.exists_erase_eq h
  exact ⟨xs, ys, hmem, hsplit, by rw [release, herase]⟩

/-- What managing the pool can do to the first idle item. -/
theorem manage_cases (cfg : TipoolConfig) (n : ℤ) (fresh : α) (p : ItemPool α) :
    p.manage cfg n fresh = p ∨ p.manage cfg n fresh = { p with idle := p.idle.tail } ∨
      wornOut cfg n ∧ p.manage cfg n fresh = { p with idle := p.idle.tail ++ [fresh] } := by
  unfold manage
  split_ifs with h₁ h₂
  · exact .inr (.inr ⟨h₂.1, rfl⟩)
  · exact .inr (.inl rfl)
  · exact .inl rfl

/-- What putting back an item does: it leaves the busy items, and ends up in
front of the idle ones, or nowhere, or replaced by the fresh one at their end. -/
theorem putback_cases [DecidableEq α] (cfg : TipoolConfig) (n : ℤ) (fresh : α) (p : ItemPool α)
    (a : α) :
    p.putback cfg n fresh a = ⟨a :: p.idle, p.busy.erase a⟩ ∨
      p.putback cfg n fresh a = ⟨p.idle, p.busy.erase a⟩ ∨
      p.putback cfg n fresh a = ⟨p.idle ++ [fresh], p.busy.erase a⟩ := by
  unfold putback
  split_ifs
  · exact .inl rfl
  · rcases manage_cases cfg n fresh (p.release a) with h | h | ⟨-, h⟩
    · exact .inl h
    · exact .inr (.inl h)
    · exact .inr (.inr h)

/-- One busy item less, and at most one idle item more. -/
theorem putback_lengths [DecidableEq α] (cfg : TipoolConfig) (n : ℤ) (fresh : α)
    (h : a ∈ p.busy) :
    (p.putback cfg n fresh a).busy.length + 1 = p.busy.length ∧
      (p.putback cfg n fresh a).idle.length ≤ p.idle.length + 1 := by
  obtain ⟨xs, ys, -, hsplit, hrelease⟩ := exists_release h
  have herase : p.busy.erase a = xs ++ ys := congrArg ItemPool.busy hrelease
  have hlen : xs.length + ys.length + 1 = p.busy.length := by
    rw [hsplit, List.perm_middle.length_eq, List.length_cons, List.length_append]
  rcases putback_cases cfg n fresh p a with heq | heq | heq <;>
    simp only [heq, herase, List.length_cons, List.length_append, List.length_nil] <;> omega

theorem putback_release [DecidableEq α] :
    (p.putback cfg n fresh a).busy = (p.release a).busy := by
  rcases putback_cases cfg n fresh p a with h | h | h <;> rw [h, release]

end Items

end ItemPool

end ModPerl
