import Mathlib.Data.Int.Basic
import Mathlib.Algebra.Order.Ring.Int
import ModPerl.Tipool.List

/-!
# The thread item pool

`modperl_tipool_t` and the functions of `modperl_tipool.c`, each as one critical
section under `tiplock`.  The pool is kept together with the memory it works on:
the list cells, how many of them are allocated, and the items that the grow
callback has created and the destroy callback has not yet destroyed.

`modperl_tipool_pop` is cut at its wait loop: `tipoolGrow` is what it does before
the loop, `mustWait` the condition of the loop (`modperl_tipool_wait`), and
`tipoolTake` what it does after it.  The callbacks are those of
`interp_pool_func`, whose slots are all filled.  Addresses that `malloc` returns
are arguments; a function fails on one that is still in use.
-/

namespace ModPerl

open DoublyLinked

/-- `modperl_tipool_config_t` -/
structure TipoolConfig where
  start : ℤ
  minSpare : ℤ
  maxSpare : ℤ
  max : ℤ
  maxRequests : ℤ
  deriving DecidableEq

/-- The values set by `modperl_config_srv_create`. -/
def TipoolConfig.default : TipoolConfig where
  start := 3
  minSpare := 3
  maxSpare := 3
  max := 5
  maxRequests := 2000

/-- `modperl_tipool_t` with the memory its lists and items live in. -/
structure Tipool (Item : Type) where
  cell : ListHeap Item
  cells : ℕ
  items : List Item
  idle : Option Addr
  busy : Option Addr
  inUse : ℤ
  size : ℤ

variable {Item : Type} [DecidableEq Item]

/-- `modperl_tipool_new` -/
def tipoolNew : Tipool Item where
  cell := fun _ => none
  cells := 0
  items := []
  idle := none
  busy := none
  inUse := 0
  size := 0

/-- `modperl_tipool_add`; the new list cell is at `a`. -/
def tipoolAdd (t : Tipool Item) (a : Addr) (data : Item) : Option (Tipool Item) := do
  let h ← listNew t.cell a
  let h := write h a fun c => { c with data := some data }
  let (h, idle) ← listAppend (t.cells + 1) h t.idle (some a)
  some { t with cell := h, cells := t.cells + 1, idle := idle, size := t.size + 1 }

/-- The grow callback of the pool followed by `modperl_tipool_add`. -/
def tipoolGrowAdd (t : Tipool Item) (fresh : Addr × Item) : Option (Tipool Item) :=
  if fresh.2 ∈ t.items then none
  else tipoolAdd { t with items := fresh.2 :: t.items } fresh.1 fresh.2

/-- `modperl_tipool_init`: the loop with `n` rounds left. -/
def tipoolInitLoop : ℕ → Tipool Item → List (Addr × Item) → Option (Tipool Item)
  | 0, t, _ => some t
  | _ + 1, _, [] => none
  | n + 1, t, fresh :: rest => do
      let t ← tipoolGrowAdd t fresh
      tipoolInitLoop n t rest

/-- `modperl_tipool_init` -/
def tipoolInit (cfg : TipoolConfig) (t : Tipool Item) (fresh : List (Addr × Item)) :
    Option (Tipool Item) :=
  tipoolInitLoop cfg.start.toNat t fresh

/-- `modperl_tipool_remove` -/
def tipoolRemove (t : Tipool Item) (listp : Addr) : Option (Tipool Item) := do
  let (h, idle) ← listRemove t.cells t.cell t.idle (some listp)
  some { t with cell := h, idle := idle, size := t.size - 1 }

/-- `modperl_tipool_pop` before its wait loop: grow when every item is in use. -/
def tipoolGrow (cfg : TipoolConfig) (t : Tipool Item) (fresh : Addr × Item) :
    Option (Tipool Item) :=
  if t.size = t.inUse then
    if t.size < cfg.max then tipoolGrowAdd t fresh else some t
  else some t

/-- The condition of the loop in `modperl_tipool_wait`. -/
def mustWait (t : Tipool Item) : Bool := t.size = t.inUse

/-- `modperl_tipool_pop` after its wait loop.  The last line is the `PANIC` branch. -/
def tipoolTake (t : Tipool Item) : Option (Tipool Item × Addr) := do
  let head := t.idle
  let (h, idle) ← listRemove t.cells t.cell t.idle head
  let (h, busy) ← listAppend t.cells h t.busy head
  let t := { t with cell := h, idle := idle, busy := busy, inUse := t.inUse + 1 }
  let head ← head
  some (t, head)

/-- The destroy callback on `listp->data`, and `free(listp)`. -/
def tipoolDestroyItem (t : Tipool Item) (listp : Addr) : Option (Tipool Item) := do
  let c ← t.cell listp
  let data ← c.data
  some { t with
    cell := Function.update t.cell listp none
    cells := t.cells - 1
    items := t.items.erase data }

/-- The end of `modperl_tipool_putback_base`: shrinking the pool, and growing it again. -/
def tipoolManage (cfg : TipoolConfig) (t : Tipool Item) (listp : Addr) (numRequests : ℤ)
    (fresh : Addr × Item) : Option (Tipool Item) :=
  let maxSpare := t.size - t.inUse > cfg.maxSpare
  let maxRequests := numRequests > 0 ∧ numRequests > cfg.maxRequests
  if maxSpare ∨ maxRequests then do
    let t ← tipoolRemove t listp
    let t ← tipoolDestroyItem t listp
    if maxRequests ∧ t.size - t.inUse < cfg.minSpare then tipoolGrowAdd t fresh else some t
  else some t

/-- The beginning of `modperl_tipool_putback_base`: take the cell off the busy
list, found by itself or by its data. -/
def tipoolUnbusy (t : Tipool Item) (listp : Option Addr) (data : Option Item) :
    Option (Tipool Item × Option Addr) :=
  match listp, data with
  | some listp, _ => do
      let (h, busy) ← listRemove t.cells t.cell t.busy (some listp)
      some ({ t with cell := h, busy := busy }, some listp)
  | none, some data => do
      let (h, busy, listp) ← listRemoveData t.cells t.cell t.busy data
      some ({ t with cell := h, busy := busy }, listp)
  | none, none => none

/-- `modperl_tipool_putback_base`; the flag tells whether `modperl_tipool_broadcast` was reached. -/
def tipoolPutbackBase (cfg : TipoolConfig) (t : Tipool Item) (listp : Option Addr)
    (data : Option Item) (numRequests : ℤ) (fresh : Addr × Item) :
    Option (Tipool Item × Bool) := do
  match ← tipoolUnbusy t listp data with
  | (t, none) => some (t, false)
  | (t, some listp) =>
      let (h, idle) ← listPrepend t.cell t.idle (some listp)
      let t := { t with cell := h, idle := idle, inUse := t.inUse - 1 }
      if t.inUse = cfg.max - 1 then some (t, true)
      else do
        let t ← tipoolManage cfg t listp numRequests fresh
        some (t, true)

/-- `modperl_tipool_putback` -/
def tipoolPutback (cfg : TipoolConfig) (t : Tipool Item) (listp : Addr) (numRequests : ℤ)
    (fresh : Addr × Item) : Option (Tipool Item × Bool) :=
  tipoolPutbackBase cfg t (some listp) none numRequests fresh

/-- `modperl_tipool_putback_data` -/
def tipoolPutbackData (cfg : TipoolConfig) (t : Tipool Item) (data : Item) (numRequests : ℤ)
    (fresh : Addr × Item) : Option (Tipool Item × Bool) :=
  tipoolPutbackBase cfg t none (some data) numRequests fresh

end ModPerl
