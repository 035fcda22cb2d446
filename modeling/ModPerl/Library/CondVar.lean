import Mathlib.Algebra.Order.Ring.Int
import Mathlib.Data.List.Basic

/-!
# Condition variables

The threads that wait at a condition variable: those asleep, and those that a
signal has woken and that have not yet got the lock back.  A signal wakes one
sleeping thread, whichever the system picks, and does nothing when none sleeps.
A thread may also return from its wait without a signal.

`Waiters.Covers w n` says that, as long as somebody sleeps, at least `n` threads
are on their way.  A counting argument against lost wake-ups is an invariant of
this form: each rule below says how the bound moves with one operation.
-/

namespace CondVar

variable {T : Type*}

/-- The threads at a condition variable. -/
structure Waiters (T : Type*) where
  sleeping : List T
  woken : List T
  deriving DecidableEq

namespace Waiters

/-- Nobody waits. -/
def none : Waiters T := ⟨[], []⟩

/-- The thread is asleep, or woken and not yet running. -/
def Blocked (w : Waiters T) (t : T) : Prop := t ∈ w.sleeping ∨ t ∈ w.woken

/-- The thread goes to sleep and gives up the lock. -/
def sleep (w : Waiters T) (t : T) : Waiters T := { w with sleeping := w.sleeping ++ [t] }

/-- A signal may pick any sleeping thread, and none only if no thread sleeps. -/
def MayPick (w : Waiters T) : Option T → Prop
  | .none => w.sleeping = []
  | some t => t ∈ w.sleeping

variable [DecidableEq T]

instance (w : Waiters T) (t : T) : Decidable (w.Blocked t) := inferInstanceAs (Decidable (_ ∨ _))

instance (w : Waiters T) : ∀ pick, Decidable (w.MayPick pick)
  | .none => inferInstanceAs (Decidable (_ = _))
  | some _ => inferInstanceAs (Decidable (_ ∈ _))

/-- The effect of a signal that picks the given thread. -/
def signal (w : Waiters T) : Option T → Waiters T
  | .none => w
  | some t => ⟨w.sleeping.erase t, w.woken ++ [t]⟩

/-- A woken thread gets the lock. -/
def resume (w : Waiters T) (t : T) : Waiters T := { w with woken := w.woken.erase t }

/-- A sleeping thread gets the lock without having been signalled. -/
def spurious (w : Waiters T) (t : T) : Waiters T := { w with sleeping := w.sleeping.erase t }

/-- While somebody sleeps, at least `n` threads are on their way. -/
def Covers (w : Waiters T) (n : ℤ) : Prop := w.sleeping ≠ [] → n ≤ w.woken.length

namespace Covers

variable {w : Waiters T} {t : T} {pick : Option T} {n m : ℤ}

omit [DecidableEq T] in
theorem mono (h : w.Covers n) (hle : m ≤ n) : w.Covers m := fun hs => hle.trans (h hs)

omit [DecidableEq T] in
theorem of_sleeping_eq_nil (h : w.sleeping = []) : w.Covers n := fun hs => absurd h hs

/-- A signal raises the bound by one. -/
theorem signal (h : w.Covers n) (hpick : w.MayPick pick) : (w.signal pick).Covers (n + 1) := by
  cases pick with
  | none => exact of_sleeping_eq_nil hpick
  | some t =>
      intro _
      have hn := h (List.ne_nil_of_mem hpick)
      simp only [Waiters.signal, List.length_append, List.length_singleton]
      omega

/-- A woken thread that runs lowers it by one. -/
theorem resume (h : w.Covers n) (ht : t ∈ w.woken) : (w.resume t).Covers (n - 1) := by
  intro hs
  have hn := h hs
  have hpos := List.length_pos_of_mem ht
  simp only [Waiters.resume, List.length_erase_of_mem ht]
  omega

theorem spurious (h : w.Covers n) : (w.spurious t).Covers n := by
  intro hs
  refine h fun hnil => hs ?_
  simp [Waiters.spurious, hnil]

omit [DecidableEq T] in
/-- Going to sleep keeps a bound that does not depend on who sleeps. -/
theorem sleep (h : n ≤ w.woken.length) : (w.sleep t).Covers n := fun _ => h

end Covers

end Waiters

end CondVar
