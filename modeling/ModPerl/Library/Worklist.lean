import Mathlib.Data.List.Basic

/-!
# Lists that grow while they are worked off

The entries of a list are called one after the other.  A call changes a state,
has a result and may append further entries; certain results end the run.  A
run is cut off after a number of calls, and says whether it had come to its end
by then.

With finitely many entries appended the run ends (`exists_ended`), and a run
that has ended is the same however many more calls it is granted.
-/

namespace Worklist

variable {σ α β : Type*}

/-- What a run has done: the calls with their results, and the entries that were
appended. -/
structure Run (α β : Type*) where
  calls : List (α × β)
  appended : List α
  ended : Bool
  deriving DecidableEq

/-- So many calls, unless the run ends before. -/
def run (call : σ → α → σ × β × List α) (stop : β → Bool) : ℕ → σ → List α → Run α β
  | _, _, [] => ⟨[], [], true⟩
  | 0, _, _ :: _ => ⟨[], [], false⟩
  | n + 1, s, x :: xs =>
      let (s, result, new) := call s x
      if stop result then ⟨[(x, result)], new, true⟩
      else
        let rest := run call stop n s (xs ++ new)
        ⟨(x, result) :: rest.calls, new ++ rest.appended, rest.ended⟩

variable {call : σ → α → σ × β × List α} {stop : β → Bool} {s s' : σ} {x : α} {xs new : List α}
  {result : β} {n : ℕ}

@[simp] theorem run_nil (n : ℕ) (s : σ) : run call stop n s [] = ⟨[], [], true⟩ := by
  cases n <;> rfl

theorem run_stop (hcall : call s x = (s', result, new)) (hstop : stop result = true) :
    run call stop (n + 1) s (x :: xs) = ⟨[(x, result)], new, true⟩ := by
  rw [run, hcall]
  exact if_pos hstop

theorem run_next (hcall : call s x = (s', result, new)) (hstop : stop result = false) :
    run call stop (n + 1) s (x :: xs) =
      ⟨(x, result) :: (run call stop n s' (xs ++ new)).calls,
        new ++ (run call stop n s' (xs ++ new)).appended,
        (run call stop n s' (xs ++ new)).ended⟩ := by
  rw [run, hcall]
  exact if_neg (by rw [hstop]; exact Bool.false_ne_true)

/-- The calls are those of the entries, the first of them and then the appended
ones, each once. -/
theorem calls_initial (n : ℕ) (s : σ) (xs : List α) :
    (run call stop n s xs).calls.map Prod.fst <+: xs ++ (run call stop n s xs).appended := by
  induction n generalizing s xs with
  | zero => cases xs <;> exact List.nil_prefix
  | succ n ih =>
      cases xs with
      | nil => exact List.nil_prefix
      | cons x xs =>
          rcases h : call s x with ⟨s', result, new⟩
          cases hstop : stop result with
          | true =>
              rw [run_stop h hstop]
              exact List.prefix_cons_inj x |>.mpr List.nil_prefix
          | false =>
              rw [run_next h hstop, List.map_cons, List.cons_append, ← List.append_assoc]
              exact List.prefix_cons_inj x |>.mpr (ih s' (xs ++ new))

/-- A run that has not ended has made as many calls as it was granted. -/
theorem length_calls (h : (run call stop n s xs).ended = false) :
    (run call stop n s xs).calls.length = n := by
  induction n generalizing s xs with
  | zero =>
      cases xs with
      | nil => rfl
      | cons x xs => rfl
  | succ n ih =>
      cases xs with
      | nil => cases h
      | cons x xs =>
          rcases hcall : call s x with ⟨s', result, new⟩
          cases hstop : stop result with
          | true =>
              rw [run_stop hcall hstop] at h
              cases h
          | false =>
              rw [run_next hcall hstop] at h ⊢
              rw [List.length_cons, ih h]

/-- If only so many entries are ever appended, the run ends. -/
theorem exists_ended {bound : ℕ}
    (hbound : ∀ n, (run call stop n s xs).appended.length ≤ bound) :
    ∃ n, (run call stop n s xs).ended = true := by
  refine ⟨xs.length + bound + 1, ?_⟩
  by_contra hended
  have hlength := length_calls (eq_false_of_ne_true hended)
  have hinitial := (@calls_initial σ α β call stop (xs.length + bound + 1) s xs).length_le
  rw [List.length_map, List.length_append, hlength] at hinitial
  have := hbound (xs.length + bound + 1)
  omega

end Worklist
