import ModPerl.Perl.Unload
import Mathlib.Algebra.Group.Nat.Defs
import Mathlib.Data.List.ReduceOption

/-!
# Closing the libraries of an interpreter

Before an interpreter is destroyed, `modperl_xs_dl_handles_get` copies the handles of
`@dl_librefs` to an array with a zero behind them; afterwards `modperl_xs_dl_handles_close`
closes the handles up to the zero.  A handle that is zero is passed over when the array is
filled, but its place is kept, and nothing is written there: the other loop reads what
`malloc` has left.

The functions are those of `modperl_util.c`.  A result of `none` is an access to an array
or to an element that is not there, or a reading of a place where nothing was written.
-/

namespace ModPerl

namespace Packages

/-- The loop of `modperl_xs_dl_handles_get` from an index on: the index behind the last one,
and what was written to the array.  An `I32` does not get beyond the largest one. -/
def dlHandlesLoop (modules : List (Option Bytes)) :
    ℕ → List (Option Int) → List (Option Int) → Option (ℕ × List (Option Int))
  | i, [], handles => some (i, handles)
  | _, none :: _, _ => none
  | i, some handle :: librefs, handles =>
      if modules[i]?.join = none ∨ 2 ^ 31 ≤ i + 1 then none
      else
        dlHandlesLoop modules (i + 1) librefs
          (if handle ≠ 0 then handles.set i (some handle) else handles)

/-- `modperl_xs_dl_handles_get`: the array, or none for `NULL`. -/
def dlHandlesGet (p : Packages) : Option (Option (List (Option Int)) × Packages) :=
  match p.getAv "dl_librefs" p.dlLibrefs with
  | none => some (none, p)
  | some [] => some (none, p)
  | some librefs =>
      (p.getAv "dl_modules" p.dlModules).bind fun modules =>
        (dlHandlesLoop modules 0 librefs (List.replicate (librefs.length + 1) none)).map
          fun (i, handles) =>
            (some (handles.set i (some 0)), { p with dlModules := [], dlLibrefs := [] })

/-- The loop of `modperl_xs_dl_handles_close`. -/
def dlCloseLoop : List (Option Int) → List Int → Option (List Int)
  | [], _ => none
  | none :: _, _ => none
  | some handle :: handles, closed =>
      if handle = 0 then some closed else dlCloseLoop handles (closed ++ [handle])

/-- `modperl_xs_dl_handles_close` -/
def dlHandlesClose (p : Packages) : Option (List (Option Int)) → Option Packages
  | none => some p
  | some handles => (dlCloseLoop handles p.closed).map fun closed => { p with closed }

/-- The handles that `DynaLoader` has listed. -/
def listed (p : Packages) : List (Option Int) := (p.getAv "dl_librefs" p.dlLibrefs).getD []

/-- Each handle of the list that is not zero is closed, in the order of the list, and nothing
else is. -/
def ClosesEach (p : Packages) : Prop :=
  ∃ handles p₁ p₂, p.dlHandlesGet = some (handles, p₁) ∧ p₁.dlHandlesClose handles = some p₂ ∧
    p₂.closed = p.closed ++ p.listed.reduceOption.filter (· ≠ 0)

/-- The list has handles only, and a name for each of them, and they can be counted. -/
structure Closable (p : Packages) : Prop where
  handles : ∀ libref ∈ p.listed, ∃ handle, libref = some handle ∧ handle ≠ 0
  names : ∀ i < p.listed.length, ∃ modules ∈ p.getAv "dl_modules" p.dlModules,
    modules[i]?.join ≠ none
  length_lt : p.listed.length < 2 ^ 31

end Packages

open Packages

variable {p : Packages} {modules : List (Option Bytes)} {librefs pre handles : List (Option Int)}
  {values closed : List Int} {i j : ℕ}

/-! ## Filling the array -/

/-- What is at the place of a handle. -/
def slot (handle : Int) : Option Int := if handle ≠ 0 then some handle else none

/-- One place is filled. -/
theorem set_slot (pre : List (Option Int)) (handle : Int) (n : ℕ) :
    (if handle ≠ 0 then (pre ++ List.replicate (n + 1) none).set pre.length (some handle)
      else pre ++ List.replicate (n + 1) none) =
      pre ++ [slot handle] ++ List.replicate n none := by
  rw [List.replicate_succ, List.append_assoc, slot]
  split_ifs
  · rw [List.set_append_right _ _ (Nat.le_refl _), Nat.sub_self]
    rfl
  · rfl

theorem dlHandlesLoop_of (hnames : ∀ k < values.length, modules[pre.length + k]?.join ≠ none)
    (hlength : pre.length + values.length < 2 ^ 31) :
    dlHandlesLoop modules pre.length (values.map some)
        (pre ++ List.replicate (values.length + 1) none) =
      some (pre.length + values.length, pre ++ values.map slot ++ [none]) := by
  induction values generalizing pre with
  | nil => simp [dlHandlesLoop]
  | cons handle values ih =>
      rw [List.length_cons] at hnames hlength
      have hname : modules[pre.length]?.join ≠ none := hnames 0 (Nat.succ_pos _)
      have hgo : ¬(modules[pre.length]?.join = none ∨ 2 ^ 31 ≤ pre.length + 1) := by
        rintro (hnone | hle)
        · exact hname hnone
        · omega
      have hpre : (pre ++ [slot handle]).length = pre.length + 1 := List.length_append
      have hrest := @ih (pre ++ [slot handle]) (fun k hk => by
        rw [hpre, Nat.add_right_comm, Nat.add_assoc]
        exact hnames (k + 1) (Nat.succ_lt_succ hk)) (by rw [hpre]; omega)
      calc dlHandlesLoop modules pre.length ((handle :: values).map some)
            (pre ++ List.replicate ((handle :: values).length + 1) none)
          = dlHandlesLoop modules (pre ++ [slot handle]).length (values.map some)
              (pre ++ [slot handle] ++ List.replicate (values.length + 1) none) := by
            rw [List.map_cons, dlHandlesLoop, if_neg hgo, List.length_cons, set_slot, hpre]
        _ = some ((pre ++ [slot handle]).length + values.length,
              pre ++ [slot handle] ++ values.map slot ++ [none]) := hrest
        _ = some (pre.length + (values.length + 1),
              pre ++ (handle :: values).map slot ++ [none]) := by
            rw [hpre, Nat.add_right_comm, Nat.add_assoc, List.append_assoc pre]
            rfl

/-- A loop that comes to its end has found a handle and a name at each place. -/
theorem dlHandlesLoop_eq_some (h : dlHandlesLoop modules i librefs handles = some (j, pre))
    (hi : i < 2 ^ 31) :
    (∃ values : List Int, librefs = values.map some) ∧
      (∀ k < librefs.length, modules[i + k]?.join ≠ none) ∧ i + librefs.length < 2 ^ 31 := by
  induction librefs generalizing i handles with
  | nil => exact ⟨⟨[], rfl⟩, fun k hk => absurd hk (Nat.not_lt_zero k), hi⟩
  | cons libref librefs ih =>
      cases libref with
      | none => cases h
      | some handle =>
          rw [dlHandlesLoop] at h
          split_ifs at h with hstop
          all_goals
            obtain ⟨hname, hlt⟩ := not_or.mp hstop
            obtain ⟨⟨values, rfl⟩, hnames, hlength⟩ := ih h (Nat.not_le.mp hlt)
            refine ⟨⟨handle :: values, rfl⟩, fun k hk => ?_, ?_⟩
            · cases k with
              | zero => exact hname
              | succ k =>
                  have hk' := hnames k (Nat.lt_of_succ_lt_succ hk)
                  rwa [Nat.add_right_comm, Nat.add_assoc] at hk'
            · rw [List.length_cons]
              omega

/-! ## Closing -/

/-- The handles in front of the zero are closed, if something was written at each place. -/
theorem dlCloseLoop_eq (values closed : List Int) :
    dlCloseLoop (values.map slot ++ [some 0]) closed =
      if 0 ∈ values then none else some (closed ++ values) := by
  induction values generalizing closed with
  | nil => simp [dlCloseLoop]
  | cons handle values ih =>
      by_cases hzero : handle = 0
      · subst hzero
        simp [slot, dlCloseLoop]
      · have hslot : slot handle = some handle := if_pos hzero
        have hmem : 0 ∈ handle :: values ↔ 0 ∈ values := by
          rw [List.mem_cons, or_iff_right (Ne.symm hzero)]
        rw [List.map_cons, hslot, List.cons_append, dlCloseLoop, if_neg hzero, ih]
        simp only [hmem, List.append_assoc, List.singleton_append]

/-! ## Both loops -/

theorem dlHandlesGet_of_cons (h : p.getAv "dl_librefs" p.dlLibrefs = some librefs)
    (hne : librefs ≠ []) :
    p.dlHandlesGet = (p.getAv "dl_modules" p.dlModules).bind fun modules =>
      (dlHandlesLoop modules 0 librefs (List.replicate (librefs.length + 1) none)).map
        fun (i, handles) =>
          (some (handles.set i (some 0)), { p with dlModules := [], dlLibrefs := [] }) := by
  obtain ⟨libref, librefs, rfl⟩ := List.exists_cons_of_ne_nil hne
  rw [dlHandlesGet, h]

/-- What the second loop is given. -/
theorem dlHandlesGet_of_values (h : p.getAv "dl_librefs" p.dlLibrefs = some (values.map some))
    (hne : values ≠ []) (hmodules : p.getAv "dl_modules" p.dlModules = some modules)
    (hnames : ∀ k < values.length, modules[k]?.join ≠ none) (hlength : values.length < 2 ^ 31) :
    p.dlHandlesGet = some (some (values.map slot ++ [some 0]),
      { p with dlModules := [], dlLibrefs := [] }) := by
  have hloop : dlHandlesLoop modules ([] : List (Option Int)).length (values.map some)
      ([] ++ List.replicate (values.length + 1) none) = _ :=
    dlHandlesLoop_of (fun k hk => by
      rw [List.length_nil, Nat.zero_add]
      exact hnames k hk) (by rwa [List.length_nil, Nat.zero_add])
  rw [List.length_nil, List.nil_append, List.nil_append, Nat.zero_add] at hloop
  have hset : (values.map slot ++ [none]).set values.length (some 0) =
      values.map slot ++ [some 0] := by
    rw [List.set_append_right _ _ (Nat.le_of_eq (List.length_map _)), List.length_map, Nat.sub_self]
    rfl
  rw [dlHandlesGet_of_cons h (by simpa using hne), hmodules, Option.bind_some, List.length_map,
    hloop, Option.map_some]
  simp only [hset]

theorem exists_map_some (h : ∀ libref ∈ librefs, ∃ handle, libref = some handle) :
    ∃ values : List Int, librefs = values.map some := by
  induction librefs with
  | nil => exact ⟨[], rfl⟩
  | cons libref librefs ih =>
      obtain ⟨handle, rfl⟩ := h libref List.mem_cons_self
      obtain ⟨values, rfl⟩ := ih fun libref hmem => h libref (List.mem_cons_of_mem _ hmem)
      exact ⟨handle :: values, rfl⟩

theorem reduceOption_map_some (values : List Int) : (values.map some).reduceOption = values := by
  induction values with
  | nil => rfl
  | cons handle values ih => rw [List.map_cons, List.reduceOption_cons_of_some, ih]

/-- Of an empty list nothing is closed. -/
theorem closesEach_of_nil (h : p.listed = []) : p.ClosesEach ∧ p.Closable := by
  have hget : p.dlHandlesGet = some (none, p) := by
    unfold listed at h
    unfold dlHandlesGet
    cases hav : p.getAv "dl_librefs" p.dlLibrefs with
    | none => rfl
    | some librefs =>
        rw [hav, Option.getD_some] at h
        rw [h]
  refine ⟨⟨none, p, p, hget, rfl, ?_⟩, ⟨?_, ?_, ?_⟩⟩ <;> rw [h]
  · exact (List.append_nil _).symm
  · exact fun _ hmem => nomatch hmem
  · exact fun _ hi => nomatch hi
  · exact Nat.two_pow_pos 31

/-- A list that is not empty is the one of `@dl_librefs`. -/
theorem getAv_of_listed (h : p.listed ≠ []) :
    p.getAv "dl_librefs" p.dlLibrefs = some p.listed := by
  unfold listed at h ⊢
  cases hav : p.getAv "dl_librefs" p.dlLibrefs with
  | none =>
      rw [hav] at h
      exact absurd rfl h
  | some librefs => rfl

namespace Packages

/-- A zero in the list is a place that the second loop reads and nobody wrote. -/
theorem ClosesEach.closable (h : p.ClosesEach) : p.Closable := by
  by_cases hne : p.listed = []
  · exact (closesEach_of_nil hne).2
  obtain ⟨handles, p₁, p₂, hget, hclose, -⟩ := h
  have hav := getAv_of_listed hne
  have hloops := hget
  rw [dlHandlesGet_of_cons hav hne] at hloops
  obtain ⟨modules, hmodules, hmap⟩ := Option.bind_eq_some_iff.mp hloops
  obtain ⟨⟨j, handles'⟩, hloop, -⟩ := Option.map_eq_some_iff.mp hmap
  obtain ⟨⟨values, hvalues⟩, hnames, hlength⟩ :=
    dlHandlesLoop_eq_some hloop (Nat.two_pow_pos 31)
  simp only [Nat.zero_add] at hnames hlength
  have hzero : 0 ∉ values := by
    intro hmem
    rw [hvalues] at hav hne
    rw [hvalues, List.length_map] at hnames hlength
    rw [dlHandlesGet_of_values hav (by simpa using hne) hmodules hnames hlength] at hget
    obtain ⟨rfl, rfl⟩ := Prod.mk.inj (Option.some.inj hget)
    rw [dlHandlesClose, dlCloseLoop_eq, if_pos hmem] at hclose
    cases hclose
  refine ⟨fun libref hmem => ?_, fun i hi => ⟨modules, hmodules, hnames i hi⟩, hlength⟩
  rw [hvalues] at hmem
  obtain ⟨handle, hhandle, rfl⟩ := List.mem_map.mp hmem
  exact ⟨handle, rfl, fun heq => hzero (heq ▸ hhandle)⟩

theorem Closable.closesEach (h : p.Closable) : p.ClosesEach := by
  by_cases hne : p.listed = []
  · exact (closesEach_of_nil hne).1
  have hav := getAv_of_listed hne
  have hnames := h.names
  have hlength := h.length_lt
  obtain ⟨values, hvalues⟩ : ∃ values : List Int, p.listed = values.map some :=
    exists_map_some fun libref hmem => (h.handles libref hmem).imp fun _ hhandle => hhandle.1
  have hzero : 0 ∉ values := by
    intro hmem
    obtain ⟨handle, heq, hnot⟩ := h.handles (some 0) (hvalues ▸ List.mem_map_of_mem hmem)
    exact hnot (Option.some.inj heq).symm
  rw [hvalues] at hav hne
  rw [hvalues, List.length_map] at hnames hlength
  have hvalues' : values ≠ [] := by simpa using hne
  obtain ⟨modules, hmodules, -⟩ := hnames 0 (List.length_pos_iff.mpr hvalues')
  have hnames' : ∀ k < values.length, modules[k]?.join ≠ none := by
    intro k hk
    obtain ⟨modules', hmodules', hname⟩ := hnames k hk
    obtain rfl := Option.some.inj (hmodules.symm.trans hmodules')
    exact hname
  have hclose : { p with dlModules := [], dlLibrefs := [] }.dlHandlesClose
      (some (values.map slot ++ [some 0])) =
      some { p with dlModules := [], dlLibrefs := [], closed := p.closed ++ values } := by
    rw [dlHandlesClose, dlCloseLoop_eq, if_neg hzero, Option.map_some]
  refine ⟨_, _, _, dlHandlesGet_of_values hav hvalues' hmodules hnames' hlength, hclose, ?_⟩
  have hfilter : values.filter (· ≠ 0) = values := by
    refine List.filter_eq_self.mpr fun handle hmem => ?_
    have hnot : handle ≠ 0 := fun heq => hzero (heq ▸ hmem)
    simpa using hnot
  rw [hvalues, reduceOption_map_some, hfilter]

end Packages

/-- The two functions close each handle if and only if the list has no zero, and has handles
and names enough. -/
theorem closesEach_iff (p : Packages) : p.ClosesEach ↔ p.Closable :=
  ⟨ClosesEach.closable, Closable.closesEach⟩

/-- A handle that is zero, between two that are not: the first library is closed, and then
the place of the second one is read. -/
theorem closesEach_fails : ¬∀ (p : Packages) (modules : List Bytes) (librefs : List Int),
    p.Parallel modules librefs → p.ClosesEach := by
  intro hall
  have hcloses := hall (loaded [ascii "A", ascii "B", ascii "C"] [10, 0, 30]) _ _
    (loaded_parallel rfl)
  obtain ⟨handle, heq, hnot⟩ := hcloses.closable.handles (some 0) (by decide)
  exact hnot (Option.some.inj heq).symm

end ModPerl
