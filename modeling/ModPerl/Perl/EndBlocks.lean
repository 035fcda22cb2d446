import ModPerl.Registry.Cooker
import Mathlib.Logic.Function.Basic

/-!
# The `END` blocks of registered packages

Perl puts an `END` block in front of those that were defined before, so that the list is
called from the block that was defined last.  While the list has magic, a block of a
registered package is taken out again at once, and goes to the list of its package: behind
the others.  That list is called by the same loop, from the block that was defined first.

`perlStep` is the same history with lists like Perl's own.  A package's list has the same
blocks there, in the reverse order.

The functions are those of `modperl_perl_global.c`.
-/

namespace ModPerl

open Registry

/-- The lists of `END` blocks.  A block is told apart by its number among all blocks. -/
structure EndLists where
  /-- `PL_endav` -/
  endav : List EndBlock
  /-- `$PL_modglobal{END}{$package}` -/
  lists : Bytes → Option (List EndBlock)
  /-- The magic of `PL_endav` is on. -/
  tied : Bool
  next : ℕ

/-- What happens to the lists. -/
inductive EndEvent
  /-- `modperl_perl_global_avcv_save` -/
  | save
  /-- `modperl_perl_global_avcv_restore` -/
  | restore
  | register (package : Bytes)
  | clear (package : Bytes)
  /-- A version of some code defines a block in the package. -/
  | block (package : Bytes) (version : Mtime)
  | call (package : Bytes)

namespace EndLists

def start : EndLists where
  endav := []
  lists := fun _ => none
  tied := false
  next := 0

/-- The list of a package is changed. -/
def onList (s : EndLists) (package : Bytes)
    (f : Option (List EndBlock) → Option (List EndBlock)) : EndLists :=
  { s with lists := Function.update s.lists package (f (s.lists package)) }

/-- `modperl_perl_global_avcv_set`, for the package in `PL_curstash`: the block that was put in
front is moved to the list of the package, if there is one. -/
def globalAvcvSet (s : EndLists) (package : Bytes) : EndLists :=
  match s.lists package, s.endav with
  | some _, cv :: endav => { s with endav := endav }.onList package (avcvSet · cv)
  | _, _ => s

/-- Perl puts a new block in front of `PL_endav`, which calls the magic. -/
def block (s : EndLists) (package : Bytes) (version : Mtime) : EndLists :=
  let s := { s with endav := ⟨version, s.next⟩ :: s.endav, next := s.next + 1 }
  if s.tied then s.globalAvcvSet package else s

/-- `modperl_perl_global_avcv_call`, where no block dies -/
def call (s : EndLists) (package : Bytes) : List EndBlock :=
  (avcvCall (fun _ => false) (s.lists package)).1

def step (s : EndLists) : EndEvent → EndLists
  | .save => { s with tied := true }
  | .restore => { s with tied := false }
  | .register package => s.onList package avcvRegister
  | .clear package => s.onList package avcvClear
  | .block package version => s.block package version
  | .call _ => s

/-! ## Perl's own lists -/

/-- The list of a registered package is like `PL_endav`: a new block goes in front. -/
def perlBlock (t : EndLists) (package : Bytes) (version : Mtime) : EndLists :=
  let cv : EndBlock := ⟨version, t.next⟩
  let t := { t with next := t.next + 1 }
  if t.tied && (t.lists package).isSome then t.onList package (Option.map (cv :: ·))
  else { t with endav := cv :: t.endav }

def perlStep (t : EndLists) : EndEvent → EndLists
  | .block package version => t.perlBlock package version
  | event => t.step event

/-- What the calls have run, one after the other, in a history with these steps. -/
def called (step : EndLists → EndEvent → EndLists) : EndLists → List EndEvent →
    List (List EndBlock)
  | _, [] => []
  | s, .call package :: events => s.call package :: called step (step s (.call package)) events
  | s, event :: events => called step (step s event) events

/-- After the events the blocks of each list are those of Perl's list, and the calls have run
them in the order that Perl would. -/
structure LikePerl (events : List EndEvent) : Prop where
  endav : (events.foldl step start).endav = (events.foldl perlStep start).endav
  registered : ∀ package, ((events.foldl step start).lists package).isSome =
    ((events.foldl perlStep start).lists package).isSome
  lists : ∀ package, (((events.foldl step start).lists package).getD []).Perm
    (((events.foldl perlStep start).lists package).getD [])
  called : called step start events = called perlStep start events

/-- Each list has at most one block when it is called. -/
def CallsShort : EndLists → List EndEvent → Prop
  | _, [] => True
  | s, event :: events =>
      (∀ package, event = .call package → ((s.lists package).getD []).length ≤ 1) ∧
        CallsShort (s.step event) events

/-! ## One history beside the other -/

variable {s t : EndLists} {package : Bytes} {events : List EndEvent} {l : List EndBlock}

/-- The lists of the packages are reversed. -/
structure Reversed (s t : EndLists) : Prop where
  endav : s.endav = t.endav
  tied : s.tied = t.tied
  next : s.next = t.next
  lists : ∀ package, s.lists package = (t.lists package).map List.reverse

/-- The blocks of a package are in the order of their numbers. -/
structure Numbered (s : EndLists) : Prop where
  sorted : ∀ package l, s.lists package = some l → l.Pairwise fun a b => a.index < b.index
  bound : ∀ package l, s.lists package = some l → ∀ cv ∈ l, cv.index < s.next

@[simp] theorem onList_self {f : Option (List EndBlock) → Option (List EndBlock)} :
    (s.onList package f).lists package = f (s.lists package) :=
  Function.update_self ..

theorem onList_of_ne {f : Option (List EndBlock) → Option (List EndBlock)} {package' : Bytes}
    (h : package' ≠ package) : (s.onList package f).lists package' = s.lists package' :=
  Function.update_of_ne h ..

theorem Reversed.onList {f g : Option (List EndBlock) → Option (List EndBlock)}
    (h : Reversed s t) (package : Bytes)
    (hfg : f (s.lists package) = (g (t.lists package)).map List.reverse) :
    Reversed (s.onList package f) (t.onList package g) := by
  refine ⟨h.endav, h.tied, h.next, fun package' => ?_⟩
  by_cases heq : package' = package
  · rw [heq, onList_self, onList_self, hfg]
  · rw [onList_of_ne heq, onList_of_ne heq, h.lists]

/-- A list is changed to one whose blocks have numbers below the next one. -/
theorem Numbered.onList {f : Option (List EndBlock) → Option (List EndBlock)}
    (h : s.Numbered) (package : Bytes) (hf : ∀ l, f (s.lists package) = some l →
      (l.Pairwise fun a b => a.index < b.index) ∧ ∀ cv ∈ l, cv.index < s.next) :
    (s.onList package f).Numbered := by
  constructor <;> intro package' l hl
  all_goals
    by_cases heq : package' = package
    · rw [heq, onList_self] at hl
      first | exact (hf l hl).1 | exact (hf l hl).2
    · rw [onList_of_ne heq] at hl
      first | exact h.sorted package' l hl | exact h.bound package' l hl

/-- A block of a registered package is appended to its list; another one stays in `PL_endav`. -/
theorem block_eq (version : Mtime) : s.block package version =
    if s.tied && (s.lists package).isSome then
      { s with next := s.next + 1 }.onList package (avcvSet · ⟨version, s.next⟩)
    else { s with endav := ⟨version, s.next⟩ :: s.endav, next := s.next + 1 } := by
  unfold block globalAvcvSet
  cases htied : s.tied with
  | false => rfl
  | true =>
      cases hlist : s.lists package with
      | none => simp [hlist]
      | some l => simp [hlist, onList]

theorem Reversed.step (h : Reversed s t) (event : EndEvent) :
    Reversed (s.step event) (t.perlStep event) := by
  cases event with
  | save => exact ⟨h.endav, rfl, h.next, h.lists⟩
  | restore => exact ⟨h.endav, rfl, h.next, h.lists⟩
  | register package =>
      refine h.onList package ?_
      rw [h.lists]
      cases t.lists package <;> rfl
  | clear package =>
      refine h.onList package ?_
      rw [h.lists]
      cases t.lists package <;> rfl
  | block package version =>
      show Reversed (s.block package version) (t.perlBlock package version)
      have hnext : Reversed { s with next := s.next + 1 } { t with next := t.next + 1 } :=
        ⟨h.endav, h.tied, congrArg (· + 1) h.next, h.lists⟩
      have hguard : (s.tied && (s.lists package).isSome) =
          (t.tied && (t.lists package).isSome) := by
        rw [h.tied, h.lists, Option.isSome_map]
      rw [block_eq, perlBlock, hguard]
      split_ifs
      · refine hnext.onList package ?_
        show avcvSet (s.lists package) _ = _
        rw [h.lists, h.next]
        cases t.lists package with
        | none => rfl
        | some l => simp [avcvSet]
      · exact ⟨by rw [h.endav, h.next], h.tied, hnext.next, h.lists⟩
  | call package => exact h

theorem Numbered.step (h : s.Numbered) (event : EndEvent) : (s.step event).Numbered := by
  cases event with
  | save => exact ⟨h.sorted, h.bound⟩
  | restore => exact ⟨h.sorted, h.bound⟩
  | register package =>
      refine h.onList package fun l hl => ?_
      cases hlist : s.lists package with
      | none =>
          rw [hlist] at hl
          cases hl
          exact ⟨.nil, nofun⟩
      | some l' =>
          rw [hlist] at hl
          cases hl
          exact ⟨h.sorted package l' hlist, h.bound package l' hlist⟩
  | clear package =>
      refine h.onList package fun l hl => ?_
      obtain ⟨_, -, rfl⟩ := Option.map_eq_some_iff.mp hl
      exact ⟨.nil, nofun⟩
  | block package version =>
      show (s.block package version).Numbered
      have hnext : Numbered { s with next := s.next + 1 } :=
        ⟨h.sorted, fun package l hl cv hcv => Nat.lt_succ_of_lt (h.bound package l hl cv hcv)⟩
      rw [block_eq]
      split_ifs
      · refine hnext.onList package fun l hl => ?_
        obtain ⟨l', hlist, rfl⟩ := Option.map_eq_some_iff.mp hl
        -- the new block has the greatest number
        have hbound := h.bound package l' hlist
        constructor
        · rw [List.pairwise_append]
          refine ⟨h.sorted package l' hlist, List.pairwise_singleton _ _, fun cv hcv cv' hcv' => ?_⟩
          rw [List.mem_singleton.mp hcv']
          exact hbound cv hcv
        · intro cv hcv
          rcases List.mem_append.mp hcv with hcv | hcv
          · exact Nat.lt_succ_of_lt (hbound cv hcv)
          · rw [List.mem_singleton.mp hcv]
            exact Nat.lt_succ_self _
      · exact ⟨hnext.sorted, hnext.bound⟩
  | call package => exact h

theorem Numbered.nodup (h : s.Numbered) : ((s.lists package).getD []).Nodup := by
  cases hlist : s.lists package with
  | none => exact List.nodup_nil
  | some l =>
      refine (h.sorted package l hlist).imp fun hlt heq => ?_
      rw [heq] at hlt
      exact Nat.lt_irrefl _ hlt

/-- A list of different blocks is called in the order of Perl only if there is one. -/
theorem eq_reverse_iff (h : l.Nodup) : l = l.reverse ↔ l.length ≤ 1 := by
  match l with
  | [] => simp
  | [cv] => simp
  | cv :: cv' :: l =>
      refine iff_of_false (fun heq => ?_) (by simp)
      have hlast : (cv :: cv' :: l).getLast? = some cv := by
        rw [heq, List.getLast?_reverse]
        rfl
      rw [List.getLast?_cons_cons] at hlast
      exact (List.nodup_cons.mp h).1 (List.mem_of_getLast? hlast)

/-- Where no block dies, a call runs the whole list. -/
theorem call_eq : s.call package = (s.lists package).getD [] := by
  have hall : ∀ l, callList (fun _ => false) l = (l, false) := by
    intro l
    induction l with
    | nil => rfl
    | cons cv l ih => simp [callList, ih]
  rw [call, avcvCall]
  cases s.lists package with
  | none => rfl
  | some l => simp [hall]

/-! ## Whole histories -/

theorem reversed_foldl (h : Reversed s t) :
    Reversed (events.foldl step s) (events.foldl perlStep t) := by
  induction events generalizing s t with
  | nil => exact h
  | cons event events ih => exact ih (h.step event)

/-- The calls of two histories that started alike run the same exactly if the lists are short:
the induction is on the events that are left. -/
theorem called_eq_iff (h : Reversed s t) (hs : s.Numbered) :
    called step s events = called perlStep t events ↔ CallsShort s events := by
  induction events generalizing s t with
  | nil => exact iff_of_true rfl trivial
  | cons event events ih =>
      have hrest := ih (h.step event) (hs.step event)
      cases event with
      | call package =>
          have hcall : s.call package = t.call package ↔
              ((s.lists package).getD []).length ≤ 1 := by
            have ht : (t.lists package).getD [] = ((s.lists package).getD []).reverse := by
              rw [h.lists]
              cases t.lists package <;> simp
            rw [call_eq, call_eq, ht, eq_reverse_iff hs.nodup]
          rw [called, called, List.cons.injEq, hcall, hrest, CallsShort]
          refine and_congr_left fun _ => ⟨?_, fun hall => hall package rfl⟩
          rintro hshort _ ⟨⟩
          exact hshort
      | _ =>
          rw [called, called, hrest, CallsShort]
          · exact ⟨fun hrest => ⟨nofun, hrest⟩, And.right⟩
          all_goals exact nofun

/-- The blocks of a registered package are kept out of `PL_endav` and recorded in the list of the
package, and only there; and the calls run them like Perl exactly if each list has at most
one block when it is called. -/
theorem likePerl_iff (events : List EndEvent) : LikePerl events ↔ CallsShort start events := by
  have hstart : Reversed start start := ⟨rfl, rfl, rfl, fun _ => rfl⟩
  have hnumbered : start.Numbered := ⟨fun _ _ hl => (by cases hl), fun _ _ hl => (by cases hl)⟩
  have h : Reversed (events.foldl step start) (events.foldl perlStep start) :=
    reversed_foldl hstart
  rw [← called_eq_iff hstart hnumbered]
  refine ⟨LikePerl.called, fun hcalled => ⟨h.endav, fun package => ?_, fun package => ?_, hcalled⟩⟩
  · rw [h.lists, Option.isSome_map]
  · rw [h.lists]
    cases ((events.foldl perlStep start).lists package) with
    | none => exact .refl _
    | some l => exact List.reverse_perm l

/-- A registered package with two blocks. -/
theorem likePerl_fails : ¬∀ events, LikePerl events := by
  intro hall
  have hcalled := (hall [.save, .register (ascii "P"), .block (ascii "P") 1,
    .block (ascii "P") 1, .call (ascii "P")]).called
  exact absurd hcalled (by decide +kernel)

end EndLists

end ModPerl
