import ModPerl.Library.DoublyLinked

/-!
# The lists of the thread item pool

`modperl_list_t` and the `modperl_list_*` functions of `modperl_tipool.c`, over
a heap of list cells.  A function returns `none` when it dereferences a null or
freed pointer, or when a loop visits more cells than its fuel allows.  The
callers pass the number of allocated cells as fuel: a traversal that visits more
cells than there are has come back to one of them and would never end.

Each function has one rule (`listAppend_spec`, `listPrepend_spec`,
`listRemove_spec`, `listRemoveData_spec`): on a well-formed list it succeeds,
and its result is the well-formed list that its name promises.
-/

namespace ModPerl

open DoublyLinked

/-- The address of a `modperl_list_t`. -/
abbrev Addr := ℕ

/-- The allocated `modperl_list_t` cells; `data` is null in a new one. -/
abbrev ListHeap (Item : Type) := DoublyLinked.Heap Addr (Option Item)

variable {Item : Type}

/-- `modperl_list_new`, at the address `malloc` chose. -/
def listNew (h : ListHeap Item) (a : Addr) : Option (ListHeap Item) :=
  if (h a).isSome then none else some (Function.update h a (some ⟨none, none, none⟩))

/-- `modperl_list_last` -/
def listLast (h : ListHeap Item) : ℕ → Addr → Option Addr
  | 0, _ => none
  | fuel + 1, list => do
      let c ← h list
      match c.next with
      | some next => listLast h fuel next
      | none => some list

/-- `modperl_list_append` -/
def listAppend (fuel : ℕ) (h : ListHeap Item) (list new_list : Option Addr) :
    Option (ListHeap Item × Option Addr) := do
  let new ← new_list
  let h ← setNext h new none
  let h ← setPrev h new none
  match list with
  | none => some (h, some new)
  | some l =>
      let last ← listLast h fuel l
      let h ← setNext h last (some new)
      let h ← setPrev h new (some last)
      some (h, some l)

/-- `modperl_list_prepend` -/
def listPrepend (h : ListHeap Item) (list new_list : Option Addr) :
    Option (ListHeap Item × Option Addr) := do
  let new ← new_list
  let h ← setNext h new none
  let h ← setPrev h new none
  match list with
  | none => some (h, some new)
  | some l =>
      let c ← h l
      let h ← (match c.prev with
        | some p => (setNext h p (some new)).bind fun h => setPrev h new (some p)
        | none => some h)
      let h ← setPrev h l (some new)
      let h ← setNext h new (some l)
      some (h, some new)

/-- The loop `while (tmp)` of the two removals: the first cell that passes the test. -/
def listSearch (h : ListHeap Item) (test : Addr → Cell Addr (Option Item) → Bool) :
    ℕ → Option Addr → Option (Option Addr)
  | _, none => some none
  | 0, some _ => none
  | fuel + 1, some tmp => do
      let c ← h tmp
      if test tmp c then some (some tmp) else listSearch h test fuel c.next

/-- The body of the two removals once `tmp` is found. -/
def listUnlink (h : ListHeap Item) (list : Option Addr) (tmp : Addr) :
    Option (ListHeap Item × Option Addr) := do
  let c ← h tmp
  let h ← (match c.prev with
    | some prev => setNext h prev c.next
    | none => some h)
  let c ← h tmp
  let h ← (match c.next with
    | some next => setPrev h next c.prev
    | none => some h)
  if list = some tmp then do
    let c ← h tmp
    some (h, c.next)
  else some (h, list)

/-- `modperl_list_remove` -/
def listRemove (fuel : ℕ) (h : ListHeap Item) (list rlist : Option Addr) :
    Option (ListHeap Item × Option Addr) := do
  match ← listSearch h (fun tmp _ => some tmp = rlist) fuel list with
  | some tmp => listUnlink h list tmp
  | none => some (h, list)

/-- `modperl_list_remove_data`; the last component is what is stored in `*listp`, if anything. -/
def listRemoveData [DecidableEq Item] (fuel : ℕ) (h : ListHeap Item) (list : Option Addr)
    (data : Item) : Option (ListHeap Item × Option Addr × Option Addr) := do
  match ← listSearch h (fun _ c => c.data = some data) fuel list with
  | some tmp => do
      let (h, list) ← listUnlink h list tmp
      some (h, list, some tmp)
  | none => some (h, list, none)

/-! ## Traversals of a well-formed list -/

variable {h : ListHeap Item} {prev head last : Option Addr} {ps xs ys : List Addr} {p a : Addr}
  {n : ℕ}

theorem listLast_eq (hseg : Seg h prev (some a) (ps ++ [p]) last none) (hfuel : ps.length < n) :
    listLast h n a = some p := by
  induction ps generalizing prev a n with
  | nil =>
      obtain ⟨hhead, -, c, hc, -, hnext⟩ := seg_singleton.mp hseg
      obtain rfl := Option.some.inj hhead
      obtain ⟨n, rfl⟩ := Nat.exists_eq_add_one_of_ne_zero (Nat.ne_zero_of_lt hfuel)
      simp [listLast, hc, hnext]
  | cons q ps ih =>
      obtain ⟨hhead, c, hc, -, hrest⟩ := hseg
      obtain rfl := Option.some.inj hhead
      obtain ⟨n, rfl⟩ := Nat.exists_eq_add_one_of_ne_zero (Nat.ne_zero_of_lt hfuel)
      obtain ⟨b, hb⟩ : ∃ b, c.next = some b := by
        cases ps with
        | nil => exact ⟨_, hrest.1⟩
        | cons r ps => exact ⟨_, hrest.1⟩
      rw [hb] at hrest
      have hlast := ih hrest (n := n) (by simpa using hfuel)
      simp [listLast, hc, hb, hlast]

/-- The search stops at the first cell that passes the test. -/
theorem listSearch_eq_some {test : Addr → Cell Addr (Option Item) → Bool}
    {c : Cell Addr (Option Item)} (hseg : Seg h prev head (xs ++ p :: ys) last none)
    (hxs : ∀ q ∈ xs, ∀ d, h q = some d → test q d = false) (hp : h p = some c)
    (htest : test p c = true) (hfuel : xs.length < n) :
    listSearch h test n head = some (some p) := by
  induction xs generalizing prev head n with
  | nil =>
      obtain ⟨rfl, -⟩ := hseg
      obtain ⟨n, rfl⟩ := Nat.exists_eq_add_one_of_ne_zero (Nat.ne_zero_of_lt hfuel)
      simp [listSearch, hp, htest]
  | cons q xs ih =>
      obtain ⟨rfl, d, hd, -, hrest⟩ := hseg
      obtain ⟨n, rfl⟩ := Nat.exists_eq_add_one_of_ne_zero (Nat.ne_zero_of_lt hfuel)
      have hskip := hxs q (List.mem_cons_self ..) d hd
      have := ih hrest (fun r hr => hxs r (List.mem_cons_of_mem _ hr)) (n := n)
        (by simpa using hfuel)
      simp [listSearch, hd, hskip, this]

/-! ## One rule for each function -/

theorem listNew_eq (ha : h a = none) :
    listNew h a = some (Function.update h a (some ⟨none, none, none⟩)) := by
  simp [listNew, ha]

/-- The two assignments that detach a cell before it is linked into a list. -/
theorem detach_eq {c : Cell Addr (Option Item)} (ha : h a = some c) :
    ∃ h', (setNext h a none).bind (fun h => setPrev h a none) = some h' ∧
      h' a = some ⟨none, none, c.data⟩ ∧ Relinked h h' [a] := by
  have ha' : a ∈ [a] := List.mem_singleton.mpr rfl
  refine ⟨_, ?_, ?_, (Relinked.next (v := none) ha').trans (.prev (v := none) ha')⟩
  · rw [setNext_eq_some (by simp [ha]), Option.bind_some, setPrev_eq_some (by simp [ha])]
  · simp [ha]

theorem listAppend_spec {list : Option Addr} {c : Cell Addr (Option Item)}
    (hlist : IsList h list ps) (ha : h a = some c) (hmem : a ∉ ps) (hfuel : ps.length ≤ n) :
    ∃ h' list', listAppend n h list (some a) = some (h', list') ∧
      IsList h' list' (ps ++ [a]) ∧ Relinked h h' (ps ++ [a]) := by
  obtain ⟨h₁, heq, hcell, hrel⟩ := detach_eq ha
  have hlist₁ : IsList h₁ list ps := hrel.isList hlist (by simpa using hmem)
  rw [Option.bind_eq_some_iff] at heq
  obtain ⟨h₀, heq₀, heq₁⟩ := heq
  rcases List.eq_nil_or_concat ps with rfl | ⟨qs, q, rfl⟩
  · obtain rfl := isList_nil_iff.mp hlist
    refine ⟨h₁, some a, by simp [listAppend, heq₀, heq₁], ?_, by simpa using hrel⟩
    exact ⟨⟨some a, seg_singleton.mpr ⟨rfl, rfl, _, hcell, rfl, rfl⟩⟩, by simp⟩
  · rw [List.concat_eq_append] at *
    obtain ⟨last, hseg⟩ := hlist₁.seg
    obtain ⟨l, hl⟩ : ∃ l, list = some l := by
      rw [hlist₁.head_eq]
      cases qs with
      | nil => exact ⟨_, rfl⟩
      | cons r qs => exact ⟨_, rfl⟩
    subst hl
    have hlast := listLast_eq hseg (n := n) (by simp at hfuel; omega)
    obtain ⟨d, hd⟩ := hlist₁.exists_cell (p := q) (by simp)
    refine ⟨_, _, ?_, link_back hlist₁ hcell rfl hmem, ?_⟩
    · simp only [listAppend, Option.bind_eq_bind, Option.bind_some, heq₀, heq₁, hlast]
      rw [setNext_eq_some (by simp [hd]), Option.bind_some, setPrev_eq_some (by simp [hcell]),
        Option.bind_some]
    · have hq : q ∈ qs ++ [q] ++ [a] := by simp
      have ha' : a ∈ qs ++ [q] ++ [a] := by simp
      exact (hrel.mono (by simp)).trans ((Relinked.next hq).trans (.prev ha'))

theorem listPrepend_spec {list : Option Addr} {c : Cell Addr (Option Item)}
    (hlist : IsList h list ps) (ha : h a = some c) (hmem : a ∉ ps) :
    ∃ h' list', listPrepend h list (some a) = some (h', list') ∧
      IsList h' list' (a :: ps) ∧ Relinked h h' (a :: ps) := by
  obtain ⟨h₁, heq, hcell, hrel⟩ := detach_eq ha
  have hlist₁ : IsList h₁ list ps := hrel.isList hlist (by simpa using hmem)
  rw [Option.bind_eq_some_iff] at heq
  obtain ⟨h₀, heq₀, heq₁⟩ := heq
  cases ps with
  | nil =>
      obtain rfl := isList_nil_iff.mp hlist
      refine ⟨h₁, some a, by simp [listPrepend, heq₀, heq₁], ?_, hrel⟩
      exact ⟨⟨some a, seg_singleton.mpr ⟨rfl, rfl, _, hcell, rfl, rfl⟩⟩, by simp⟩
  | cons q qs =>
      obtain rfl : list = some q := by simpa using hlist.head_eq
      obtain ⟨d, hd, hprev⟩ := hlist₁.head_prev
      refine ⟨_, _, ?_, link_front hlist₁ hcell rfl hmem, ?_⟩
      · simp only [listPrepend, Option.bind_eq_bind, Option.bind_some, heq₀, heq₁, hd, hprev]
        rw [setPrev_eq_some (by simp [hd]), Option.bind_some, setNext_eq_some (by simp [hcell]),
          Option.bind_some]
      · have hq : q ∈ a :: q :: qs := by simp
        exact (hrel.mono (by simp)).trans ((Relinked.prev hq).trans
          (.next (List.mem_cons_self ..)))

theorem listUnlink_spec {list : Option Addr} (hlist : IsList h list (xs ++ p :: ys)) :
    ∃ h' list', listUnlink h list p = some (h', list') ∧ IsList h' list' (xs ++ ys) ∧
      Relinked h h' (xs ++ ys) := by
  obtain ⟨c, hc⟩ := hlist.exists_cell (p := p) (by simp)
  obtain ⟨hprev, hnext⟩ := hlist.neighbours hc
  obtain ⟨hbypass, hrel⟩ := isList_bypass hlist hc
  refine ⟨_, _, ?_, hbypass, hrel⟩
  have hnd := List.nodup_append'.mp hlist.nodup
  -- neither neighbour is the removed cell, so its own links are read unchanged
  have hpx : p ∉ xs := fun hp => hnd.2.2 hp (List.mem_cons_self ..)
  have hpy : p ∉ ys := (List.nodup_cons.mp hnd.2.1).1
  have hcell : ∀ b ∈ xs ++ ys, (h b).isSome := by
    intro b hb
    obtain ⟨d, hd⟩ := hlist.exists_cell (p := b) (by simp at hb ⊢; tauto)
    simp [hd]
  have hleft : (match c.prev with
      | some prev => setNext h prev c.next
      | none => some h) = some (writeIf h c.prev fun d => { d with next := c.next }) := by
    cases hcp : c.prev with
    | none => rfl
    | some b => exact setNext_eq_some (hcell b (by simp [hprev b (by simp [hcp])]))
  have hmid : (writeIf h c.prev fun d => { d with next := c.next }) p = some c := by
    cases hcp : c.prev with
    | none => exact hc
    | some b =>
        have hb : p ≠ b := fun heq => hpx (heq ▸ hprev b (by simp [hcp]))
        rw [writeIf_some, write_of_ne hb, hc]
  have hright : (match c.next with
      | some next => setPrev (writeIf h c.prev fun d => { d with next := c.next }) next c.prev
      | none => some (writeIf h c.prev fun d => { d with next := c.next })) =
        some (bypass h c) := by
    unfold bypass
    cases hcn : c.next with
    | none => rfl
    | some b =>
        refine setPrev_eq_some ?_
        have hb := hcell b (by simp [hnext b (by simp [hcn])])
        cases c.prev with
        | none => exact hb
        | some b' => rwa [writeIf_some, isSome_write]
  have hend : bypass h c p = some c := by
    rw [hrel.frame p (by simp [hpx, hpy]), hc]
  simp only [listUnlink, Option.bind_eq_bind, hc, Option.bind_some, hleft, hmid, hright, hend]
  split <;> simp_all

theorem listRemove_spec {list : Option Addr} (hlist : IsList h list (xs ++ p :: ys))
    (hfuel : xs.length < n) :
    ∃ h' list', listRemove n h list (some p) = some (h', list') ∧ IsList h' list' (xs ++ ys) ∧
      Relinked h h' (xs ++ ys) := by
  obtain ⟨c, hc⟩ := hlist.exists_cell (p := p) (by simp)
  obtain ⟨last, hseg⟩ := hlist.seg
  have hpx : p ∉ xs := fun hp => List.disjoint_of_nodup_append hlist.nodup hp (by simp)
  have hsearch : listSearch h (fun tmp _ => some tmp = some p) n list = some (some p) := by
    refine listSearch_eq_some hseg (fun q hq _ _ => ?_) hc (by simp) hfuel
    simpa using fun heq : q = p => hpx (heq ▸ hq)
  simp only [listRemove, Option.bind_eq_bind, hsearch, Option.bind_some]
  exact listUnlink_spec hlist

theorem listRemoveData_spec [DecidableEq Item] {list : Option Addr} {data : Item}
    (hlist : IsList h list (xs ++ p :: ys)) {c : Cell Addr (Option Item)} (hp : h p = some c)
    (hdata : c.data = some data) (hxs : ∀ q ∈ xs, ∀ d, h q = some d → d.data ≠ some data)
    (hfuel : xs.length < n) :
    ∃ h' list', listRemoveData n h list data = some (h', list', some p) ∧
      IsList h' list' (xs ++ ys) ∧ Relinked h h' (xs ++ ys) := by
  obtain ⟨last, hseg⟩ := hlist.seg
  have hsearch : listSearch h (fun _ c => c.data = some data) n list = some (some p) :=
    listSearch_eq_some hseg (fun q hq d hd => by simpa using hxs q hq d hd) hp (by simpa) hfuel
  obtain ⟨h', list', heq, hlist', hrel⟩ := listUnlink_spec hlist
  refine ⟨h', list', ?_, hlist', hrel⟩
  simp only [listRemoveData, Option.bind_eq_bind, hsearch, heq, Option.bind_some]

end ModPerl
