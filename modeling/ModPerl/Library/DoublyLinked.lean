import Mathlib.Data.List.Nodup

/-!
# Doubly linked lists in a heap

A heap assigns a cell to every allocated address.  `Seg h prev head ps last tail`
says that the cells `ps`, in this order, form a segment: `head` points at the
first of them, each cell's `next` points at its successor (the last one's at
`tail`) and each cell's `prev` at its predecessor (the first one's is `prev`);
`last` is the address of the last cell, or `prev` when the segment is empty.

A segment splits and joins at any point (`seg_append`), is not affected by
writes elsewhere (`Seg.congr`), and its two ends can be redirected
(`Seg.redirect_tail`, `Seg.redirect_prev`).  Insertion and removal in a doubly
linked list are compositions of these.
-/

namespace DoublyLinked

/-- A list cell.  A null pointer is `none`. -/
structure Cell (P D : Type*) where
  prev : Option P
  next : Option P
  data : D

/-- The allocated cells. -/
abbrev Heap (P D : Type*) := P → Option (Cell P D)

variable {P D : Type*}

/-- The cells `ps` form a segment from `head`. -/
def Seg (h : Heap P D) : Option P → Option P → List P → Option P → Option P → Prop
  | prev, head, [], last, tail => head = tail ∧ last = prev
  | prev, head, p :: ps, last, tail =>
      head = some p ∧ ∃ c, h p = some c ∧ c.prev = prev ∧ Seg h (some p) c.next ps last tail

/-- `head` is a well-formed list of the cells `ps`: null-terminated at both
ends, and without repetition. -/
structure IsList (h : Heap P D) (head : Option P) (ps : List P) : Prop where
  seg : ∃ last, Seg h none head ps last none
  nodup : ps.Nodup

section Segments

variable {h h' : Heap P D} {prev head last tail : Option P} {ps qs : List P} {p : P}

@[simp] theorem seg_nil : Seg h prev head [] last tail ↔ head = tail ∧ last = prev := Iff.rfl

theorem seg_cons : Seg h prev head (p :: ps) last tail ↔
    head = some p ∧ ∃ c, h p = some c ∧ c.prev = prev ∧ Seg h (some p) c.next ps last tail :=
  Iff.rfl

/-- A segment splits at any point. -/
theorem seg_append : Seg h prev head (ps ++ qs) last tail ↔
    ∃ l m, Seg h prev head ps l m ∧ Seg h l m qs last tail := by
  induction ps generalizing prev head with
  | nil => simp [eq_comm]
  | cons p ps ih =>
      simp only [List.cons_append, seg_cons, ih]
      constructor
      · rintro ⟨hhead, c, hc, hprev, l, m, hps, hqs⟩
        exact ⟨l, m, ⟨hhead, c, hc, hprev, hps⟩, hqs⟩
      · rintro ⟨l, m, ⟨hhead, c, hc, hprev, hps⟩, hqs⟩
        exact ⟨hhead, c, hc, hprev, l, m, hps, hqs⟩

/-- Only the cells of a segment matter to it. -/
theorem Seg.congr (hseg : Seg h prev head ps last tail) (heq : ∀ p ∈ ps, h' p = h p) :
    Seg h' prev head ps last tail := by
  induction ps generalizing prev head with
  | nil => exact hseg
  | cons p ps ih =>
      obtain ⟨hhead, c, hc, hprev, hrest⟩ := hseg
      exact ⟨hhead, c, by rw [heq p (List.mem_cons_self ..), hc], hprev,
        ih hrest fun q hq => heq q (List.mem_cons_of_mem _ hq)⟩

/-- Every cell of a segment is allocated. -/
theorem Seg.exists_cell (hseg : Seg h prev head ps last tail) (hp : p ∈ ps) :
    ∃ c, h p = some c := by
  induction ps generalizing prev head with
  | nil => simp at hp
  | cons q ps ih =>
      obtain ⟨-, c, hc, -, hrest⟩ := hseg
      rcases List.mem_cons.mp hp with rfl | hp
      · exact ⟨c, hc⟩
      · exact ih hrest hp

theorem Seg.head_eq (hseg : Seg h prev head (p :: ps) last tail) : head = some p := hseg.1

theorem seg_singleton : Seg h prev head [p] last tail ↔
    head = some p ∧ last = some p ∧ ∃ c, h p = some c ∧ c.prev = prev ∧ c.next = tail := by
  simp only [seg_cons, seg_nil]
  constructor
  · rintro ⟨hhead, c, hc, hprev, hnext, hlast⟩
    exact ⟨hhead, hlast, c, hc, hprev, hnext⟩
  · rintro ⟨hhead, hlast, c, hc, hprev, hnext⟩
    exact ⟨hhead, c, hc, hprev, hnext, hlast⟩

/-- The last cell of a nonempty segment. -/
theorem Seg.last_eq (hseg : Seg h prev head (ps ++ [p]) last tail) :
    last = some p ∧ ∃ c, h p = some c ∧ c.next = tail := by
  obtain ⟨l, m, -, hlast⟩ := seg_append.mp hseg
  obtain ⟨-, hlast, c, hc, -, hnext⟩ := seg_singleton.mp hlast
  exact ⟨hlast, c, hc, hnext⟩

theorem IsList.congr (hlist : IsList h head ps) (heq : ∀ p ∈ ps, h' p = h p) :
    IsList h' head ps where
  seg := hlist.seg.imp fun _ hseg => hseg.congr heq
  nodup := hlist.nodup

theorem IsList.exists_cell (hlist : IsList h head ps) (hp : p ∈ ps) : ∃ c, h p = some c :=
  hlist.seg.elim fun _ hseg => hseg.exists_cell hp

theorem isList_nil_iff : IsList h head [] ↔ head = none := by
  constructor
  · rintro ⟨⟨_, hhead, _⟩, _⟩
    exact hhead
  · rintro rfl
    exact ⟨⟨none, rfl, rfl⟩, List.nodup_nil⟩

theorem IsList.head_eq (hlist : IsList h head ps) : head = ps.head? := by
  obtain ⟨_, hseg⟩ := hlist.seg
  cases ps with
  | nil => exact hseg.1
  | cons p ps => exact hseg.1

/-- The first cell of a list has no predecessor. -/
theorem IsList.head_prev (hlist : IsList h head (p :: ps)) : ∃ c, h p = some c ∧ c.prev = none := by
  obtain ⟨_, -, c, hc, hprev, -⟩ := hlist.seg
  exact ⟨c, hc, hprev⟩

end Segments

/-! ## Writes -/

section Writes

variable [DecidableEq P]

/-- Overwrite fields of the cell at `p`, if there is one. -/
def write (h : Heap P D) (p : P) (f : Cell P D → Cell P D) : Heap P D :=
  fun q => if q = p then (h q).map f else h q

/-- `p->next = v`; a fault when `p` is not allocated. -/
def setNext (h : Heap P D) (p : P) (v : Option P) : Option (Heap P D) :=
  if (h p).isSome then some (write h p fun c => { c with next := v }) else none

/-- `p->prev = v`; a fault when `p` is not allocated. -/
def setPrev (h : Heap P D) (p : P) (v : Option P) : Option (Heap P D) :=
  if (h p).isSome then some (write h p fun c => { c with prev := v }) else none

variable {h h' : Heap P D} {p q : P} {f : Cell P D → Cell P D} {v prev head last tail : Option P}
  {ps : List P}

@[simp] theorem write_self : write h p f p = (h p).map f := by simp [write]

@[simp] theorem write_of_ne (hne : q ≠ p) : write h p f q = h q := by simp [write, hne]

@[simp] theorem isSome_write : (write h p f q).isSome = (h q).isSome := by
  by_cases hq : q = p <;> simp [write, hq]

theorem data_write (hf : ∀ c, (f c).data = c.data) :
    (write h p f q).map Cell.data = (h q).map Cell.data := by
  by_cases hq : q = p
  · subst hq
    cases hc : h q <;> simp [hc, hf]
  · rw [write_of_ne hq]

theorem setNext_eq_some (hp : (h p).isSome) :
    setNext h p v = some (write h p fun c => { c with next := v }) := by
  simp [setNext, hp]

theorem setPrev_eq_some (hp : (h p).isSome) :
    setPrev h p v = some (write h p fun c => { c with prev := v }) := by
  simp [setPrev, hp]

theorem Seg.write (hseg : Seg h prev head ps last tail) (hp : p ∉ ps) :
    Seg (write h p f) prev head ps last tail :=
  hseg.congr fun _ hq => write_of_ne fun heq => hp (heq ▸ hq)

/-- Redirecting the `next` of the last cell changes only what follows the segment. -/
theorem Seg.redirect_tail (hseg : Seg h prev head (ps ++ [p]) last tail) (hp : p ∉ ps) :
    Seg (DoublyLinked.write h p fun c => { c with next := v }) prev head (ps ++ [p]) last v := by
  obtain ⟨l, m, hleft, hright⟩ := seg_append.mp hseg
  obtain ⟨hm, hlast, c, hc, hprev, -⟩ := seg_singleton.mp hright
  refine seg_append.mpr ⟨l, m, hleft.write hp, seg_singleton.mpr ⟨hm, hlast, ?_⟩⟩
  exact ⟨{ c with next := v }, by simp [hc], hprev, rfl⟩

/-- Redirecting the `prev` of the first cell changes only what precedes the segment. -/
theorem Seg.redirect_prev (hseg : Seg h prev head (p :: ps) last tail) (hp : p ∉ ps) :
    Seg (DoublyLinked.write h p fun c => { c with prev := v }) v head (p :: ps) last tail := by
  obtain ⟨hhead, c, hc, -, hrest⟩ := hseg
  exact ⟨hhead, { c with prev := v }, by simp [hc], rfl, hrest.write hp⟩

end Writes

/-! ## Inserting and removing -/

/-- The links of the cells `ps` may differ between the heaps; nothing else does. -/
structure Relinked (h h' : Heap P D) (ps : List P) : Prop where
  frame : ∀ q ∉ ps, h' q = h q
  data : ∀ q, (h' q).map Cell.data = (h q).map Cell.data

namespace Relinked

variable {h h' h'' : Heap P D} {ps qs : List P}

theorem refl (h : Heap P D) (ps : List P) : Relinked h h ps := ⟨fun _ _ => rfl, fun _ => rfl⟩

theorem trans (h₁ : Relinked h h' ps) (h₂ : Relinked h' h'' ps) : Relinked h h'' ps :=
  ⟨fun q hq => (h₂.frame q hq).trans (h₁.frame q hq), fun q => (h₂.data q).trans (h₁.data q)⟩

theorem mono (h₁ : Relinked h h' ps) (hsub : ∀ p ∈ ps, p ∈ qs) : Relinked h h' qs :=
  ⟨fun q hq => h₁.frame q fun hmem => hq (hsub q hmem), h₁.data⟩

theorem isSome_eq (h₁ : Relinked h h' ps) (q : P) : (h' q).isSome = (h q).isSome := by
  simpa using congrArg Option.isSome (h₁.data q)

theorem write [DecidableEq P] {p : P} {f : Cell P D → Cell P D} (hp : p ∈ ps)
    (hf : ∀ c, (f c).data = c.data) : Relinked h (DoublyLinked.write h p f) ps where
  frame _ hq := write_of_ne fun heq => hq (heq ▸ hp)
  data _ := data_write hf

theorem next [DecidableEq P] {p : P} {v : Option P} (hp : p ∈ ps) :
    Relinked h (DoublyLinked.write h p fun c => { c with next := v }) ps :=
  write hp fun _ => rfl

theorem prev [DecidableEq P] {p : P} {v : Option P} (hp : p ∈ ps) :
    Relinked h (DoublyLinked.write h p fun c => { c with prev := v }) ps :=
  write hp fun _ => rfl

/-- A list none of whose cells is relinked is still there. -/
theorem isList {head : Option P} {xs : List P} (h₁ : Relinked h h' ps) (hlist : IsList h head xs)
    (hdisj : xs.Disjoint ps) : IsList h' head xs :=
  hlist.congr fun _ hp => h₁.frame _ (hdisj hp)

end Relinked

section Lists

variable [DecidableEq P] {h : Heap P D} {head : Option P} {ps xs ys : List P} {p q : P}
  {c : Cell P D}

/-- A cell without predecessor is linked in front of the first cell `q` of a list. -/
theorem link_front (hlist : IsList h head (q :: ps)) (hp : h p = some c)
    (hprev : c.prev = none) (hmem : p ∉ q :: ps) :
    IsList
      (write (write h q fun c => { c with prev := some p }) p fun c => { c with next := some q })
      (some p) (p :: q :: ps) := by
  have hpq : p ≠ q := fun heq => hmem (heq ▸ List.mem_cons_self ..)
  obtain ⟨last, hseg⟩ := hlist.seg
  obtain rfl := hseg.head_eq
  have hq : q ∉ ps := (List.nodup_cons.mp hlist.nodup).1
  refine ⟨⟨last, rfl, { c with next := some q }, ?_, hprev, ?_⟩,
    List.nodup_cons.mpr ⟨hmem, hlist.nodup⟩⟩
  · rw [write_self, write_of_ne hpq, hp, Option.map_some]
  · exact (hseg.redirect_prev hq).write hmem

/-- A cell without successor is linked behind the last cell `q` of a list. -/
theorem link_back (hlist : IsList h head (ps ++ [q])) (hp : h p = some c)
    (hnext : c.next = none) (hmem : p ∉ ps ++ [q]) :
    IsList
      (write (write h q fun c => { c with next := some p }) p fun c => { c with prev := some q })
      head (ps ++ [q] ++ [p]) := by
  have hpq : p ≠ q := fun heq => hmem (by simp [heq])
  obtain ⟨last, hseg⟩ := hlist.seg
  obtain ⟨rfl, -⟩ := hseg.last_eq
  have hq : q ∉ ps := fun hqs => List.disjoint_of_nodup_append hlist.nodup hqs (by simp)
  refine ⟨⟨some p, seg_append.mpr ⟨some q, some p, (hseg.redirect_tail hq).write hmem, ?_⟩⟩,
    hlist.nodup.append (List.nodup_singleton p) (by simpa using hmem)⟩
  refine seg_singleton.mpr ⟨rfl, rfl, { c with prev := some q }, ?_, rfl, hnext⟩
  rw [write_self, write_of_ne hpq, hp, Option.map_some]

/-- A write through a pointer that is skipped when the pointer is null. -/
def writeIf (h : Heap P D) : Option P → (Cell P D → Cell P D) → Heap P D
  | some a, f => write h a f
  | none, _ => h

@[simp] theorem writeIf_some {f : Cell P D → Cell P D} : writeIf h (some p) f = write h p f := rfl

@[simp] theorem writeIf_none {f : Cell P D → Cell P D} : writeIf h none f = h := rfl

/-- The heap after the neighbours of the cell `c` have been linked to each other. -/
def bypass (h : Heap P D) (c : Cell P D) : Heap P D :=
  writeIf (writeIf h c.prev fun d => { d with next := c.next }) c.next
    fun d => { d with prev := c.prev }

/-- Redirecting what the last cell of `xs` points at, when there is such a cell. -/
theorem bypass_left {last m v : Option P} (hseg : Seg h none head xs last m) (hnd : xs.Nodup) :
    Seg (writeIf h last fun d => { d with next := v }) none (if xs = [] then v else head) xs
      last v := by
  rcases List.eq_nil_or_concat xs with rfl | ⟨xs, a, rfl⟩
  · obtain ⟨-, rfl⟩ := hseg
    exact ⟨rfl, rfl⟩
  · rw [List.concat_eq_append] at hseg hnd ⊢
    obtain ⟨rfl, -⟩ := hseg.last_eq
    have ha : a ∉ xs := fun hmem => List.disjoint_of_nodup_append hnd hmem (by simp)
    simpa using hseg.redirect_tail ha

/-- Redirecting what the first cell of `ys` points back at, when there is such a cell. -/
theorem bypass_right {prev m v last : Option P} (hseg : Seg h prev m ys last none)
    (hnd : ys.Nodup) :
    ∃ last', Seg (writeIf h m fun d => { d with prev := v }) v m ys last' none := by
  cases ys with
  | nil =>
      obtain ⟨rfl, -⟩ := hseg
      exact ⟨v, rfl, rfl⟩
  | cons b ys =>
      obtain rfl := hseg.head_eq
      exact ⟨last, hseg.redirect_prev (List.nodup_cons.mp hnd).1⟩

/-- A write at the end of a segment, if there is one, relinks only its cells. -/
theorem Relinked.writeIf {o : Option P} {f : Cell P D → Cell P D} (hf : ∀ c, (f c).data = c.data)
    (ho : ∀ a ∈ o, a ∈ ps) : Relinked h (DoublyLinked.writeIf h o f) ps := by
  cases o with
  | none => exact .refl h ps
  | some a => exact .write (ho a rfl) hf

omit [DecidableEq P] in
theorem Seg.last_mem {prev last tail : Option P} (hseg : Seg h prev head ps last tail) :
    last = prev ∨ ∃ q ∈ ps, last = some q := by
  rcases List.eq_nil_or_concat ps with rfl | ⟨qs, q, rfl⟩
  · exact .inl hseg.2
  · rw [List.concat_eq_append] at hseg ⊢
    exact .inr ⟨q, by simp, hseg.last_eq.1⟩

omit [DecidableEq P] in
/-- The predecessor of a cell of a list, if any, stands before it and its successor after it. -/
theorem IsList.neighbours (hlist : IsList h head (xs ++ p :: ys)) (hp : h p = some c) :
    (∀ a ∈ c.prev, a ∈ xs) ∧ ∀ b ∈ c.next, b ∈ ys := by
  obtain ⟨last, hseg⟩ := hlist.seg
  obtain ⟨l, m, hleft, hright⟩ := seg_append.mp hseg
  obtain ⟨rfl, c', hc', rfl, hrest⟩ := hright
  obtain rfl : c = c' := Option.some.inj (hp.symm.trans hc')
  constructor
  · intro a ha
    rcases hleft.last_mem with hnone | ⟨q, hq, hsome⟩
    · simp [hnone] at ha
    · rw [hsome] at ha
      exact Option.some.inj ha ▸ hq
  · intro b hb
    cases ys with
    | nil => simp [hrest.1] at hb
    | cons q ys =>
        rw [hrest.head_eq] at hb
        exact Option.some.inj hb ▸ List.mem_cons_self ..

/-- Linking the neighbours of a cell to each other takes it off its list. -/
theorem isList_bypass (hlist : IsList h head (xs ++ p :: ys)) (hp : h p = some c) :
    IsList (bypass h c) (if head = some p then c.next else head) (xs ++ ys) ∧
      Relinked h (bypass h c) (xs ++ ys) := by
  obtain ⟨last, hseg⟩ := hlist.seg
  obtain ⟨l, m, hleft, hright⟩ := seg_append.mp hseg
  obtain ⟨rfl, c', hc', rfl, hrest⟩ := hright
  obtain rfl : c = c' := Option.some.inj (hp.symm.trans hc')
  have hnd := List.nodup_append'.mp hlist.nodup
  have hys : p ∉ ys ∧ ys.Nodup := List.nodup_cons.mp hnd.2.1
  have hdisj : xs.Disjoint ys := fun q hqx hqy => hnd.2.2 hqx (List.mem_cons_of_mem _ hqy)
  obtain ⟨hprev, hnext⟩ := hlist.neighbours hp
  have hhead : (if head = some p then c.next else head) = if xs = [] then c.next else head := by
    cases xs with
    | nil => rw [hleft.1]; simp
    | cons q xs =>
        have hqp : q ≠ p := fun heq => hnd.2.2 (List.mem_cons_self ..) (by simp [heq])
        rw [hleft.head_eq]
        simp [hqp]
  have hmid : Relinked h (writeIf h c.prev fun d => { d with next := c.next }) xs :=
    .writeIf (fun _ => rfl) hprev
  have hend : Relinked _ (bypass h c) ys := .writeIf (fun _ => rfl) hnext
  have hleft' := (bypass_left (v := c.next) hleft hnd.1).congr fun q hq => hend.frame q (hdisj hq)
  obtain ⟨last', hright'⟩ := bypass_right (v := c.prev)
    (hrest.congr fun q hq => hmid.frame q fun hqx => hdisj hqx hq) hys.2
  refine ⟨⟨⟨last', ?_⟩, hnd.1.append hys.2 hdisj⟩, ?_⟩
  · rw [hhead]
    exact seg_append.mpr ⟨c.prev, c.next, hleft', hright'⟩
  · exact (hmid.mono (fun _ => List.mem_append_left _)).trans
      (hend.mono fun _ => List.mem_append_right _)

end Lists

end DoublyLinked
