import Mathlib.Data.List.Nodup
import Mathlib.Logic.Function.Basic

/-!
# Singly linked lists, through pointers to pointers

A pointer is kept in a slot: the head of a list, or the `next` field of a node.
`Links` says what each slot holds, and `Chain link p xs` that the nodes from the
pointer `p` on are `xs`.  A chain is not affected by writes to slots other than
the `next` fields of its nodes (`Chain.congr`).

A loop over a list that changes it holds the slot through which it has reached
its current node, and either advances to the next field of the node or takes the
node out by writing to the slot.  `seek` looks for a node in this way, and
`relink` moves all nodes for which a condition does not hold to the front of
another list.  They take a bound on the number of nodes that they visit.
-/

namespace SinglyLinked

/-- Where a pointer is kept. -/
inductive Slot (ι α : Type*)
  | head (i : ι)
  | next (a : α)
  deriving DecidableEq

/-- The pointers; a null pointer is `none`. -/
abbrev Links (ι α : Type*) := Slot ι α → Option α

variable {ι α : Type*}

/-- The nodes from a pointer on, up to the end of the list. -/
def Chain (link : Links ι α) : Option α → List α → Prop
  | p, [] => p = none
  | p, a :: xs => p = some a ∧ Chain link (link (.next a)) xs

section Chain

variable {link link' : Links ι α} {p : Option α} {a : α} {xs ys : List α}

theorem chain_nil : Chain link p [] ↔ p = none := Iff.rfl

/-- Only the next fields of its nodes matter to a chain. -/
theorem Chain.congr (h : Chain link p xs) (heq : ∀ a ∈ xs, link' (.next a) = link (.next a)) :
    Chain link' p xs := by
  induction xs generalizing p with
  | nil => exact h
  | cons a xs ih =>
      refine ⟨h.1, ?_⟩
      rw [heq a List.mem_cons_self]
      exact ih h.2 fun b hb => heq b (List.mem_cons_of_mem a hb)

/-- A pointer has one chain. -/
theorem Chain.unique (h : Chain link p xs) (h' : Chain link p ys) : xs = ys := by
  induction xs generalizing p ys with
  | nil =>
      cases ys with
      | nil => rfl
      | cons b ys =>
          rw [chain_nil.mp h] at h'
          exact absurd h'.1 (by simp)
  | cons a xs ih =>
      cases ys with
      | nil =>
          rw [chain_nil.mp h'] at h
          exact absurd h.1 (by simp)
      | cons b ys =>
          have hab : a = b := Option.some.inj (h.1.symm.trans h'.1)
          subst hab
          rw [ih h.2 h'.2]

end Chain

variable [DecidableEq ι] [DecidableEq α]

/-- A pointer is written to a slot. -/
def write (link : Links ι α) (s : Slot ι α) (p : Option α) : Links ι α :=
  Function.update link s p

/-- The slot through which the first node that satisfies the condition is reached, and the
node.  Nothing at all if the bound does not suffice. -/
def seek (link : Links ι α) (found : α → Bool) : ℕ → Slot ι α → Option (Option (Slot ι α × α))
  | 0, s => if (link s).isNone then some none else none
  | n + 1, s =>
      match link s with
      | none => some none
      | some a => if found a then some (some (s, a)) else seek link found n (.next a)

/-- The nodes that do not stay are moved to the front of the list at `cur`, one after the
other. -/
def relink (stays : α → Bool) (cur : Slot ι α) :
    ℕ → Links ι α → Slot ι α → Option (Links ι α)
  | 0, link, s => if (link s).isNone then some link else none
  | n + 1, link, s =>
      match link s with
      | none => some link
      | some a =>
          if stays a then relink stays cur n link (.next a)
          else
            let link := write link s (link (.next a))
            let link := write link (.next a) (link cur)
            let link := write link cur (some a)
            relink stays cur n link s

variable {link : Links ι α} {a : α} {xs ys : List α} {s cur : Slot ι α} {found stays : α → Bool}
  {n : ℕ}

@[simp] theorem write_self {p : Option α} : write link s p s = p := Function.update_self ..

theorem write_of_ne {p : Option α} {t : Slot ι α} (h : t ≠ s) : write link s p t = link t :=
  Function.update_of_ne h ..

omit [DecidableEq α] in
/-- The loops need no more steps than there are nodes. -/
theorem exists_succ (hn : (a :: xs).length ≤ n) : ∃ m, n = m + 1 ∧ xs.length ≤ m :=
  ⟨n - 1, by rw [List.length_cons] at hn; omega, by rw [List.length_cons] at hn; omega⟩

/-- What `seek` finds is the first node that satisfies the condition.  Writing the pointer
behind the node to the slot takes the node out, and touches no other list. -/
theorem seek_unlink (found : α → Bool) (h : Chain link (link s) xs) (hnodup : xs.Nodup)
    (hs : ∀ b ∈ xs, s ≠ .next b) (hn : xs.length ≤ n) :
    (∀ b ∈ xs, found b = false) ∧ seek link found n s = some none ∨
      ∃ pre a post t, xs = pre ++ a :: post ∧ found a = true ∧ (∀ b ∈ pre, found b = false) ∧
        seek link found n s = some (some (t, a)) ∧
        Chain (write link t (link (.next a))) (write link t (link (.next a)) s) (pre ++ post) ∧
        ∀ u, u ≠ s → (∀ b ∈ xs, u ≠ .next b) → u ≠ t := by
  induction xs generalizing n s with
  | nil =>
      left
      have hnull : link s = none := h
      cases n with
      | zero => exact ⟨by simp, by rw [seek, hnull]; rfl⟩
      | succ n => exact ⟨by simp, by rw [seek, hnull]⟩
  | cons a xs ih =>
      obtain ⟨m, rfl, hm⟩ := exists_succ hn
      obtain ⟨ha, hxs⟩ := List.nodup_cons.mp hnodup
      have hseek : seek link found (m + 1) s =
          if found a then some (some (s, a)) else seek link found m (.next a) := by
        rw [seek, h.1]
      by_cases hfound : found a = true
      · right
        refine ⟨[], a, xs, s, rfl, hfound, by simp, ?_, ?_, fun u hu _ => hu⟩
        · rw [hseek, if_pos hfound]
        · rw [write_self]
          refine h.2.congr fun b hb => write_of_ne ?_
          exact (hs b (List.mem_cons_of_mem a hb)).symm
      · have hnext : ∀ b ∈ xs, Slot.next a ≠ (.next b : Slot ι α) := fun b hb heq =>
          ha (Slot.next.inj heq ▸ hb)
        rw [hseek, if_neg hfound]
        rcases ih h.2 hxs hnext hm with
          ⟨hall, hnone⟩ | ⟨pre, b, post, t, rfl, hb, hpre, hres, hchain, ht⟩
        · left
          refine ⟨fun b hb => ?_, hnone⟩
          rcases List.mem_cons.mp hb with rfl | hb
          · exact eq_false_of_ne_true hfound
          · exact hall b hb
        · have hst : s ≠ t := ht s (hs a List.mem_cons_self)
            fun c hc => hs c (List.mem_cons_of_mem a hc)
          right
          refine ⟨a :: pre, b, post, t, rfl, hb, fun c hc => ?_, hres, ⟨?_, hchain⟩, ?_⟩
          · rcases List.mem_cons.mp hc with rfl | hc
            · exact eq_false_of_ne_true hfound
            · exact hpre c hc
          · rw [write_of_ne hst]
            exact h.1
          · intro u hu hunext
            exact ht u (hunext a List.mem_cons_self)
              fun c hc => hunext c (List.mem_cons_of_mem a hc)

/-- The node that the slot points to is taken out, and put in front of the other list. -/
def move (link : Links ι α) (s cur : Slot ι α) (a : α) : Links ι α :=
  let link := write link s (link (.next a))
  let link := write link (.next a) (link cur)
  write link cur (some a)

theorem relink_of_stays (hs : link s = some a) (hstays : stays a = true) :
    relink stays cur (n + 1) link s = relink stays cur n link (.next a) := by
  rw [relink, hs]
  exact if_pos hstays

theorem relink_of_moves (hs : link s = some a) (hstays : ¬stays a = true) :
    relink stays cur (n + 1) link s = relink stays cur n (move link s cur a) s := by
  rw [relink, hs]
  exact if_neg hstays

/-- Three pointers are written. -/
theorem move_of_ne {u : Slot ι α} (hs : u ≠ s) (ha : u ≠ .next a) (hcur : u ≠ cur) :
    move link s cur a u = link u := by
  simp only [move, write_of_ne hcur, write_of_ne ha, write_of_ne hs]

theorem move_spec (h : Chain link (link s) (a :: xs)) (hcur : Chain link (link cur) ys)
    (ha : a ∉ xs) (hay : a ∉ ys) (hscur : s ≠ cur)
    (hs : ∀ b, b ∈ a :: xs ∨ b ∈ ys → s ≠ .next b)
    (hc : ∀ b, b ∈ a :: xs ∨ b ∈ ys → cur ≠ .next b) :
    Chain (move link s cur a) (move link s cur a s) xs ∧
      Chain (move link s cur a) (move link s cur a cur) (a :: ys) := by
  have hsa : s ≠ .next a := hs a (.inl List.mem_cons_self)
  have hca : cur ≠ .next a := hc a (.inl List.mem_cons_self)
  have hlinks : move link s cur a s = link (.next a) := by
    simp only [move, write_of_ne hscur, write_of_ne hsa, write_self]
  have hlinkcur : move link s cur a cur = some a := write_self
  have hlinka : move link s cur a (.next a) = link cur := by
    simp only [move, write_of_ne hca.symm, write_self, write_of_ne hscur.symm]
  -- the nodes of the two lists keep their next pointers
  have hsame : ∀ b, b ∈ xs ∨ b ∈ ys → move link s cur a (.next b) = link (.next b) := by
    intro b hb
    have hb' : b ∈ a :: xs ∨ b ∈ ys := hb.imp_left (List.mem_cons_of_mem a)
    refine move_of_ne (hs b hb').symm (fun heq => ?_) (hc b hb').symm
    obtain rfl : b = a := Slot.next.inj heq
    exact hb.elim ha hay
  refine ⟨?_, hlinkcur, ?_⟩
  · rw [hlinks]
    exact h.2.congr fun b hb => hsame b (.inl hb)
  · rw [hlinka]
    exact hcur.congr fun b hb => hsame b (.inr hb)

/-- The list is split by the condition: what stays keeps its order, what moves is in front
of the other list in the opposite order.  No third list is touched. -/
theorem relink_spec (stays : α → Bool) (h : Chain link (link s) xs)
    (hcur : Chain link (link cur) ys)
    (hnodup : xs.Nodup) (hdisjoint : ∀ b ∈ xs, b ∉ ys) (hscur : s ≠ cur)
    (hs : ∀ b, b ∈ xs ∨ b ∈ ys → s ≠ .next b) (hc : ∀ b, b ∈ xs ∨ b ∈ ys → cur ≠ .next b)
    (hn : xs.length ≤ n) :
    ∃ link', relink stays cur n link s = some link' ∧
      Chain link' (link' s) (xs.filter stays) ∧
      Chain link' (link' cur) ((xs.filter fun a => !stays a).reverse ++ ys) ∧
      ∀ u, u ≠ s → u ≠ cur → (∀ b ∈ xs, u ≠ .next b) → link' u = link u := by
  -- the two lists hold the same nodes before and after each step of the loop
  induction xs generalizing n s ys link with
  | nil =>
      have hnull : link s = none := h
      refine ⟨link, ?_, h, hcur, fun _ _ _ _ => rfl⟩
      cases n with
      | zero => rw [relink, hnull]; rfl
      | succ n => rw [relink, hnull]
  | cons a xs ih =>
      obtain ⟨m, rfl, hm⟩ := exists_succ hn
      obtain ⟨ha, hxs⟩ := List.nodup_cons.mp hnodup
      have hay : a ∉ ys := hdisjoint a List.mem_cons_self
      by_cases hstays : stays a = true
      · -- the slot advances to the next field of the node
        have hanext : ∀ b, b ∈ xs ∨ b ∈ ys → Slot.next a ≠ (.next b : Slot ι α) := by
          intro b hb heq
          obtain rfl : a = b := Slot.next.inj heq
          exact hb.elim ha hay
        have htail : ∀ b, b ∈ xs ∨ b ∈ ys → b ∈ a :: xs ∨ b ∈ ys := fun b hb =>
          hb.imp_left (List.mem_cons_of_mem a)
        obtain ⟨link', hres, hkept, hmoved, hframe⟩ :=
          ih (s := .next a) h.2 hcur hxs (fun b hb => hdisjoint b (List.mem_cons_of_mem a hb))
            (hc a (.inl List.mem_cons_self)).symm hanext (fun b hb => hc b (htail b hb)) hm
        refine ⟨link', (relink_of_stays h.1 hstays).trans hres, ?_, ?_, ?_⟩
        · rw [List.filter_cons_of_pos hstays]
          refine ⟨?_, hkept⟩
          rw [hframe s (hs a (.inl List.mem_cons_self)) hscur
            fun b hb => hs b (.inl (List.mem_cons_of_mem a hb))]
          exact h.1
        · rw [List.filter_cons_of_neg (by simp [hstays])]
          exact hmoved
        · intro u hu hucur hunext
          exact hframe u (hunext a List.mem_cons_self) hucur
            fun b hb => hunext b (List.mem_cons_of_mem a hb)
      · -- the node is taken out, and put in front of the other list
        obtain ⟨hxs₁, hys₁⟩ := move_spec h hcur ha hay hscur hs hc
        have hmem : ∀ b, b ∈ xs ∨ b ∈ a :: ys → b ∈ a :: xs ∨ b ∈ ys := by
          rintro b (hb | hb)
          · exact .inl (List.mem_cons_of_mem a hb)
          · rcases List.mem_cons.mp hb with rfl | hb
            · exact .inl List.mem_cons_self
            · exact .inr hb
        have hdisjoint₁ : ∀ b ∈ xs, b ∉ a :: ys := by
          intro b hb hmem
          rcases List.mem_cons.mp hmem with rfl | hbys
          · exact ha hb
          · exact hdisjoint b (List.mem_cons_of_mem a hb) hbys
        obtain ⟨link', hres, hkept, hmoved, hframe⟩ :=
          ih hxs₁ hys₁ hxs hdisjoint₁ hscur (fun b hb => hs b (hmem b hb))
            (fun b hb => hc b (hmem b hb)) hm
        refine ⟨link', (relink_of_moves h.1 hstays).trans hres, ?_, ?_, ?_⟩
        · rw [List.filter_cons_of_neg hstays]
          exact hkept
        · rw [List.filter_cons_of_pos (by simp [hstays]), List.reverse_cons, List.append_assoc]
          exact hmoved
        · intro u hu hucur hunext
          rw [hframe u hu hucur fun b hb => hunext b (List.mem_cons_of_mem a hb)]
          exact move_of_ne hu (hunext a List.mem_cons_self) hucur

end SinglyLinked
