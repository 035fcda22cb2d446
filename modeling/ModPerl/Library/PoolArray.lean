import Mathlib.Data.List.Basic
import Mathlib.Data.Option.Basic

/-!
# Growable arrays in pool memory

An array is a header, found by its address, and a block of cells that the
header points to.  A push into a full block moves the elements to a block twice
as large and leaves the old block as it is; a copy gets a header and a block of
its own; emptying an array keeps its block, whose cells are then overwritten.
Nothing is ever freed.

What an array holds is stated by `Holds`.  Each operation comes with the list
that its array holds afterwards, and with the fact that no other array holds
anything else than before.
-/

namespace PoolArray

/-- An array header: the block of its elements, and how many there are. -/
structure Header where
  elts : ℕ
  nelts : ℕ

/-- The headers and the blocks that were handed out.  A cell that was never
written holds nothing. -/
structure Memory (α : Type*) where
  headers : List Header
  blocks : List (List (Option α))

namespace Memory

variable {α : Type*}

/-- An empty array with room for so many elements. -/
def make (m : Memory α) (room : ℕ) : Memory α × ℕ :=
  (⟨m.headers ++ [⟨m.blocks.length, 0⟩], m.blocks ++ [List.replicate room none]⟩, m.headers.length)

/-- A new element behind the others. -/
def push (m : Memory α) (a : ℕ) (x : α) : Option (Memory α) :=
  match m.headers[a]? with
  | none => none
  | some header =>
      match m.blocks[header.elts]? with
      | none => none
      | some block =>
          if header.nelts < block.length then
            some
              { headers := m.headers.set a { header with nelts := header.nelts + 1 }
                blocks := m.blocks.set header.elts (block.set header.nelts (some x)) }
          else
            let block := block ++ List.replicate (max block.length 1) none
            some
              { headers := m.headers.set a ⟨m.blocks.length, header.nelts + 1⟩
                blocks := m.blocks ++ [block.set header.nelts (some x)] }

/-- A new array with the same elements. -/
def copy (m : Memory α) (a : ℕ) : Option (Memory α × ℕ) :=
  match m.headers[a]? with
  | none => none
  | some header =>
      match m.blocks[header.elts]? with
      | none => none
      | some block =>
          let rest := List.replicate (block.length - header.nelts) none
          some
            (⟨m.headers ++ [⟨m.blocks.length, header.nelts⟩],
              m.blocks ++ [block.take header.nelts ++ rest]⟩,
              m.headers.length)

/-- The array holds nothing any more; its block is left as it is. -/
def truncate (m : Memory α) (a : ℕ) : Option (Memory α) :=
  match m.headers[a]? with
  | none => none
  | some header => some { m with headers := m.headers.set a { header with nelts := 0 } }

/-- The cell of a block. -/
def item (m : Memory α) (block i : ℕ) : Option α :=
  (m.blocks[block]?.bind fun block => block[i]?).join

/-- The array at this address holds these elements. -/
def Holds (m : Memory α) (a : ℕ) (xs : List α) : Prop :=
  ∃ header block, m.headers[a]? = some header ∧ m.blocks[header.elts]? = some block ∧
    header.nelts = xs.length ∧ block.take header.nelts = xs.map some

/-- Every header points to a block, and no two to the same. -/
structure Separate (m : Memory α) : Prop where
  lt : ∀ {a : ℕ} {header : Header}, m.headers[a]? = some header → header.elts < m.blocks.length
  inj : ∀ {a a' : ℕ} {header header' : Header}, m.headers[a]? = some header →
    m.headers[a']? = some header' → header.elts = header'.elts → a = a'

/-- The array still holds these elements, where it held them. -/
def Stays (m m' : Memory α) (a : ℕ) (xs : List α) : Prop :=
  m'.Holds a xs ∧ m'.headers[a]? = m.headers[a]?

/-- The other arrays are as they were. -/
def Others (m m' : Memory α) (a : ℕ) : Prop :=
  ∀ {a' ys}, a' ≠ a → m.Holds a' ys → Stays m m' a' ys

variable {m m' : Memory α} {a a' : ℕ} {xs ys : List α} {x : α}

theorem Holds.lt (h : m.Holds a xs) : a < m.headers.length := by
  obtain ⟨header, -, hheader, -⟩ := h
  exact (List.getElem?_eq_some_iff.mp hheader).1

/-- An array holds one list. -/
theorem Holds.unique (h : m.Holds a xs) (h' : m.Holds a ys) : xs = ys := by
  obtain ⟨header, block, hheader, hblock, -, hxs⟩ := h
  obtain ⟨header', block', hheader', hblock', -, hys⟩ := h'
  obtain rfl := Option.some.inj (hheader.symm.trans hheader')
  obtain rfl := Option.some.inj (hblock.symm.trans hblock')
  exact List.map_injective_iff.mpr (Option.some_injective α) (hxs.symm.trans hys)

/-- The elements are read from the block that the header points to. -/
theorem Holds.item (h : m.Holds a xs) :
    ∃ header, m.headers[a]? = some header ∧ header.nelts = xs.length ∧
      ∀ i, i < xs.length → m.item header.elts i = xs[i]? := by
  obtain ⟨header, block, hheader, hblock, hnelts, hxs⟩ := h
  refine ⟨header, hheader, hnelts, fun i hi => ?_⟩
  have hcell : block[i]? = (xs.map some)[i]? := by
    rw [← hxs, List.getElem?_take_of_lt (by omega)]
  rw [Memory.item, hblock, Option.bind_some, hcell, List.getElem?_map, List.getElem?_eq_getElem hi]
  rfl

/-- An array is as it was if its header and its block are. -/
theorem Holds.stays (h : m.Holds a xs)
    (hheaders : ∀ header, m.headers[a]? = some header → m'.headers[a]? = some header)
    (hblocks : ∀ header block, m.headers[a]? = some header →
      m.blocks[header.elts]? = some block → m'.blocks[header.elts]? = some block) :
    Stays m m' a xs := by
  obtain ⟨header, block, hheader, hblock, hrest⟩ := h
  refine ⟨⟨header, block, hheaders _ hheader, hblocks _ _ hheader hblock, hrest⟩, ?_⟩
  rw [hheaders _ hheader, hheader]

/-! ## The operations -/

theorem take_set_succ {l : List α} {n : ℕ} (hn : n < l.length) (x : α) :
    (l.set n x).take (n + 1) = l.take n ++ [x] := by
  rw [List.take_add_one, List.getElem?_set_self hn, List.take_set_of_le (Nat.le_refl n)]
  rfl

/-- A new array is separate from the others, which keep what they hold. -/
theorem Separate.snoc (hsep : m.Separate) (block : List (Option α)) (nelts : ℕ) :
    Separate ⟨m.headers ++ [⟨m.blocks.length, nelts⟩], m.blocks ++ [block]⟩ := by
  have hcases : ∀ {a : ℕ} {header : Header},
      (m.headers ++ [⟨m.blocks.length, nelts⟩])[a]? = some header →
      m.headers[a]? = some header ∨ a = m.headers.length ∧ header.elts = m.blocks.length := by
    intro a header hheader
    rw [List.getElem?_append] at hheader
    split_ifs at hheader with hlt
    · exact .inl hheader
    · obtain ⟨hzero, rfl⟩ := List.getElem?_eq_some_iff.mp hheader
      simp only [List.length_singleton, Nat.lt_one_iff] at hzero
      refine .inr ⟨by omega, ?_⟩
      simp only [hzero, List.getElem_cons_zero]
  constructor
  · intro a header hheader
    rw [List.length_append, List.length_singleton]
    rcases hcases hheader with hold | ⟨-, hnew⟩
    · exact Nat.lt_succ_of_lt (hsep.lt hold)
    · omega
  · intro a a' header header' hheader hheader' helts
    rcases hcases hheader with hold | ⟨ha, hnew⟩ <;>
      rcases hcases hheader' with hold' | ⟨ha', hnew'⟩
    · exact hsep.inj hold hold' helts
    · exact absurd (hsep.lt hold) (by omega)
    · exact absurd (hsep.lt hold') (by omega)
    · omega

theorem Holds.snoc (h : m.Holds a xs) (header : Header) (block : List (Option α)) :
    Stays m ⟨m.headers ++ [header], m.blocks ++ [block]⟩ a xs := by
  refine h.stays (fun header hheader => ?_) (fun header block _ hblock => ?_)
  · exact List.getElem?_append_left (List.getElem?_eq_some_iff.mp hheader).1 ▸ hheader
  · exact List.getElem?_append_left (List.getElem?_eq_some_iff.mp hblock).1 ▸ hblock

/-- A new array holds nothing. -/
theorem Separate.make (hsep : m.Separate) (room : ℕ) :
    (m.make room).1.Holds (m.make room).2 [] ∧ (m.make room).1.Separate ∧
      (∀ {a xs}, m.Holds a xs → Stays m (m.make room).1 a xs ∧ a ≠ (m.make room).2) := by
  refine ⟨⟨⟨m.blocks.length, 0⟩, List.replicate room none, ?_, ?_, rfl, rfl⟩, hsep.snoc _ _, ?_⟩
  · exact List.getElem?_concat_length
  · exact List.getElem?_concat_length
  · exact fun h => ⟨h.snoc _ _, Nat.ne_of_lt h.lt⟩

/-- A copy holds the same list, in a place of its own. -/
theorem Holds.copy (h : m.Holds a xs) (hsep : m.Separate) :
    ∃ m' a', m.copy a = some (m', a') ∧ m'.Holds a' xs ∧ m'.Separate ∧
      (∀ {b ys}, m.Holds b ys → Stays m m' b ys ∧ b ≠ a') := by
  obtain ⟨header, block, hheader, hblock, hnelts, hxs⟩ := h
  refine ⟨_, _, by simp only [Memory.copy, hheader, hblock]; rfl,
    ⟨⟨m.blocks.length, header.nelts⟩,
      block.take header.nelts ++ List.replicate (block.length - header.nelts) none,
      ?_, ?_, hnelts, ?_⟩, hsep.snoc _ _, ?_⟩
  · exact List.getElem?_concat_length
  · exact List.getElem?_concat_length
  · have hlength : (block.take header.nelts).length = header.nelts := by
      rw [hxs, List.length_map, hnelts]
    rw [List.take_left' hlength, hxs]
  · exact fun h => ⟨h.snoc _ _, Nat.ne_of_lt h.lt⟩

/-- The headers after one of them was written. -/
theorem getElem?_set_of_some {l : List Header} {header : Header} (h : l[a]? = some header)
    (header' : Header) (b : ℕ) :
    (l.set a header')[b]? = if b = a then some header' else l[b]? := by
  by_cases hb : b = a
  · rw [if_pos hb, hb, List.getElem?_set_self (List.getElem?_eq_some_iff.mp h).1]
  · rw [if_neg hb, List.getElem?_set_ne (Ne.symm hb)]

/-- A header that keeps its block stays separate from the others. -/
theorem Separate.set (hsep : m.Separate) {header : Header} (hheader : m.headers[a]? = some header)
    (nelts : ℕ) {blocks : List (List (Option α))} (hblocks : blocks.length = m.blocks.length) :
    Separate ⟨m.headers.set a { header with nelts }, blocks⟩ := by
  have hold : ∀ {b : ℕ} {header₁ : Header},
      (m.headers.set a { header with nelts })[b]? = some header₁ →
      ∃ header₀ : Header, m.headers[b]? = some header₀ ∧ header₀.elts = header₁.elts := by
    intro b header₁ h₁
    rw [getElem?_set_of_some hheader] at h₁
    split_ifs at h₁ with heq
    · exact ⟨header, heq ▸ hheader, (Option.some.inj h₁) ▸ rfl⟩
    · exact ⟨header₁, h₁, rfl⟩
  constructor
  · intro b header₁ h₁
    obtain ⟨header₀, h₀, helts⟩ := hold h₁
    rw [hblocks, ← helts]
    exact hsep.lt h₀
  · intro b₁ b₂ header₁ header₂ h₁ h₂ helts
    obtain ⟨_, h₁, helts₁⟩ := hold h₁
    obtain ⟨_, h₂, helts₂⟩ := hold h₂
    exact hsep.inj h₁ h₂ (by rw [helts₁, helts₂, helts])

/-- An emptied array holds nothing, and the others what they held. -/
theorem Holds.truncate (h : m.Holds a xs) (hsep : m.Separate) :
    ∃ m', m.truncate a = some m' ∧ m'.Holds a [] ∧ m'.Separate ∧ Others m m' a := by
  obtain ⟨header, block, hheader, hblock, -, -⟩ := h
  have hset := getElem?_set_of_some hheader { header with nelts := 0 }
  refine ⟨{ m with headers := m.headers.set a { header with nelts := 0 } }, ?_,
    ⟨{ header with nelts := 0 }, block, ?_, hblock, rfl, rfl⟩, hsep.set hheader 0 rfl, ?_⟩
  · simp only [Memory.truncate, hheader]
  · rw [hset, if_pos rfl]
  · intro b ys hne h'
    refine h'.stays (fun header₁ h₁ => ?_) (fun _ _ _ hblock => hblock)
    rw [hset, if_neg hne, h₁]

/-- A push into a block with room writes the next cell. -/
theorem push_of_lt {header : Header} {block : List (Option α)}
    (hheader : m.headers[a]? = some header) (hblock : m.blocks[header.elts]? = some block)
    (hsep : m.Separate) (hlt : header.nelts < block.length)
    (hxs : block.take header.nelts = xs.map some) (hnelts : header.nelts = xs.length) (x : α) :
    ∃ m', m.push a x = some m' ∧ m'.Holds a (xs ++ [x]) ∧ m'.Separate ∧ Others m m' a := by
  have hset := getElem?_set_of_some hheader { header with nelts := header.nelts + 1 }
  refine ⟨⟨m.headers.set a { header with nelts := header.nelts + 1 },
      m.blocks.set header.elts (block.set header.nelts (some x))⟩, ?push,
    ⟨{ header with nelts := header.nelts + 1 }, block.set header.nelts (some x), ?header, ?block,
      ?nelts, ?elts⟩, hsep.set hheader _ List.length_set, ?others⟩
  case push =>
    simp only [Memory.push, hheader, hblock, if_pos hlt]
  case header =>
    rw [hset, if_pos rfl]
  case block =>
    exact List.getElem?_set_self (List.getElem?_eq_some_iff.mp hblock).1
  case nelts =>
    rw [List.length_append, List.length_singleton, hnelts]
  case elts =>
    rw [take_set_succ hlt, hxs, List.map_append]
    rfl
  case others =>
    intro b ys hne h'
    refine h'.stays (fun header₁ h₁ => ?_) (fun header₁ block₁ h₁ hblock₁ => ?_)
    · rw [hset, if_neg hne, h₁]
    · rw [List.getElem?_set_ne, hblock₁]
      exact fun helts => hne (hsep.inj h₁ hheader helts.symm)

/-- A push into a full block moves the elements to a new one. -/
theorem push_of_full {header : Header} {block : List (Option α)}
    (hheader : m.headers[a]? = some header) (hblock : m.blocks[header.elts]? = some block)
    (hsep : m.Separate) (hfull : ¬header.nelts < block.length)
    (hxs : block.take header.nelts = xs.map some) (hnelts : header.nelts = xs.length) (x : α) :
    ∃ m', m.push a x = some m' ∧ m'.Holds a (xs ++ [x]) ∧ m'.Separate ∧ Others m m' a := by
  have hset := getElem?_set_of_some hheader ⟨m.blocks.length, header.nelts + 1⟩
  have hall : header.nelts = block.length := by
    have hlength := congrArg List.length hxs
    rw [List.length_take, List.length_map] at hlength
    omega
  have hroom : header.nelts < (block ++ List.replicate (max block.length 1) none).length := by
    rw [List.length_append, List.length_replicate]
    omega
  -- the array alone has its elements in the new block
  have helts : ∀ {b : ℕ} {header₁ : Header},
      (m.headers.set a ⟨m.blocks.length, header.nelts + 1⟩)[b]? = some header₁ →
        b = a ∧ header₁.elts = m.blocks.length ∨ b ≠ a ∧ m.headers[b]? = some header₁ := by
    intro b header₁ h₁
    rw [hset] at h₁
    split_ifs at h₁ with heq
    · exact .inl ⟨heq, (Option.some.inj h₁) ▸ rfl⟩
    · exact .inr ⟨heq, h₁⟩
  refine ⟨⟨m.headers.set a ⟨m.blocks.length, header.nelts + 1⟩,
      m.blocks ++
        [(block ++ List.replicate (max block.length 1) none).set header.nelts (some x)]⟩, ?push,
    ⟨⟨m.blocks.length, header.nelts + 1⟩,
      (block ++ List.replicate (max block.length 1) none).set header.nelts (some x),
      ?header, ?block, ?nelts, ?elts⟩, ⟨?lt, ?inj⟩, ?others⟩
  case push =>
    simp only [Memory.push, hheader, hblock, if_neg hfull]
  case header =>
    rw [hset, if_pos rfl]
  case block =>
    exact List.getElem?_concat_length
  case nelts =>
    rw [List.length_append, List.length_singleton, hnelts]
  case elts =>
    rw [take_set_succ hroom, List.take_append_of_le_length (Nat.le_of_eq hall), hxs,
      List.map_append]
    rfl
  case lt =>
    intro b header₁ h₁
    rw [List.length_append, List.length_singleton]
    rcases helts h₁ with ⟨-, hnew⟩ | ⟨-, hold⟩
    · omega
    · exact Nat.lt_succ_of_lt (hsep.lt hold)
  case inj =>
    intro b₁ b₂ header₁ header₂ h₁ h₂ heq
    rcases helts h₁ with ⟨hb₁, hnew₁⟩ | ⟨-, hold₁⟩ <;>
      rcases helts h₂ with ⟨hb₂, hnew₂⟩ | ⟨-, hold₂⟩
    · rw [hb₁, hb₂]
    · exact absurd (hsep.lt hold₂) (by omega)
    · exact absurd (hsep.lt hold₁) (by omega)
    · exact hsep.inj hold₁ hold₂ heq
  case others =>
    intro b ys hne h'
    refine h'.stays (fun header₁ h₁ => ?_) (fun header₁ block₁ h₁ hblock₁ => ?_)
    · rw [hset, if_neg hne, h₁]
    · rw [List.getElem?_append_left (List.getElem?_eq_some_iff.mp hblock₁).1, hblock₁]

/-- A push adds its element behind the others of the array, and the other arrays
hold what they held. -/
theorem Holds.push (h : m.Holds a xs) (hsep : m.Separate) (x : α) :
    ∃ m', m.push a x = some m' ∧ m'.Holds a (xs ++ [x]) ∧ m'.Separate ∧ Others m m' a := by
  obtain ⟨header, block, hheader, hblock, hnelts, hxs⟩ := h
  by_cases hlt : header.nelts < block.length
  · exact push_of_lt hheader hblock hsep hlt hxs hnelts x
  · exact push_of_full hheader hblock hsep hlt hxs hnelts x

end Memory

end PoolArray
