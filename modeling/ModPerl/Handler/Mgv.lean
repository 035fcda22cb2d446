import ModPerl.Httpd
import ModPerl.Library.Block
import Mathlib.Algebra.Group.Nat.Defs
import Mathlib.Algebra.Group.Int.Defs

/-!
# Compiled symbol names

A name such as `Foo::Bar::baz` is compiled to a list of hashed segments, each
but the last with the separator behind it.  The separators are what tells names
apart where one list is shorter than the other, and what makes the segments the
name again.  All lengths are of type `int`; up to the length that this type can
hold a name survives the compilation.

The functions are those of `modperl_mgv.c`.  A result of `none` is an access
outside of a string, or to memory of a negative size.
-/

namespace ModPerl

/-- A number converted to a signed one of 32 bits. -/
def i32 (n : Int) : Int := n.bmod (2 ^ 32)

/-- `modperl_mgv_t`, the list being one of Lean's. -/
structure Mgv where
  name : Bytes
  len : Int
  hash : UInt64
  deriving DecidableEq

namespace Mgv

/-- The first `len` bytes of a string that has so many. -/
def front (name : Bytes) (len : Int) : Option Bytes :=
  if 0 ≤ len ∧ len ≤ name.length then some (name.take len.toNat) else none

variable (perlHash : Bytes → UInt64)

/-- `modperl_mgv_hash`, with `PERL_HASH` for any function of the bytes. -/
def hashed (name : Bytes) (len : Int) : Option Mgv :=
  (front name len).map fun bytes => ⟨name, len, perlHash bytes⟩

/-- A segment with a separator behind it: `len` bytes are copied. -/
def separated (name : Bytes) (len : Int) : Option Mgv :=
  if i32 (len + 3) < 0 then none
  else (front name len).bind fun bytes => hashed perlHash (bytes ++ ascii "::") (len + 2)

/-- The loop of `modperl_mgv_compile`: `name` and `namend` are places in the text, and
`rest` is what is behind `namend`.  Where `name` is left, and the segments. -/
def compileLoop (text : Bytes) : ℕ → ℕ → Bytes → List Mgv → Option (ℕ × List Mgv)
  | name, _, [], mgv => some (name, mgv)
  | name, namend, c :: rest, mgv =>
      if c = 58 ∧ rest.head? = some 58 then
        let len := i32 (namend - name)
        if len > 0 then
          (separated perlHash (text.drop name) len).bind fun segment =>
            compileLoop text (namend + 2) (namend + 1) rest (mgv ++ [segment])
        else compileLoop text (namend + 2) (namend + 1) rest mgv
      else compileLoop text name (namend + 1) rest mgv

/-- `modperl_mgv_compile`.  A negative length makes `apr_pstrndup` copy up to the NUL. -/
def compile (text : Bytes) : Option (List Mgv) :=
  (compileLoop perlHash text 0 0 text []).bind fun (name, mgv) =>
    let len := i32 ((text.length : Int) - name)
    let last := text.drop name
    (hashed perlHash (if len < 0 then last else last.take len.toNat) len).map
      fun segment => mgv ++ [segment]

/-- `modperl_mgv_append` -/
def append (symbol : List Mgv) (name : Bytes) : Option (List Mgv) :=
  match symbol.getLast? with
  | none => none
  | some mgv =>
      (hashed perlHash (mgv.name ++ ascii "::") (i32 (mgv.len + 2))).bind fun mgv =>
        (compile perlHash name).map fun next => symbol.dropLast ++ mgv :: next

/-- `modperl_mgv_equal` -/
def equal : List Mgv → List Mgv → Bool
  | mgv₁ :: rest₁, mgv₂ :: rest₂ =>
      if mgv₁.hash ≠ mgv₂.hash then false
      else if mgv₁.len ≠ mgv₂.len then false
      else if front mgv₁.name mgv₁.len ≠ front mgv₂.name mgv₁.len then false
      else equal rest₁ rest₂
  | _, _ => true

/-- The second loop of `modperl_mgv_as_string`, with `ptr` for its place in the string. -/
def copyLoop : Bytes → ℕ → List Mgv → Option (Bytes × ℕ)
  | string, ptr, [] => some (string, ptr)
  | string, ptr, mgv :: rest =>
      (front mgv.name mgv.len).bind fun bytes =>
        (Block.write string ptr bytes).bind fun string => copyLoop string (ptr + bytes.length) rest

/-- `modperl_mgv_as_string`, for a list that is not empty: the bytes up to the NUL.
New memory has anything in it. -/
def asString (memory : ℕ → UInt8) (symbol : List Mgv) (package : Bool) : Option Bytes :=
  let symbol := if package then symbol.dropLast else symbol
  let len := i32 (symbol.foldl (fun len mgv => i32 (len + mgv.len)) 0 + 1)
  if len < 0 then none
  else
    (copyLoop ((List.range len.toNat).map memory) 0 symbol).bind fun (string, ptr) =>
      if package ∧ ptr < 2 then none
      else
        (Block.write string (if package then ptr - 2 else ptr) [0]).map
          (List.takeWhile (· ≠ 0))

end Mgv

/-! ## Names -/

/-- The segments of a name, joined by the separator. -/
def symbolName : List Bytes → Bytes
  | [] => []
  | [segment] => segment
  | segment :: segments => segment ++ ascii "::" ++ symbolName segments

/-- A segment has at least one byte, none of them a colon, and none the NUL that
ends a string. -/
structure WellFormed (segment : Bytes) : Prop where
  ne_nil : segment ≠ []
  colon : 58 ∉ segment
  nul : 0 ∉ segment

/-- The segments of a name. -/
structure IsName (segments : List Bytes) : Prop where
  ne_nil : segments ≠ []
  wellFormed : ∀ segment ∈ segments, WellFormed segment

/-- Compiled, the name can be had back, and the name of its package. -/
structure Survives (perlHash : Bytes → UInt64) (segments : List Bytes) : Prop where
  name : ∀ memory, (Mgv.compile perlHash (symbolName segments)).bind
    (Mgv.asString memory · false) = some (symbolName segments)
  package : 2 ≤ segments.length → ∀ memory,
    (Mgv.compile perlHash (symbolName segments)).bind (Mgv.asString memory · true) =
      some (symbolName segments.dropLast)

/-- The name `b` appended to the compiled name `a` gives the compiled name `a::b`. -/
def Appends (perlHash : Bytes → UInt64) (a b : List Bytes) : Prop :=
  (Mgv.compile perlHash (symbolName a)).bind (Mgv.append perlHash · (symbolName b)) =
      Mgv.compile perlHash (symbolName (a ++ b)) ∧
    (Mgv.compile perlHash (symbolName (a ++ b))).isSome

/-- The compiled names are equal if the names are, and only then. -/
def ComparesNames (perlHash : Bytes → UInt64) (a b : List Bytes) : Prop :=
  ∃ mgv₁ mgv₂, Mgv.compile perlHash (symbolName a) = some mgv₁ ∧
    Mgv.compile perlHash (symbolName b) = some mgv₂ ∧
    (Mgv.equal mgv₁ mgv₂ = true ↔ symbolName a = symbolName b)

variable {perlHash : Bytes → UInt64} {segment name text rest : Bytes} {a b segments : List Bytes}
  {mgv symbol : List Mgv} {memory : ℕ → UInt8} {place namend : ℕ}

theorem i32_of_lt {n : Int} (hlow : -2 ^ 31 ≤ n) (hhigh : n < 2 ^ 31) : i32 n = n :=
  Int.bmod_eq_of_le (by omega) (by omega)

theorem i32_lt (n : Int) : i32 n < 2 ^ 31 := by
  have hlt : n.bmod (2 ^ 32) < ((2 ^ 32 : ℕ) + 1) / 2 := Int.bmod_lt (by decide)
  unfold i32
  omega

/-! ## Segments -/

theorem length_separator : (ascii "::").length = 2 := rfl

@[simp] theorem symbolName_cons_cons (segment next : Bytes) (segments : List Bytes) :
    symbolName (segment :: next :: segments) =
      segment ++ ascii "::" ++ symbolName (next :: segments) := rfl

theorem symbolName_append (ha : a ≠ []) (hb : b ≠ []) :
    symbolName (a ++ b) = symbolName a ++ ascii "::" ++ symbolName b := by
  induction a using symbolName.induct with
  | case1 => exact absurd rfl ha
  | case2 segment =>
      cases b with
      | nil => exact absurd rfl hb
      | cons next segments => rfl
  | case3 segment segments hne ih =>
      cases segments with
      | nil => exact absurd rfl hne
      | cons next segments =>
          have hcons : symbolName (segment :: next :: segments ++ b) =
              segment ++ ascii "::" ++ symbolName (next :: segments ++ b) := rfl
          rw [hcons, ih (List.cons_ne_nil _ _), symbolName_cons_cons]
          simp only [List.append_assoc]

theorem IsName.cons (h : IsName (segment :: segments)) (hne : segments ≠ []) :
    WellFormed segment ∧ IsName segments :=
  ⟨h.wellFormed _ List.mem_cons_self,
    ⟨hne, fun s hs => h.wellFormed s (List.mem_cons_of_mem _ hs)⟩⟩

theorem IsName.append (ha : IsName a) (hb : IsName b) : IsName (a ++ b) where
  ne_nil := List.append_ne_nil_of_left_ne_nil ha.ne_nil b
  wellFormed s hs := (List.mem_append.mp hs).elim (ha.wellFormed s) (hb.wellFormed s)

/-- A name neither begins with a colon nor contains a NUL. -/
theorem IsName.head_ne (h : IsName segments) : (symbolName segments).head? ≠ some 58 := by
  obtain ⟨segment, segments, rfl⟩ := List.exists_cons_of_ne_nil h.ne_nil
  have hsegment := h.wellFormed segment List.mem_cons_self
  obtain ⟨c, cs, rfl⟩ := List.exists_cons_of_ne_nil hsegment.ne_nil
  have hc : c ≠ 58 := fun heq => hsegment.colon (heq ▸ List.mem_cons_self)
  cases segments <;> simpa [symbolName] using hc

theorem IsName.nul (h : IsName segments) : 0 ∉ symbolName segments := by
  induction segments using symbolName.induct with
  | case1 => exact absurd rfl h.ne_nil
  | case2 segment => exact (h.wellFormed segment List.mem_cons_self).nul
  | case3 segment segments hne ih =>
      obtain ⟨hsegment, hrest⟩ := h.cons hne
      have hsep : (0 : UInt8) ∉ ascii "::" := by decide
      rw [symbolName, List.mem_append, List.mem_append, not_or, not_or]
      · exact ⟨⟨hsegment.nul, hsep⟩, ih hrest⟩
      · exact hne

theorem IsName.length_pos (h : IsName segments) : 0 < (symbolName segments).length := by
  obtain ⟨segment, segments, rfl⟩ := List.exists_cons_of_ne_nil h.ne_nil
  have hpos := List.length_pos_iff.mpr (h.wellFormed segment List.mem_cons_self).ne_nil
  cases segments with
  | nil => exact hpos
  | cons next segments =>
      rw [symbolName_cons_cons, List.length_append, List.length_append]
      omega

namespace Mgv

theorem front_of_le {len : Int} (hlow : 0 ≤ len) (hle : len ≤ name.length) :
    front name len = some (name.take len.toNat) :=
  if_pos ⟨hlow, hle⟩

theorem front_length (name : Bytes) : front name name.length = some name := by
  rw [front_of_le (Int.natCast_nonneg _) (Int.le_refl _), Int.toNat_natCast, List.take_length]

/-- The compiled form of a text that is taken whole. -/
def node (perlHash : Bytes → UInt64) (name : Bytes) : Mgv := ⟨name, name.length, perlHash name⟩

theorem hashed_length (name : Bytes) :
    hashed perlHash name name.length = some (node perlHash name) := by
  rw [hashed, front_length]
  rfl

/-- What a name is compiled to: each segment but the last has the separator. -/
def nodes (perlHash : Bytes → UInt64) : List Bytes → List Mgv
  | [] => []
  | [segment] => [node perlHash segment]
  | segment :: segments => node perlHash (segment ++ ascii "::") :: nodes perlHash segments

@[simp] theorem nodes_cons_cons (segment next : Bytes) (segments : List Bytes) :
    nodes perlHash (segment :: next :: segments) =
      node perlHash (segment ++ ascii "::") :: nodes perlHash (next :: segments) := rfl

/-! ## Compilation -/

theorem compileLoop_segment (hcolon : 58 ∉ segment) :
    compileLoop perlHash text place namend (segment ++ rest) mgv =
      compileLoop perlHash text place (namend + segment.length) rest mgv := by
  induction segment generalizing namend with
  | nil => rfl
  | cons c segment ih =>
      have hc : c ≠ 58 := fun heq => hcolon (heq ▸ List.mem_cons_self)
      have hrest : 58 ∉ segment := fun hmem => hcolon (List.mem_cons_of_mem _ hmem)
      rw [List.cons_append, compileLoop, if_neg (fun h => hc h.1), ih hrest, List.length_cons]
      congr 1
      omega

/-- The segment in front of a separator. -/
theorem separated_eq (hplace : text.drop place = segment ++ rest)
    (hlen : segment.length + 3 < 2 ^ 31) :
    separated perlHash (text.drop place) segment.length =
      some (node perlHash (segment ++ ascii "::")) := by
  have hfront : front (text.drop place) segment.length = some segment := by
    have hle : segment.length ≤ (text.drop place).length := by
      rw [hplace, List.length_append]
      omega
    rw [front_of_le (by omega) (by omega), Int.toNat_natCast, hplace, List.take_left]
  have hsum : ((segment.length : Int) + 2) = (segment ++ ascii "::").length := by
    rw [List.length_append, length_separator, Int.natCast_add]
    rfl
  rw [separated, i32_of_lt (by omega) (by omega), if_neg (by omega), hfront, Option.bind_some,
    hsum, hashed_length]

/-- At a separator the segment in front of it is stored; its second colon is passed. -/
theorem compileLoop_separator (hplace : text.drop place = segment ++ ascii "::" ++ rest)
    (hne : segment ≠ []) (hlen : segment.length + 3 < 2 ^ 31) (hrest : rest.head? ≠ some 58) :
    compileLoop perlHash text place (place + segment.length) (ascii "::" ++ rest) mgv =
      compileLoop perlHash text (place + segment.length + 2) (place + segment.length + 2) rest
        (mgv ++ [node perlHash (segment ++ ascii "::")]) := by
  have hpos := List.length_pos_iff.mpr hne
  have hi32 : i32 (((place + segment.length : ℕ) : Int) - place) = segment.length := by
    rw [i32_of_lt] <;> omega
  rw [List.append_assoc] at hplace
  have htext : ascii "::" ++ rest = 58 :: 58 :: rest := rfl
  rw [htext, compileLoop, if_pos ⟨rfl, rfl⟩]
  simp only [hi32]
  rw [if_pos (by omega), separated_eq hplace hlen, Option.bind_some, compileLoop,
    if_neg (fun h => hrest h.2)]

/-- The loop stores all segments but the last, and stops in front of that. -/
theorem compileLoop_name (mgv : List Mgv) (h : IsName segments)
    (hplace : text.drop place = symbolName segments)
    (hlength : (symbolName segments).length + 1 < 2 ^ 31) :
    ∃ place', compileLoop perlHash text place place (symbolName segments) mgv =
        some (place', mgv ++ (nodes perlHash segments).dropLast) ∧
      segments.getLast? = some (text.drop place') ∧
      nodes perlHash segments =
        (nodes perlHash segments).dropLast ++ [node perlHash (text.drop place')] := by
  induction segments using symbolName.induct generalizing place mgv with
  | case1 => exact absurd rfl h.ne_nil
  | case2 segment =>
      refine ⟨place, ?_, by rw [hplace]; rfl, by rw [hplace]; rfl⟩
      have hcolon := (h.wellFormed segment List.mem_cons_self).colon
      have hscan : compileLoop perlHash text place place (segment ++ []) mgv = _ :=
        compileLoop_segment hcolon
      rw [List.append_nil] at hscan
      rw [symbolName, hscan, compileLoop]
      simp [nodes]
  | case3 segment segments hne ih =>
      obtain ⟨next, segments, rfl⟩ := List.exists_cons_of_ne_nil hne
      obtain ⟨hsegment, hrest⟩ := h.cons hne
      rw [symbolName_cons_cons] at hplace hlength ⊢
      rw [List.length_append, List.length_append, length_separator] at hlength
      have hpos := hrest.length_pos
      have hplace' : text.drop (place + segment.length + 2) = symbolName (next :: segments) := by
        rw [Nat.add_assoc, ← List.drop_drop, hplace]
        exact List.drop_left' (by rw [List.length_append, length_separator])
      obtain ⟨place', hloop, hlast, hnodes⟩ :=
        ih (mgv ++ [node perlHash (segment ++ ascii "::")]) hrest hplace' (by omega)
      refine ⟨place', ?_, ?_, ?_⟩
      · rw [List.append_assoc segment, compileLoop_segment hsegment.colon,
          compileLoop_separator hplace hsegment.ne_nil (by omega) hrest.head_ne, hloop,
          nodes_cons_cons, List.append_assoc]
        congr 2
        cases segments <;> rfl
      · rw [List.getLast?_cons_cons]
        exact hlast
      · rw [nodes_cons_cons, hnodes]
        rw [← List.cons_append, List.dropLast_concat]

theorem compile_eq (h : IsName segments) (hlength : (symbolName segments).length + 1 < 2 ^ 31) :
    compile perlHash (symbolName segments) = some (nodes perlHash segments) := by
  have hdrop : (symbolName segments).drop 0 = symbolName segments := rfl
  obtain ⟨place, hloop, hlast, hnodes⟩ := compileLoop_name [] h hdrop hlength
  have hne : (symbolName segments).drop place ≠ [] :=
    (h.wellFormed _ (List.mem_of_getLast? hlast)).ne_nil
  have hpos := List.length_pos_iff.mpr hne
  rw [List.length_drop] at hpos
  have hi32 : i32 (((symbolName segments).length : Int) - place) =
      ((symbolName segments).drop place).length := by
    rw [List.length_drop, i32_of_lt] <;> omega
  rw [compile, hloop, Option.bind_some]
  simp only [hi32]
  rw [if_neg (by omega), Int.toNat_natCast, List.take_length, hashed_length, Option.map_some,
    List.nil_append, ← hnodes]

theorem nodes_append (perlHash : Bytes → UInt64) (ha : a ≠ []) (hb : b ≠ []) :
    ∃ last, (nodes perlHash a).getLast? = some (node perlHash last) ∧
      last.length ≤ (symbolName a).length ∧
      nodes perlHash (a ++ b) = (nodes perlHash a).dropLast ++
        node perlHash (last ++ ascii "::") :: nodes perlHash b := by
  induction a using symbolName.induct with
  | case1 => exact absurd rfl ha
  | case2 segment =>
      obtain ⟨next, segments, rfl⟩ := List.exists_cons_of_ne_nil hb
      exact ⟨segment, rfl, Nat.le_refl _, rfl⟩
  | case3 segment segments hne ih =>
      obtain ⟨next, segments, rfl⟩ := List.exists_cons_of_ne_nil hne
      obtain ⟨last, hlast, hle, hnodes⟩ := ih (List.cons_ne_nil _ _)
      have hcons : nodes perlHash (segment :: next :: segments ++ b) =
          node perlHash (segment ++ ascii "::") :: nodes perlHash (next :: segments ++ b) := rfl
      refine ⟨last, ?_, ?_, ?_⟩
      · rw [nodes_cons_cons, List.getLast?_cons, hlast]
        rfl
      · rw [symbolName_cons_cons, List.length_append]
        omega
      · have hne : nodes perlHash (next :: segments) ≠ [] := by
          rintro heq
          rw [heq] at hlast
          cases hlast
        rw [hcons, hnodes, nodes_cons_cons, List.dropLast_cons_of_ne_nil hne, List.cons_append]

theorem append_eq (ha : IsName a) (hb : IsName b)
    (hlength : (symbolName (a ++ b)).length + 1 < 2 ^ 31) :
    append perlHash (nodes perlHash a) (symbolName b) = some (nodes perlHash (a ++ b)) := by
  obtain ⟨last, hlast, hle, hnodes⟩ := nodes_append perlHash ha.ne_nil hb.ne_nil
  rw [symbolName_append ha.ne_nil hb.ne_nil, List.length_append, List.length_append,
    length_separator] at hlength
  have hsum : i32 ((node perlHash last).len + 2) = (last ++ ascii "::").length := by
    rw [List.length_append, length_separator, Int.natCast_add]
    have hlen : (node perlHash last).len = last.length := rfl
    rw [hlen]
    exact i32_of_lt (by omega) (by omega)
  have hname : (node perlHash last).name = last := rfl
  rw [append, hlast]
  simp only [hsum, hname]
  rw [hashed_length, Option.bind_some, compile_eq hb (by omega), Option.map_some, hnodes]

/-! ## The name of a compiled symbol -/

/-- The lengths are added up without overflow. -/
theorem foldl_len (n : ℕ) (hwhole : ∀ mgv ∈ symbol, mgv.len = mgv.name.length)
    (hlength : n + (symbol.flatMap Mgv.name).length < 2 ^ 31) :
    symbol.foldl (fun len mgv => i32 (len + mgv.len)) (n : Int) =
      (n + (symbol.flatMap Mgv.name).length : ℕ) := by
  induction symbol generalizing n with
  | nil => rfl
  | cons mgv symbol ih =>
      rw [List.flatMap_cons, List.length_append] at hlength
      have hlen := hwhole mgv List.mem_cons_self
      have hi32 : i32 ((n : Int) + mgv.len) = (n + mgv.name.length : ℕ) := by
        rw [hlen, i32_of_lt] <;> omega
      have hrest := ih (n + mgv.name.length) (fun m hm => hwhole m (List.mem_cons_of_mem _ hm))
        (by omega)
      rw [List.foldl_cons, hi32, hrest, List.flatMap_cons, List.length_append]
      congr 1
      omega

/-- The segments are written one behind the other. -/
theorem copyLoop_eq {string : Bytes} {ptr : ℕ} (hwhole : ∀ mgv ∈ symbol, mgv.len = mgv.name.length)
    (hptr : ptr ≤ string.length) :
    copyLoop string ptr symbol =
      (Block.write string ptr (symbol.flatMap Mgv.name)).map fun string =>
        (string, ptr + (symbol.flatMap Mgv.name).length) := by
  induction symbol generalizing string ptr with
  | nil =>
      rw [copyLoop, List.flatMap_nil, Block.write_nil hptr]
      rfl
  | cons mgv symbol ih =>
      have hfront : front mgv.name mgv.len = some mgv.name := by
        rw [hwhole mgv List.mem_cons_self, front_length]
      rw [copyLoop, hfront, Option.bind_some, List.flatMap_cons, Block.write_append]
      cases hwrite : Block.write string ptr mgv.name with
      | none => rfl
      | some string' =>
          have hfits := (Block.write_eq_some hwrite).1
          have hlength := Block.length_write hwrite
          rw [Option.bind_some, Option.bind_some,
            ih (fun m hm => hwhole m (List.mem_cons_of_mem _ hm)) (by omega), List.length_append,
            Nat.add_assoc]

/-- Into new memory of just the size that they need. -/
theorem copyLoop_fresh (memory : ℕ → UInt8) (hwhole : ∀ mgv ∈ symbol, mgv.len = mgv.name.length)
    (htext : symbol.flatMap Mgv.name = text) :
    copyLoop ((List.range (text.length + 1)).map memory) 0 symbol =
      some (text ++ [memory text.length], text.length) := by
  have hlength : ((List.range (text.length + 1)).map memory).length = text.length + 1 := by
    rw [List.length_map, List.length_range]
  have hdrop : ((List.range (text.length + 1)).map memory).drop text.length =
      [memory text.length] := by
    rw [List.range_succ, List.map_append,
      List.drop_left' (by rw [List.length_map, List.length_range])]
    rfl
  have hwrite : Block.write ((List.range (text.length + 1)).map memory) 0 text =
      some (text ++ [memory text.length]) := by
    rw [Block.write, if_pos (by omega), Nat.zero_add, hdrop]
    rfl
  calc copyLoop ((List.range (text.length + 1)).map memory) 0 symbol
      = (Block.write ((List.range (text.length + 1)).map memory) 0 text).map
          fun string => (string, 0 + text.length) := by
        rw [copyLoop_eq hwhole (Nat.zero_le _), htext]
    _ = some (text ++ [memory text.length], text.length) := by
        rw [hwrite, Option.map_some, Nat.zero_add]

/-- A NUL that is written ends the string. -/
theorem takeWhile_write {block block' : Bytes} (hwrite : Block.write block place [0] = some block')
    (hnul : 0 ∉ block.take place) : block'.takeWhile (· ≠ 0) = block.take place := by
  obtain ⟨-, rfl⟩ := Block.write_eq_some hwrite
  rw [List.append_assoc, List.takeWhile_append_of_pos]
  · simp
  · intro c hc
    have hne : c ≠ 0 := by
      rintro rfl
      exact hnul hc
    simpa using hne

/-- Segments that are as long as they say are copied whole, within the string; for
the package the last two bytes are cut off. -/
theorem asString_eq (memory : ℕ → UInt8) {package : Bool} {copied : List Mgv}
    (hcopied : (if package then symbol.dropLast else symbol) = copied)
    (hwhole : ∀ mgv ∈ copied, mgv.len = mgv.name.length)
    (htext : copied.flatMap Mgv.name = text) (hnul : 0 ∉ text) (hlength : text.length + 1 < 2 ^ 31)
    (hpackage : package = true → 2 ≤ text.length) :
    asString memory symbol package =
      some (text.take (if package then text.length - 2 else text.length)) := by
  have hfoldl := foldl_len 0 hwhole (by rw [htext]; omega)
  rw [Nat.zero_add, htext, Int.natCast_zero] at hfoldl
  have hsize : i32 ((text.length : Int) + 1) = (text.length + 1 : ℕ) := by
    rw [i32_of_lt] <;> omega
  have hplace : (if package then text.length - 2 else text.length) ≤ text.length := by
    split_ifs <;> omega
  have hfront : ∀ place ≤ text.length,
      (text ++ [memory text.length]).take place = text.take place :=
    fun place hle => List.take_append_of_le_length hle
  have hends : ¬((package : Prop) ∧ text.length < 2) := by
    rintro ⟨hp, hlt⟩
    have hle := hpackage hp
    omega
  obtain ⟨string, hend⟩ : ∃ string, Block.write (text ++ [memory text.length])
      (if package then text.length - 2 else text.length) [0] = some string :=
    Block.exists_write
      (by rw [List.length_append, List.length_singleton, List.length_singleton]; omega)
  have hresult := takeWhile_write hend
    (by rw [hfront _ hplace]; exact fun hmem => hnul (List.mem_of_mem_take hmem))
  unfold asString
  simp only [hcopied, hfoldl, hsize, Int.toNat_natCast]
  rw [if_neg (by omega), copyLoop_fresh memory hwhole htext, Option.bind_some]
  simp only [hends, if_false, hend, Option.map_some, hresult, hfront _ hplace]

/-! ## Names that are compiled -/

theorem nodes_whole (perlHash : Bytes → UInt64) (segments : List Bytes) :
    ∀ mgv ∈ nodes perlHash segments, mgv.len = mgv.name.length := by
  induction segments using symbolName.induct with
  | case1 => exact fun mgv hmgv => nomatch hmgv
  | case2 segment =>
      intro mgv hmgv
      rw [List.mem_singleton.mp hmgv]
      rfl
  | case3 segment segments hne ih =>
      obtain ⟨next, segments, rfl⟩ := List.exists_cons_of_ne_nil hne
      intro mgv hmgv
      rcases List.mem_cons.mp hmgv with rfl | hmgv
      · rfl
      · exact ih mgv hmgv

theorem flatMap_nodes (perlHash : Bytes → UInt64) (segments : List Bytes) :
    (nodes perlHash segments).flatMap Mgv.name = symbolName segments := by
  induction segments using symbolName.induct with
  | case1 => rfl
  | case2 segment => exact List.append_nil _
  | case3 segment segments hne ih =>
      obtain ⟨next, segments, rfl⟩ := List.exists_cons_of_ne_nil hne
      rw [nodes_cons_cons, List.flatMap_cons, ih]
      rfl

theorem flatMap_nodes_dropLast (perlHash : Bytes → UInt64) (htwo : 2 ≤ segments.length) :
    (nodes perlHash segments).dropLast.flatMap Mgv.name =
      symbolName segments.dropLast ++ ascii "::" := by
  induction segments using symbolName.induct with
  | case1 => cases htwo
  | case2 segment => exact absurd htwo (by simp)
  | case3 segment segments hne ih =>
      obtain ⟨next, segments, rfl⟩ := List.exists_cons_of_ne_nil hne
      cases segments with
      | nil => exact List.append_nil _
      | cons next' segments =>
          have hih := ih (by simp)
          have hdrop : (segment :: next :: next' :: segments).dropLast =
              segment :: next :: (next' :: segments).dropLast := rfl
          have hnodes : (nodes perlHash (segment :: next :: next' :: segments)).dropLast =
              node perlHash (segment ++ ascii "::") ::
                (nodes perlHash (next :: next' :: segments)).dropLast := rfl
          have hname : (node perlHash (segment ++ ascii "::")).name = segment ++ ascii "::" := rfl
          have hcons : symbolName (segment :: next :: (next' :: segments).dropLast) =
              segment ++ ascii "::" ++ symbolName (next :: next' :: segments).dropLast := rfl
          rw [hnodes, List.flatMap_cons, hih, hname, hdrop, hcons]
          simp only [List.append_assoc]

/-- Segments of which the last ones alone lack the separator do not agree unless they
are the same. -/
theorem equal_nodes (ha : IsName a) (hb : IsName b)
    (h : equal (nodes perlHash a) (nodes perlHash b) = true) : a = b := by
  have hfirst : ∀ {name₁ name₂ : Bytes} {rest₁ rest₂ : List Mgv},
      equal (node perlHash name₁ :: rest₁) (node perlHash name₂ :: rest₂) = true →
        name₁ = name₂ ∧ equal rest₁ rest₂ = true := by
    intro name₁ name₂ rest₁ rest₂ heq
    rw [equal] at heq
    split_ifs at heq with hhash hlen hname
    have hlength : (name₁.length : Int) = name₂.length := not_not.mp hlen
    have hfronts : front name₁ name₁.length = front name₂ name₁.length := not_not.mp hname
    rw [front_length, hlength, front_length, Option.some_inj] at hfronts
    exact ⟨hfronts, heq⟩
  have hsep : ∀ {s t : Bytes}, WellFormed s → s ≠ t ++ ascii "::" := by
    rintro s t hs rfl
    exact hs.colon (List.mem_append_right _ List.mem_cons_self)
  induction a using symbolName.induct generalizing b with
  | case1 => exact absurd rfl ha.ne_nil
  | case2 s =>
      obtain ⟨t, b, rfl⟩ := List.exists_cons_of_ne_nil hb.ne_nil
      cases b with
      | nil => rw [(hfirst h).1]
      | cons t' b => exact absurd (hfirst h).1 (hsep (ha.wellFormed s List.mem_cons_self))
  | case3 s a hne ih =>
      obtain ⟨s', a, rfl⟩ := List.exists_cons_of_ne_nil hne
      obtain ⟨t, b, rfl⟩ := List.exists_cons_of_ne_nil hb.ne_nil
      cases b with
      | nil => exact absurd (hfirst h).1.symm (hsep (hb.wellFormed t List.mem_cons_self))
      | cons t' b =>
          obtain ⟨hhead, hrest⟩ := hfirst h
          obtain ⟨-, ha'⟩ := ha.cons (List.cons_ne_nil _ _)
          obtain ⟨-, hb'⟩ := hb.cons (List.cons_ne_nil _ _)
          rw [List.append_cancel_right hhead, ih ha' hb' hrest]

theorem equal_self (mgv : List Mgv) : equal mgv mgv = true := by
  induction mgv with
  | nil => rfl
  | cons mgv rest ih => simp [equal, ih]

theorem length_copyLoop {string string' : Bytes} {ptr ptr' : ℕ}
    (h : copyLoop string ptr symbol = some (string', ptr')) : string'.length = string.length := by
  induction symbol generalizing string ptr with
  | nil => rw [(Prod.mk.inj (Option.some.inj h)).1]
  | cons mgv symbol ih =>
      obtain ⟨bytes, -, h⟩ := Option.bind_eq_some_iff.mp h
      obtain ⟨string₁, hwrite, h⟩ := Option.bind_eq_some_iff.mp h
      rw [ih h, Block.length_write hwrite]

/-- A string that is made from a compiled symbol is shorter than `2 ^ 31 - 1` bytes. -/
theorem length_asString_lt {string : Bytes} (h : asString memory symbol false = some string) :
    string.length + 1 < 2 ^ 31 := by
  unfold asString at h
  simp only [Bool.false_eq_true, if_false, false_and] at h
  split_ifs at h with hneg
  obtain ⟨⟨block, ptr⟩, hcopy, hend⟩ := Option.bind_eq_some_iff.mp h
  obtain ⟨block', hwrite, rfl⟩ := Option.map_eq_some_iff.mp hend
  have hlength : block'.length =
      (i32 (symbol.foldl (fun len mgv => i32 (len + mgv.len)) 0 + 1)).toNat := by
    rw [Block.length_write hwrite, length_copyLoop hcopy, List.length_map, List.length_range]
  have hbound := i32_lt (symbol.foldl (fun len mgv => i32 (len + mgv.len)) 0 + 1)
  have hzero : 0 ∈ block' := by
    obtain ⟨-, rfl⟩ := Block.write_eq_some hwrite
    simp
  have hinitial : block'.takeWhile (· ≠ 0) <+: block' := List.takeWhile_prefix _
  have hlt : (block'.takeWhile (· ≠ 0)).length < block'.length := by
    refine Nat.lt_of_le_of_ne hinitial.length_le fun heq => ?_
    have hall := List.all_eq_true.mp List.all_takeWhile 0
      ((hinitial.eq_of_length heq).symm ▸ hzero : 0 ∈ block'.takeWhile (· ≠ 0))
    exact absurd hall (by decide)
  omega

end Mgv

/-! ## What survives -/

theorem survives (h : IsName segments) (hlength : (symbolName segments).length + 1 < 2 ^ 31) :
    Survives perlHash segments where
  name memory := by
    have hstring : Mgv.asString memory (Mgv.nodes perlHash segments) false = some _ :=
      Mgv.asString_eq memory rfl (Mgv.nodes_whole _ _) (Mgv.flatMap_nodes _ _) h.nul hlength
        (fun hp => by cases hp)
    rw [Mgv.compile_eq h hlength, Option.bind_some, hstring]
    exact congrArg some List.take_length
  package htwo memory := by
    have hlast : symbolName segments =
        symbolName segments.dropLast ++ ascii "::" ++ symbolName [segments.getLast h.ne_nil] := by
      rw [← symbolName_append _ (List.cons_ne_nil _ _), List.dropLast_append_getLast]
      exact List.ne_nil_of_length_pos (by rw [List.length_dropLast]; omega)
    have hnul : 0 ∉ symbolName segments.dropLast ++ ascii "::" := by
      intro hmem
      refine h.nul ?_
      rw [hlast]
      exact List.mem_append_left _ hmem
    have hshort : (symbolName segments.dropLast ++ ascii "::").length + 1 < 2 ^ 31 := by
      rw [hlast, List.length_append] at hlength
      omega
    have hpackage : 2 ≤ (symbolName segments.dropLast ++ ascii "::").length := by
      rw [List.length_append, length_separator]
      omega
    have hwhole : ∀ mgv ∈ (Mgv.nodes perlHash segments).dropLast, mgv.len = mgv.name.length :=
      fun mgv hmgv => Mgv.nodes_whole _ _ mgv (List.dropLast_subset _ hmgv)
    have hstring : Mgv.asString memory (Mgv.nodes perlHash segments) true = some _ :=
      Mgv.asString_eq memory rfl hwhole (Mgv.flatMap_nodes_dropLast _ htwo) hnul hshort
        (fun _ => hpackage)
    rw [Mgv.compile_eq h hlength, Option.bind_some, hstring, if_pos rfl, List.length_append,
      length_separator, Nat.add_sub_cancel, List.take_left]

theorem comparesNames (perlHash : Bytes → UInt64) (ha : IsName a) (hb : IsName b)
    (hlengthA : (symbolName a).length + 1 < 2 ^ 31)
    (hlengthB : (symbolName b).length + 1 < 2 ^ 31) : ComparesNames perlHash a b := by
  refine ⟨_, _, Mgv.compile_eq ha hlengthA, Mgv.compile_eq hb hlengthB, ?_, ?_⟩
  · intro hequal
    rw [Mgv.equal_nodes ha hb hequal]
  · intro hsame
    have hcompile : Mgv.compile perlHash (symbolName a) = _ := Mgv.compile_eq ha hlengthA
    rw [hsame, Mgv.compile_eq hb hlengthB, Option.some_inj] at hcompile
    rw [hcompile]
    exact Mgv.equal_self _

/-- The names `a`, `b` and `a::b` survive their compilation, `b` can be appended to
`a`, and the compiled names are compared as the names are, exactly if `a::b` is
shorter than `2 ^ 31 - 1` bytes. -/
theorem names_survive_iff (perlHash : Bytes → UInt64) (ha : IsName a) (hb : IsName b) :
    (Survives perlHash a ∧ Survives perlHash b ∧ Survives perlHash (a ++ b) ∧
      Appends perlHash a b ∧ ComparesNames perlHash a b) ↔
      (symbolName (a ++ b)).length + 1 < 2 ^ 31 := by
  constructor
  · rintro ⟨-, -, hsurvives, -⟩
    obtain ⟨symbol, -, hstring⟩ := Option.bind_eq_some_iff.mp (hsurvives.name fun _ => 0)
    exact Mgv.length_asString_lt hstring
  · intro hlength
    have hjoined := symbolName_append ha.ne_nil hb.ne_nil
    have hlengths := congrArg List.length hjoined
    rw [List.length_append, List.length_append] at hlengths
    have hlengthA : (symbolName a).length + 1 < 2 ^ 31 := by omega
    have hlengthB : (symbolName b).length + 1 < 2 ^ 31 := by omega
    refine ⟨survives ha hlengthA, survives hb hlengthB, survives (ha.append hb) hlength, ?_,
      comparesNames perlHash ha hb hlengthA hlengthB⟩
    rw [Appends, Mgv.compile_eq ha hlengthA, Mgv.compile_eq (ha.append hb) hlength,
      Option.bind_some, Mgv.append_eq ha hb hlength]
    exact ⟨rfl, rfl⟩

theorem isName_of_decide (h : segments ≠ [] ∧ ∀ s ∈ segments, s ≠ [] ∧ 58 ∉ s ∧ 0 ∉ s) :
    IsName segments :=
  ⟨h.1, fun s hs => ⟨(h.2 s hs).1, (h.2 s hs).2.1, (h.2 s hs).2.2⟩⟩

/-- `Foo::Bar` and `baz`. -/
theorem names_survive_two :
    Survives (fun bytes => bytes.foldl (fun hash c => hash * 33 + c.toUInt64) 0)
      ([ascii "Foo", ascii "Bar"] ++ [ascii "baz"]) :=
  ((names_survive_iff _ (isName_of_decide (by decide : [ascii "Foo", ascii "Bar"] ≠ [] ∧ _))
    (isName_of_decide (by decide : [ascii "baz"] ≠ [] ∧ _))).mpr (by decide)).2.2.1

/-- One segment of `2 ^ 31` bytes. -/
theorem names_survive_fails :
    ¬∀ (perlHash : Bytes → UInt64) (segments : List Bytes), IsName segments →
      Survives perlHash segments := by
  intro hall
  have hname : IsName [List.replicate (2 ^ 31) 97] := by
    refine ⟨List.cons_ne_nil _ _, fun segment hsegment => ?_⟩
    rw [List.mem_singleton.mp hsegment]
    refine ⟨List.ne_nil_of_length_pos (by rw [List.length_replicate]; decide), ?_, ?_⟩
    · exact fun hmem => absurd (List.eq_of_mem_replicate hmem) (by decide)
    · exact fun hmem => absurd (List.eq_of_mem_replicate hmem) (by decide)
  obtain ⟨symbol, -, hstring⟩ :=
    Option.bind_eq_some_iff.mp ((hall (fun _ => 0) _ hname).name fun _ => 0)
  have hlt := Mgv.length_asString_lt hstring
  rw [symbolName, List.length_replicate] at hlt
  exact absurd hlt (by decide)

end ModPerl
