import ModPerl.Config.Directives
import Mathlib.Algebra.GroupWithZero.Nat
import Mathlib.Data.List.Infix

/-!
# `<Perl>` sections

The variables of a `<Perl>` section become lines of the configuration: a scalar a
directive, an array one for each element, and a hash a container for each key.  In
a container an array is different: its elements are joined to one directive.  The
name of a variable that contains `PerlConfig` is passed over, and an array that was
met in this package before, because of `%directives_seen_hack`.

The functions are those of `Apache2::PerlSections`.  A result of `none` is a string
that is taken for a hash, or a reference for a string.
-/

namespace ModPerl

/-- `chomp` -/
def chomp (s : Bytes) : Bytes := if s.getLast? = some 10 then s.dropLast else s

/-- `split /\n/`: empty strings at the end are not kept. -/
def splitLines (s : Bytes) : List Bytes :=
  ((s.splitOn 10).reverse.dropWhile (· = [])).reverse

/-- `"@strings"` -/
def joined : List Bytes → Bytes
  | [] => []
  | [s] => s
  | s :: strings => s ++ ascii " " ++ joined strings

namespace Value

/-- `ref` -/
def isRef : Value → Bool
  | string _ => false
  | _ => true

def isArray : Value → Bool
  | array _ => true
  | _ => false

/-- As a string; that of a reference is an address. -/
def text : Value → Option Bytes
  | string s => some s
  | _ => none

end Value

/-- The variables of one name. -/
structure Glob where
  scalar : Option Value
  array : Option (List Value)
  hash : Option Hash

/-- `$Name` is assigned a string, `@Name` an array, `%Name` a hash. -/
def Glob.assign : Value → Glob
  | .string s => ⟨some (.string s), none, none⟩
  | .scalar s => ⟨some (.scalar s), none, none⟩
  | .array xs => ⟨none, some xs, none⟩
  | .hash hash => ⟨none, none, some hash⟩

/-- The variables of a package, in the order of `each`.  A key with `::` is that of another
package, and is left out. -/
abbrev Stash := List (Bytes × Glob)

namespace PerlSections

/-- `SPECIAL_NAME` -/
def specialName : Bytes := ascii "PerlConfig"

/-- `SPECIAL_PACKAGE` -/
def specialPackage : Bytes := ascii "Apache2::ReadConfig"

/-- The inner loop of `symdump`, with `%directives_seen_hack` as the list of the names that
arrays had, with their packages. -/
def symdumpLoop (pack : Bytes) : List (Bytes × Bytes) → Stash → List (Bytes × Bytes) × Hash
  | seen, [] => (seen, [])
  | seen, (key, glob) :: rest =>
      let scalar := (glob.scalar.map fun entry => (key, entry)).toList
      let array := if (key, pack) ∈ seen then none else glob.array
      let seen := if array.isSome then (key, pack) :: seen else seen
      let hash := (glob.hash.map fun entry => (key, Value.hash entry)).toList
      let (seen, symbols) := symdumpLoop pack seen rest
      (seen, scalar ++ (array.map fun entry => (key, Value.array entry)).toList ++ hash ++ symbols)

/-- `symdump`, for these packages. -/
def symdump (stashes : Bytes → Stash) :
    List (Bytes × Bytes) → List Bytes → List (Bytes × Bytes) × Hash
  | seen, [] => (seen, [])
  | seen, pack :: packs =>
      let (seen, symbols) := symdumpLoop pack seen (stashes pack)
      let (seen, rest) := symdump stashes seen packs
      (seen, symbols ++ rest)

/-- A line of `add_config`. -/
def configLine (name args : Bytes) : Bytes := chomp (name ++ ascii " " ++ args ++ ascii "\n")

/-- `dump_section`, around the lines of its loop. -/
def sectionLines (name loc : Bytes) (body : List Bytes) : List Bytes :=
  chomp (ascii "<" ++ name ++ ascii " " ++ loc ++ ascii ">\n") :: body ++
    [chomp (ascii "</" ++ name ++ ascii ">\n")]

mutual

/-- `dump_entry` -/
def dumpEntry (name : Bytes) : Value → Option (List Bytes)
  | .scalar entry => some [configLine name entry]
  | .array entries =>
      if entries.any Value.isRef then dumpArray name entries
      else some [configLine name (joined (entries.filterMap Value.text))]
  | .hash hash => dumpHash name hash
  | .string entry => some [configLine name entry]

/-- `dump_array` -/
def dumpArray (name : Bytes) : List Value → Option (List Bytes)
  | [] => some []
  | entry :: entries =>
      (dumpEntry name entry).bind fun lines => (dumpArray name entries).map (lines ++ ·)

/-- `dump_hash` -/
def dumpHash (name : Bytes) : Hash → Option (List Bytes)
  | [] => some []
  | (loc, .hash hash) :: rest =>
      (dumpSection hash).bind fun body => (dumpHash name rest).map (sectionLines name loc body ++ ·)
  | (loc, .array entries) :: rest =>
      (dumpSections name loc entries).bind fun lines => (dumpHash name rest).map (lines ++ ·)
  | (_, .string _) :: rest => dumpHash name rest
  | (_, .scalar _) :: rest => dumpHash name rest

/-- The sections of an array; a string that is false stands for an empty hash. -/
def dumpSections (name loc : Bytes) : List Value → Option (List Bytes)
  | [] => some []
  | .hash hash :: entries =>
      (dumpSection hash).bind fun body =>
        (dumpSections name loc entries).map (sectionLines name loc body ++ ·)
  | .string s :: entries =>
      if s = [] ∨ s = ascii "0" then
        (dumpSections name loc entries).map (sectionLines name loc [] ++ ·)
      else none
  | .array _ :: _ => none
  | .scalar _ :: _ => none

/-- The loop of `dump_section`. -/
def dumpSection : Hash → Option (List Bytes)
  | [] => some []
  | (name, entry) :: rest =>
      (dumpEntry name entry).bind fun lines => (dumpSection rest).map (lines ++ ·)

end

/-- `dump_any` -/
def dumpAny (name : Bytes) : Value → Option (List Bytes)
  | .array entries => dumpArray name entries
  | .hash hash => dumpHash name hash
  | .string entry => dumpEntry name (.string entry)
  | .scalar entry => dumpEntry name (.scalar entry)

/-- The loop of `handler` over the symbols. -/
def dumpSymbols : Hash → Option (List Bytes)
  | [] => some []
  | (name, entry) :: rest =>
      if specialName <:+: name then dumpSymbols rest
      else (dumpAny name entry).bind fun lines => (dumpSymbols rest).map (lines ++ ·)

/-- The lines in `@PerlConfig` and `$PerlConfig` of a package. -/
def specialConfig (stash : Stash) : Option (List Bytes) :=
  match stash.find? fun e => e.1 = specialName with
  | none => some []
  | some (_, glob) =>
      ((glob.array.getD [] ++ glob.scalar.toList).mapM Value.text).map (·.flatMap splitLines)

/-- `handler` for a section in this package: what it passes to `add_config` of the server. -/
def handler (stashes : Bytes → Stash) (seen : List (Bytes × Bytes)) (package : Bytes) :
    List (Bytes × Bytes) × Option (List Bytes) :=
  let (seen, symbols) := symdump stashes seen [package, specialPackage]
  (seen, (dumpSymbols symbols).bind fun lines =>
    (specialConfig (stashes package)).map fun config => lines ++ config.map chomp)

end PerlSections

/-! ## What the lines mean -/

/-- A line of a configuration: without anything to do, refused, a directive, or the begin or
the end of a container. -/
inductive Line
  | blank
  | error
  | directive (name args : Bytes)
  | opening (directive args : Bytes)
  | closing (name : Bytes)

namespace Line

/-- The names and arguments, with one for each directive or container. -/
def weight : Line → ℕ
  | directive name args => 1 + name.length + args.length
  | opening name args => 1 + name.length + args.length
  | _ => 0

def opens : Line → ℕ
  | opening _ _ => 1
  | _ => 0

def closes : Line → ℕ
  | closing _ => 1
  | _ => 0

end Line

open Directives

/-- How the server reads lines: a name, blanks and the arguments, without the blanks behind
them; the `<` and the `>` of a container are kept.  What is read is not longer than the
line, but for the `>` of a container without arguments. -/
structure ReadsLines (readLine : Bytes → Line) : Prop where
  directive : ∀ {name args}, IsWord name → 10 ∉ args →
    readLine (name ++ ascii " " ++ args) = .directive name (trim args)
  opening : ∀ {name loc}, IsWord name → 10 ∉ loc →
    readLine (60 :: name ++ ascii " " ++ (loc ++ [62])) = .opening (60 :: name) (trim (loc ++ [62]))
  closing : ∀ {name}, IsWord name → readLine (ascii "</" ++ name ++ ascii ">") = .closing name
  short : ∀ {line name args}, readLine line = .directive name args ∨
    readLine line = .opening name args → name.length + args.length ≤ line.length + 1

/-- The lines are those of this tree. -/
inductive Reads (readLine : Bytes → Line) : List Bytes → Directives → Prop
  | nil : Reads readLine [] .nil
  | blank {line : Bytes} {lines : List Bytes} {t : Directives} : readLine line = .blank →
      Reads readLine lines t → Reads readLine (line :: lines) t
  | directive {line name args : Bytes} {lines : List Bytes} {t : Directives} :
      readLine line = .directive name args → Reads readLine lines t →
      Reads readLine (line :: lines) (.node name args .nil t)
  | container {line close directive args name : Bytes} {body lines : List Bytes}
      {child t : Directives} : readLine line = .opening directive args →
      Reads readLine body child → readLine close = .closing name →
      caseless (60 :: name) = caseless directive → Reads readLine lines t →
      Reads readLine (line :: (body ++ close :: lines)) (.node directive args child t)

namespace Directives

variable (place : Hash → Bytes × Value → Hash) (readLine : Bytes → Line)

/-- The hash of a tree can be assigned to the variables of a section, in whichever order
`each` finds them, and its lines are those of the same tree. -/
def Inverse (seen : List (Bytes × Bytes)) (package : Bytes) (t : Directives) : Prop :=
  ∃ hash, asHash place t = some hash ∧
    ∀ order : Hash, order.Perm hash →
      ∃ lines t', (PerlSections.handler (fun pack =>
          if pack = package then order.map fun e => (e.1, Glob.assign e.2) else []) seen
            package).2 = some lines ∧ Reads readLine lines t' ∧ Same t t'

/-- The names of the directives and the empty containers of the first level. -/
def plain : Directives → List Bytes
  | nil => []
  | node directive _ nil next => directive :: next.plain
  | node _ _ (node _ _ _ _) next => next.plain

/-- The containers without directives. -/
def empties : Directives → ℕ
  | nil => 0
  | node directive _ firstChild next =>
      (if directive.head? = some 60 ∧ firstChild = .nil then 1 else 0) + firstChild.empties +
        next.empties

/-- No directive is repeated, but at the top. -/
def Once (top : Bool) : Directives → Prop
  | nil => True
  | node directive _ firstChild next =>
      (top = false → firstChild = .nil → directive ∉ next.plain) ∧ firstChild.Once false ∧
        next.Once top

/-- When the lines are those of the tree: no container is empty, in a container no directive
is repeated, and at the top no name contains that of `@PerlConfig`, and none that is repeated
has been seen in this package. -/
structure Expressible (seen : List (Bytes × Bytes)) (package : Bytes) (t : Directives) : Prop where
  inhabited : t.empties = 0
  once : t.Once true
  special : ∀ d ∈ t.siblings, ¬PerlSections.specialName <:+: d.1
  fresh : ∀ key, 2 ≤ t.plain.count key → (key, package) ∉ seen

/-! ## What is counted -/

variable {place readLine} {t t' t₁ t₂ child tree : Directives} {top : Bool}
  {lines lines₁ lines₂ : List Bytes}

/-- The names and arguments of a tree, with one for each node. -/
def weight : Directives → ℕ
  | nil => 0
  | node directive args firstChild next =>
      1 + directive.length + args.length + firstChild.weight + next.weight

theorem plain_node (d a : Bytes) (c n : Directives) :
    (node d a c n).plain = (if c = .nil then [d] else []) ++ n.plain := by
  cases c <;> rfl

theorem plain_append (t₁ t₂ : Directives) : (t₁.append t₂).plain = t₁.plain ++ t₂.plain := by
  induction t₁ with
  | nil => rfl
  | node d a c n _ ih => rw [append, plain_node, plain_node, ih, List.append_assoc]

theorem plain_repeated (key : Bytes) (xs : List Bytes) :
    (repeated key xs).plain = List.replicate xs.length key := by
  induction xs with
  | nil => rfl
  | cons x xs ih =>
      rw [repeated, plain_node, if_pos rfl, ih, List.length_cons, List.replicate_succ]
      rfl

theorem weight_append (t₁ t₂ : Directives) : (t₁.append t₂).weight = t₁.weight + t₂.weight := by
  induction t₁ with
  | nil => exact (Nat.zero_add _).symm
  | node d a c n _ ih =>
      rw [append, weight, weight, ih]
      omega

theorem weight_node_pos (d a : Bytes) (c n : Directives) : 0 < (node d a c n).weight := by
  rw [weight]
  omega

theorem empties_append (t₁ t₂ : Directives) :
    (t₁.append t₂).empties = t₁.empties + t₂.empties := by
  induction t₁ with
  | nil => exact (Nat.zero_add _).symm
  | node d a c n _ ih =>
      rw [append, empties, empties, ih]
      omega

theorem once_append : (t₁.append t₂).Once top ↔
    t₁.Once top ∧ t₂.Once top ∧ (top = false → ∀ d ∈ t₁.plain, d ∉ t₂.plain) := by
  induction t₁ with
  | nil => simp [append, Once, plain]
  | node d a c n _ ih =>
      rw [append, Once, Once, ih, plain_append, plain_node]
      constructor
      · rintro ⟨hd, hc, hn, ht, hcross⟩
        refine ⟨⟨fun htop hnil hmem => hd htop hnil (List.mem_append_left _ hmem), hc, hn⟩, ht, ?_⟩
        intro htop d' hd' hmem
        rcases List.mem_append.mp hd' with hd' | hd'
        · split_ifs at hd' with hnil
          · rw [List.mem_singleton.mp hd'] at hmem
            exact hd htop hnil (List.mem_append_right _ hmem)
          · cases hd'
        · exact hcross htop d' hd' hmem
      · rintro ⟨⟨hd, hc, hn⟩, ht, hcross⟩
        refine ⟨fun htop hnil hmem => ?_, hc, hn, ht, fun htop d' hd' =>
          hcross htop d' (List.mem_append_right _ hd')⟩
        rcases List.mem_append.mp hmem with hmem | hmem
        · exact hd htop hnil hmem
        · refine hcross htop d (List.mem_append_left _ ?_) hmem
          rw [if_pos hnil]
          exact List.mem_singleton_self d

theorem wellFormed_append : (t₁.append t₂).WellFormed ↔ t₁.WellFormed ∧ t₂.WellFormed := by
  induction t₁ with
  | nil => exact (and_iff_right trivial).symm
  | node d a c n _ ih =>
      rw [append, WellFormed, WellFormed, ih]
      simp only [and_assoc]

namespace Same

theorem eq_nil_iff (h : Same t t') : t = .nil ↔ t' = .nil := by
  have hlength := h.siblings.length_eq
  cases t <;> cases t' <;> simp_all [Directives.siblings]

theorem plain (h : Same t t') : t.plain.Perm t'.plain := by
  induction h with
  | nil => exact .nil
  | node d a hc _ _ ihn =>
      rw [plain_node, plain_node]
      simp only [hc.eq_nil_iff]
      exact ihn.append_left _
  | swap d a d' a' c c' n =>
      rw [plain_node, plain_node, plain_node, plain_node, ← List.append_assoc, ← List.append_assoc]
      exact List.perm_append_comm.append_right _
  | trans _ _ ih ih' => exact ih.trans ih'

theorem weight (h : Same t t') : t.weight = t'.weight := by
  induction h with
  | nil => rfl
  | node d a _ _ ihc ihn => rw [Directives.weight, Directives.weight, ihc, ihn]
  | swap d a d' a' c c' n =>
      simp only [Directives.weight]
      omega
  | trans _ _ ih ih' => exact ih.trans ih'

theorem empties (h : Same t t') : t.empties = t'.empties := by
  induction h with
  | nil => rfl
  | node d a hc _ ihc ihn =>
      rw [Directives.empties, Directives.empties, ihc, ihn]
      simp only [hc.eq_nil_iff]
  | swap d a d' a' c c' n =>
      simp only [Directives.empties]
      omega
  | trans _ _ ih ih' => exact ih.trans ih'

theorem once (h : Same t t') : t.Once top ↔ t'.Once top := by
  induction h generalizing top with
  | nil => exact Iff.rfl
  | node d a hc hn ihc ihn =>
      rw [Once, Once, ihc, ihn, hc.eq_nil_iff, hn.plain.mem_iff]
  | swap d a d' a' c c' n =>
      have hcross : (c = .nil → d ∉ (if c' = .nil then [d'] else [])) ↔
          (c' = .nil → d' ∉ (if c = .nil then [d] else [])) := by
        split_ifs with hc' hc hc <;> simp [hc', hc, eq_comm]
      simp only [Once, plain_node, List.mem_append, not_or]
      constructor
      · rintro ⟨hd, hc, hd', hc', hn⟩
        exact ⟨fun htop hnil => ⟨hcross.mp (fun hnil' => (hd htop hnil').1) hnil, hd' htop hnil⟩,
          hc', fun htop hnil => (hd htop hnil).2, hc, hn⟩
      · rintro ⟨hd', hc', hd, hc, hn⟩
        exact ⟨fun htop hnil => ⟨hcross.mpr (fun hnil' => (hd' htop hnil').1) hnil, hd htop hnil⟩,
          hc, fun htop hnil => (hd' htop hnil).2, hc', hn⟩
  | trans _ _ ih ih' => exact ih.trans ih'

theorem wellFormed (h : Same t t') : t.WellFormed ↔ t'.WellFormed := by
  induction h with
  | nil => exact Iff.rfl
  | node d a hc _ ihc ihn => rw [WellFormed, WellFormed, ihc, ihn, hc.eq_nil_iff]
  | swap d a d' a' c c' n =>
      simp only [WellFormed]
      constructor
      · rintro ⟨hd, ha, hline, hc, hd', ha', hline', hc', hn⟩
        exact ⟨hd', ha', hline', hc', hd, ha, hline, hc, hn⟩
      · rintro ⟨hd', ha', hline', hc', hd, ha, hline, hc, hn⟩
        exact ⟨hd, ha, hline, hc, hd', ha', hline', hc', hn⟩
  | trans _ _ ih ih' => exact ih.trans ih'

end Same

/-! ## Lines -/

/-- The sum over all lines. -/
def total (readLine : Bytes → Line) (count : Line → ℕ) (lines : List Bytes) : ℕ :=
  (lines.map fun line => count (readLine line)).sum

variable {count : Line → ℕ}

@[simp] theorem total_nil : total readLine count [] = 0 := rfl

@[simp] theorem total_cons (line : Bytes) (lines : List Bytes) :
    total readLine count (line :: lines) = count (readLine line) + total readLine count lines := rfl

@[simp] theorem total_append (lines₁ lines₂ : List Bytes) :
    total readLine count (lines₁ ++ lines₂) =
      total readLine count lines₁ + total readLine count lines₂ := by
  simp [total]

end Directives

open Directives

namespace Reads

variable {readLine : Bytes → Line} {lines lines₁ lines₂ : List Bytes} {t t₁ t₂ : Directives}

theorem weight (h : Reads readLine lines t) : total readLine Line.weight lines = t.weight := by
  induction h with
  | nil => rfl
  | blank hline _ ih =>
      rw [total_cons, hline, ih]
      exact Nat.zero_add _
  | directive hline _ ih =>
      rw [total_cons, hline, ih]
      rfl
  | container hline _ hclose _ _ ihc ihn =>
      rw [total_cons, hline, total_append, total_cons, hclose, ihc, ihn, Directives.weight]
      simp only [Line.weight]
      omega

/-- Each container has a begin and an end. -/
theorem balanced (h : Reads readLine lines t) :
    total readLine Line.opens lines = total readLine Line.closes lines := by
  induction h with
  | nil => rfl
  | blank hline _ ih => rw [total_cons, total_cons, hline, ih]; rfl
  | directive hline _ ih => rw [total_cons, total_cons, hline, ih]; rfl
  | container hline _ hclose _ _ ihc ihn =>
      simp only [total_cons, total_append, hline, hclose, ihc, ihn, Line.opens, Line.closes]
      omega

theorem append (h₁ : Reads readLine lines₁ t₁) (h₂ : Reads readLine lines₂ t₂) :
    Reads readLine (lines₁ ++ lines₂) (t₁.append t₂) := by
  induction h₁ with
  | nil => exact h₂
  | blank hline _ ih => exact .blank hline ih
  | directive hline _ ih => exact .directive hline ih
  | container hline hbody hclose hname _ _ ihn =>
      rw [List.cons_append, List.append_assoc, List.cons_append]
      exact .container hline hbody hclose hname ihn

/-- No part at the front closes more containers than it opens. -/
theorem closes_le_opens (h : Reads readLine lines t) {front rest : List Bytes}
    (hfront : lines = front ++ rest) :
    total readLine Line.closes front ≤ total readLine Line.opens front := by
  induction h generalizing front rest with
  | nil =>
      rw [(List.append_eq_nil_iff.mp hfront.symm).1]
      exact Nat.le_refl _
  | blank hline _ ih | directive hline _ ih =>
      cases front with
      | nil => exact Nat.le_refl _
      | cons line front =>
          rw [List.cons_append, List.cons.injEq] at hfront
          obtain ⟨rfl, hfront⟩ := hfront
          have hle := ih hfront
          simp only [total_cons, hline, Line.opens, Line.closes]
          omega
  | container hline hbody hclose _ _ ihc ihn =>
      cases front with
      | nil => exact Nat.le_refl _
      | cons line front =>
          rw [List.cons_append, List.cons.injEq] at hfront
          obtain ⟨rfl, hfront⟩ := hfront
          have hbalanced := hbody.balanced
          simp only [total_cons, hline, Line.opens, Line.closes]
          rcases List.append_eq_append_iff.mp hfront with ⟨more, rfl, hmore⟩ | ⟨more, hmore, -⟩
          · cases more with
            | nil =>
                rw [List.append_nil, hbalanced]
                omega
            | cons close more =>
                rw [List.cons_append, List.cons.injEq] at hmore
                obtain ⟨rfl, hmore⟩ := hmore
                have hle := ihn hmore
                simp only [total_append, total_cons, hclose, Line.opens, Line.closes]
                omega
          · have hle := ihc hmore
            omega

/-- What is inside of a container ends at the first end that is not of a container in it. -/
theorem body_length_le {body body' rest rest' : List Bytes} {child' : Directives}
    {close close' name : Bytes} (hbody : Reads readLine body t)
    (hbody' : Reads readLine body' child') (hclose : readLine close = .closing name)
    (heq : body ++ close :: rest = body' ++ close' :: rest') : body'.length ≤ body.length := by
  by_contra hlt
  rcases List.append_eq_append_iff.mp heq with ⟨more, rfl, hmore⟩ | ⟨more, rfl, -⟩
  · cases more with
    | nil => simp at hlt
    | cons line more =>
        rw [List.cons_append, List.cons.injEq] at hmore
        obtain ⟨rfl, -⟩ := hmore
        have hle := hbody'.closes_le_opens (List.append_cons body close more)
        have hbalanced := hbody.balanced
        simp only [total_append, total_cons, total_nil, hclose, Line.opens, Line.closes] at hle
        omega
  · simp at hlt

/-- The lines are those of one tree only. -/
theorem unique {t' : Directives} (h : Reads readLine lines t) (h' : Reads readLine lines t') :
    t = t' := by
  induction h generalizing t' with
  | nil =>
      cases h'
      rfl
  | blank hline _ ih =>
      cases h' with
      | blank _ hrest => exact ih hrest
      | directive hline' _ => cases hline.symm.trans hline'
      | container hline' _ _ _ _ => cases hline.symm.trans hline'
  | directive hline _ ih =>
      cases h' with
      | blank hline' _ => cases hline.symm.trans hline'
      | directive hline' hrest =>
          cases hline.symm.trans hline'
          rw [ih hrest]
      | container hline' _ _ _ _ => cases hline.symm.trans hline'
  | container hline hbody hclose _ _ ihc ihn =>
      generalize hlines : _ :: _ = lines at h'
      cases h' with
      | nil => cases hlines
      | blank hline' _ =>
          cases hlines
          cases hline.symm.trans hline'
      | directive hline' _ =>
          cases hlines
          cases hline.symm.trans hline'
      | container hline' hbody' hclose' _ hrest' =>
          rw [List.cons.injEq] at hlines
          obtain ⟨rfl, heq⟩ := hlines
          cases hline.symm.trans hline'
          have hlength := Nat.le_antisymm (hbody'.body_length_le hbody hclose' heq.symm)
            (hbody.body_length_le hbody' hclose heq)
          obtain ⟨rfl, hrest⟩ := List.append_inj heq hlength
          rw [List.cons.injEq] at hrest
          obtain ⟨rfl, rfl⟩ := hrest
          rw [ihc hbody', ihn hrest']

end Reads

/-! ## The lines of a hash -/

open PerlSections

theorem chomp_newline (s : Bytes) : chomp (s ++ ascii "\n") = s := by
  have hlast : (s ++ ascii "\n").getLast? = some 10 := List.getLast?_concat
  rw [chomp, if_pos hlast]
  exact List.dropLast_concat

theorem configLine_eq (name args : Bytes) : configLine name args = name ++ ascii " " ++ args :=
  chomp_newline _

theorem sectionLines_eq (name loc : Bytes) (body : List Bytes) :
    sectionLines name loc body = (60 :: name ++ ascii " " ++ (loc ++ [62])) ::
      (body ++ [ascii "</" ++ name ++ ascii ">"]) := by
  have hopen : ascii "<" ++ name ++ ascii " " ++ loc ++ ascii ">\n" =
      (60 :: name ++ ascii " " ++ (loc ++ [62])) ++ ascii "\n" := by
    simp [ascii]
  have hclose : ascii "</" ++ name ++ ascii ">\n" =
      (ascii "</" ++ name ++ ascii ">") ++ ascii "\n" := by
    simp [ascii]
  rw [sectionLines, hopen, hclose, chomp_newline, chomp_newline]
  rfl

/-- What is known of the lines of a tree: they lose some of it, or keep it but for the ends of
its empty containers. -/
structure Emitted (readLine : Bytes → Line) (top : Bool) (lines : List Bytes) (t : Directives) :
    Prop where
  weight_le : total readLine Line.weight lines ≤ t.weight
  exact : total readLine Line.weight lines = t.weight → t.Once top ∧
    total readLine Line.opens lines = total readLine Line.closes lines + t.empties
  reads : t.Once top → t.empties = 0 → Reads readLine lines t

namespace Emitted

variable {readLine : Bytes → Line} {top : Bool} {lines lines₁ lines₂ body : List Bytes}
  {t t₁ t₂ child : Directives} {name key args loc : Bytes}

theorem nil : Emitted readLine top [] .nil :=
  ⟨Nat.le_refl _, fun _ => ⟨trivial, rfl⟩, fun _ _ => .nil⟩

theorem append (h₁ : Emitted readLine top lines₁ t₁) (h₂ : Emitted readLine top lines₂ t₂)
    (hcross : top = false → ∀ d ∈ t₁.plain, d ∉ t₂.plain) :
    Emitted readLine top (lines₁ ++ lines₂) (t₁.append t₂) := by
  have hle₁ := h₁.weight_le
  have hle₂ := h₂.weight_le
  refine ⟨?_, fun hweight => ?_, fun honce hempties => ?_⟩
  · rw [total_append, weight_append]
    omega
  · rw [total_append, weight_append] at hweight
    obtain ⟨honce₁, hopens₁⟩ := h₁.exact (by omega)
    obtain ⟨honce₂, hopens₂⟩ := h₂.exact (by omega)
    refine ⟨once_append.mpr ⟨honce₁, honce₂, hcross⟩, ?_⟩
    rw [total_append, total_append, empties_append]
    omega
  · rw [empties_append] at hempties
    obtain ⟨honce₁, honce₂, -⟩ := once_append.mp honce
    exact (h₁.reads honce₁ (by omega)).append (h₂.reads honce₂ (by omega))

/-- How the line of a directive, or of an empty container, is read. -/
theorem readLine_node (hread : ReadsLines readLine) (hwf : (node key args .nil .nil).WellFormed) :
    readLine (configLine key args) = if key.head? = some 60 then .opening key args
      else .directive key args := by
  obtain ⟨hkind, htrim, hnewline, -, -⟩ := hwf
  rw [configLine_eq]
  obtain ⟨hword, -⟩ | ⟨name, loc, rfl, rfl, hword⟩ := hkind
  · have hhead : key.head? ≠ some 60 := by
      cases key with
      | nil => exact fun h => nomatch h
      | cons c rest =>
          intro heq
          cases heq
          have hc := List.all_eq_true.mp hword.2 60 List.mem_cons_self
          revert hc
          decide
    rw [if_neg hhead, hread.directive hword hnewline, htrim]
  · have hloc : 10 ∉ loc := fun hmem => hnewline (List.mem_append_left _ hmem)
    rw [hread.opening hword hloc, htrim, List.head?_cons, if_pos rfl]

theorem string (hread : ReadsLines readLine) (hwf : (node key args .nil .nil).WellFormed) :
    Emitted readLine top [configLine key args] (node key args .nil .nil) := by
  have hline := readLine_node hread hwf
  refine ⟨?_, fun _ => ⟨?_, ?_⟩, fun _ hempties => ?_⟩
  · rw [total_cons, hline, weight, total_nil]
    split_ifs <;> exact Nat.le_refl _
  · exact ⟨fun _ _ => List.not_mem_nil, trivial, trivial⟩
  · rw [total_cons, total_cons, hline, empties]
    split_ifs with hhead hempty <;> simp_all [Line.opens, Line.closes, empties]
  · have hhead : key.head? ≠ some 60 := by
      intro hhead
      simp [empties, hhead] at hempties
    rw [if_neg hhead] at hline
    exact .directive hline .nil

theorem container (hread : ReadsLines readLine) (hword : IsWord name)
    (htrim : trim (loc ++ [62]) = loc ++ [62]) (hnewline : 10 ∉ loc) (hchild : child ≠ .nil)
    (hbody : Emitted readLine false body child) :
    Emitted readLine top (sectionLines name loc body)
      (node (60 :: name) (loc ++ [62]) child .nil) := by
  have hopen := hread.opening hword hnewline
  have hclose := hread.closing hword
  rw [htrim] at hopen
  have hle := hbody.weight_le
  rw [sectionLines_eq]
  refine ⟨?_, fun hweight => ?_, fun honce hempties => ?_⟩
  · simp only [total_cons, total_append, hopen, hclose, total_nil, Line.weight, weight]
    omega
  · simp only [total_cons, total_append, hopen, hclose, total_nil, Line.weight, weight] at hweight
    obtain ⟨honce, hopens⟩ := hbody.exact (by omega)
    refine ⟨⟨fun _ hnil => absurd hnil hchild, honce, trivial⟩, ?_⟩
    simp only [total_cons, total_append, hopen, hclose, total_nil, Line.opens, Line.closes, empties,
      hchild, and_false, if_false]
    omega
  · simp only [empties, hchild, and_false, if_false] at hempties
    exact .container hopen (hbody.reads honce.2.1 (by omega)) hclose rfl .nil

/-! ### Directives that are joined -/

theorem length_trim_le (s : Bytes) : (trim s).length ≤ s.length := by
  have hfront := (List.dropWhile_suffix blank : s.dropWhile blank <:+ s).length_le
  have hback := (List.dropWhile_suffix blank :
    (s.dropWhile blank).reverse.dropWhile blank <:+ _).length_le
  rw [List.length_reverse] at hback
  rw [trim, List.length_reverse]
  omega

theorem length_joined (s : Bytes) (strings : List Bytes) :
    (joined (s :: strings)).length = s.length + (strings.map fun s => 1 + s.length).sum := by
  induction strings generalizing s with
  | nil => simp [joined]
  | cons s' strings ih =>
      have hblank : (ascii " ").length = 1 := rfl
      rw [joined, List.length_append, List.length_append, ih, hblank, List.map_cons, List.sum_cons]
      · omega
      · exact List.cons_ne_nil _ _

theorem not_mem_joined {strings : List Bytes} (h : ∀ s ∈ strings, 10 ∉ s) :
    10 ∉ joined strings := by
  induction strings using joined.induct with
  | case1 => exact List.not_mem_nil
  | case2 s => exact h s List.mem_cons_self
  | case3 s strings hne ih =>
      have hblank : (10 : UInt8) ∉ ascii " " := by decide
      rw [joined, List.mem_append, List.mem_append, not_or, not_or]
      · exact ⟨⟨h s List.mem_cons_self, hblank⟩, ih fun s hs => h s (List.mem_cons_of_mem _ hs)⟩
      · exact hne

/-- The end of the last string. -/
theorem exists_joined_eq {strings : List Bytes} (hne : strings ≠ [])
    (h : ∀ s ∈ strings, ∃ front, s = front ++ [62]) : ∃ front, joined strings = front ++ [62] := by
  induction strings using joined.induct with
  | case1 => exact absurd rfl hne
  | case2 s => exact h s List.mem_cons_self
  | case3 s strings hne' ih =>
      obtain ⟨front, hfront⟩ := ih (fun heq => hne' heq)
        fun s hs => h s (List.mem_cons_of_mem _ hs)
      rw [joined, hfront]
      · exact ⟨_, (List.append_assoc _ _ _).symm⟩
      · exact hne'

theorem weight_repeated (key : Bytes) (xs : List Bytes) :
    (repeated key xs).weight = xs.length * key.length + (xs.map fun s => 1 + s.length).sum := by
  induction xs with
  | nil => exact (Nat.zero_mul _).symm
  | cons x xs ih =>
      rw [repeated, weight, weight, ih, List.map_cons, List.sum_cons, List.length_cons,
        Nat.succ_mul]
      omega

theorem wellFormed_repeated {xs : List Bytes} (h : (repeated key xs).WellFormed) :
    ∀ x ∈ xs, (node key x .nil .nil).WellFormed := by
  induction xs with
  | nil => exact fun x hx => nomatch hx
  | cons x xs ih =>
      obtain ⟨hkind, htrim, hnewline, -, hrest⟩ := h
      intro y hy
      rcases List.mem_cons.mp hy with rfl | hy
      · exact ⟨hkind, htrim, hnewline, trivial, trivial⟩
      · exact ih hrest y hy

/-- The line of several directives is read as one. -/
theorem weight_joined_le (hread : ReadsLines readLine) {xs : List Bytes} (hne : xs ≠ [])
    (hwf : ∀ x ∈ xs, (node key x .nil .nil).WellFormed) :
    (readLine (configLine key (joined xs))).weight ≤ 1 + key.length + (joined xs).length := by
  have hnewline : 10 ∉ joined xs := not_mem_joined fun x hx => (hwf x hx).2.2.1
  have htrim := length_trim_le (joined xs)
  obtain ⟨x, xs', rfl⟩ := List.exists_cons_of_ne_nil hne
  rw [configLine_eq]
  obtain ⟨hword, -⟩ | ⟨name, -, rfl, -, hword⟩ := (hwf x List.mem_cons_self).1
  · rw [hread.directive hword hnewline, Line.weight]
    omega
  · obtain ⟨front, hfront⟩ : ∃ front, joined (x :: xs') = front ++ [62] := by
      refine exists_joined_eq hne fun y hy => ?_
      obtain ⟨hword', -⟩ | ⟨-, loc, -, rfl, -⟩ := (hwf y hy).1
      · have hc := List.all_eq_true.mp hword'.2 60 List.mem_cons_self
        exact absurd hc (by decide)
      · exact ⟨loc, rfl⟩
    rw [hfront] at hnewline htrim ⊢
    rw [hread.opening hword fun hmem => hnewline (List.mem_append_left _ hmem), Line.weight]
    omega

/-- In a container, directives that are repeated lose weight. -/
theorem array (hread : ReadsLines readLine) {x x' : Bytes} {xs : List Bytes}
    (hwf : (repeated key (x :: x' :: xs)).WellFormed) :
    Emitted readLine false [configLine key (joined (x :: x' :: xs))]
      (repeated key (x :: x' :: xs)) := by
  have hnodes := wellFormed_repeated hwf
  have hkey : 0 < key.length := by
    rw [List.length_pos_iff]
    obtain ⟨hword, -⟩ | ⟨name, -, rfl, -, -⟩ := (hnodes x List.mem_cons_self).1
    · exact hword.1
    · exact List.cons_ne_nil _ _
  have hline := weight_joined_le hread (List.cons_ne_nil _ _) hnodes
  have htwo : 2 * key.length ≤ (xs.length + 1 + 1) * key.length :=
    Nat.mul_le_mul_right _ (by omega)
  have hlt : total readLine Line.weight [configLine key (joined (x :: x' :: xs))] <
      (repeated key (x :: x' :: xs)).weight := by
    rw [length_joined] at hline
    simp only [List.map_cons, List.sum_cons] at hline
    simp only [weight_repeated, List.map_cons, List.sum_cons, List.length_cons, total_cons,
      total_nil]
    omega
  refine ⟨Nat.le_of_lt hlt, fun hweight => absurd hweight (Nat.ne_of_lt hlt), fun honce => ?_⟩
  exact absurd List.mem_cons_self (honce.1 rfl rfl)

/-- At the top each of them has its line. -/
theorem each (hread : ReadsLines readLine) {xs : List Bytes}
    (hwf : (repeated key xs).WellFormed) :
    Emitted readLine true (xs.map (configLine key)) (repeated key xs) := by
  induction xs with
  | nil => exact .nil
  | cons x xs ih =>
      have hnode := wellFormed_repeated hwf x List.mem_cons_self
      exact (string hread hnode).append (ih hwf.2.2.2.2) fun htop => nomatch htop

end Emitted

/-! ## The lines of what a hash holds -/

namespace Directives.Holds

variable {readLine : Bytes → Line} {name : Option Bytes} {key : Bytes} {hash : Hash}
  {t : Directives}

/-- Among the names are the keys, and the containers of one name have no others. -/
theorem mem_of_mem_plain (h : Holds name hash t) {d : Bytes} (hd : d ∈ t.plain) :
    name = none ∧ d ∈ hash.map Prod.fst := by
  induction h with
  | nil => cases hd
  | string key args _ _ ih =>
      rw [plain_node, if_pos rfl, List.singleton_append, List.mem_cons] at hd
      rw [List.map_cons, List.mem_cons]
      exact ⟨rfl, hd.imp id fun hd => (ih hd).2⟩
  | array key args args' rest _ _ ih =>
      rw [plain_append, plain_repeated, List.mem_append] at hd
      rw [List.map_cons, List.mem_cons]
      exact ⟨rfl, hd.imp List.eq_of_mem_replicate fun hd => (ih hd).2⟩
  | hash key _ _ _ _ ihc ih =>
      rw [plain_append, List.mem_append] at hd
      rw [List.map_cons, List.mem_cons]
      refine ⟨rfl, hd.elim (fun hd => ?_) fun hd => .inr (ih hd).2⟩
      cases (ihc hd).1
  | container name loc _ hchild _ _ _ ih =>
      rw [plain_node, if_neg hchild, List.nil_append] at hd
      cases (ih hd).1

/-- The loops that go through the hash: that of `dump_section`, and for a name that of
`dump_hash`. -/
def dump : Option Bytes → Hash → Option (List Bytes)
  | none, hash => dumpSection hash
  | some name, hash => dumpHash name hash

theorem texts_of_strings (xs : List Bytes) :
    (xs.map Value.string).any Value.isRef = false ∧
      (xs.map Value.string).filterMap Value.text = xs := by
  induction xs with
  | nil => exact ⟨rfl, rfl⟩
  | cons x xs ih =>
      rw [List.map_cons, List.any_cons, List.filterMap_cons, ih.1, ih.2]
      exact ⟨rfl, rfl⟩

/-- The lines inside of a container. -/
theorem emitted (h : Holds name hash t) (hread : ReadsLines readLine) (hwf : t.WellFormed) :
    ∃ lines, dump name hash = some lines ∧ Emitted readLine false lines t := by
  induction h with
  | nil name => cases name <;> exact ⟨[], rfl, .nil⟩
  | string key args hkey hrest ih =>
      obtain ⟨hkind, htrim, hnewline, -, hwf⟩ := hwf
      obtain ⟨lines, hlines, hemitted⟩ := ih hwf
      have hnode : (node key args .nil .nil).WellFormed :=
        ⟨hkind, htrim, hnewline, trivial, trivial⟩
      refine ⟨configLine key args :: lines, ?_, ?_⟩
      · rw [dump] at hlines ⊢
        rw [dumpSection, dumpEntry, Option.bind_some, hlines]
        rfl
      · refine (Emitted.string hread hnode).append hemitted fun _ d hd hmem => ?_
        rw [plain_node, if_pos rfl, plain, List.append_nil, List.mem_singleton] at hd
        exact hkey (hd ▸ (hrest.mem_of_mem_plain hmem).2)
  | array key x x' xs hkey hrest ih =>
      obtain ⟨hnodes, hwf⟩ := wellFormed_append.mp hwf
      obtain ⟨lines, hlines, hemitted⟩ := ih hwf
      obtain ⟨hrefs, htexts⟩ := texts_of_strings (x :: x' :: xs)
      refine ⟨configLine key (joined (x :: x' :: xs)) :: lines, ?_, ?_⟩
      · rw [dump] at hlines ⊢
        rw [dumpSection, dumpEntry, hrefs, htexts, if_neg Bool.false_ne_true, Option.bind_some,
          hlines]
        rfl
      · refine (Emitted.array hread hnodes).append hemitted fun _ d hd hmem => ?_
        have hone : Holds none [(key, .array ((x :: x' :: xs).map .string))]
            ((repeated key (x :: x' :: xs)).append .nil) :=
          .array key x x' xs List.not_mem_nil (.nil _)
        rw [append_nil] at hone
        have hd' : d = key := List.mem_singleton.mp (hone.mem_of_mem_plain hd).2
        exact hkey (hd' ▸ (hrest.mem_of_mem_plain hmem).2)
  | hash key hkey hne hsub hrest ihc ih =>
      obtain ⟨hwfc, hwf⟩ := wellFormed_append.mp hwf
      obtain ⟨lines, hlines, hemitted⟩ := ih hwf
      obtain ⟨linesc, hlinesc, hemittedc⟩ := ihc hwfc
      refine ⟨linesc ++ lines, ?_, hemittedc.append hemitted fun _ d hd => ?_⟩
      · simp only [dump] at hlines hlinesc ⊢
        rw [dumpSection, dumpEntry, hlinesc, Option.bind_some, hlines]
        rfl
      · cases (hsub.mem_of_mem_plain hd).1
  | container name loc hloc hchild hsubtree hsub ihc ih =>
      obtain ⟨hkind, htrim, hnewline, hwfc, hwf⟩ := hwf
      obtain ⟨body, hbody, hemittedc⟩ := ihc hwfc
      obtain ⟨lines, hlines, hemitted⟩ := ih hwf
      obtain ⟨-, hnil⟩ | ⟨_, _, heq, -, hword⟩ := hkind
      · exact absurd hnil hchild
      cases heq
      have hloc' : 10 ∉ loc := fun hmem => hnewline (List.mem_append_left _ hmem)
      refine ⟨sectionLines name loc body ++ lines, ?_, ?_⟩
      · simp only [dump] at hlines hbody ⊢
        rw [dumpHash, hbody, Option.bind_some, hlines]
        rfl
      · refine (Emitted.container hread hword htrim hloc' hchild hemittedc).append hemitted
          fun _ d hd => ?_
        rw [plain_node, if_neg hchild] at hd
        cases hd

end Directives.Holds

/-! ## The top -/

namespace Emitted

variable {readLine : Bytes → Line} {lines : List Bytes} {t : Directives}

theorem once_iff_of_plain (h : t.plain = []) : t.Once false ↔ t.Once true := by
  induction t with
  | nil => exact Iff.rfl
  | node d a c n _ ih =>
      rw [plain_node, List.append_eq_nil_iff] at h
      rw [Once, Once, ih h.2, h.2]
      simp

theorem top (h : Emitted readLine false lines t) (hplain : t.plain = []) :
    Emitted readLine true lines t :=
  ⟨h.weight_le, fun hweight => (h.exact hweight).imp (once_iff_of_plain hplain).mp id,
    fun honce => h.reads ((once_iff_of_plain hplain).mpr honce)⟩

end Emitted

/-- What a variable adds to the lines of `@PerlConfig` and `$PerlConfig`. -/
def specialLines (e : Bytes × Value) : List Bytes :=
  if e.1 = specialName then
    match e.2 with
    | .string s => splitLines s
    | .array xs => (xs.filterMap Value.text).flatMap splitLines
    | _ => []
  else []

theorem splitLines_eq {s : Bytes} (h : 10 ∉ s) : splitLines s = if s = [] then [] else [s] := by
  rw [splitLines, List.splitOn_eq_singleton h]
  split_ifs with hempty <;> simp [hempty]

theorem chomp_eq {s : Bytes} (h : 10 ∉ s) : chomp s = s := by
  rw [chomp, if_neg]
  exact fun hlast => h (List.mem_of_getLast? hlast)

section Top

variable {readLine : Bytes → Line} {e : Bytes × Value} {hash : Hash} {t : Directives}
  {key : Bytes}

/-- A line of the configuration as it is given there. -/
theorem weight_splitLines_le (hread : ReadsLines readLine) {s : Bytes} (h : 10 ∉ s) :
    total readLine Line.weight ((splitLines s).map chomp) ≤ 2 + s.length := by
  rw [splitLines_eq h]
  split_ifs
  · exact Nat.zero_le _
  · rw [List.map_singleton, chomp_eq h, total_cons, total_nil, Nat.add_zero]
    cases hline : readLine s with
    | blank | error | closing name => exact Nat.zero_le _
    | directive name args =>
        have hshort := hread.short (.inl hline)
        rw [Line.weight]
        omega
    | opening name args =>
        have hshort := hread.short (.inr hline)
        rw [Line.weight]
        omega

theorem weight_flatMap_splitLines_le (hread : ReadsLines readLine) {xs : List Bytes}
    (h : ∀ s ∈ xs, 10 ∉ s) :
    total readLine Line.weight ((xs.flatMap splitLines).map chomp) ≤
      xs.length + (xs.map fun s => 1 + s.length).sum := by
  induction xs with
  | nil => exact Nat.le_refl _
  | cons x xs ih =>
      have hfirst := weight_splitLines_le hread (h x List.mem_cons_self)
      have hrest := ih fun s hs => h s (List.mem_cons_of_mem _ hs)
      rw [List.flatMap_cons, List.map_append, total_append, List.map_cons, List.sum_cons,
        List.length_cons]
      omega

/-- They are shorter than the directives that they would be. -/
theorem weight_specialLines_lt (hread : ReadsLines readLine) (h : Holds none [e] t)
    (hwf : t.WellFormed) :
    total readLine Line.weight ((specialLines e).map chomp) < t.weight := by
  have hpos : 0 < t.weight := by
    cases h with
    | string | array => exact weight_node_pos _ _ _ _
    | hash _ _ hne hsub hrest =>
        cases hsub with
        | nil => exact absurd rfl hne
        | container => exact weight_node_pos _ _ _ _
  unfold specialLines
  split_ifs with hkey
  · cases h with
    | string key s _ hrest =>
        cases hrest
        have hle := weight_splitLines_le hread hwf.2.2.1
        have hten : key.length = 10 := congrArg List.length hkey
        dsimp only
        rw [weight]
        omega
    | array key x x' xs _ hrest =>
        cases hrest
        rw [append_nil] at hwf ⊢
        have hle := weight_flatMap_splitLines_le hread fun s hs =>
          (Emitted.wellFormed_repeated hwf s hs).2.2.1
        have hlength : (x :: x' :: xs).length * key.length = (xs.length + 2) * 10 := by
          have hten : key.length = 10 := congrArg List.length hkey
          rw [hten]
          rfl
        dsimp only
        rw [(Holds.texts_of_strings _).2, Emitted.weight_repeated, hlength]
        rw [List.length_cons, List.length_cons] at hle
        omega
    | hash key _ _ _ hrest => exact hpos
  · exact hpos

/-- The lines of a variable. -/
theorem dumpAny_emitted (hread : ReadsLines readLine) (h : Holds none [e] t) (hwf : t.WellFormed) :
    ∃ lines, dumpAny e.1 e.2 = some lines ∧ Emitted readLine true lines t := by
  cases h with
  | string key s _ hrest =>
      cases hrest
      exact ⟨_, rfl, .string hread hwf⟩
  | array key x x' xs _ hrest =>
      cases hrest
      rw [append_nil] at hwf ⊢
      refine ⟨_, ?_, .each hread hwf⟩
      dsimp only [dumpAny]
      induction x :: x' :: xs with
      | nil => rfl
      | cons x xs ih =>
          rw [List.map_cons, dumpArray, dumpEntry, Option.bind_some, ih]
          rfl
  | hash key _ _ hsub hrest =>
      cases hrest
      rw [append_nil] at hwf ⊢
      obtain ⟨lines, hlines, hemitted⟩ := hsub.emitted hread hwf
      refine ⟨lines, hlines, hemitted.top ?_⟩
      rw [List.eq_nil_iff_forall_not_mem]
      intro d hd
      cases (hsub.mem_of_mem_plain hd).1

/-- The array was not met before. -/
def fresh (seen : List (Bytes × Bytes)) (package : Bytes) (e : Bytes × Value) : Bool :=
  !(e.2.isArray && decide ((e.1, package) ∈ seen))

/-- The variables that are not passed over. -/
def Shown (seen : List (Bytes × Bytes)) (package : Bytes) (e : Bytes × Value) : Prop :=
  fresh seen package e = true ∧ ¬specialName <:+: e.1

/-- The lines of all variables, with those of `@PerlConfig` apart. -/
theorem dumpSymbols_emitted (hread : ReadsLines readLine) (h : Holds none hash t)
    (hwf : t.WellFormed) (seen : List (Bytes × Bytes)) (package : Bytes) :
    ∃ lines, dumpSymbols (hash.filter (fresh seen package)) = some lines ∧
      total readLine Line.weight lines +
          total readLine Line.weight ((hash.flatMap specialLines).map chomp) ≤ t.weight ∧
      (total readLine Line.weight lines +
          total readLine Line.weight ((hash.flatMap specialLines).map chomp) = t.weight →
        (∀ e ∈ hash, Shown seen package e) ∧ t.Once true ∧
          total readLine Line.opens lines = total readLine Line.closes lines + t.empties) ∧
      ((∀ e ∈ hash, Shown seen package e) → Emitted readLine true lines t) := by
  induction hash generalizing t with
  | nil =>
      cases h
      refine ⟨[], rfl, Nat.le_refl _, fun _ => ⟨?_, trivial, rfl⟩, fun _ => .nil⟩
      exact fun e he => nomatch he
  | cons e hash ih =>
      obtain ⟨t₁, t₂, h₁, -, h₂, rfl⟩ := h.cons_inv
      obtain ⟨hwf₁, hwf₂⟩ := wellFormed_append.mp hwf
      obtain ⟨lines₂, hlines₂, hle₂, hexact₂, hreads₂⟩ := ih h₂ hwf₂
      obtain ⟨lines₁, hlines₁, hemitted₁⟩ := dumpAny_emitted hread h₁ hwf₁
      have hspecial := weight_specialLines_lt hread h₁ hwf₁
      rw [List.flatMap_cons, List.map_append, total_append, weight_append]
      by_cases hshown : Shown seen package e
      · have hlines : dumpSymbols ((e :: hash).filter (fresh seen package)) =
            some (lines₁ ++ lines₂) := by
          rw [List.filter_cons_of_pos hshown.1, dumpSymbols, if_neg hshown.2, hlines₁,
            Option.bind_some, hlines₂]
          rfl
        have hnone : specialLines e = [] :=
          if_neg fun (heq : e.1 = specialName) => hshown.2 (heq ▸ List.infix_refl _)
        rw [hnone, List.map_nil, total_nil, Nat.zero_add]
        have hle₁ := hemitted₁.weight_le
        refine ⟨_, hlines, ?_, fun hweight => ?_, fun hall => ?_⟩
        · rw [total_append]
          omega
        · rw [total_append] at hweight
          obtain ⟨hall₂, honce₂, hopens₂⟩ := hexact₂ (by omega)
          obtain ⟨honce₁, hopens₁⟩ := hemitted₁.exact (by omega)
          refine ⟨?_, once_append.mpr ⟨honce₁, honce₂, fun htop => nomatch htop⟩, ?_⟩
          · rintro e' (_ | ⟨_, he'⟩)
            · exact hshown
            · exact hall₂ e' he'
          · rw [total_append, total_append, empties_append]
            omega
        · exact hemitted₁.append (hreads₂ fun e' he' => hall e' (List.mem_cons_of_mem _ he'))
            fun htop => nomatch htop
      · have hlines : dumpSymbols ((e :: hash).filter (fresh seen package)) = some lines₂ := by
          by_cases hfresh : fresh seen package e = true
          · have hcontains : specialName <:+: e.1 := by
              by_contra hnot
              exact hshown ⟨hfresh, hnot⟩
            rw [List.filter_cons_of_pos hfresh, dumpSymbols, if_pos hcontains, hlines₂]
          · rw [List.filter_cons_of_neg hfresh, hlines₂]
        -- what is passed over is lost, also if it is given as it is
        exact ⟨_, hlines, by omega, fun hweight => by omega,
          fun hall => absurd (hall e List.mem_cons_self) hshown⟩

/-! ### What is passed over -/

theorem siblings_repeated (xs : List Bytes) :
    (repeated key xs).siblings = xs.map fun x => (key, x) := by
  induction xs with
  | nil => rfl
  | cons x xs ih => rw [repeated, siblings, ih, List.map_cons]

theorem name_of_mem_containers {subhash : Hash} (h : Holds (some key) subhash t) :
    ∀ d ∈ t.siblings, d.1 = 60 :: key := by
  generalize hname : some key = name at h
  induction h with
  | nil => exact fun d hd => nomatch hd
  | container name loc _ _ _ _ _ ih =>
      cases hname
      rintro d (_ | ⟨_, hd⟩)
      · rfl
      · exact ih rfl d hd
  | string | array | hash => cases hname

/-- The name of a variable, and of its directives or containers. -/
theorem special_iff_of_single (h : Holds none [e] t) :
    (∀ d ∈ t.siblings, ¬specialName <:+: d.1) ↔ ¬specialName <:+: e.1 := by
  cases h with
  | string key s _ hrest =>
      cases hrest
      exact List.forall_mem_singleton
  | array key x x' xs _ hrest =>
      cases hrest
      rw [append_nil, siblings_repeated, List.forall_mem_map]
      exact ⟨fun hall => hall x List.mem_cons_self, fun hnot _ _ => hnot⟩
  | hash key _ hne hsub hrest =>
      cases hrest
      rw [append_nil]
      have hnames := name_of_mem_containers hsub
      have hcontains : specialName <:+: 60 :: key ↔ specialName <:+: key := by
        rw [List.infix_cons_iff]
        refine or_iff_right fun hfront => ?_
        cases (List.cons_prefix_cons.mp hfront).1
      constructor
      · intro hall hspecial
        obtain ⟨e', subhash, rfl⟩ := List.exists_cons_of_ne_nil hne
        refine hall _ (hsub.mem_siblings_of_containers List.mem_cons_self) ?_
        exact hcontains.mpr hspecial
      · intro hnot d hd hspecial
        rw [hnames d hd] at hspecial
        exact hnot (hcontains.mp hspecial)

/-- An array stands for a directive that is repeated. -/
theorem two_le_count_iff (h : Holds none [e] t) : 2 ≤ t.plain.count e.1 ↔ e.2.isArray = true := by
  cases h with
  | string key s _ hrest =>
      cases hrest
      simp [plain, Value.isArray]
  | array key x x' xs _ hrest =>
      cases hrest
      rw [append_nil, plain_repeated, List.count_replicate_self]
      exact iff_of_true (Nat.le_add_left 2 _) rfl
  | hash key _ _ hsub hrest =>
      cases hrest
      rw [append_nil, List.count_eq_zero_of_not_mem]
      · exact iff_of_false (by omega) Bool.false_ne_true
      · intro hmem
        cases (hsub.mem_of_mem_plain hmem).1

theorem shown_iff (h : Holds none hash t) (seen : List (Bytes × Bytes)) (package : Bytes) :
    (∀ e ∈ hash, Shown seen package e) ↔ (∀ d ∈ t.siblings, ¬specialName <:+: d.1) ∧
      ∀ key, 2 ≤ t.plain.count key → (key, package) ∉ seen := by
  induction hash generalizing t with
  | nil =>
      cases h
      simp [siblings, plain]
  | cons e hash ih =>
      obtain ⟨t₁, t₂, h₁, hkey, h₂, rfl⟩ := h.cons_inv
      have hspecial := special_iff_of_single h₁
      have htwo := two_le_count_iff h₁
      have hfresh : fresh seen package e = true ↔
          (2 ≤ t₁.plain.count e.1 → (e.1, package) ∉ seen) := by
        rw [htwo]
        cases harray : e.2.isArray <;> simp [fresh, harray]
      -- a name is that of this variable, or of others
      have hcount : (∀ key, 2 ≤ (t₁.plain ++ t₂.plain).count key → (key, package) ∉ seen) ↔
          (2 ≤ t₁.plain.count e.1 → (e.1, package) ∉ seen) ∧
            ∀ key, 2 ≤ t₂.plain.count key → (key, package) ∉ seen := by
        have hself : t₂.plain.count e.1 = 0 :=
          List.count_eq_zero_of_not_mem fun hmem => hkey (h₂.mem_of_mem_plain hmem).2
        have hother : ∀ key, key ≠ e.1 → t₁.plain.count key = 0 := fun key hne =>
          List.count_eq_zero_of_not_mem fun hmem =>
            hne (List.mem_singleton.mp (h₁.mem_of_mem_plain hmem).2)
        simp only [List.count_append]
        constructor
        · intro hall
          refine ⟨fun hle => hall e.1 (Nat.le_add_right_of_le hle), fun key hle => hall key ?_⟩
          exact Nat.le_add_left_of_le hle
        · rintro ⟨hfirst, hrest⟩ key hle
          by_cases heq : key = e.1
          · subst heq
            rw [hself] at hle
            exact hfirst hle
          · rw [hother key heq, Nat.zero_add] at hle
            exact hrest key hle
      rw [List.forall_mem_cons, ih h₂, siblings_append, List.forall_mem_append, plain_append,
        hcount, hspecial, Shown, hfresh]
      constructor
      · rintro ⟨⟨hseen, hshown⟩, hsiblings, hplain⟩
        exact ⟨⟨hshown, hsiblings⟩, hseen, hplain⟩
      · rintro ⟨⟨hshown, hsiblings⟩, hseen, hplain⟩
        exact ⟨⟨hseen, hshown⟩, hsiblings, hplain⟩

/-! ### The walk through the variables -/

theorem keys_nodup (h : Holds none hash t) : (hash.map Prod.fst).Nodup := by
  induction hash generalizing t with
  | nil => exact .nil
  | cons e hash ih =>
      obtain ⟨-, t₂, -, hkey, h₂, -⟩ := h.cons_inv
      exact List.nodup_cons.mpr ⟨hkey, ih h₂⟩

/-- `symdump` finds each variable but the arrays that it found before. -/
theorem symdumpLoop_assign (package : Bytes) (seen : List (Bytes × Bytes))
    (hnodup : (hash.map Prod.fst).Nodup) :
    (symdumpLoop package seen (hash.map fun e => (e.1, Glob.assign e.2))).2 =
      hash.filter (fresh seen package) := by
  induction hash generalizing seen with
  | nil => rfl
  | cons e hash ih =>
      obtain ⟨key, value⟩ := e
      obtain ⟨hkey, hnodup⟩ := List.nodup_cons.mp hnodup
      have hrest := fun seen => ih seen hnodup
      cases value with
      | string s | scalar s | hash subhash =>
          rw [List.filter_cons_of_pos rfl, ← hrest]
          simp [symdumpLoop, Glob.assign]
      | array xs =>
          by_cases hseen : (key, package) ∈ seen
          · rw [List.filter_cons_of_neg (by simp [fresh, Value.isArray, hseen]), ← hrest]
            simp [symdumpLoop, Glob.assign, hseen]
          · have hsame : hash.filter (fresh ((key, package) :: seen) package) =
                hash.filter (fresh seen package) := by
              refine List.filter_congr fun e he => ?_
              have hne : e.1 ≠ key := fun heq => hkey (List.mem_map.mpr ⟨e, he, heq⟩)
              simp [fresh, hne]
            rw [List.filter_cons_of_pos (by simp [fresh, hseen]), ← hsame, ← hrest]
            simp [symdumpLoop, Glob.assign, hseen]

theorem mapM_text (xs : List Bytes) : (xs.map Value.string).mapM Value.text = some xs := by
  induction xs with
  | nil => rfl
  | cons x xs ih => simp [Value.text, ih]

theorem specialLines_of_not_mem (h : specialName ∉ hash.map Prod.fst) :
    hash.flatMap specialLines = [] := by
  rw [List.flatMap_eq_nil_iff]
  exact fun e he => if_neg fun (heq : e.1 = specialName) => h (List.mem_map.mpr ⟨e, he, heq⟩)

theorem specialConfig_assign (h : Holds none hash t) :
    specialConfig (hash.map fun e => (e.1, Glob.assign e.2)) =
      some (hash.flatMap specialLines) := by
  induction hash generalizing t with
  | nil => rfl
  | cons e hash ih =>
      obtain ⟨t₁, t₂, h₁, hkey, h₂, -⟩ := h.cons_inv
      rw [List.flatMap_cons]
      by_cases heq : e.1 = specialName
      · rw [specialLines_of_not_mem (heq ▸ hkey), List.append_nil, specialLines, if_pos heq]
        cases h₁ with
        | string key s _ _ => simp_all [specialConfig, Glob.assign, Value.text]
        | array key x x' xs _ _ =>
            have htexts := (Holds.texts_of_strings (x :: x' :: xs)).2
            have hmap := mapM_text (x :: x' :: xs)
            simp_all [specialConfig, Glob.assign]
        | hash key _ _ _ _ => simp_all [specialConfig, Glob.assign]
      · rw [specialLines, if_neg heq, List.nil_append, ← ih h₂]
        simp [specialConfig, heq]

/-- What a section does whose variables are the entries of a hash. -/
theorem handler_assign (h : Holds none hash t) (seen : List (Bytes × Bytes)) {package : Bytes}
    (hpackage : package ≠ specialPackage) :
    (handler (fun pack => if pack = package then hash.map fun e => (e.1, Glob.assign e.2) else [])
        seen package).2 =
      (dumpSymbols (hash.filter (fresh seen package))).map
        (· ++ (hash.flatMap specialLines).map chomp) := by
  simp only [handler, symdump, if_true, if_neg (Ne.symm hpackage), symdumpLoop, List.append_nil,
    symdumpLoop_assign package seen (keys_nodup h), specialConfig_assign h, Option.map_some]
  cases dumpSymbols (hash.filter (fresh seen package)) <;> rfl

theorem specialLines_of_shown {seen : List (Bytes × Bytes)} {package : Bytes}
    (h : ∀ e ∈ hash, Shown seen package e) : hash.flatMap specialLines = [] := by
  refine specialLines_of_not_mem fun hmem => ?_
  obtain ⟨e, he, heq⟩ := List.mem_map.mp hmem
  exact (h e he).2 (heq ▸ List.infix_refl _)

end Top

/-! ## The package -/

/-- The package of a section in `modperl_cmd_perldo`. -/
def sectionPackage (pkgBase pkgNamespace : Bytes) (lineNum : ℕ) : Bytes :=
  pkgBase ++ ascii "::" ++ pkgNamespace ++ ascii "::line_" ++ ascii (toString lineNum)

theorem sectionPackage_ne_specialPackage (pkgBase pkgNamespace : Bytes) (lineNum : ℕ) :
    sectionPackage pkgBase pkgNamespace lineNum ≠ specialPackage := by
  intro heq
  have hline : 95 ∈ ascii "::line_" := by decide
  have hmem : 95 ∈ sectionPackage pkgBase pkgNamespace lineNum :=
    List.mem_append_left _ (List.mem_append_right _ hline)
  rw [heq] at hmem
  revert hmem
  decide

section Inverse

variable {place : Hash → Bytes × Value → Hash} {readLine : Bytes → Line} {t : Directives}
  {seen : List (Bytes × Bytes)} {package : Bytes}

/-- What is read back has nothing lost: all variables are there, and the containers are
closed. -/
theorem expressible_of_inverse (hplace : ∀ hash e, (place hash e).Perm (e :: hash))
    (hread : ReadsLines readLine) (hpackage : package ≠ specialPackage) (hwf : t.WellFormed)
    (hdistinct : t.Distinct) (h : t.Inverse place readLine seen package) :
    t.Expressible seen package := by
  obtain ⟨hash, tree, hhash, hholds, hsame⟩ := asHash_holds hplace hwf hdistinct
  obtain ⟨hash', hhash', horders⟩ := h
  cases hhash.symm.trans hhash'
  obtain ⟨lines', t', hlines', hreads, hsame'⟩ := horders hash (.refl hash)
  obtain ⟨lines, hlines, -, hexact, -⟩ :=
    dumpSymbols_emitted hread hholds (hsame.wellFormed.mp hwf) seen package
  rw [handler_assign hholds seen hpackage, hlines, Option.map_some, Option.some.injEq] at hlines'
  subst hlines'
  have hweight := hreads.weight
  rw [total_append, ← hsame'.weight, hsame.weight] at hweight
  obtain ⟨hshown, honce, hopens⟩ := hexact hweight
  rw [specialLines_of_shown hshown, List.map_nil, List.append_nil] at hreads
  have hbalanced := hreads.balanced
  obtain ⟨hspecial, hfresh⟩ := (shown_iff hholds seen package).mp hshown
  refine ⟨?_, hsame.once.mpr honce, fun d hd => hspecial d (hsame.siblings.mem_iff.mp hd), ?_⟩
  · rw [hsame.empties]
    omega
  · intro key hkey
    rw [hsame.plain.count_eq] at hkey
    exact hfresh key hkey

theorem inverse_of_expressible (hplace : ∀ hash e, (place hash e).Perm (e :: hash))
    (hread : ReadsLines readLine) (hpackage : package ≠ specialPackage) (hwf : t.WellFormed)
    (hdistinct : t.Distinct) (h : t.Expressible seen package) :
    t.Inverse place readLine seen package := by
  obtain ⟨hash, tree, hhash, hholds, hsame⟩ := asHash_holds hplace hwf hdistinct
  refine ⟨hash, hhash, fun order horder => ?_⟩
  obtain ⟨t', hholds', hsame'⟩ := hholds.perm horder.symm
  have hall : Same t t' := hsame.trans hsame'
  obtain ⟨lines, hlines, -, -, hreads⟩ :=
    dumpSymbols_emitted hread hholds' (hall.wellFormed.mp hwf) seen package
  have hshown : ∀ e ∈ order, Shown seen package e := by
    rw [shown_iff hholds']
    refine ⟨fun d hd => h.special d (hall.siblings.mem_iff.mpr hd), fun key hkey => ?_⟩
    rw [← hall.plain.count_eq] at hkey
    exact h.fresh key hkey
  refine ⟨lines, t', ?_, ?_, hall⟩
  · rw [handler_assign hholds' seen hpackage, hlines, specialLines_of_shown hshown]
    simp
  · exact (hreads hshown).reads (hall.once.mp h.once) (hall.empties ▸ h.inhabited)

/-- The lines that a `<Perl>` section makes of the hash of a tree are those of the tree exactly
when the tree has no empty container, no container has a directive that is repeated, no name of
the top is passed over, and no name repeated there was seen. -/
theorem asHash_inverse_iff (place : Hash → Bytes × Value → Hash) (readLine : Bytes → Line)
    (hplace : ∀ hash e, (place hash e).Perm (e :: hash)) (hread : ReadsLines readLine)
    (seen : List (Bytes × Bytes)) (pkgBase pkgNamespace : Bytes) (lineNum : ℕ) (t : Directives)
    (hwf : t.WellFormed) (hdistinct : t.Distinct) :
    t.Inverse place readLine seen (sectionPackage pkgBase pkgNamespace lineNum) ↔
      t.Expressible seen (sectionPackage pkgBase pkgNamespace lineNum) := by
  have hpackage := sectionPackage_ne_specialPackage pkgBase pkgNamespace lineNum
  exact ⟨expressible_of_inverse hplace hread hpackage hwf hdistinct,
    inverse_of_expressible hplace hread hpackage hwf hdistinct⟩

end Inverse

/-! ## A server -/

/-- `ap_build_config_sub`: the first word, without a `>` at its end, and the rest. -/
def buildConfigSub (line : Bytes) : Line :=
  let line := line.dropWhile blank
  let cmdName := line.takeWhile (!blank ·)
  let args := trim (line.dropWhile (!blank ·))
  if cmdName = [] ∨ cmdName.head? = some 35 then .blank
  else if cmdName.take 2 = ascii "</" then
    if cmdName.getLast? = some 62 then .closing (cmdName.drop 2).dropLast else .error
  else
    let cmdName' := if cmdName.getLast? = some 62 then cmdName.dropLast else cmdName
    if cmdName.head? = some 60 then .opening cmdName' (if args = [] then [62] else args)
    else .directive cmdName' args

theorem firstWord_append {word : Bytes} (rest : Bytes) (hne : word ≠ [])
    (hword : ∀ c ∈ word, (!blank c) = true) (hrest : rest.takeWhile (!blank ·) = []) :
    (word ++ rest).dropWhile blank = word ++ rest ∧
      (word ++ rest).takeWhile (!blank ·) = word ∧ (word ++ rest).dropWhile (!blank ·) = rest := by
  refine ⟨?_, ?_, ?_⟩
  · obtain ⟨c, word, rfl⟩ := List.exists_cons_of_ne_nil hne
    have hc := hword c List.mem_cons_self
    exact List.dropWhile_cons_of_neg (by simpa using hc)
  · rw [List.takeWhile_append_of_pos hword, hrest, List.append_nil]
  · rw [List.dropWhile_append_of_pos hword]
    have happend := List.takeWhile_append_dropWhile (p := (!blank ·)) (l := rest)
    rwa [hrest, List.nil_append] at happend

theorem not_blank_of_isWord {name : Bytes} (h : IsWord name) : ∀ c ∈ name, (!blank c) = true := by
  intro c hc
  have hword := List.all_eq_true.mp h.2 c hc
  have hnot : ¬(c.toNat = 32 ∨ 9 ≤ c.toNat ∧ c.toNat ≤ 13) := by
    simp [wordByte, UInt8.le_iff_toNat_le, ← UInt8.toNat_inj] at hword
    omega
  have hblank : blank c = true ↔ c.toNat = 32 ∨ 9 ≤ c.toNat ∧ c.toNat ≤ 13 := by
    simp [blank, UInt8.le_iff_toNat_le, ← UInt8.toNat_inj]
  rw [Bool.not_eq_true', Bool.eq_false_iff, Ne, hblank]
  exact hnot

theorem getLast?_ne_of_isWord {name : Bytes} (h : IsWord name) : name.getLast? ≠ some 62 := by
  intro hlast
  have hword := List.all_eq_true.mp h.2 62 (List.mem_of_getLast? hlast)
  revert hword
  decide

theorem head?_ne_of_isWord {name : Bytes} (h : IsWord name) :
    name.head? ≠ some 35 ∧ name.head? ≠ some 60 ∧ name.head? ≠ some 47 := by
  refine ⟨fun hhead => ?_, fun hhead => ?_, fun hhead => ?_⟩
  all_goals
    have hword := List.all_eq_true.mp h.2 _ (List.mem_of_head? hhead)
    revert hword
    decide

theorem trim_concat (loc : Bytes) : ∃ front, trim (loc ++ [62]) = front ++ [62] := by
  have hdrop : ∃ front, (loc ++ [62]).dropWhile blank = front ++ [62] := by
    induction loc with
    | nil => exact ⟨[], rfl⟩
    | cons c loc ih =>
        rw [List.cons_append, List.dropWhile_cons]
        split_ifs
        · exact ih
        · exact ⟨c :: loc, rfl⟩
  obtain ⟨front, hfront⟩ := hdrop
  refine ⟨front, ?_⟩
  rw [trim, hfront, List.reverse_append, List.reverse_singleton, List.singleton_append,
    List.dropWhile_cons_of_neg (by decide), List.reverse_cons, List.reverse_reverse]

theorem readsLines_buildConfigSub : ReadsLines buildConfigSub where
  directive := by
    intro name args hname hargs
    obtain ⟨hdrop, htake, hrest⟩ := firstWord_append (ascii " " ++ args) hname.1
      (not_blank_of_isWord hname) rfl
    obtain ⟨hhash, hopen, hslash⟩ := head?_ne_of_isWord hname
    have htwo : name.take 2 ≠ ascii "</" := by
      cases name with
      | nil => exact fun h => nomatch h
      | cons c name => exact fun h => hopen (congrArg List.head? h)
    rw [List.append_assoc, buildConfigSub]
    simp only [hdrop, htake, hrest, hname.1, hhash, hopen, htwo, getLast?_ne_of_isWord hname,
      or_self, if_false]
    rfl
  opening := by
    intro name loc hname hloc
    have hword : ∀ c ∈ 60 :: name, (!blank c) = true := by
      rintro c (_ | ⟨_, hc⟩)
      · rfl
      · exact not_blank_of_isWord hname c hc
    obtain ⟨hdrop, htake, hrest⟩ := firstWord_append (ascii " " ++ (loc ++ [62]))
      (List.cons_ne_nil _ _) hword rfl
    obtain ⟨-, -, hslash⟩ := head?_ne_of_isWord hname
    have htwo : (60 :: name).take 2 ≠ ascii "</" := by
      cases name with
      | nil => exact fun h => nomatch h
      | cons c name => exact fun h => hslash (congrArg List.head? (List.cons.inj h).2)
    have hlast : (60 :: name).getLast? ≠ some 62 := by
      rw [List.getLast?_cons_of_ne_nil hname.1]
      exact getLast?_ne_of_isWord hname
    have hargs : trim (ascii " " ++ (loc ++ [62])) = trim (loc ++ [62]) := rfl
    have hne : trim (loc ++ [62]) ≠ [] := by
      obtain ⟨front, hfront⟩ := trim_concat loc
      rw [hfront]
      exact List.append_ne_nil_of_right_ne_nil _ (List.cons_ne_nil _ _)
    rw [List.append_assoc, buildConfigSub]
    simp only [hdrop, htake, hrest, hargs, hne, htwo, hlast, if_false]
    rfl
  closing := by
    intro name hname
    have hword : ∀ c ∈ ascii "</" ++ name ++ ascii ">", (!blank c) = true := by
      intro c hc
      rw [List.mem_append, List.mem_append] at hc
      rcases hc with (hc | hc) | hc
      · exact List.all_eq_true.mp (show (ascii "</").all (!blank ·) = true by decide) c hc
      · exact not_blank_of_isWord hname c hc
      · exact List.all_eq_true.mp (show (ascii ">").all (!blank ·) = true by decide) c hc
    obtain ⟨hdrop, htake, -⟩ := firstWord_append [] (by simp [hname.1]) hword rfl
    rw [List.append_nil] at hdrop htake
    have hlast : (ascii "</" ++ name ++ ascii ">").getLast? = some 62 := List.getLast?_concat
    have hname' : ((ascii "</" ++ name ++ ascii ">").drop 2).dropLast = name :=
      List.dropLast_concat
    have hslash : (ascii "</" ++ name ++ ascii ">").take 2 = ascii "</" := rfl
    have hfirst : ¬(ascii "</" ++ name ++ ascii ">" = [] ∨
        (ascii "</" ++ name ++ ascii ">").head? = some 35) := by
      simp [ascii]
    simp only [buildConfigSub, hdrop, htake, if_neg hfirst, hslash, hlast, hname', if_true]
  short := by
    intro line name args h
    have hline : (line.dropWhile blank).length ≤ line.length :=
      (List.dropWhile_suffix blank).length_le
    have hsplit : ((line.dropWhile blank).takeWhile (!blank ·)).length +
        ((line.dropWhile blank).dropWhile (!blank ·)).length = (line.dropWhile blank).length := by
      rw [← List.length_append, List.takeWhile_append_dropWhile]
    have htrim := Emitted.length_trim_le ((line.dropWhile blank).dropWhile (!blank ·))
    simp only [buildConfigSub] at h
    generalize (line.dropWhile blank).takeWhile (!blank ·) = cmdName at h hsplit
    generalize trim ((line.dropWhile blank).dropWhile (!blank ·)) = rest at h htrim
    have hlength : (if cmdName.getLast? = some 62 then cmdName.dropLast else cmdName).length ≤
        cmdName.length := by
      split_ifs <;> simp
    generalize (if cmdName.getLast? = some 62 then cmdName.dropLast else cmdName) = cmdName'
      at h hlength
    split_ifs at h with _ _ _ _ hempty
    all_goals
      obtain h | h := h
      all_goals cases h
    · rw [List.length_singleton]
      omega
    · omega
    · omega

/-- Two directives of one name, and a container. -/
def listenTwice : Directives :=
  .node (ascii "Listen") (ascii "80") .nil
    (.node (ascii "Listen") (ascii "81") .nil
      (.node (ascii "<Location") (ascii "/test>")
        (.node (ascii "SetHandler") (ascii "perl-script") .nil
          (.node (ascii "PerlHandler") (ascii "Test::Module") .nil .nil)) .nil))

theorem asHash_inverse_listen :
    listenTwice.Inverse (fun hash e => hash ++ [e]) buildConfigSub []
      (sectionPackage specialPackage (ascii "httpd_conf") 20) := by
  refine (asHash_inverse_iff _ _ (fun hash e => List.perm_append_singleton e hash)
    readsLines_buildConfigSub [] specialPackage (ascii "httpd_conf") 20 listenTwice ?_ ?_).mpr ?_
  · exact ⟨.inl ⟨⟨by decide, by decide⟩, rfl⟩, rfl, by decide, trivial,
      .inl ⟨⟨by decide, by decide⟩, rfl⟩, rfl, by decide, trivial,
      .inr ⟨ascii "Location", ascii "/test", rfl, rfl, by decide, by decide⟩, rfl, by decide,
      ⟨.inl ⟨⟨by decide, by decide⟩, rfl⟩, rfl, by decide, trivial,
        .inl ⟨⟨by decide, by decide⟩, rfl⟩, rfl, by decide, trivial, trivial⟩, trivial⟩
  · have hnil : ∀ d, ∀ d' ∈ ([] : List (Bytes × Bytes)), Compatible d d' :=
      fun _ _ hd => (List.not_mem_nil hd).elim
    have hlisten : Compatible (ascii "Listen", ascii "80") (ascii "Listen", ascii "81") :=
      ⟨by decide, by decide, by decide⟩
    have hlocation : ∀ args,
        Compatible (ascii "Listen", args) (ascii "<Location", ascii "/test>") :=
      fun _ => ⟨fun hhead => absurd hhead (show (ascii "Listen").head? ≠ some 60 by decide),
        show ascii "<Listen" ≠ ascii "<Location" by decide,
        show ascii "<<Location" ≠ ascii "Listen" by decide⟩
    have hhandlers : Compatible (ascii "SetHandler", ascii "perl-script")
        (ascii "PerlHandler", ascii "Test::Module") := ⟨by decide, by decide, by decide⟩
    refine ⟨?_, trivial, ?_, trivial, hnil _, ⟨?_, trivial, hnil _, trivial, trivial⟩, trivial⟩
    · exact List.forall_mem_cons.mpr ⟨hlisten, List.forall_mem_singleton.mpr (hlocation _)⟩
    · exact List.forall_mem_singleton.mpr (hlocation _)
    · exact List.forall_mem_singleton.mpr hhandlers
  · refine ⟨rfl, ?_, fun d hd hcontains => ?_, fun _ _ => List.not_mem_nil⟩
    · have hne : ascii "SetHandler" ≠ ascii "PerlHandler" := by decide
      simp [listenTwice, Once, plain, hne]
    · -- the names are shorter
      have hlength : ∀ d ∈ listenTwice.siblings, d.1.length < 10 := by decide
      exact absurd hcontains.length_le (Nat.not_le.mpr (hlength d hd))

/-- Two directives of one name in a container. -/
def setVarTwice : Directives :=
  .node (ascii "<Location") (ascii "/test>")
    (.node (ascii "PerlSetVar") (ascii "a 1") .nil
      (.node (ascii "PerlSetVar") (ascii "b 2") .nil .nil)) .nil

/-- `PerlSetVar a 1 b 2` -/
theorem asHash_inverse_fails :
    setVarTwice.WellFormed ∧ setVarTwice.Distinct ∧
      ¬setVarTwice.Inverse (fun hash e => hash ++ [e]) buildConfigSub []
        (sectionPackage specialPackage (ascii "httpd_conf") 20) := by
  have hwf : setVarTwice.WellFormed := by
    refine ⟨.inr ⟨ascii "Location", ascii "/test", rfl, rfl, by decide, by decide⟩, rfl, by decide,
      ⟨.inl ⟨⟨by decide, by decide⟩, rfl⟩, rfl, by decide, trivial,
        .inl ⟨⟨by decide, by decide⟩, rfl⟩, rfl, by decide, trivial, trivial⟩, trivial⟩
  have hdistinct : setVarTwice.Distinct := by
    refine ⟨fun _ hd => (List.not_mem_nil hd).elim, ⟨?_, trivial, ?_⟩, trivial⟩
    · exact List.forall_mem_singleton.mpr ⟨by decide, by decide, by decide⟩
    · exact ⟨fun _ hd => (List.not_mem_nil hd).elim, trivial, trivial⟩
  refine ⟨hwf, hdistinct, fun hinverse => ?_⟩
  have honce := (expressible_of_inverse (fun hash e => List.perm_append_singleton e hash)
    readsLines_buildConfigSub (sectionPackage_ne_specialPackage _ _ _) hwf hdistinct hinverse).once
  exact honce.2.1.1 rfl rfl List.mem_cons_self

end ModPerl
