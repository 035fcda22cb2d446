import ModPerl.Config.PerlSections
import Mathlib.Data.List.Nodup
import Mathlib.Data.List.Pairwise

/-!
# The dump of `<Perl>` sections

With `$Apache2::PerlSections::Save` the packages of the sections are kept, and `dump`
writes their variables as Perl.  It goes through the symbols as the sections did before
it, with the same `%directives_seen_hack`: an array that was met then is not met again,
and no array is in the text but `@PerlConfig`.  A key of a hash is put between quotes
as it is.

`Data::Dumper` renders a value under a name; of a statement of the text we keep the
name, which is read back here, and the value.
-/

namespace ModPerl

/-- A statement of the text: what is assigned, as it is written, and the value.  That of an
array is the list of its elements. -/
structure Statement where
  lhs : Bytes
  value : Value

/-- `Data::Dumper->Dump([$value], [$name])` -/
def dumper (value : Value) : Bytes → Statement
  | 42 :: name =>
      match value with
      | .array _ => ⟨64 :: name, value⟩
      | .hash _ => ⟨37 :: name, value⟩
      | _ => ⟨36 :: name, value⟩
  | 36 :: name => ⟨36 :: name, value⟩
  | name => ⟨36 :: name, value⟩

namespace PerlSections.Dump

/-- `dump_array` -/
def dumpArray (name : Bytes) (entry : List Value) : List Statement :=
  [dumper (.array entry) (42 :: name)]

/-- `sort keys` -/
def sortKeys (hash : Hash) : Hash :=
  hash.mergeSort fun e e' => !e'.1.lex e.1 fun a b => decide (a < b)

/-- `dump_hash` -/
def dumpHash (name : Bytes) (entry : Hash) : List Statement :=
  (sortKeys entry).map fun elem =>
    dumper elem.2 (36 :: name ++ ascii "\x7b'" ++ elem.1 ++ ascii "'\x7d")

/-- `dump_entry` -/
def dumpEntry (name : Bytes) : Value → List Statement
  | .scalar s => [dumper (.string s) name, dumper (.scalar s) name]
  | .array entry => dumpArray name entry
  | entry => [dumper entry name]

/-- `dump_any`, with the methods of this class. -/
def dumpAny (name : Bytes) : Value → List Statement
  | .array entry => dumpArray name entry
  | .hash entry => dumpHash name entry
  | entry => dumpEntry name entry

/-- `dump_special` -/
def dumpSpecial (data : List Bytes) : List Statement :=
  if data = [] then [] else [dumper (.array (data.map .string)) (42 :: specialName)]

/-- `handler` of `Apache2::PerlSections`, with the packages that were saved, and without
anything for the server. -/
def handler (stashes : Bytes → Stash) (seen : List (Bytes × Bytes)) (saved : List Bytes) :
    List (Bytes × Bytes) × Option (List Statement) :=
  let (seen, symbols) := symdump stashes seen (saved ++ [specialPackage])
  (seen, (saved.mapM fun package => specialConfig (stashes package)).map fun configs =>
    (symbols.filter fun e => ¬specialName <:+: e.1).flatMap (fun e => dumpAny e.1 e.2) ++
      configs.flatMap dumpSpecial)

end PerlSections.Dump

open PerlSections

/-- A `<Perl>` section: where it is in the files, and the variables that its code assigns. -/
structure PerlSection where
  pkgBase : Bytes
  pkgNamespace : Bytes
  lineNum : ℕ
  vars : Stash

def PerlSection.package (s : PerlSection) : Bytes :=
  sectionPackage s.pkgBase s.pkgNamespace s.lineNum

/-- The variables of all packages, `%directives_seen_hack` and `@saved`. -/
structure SectionsState where
  stashes : Bytes → Stash
  seen : List (Bytes × Bytes)
  saved : List Bytes

namespace SectionsState

variable (order : Stash → Stash)

/-- Before the sections that are saved. -/
def start (seen : List (Bytes × Bytes)) : SectionsState := ⟨fun _ => [], seen, []⟩

/-- A section with `$Apache2::PerlSections::Save`: its code, and `handler`.  In which order
`each` finds the variables of a package is left open. -/
def process (st : SectionsState) (s : PerlSection) : SectionsState :=
  let stashes := fun pack => if pack = s.package then st.stashes pack ++ s.vars else st.stashes pack
  { stashes
    seen := (handler (fun pack => order (stashes pack)) st.seen s.package).1
    saved := st.saved ++ [s.package] }

def run (seen : List (Bytes × Bytes)) (sections : List PerlSection) : SectionsState :=
  sections.foldl (process order) (start seen)

/-- `Apache2::PerlSections->dump` -/
def dump (st : SectionsState) : Option (List Statement) :=
  (Dump.handler (fun pack => order (st.stashes pack)) st.seen st.saved).2

end SectionsState

/-! ## What the text means -/

/-- A scalar, an array, or an element of a hash. -/
inductive Target
  | scalar (name : Bytes)
  | array (name : Bytes)
  | element (name key : Bytes)
  deriving DecidableEq

def identByte (c : UInt8) : Bool :=
  48 ≤ c && c ≤ 57 || 65 ≤ c && c ≤ 90 || 97 ≤ c && c ≤ 122 || c = 95

/-- The name of a variable of Perl. -/
def isIdent (name : Bytes) : Bool :=
  name.all identByte && name.head?.any fun c => !(48 ≤ c && c ≤ 57)

/-- A string between single quotes, from behind the first, and the brace after it: a
backslash stands for itself, but before another or a quote. -/
def singleQuoted : Bytes → Option Bytes
  | [] => none
  | 39 :: rest => if rest = ascii "\x7d" then some [] else none
  | 92 :: 92 :: rest => (singleQuoted rest).map (92 :: ·)
  | 92 :: 39 :: rest => (singleQuoted rest).map (39 :: ·)
  | c :: rest => (singleQuoted rest).map (c :: ·)

/-- What is assigned.  The key of an element is a string between single quotes. -/
def readTarget : Bytes → Option Target
  | 64 :: name => if isIdent name then some (.array name) else none
  | 36 :: text =>
      let name := text.takeWhile identByte
      let rest := text.dropWhile identByte
      if isIdent name = false then none
      else if rest = [] then some (.scalar name)
      else if rest.take 2 = ascii "\x7b'" then (singleQuoted (rest.drop 2)).map (.element name)
      else none
  | _ => none

/-- The assignments of a text, in their order. -/
def assignments (text : List Statement) : List (Target × Value) :=
  text.filterMap fun st => (readTarget st.lhs).map fun target => (target, st.value)

/-- The values that are assigned there. -/
def assigned (target : Target) (text : List Statement) : List Value :=
  (assignments text).filterMap fun a => if a.1 = target then some a.2 else none

/-- The elements that are assigned to a hash. -/
def elements (name : Bytes) (text : List Statement) : Hash :=
  (assignments text).filterMap fun a =>
    match a.1 with
    | .element name' key => if name' = name then some (key, a.2) else none
    | _ => none

/-- The text defines these variables once, with these values.  A hash is defined by its
elements. -/
structure DefinedOnce (text : List Statement) (e : Bytes × Glob) : Prop where
  scalar : ∀ value, e.2.scalar = some value → assigned (.scalar e.1) text = [value]
  array : ∀ xs, e.2.array = some xs → assigned (.array e.1) text = [.array xs]
  hash : ∀ hash, e.2.hash = some hash → hash ≠ [] ∧ (elements e.1 text).Perm hash

/-- The dump is a text that can be read, and it defines each variable of the sections once. -/
def ReadsBack (order : Stash → Stash) (seen : List (Bytes × Bytes)) (sections : List PerlSection) :
    Prop :=
  ∃ text, (SectionsState.run order seen sections).dump order = some text ∧
    (∀ st ∈ text, (readTarget st.lhs).isSome) ∧
      ∀ s ∈ sections, ∀ e ∈ s.vars, DefinedOnce text e

/-- A key that is the same between quotes: no quote, no backslash before another, and none
at the end. -/
def Literal (key : Bytes) : Prop := 39 ∉ key ∧ ¬[92, 92] <:+: key ∧ key.getLast? ≠ some 92

/-- The variables of a name that the text can hold: a scalar that is a string, a hash with
keys, all of them literal, if the name does not contain that of `@PerlConfig`, and no array but
this one, of lines. -/
structure Dumpable (e : Bytes × Glob) : Prop where
  scalar : ∀ value, e.2.scalar = some value →
    (∃ s, value = .string s) ∧ ¬specialName <:+: e.1
  array : ∀ xs, e.2.array = some xs → e.1 = specialName ∧ xs ≠ [] ∧
    ∃ lines : List Bytes, xs = lines.map .string ∧ ∀ line ∈ lines, line ≠ [] ∧ 10 ∉ line
  hash : ∀ hash, e.2.hash = some hash → hash ≠ [] ∧ ¬specialName <:+: e.1 ∧
    ∀ key ∈ hash.map Prod.fst, Literal key

/-- No variable has this name. -/
def Glob.IsEmpty (glob : Glob) : Prop := glob.scalar = none ∧ glob.array = none ∧ glob.hash = none

/-! ## Keys -/

theorem literal_cons_iff {c : UInt8} {key : Bytes} : Literal (c :: key) ↔
    c ≠ 39 ∧ (c = 92 → key ≠ [] ∧ key.head? ≠ some 92) ∧ Literal key := by
  have hback : [92, 92] <:+: c :: key ↔ (c = 92 ∧ key.head? = some 92) ∨ [92, 92] <:+: key := by
    rw [List.infix_cons_iff, List.cons_prefix_cons]
    cases key with
    | nil => simp
    | cons d key => simp [eq_comm]
  have hlast : (c :: key).getLast? = some 92 ↔ (key = [] ∧ c = 92) ∨ key.getLast? = some 92 := by
    cases key with
    | nil => simp
    | cons d key => simp [List.getLast?_cons_cons]
  unfold Literal
  rw [List.mem_cons, hback, Ne, hlast, eq_comm]
  simp only [not_or, not_and]
  constructor
  · rintro ⟨⟨hquote, hkey⟩, ⟨hhead, hinfix⟩, hnil, hend⟩
    exact ⟨hquote, fun hc => ⟨fun heq => hnil heq hc, hhead hc⟩, hkey, hinfix, hend⟩
  · rintro ⟨hquote, hc, hkey, hinfix, hend⟩
    exact ⟨⟨hquote, hkey⟩, ⟨fun heq => (hc heq).2, hinfix⟩, fun hnil heq => (hc heq).1 hnil, hend⟩

theorem singleQuoted_cons {c : UInt8} {rest : Bytes} (hc : c ≠ 39)
    (hback : c = 92 → rest.head? ≠ some 92 ∧ rest.head? ≠ some 39) :
    singleQuoted (c :: rest) = (singleQuoted rest).map (c :: ·) := by
  rw [singleQuoted]
  · exact hc
  · rintro rest' rfl rfl
    exact (hback rfl).1 rfl
  · rintro rest' rfl rfl
    exact (hback rfl).2 rfl

theorem singleQuoted_literal {key : Bytes} (h : Literal key) :
    singleQuoted (key ++ ascii "'\x7d") = some key := by
  induction key with
  | nil => rfl
  | cons c key ih =>
      obtain ⟨hquote, hback, hkey⟩ := literal_cons_iff.mp h
      rw [List.cons_append, singleQuoted_cons hquote, ih hkey]
      · rfl
      · intro hc
        obtain ⟨hne, hhead⟩ := hback hc
        obtain ⟨d, key, rfl⟩ := List.exists_cons_of_ne_nil hne
        exact ⟨hhead, fun heq => (literal_cons_iff.mp hkey).1 (Option.some.inj heq)⟩

/-- What is read is not longer than the key, and shorter if it is another. -/
theorem length_singleQuoted_le {key key' : Bytes}
    (h : singleQuoted (key ++ ascii "'\x7d") = some key') :
    key'.length ≤ key.length ∧ (key'.length = key.length → Literal key) := by
  induction hlength : key.length using Nat.strongRecOn generalizing key key' with
  | _ n ih =>
    subst hlength
    -- two bytes are read as one
    have hescape : ∀ {c d : UInt8} {rest : Bytes}, key = c :: d :: rest →
        singleQuoted (key ++ ascii "'\x7d") = (singleQuoted (rest ++ ascii "'\x7d")).map (d :: ·) →
        key'.length ≤ key.length ∧ (key'.length = key.length → Literal key) := by
      rintro c d rest rfl hread
      obtain ⟨rest', hrest, rfl⟩ := Option.map_eq_some_iff.mp (hread.symm.trans h)
      have hle := (ih rest.length (by simp only [List.length_cons]; omega) hrest rfl).1
      simp only [List.length_cons]
      exact ⟨by omega, fun heq => by omega⟩
    have hplain : ∀ {c : UInt8} {rest : Bytes}, key = c :: rest → c ≠ 39 →
        (c = 92 → rest ≠ [] ∧ rest.head? ≠ some 92 ∧ rest.head? ≠ some 39) →
        key'.length ≤ key.length ∧ (key'.length = key.length → Literal key) := by
      rintro c rest rfl hc hback
      rw [List.cons_append, singleQuoted_cons hc] at h
      · obtain ⟨rest', hrest, rfl⟩ := Option.map_eq_some_iff.mp h
        obtain ⟨hle, hliteral⟩ := ih rest.length (Nat.lt_succ_self _) hrest rfl
        simp only [List.length_cons]
        refine ⟨by omega, fun heq => literal_cons_iff.mpr ⟨hc, fun h92 => ?_, hliteral (by omega)⟩⟩
        exact ⟨(hback h92).1, (hback h92).2.1⟩
      · intro h92
        obtain ⟨hne, hhead⟩ := hback h92
        obtain ⟨d, rest, rfl⟩ := List.exists_cons_of_ne_nil hne
        exact hhead
    cases key with
    | nil =>
        cases h
        exact ⟨Nat.le_refl _, fun _ => ⟨List.not_mem_nil, by simp, by simp⟩⟩
    | cons c key =>
        by_cases hquote : c = 39
        · subst hquote
          simp only [List.cons_append, singleQuoted, Option.ite_none_right_eq_some] at h
          have hlength := congrArg List.length h.1
          simp [ascii] at hlength
        by_cases hback : c = 92
        · subst hback
          cases key with
          | nil => cases h
          | cons d key =>
              by_cases hd : d = 92 ∨ d = 39
              · refine hescape rfl ?_
                rcases hd with rfl | rfl <;> rfl
              · rw [not_or] at hd
                exact hplain rfl hquote fun _ => ⟨List.cons_ne_nil _ _,
                  fun heq => hd.1 (Option.some.inj heq), fun heq => hd.2 (Option.some.inj heq)⟩
        · exact hplain rfl hquote fun heq => absurd heq hback

/-! ## Names -/

section Names

variable {name key : Bytes}

theorem identBytes_of_isIdent (h : isIdent name = true) : ∀ c ∈ name, identByte c = true :=
  List.all_eq_true.mp (Bool.and_eq_true_iff.mp h).1

theorem takeWhile_ident (h : isIdent name = true) (rest : Bytes)
    (hrest : rest.takeWhile identByte = []) :
    (name ++ rest).takeWhile identByte = name ∧ (name ++ rest).dropWhile identByte = rest := by
  have hname := identBytes_of_isIdent h
  rw [List.takeWhile_append_of_pos hname, List.dropWhile_append_of_pos hname, hrest,
    List.append_nil]
  have hsplit := List.takeWhile_append_dropWhile (p := identByte) (l := rest)
  rw [hrest, List.nil_append] at hsplit
  exact ⟨rfl, hsplit⟩

theorem readTarget_scalar (h : isIdent name = true) :
    readTarget (36 :: name) = some (.scalar name) := by
  obtain ⟨htake, hdrop⟩ := takeWhile_ident h [] rfl
  rw [List.append_nil] at htake hdrop
  simp [readTarget, htake, hdrop, h]

theorem readTarget_array (h : isIdent name = true) :
    readTarget (64 :: name) = some (.array name) := if_pos h

theorem readTarget_element (h : isIdent name = true) :
    readTarget (36 :: name ++ ascii "\x7b'" ++ key ++ ascii "'\x7d") =
      (singleQuoted (key ++ ascii "'\x7d")).map (.element name) := by
  obtain ⟨htake, hdrop⟩ := takeWhile_ident h (ascii "\x7b'" ++ (key ++ ascii "'\x7d")) rfl
  rw [List.append_assoc, List.append_assoc, List.cons_append, readTarget]
  simp only [htake, hdrop, h]
  rfl

theorem dumper_of_ident (h : isIdent name = true) (value : Value) :
    dumper value name = ⟨36 :: name, value⟩ := by
  have hbytes := identBytes_of_isIdent h
  have hstar : (42 : UInt8) ∉ name := fun hmem => absurd (hbytes 42 hmem) (by decide)
  have hdollar : (36 : UInt8) ∉ name := fun hmem => absurd (hbytes 36 hmem) (by decide)
  rw [dumper]
  · rintro rest rfl
    exact hstar List.mem_cons_self
  · rintro rest rfl
    exact hdollar List.mem_cons_self

end Names

/-! ## The walk through the symbols -/

namespace PerlSections

/-- The symbols of a name, without the array. -/
def entries (e : Bytes × Glob) : Hash :=
  (e.2.scalar.map fun value => (e.1, value)).toList ++
    (e.2.hash.map fun hash => (e.1, Value.hash hash)).toList

variable {stashes : Bytes → Stash} {seen : List (Bytes × Bytes)} {pack : Bytes} {stash : Stash}

theorem mem_symdumpLoop_seen {x : Bytes × Bytes} : x ∈ (symdumpLoop pack seen stash).1 ↔
    x ∈ seen ∨ ∃ e ∈ stash, e.2.array.isSome ∧ x = (e.1, pack) := by
  induction stash generalizing seen with
  | nil => simp [symdumpLoop]
  | cons e stash ih =>
      rw [symdumpLoop]
      dsimp only
      rw [ih]
      by_cases hseen : (e.1, pack) ∈ seen
      · simp only [hseen, if_true, Option.isSome_none, Bool.false_eq_true, if_false,
          List.exists_mem_cons_iff]
        constructor
        · rintro (h | h)
          · exact .inl h
          · exact .inr (.inr h)
        · rintro (h | ⟨-, rfl⟩ | h)
          · exact .inl h
          · exact .inl hseen
          · exact .inr h
      · cases harray : e.2.array with
        | none => simp [hseen, harray]
        | some xs =>
            simp only [hseen, if_false, Option.isSome_some, if_true, List.exists_mem_cons_iff,
              harray]
            rw [List.mem_cons]
            tauto

theorem mem_symdump_seen {x : Bytes × Bytes} {packs : List Bytes} :
    x ∈ (symdump stashes seen packs).1 ↔
      x ∈ seen ∨ ∃ pack ∈ packs, ∃ e ∈ stashes pack, e.2.array.isSome ∧ x = (e.1, pack) := by
  induction packs generalizing seen with
  | nil => simp [symdump]
  | cons pack packs ih =>
      rw [symdump]
      dsimp only
      rw [ih, mem_symdumpLoop_seen, List.exists_mem_cons_iff, or_assoc]

/-- What was seen is not found again. -/
theorem symdumpLoop_of_seen (h : ∀ e ∈ stash, e.2.array.isSome → (e.1, pack) ∈ seen) :
    symdumpLoop pack seen stash = (seen, stash.flatMap entries) := by
  induction stash with
  | nil => rfl
  | cons e stash ih =>
      have hrest := ih fun e he => h e (List.mem_cons_of_mem _ he)
      have hnone : (if (e.1, pack) ∈ seen then none else e.2.array) = none := by
        cases harray : e.2.array with
        | none => exact ite_self none
        | some xs => exact if_pos (h e List.mem_cons_self (by rw [harray]; rfl))
      rw [symdumpLoop]
      dsimp only
      rw [hnone]
      simp [hrest, entries]

theorem symdump_of_seen {packs : List Bytes}
    (h : ∀ pack ∈ packs, ∀ e ∈ stashes pack, e.2.array.isSome → (e.1, pack) ∈ seen) :
    symdump stashes seen packs =
      (seen, packs.flatMap fun pack => (stashes pack).flatMap entries) := by
  induction packs with
  | nil => rfl
  | cons pack packs ih =>
      rw [symdump, symdumpLoop_of_seen (h pack List.mem_cons_self)]
      dsimp only
      rw [ih fun pack hpack => h pack (List.mem_cons_of_mem _ hpack)]
      rfl

end PerlSections

/-! ## A run -/

/-- The variables that sections gave to a package. -/
def stashOf (sections : List PerlSection) (pack : Bytes) : Stash :=
  (sections.filter fun s => s.package = pack).flatMap PerlSection.vars

/-- After these sections, each array of theirs has been seen. -/
structure Processed (sections : List PerlSection) (st : SectionsState) : Prop where
  saved : st.saved = sections.map PerlSection.package
  stashes : st.stashes = stashOf sections
  arrays : ∀ pack, ∀ e ∈ st.stashes pack, e.2.array.isSome → (e.1, pack) ∈ st.seen

namespace Processed

variable {order : Stash → Stash} {sections : List PerlSection} {st : SectionsState}

theorem start (seen : List (Bytes × Bytes)) : Processed [] (.start seen) :=
  ⟨rfl, rfl, fun _ _ he => nomatch he⟩

theorem process (horder : ∀ stash, (order stash).Perm stash) (h : Processed sections st)
    (s : PerlSection) : Processed (sections ++ [s]) (st.process order s) := by
  refine ⟨?_, funext fun pack => ?_, fun pack e he harray => ?_⟩
  · rw [List.map_append, ← h.saved]
    rfl
  · simp only [SectionsState.process, h.stashes, stashOf, List.filter_append, List.flatMap_append]
    by_cases hpack : pack = s.package
    · simp [hpack]
    · simp [hpack, Ne.symm hpack]
  · simp only [SectionsState.process] at he ⊢
    rw [handler, mem_symdump_seen]
    by_cases hpack : pack = s.package
    · refine .inr ⟨pack, hpack ▸ List.mem_cons_self, e, ?_, harray, rfl⟩
      exact (horder _).mem_iff.mpr he
    · rw [if_neg hpack] at he
      exact .inl (h.arrays pack e he harray)

theorem run (horder : ∀ stash, (order stash).Perm stash) (seen : List (Bytes × Bytes))
    (sections : List PerlSection) : Processed sections (SectionsState.run order seen sections) := by
  have hfold : ∀ rest done st, Processed done st →
      Processed (done ++ rest) (rest.foldl (SectionsState.process order) st) := by
    intro rest
    induction rest with
    | nil => exact fun done st h => (List.append_nil done).symm ▸ h
    | cons s rest ih =>
        intro done st h
        rw [List.append_cons]
        exact ih _ _ (h.process horder s)
  exact hfold sections [] _ (start seen)

end Processed

/-! ## The text -/

/-- The lines in `@PerlConfig` and `$PerlConfig`. -/
def specialOf (glob : Glob) : Option (List Bytes) :=
  ((glob.array.getD [] ++ glob.scalar.toList).mapM Value.text).map (·.flatMap splitLines)

/-- What the symbols of a name add to the text. -/
def plainStatements (e : Bytes × Glob) : List Statement :=
  if specialName <:+: e.1 then [] else (entries e).flatMap fun x => Dump.dumpAny x.1 x.2

def specialStatements (e : Bytes × Glob) : List Statement :=
  if e.1 = specialName then Dump.dumpSpecial ((specialOf e.2).getD []) else []

/-- What the variables of a name add to the text. -/
def varStatements (e : Bytes × Glob) : List Statement := plainStatements e ++ specialStatements e

section Text

variable {order : Stash → Stash} {sections : List PerlSection} {st : SectionsState}
  {e : Bytes × Glob} {stash : Stash} {text : List Statement}

theorem specialConfig_cons (e : Bytes × Glob) (stash : Stash) : specialConfig (e :: stash) =
    if e.1 = specialName then specialOf e.2 else specialConfig stash := by
  by_cases heq : e.1 = specialName <;> simp [specialConfig, specialOf, heq]

theorem specialConfig_isSome_iff (h : (stash.map Prod.fst).Nodup) : (specialConfig stash).isSome ↔
    ∀ e ∈ stash, e.1 = specialName → (specialOf e.2).isSome := by
  induction stash with
  | nil => simp [specialConfig]
  | cons e stash ih =>
      obtain ⟨hkey, hnodup⟩ := List.nodup_cons.mp h
      rw [specialConfig_cons, List.forall_mem_cons]
      split_ifs with heq
      · refine ⟨fun hsome => ⟨fun _ => hsome, fun e' he' heq' => ?_⟩, fun hall => hall.1 heq⟩
        exact absurd (List.mem_map.mpr ⟨e', he', heq'.trans heq.symm⟩) hkey
      · rw [ih hnodup]
        exact (and_iff_right fun heq' => absurd heq' heq).symm

theorem dumpSpecial_specialConfig (h : (stash.map Prod.fst).Nodup) :
    Dump.dumpSpecial ((specialConfig stash).getD []) = stash.flatMap specialStatements := by
  induction stash with
  | nil => rfl
  | cons e stash ih =>
      obtain ⟨hkey, hnodup⟩ := List.nodup_cons.mp h
      rw [specialConfig_cons, List.flatMap_cons, specialStatements]
      split_ifs with heq
      · have hrest : stash.flatMap specialStatements = [] := by
          rw [List.flatMap_eq_nil_iff]
          intro e' he'
          exact if_neg fun heq' => hkey (List.mem_map.mpr ⟨e', he', heq'.trans heq.symm⟩)
        rw [hrest, List.append_nil]
      · exact ih hnodup

theorem entries_filter (e : Bytes × Glob) :
    ((entries e).filter fun x => ¬specialName <:+: x.1).flatMap (fun x => Dump.dumpAny x.1 x.2) =
      plainStatements e := by
  have hnames : ∀ x ∈ entries e, x.1 = e.1 := by
    intro x hx
    rw [entries, List.mem_append] at hx
    simp only [Option.mem_toList, Option.map_eq_some_iff] at hx
    obtain ⟨_, -, rfl⟩ | ⟨_, -, rfl⟩ := hx <;> rfl
  rw [plainStatements]
  split_ifs with hspecial
  · rw [List.filter_eq_nil_iff.mpr, List.flatMap_nil]
    intro x hx
    simpa [hnames x hx] using hspecial
  · rw [List.filter_eq_self.mpr]
    intro x hx
    simpa [hnames x hx] using hspecial

theorem mapM_isSome_iff {α β : Type} {f : α → Option β} {l : List α} :
    (l.mapM f).isSome ↔ ∀ x ∈ l, (f x).isSome := by
  induction l with
  | nil => simp
  | cons x l ih =>
      rw [List.forall_mem_cons, ← ih, List.mapM_cons]
      cases f x <;> cases l.mapM f <;> simp

theorem flatMap_of_mapM {α β γ : Type} {f : α → Option (List β)} {l : List α}
    {ys : List (List β)} (g : List β → List γ) (h : l.mapM f = some ys) :
    ys.flatMap g = l.flatMap fun x => g ((f x).getD []) := by
  induction l generalizing ys with
  | nil =>
      cases h
      rfl
  | cons x l ih =>
      rw [List.mapM_cons] at h
      cases hx : f x with
      | none => simp [hx] at h
      | some y =>
          cases hl : l.mapM f with
          | none => simp [hx, hl] at h
          | some ys' =>
              simp only [hx, hl] at h
              cases h
              rw [List.flatMap_cons, List.flatMap_cons, ih hl, hx]
              rfl

theorem stashOf_specialPackage (sections : List PerlSection) :
    stashOf sections specialPackage = [] := by
  rw [stashOf, List.filter_eq_nil_iff.mpr, List.flatMap_nil]
  intro s _
  have hne := sectionPackage_ne_specialPackage s.pkgBase s.pkgNamespace s.lineNum
  exact fun heq => hne (of_decide_eq_true heq)

theorem dump_eq (horder : ∀ stash, (order stash).Perm stash) (h : Processed sections st) :
    st.dump order = ((sections.map PerlSection.package).mapM fun pack =>
        specialConfig (order (stashOf sections pack))).map fun configs =>
      ((sections.map PerlSection.package).flatMap fun pack =>
        (order (stashOf sections pack)).flatMap plainStatements) ++
          configs.flatMap Dump.dumpSpecial := by
  have hseen : ∀ pack ∈ sections.map PerlSection.package ++ [specialPackage],
      ∀ e ∈ order (st.stashes pack), e.2.array.isSome → (e.1, pack) ∈ st.seen :=
    fun pack _ e he => h.arrays pack e ((horder _).mem_iff.mp he)
  have hnil : order [] = [] := (horder []).eq_nil
  rw [SectionsState.dump, Dump.handler, h.saved, symdump_of_seen hseen, h.stashes]
  simp only [List.flatMap_append, List.flatMap_singleton, stashOf_specialPackage, hnil,
    List.flatMap_nil, List.append_nil, List.filter_flatMap, List.flatMap_assoc, entries_filter]

/-- The text is that of all variables, for each section those of its package. -/
theorem dump_perm (horder : ∀ stash, (order stash).Perm stash) (h : Processed sections st)
    (hnodup : ∀ pack, ((stashOf sections pack).map Prod.fst).Nodup)
    (hdump : st.dump order = some text) :
    text.Perm ((sections.map PerlSection.package).flatMap fun pack =>
      (stashOf sections pack).flatMap varStatements) := by
  rw [dump_eq horder h, Option.map_eq_some_iff] at hdump
  obtain ⟨configs, hconfigs, rfl⟩ := hdump
  have hnodup' : ∀ pack, ((order (stashOf sections pack)).map Prod.fst).Nodup := fun pack =>
    ((horder _).map Prod.fst).nodup_iff.mpr (hnodup pack)
  rw [flatMap_of_mapM Dump.dumpSpecial hconfigs]
  simp only [dumpSpecial_specialConfig (hnodup' _)]
  refine (List.flatMap_append_perm _ _ _).trans (List.Perm.flatMap_left _ fun pack _ => ?_)
  refine (List.flatMap_append_perm _ _ _).trans ?_
  exact (horder _).flatMap_right _

theorem dump_isSome_iff (horder : ∀ stash, (order stash).Perm stash) (h : Processed sections st)
    (hnodup : ∀ pack, ((stashOf sections pack).map Prod.fst).Nodup) :
    (st.dump order).isSome ↔
      ∀ s ∈ sections, ∀ e ∈ s.vars, e.1 = specialName → (specialOf e.2).isSome := by
  have hnodup' : ∀ pack, ((order (stashOf sections pack)).map Prod.fst).Nodup := fun pack =>
    ((horder _).map Prod.fst).nodup_iff.mpr (hnodup pack)
  rw [dump_eq horder h, Option.isSome_map, mapM_isSome_iff]
  simp only [specialConfig_isSome_iff (hnodup' _), (horder _).mem_iff, List.forall_mem_map]
  constructor
  · intro hall s hs e he
    refine hall s hs e (List.mem_flatMap.mpr ⟨s, List.mem_filter.mpr ⟨hs, ?_⟩, he⟩)
    exact decide_eq_true rfl
  · intro hall s _ e he
    obtain ⟨s', hs', he⟩ := List.mem_flatMap.mp he
    exact hall s' (List.mem_filter.mp hs').1 e he

end Text

/-! ## What is assigned -/

def Target.name : Target → Bytes
  | scalar name => name
  | array name => name
  | element name _ => name

section Assigned

variable {name : Bytes} {text text' : List Statement} {target : Target} {e : Bytes × Glob}

theorem isIdent_specialName : isIdent specialName = true := by decide

@[simp] theorem assignments_append (text text' : List Statement) :
    assignments (text ++ text') = assignments text ++ assignments text' := List.filterMap_append

@[simp] theorem assigned_append (target : Target) (text text' : List Statement) :
    assigned target (text ++ text') = assigned target text ++ assigned target text' := by
  rw [assigned, assignments_append, List.filterMap_append]
  rfl

@[simp] theorem elements_append (name : Bytes) (text text' : List Statement) :
    elements name (text ++ text') = elements name text ++ elements name text' := by
  rw [elements, assignments_append, List.filterMap_append]
  rfl

theorem assigned_flatMap {α : Type} (target : Target) (l : List α) (f : α → List Statement) :
    assigned target (l.flatMap f) = l.flatMap fun x => assigned target (f x) := by
  induction l with
  | nil => rfl
  | cons x l ih => rw [List.flatMap_cons, assigned_append, ih, List.flatMap_cons]

theorem elements_flatMap {α : Type} (name : Bytes) (l : List α) (f : α → List Statement) :
    elements name (l.flatMap f) = l.flatMap fun x => elements name (f x) := by
  induction l with
  | nil => rfl
  | cons x l ih => rw [List.flatMap_cons, elements_append, ih, List.flatMap_cons]

theorem assigned_perm (target : Target) (h : text.Perm text') :
    (assigned target text).Perm (assigned target text') := (h.filterMap _).filterMap _

theorem elements_perm (name : Bytes) (h : text.Perm text') :
    (elements name text).Perm (elements name text') := (h.filterMap _).filterMap _

theorem assignments_dumpArray (h : isIdent name = true) (xs : List Value) :
    assignments (Dump.dumpArray name xs) = [(.array name, .array xs)] := by
  simp [assignments, Dump.dumpArray, dumper, readTarget_array h]

theorem assignments_dumper (h : isIdent name = true) (value : Value) :
    assignments [dumper value name] = [(.scalar name, value)] := by
  simp [assignments, dumper_of_ident h, readTarget_scalar h]

theorem lhs_dumpHash (name : Bytes) (elem : Bytes × Value) :
    dumper elem.2 (36 :: name ++ ascii "\x7b'" ++ elem.1 ++ ascii "'\x7d") =
      ⟨36 :: name ++ ascii "\x7b'" ++ elem.1 ++ ascii "'\x7d", elem.2⟩ := rfl

theorem assignments_dumpHash (h : isIdent name = true) (hash : Hash) :
    assignments (Dump.dumpHash name hash) = (Dump.sortKeys hash).filterMap fun elem =>
      (singleQuoted (elem.1 ++ ascii "'\x7d")).map fun key => (.element name key, elem.2) := by
  rw [assignments, Dump.dumpHash, List.filterMap_map]
  refine List.filterMap_congr fun elem _ => ?_
  rw [Function.comp, lhs_dumpHash, readTarget_element h, Option.map_map]
  rfl

theorem sortKeys_perm (hash : Hash) : (Dump.sortKeys hash).Perm hash := List.mergeSort_perm _ _

theorem elements_dumpHash (h : isIdent name = true) (hash : Hash) :
    elements name (Dump.dumpHash name hash) = (Dump.sortKeys hash).filterMap fun elem =>
      (singleQuoted (elem.1 ++ ascii "'\x7d")).map fun key => (key, elem.2) := by
  rw [elements, assignments_dumpHash h, List.filterMap_filterMap]
  refine List.filterMap_congr fun elem _ => ?_
  cases singleQuoted (elem.1 ++ ascii "'\x7d") <;> simp

theorem assigned_dumpHash (h : isIdent name = true) (hash : Hash)
    (htarget : ∀ key, target ≠ .element name key) :
    assigned target (Dump.dumpHash name hash) = [] := by
  rw [assigned, assignments_dumpHash h, List.filterMap_filterMap, List.filterMap_eq_nil_iff]
  intro elem _
  cases singleQuoted (elem.1 ++ ascii "'\x7d") with
  | none => rfl
  | some key => simp [(htarget key).symm]

/-- The elements are those of the hash if and only if all keys are literal. -/
theorem elements_dumpHash_perm_iff (h : isIdent name = true) (hash : Hash) :
    ((∀ st ∈ Dump.dumpHash name hash, (readTarget st.lhs).isSome) ∧
        (elements name (Dump.dumpHash name hash)).Perm hash) ↔
      ∀ key ∈ hash.map Prod.fst, Literal key := by
  rw [elements_dumpHash h]
  constructor
  · rintro ⟨hread, hperm⟩
    have hsome : ∀ elem ∈ Dump.sortKeys hash,
        ∃ key, singleQuoted (elem.1 ++ ascii "'\x7d") = some key := by
      intro elem helem
      have hisSome := hread _ (List.mem_map_of_mem helem)
      rw [lhs_dumpHash, readTarget_element h, Option.isSome_map] at hisSome
      exact Option.isSome_iff_exists.mp hisSome
    -- a key that is read as another is read as a shorter one
    have hlength := ((hperm.trans (sortKeys_perm hash).symm).map fun elem => elem.1.length).sum_nat
    have hall : ∀ l : Hash, (∀ elem ∈ l, ∃ key, singleQuoted (elem.1 ++ ascii "'\x7d") = some key) →
        ((l.filterMap fun elem => (singleQuoted (elem.1 ++ ascii "'\x7d")).map fun key =>
            (key, elem.2)).map fun elem => elem.1.length).sum ≤
          (l.map fun elem => elem.1.length).sum ∧
        (((l.filterMap fun elem => (singleQuoted (elem.1 ++ ascii "'\x7d")).map fun key =>
            (key, elem.2)).map fun elem => elem.1.length).sum =
          (l.map fun elem => elem.1.length).sum → ∀ elem ∈ l, Literal elem.1) := by
      intro l hl
      induction l with
      | nil => exact ⟨Nat.le_refl _, fun _ _ he => nomatch he⟩
      | cons elem l ih =>
          obtain ⟨hfirst, hrest⟩ := List.forall_mem_cons.mp hl
          obtain ⟨key, hkey⟩ := hfirst
          obtain ⟨hle, hliteral⟩ := ih hrest
          obtain ⟨hle', hliteral'⟩ := length_singleQuoted_le hkey
          rw [List.filterMap_cons_some (by rw [hkey]; rfl)]
          simp only [List.map_cons, List.sum_cons]
          refine ⟨by omega, fun heq => List.forall_mem_cons.mpr ⟨hliteral' (by omega), ?_⟩⟩
          exact hliteral (by omega)
    intro key hkey
    obtain ⟨elem, helem, rfl⟩ := List.mem_map.mp hkey
    exact (hall _ hsome).2 hlength elem ((sortKeys_perm hash).mem_iff.mpr helem)
  · intro hliteral
    have hquoted : ∀ elem ∈ Dump.sortKeys hash,
        singleQuoted (elem.1 ++ ascii "'\x7d") = some elem.1 :=
      fun elem helem => singleQuoted_literal
        (hliteral elem.1 (List.mem_map_of_mem ((sortKeys_perm hash).mem_iff.mp helem)))
    constructor
    · intro st hst
      obtain ⟨elem, helem, rfl⟩ := List.mem_map.mp hst
      rw [lhs_dumpHash, readTarget_element h, hquoted elem helem]
      rfl
    · have hself : (Dump.sortKeys hash).filterMap (fun elem =>
          (singleQuoted (elem.1 ++ ascii "'\x7d")).map fun key => (key, elem.2)) =
            Dump.sortKeys hash := by
        rw [List.filterMap_congr (g := some), List.filterMap_some]
        intro elem helem
        rw [hquoted elem helem]
        rfl
      rw [hself]
      exact sortKeys_perm hash

end Assigned

/-! ## The variables of one name -/

section Variable

variable {name : Bytes} {text text' : List Statement} {target : Target} {e : Bytes × Glob} {m : ℕ}

theorem name_of_mem_dumpAny (h : isIdent name = true) (value : Value) :
    ∀ a ∈ assignments (Dump.dumpAny name value), a.1.name = name := by
  intro a ha
  cases value with
  | string s =>
      rw [Dump.dumpAny, Dump.dumpEntry, assignments_dumper h, List.mem_singleton] at ha
      exact ha ▸ rfl
      all_goals simp
  | scalar s =>
      rw [Dump.dumpAny, Dump.dumpEntry, ← List.singleton_append, assignments_append,
        assignments_dumper h, assignments_dumper h, List.singleton_append, List.mem_pair] at ha
      · rcases ha with rfl | rfl <;> rfl
      all_goals simp
  | array xs =>
      rw [Dump.dumpAny, assignments_dumpArray h, List.mem_singleton] at ha
      exact ha ▸ rfl
  | hash hash =>
      rw [Dump.dumpAny, assignments_dumpHash h, List.mem_filterMap] at ha
      obtain ⟨elem, -, helem⟩ := ha
      obtain ⟨key, -, rfl⟩ := Option.map_eq_some_iff.mp helem
      rfl

theorem name_of_mem_assignments (h : isIdent e.1 = true) :
    ∀ a ∈ assignments (varStatements e), a.1.name = e.1 := by
  intro a ha
  rw [varStatements, assignments_append, List.mem_append, plainStatements, specialStatements] at ha
  rcases ha with ha | ha
  · split_ifs at ha
    · cases ha
    · rw [assignments, List.filterMap_flatMap, List.mem_flatMap] at ha
      obtain ⟨x, hx, ha⟩ := ha
      have hname : x.1 = e.1 := by
        rw [entries, List.mem_append] at hx
        simp only [Option.mem_toList, Option.map_eq_some_iff] at hx
        obtain ⟨_, -, rfl⟩ | ⟨_, -, rfl⟩ := hx <;> rfl
      rw [hname] at ha
      exact name_of_mem_dumpAny h x.2 a ha
  · split_ifs at ha with heq
    · rw [Dump.dumpSpecial] at ha
      split_ifs at ha
      · cases ha
      · have hdump := assignments_dumpArray isIdent_specialName
          (((specialOf e.2).getD []).map Value.string)
        rw [Dump.dumpArray] at hdump
        rw [hdump, List.mem_singleton] at ha
        rw [ha, heq]
        rfl
    · cases ha

theorem assigned_of_ne (h : ∀ a ∈ assignments text, a.1.name = name) (hne : target.name ≠ name) :
    assigned target text = [] := by
  rw [assigned, List.filterMap_eq_nil_iff]
  intro a ha
  exact if_neg fun (heq : a.1 = target) => hne (heq ▸ h a ha)

theorem elements_of_ne {name' : Bytes} (h : ∀ a ∈ assignments text, a.1.name = name)
    (hne : name' ≠ name) : elements name' text = [] := by
  rw [elements, List.filterMap_eq_nil_iff]
  rintro ⟨target, value⟩ ha
  have hname := h _ ha
  cases target with
  | scalar | array => rfl
  | element n key => exact if_neg fun heq => hne (heq.symm.trans hname)

theorem DefinedOnce.congr
    (hassigned : ∀ target : Target, target.name = e.1 →
      (assigned target text).Perm (assigned target text'))
    (helements : (elements e.1 text).Perm (elements e.1 text')) (h : DefinedOnce text e) :
    DefinedOnce text' e := by
  refine ⟨fun value hvalue => ?_, fun xs hxs => ?_, fun hash hhash => ?_⟩
  · have hperm := hassigned (.scalar e.1) rfl
    rw [h.scalar value hvalue] at hperm
    exact hperm.symm.eq_singleton
  · have hperm := hassigned (.array e.1) rfl
    rw [h.array xs hxs] at hperm
    exact hperm.symm.eq_singleton
  · obtain ⟨hne, hperm⟩ := h.hash hash hhash
    exact ⟨hne, helements.symm.trans hperm⟩

theorem flatMap_splitLines_eq_iff {lines : List Bytes} :
    lines.flatMap splitLines = lines ↔ ∀ line ∈ lines, line ≠ [] ∧ 10 ∉ line := by
  have hfilter : ∀ lines : List Bytes, (∀ line ∈ lines, 10 ∉ line) →
      lines.flatMap splitLines = lines.filter (· ≠ []) := by
    intro lines h
    induction lines with
    | nil => rfl
    | cons line lines ih =>
        obtain ⟨hline, hlines⟩ := List.forall_mem_cons.mp h
        rw [List.flatMap_cons, splitLines_eq hline, ih hlines]
        by_cases hempty : line = [] <;> simp [hempty]
  constructor
  · intro heq
    have hnewline : ∀ line ∈ lines, 10 ∉ line := by
      intro line hline
      rw [← heq, List.mem_flatMap] at hline
      obtain ⟨s, -, hline⟩ := hline
      rw [splitLines, List.mem_reverse] at hline
      have hpart := (List.dropWhile_suffix _).subset hline
      exact notMem_of_mem_splitOn (List.mem_reverse.mp hpart)
    rw [hfilter lines hnewline, List.filter_eq_self] at heq
    exact fun line hline => ⟨of_decide_eq_true (heq line hline), hnewline line hline⟩
  · intro h
    rw [hfilter lines fun line hline => (h line hline).2, List.filter_eq_self]
    exact fun line hline => decide_eq_true (h line hline).1

/-! ### What there is of them -/

theorem assigned_scalar_dumpAny (h : isIdent name = true) (value : Value) :
    assigned (.scalar name) (Dump.dumpAny name value) =
      match value with
      | .string s => [.string s]
      | .scalar s => [.string s, .scalar s]
      | _ => [] := by
  cases value with
  | string s => simp [Dump.dumpAny, Dump.dumpEntry, assigned, assignments_dumper h]
  | scalar s =>
      have happend : Dump.dumpAny name (.scalar s) =
          [dumper (.string s) name] ++ [dumper (.scalar s) name] := rfl
      rw [happend, assigned_append]
      simp [assigned, assignments_dumper h]
  | array xs => simp [Dump.dumpAny, assigned, assignments_dumpArray h]
  | hash hash => exact assigned_dumpHash h hash fun _ heq => nomatch heq

theorem assigned_array_dumpAny (h : isIdent name = true) {value : Value}
    (hvalue : (∃ s, value = .string s) ∨ ∃ hash, value = .hash hash) :
    assigned (.array name) (Dump.dumpAny name value) = [] := by
  obtain ⟨s, rfl⟩ | ⟨hash, rfl⟩ := hvalue
  · simp [Dump.dumpAny, Dump.dumpEntry, assigned, assignments_dumper h]
  · exact assigned_dumpHash h hash fun _ heq => nomatch heq

theorem elements_dumpAny_string (h : isIdent name = true) (s : Bytes) :
    elements name (Dump.dumpAny name (.string s)) = [] := by
  simp [Dump.dumpAny, Dump.dumpEntry, elements, assignments_dumper h]

/-- Of a name that is not passed over, the text has the scalar and the hash. -/
theorem varStatements_of_plain (h : ¬specialName <:+: e.1) : varStatements e =
    (e.2.scalar.toList.flatMap fun value => Dump.dumpAny e.1 value) ++
      e.2.hash.toList.flatMap fun hash => Dump.dumpHash e.1 hash := by
  have hname : e.1 ≠ specialName := fun heq => h (heq ▸ List.infix_refl _)
  rw [varStatements, plainStatements, specialStatements, if_neg h, if_neg hname, List.append_nil,
    entries, List.flatMap_append]
  cases e.2.scalar <;> cases e.2.hash <;> simp [Dump.dumpAny]

theorem varStatements_of_special (h : specialName <:+: e.1) (hname : e.1 ≠ specialName) :
    varStatements e = [] := by
  rw [varStatements, plainStatements, specialStatements, if_pos h, if_neg hname]
  rfl

theorem varStatements_specialName (h : e.1 = specialName) {lines : List Bytes}
    (hlines : specialOf e.2 = some lines) : varStatements e = Dump.dumpSpecial lines := by
  rw [varStatements, plainStatements, specialStatements, if_pos (h ▸ List.infix_refl _), if_pos h,
    hlines]
  rfl

theorem length_flatMap_replicate {α β : Type} (m : ℕ) (x : α) (f : α → List β) :
    ((List.replicate m x).flatMap f).length = m * (f x).length := by
  induction m with
  | zero => simp
  | succ m ih => rw [List.replicate_succ, List.flatMap_cons, List.length_append, ih, Nat.succ_mul,
      Nat.add_comm]

theorem Glob.IsEmpty.varStatements_eq (h : e.2.IsEmpty) : varStatements e = [] := by
  obtain ⟨hscalar, harray, hhash⟩ := h
  by_cases hspecial : specialName <:+: e.1
  · by_cases hname : e.1 = specialName
    · have hlines : specialOf e.2 = some [] := by simp [specialOf, hscalar, harray]
      exact varStatements_specialName hname hlines
    · exact varStatements_of_special hspecial hname
  · rw [varStatements_of_plain hspecial, hscalar, hhash]
    rfl

/-- The elements of a name that is not passed over are those of its hash. -/
theorem elements_varStatements (hident : isIdent e.1 = true) (hspecial : ¬specialName <:+: e.1)
    (hstring : ∀ value, e.2.scalar = some value → ∃ s, value = .string s) {hash : Hash}
    (hhash : e.2.hash = some hash) :
    elements e.1 (varStatements e) = elements e.1 (Dump.dumpHash e.1 hash) := by
  have hscalar : elements e.1 (e.2.scalar.toList.flatMap fun value =>
      Dump.dumpAny e.1 value) = [] := by
    rw [elements_flatMap, List.flatMap_eq_nil_iff]
    intro value hvalue
    obtain ⟨s, rfl⟩ := hstring value (Option.mem_toList.mp hvalue)
    exact elements_dumpAny_string hident s
  rw [varStatements_of_plain hspecial, elements_append, hscalar, hhash, List.nil_append,
    Option.toList_some, List.flatMap_singleton]

/-- An array without a scalar is dumped line by line. -/
theorem specialOf_eq_iff {glob : Glob} {lines : List Bytes} (hscalar : glob.scalar = none)
    (harray : glob.array = some (lines.map .string)) :
    specialOf glob = some lines ↔ ∀ line ∈ lines, line ≠ [] ∧ 10 ∉ line := by
  have heq : specialOf glob = some (lines.flatMap splitLines) := by
    rw [specialOf, hscalar, harray, Option.getD_some, Option.toList_none, List.append_nil,
      mapM_text]
    rfl
  rw [heq, Option.some.injEq, flatMap_splitLines_eq_iff]

/-- The lines of `PerlConfig` are in the text. -/
theorem Dumpable.definedOnce_special (h : Dumpable e) (hspecial : specialName <:+: e.1) :
    (e.1 = specialName → (specialOf e.2).isSome) ∧
      (∀ st ∈ varStatements e, (readTarget st.lhs).isSome) ∧ DefinedOnce (varStatements e) e := by
  have hscalar : e.2.scalar = none :=
    Option.eq_none_iff_forall_ne_some.mpr fun value hvalue => (h.scalar value hvalue).2 hspecial
  have hhash : e.2.hash = none :=
    Option.eq_none_iff_forall_ne_some.mpr fun hash hhash => (h.hash hash hhash).2.1 hspecial
  cases harray : e.2.array with
  | none =>
      have hempty : e.2.IsEmpty := ⟨hscalar, harray, hhash⟩
      rw [hempty.varStatements_eq]
      refine ⟨fun _ => by simp [specialOf, hscalar, harray], fun st hst => ?_, ?_⟩
      · cases hst
      · constructor <;> simp [hscalar, harray, hhash]
  | some xs =>
      obtain ⟨hname, hne, lines, rfl, hlines⟩ := h.array xs harray
      have hspecialOf : specialOf e.2 = some lines := (specialOf_eq_iff hscalar harray).mpr hlines
      have hlines : lines ≠ [] := fun heq => hne (heq ▸ rfl)
      have htext : varStatements e = Dump.dumpArray specialName (lines.map .string) := by
        rw [varStatements_specialName hname hspecialOf, Dump.dumpSpecial, if_neg hlines]
        rfl
      have hassign := assignments_dumpArray isIdent_specialName (lines.map Value.string)
      rw [htext]
      refine ⟨fun _ => hspecialOf ▸ rfl, ?_, ?_⟩
      · intro st hst
        rw [Dump.dumpArray, List.mem_singleton] at hst
        subst hst
        exact Option.isSome_iff_exists.mpr ⟨_, readTarget_array isIdent_specialName⟩
      · refine ⟨fun value hvalue => ?_, fun xs' hxs' => ?_, fun hash hhash' => ?_⟩
        · cases hscalar.symm.trans hvalue
        · cases harray.symm.trans hxs'
          simp [assigned, hassign, hname]
        · cases hhash.symm.trans hhash'

/-- The scalar and the hash of another name are in the text. -/
theorem Dumpable.definedOnce_plain (h : Dumpable e) (hident : isIdent e.1 = true)
    (hspecial : ¬specialName <:+: e.1) :
    (∀ st ∈ varStatements e, (readTarget st.lhs).isSome) ∧ DefinedOnce (varStatements e) e := by
  have harray : e.2.array = none := Option.eq_none_iff_forall_ne_some.mpr fun xs hxs =>
    hspecial ((h.array xs hxs).1 ▸ List.infix_refl _)
  have hstring : ∀ value, e.2.scalar = some value → ∃ s, value = .string s := fun value hvalue =>
    (h.scalar value hvalue).1
  have hhashes : ∀ hash, e.2.hash = some hash →
      (∀ st ∈ Dump.dumpHash e.1 hash, (readTarget st.lhs).isSome) ∧
        (elements e.1 (Dump.dumpHash e.1 hash)).Perm hash := fun hash hhash =>
    (elements_dumpHash_perm_iff hident hash).mpr (h.hash hash hhash).2.2
  refine ⟨?_, ?_⟩
  · intro st hst
    rw [varStatements_of_plain hspecial] at hst
    rcases List.mem_append.mp hst with hst | hst
    · obtain ⟨value, hvalue, hst⟩ := List.mem_flatMap.mp hst
      obtain ⟨s, rfl⟩ := hstring value (Option.mem_toList.mp hvalue)
      rw [Dump.dumpAny, Dump.dumpEntry, List.mem_singleton, dumper_of_ident hident] at hst
      · subst hst
        exact Option.isSome_iff_exists.mpr ⟨_, readTarget_scalar hident⟩
      all_goals simp
    · obtain ⟨hash, hhash, hst⟩ := List.mem_flatMap.mp hst
      exact (hhashes hash (Option.mem_toList.mp hhash)).1 st hst
  · refine ⟨fun value hvalue => ?_, fun xs hxs => ?_, fun hash hhash => ?_⟩
    · obtain ⟨s, rfl⟩ := hstring value hvalue
      rw [varStatements_of_plain hspecial, hvalue, assigned_append, assigned_flatMap,
        assigned_flatMap]
      simp [assigned_scalar_dumpAny hident, assigned_dumpHash hident]
    · cases harray.symm.trans hxs
    · refine ⟨(h.hash hash hhash).1, ?_⟩
      rw [elements_varStatements hident hspecial hstring hhash]
      exact (hhashes hash hhash).2

/-- Variables that the text can hold are in it. -/
theorem Dumpable.definedOnce (h : Dumpable e) (hident : isIdent e.1 = true) :
    (e.1 = specialName → (specialOf e.2).isSome) ∧
      (∀ st ∈ varStatements e, (readTarget st.lhs).isSome) ∧ DefinedOnce (varStatements e) e := by
  by_cases hspecial : specialName <:+: e.1
  · exact h.definedOnce_special hspecial
  · exact ⟨fun hname => absurd (hname ▸ List.infix_refl _) hspecial,
      h.definedOnce_plain hident hspecial⟩

/-- What is known of the statements for a name whose variables are defined once, if the text has
the statements some number of times. -/
structure Counted (m : ℕ) (e : Bytes × Glob) : Prop where
  scalar : ∀ value, e.2.scalar = some value →
    m = 1 ∧ (assigned (.scalar e.1) (varStatements e)).length = 1
  array : ∀ xs, e.2.array = some xs →
    m = 1 ∧ assigned (.array e.1) (varStatements e) = [.array xs]
  hash : ∀ hash, e.2.hash = some hash → hash ≠ [] ∧
    m * (elements e.1 (varStatements e)).length = hash.length ∧
      (m = 1 → (elements e.1 (varStatements e)).Perm hash)

theorem DefinedOnce.counted (h : DefinedOnce ((List.replicate m e).flatMap varStatements) e) :
    Counted m e := by
  have hlength : ∀ target, (assigned target ((List.replicate m e).flatMap varStatements)).length =
      m * (assigned target (varStatements e)).length := by
    intro target
    rw [assigned_flatMap, length_flatMap_replicate]
  refine ⟨fun value hvalue => ?_, fun xs hxs => ?_, fun hash hhash => ?_⟩
  · have hone := congrArg List.length (h.scalar value hvalue)
    rw [hlength] at hone
    exact ⟨Nat.eq_one_of_mul_eq_one_right hone, Nat.eq_one_of_mul_eq_one_left hone⟩
  · have hone := h.array xs hxs
    have hm := congrArg List.length hone
    rw [hlength] at hm
    have hm := Nat.eq_one_of_mul_eq_one_right hm
    subst hm
    rw [List.replicate_one, List.flatMap_singleton] at hone
    exact ⟨rfl, hone⟩
  · obtain ⟨hne, hperm⟩ := h.hash hash hhash
    rw [elements_flatMap] at hperm
    refine ⟨hne, ?_, ?_⟩
    · rw [← hperm.length_eq, length_flatMap_replicate]
    · rintro rfl
      rwa [List.replicate_one, List.flatMap_singleton] at hperm

namespace Counted

theorem scalar_eq_none (h : Counted m e) (hnil : assigned (.scalar e.1) (varStatements e) = []) :
    e.2.scalar = none := by
  refine Option.eq_none_iff_forall_ne_some.mpr fun value hvalue => ?_
  have hone := (h.scalar value hvalue).2
  rw [hnil] at hone
  cases hone

theorem array_eq_none (h : Counted m e) (hnil : assigned (.array e.1) (varStatements e) = []) :
    e.2.array = none := by
  refine Option.eq_none_iff_forall_ne_some.mpr fun xs hxs => ?_
  have hone := (h.array xs hxs).2
  rw [hnil] at hone
  cases hone

theorem hash_eq_none (h : Counted m e) (hnil : elements e.1 (varStatements e) = []) :
    e.2.hash = none := by
  refine Option.eq_none_iff_forall_ne_some.mpr fun hash hhash => ?_
  obtain ⟨hne, hlength, -⟩ := h.hash hash hhash
  rw [hnil] at hlength
  exact hne (List.length_eq_zero_iff.mp hlength.symm)

theorem isEmpty (h : Counted m e) (hnil : assignments (varStatements e) = []) : e.2.IsEmpty := by
  have hassigned : ∀ target, assigned target (varStatements e) = [] := by
    intro target
    rw [assigned, hnil]
    rfl
  refine ⟨h.scalar_eq_none (hassigned _), h.array_eq_none (hassigned _), h.hash_eq_none ?_⟩
  rw [elements, hnil]
  rfl

/-- Of `PerlConfig` there is an array of lines. -/
theorem dumpable_special (h : Counted m e) (hname : e.1 = specialName) {lines : List Bytes}
    (hlines : specialOf e.2 = some lines) : e.2.IsEmpty ∨ m = 1 ∧ Dumpable e := by
  have htext := varStatements_specialName hname hlines
  by_cases hempty : lines = []
  · rw [Dump.dumpSpecial, if_pos hempty] at htext
    refine .inl (h.isEmpty ?_)
    rw [htext]
    rfl
  have hassign : assignments (varStatements e) =
      [(.array specialName, .array (lines.map .string))] := by
    rw [htext, Dump.dumpSpecial, if_neg hempty]
    exact assignments_dumpArray isIdent_specialName _
  have hscalar := h.scalar_eq_none (by simp [assigned, hassign])
  have hhash := h.hash_eq_none (by simp [elements, hassign])
  cases harray : e.2.array with
  | none => exact .inl ⟨hscalar, harray, hhash⟩
  | some xs =>
      obtain ⟨hm, hxs⟩ := h.array xs harray
      obtain rfl : lines.map Value.string = xs := by
        simpa [assigned, hassign, hname] using hxs
      have hlines' := (specialOf_eq_iff hscalar harray).mp hlines
      refine .inr ⟨hm, fun value hvalue => ?_, fun xs hxs => ?_, fun hash hhash' => ?_⟩
      · cases hscalar.symm.trans hvalue
      · cases harray.symm.trans hxs
        exact ⟨hname, by simpa using hempty, lines, rfl, hlines'⟩
      · cases hhash.symm.trans hhash'

/-- The scalar of another name is a string, and there is no array. -/
theorem plain_string (h : Counted m e) (hident : isIdent e.1 = true)
    (hspecial : ¬specialName <:+: e.1) :
    (∀ value, e.2.scalar = some value → m = 1 ∧ ∃ s, value = .string s) ∧ e.2.array = none := by
  have hhashes : ∀ target : Target, (∀ key, target ≠ .element e.1 key) →
      assigned target (e.2.hash.toList.flatMap fun hash => Dump.dumpHash e.1 hash) = [] := by
    intro target htarget
    rw [assigned_flatMap, List.flatMap_eq_nil_iff]
    exact fun hash _ => assigned_dumpHash hident hash htarget
  have hnoScalar := hhashes (.scalar e.1) fun _ heq => nomatch heq
  have hnoArray := hhashes (.array e.1) fun _ heq => nomatch heq
  have hstring : ∀ value, e.2.scalar = some value → m = 1 ∧ ∃ s, value = .string s := by
    intro value hvalue
    obtain ⟨hm, hone⟩ := h.scalar value hvalue
    rw [varStatements_of_plain hspecial, hvalue, assigned_append, hnoScalar,
      List.append_nil, Option.toList_some, List.flatMap_singleton,
      assigned_scalar_dumpAny hident] at hone
    cases value with
    | string s => exact ⟨hm, s, rfl⟩
    | scalar | array | hash => cases hone
  refine ⟨hstring, h.array_eq_none ?_⟩
  rw [varStatements_of_plain hspecial, assigned_append, hnoArray,
    List.append_nil, assigned_flatMap, List.flatMap_eq_nil_iff]
  intro value hvalue
  exact assigned_array_dumpAny hident (.inl (hstring value (Option.mem_toList.mp hvalue)).2)

/-- All keys of the hash of another name can be read back. -/
theorem plain_hash (h : Counted m e) (hident : isIdent e.1 = true)
    (hspecial : ¬specialName <:+: e.1)
    (hread : ∀ st ∈ varStatements e, (readTarget st.lhs).isSome) {hash : Hash}
    (hhash : e.2.hash = some hash) :
    m = 1 ∧ hash ≠ [] ∧ ∀ key ∈ hash.map Prod.fst, Literal key := by
  obtain ⟨hne, hlength, hperm⟩ := h.hash hash hhash
  have hreadHash : ∀ st ∈ Dump.dumpHash e.1 hash, (readTarget st.lhs).isSome := by
    intro st hst
    refine hread st ?_
    rw [varStatements_of_plain hspecial, hhash, Option.toList_some, List.flatMap_singleton]
    exact List.mem_append_right _ hst
  have hstring : ∀ value, e.2.scalar = some value → ∃ s, value = .string s :=
    fun value hvalue => ((h.plain_string hident hspecial).1 value hvalue).2
  rw [elements_varStatements hident hspecial hstring hhash] at hlength hperm
  have hall : (elements e.1 (Dump.dumpHash e.1 hash)).length = hash.length := by
    rw [elements_dumpHash hident, ← (sortKeys_perm hash).length_eq,
      List.filterMap_length_eq_length]
    intro elem helem
    have hsome := hreadHash _ (List.mem_map_of_mem helem)
    rw [lhs_dumpHash, readTarget_element hident, Option.isSome_map] at hsome
    rwa [Option.isSome_map]
  rw [hall] at hlength
  have hm : m = 1 := by
    have hpos : 0 < hash.length := List.length_pos_iff.mpr hne
    exact Nat.eq_of_mul_eq_mul_right hpos (hlength.trans (Nat.one_mul _).symm)
  exact ⟨hm, hne, (elements_dumpHash_perm_iff hident hash).mp ⟨hreadHash, hperm hm⟩⟩

/-- Of another name there is a scalar that is a string, and a hash with literal keys. -/
theorem dumpable_plain (h : Counted m e) (hident : isIdent e.1 = true)
    (hspecial : ¬specialName <:+: e.1)
    (hread : ∀ st ∈ varStatements e, (readTarget st.lhs).isSome) :
    e.2.IsEmpty ∨ m = 1 ∧ Dumpable e := by
  obtain ⟨hstring, harray⟩ := h.plain_string hident hspecial
  have hhash : ∀ hash, e.2.hash = some hash →
      m = 1 ∧ hash ≠ [] ∧ ∀ key ∈ hash.map Prod.fst, Literal key :=
    fun hash hhash => h.plain_hash hident hspecial hread hhash
  have hdumpable : Dumpable e := by
    refine ⟨fun value hvalue => ⟨(hstring value hvalue).2, hspecial⟩, fun xs hxs => ?_,
      fun hash hhash' => ?_⟩
    · cases harray.symm.trans hxs
    · obtain ⟨-, hne, hliteral⟩ := hhash hash hhash'
      exact ⟨hne, hspecial, hliteral⟩
  cases hscalar : e.2.scalar with
  | some value => exact .inr ⟨(hstring value hscalar).1, hdumpable⟩
  | none =>
      cases hhash' : e.2.hash with
      | some hash => exact .inr ⟨(hhash hash hhash').1, hdumpable⟩
      | none => exact .inl ⟨hscalar, harray, hhash'⟩

end Counted

/-- Variables that are in the text once are those that it can hold. -/
theorem dumpable_of_definedOnce (hident : isIdent e.1 = true)
    (hspecialOf : e.1 = specialName → (specialOf e.2).isSome)
    (hread : ∀ st ∈ varStatements e, (readTarget st.lhs).isSome)
    (h : DefinedOnce ((List.replicate m e).flatMap varStatements) e) :
    e.2.IsEmpty ∨ m = 1 ∧ Dumpable e := by
  have hcounted := h.counted
  by_cases hspecial : specialName <:+: e.1
  · by_cases hname : e.1 = specialName
    · obtain ⟨lines, hlines⟩ := Option.isSome_iff_exists.mp (hspecialOf hname)
      exact hcounted.dumpable_special hname hlines
    · refine .inl (hcounted.isEmpty ?_)
      rw [varStatements_of_special hspecial hname]
      rfl
  · exact hcounted.dumpable_plain hident hspecial hread

end Variable

/-! ## How often the variables are in the text -/

section Occurrences

variable {sections : List PerlSection} {s : PerlSection} {e : Bytes × Glob} {stash : Stash}
  {β : Type} {f : Bytes × Glob → List β}

theorem flatMap_of_mem (hnodup : (stash.map Prod.fst).Nodup) (he : e ∈ stash)
    (hf : ∀ e', e'.1 ≠ e.1 → e' ∈ stash → f e' = []) : stash.flatMap f = f e := by
  induction stash with
  | nil => cases he
  | cons e₁ stash ih =>
      obtain ⟨hkey, hnodup⟩ := List.nodup_cons.mp hnodup
      rw [List.flatMap_cons]
      rcases List.mem_cons.mp he with rfl | he
      · have hrest : stash.flatMap f = [] := by
          rw [List.flatMap_eq_nil_iff]
          intro e' he'
          refine hf e' (fun heq => hkey ?_) (List.mem_cons_of_mem _ he')
          exact List.mem_map.mpr ⟨e', he', heq⟩
        rw [hrest, List.append_nil]
      · have hfirst : e₁.1 ≠ e.1 := fun heq => hkey (List.mem_map.mpr ⟨e, he, heq.symm⟩)
        rw [hf e₁ hfirst List.mem_cons_self, List.nil_append,
          ih hnodup he fun e' hne he' => hf e' hne (List.mem_cons_of_mem _ he')]

/-- No name is that of variables of two sections. -/
def NamesDistinct (sections : List PerlSection) : Prop :=
  (sections.flatMap fun s => s.vars.map Prod.fst).Nodup

theorem NamesDistinct.stashOf (h : NamesDistinct sections) (pack : Bytes) :
    ((ModPerl.stashOf sections pack).map Prod.fst).Nodup := by
  obtain ⟨hvars, hdisjoint⟩ := List.nodup_flatMap.mp h
  rw [ModPerl.stashOf, List.map_flatMap, List.nodup_flatMap]
  exact ⟨fun s hs => hvars s (List.mem_filter.mp hs).1, hdisjoint.filter _⟩

/-- The names of another package are others. -/
theorem NamesDistinct.ne_of_mem (h : NamesDistinct sections) (hs : s ∈ sections) (he : e ∈ s.vars)
    {pack : Bytes} (hpack : pack ≠ s.package) {e' : Bytes × Glob}
    (he' : e' ∈ ModPerl.stashOf sections pack) : e'.1 ≠ e.1 := by
  intro heq
  obtain ⟨s', hs', he'⟩ := List.mem_flatMap.mp he'
  obtain ⟨hs', hpack'⟩ := List.mem_filter.mp hs'
  have hne : s' ≠ s := fun heq' => hpack (of_decide_eq_true hpack' ▸ heq' ▸ rfl)
  have hsymm : Std.Symm (Function.onFun List.Disjoint fun s : PerlSection =>
      s.vars.map Prod.fst) := ⟨fun _ _ hdisjoint _ hb ha => hdisjoint ha hb⟩
  have hdisjoint := (List.nodup_flatMap.mp h).2.forall hs' hs hne
  refine hdisjoint (List.mem_map_of_mem he') ?_
  rw [heq]
  exact List.mem_map_of_mem he

theorem flatMap_ite_replicate (sections : List PerlSection) (pack : Bytes) (e : Bytes × Glob) :
    ((sections.map PerlSection.package).flatMap fun pack' => if pack' = pack then f e else []) =
      (List.replicate (sections.filter fun s => s.package = pack).length e).flatMap f := by
  induction sections with
  | nil => rfl
  | cons s sections ih =>
      rw [List.map_cons, List.flatMap_cons, ih]
      by_cases hpack : s.package = pack <;> simp [hpack, List.replicate_succ]

/-- They are there once for each section in their package. -/
theorem NamesDistinct.occurrences (h : NamesDistinct sections) (hs : s ∈ sections)
    (he : e ∈ s.vars)
    (hf : ∀ e', e'.1 ≠ e.1 → (∃ s' ∈ sections, e' ∈ s'.vars) → f e' = []) :
    ((sections.map PerlSection.package).flatMap fun pack =>
        (ModPerl.stashOf sections pack).flatMap f) =
      (List.replicate (sections.filter fun s' => s'.package = s.package).length e).flatMap f := by
  have hmem : ∀ pack, ∀ e' ∈ ModPerl.stashOf sections pack, ∃ s' ∈ sections, e' ∈ s'.vars := by
    intro pack e' he'
    obtain ⟨s', hs', he'⟩ := List.mem_flatMap.mp he'
    exact ⟨s', (List.mem_filter.mp hs').1, he'⟩
  have hone : ∀ pack, (ModPerl.stashOf sections pack).flatMap f =
      if pack = s.package then f e else [] := by
    intro pack
    split_ifs with hpack
    · refine flatMap_of_mem (h.stashOf pack) ?_ fun e' hne he' => hf e' hne (hmem pack e' he')
      exact List.mem_flatMap.mpr ⟨s, List.mem_filter.mpr ⟨hs, decide_eq_true hpack.symm⟩, he⟩
    · rw [List.flatMap_eq_nil_iff]
      exact fun e' he' => hf e' (h.ne_of_mem hs he hpack he') (hmem pack e' he')
  simp only [hone]
  exact flatMap_ite_replicate sections s.package e

end Occurrences

/-! ## The dump -/

section Dump

variable {order : Stash → Stash} {seen : List (Bytes × Bytes)} {sections : List PerlSection}

/-- When the variables of a name are in the dump of sections: there are none, or the text can
hold them, and no other section has this package. -/
def Held (sections : List PerlSection) (s : PerlSection) (e : Bytes × Glob) : Prop :=
  e.2.IsEmpty ∨
    (sections.filter fun s' => s'.package = s.package).length = 1 ∧ Dumpable e

/-- What the text says of a variable is what the statements for it say. -/
theorem definedOnce_iff (hnames : NamesDistinct sections)
    (hident : ∀ s ∈ sections, ∀ e ∈ s.vars, isIdent e.1 = true) {text : List Statement}
    (htext : text.Perm ((sections.map PerlSection.package).flatMap fun pack =>
      (stashOf sections pack).flatMap varStatements))
    {s : PerlSection} (hs : s ∈ sections) {e : Bytes × Glob} (he : e ∈ s.vars) :
    DefinedOnce text e ↔ DefinedOnce ((List.replicate
      (sections.filter fun s' => s'.package = s.package).length e).flatMap varStatements) e := by
  have hassigned : ∀ target : Target, target.name = e.1 → (assigned target text).Perm
      (assigned target ((List.replicate
        (sections.filter fun s' => s'.package = s.package).length e).flatMap varStatements)) := by
    intro target htarget
    have hperm := assigned_perm target htext
    simp only [assigned_flatMap] at hperm ⊢
    rwa [hnames.occurrences hs he] at hperm
    rintro e' hne ⟨s', hs', he'⟩
    refine assigned_of_ne (name_of_mem_assignments (hident s' hs' e' he')) ?_
    exact fun heq => hne (heq.symm.trans htarget)
  have helements : (elements e.1 text).Perm (elements e.1 ((List.replicate
      (sections.filter fun s' => s'.package = s.package).length e).flatMap varStatements)) := by
    have hperm := elements_perm e.1 htext
    simp only [elements_flatMap] at hperm ⊢
    rwa [hnames.occurrences hs he] at hperm
    rintro e' hne ⟨s', hs', he'⟩
    exact elements_of_ne (name_of_mem_assignments (hident s' hs' e' he')) hne.symm
  exact ⟨fun h => h.congr hassigned helements, fun h =>
    h.congr (fun target htarget => (hassigned target htarget).symm) helements.symm⟩

theorem held_of_readsBack (horder : ∀ stash, (order stash).Perm stash)
    (hnames : NamesDistinct sections)
    (hident : ∀ s ∈ sections, ∀ e ∈ s.vars, isIdent e.1 = true)
    (h : ReadsBack order seen sections) :
    ∀ s ∈ sections, ∀ e ∈ s.vars, Held sections s e := by
  obtain ⟨text, hdump, hread, hdefined⟩ := h
  have hprocessed := Processed.run horder seen sections
  have htext := dump_perm horder hprocessed hnames.stashOf hdump
  have hspecialOf := (dump_isSome_iff horder hprocessed hnames.stashOf).mp (hdump ▸ rfl)
  intro s hs e he
  refine dumpable_of_definedOnce (hident s hs e he) (hspecialOf s hs e he) (fun st hst => ?_)
    ((definedOnce_iff hnames hident htext hs he).mp (hdefined s hs e he))
  refine hread st (htext.mem_iff.mpr (List.mem_flatMap.mpr
    ⟨s.package, List.mem_map_of_mem hs, List.mem_flatMap.mpr ⟨e, ?_, hst⟩⟩))
  exact List.mem_flatMap.mpr ⟨s, List.mem_filter.mpr ⟨hs, decide_eq_true rfl⟩, he⟩

theorem readsBack_of_held (horder : ∀ stash, (order stash).Perm stash)
    (hnames : NamesDistinct sections)
    (hident : ∀ s ∈ sections, ∀ e ∈ s.vars, isIdent e.1 = true)
    (h : ∀ s ∈ sections, ∀ e ∈ s.vars, Held sections s e) : ReadsBack order seen sections := by
  have hprocessed := Processed.run horder seen sections
  have hone : ∀ s ∈ sections, ∀ e ∈ s.vars,
      (e.1 = specialName → (specialOf e.2).isSome) ∧
        (∀ st ∈ varStatements e, (readTarget st.lhs).isSome) ∧
          DefinedOnce ((List.replicate (sections.filter fun s' =>
            s'.package = s.package).length e).flatMap varStatements) e := by
    intro s hs e he
    rcases h s hs e he with hempty | ⟨hlength, hdumpable⟩
    · obtain ⟨hscalar, harray, hhash⟩ := id hempty
      rw [hempty.varStatements_eq]
      refine ⟨fun _ => by simp [specialOf, hscalar, harray],
        fun st hst => (List.not_mem_nil hst).elim, ?_⟩
      constructor <;> simp [hscalar, harray, hhash]
    · rw [hlength, List.replicate_one, List.flatMap_singleton]
      exact hdumpable.definedOnce (hident s hs e he)
  obtain ⟨text, hdump⟩ := Option.isSome_iff_exists.mp
    ((dump_isSome_iff horder hprocessed hnames.stashOf).mpr fun s hs e he => (hone s hs e he).1)
  have htext := dump_perm horder hprocessed hnames.stashOf hdump
  refine ⟨text, hdump, fun st hst => ?_, fun s hs e he => ?_⟩
  · obtain ⟨pack, -, hst⟩ := List.mem_flatMap.mp (htext.mem_iff.mp hst)
    obtain ⟨e, he, hst⟩ := List.mem_flatMap.mp hst
    obtain ⟨s, hs, he⟩ := List.mem_flatMap.mp he
    exact (hone s (List.mem_filter.mp hs).1 e he).2.1 st hst
  · exact (definedOnce_iff hnames hident htext hs he).mpr (hone s hs e he).2.2

/-- The dump reads back exactly when each variable is one that the text can hold, of a section
that has its package alone. -/
theorem dump_readsBack_iff (order : Stash → Stash) (horder : ∀ stash, (order stash).Perm stash)
    (seen : List (Bytes × Bytes)) (sections : List PerlSection) (hnames : NamesDistinct sections)
    (hident : ∀ s ∈ sections, ∀ e ∈ s.vars, isIdent e.1 = true) :
    ReadsBack order seen sections ↔ ∀ s ∈ sections, ∀ e ∈ s.vars, Held sections s e :=
  ⟨held_of_readsBack horder hnames hident, readsBack_of_held horder hnames hident⟩

/-- The port to listen on, in a first section, and a location in a second. -/
def listenAndLocation : List PerlSection :=
  [⟨specialPackage, ascii "httpd_conf", 20, [(ascii "Listen", ⟨some (.string (ascii "8529")),
    none, none⟩)]⟩,
   ⟨specialPackage, ascii "httpd_conf", 30, [(ascii "Location", ⟨none, none,
    some [(ascii "/perl", .hash [(ascii "SetHandler", .string (ascii "perl-script"))])]⟩)]⟩]

theorem dump_readsBack_two : ReadsBack id [] listenAndLocation := by
  refine (dump_readsBack_iff id (fun stash => .refl stash) [] listenAndLocation ?_ ?_).mpr ?_
  · exact show List.Nodup [ascii "Listen", ascii "Location"] by decide
  · exact List.forall_mem_cons.mpr ⟨List.forall_mem_singleton.mpr (by decide),
      List.forall_mem_singleton.mpr (List.forall_mem_singleton.mpr (by decide))⟩
  · have hplain : ¬specialName <:+: ascii "Listen" ∧ ¬specialName <:+: ascii "Location" :=
      ⟨fun h => absurd h.length_le (by decide), fun h => absurd h.length_le (by decide)⟩
    have hliteral : Literal (ascii "/perl") := by
      refine ⟨by decide, fun hback => ?_, by decide⟩
      exact absurd (hback.subset List.mem_cons_self) (by decide)
    refine List.forall_mem_cons.mpr ⟨List.forall_mem_singleton.mpr (.inr ⟨?_, ?_, ?_, ?_⟩),
      List.forall_mem_singleton.mpr (List.forall_mem_singleton.mpr (.inr ⟨?_, ?_, ?_, ?_⟩))⟩
    · rfl
    · rintro value heq
      cases heq
      exact ⟨⟨_, rfl⟩, hplain.1⟩
    · exact fun _ heq => nomatch heq
    · exact fun _ heq => nomatch heq
    · rfl
    · exact fun _ heq => nomatch heq
    · exact fun _ heq => nomatch heq
    · rintro hash heq
      cases heq
      exact ⟨List.cons_ne_nil _ _, hplain.2, List.forall_mem_singleton.mpr hliteral⟩

/-- An array. -/
def directoryIndex : List PerlSection :=
  [⟨specialPackage, ascii "httpd_conf", 20, [(ascii "DirectoryIndex", ⟨none,
    some [.string (ascii "index.htm"), .string (ascii "index.html")], none⟩)]⟩]

/-- `@DirectoryIndex` is not in the dump. -/
theorem dump_readsBack_fails : NamesDistinct directoryIndex ∧
    (∀ s ∈ directoryIndex, ∀ e ∈ s.vars, isIdent e.1 = true) ∧
      ¬ReadsBack id [] directoryIndex := by
  have hnames : NamesDistinct directoryIndex := List.nodup_singleton _
  have hident : ∀ s ∈ directoryIndex, ∀ e ∈ s.vars, isIdent e.1 = true :=
    List.forall_mem_singleton.mpr (List.forall_mem_singleton.mpr (by decide))
  refine ⟨hnames, hident, fun hreads => ?_⟩
  rcases held_of_readsBack (fun stash => .refl stash) hnames hident hreads _ List.mem_cons_self _
    List.mem_cons_self with hempty | ⟨-, hdumpable⟩
  · cases hempty.2.1
  · exact absurd (hdumpable.array _ rfl).1 (by decide)

end Dump

end ModPerl
