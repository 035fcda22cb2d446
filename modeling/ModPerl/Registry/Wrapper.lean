import ModPerl.Perl.Lexer
import ModPerl.Registry.Namespace

/-!
# The text around a script

A script is compiled as the body of a `handler` in a package of its own.  The name of its
file goes into the text three times: escaped into the name of the package, between single
quotes as the value of `$0`, and behind `#line 1`.  Only the first is escaped, and it is
not quite: `%2x` writes a blank where the byte has one hexadecimal digit.

The functions are those of `ModPerl::RegistryCooker`.
-/

namespace ModPerl

open Transducer Lexer Escape Registry

/-- What `convert_script_to_compiled_handler` works on. -/
structure RegistryScript where
  /-- `$self->{FILENAME}` -/
  filename : Bytes
  /-- `ref($self)` -/
  cls : Bytes
  /-- `$0` -/
  processName : Bytes
  /-- `$ModPerl::Registry::MarkLine` -/
  markLine : Bool
  /-- `$self->{CODE}` -/
  code : Bytes

namespace RegistryScript

/-- `File::Basename::basename` -/
def basename (path : Bytes) : Bytes :=
  let path := path.rdropWhile (· = slash)
  if path = [] then [slash] else path.rtakeWhile (· ≠ slash)

/-- The letters of the switches: up to a `--`, of the arguments that begin with `-`. -/
def switchesOf : List Bytes → Bytes
  | [] => []
  | (45 :: 45 :: _) :: _ => []
  | (45 :: letters) :: args => letters ++ switchesOf args
  | _ :: args => switchesOf args

/-- The switches in the first line of the code. -/
def shebangSwitches (code : Bytes) : Bytes :=
  match (code.takeWhile (· ≠ 10)).splitOnP isBlank with
  | cmd :: args => if cmd.take 2 = ascii "#!" then switchesOf args else []
  | [] => []

/-- `%switches`: `-T` warns, and adds nothing. -/
def switchCode (switch : UInt8) : Bytes := if switch = 119 then ascii "use warnings;\n" else []

/-- `shebang_to_perl` -/
def shebangToPerl (code : Bytes) : Bytes := (shebangSwitches code).flatMap switchCode

/-- `strip_end_data_segment`, of code before which a line begins or does not. -/
def stripEndDataSegment (lineStart : Bool) : Bytes → Bytes
  | [] => []
  | c :: code =>
      if lineStart && ((ascii "__END__").isPrefixOf (c :: code) ||
          (ascii "__DATA__").isPrefixOf (c :: code)) then []
      else c :: stripEndDataSegment (c = 10) code

variable (s : RegistryScript)

/-- `get_script_name`, or else `$0`. -/
def scriptName : Bytes := if truthy s.filename then s.filename else s.processName

/-- `get_mark_line` -/
def getMarkLine : Bytes := if s.markLine then ascii "\n#line 1 " ++ s.filename ++ ascii "\n" else []

/-- The script sends its own headers. -/
def isNph : Bool := (basename s.filename).take 4 = ascii "nph-"

/-- `$nph` -/
def nph : Bytes := if s.isNph then ascii "$_[0]->assbackwards(1);" else []

/-- The text before the code of the script. -/
def wrapper : Bytes :=
  ascii "package " ++ makeNamespace s.cls (namespaceFromFilename s.filename) ++ ascii ";" ++
    ascii "sub handler \x7b" ++ ascii "local $0 = '" ++ s.scriptName ++ ascii "';" ++ s.nph ++
    shebangToPerl s.code ++ s.getMarkLine

/-- `$eval` -/
def evalText : Bytes := s.wrapper ++ stripEndDataSegment true s.code ++ ascii "\n\x7d"

/-! ## What the text should be -/

/-- The tokens of what a switch adds. -/
def switchTokens (switch : UInt8) : List PerlToken :=
  if switch = 119 then [.word (ascii "use"), .word (ascii "warnings"), .punct 59] else []

/-- The tokens behind the value of `$0`. -/
def restTokens : List PerlToken :=
  .punct 59 ::
    (if s.isNph then
      [.scalar (ascii "_"), .punct 91, .number (ascii "0"), .punct 93, .punct 45, .punct 62,
        .word (ascii "assbackwards"), .punct 40, .number (ascii "1"), .punct 41, .punct 59]
    else []) ++
    (shebangSwitches s.code).flatMap switchTokens ++
    (if s.markLine then [.comment (ascii "line 1 " ++ s.filename)] else [])

/-- The package with this name below the root, `handler`, `$0` with the name of the file, and
the optional parts. -/
def intendedTokens (ident : Bytes) : List PerlToken :=
  [.word (ascii "package"), .word (namespaceRoot s.cls ++ ascii "::" ++ ident), .punct 59,
    .word (ascii "sub"), .word (ascii "handler"), .punct 123, .word (ascii "local"),
    .scalar (ascii "0"), .punct 61, .str s.filename] ++ s.restTokens

/-- The text is these tokens, and the code begins between two tokens. -/
def Inert : Prop :=
  ∃ ident, isIdent ident = true ∧
    feed Lexer.step .between s.wrapper = some (s.intendedTokens ident, .between)

/-- A file name that is the same in the three places. -/
structure Harmless : Prop where
  /-- `%2x` needs both digits. -/
  bytes : ∀ b ∈ s.filename, 16 ≤ b
  /-- The package gets a name. -/
  component : ∃ b ∈ s.filename, b ≠ slash
  /-- The string between the quotes is the name. -/
  literal : Literal s.filename
  /-- Perl takes this name for false. -/
  zero : s.filename = ascii "0" → s.processName = ascii "0"
  /-- The name of the package fits the buffer. -/
  short : (makeNamespace s.cls (namespaceFromFilename s.filename)).length ≤ maxWord

/-! ## The name of the package -/

section Package

variable {path text acc tail : Bytes} {b : UInt8} {toks : List PerlToken}

theorem mem_intercalate {parts : List Bytes} {sep : UInt8} (hne : b ≠ sep) :
    b ∈ [sep].intercalate parts ↔ ∃ part ∈ parts, b ∈ part := by
  induction parts with
  | nil => simp
  | cons part parts ih =>
      cases parts with
      | nil => simp
      | cons part' parts =>
          rw [List.intercalate_cons_cons, List.mem_append, List.mem_append, ih]
          simp [hne]

theorem intercalate_splitOn_slash (path : Bytes) :
    [slash].intercalate (path.splitOn slash) = path := List.intercalate_splitOn slash

/-- But for the slashes the path keeps its bytes. -/
theorem mem_flatPath (hslash : b ≠ slash) (hb : b ∈ path) : b ∈ flatPath path := by
  rw [← intercalate_splitOn_slash path, mem_intercalate hslash] at hb
  obtain ⟨part, hpart, hb⟩ := hb
  have hne : part ≠ [] := List.ne_nil_of_mem hb
  refine List.mem_map.mpr ⟨b, (mem_intercalate hslash).mpr ⟨part, ?_, hb⟩, if_neg hslash⟩
  exact List.mem_filter.mpr ⟨hpart, by simpa using hne⟩

theorem of_mem_flatPath (hb : b ∈ flatPath path) : b = underscore ∨ b ∈ path := by
  obtain ⟨a, ha, rfl⟩ := List.mem_map.mp hb
  by_cases hslash : a = slash
  · exact .inl (if_pos hslash)
  · right
    rw [if_neg hslash]
    obtain ⟨part, hpart, ha⟩ := (mem_intercalate hslash).mp ha
    rw [← intercalate_splitOn_slash path, mem_intercalate hslash]
    exact ⟨part, List.mem_of_mem_filter hpart, ha⟩

theorem flatPath_ne_nil_iff : flatPath path ≠ [] ↔ ∃ b ∈ path, b ≠ slash := by
  constructor
  · intro hne
    by_contra hall
    push Not at hall
    refine hne ?_
    have hparts : (path.splitOn slash).filter (· ≠ []) = [] := by
      refine List.filter_eq_nil_iff.mpr fun part hpart => ?_
      have hnil : part = [] := List.eq_nil_iff_forall_not_mem.mpr fun b hb => by
        have hslash : b ≠ slash := fun heq => notMem_of_mem_splitOn hpart (heq ▸ hb)
        refine hslash (hall b ?_)
        rw [← intercalate_splitOn_slash path, mem_intercalate hslash]
        exact ⟨part, hpart, hb⟩
      simp [hnil]
    rw [flatPath, hparts]
    rfl
  · rintro ⟨b, hb, hslash⟩
    exact List.ne_nil_of_mem (mem_flatPath hslash hb)

theorem forall_flatPath_iff : (∀ b ∈ flatPath path, 16 ≤ b) ↔ ∀ b ∈ path, 16 ≤ b := by
  constructor
  · intro h b hb
    by_cases hslash : b = slash
    · exact hslash ▸ (by decide)
    · exact h b (mem_flatPath hslash hb)
  · intro h b hb
    rcases of_mem_flatPath hb with rfl | hb
    · decide
    · exact h b hb

theorem forall_lead_iff : (∀ b ∈ lead text, 16 ≤ b) ↔ ∀ b ∈ text, 16 ≤ b := by
  rw [lead]
  split_ifs
  · simp [show (16 : UInt8) ≤ underscore by decide]
  · rfl

theorem identByte_eq_isWord : identByte b = isWord b :=
  forall_byte (p := fun b => identByte b = isWord b) (by decide +kernel) b

theorem identByte_hexLow : identByte (hexLow b) = true :=
  forall_byte (p := fun b => identByte (hexLow b) = true) (by decide +kernel) b

theorem identByte_hexHigh (h : 16 ≤ b) : identByte (hexHigh b) = true :=
  forall_byte (p := fun b => 16 ≤ b → identByte (hexHigh b) = true) (by decide +kernel) b h

/-- Two digits are enough for these bytes. -/
theorem all_identByte_escape (h : ∀ b ∈ text, 16 ≤ b) :
    (escape identifierCode text).all identByte = true := by
  induction text with
  | nil => rfl
  | cons c text ih =>
      have hrest := ih fun b hb => h b (List.mem_cons_of_mem c hb)
      cases hc : identifierCode.plain c with
      | true =>
          have hword : identByte c = true := identByte_eq_isWord.trans hc
          rw [escape_cons_plain hc, List.all_cons, hword, hrest]
          rfl
      | false =>
          have hhigh : identByte (identifierCode.hi c) = true :=
            identByte_hexHigh (h c List.mem_cons_self)
          have hlow : identByte (identifierCode.lo c) = true := identByte_hexLow
          have hmark : identByte identifierCode.mark = true := by decide
          rw [escape_cons_other hc, List.all_cons, List.all_cons, List.all_cons, hmark, hhigh,
            hlow, hrest]
          rfl

/-- The other bytes have a blank for the first digit. -/
theorem exists_blank_escape (h : ∃ b ∈ text, b < 16) : ∃ p c q,
    escape identifierCode text = p ++ 32 :: c :: q ∧ p.all identByte = true ∧
      identByte c = true := by
  induction text with
  | nil => simp at h
  | cons c text ih =>
      have hlater : c ≥ 16 → ∃ p c' q, escape identifierCode text = p ++ 32 :: c' :: q ∧
          p.all identByte = true ∧ identByte c' = true := by
        intro hge
        obtain ⟨b, hb, hlt⟩ := h
        rcases List.mem_cons.mp hb with rfl | hb
        · exact absurd hlt (UInt8.not_lt.mpr hge)
        · exact ih ⟨b, hb, hlt⟩
      cases hc : identifierCode.plain c with
      | true =>
          have hge : c ≥ 16 := by
            revert hc
            exact forall_byte (p := fun c => identifierCode.plain c = true → c ≥ 16)
              (by decide +kernel) c
          obtain ⟨p, c', q, heq, hp, hc'⟩ := hlater hge
          have hword : identByte c = true := identByte_eq_isWord.trans hc
          refine ⟨c :: p, c', q, ?_, ?_, hc'⟩
          · rw [escape_cons_plain hc, heq]
            rfl
          · rw [List.all_cons, hword, hp]
            rfl
      | false =>
          have hlow : identByte (identifierCode.lo c) = true := identByte_hexLow
          have hmark : identByte identifierCode.mark = true := by decide
          rw [escape_cons_other hc]
          by_cases hge : c ≥ 16
          · obtain ⟨p, c', q, heq, hp, hc'⟩ := hlater hge
            have hhigh : identByte (identifierCode.hi c) = true := identByte_hexHigh hge
            refine ⟨identifierCode.mark :: identifierCode.hi c :: identifierCode.lo c :: p, c', q,
              ?_, ?_, hc'⟩
            · rw [heq]
              rfl
            · rw [List.all_cons, List.all_cons, List.all_cons, hmark, hhigh, hlow, hp]
              rfl
          · have hblank : identifierCode.hi c = 32 := if_pos (UInt8.not_le.mp hge)
            exact ⟨[identifierCode.mark], identifierCode.lo c, escape identifierCode text,
              by rw [hblank]; rfl, by decide, hlow⟩

/-- The last part of the name of the package. -/
def lastPart (path : Bytes) : Bytes := escape identifierCode (lead (flatPath path))

theorem makeNamespace_eq {cls : Bytes} : makeNamespace cls (namespaceFromFilename path) =
    namespaceRoot cls ++ ascii "::" ++ lastPart path := by
  rw [makeNamespace, prefixDigit_escape, namespaceFromFilename_eq, lastPart]

theorem head_prefixDigit (hne : text ≠ []) :
    (prefixDigit text).head?.any (fun c => !(48 ≤ c && c ≤ 57)) = true := by
  obtain ⟨c, text, rfl⟩ := List.exists_cons_of_ne_nil hne
  rw [prefixDigit]
  by_cases hdigit : isDigit c = true
  · rw [if_pos (by exact hdigit)]
    rfl
  · rw [if_neg (by exact hdigit)]
    exact Bool.not_eq_true' _ ▸ Bool.not_eq_true _ ▸ hdigit

theorem escape_ne_nil (hne : text ≠ []) : escape identifierCode text ≠ [] := by
  obtain ⟨c, text, rfl⟩ := List.exists_cons_of_ne_nil hne
  rw [escape_cons, escapeLetter]
  split_ifs
  · exact List.cons_ne_nil _ _
  · exact List.cons_ne_nil _ _

theorem isIdent_lastPart (h : ∀ b ∈ path, 16 ≤ b) (hne : ∃ b ∈ path, b ≠ slash) :
    isIdent (lastPart path) = true := by
  have hall : (lastPart path).all identByte = true :=
    all_identByte_escape (forall_lead_iff.mpr (forall_flatPath_iff.mpr h))
  have hhead : (lastPart path).head?.any (fun c => !(48 ≤ c && c ≤ 57)) = true := by
    rw [lastPart, ← prefixDigit_escape]
    exact head_prefixDigit (escape_ne_nil (flatPath_ne_nil_iff.mpr hne))
  rw [isIdent, hall, hhead]
  rfl

end Package

/-! ## The tokens of the text -/

section Tokens

variable {s} {acc tail : Bytes} {toks : List PerlToken}

/-- From behind the package to the quote. -/
def opening : Bytes := 59 :: ascii "sub handler \x7blocal $0 = '"

/-- From behind the quote that ends the value of `$0`. -/
def rest (s : RegistryScript) : Bytes :=
  59 :: (s.nph ++ (shebangToPerl s.code ++ s.getMarkLine))

def openingTokens : List PerlToken :=
  [.punct 59, .word (ascii "sub"), .word (ascii "handler"), .punct 123, .word (ascii "local"),
    .scalar (ascii "0"), .punct 61]

theorem intendedTokens_eq {ident : Bytes} : s.intendedTokens ident =
    [.word (ascii "package")] ++ ([.word (namespaceRoot s.cls ++ ascii "::" ++ ident)] ++
      (openingTokens ++ .str s.filename :: s.restTokens)) := rfl

theorem wrapper_eq : s.wrapper = (ascii "package " ++ (namespaceRoot s.cls ++ ascii "::")) ++
    (lastPart s.filename ++ (opening ++ (s.scriptName ++ 39 :: s.rest))) := by
  have hopening : ascii ";" ++ (ascii "sub handler \x7b" ++ ascii "local $0 = '") = opening := by
    decide
  have hend : ∀ text : Bytes, ascii "';" ++ text = 39 :: 59 :: text := fun text => rfl
  rw [wrapper, makeNamespace_eq, rest, ← hopening, ← hend]
  simp only [List.append_assoc]

/-- What comes before the last part of the name, from behind its first byte. -/
def rootTail (cls : Bytes) : Bytes := ascii "odPerl::ROOT::" ++ (cls ++ ascii "::")

theorem root_eq (cls : Bytes) : namespaceRoot cls ++ ascii "::" = 77 :: rootTail cls := by
  have hroot : ascii "ModPerl::ROOT" ++ ascii "::" = 77 :: ascii "odPerl::ROOT::" := by decide
  rw [namespaceRoot, hroot, rootTail, List.append_assoc]
  rfl

theorem isNameTail_rootTail {cls : Bytes} (hcls : isNameTail cls = true) :
    isNameTail (rootTail cls) = true :=
  isNameTail_append (by decide) (isNameTail_append hcls (by decide))

theorem feed_package : feed Lexer.step .between (ascii "package " ++ [77]) =
    some ([.word (ascii "package")], .word [77]) := by decide +kernel

theorem feed_root {cls : Bytes} (hcls : isNameTail cls = true)
    (hshort : (namespaceRoot cls ++ ascii "::").length ≤ maxWord) :
    feed Lexer.step .between (ascii "package " ++ (namespaceRoot cls ++ ascii "::")) =
      some ([.word (ascii "package")], .word (namespaceRoot cls ++ ascii "::")) := by
  rw [root_eq] at hshort ⊢
  have hfits : ([77] : Bytes).length + (rootTail cls).length ≤ maxWord := by
    rw [List.length_cons] at hshort
    rw [List.length_singleton]
    omega
  rw [List.append_cons]
  exact feed_append_eq_some_of feed_package (feed_name_of (isNameTail_rootTail hcls) hfits)

/-- What comes before the last part is not too long, if it was read. -/
theorem root_short {cls : Bytes} {mode : LexMode} (hcls : isNameTail cls = true)
    (h : feed Lexer.step .between
      (ascii "package " ++ (namespaceRoot cls ++ ascii "::") ++ tail) = some (toks, mode)) :
    (namespaceRoot cls ++ ascii "::").length ≤ maxWord := by
  rw [root_eq, List.append_cons, List.append_assoc,
    feed_append_eq_some_iff feed_package] at h
  obtain ⟨rest, h, -⟩ := h
  have hle := length_le_of_feed (isNameTail_rootTail hcls) (by decide) h
  rw [root_eq, List.length_cons]
  rw [List.length_singleton] at hle
  omega

theorem feed_opening (acc : Bytes) :
    feed Lexer.step (.word acc) opening = some ([.word acc] ++ openingTokens, .quoted []) := by
  have hfirst : Lexer.step (.word acc) 59 = some ([.word acc, .punct 59], .between) := rfl
  have hmore : feed Lexer.step .between (ascii "sub handler \x7blocal $0 = '") =
      some (openingTokens.tail, .quoted []) := by decide +kernel
  rw [opening, feed_cons_of hfirst, hmore]
  rfl

theorem feed_nph : feed Lexer.step .between s.nph = some (if s.isNph then
      [.scalar (ascii "_"), .punct 91, .number (ascii "0"), .punct 93, .punct 45, .punct 62,
        .word (ascii "assbackwards"), .punct 40, .number (ascii "1"), .punct 41, .punct 59]
    else [], .between) := by
  rw [nph]
  split_ifs
  · decide +kernel
  · rfl

theorem feed_switches (switches : Bytes) :
    feed Lexer.step .between (switches.flatMap switchCode) =
      some (switches.flatMap switchTokens, .between) := by
  induction switches with
  | nil => rfl
  | cons switch switches ih =>
      have hswitch : feed Lexer.step .between (switchCode switch) =
          some (switchTokens switch, .between) := by
        rw [switchCode, switchTokens]
        split_ifs
        · decide +kernel
        · rfl
      exact feed_append_eq_some_of hswitch ih

theorem feed_getMarkLine (h : 10 ∉ s.filename) : feed Lexer.step .between s.getMarkLine =
    some (if s.markLine then [.comment (ascii "line 1 " ++ s.filename)] else [], .between) := by
  rw [getMarkLine]
  split_ifs
  · have hline : feed Lexer.step .between (ascii "\n#line 1 ") =
        some ([], .comment (ascii "line 1 ")) := by decide +kernel
    have hend : ∀ acc, feed Lexer.step (.comment acc) (ascii "\n") =
        some ([.comment acc], .between) := fun acc => rfl
    exact feed_append_eq_some_of (feed_append_eq_some_of hline (feed_comment h)) (hend _)
  · rfl

theorem feed_rest (h : 10 ∉ s.filename) :
    feed Lexer.step .between s.rest = some (s.restTokens, .between) := by
  have hfirst : Lexer.step .between 59 = some ([.punct 59], .between) := rfl
  have hshebang : feed Lexer.step .between (shebangToPerl s.code) =
      some ((shebangSwitches s.code).flatMap switchTokens, .between) := feed_switches _
  rw [rest, feed_cons_of hfirst, feed_append_eq_some_of feed_nph
    (feed_append_eq_some_of hshebang (feed_getMarkLine h)), restTokens, ← List.append_assoc]
  rfl

end Tokens

theorem inert_of_harmless {s : RegistryScript} (hcls : isNameTail s.cls = true)
    (hne : s.filename ≠ []) (h : s.Harmless) : s.Inert := by
  have hscript : s.scriptName = s.filename := by
    rw [scriptName]
    split_ifs with htrue
    · rfl
    · have hzero : s.filename = ascii "0" := by
        simpa [truthy, hne] using htrue
      rw [hzero, h.zero hzero]
  have hnewline : 10 ∉ s.filename := fun hmem => absurd (h.bytes 10 hmem) (by decide)
  have hident := isIdent_lastPart h.bytes h.component
  refine ⟨lastPart s.filename, hident, ?_⟩
  have hstring : feed Lexer.step (.quoted []) (s.filename ++ 39 :: s.rest) =
      some (.str s.filename :: s.restTokens, .between) := by
    rw [List.append_cons]
    exact feed_append_eq_some_of (feed_literal h.literal) (feed_rest hnewline)
  rw [wrapper_eq, hscript]
  have hshort := h.short
  rw [makeNamespace_eq, List.length_append] at hshort
  have hroot : (namespaceRoot s.cls ++ ascii "::").length ≤ maxWord := by omega
  have hword : feed Lexer.step (.word (namespaceRoot s.cls ++ ascii "::")) (lastPart s.filename) =
      some ([], .word (namespaceRoot s.cls ++ ascii "::" ++ lastPart s.filename)) :=
    feed_name_of (isNameTail_of_all (Bool.and_eq_true_iff.mp hident).1)
      hshort
  rw [intendedTokens_eq]
  refine feed_append_eq_some_of (feed_root hcls hroot) ?_
  have hopening := feed_append_eq_some_of
    (feed_opening (namespaceRoot s.cls ++ ascii "::" ++ lastPart s.filename)) hstring
  have hname := feed_append_eq_some_of hword hopening
  rwa [List.nil_append, List.append_assoc [_]] at hname

/-- A word or a number has begun. -/
def Begun : LexMode → Prop
  | .word _ | .colon _ | .number _ => True
  | _ => False

theorem step_begun {mode mode' : LexMode} {b : UInt8} {out : List PerlToken} (hmode : Begun mode)
    (h : Lexer.step mode b = some (out, mode')) :
    (out = [] ∧ Begun mode') ∨ ∃ token rest, out = token :: rest ∧ ∀ c, token ≠ .punct c := by
  have hafter : ∀ token, afterToken token b = some (out, mode') →
      ∃ rest, out = token :: rest := by
    intro token hafter
    obtain ⟨⟨rest, _⟩, -, heq⟩ := Option.map_eq_some_iff.mp hafter
    cases heq
    exact ⟨rest, rfl⟩
  cases mode with
  | word acc =>
      rw [Lexer.step] at h
      split_ifs at h
      · cases h
        exact .inl ⟨rfl, trivial⟩
      · cases h
        exact .inl ⟨rfl, trivial⟩
      · obtain ⟨rest, rfl⟩ := hafter _ h
        exact .inr ⟨_, rest, rfl, fun _ heq => by cases heq⟩
  | colon acc =>
      rw [Lexer.step] at h
      split_ifs at h
      cases h
      exact .inl ⟨rfl, trivial⟩
  | number acc =>
      rw [Lexer.step] at h
      split_ifs at h
      · cases h
        exact .inl ⟨rfl, trivial⟩
      · obtain ⟨rest, rfl⟩ := hafter _ h
        exact .inr ⟨_, rest, rfl, fun _ heq => by cases heq⟩
  | _ => exact hmode.elim

/-- No punctuation can come next where a word or a number has begun. -/
theorem not_punct_of_begun {mode : LexMode} {text : Bytes} {c : UInt8} {toks : List PerlToken}
    (hmode : Begun mode) : feed Lexer.step mode text ≠ some (.punct c :: toks, .between) := by
  intro h
  obtain ⟨token, rest, heq, htoken⟩ :=
    head_of_feed (fun _ _ _ _ => step_begun) hmode (id : ¬Begun .between) h
  exact htoken c (List.cons.inj heq).1.symm

/-- A byte of a name begins a word or a number. -/
theorem enter_identByte {c : UInt8} (h : identByte c = true) :
    ∃ mode, Lexer.step .between c = some ([], mode) ∧ Begun mode := by
  have henter : enter c = some ([], if isDigit c then .number [c] else .word [c]) := by
    revert h
    exact forall_byte (p := fun c => identByte c = true →
      enter c = some ([], if isDigit c then .number [c] else .word [c])) (by decide +kernel) c
  refine ⟨_, henter, ?_⟩
  split_ifs <;> trivial

/-- With a blank in its last part the name of the package does not end at the `;`. -/
theorem bytes_of_feed {filename acc tail : Bytes} {token : PerlToken} {toks : List PerlToken}
    {c : UInt8} (hacc : acc.length ≤ maxWord)
    (h : feed Lexer.step (.word acc) (lastPart filename ++ tail) =
      some (token :: .punct c :: toks, .between)) : ∀ b ∈ filename, 16 ≤ b := by
  by_contra hbytes
  have hlt : ∃ b ∈ lead (flatPath filename), b < 16 := by
    by_contra hlt
    push Not at hlt
    exact hbytes (forall_flatPath_iff.mp (forall_lead_iff.mp fun b hb =>
      UInt8.not_lt.mp (hlt b hb)))
  obtain ⟨p, c', q, hlast, hp, hc'⟩ := exists_blank_escape hlt
  have hname := isNameTail_of_all hp
  rw [lastPart, hlast, List.append_assoc] at h
  rw [feed_append_eq_some_iff (feed_name_of hname (length_le_of_feed hname hacc h))] at h
  obtain ⟨rest, h, heq⟩ := h
  rw [List.nil_append] at heq
  subst heq
  obtain ⟨first, mode, rest, hblank, hrest, heq⟩ := feed_cons_eq_some_iff.mp h
  have hstep : Lexer.step (.word (acc ++ p)) 32 = some ([.word (acc ++ p)], .between) := rfl
  cases hstep.symm.trans hblank
  obtain ⟨mode, hmode, hbegun⟩ := enter_identByte hc'
  obtain rfl : .punct c :: toks = rest := (List.cons.inj heq).2
  have hrest' : feed Lexer.step .between (c' :: (q ++ tail)) =
      some (.punct c :: toks, .between) := hrest
  rw [feed_cons_silent hmode] at hrest'
  exact not_punct_of_begun hbegun hrest'

/-- No token behind the value of `$0` has a quote if the name of the file has none. -/
theorem not_hasQuote_restTokens {s : RegistryScript} (hquote : 39 ∉ s.filename) :
    ∀ token ∈ s.restTokens, ¬HasQuote token := by
  have hnph : ∀ token ∈ ([.scalar (ascii "_"), .punct 91, .number (ascii "0"), .punct 93,
      .punct 45, .punct 62, .word (ascii "assbackwards"), .punct 40, .number (ascii "1"),
      .punct 41, .punct 59] : List PerlToken), ¬HasQuote token := by
    simp [HasQuote]
  have hswitch : ∀ switch, ∀ token ∈ switchTokens switch, ¬HasQuote token := by
    intro switch
    rw [switchTokens]
    split_ifs <;> simp [HasQuote]
  have hline : 39 ∉ ascii "line 1 " ++ s.filename := by
    rw [List.mem_append, not_or]
    exact ⟨by decide, hquote⟩
  intro token htoken
  rw [restTokens, List.mem_append, List.mem_append, List.mem_cons] at htoken
  rcases htoken with ((rfl | htoken) | htoken) | htoken
  · exact id
  · split_ifs at htoken
    · exact hnph token htoken
    · cases htoken
  · obtain ⟨switch, -, htoken⟩ := List.mem_flatMap.mp htoken
    exact hswitch switch token htoken
  · split_ifs at htoken
    · rw [List.mem_singleton.mp htoken]
      exact hline
    · cases htoken

theorem harmless_of_inert {s : RegistryScript} (hcls : isNameTail s.cls = true)
    (hne : s.filename ≠ []) (h : s.Inert) : s.Harmless := by
  obtain ⟨ident, hident, hfeed⟩ := h
  rw [wrapper_eq, intendedTokens_eq] at hfeed
  have hroot := root_short hcls hfeed
  rw [feed_append_eq_some_iff (feed_root hcls hroot)] at hfeed
  obtain ⟨toks, hfeed, heq⟩ := hfeed
  rw [List.append_cancel_left_eq] at heq
  subst heq
  have hbytes : ∀ b ∈ s.filename, 16 ≤ b := bytes_of_feed hroot hfeed
  have hall : (lastPart s.filename).all identByte = true :=
    all_identByte_escape (forall_lead_iff.mpr (forall_flatPath_iff.mpr hbytes))
  have hname := isNameTail_of_all hall
  have hle := length_le_of_feed hname hroot hfeed
  have hshort : (makeNamespace s.cls (namespaceFromFilename s.filename)).length ≤ maxWord := by
    rwa [makeNamespace_eq, List.length_append]
  rw [feed_append_eq_some_iff (feed_name_of hname hle)] at hfeed
  obtain ⟨toks, hfeed, heq⟩ := hfeed
  rw [List.nil_append] at heq
  subst heq
  rw [feed_append_eq_some_iff (feed_opening _)] at hfeed
  obtain ⟨toks, hfeed, heq⟩ := hfeed
  obtain ⟨hword, heq⟩ := List.cons.inj (heq.trans (List.append_assoc ..))
  obtain rfl : .str s.filename :: s.restTokens = toks := List.append_cancel_left heq
  rw [PerlToken.word.injEq, List.append_cancel_left_eq] at hword
  have hcomponent : ∃ b ∈ s.filename, b ≠ slash := by
    rw [← flatPath_ne_nil_iff]
    intro hnil
    rw [hword, lastPart, hnil] at hident
    exact absurd hident (by decide)
  by_cases htrue : truthy s.filename = true
  · rw [scriptName, if_pos htrue] at hfeed
    refine ⟨hbytes, hcomponent, literal_of_feed_quoted hfeed, fun hzero => ?_, hshort⟩
    rw [hzero] at htrue
    exact absurd htrue (by decide)
  · have hzero : s.filename = ascii "0" := by
      simpa [truthy, hne] using htrue
    have hplain : 39 ∉ s.filename ∧ 92 ∉ s.filename := by
      rw [hzero]
      decide
    rw [scriptName, if_neg htrue] at hfeed
    have hprocess := eq_of_feed_quoted hplain (not_hasQuote_restTokens hplain.1) hfeed
    refine ⟨hbytes, hcomponent, ?_, fun _ => hprocess.trans hzero, hshort⟩
    rw [hzero]
    exact literal_cons_iff.mpr ⟨by decide, fun heq => absurd heq (by decide), literal_nil⟩

/-- The text before the code is the intended statements, and the code begins behind them,
exactly if the name of the file is the same in all three places. -/
theorem wrapper_inert_iff (s : RegistryScript) (hcls : isNameTail s.cls = true)
    (hne : s.filename ≠ []) : s.Inert ↔ s.Harmless :=
  ⟨harmless_of_inert hcls hne, inert_of_harmless hcls hne⟩

/-- Then the code of the script means what it means alone. -/
theorem lex_evalText {s : RegistryScript} (h : s.Inert) : ∃ ident, isIdent ident = true ∧
    lex s.evalText = (lex (stripEndDataSegment true s.code ++ ascii "\n\x7d")).map
      (s.intendedTokens ident ++ ·) := by
  obtain ⟨ident, hident, hfeed⟩ := h
  refine ⟨ident, hident, ?_⟩
  rw [evalText, List.append_assoc]
  exact lex_append_of hfeed

/-- A script that sends its own headers, with `-w`. -/
def nphScript : RegistryScript :=
  ⟨ascii "/www/nph-it.pl", ascii "ModPerl::Registry", ascii "httpd", true,
    ascii "#!/usr/bin/perl -w\nprint 1;"⟩

theorem wrapper_inert_nph : nphScript.Inert := by
  refine (wrapper_inert_iff nphScript (by decide) (by decide)).mpr ⟨?_, ?_, ?_, ?_, ?_⟩
  · have hall : nphScript.filename.all (fun b => 16 ≤ b) = true := by decide
    exact fun b hb => of_decide_eq_true (List.all_eq_true.mp hall b hb)
  · exact ⟨119, by decide, by decide⟩
  · refine ⟨by decide, fun hback => ?_, by decide⟩
    exact absurd (hback.subset List.mem_cons_self) (by decide)
  · exact fun heq => absurd heq (by decide)
  · decide +kernel

/-- A file whose name ends the string: what follows is code. -/
theorem wrapper_inert_fails : ¬∀ s : RegistryScript, isNameTail s.cls = true → s.filename ≠ [] →
    s.Inert := by
  intro hall
  let s : RegistryScript :=
    ⟨ascii "/www/it's.pl", ascii "ModPerl::Registry", ascii "httpd", true, ascii "print 1;"⟩
  have hliteral := (harmless_of_inert (s := s) (by decide) (by decide)
    (hall s (by decide) (by decide))).literal
  exact hliteral.1 (by decide)

end RegistryScript

end ModPerl
