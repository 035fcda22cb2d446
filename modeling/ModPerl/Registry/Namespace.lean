import ModPerl.Httpd
import ModPerl.Library.Escape
import Mathlib.Data.List.DropRight

/-!
# The packages of the Registry

Each script is compiled into a package of its own, whose name is made from the name of
its file or from its URI.  For a file, the components of the path are joined with `_`;
for a URI, the name of the virtual host may come first, and trailing slashes become
`/__INDEX__`.  Then each byte that Perl does not allow in an identifier is replaced by
`_` and two hexadecimal digits, and a digit in front gets a `_`.

Neither `_` nor what looks like an escape is escaped itself.  What two inputs have in
common when they give the same package is said with `Escape.Alike`.

The functions are those of `ModPerl::RegistryCooker`, with `File::Spec::Unix`.
-/

namespace ModPerl

open Escape

namespace Registry

/-- `/` -/
def slash : UInt8 := 47

/-- `_` -/
def underscore : UInt8 := 95

/-- `\\d` -/
def isDigit (b : UInt8) : Bool := 48 ≤ b && b ≤ 57

/-- `[A-Za-z0-9_]` -/
def isWord (b : UInt8) : Bool :=
  65 ≤ b && b ≤ 90 || 97 ≤ b && b ≤ 122 || isDigit b || b = underscore

/-- A digit of `%x`. -/
def hexDigit (n : UInt8) : UInt8 := if n < 10 then 48 + n else 87 + n

/-- The first of the two places of `%2x`: a space where it is not needed. -/
def hexHigh (b : UInt8) : UInt8 := if b < 16 then 32 else hexDigit (b / 16)

/-- The second of the two places of `%2x`. -/
def hexLow (b : UInt8) : UInt8 := hexDigit (b % 16)

/-- What a digit of `%2x` stands for. -/
def hexValue (b : UInt8) : UInt8 := if b = 32 then 0 else if b < 58 then b - 48 else b - 87

theorem forall_byte {p : UInt8 → Prop} (h : ∀ n : Fin 256, p (UInt8.ofFin n)) (b : UInt8) :
    p b := by
  have hb := h b.toFin
  rwa [UInt8.ofFin_toFin] at hb

theorem hexValue_hex (b : UInt8) : 16 * hexValue (hexHigh b) + hexValue (hexLow b) = b :=
  forall_byte (p := fun b => 16 * hexValue (hexHigh b) + hexValue (hexLow b) = b)
    (by decide +kernel) b

/-- `s/([^A-Za-z0-9_])/sprintf("_%2x", unpack("C", $1))/eg` -/
def identifierCode : Code UInt8 where
  plain := isWord
  mark := underscore
  hi := hexHigh
  lo := hexLow
  plain_mark := by decide
  hi_ne_mark := forall_byte (by decide +kernel)
  lo_ne_mark := forall_byte (by decide +kernel)
  inj := fun c d hhi hlo => by rw [← hexValue_hex c, ← hexValue_hex d, hhi, hlo]

/-- `s/^(\\d)/_$1/` -/
def prefixDigit (package : Bytes) : Bytes :=
  if package.head?.any isDigit then underscore :: package else package

/-- `namespace_root` -/
def namespaceRoot (cls : Bytes) : Bytes := ascii "ModPerl::ROOT" ++ ascii "::" ++ cls

/-- `make_namespace`, of what `namespace_from` returns. -/
def makeNamespace (cls package : Bytes) : Bytes :=
  namespaceRoot cls ++ ascii "::" ++ prefixDigit (escape identifierCode package)

/-! ## From the name of the file -/

/-- `splitpath`: the volume, the directories and the file.  A last `.` or `..` is a
directory. -/
def splitpath (path : Bytes) : Bytes × Bytes × Bytes :=
  let dirs := path.rdropWhile (· ≠ slash)
  let file := path.rtakeWhile (· ≠ slash)
  if dirs ≠ [] ∧ (file = ascii "." ∨ file = ascii "..") then ([], path, []) else ([], dirs, file)

/-- `splitdir` -/
def splitdir (dirs : Bytes) : List Bytes := if dirs = [] then [] else dirs.splitOn slash

/-- `namespace_from_filename` -/
def namespaceFromFilename (filename : Bytes) : Bytes :=
  let (volume, dirs, file) := splitpath filename
  [underscore].intercalate (([volume] ++ splitdir dirs ++ [file]).filter (· ≠ []))

/-! ## From the URI -/

/-- What `namespace_from_uri` reads of the request and its server. -/
structure UriReq where
  uri : Bytes
  pathInfo : Bytes
  isVirtual : Bool
  /-- `get_server_name` -/
  serverName : Bytes
  deriving DecidableEq

/-- What Perl takes for true. -/
def truthy (s : Bytes) : Bool := s ≠ [] && s ≠ ascii "0"

/-- `/\\Q$path_info\\E$/`: the end of the string, or a newline before it. -/
def endsIn (s tail : Bytes) : Bool :=
  tail.isSuffixOf s || s.getLast? = some 10 && tail.isSuffixOf s.dropLast

/-- The URI without the path info. -/
def scriptName (r : UriReq) : Bytes :=
  if truthy r.pathInfo && endsIn r.uri r.pathInfo then
    r.uri.take (r.uri.length - r.pathInfo.length)
  else r.uri

/-- `s:/+$:/__INDEX__:` -/
def indexSubst (s : Bytes) : Bytes :=
  let newline := if s.getLast? = some 10 then [10] else []
  let s' := if s.getLast? = some 10 then s.dropLast else s
  if s'.getLast? = some slash then
    s'.rdropWhile (· = slash) ++ ascii "/__INDEX__" ++ newline
  else s

/-- The script with its host: the host counts under `$NameWithVirtualHost`. -/
def hostAndScript (nameWithVirtualHost : Bool) (r : UriReq) : Bytes :=
  if nameWithVirtualHost && r.isVirtual && truthy r.serverName then
    r.serverName ++ scriptName r
  else scriptName r

/-- `namespace_from_uri` -/
def namespaceFromUri (nameWithVirtualHost : Bool) (r : UriReq) : Bytes :=
  indexSubst (hostAndScript nameWithVirtualHost r)

/-! ## What gives the same package -/

/-- A digit in front gets a `_`. -/
def lead (text : Bytes) : Bytes :=
  if text.head?.any isDigit then underscore :: text else text

/-- The path without empty components, with `_` for each slash. -/
def flatPath (path : Bytes) : Bytes :=
  ([slash].intercalate ((path.splitOn slash).filter (· ≠ []))).map fun b =>
    if b = slash then underscore else b

/-- What stands for the trailing slashes of a URI, if it has any: they end it, or a newline
follows them. -/
def slashesTail (s : Bytes) : Option Bytes :=
  if s.getLast? = some slash then some (ascii "/__INDEX__")
  else if s.getLast? = some 10 ∧ s.dropLast.getLast? = some slash then
    some (ascii "/__INDEX__" ++ [10])
  else none

/-- The URI before its trailing slashes. -/
def beforeSlashes (s : Bytes) : Bytes :=
  (if s.getLast? = some 10 then s.dropLast else s).rdropWhile (· = slash)

/-- The texts are the same, but for bytes that one of them spells out, and for a `_` before a
digit in front. -/
def SameText (u v : Bytes) : Prop := Alike identifierCode (lead u) (lead v)

/-- Trailing slashes are all one, and they are the same as `/__INDEX__`. -/
def SameUri (s s' : Bytes) : Prop :=
  match slashesTail s, slashesTail s' with
  | none, none => SameText s s'
  | some tail, none => SameText (beforeSlashes s ++ tail) s'
  | none, some tail' => SameText s (beforeSlashes s' ++ tail')
  | some tail, some tail' => tail = tail' ∧ SameText (beforeSlashes s) (beforeSlashes s')

variable {cls u v : Bytes}

theorem prefixDigit_escape : prefixDigit (escape identifierCode u) =
    escape identifierCode (lead u) := by
  have hmark : escape identifierCode (underscore :: u) =
      underscore :: escape identifierCode u := escape_cons_plain identifierCode.plain_mark
  cases u with
  | nil => rfl
  | cons c u =>
      cases hc : identifierCode.plain c with
      | true =>
          rw [prefixDigit, escape_cons_plain hc]
          by_cases hdigit : isDigit c = true
          · have hlead : lead (c :: u) = underscore :: c :: u := if_pos hdigit
            rw [hlead, hmark, escape_cons_plain hc]
            exact if_pos hdigit
          · have hlead : lead (c :: u) = c :: u := if_neg hdigit
            rw [hlead, escape_cons_plain hc]
            exact if_neg hdigit
      | false =>
          have hdigit : ¬isDigit c = true := by
            intro hdigit
            have hword : isWord c = true := by simp [isWord, hdigit]
            exact Bool.false_ne_true (hc.symm.trans hword)
          have hlead : lead (c :: u) = c :: u := if_neg hdigit
          rw [prefixDigit, hlead, escape_cons_other hc]
          exact if_neg (show ¬isDigit underscore = true by decide)

/-- The packages are the same exactly if the texts are alike, but for spelled out bytes. -/
theorem makeNamespace_eq_iff : makeNamespace cls u = makeNamespace cls v ↔
    SameText u v := by
  rw [SameText, makeNamespace, makeNamespace, List.append_cancel_left_eq, prefixDigit_escape,
    prefixDigit_escape, escape_eq_escape_iff]

/-- The volume, the directories and the file have the components of the path. -/
theorem components_splitpath {path : Bytes} :
    (([(splitpath path).1] ++ splitdir (splitpath path).2.1 ++ [(splitpath path).2.2]).filter
      (· ≠ [])) = (path.splitOn slash).filter (· ≠ []) := by
  have hjoin : path.rdropWhile (· ≠ slash) ++ path.rtakeWhile (· ≠ slash) = path :=
    List.rdropWhile_append_rtakeWhile
  have hfile : slash ∉ path.rtakeWhile (· ≠ slash) := fun hmem => by
    simpa using List.mem_rtakeWhile_imp hmem
  rw [splitpath]
  split_ifs with hdot
  · have hne : path ≠ [] := by
      rintro rfl
      exact hdot.1 rfl
    simp [splitdir, hne]
  · -- the file is what follows the last slash
    by_cases hdirs : path.rdropWhile (· ≠ slash) = []
    · rw [hdirs, List.nil_append] at hjoin
      rw [hdirs, hjoin]
      rw [hjoin] at hfile
      simp [splitdir, List.splitOn_eq_singleton hfile]
    · have hlast := List.rdropWhile_last_not (· ≠ slash) path hdirs
      have hslash : (path.rdropWhile (· ≠ slash)).getLast hdirs = slash := by
        simpa using hlast
      obtain ⟨d, hd⟩ : ∃ d, path.rdropWhile (· ≠ slash) = d ++ [slash] := by
        have h := (List.dropLast_append_getLast hdirs).symm
        rw [hslash] at h
        exact ⟨_, h⟩
      have hpath : path = d ++ slash :: path.rtakeWhile (· ≠ slash) := by
        rw [hd, List.append_assoc] at hjoin
        exact hjoin.symm
      have hsplit : path.splitOn slash = d.splitOn slash ++ [path.rtakeWhile (· ≠ slash)] := by
        conv_lhs => rw [hpath]
        rw [List.splitOn_append_cons_of_beq _ _ (by simp), List.splitOn_eq_singleton hfile]
      have hdirsplit : (d ++ [slash]).splitOn slash = d.splitOn slash ++ [[]] := by
        rw [List.splitOn_append_cons_of_beq _ _ (by simp), List.splitOn_nil]
      rw [hsplit, hd, splitdir, if_neg (by simp), hdirsplit]
      simp

/-- Joining with `_` is joining with slashes, and then writing `_` for them. -/
theorem map_intercalate_slash {parts : List Bytes} (h : ∀ part ∈ parts, slash ∉ part) :
    ([slash].intercalate parts).map (fun b => if b = slash then underscore else b) =
      [underscore].intercalate parts := by
  have hpart : ∀ part : Bytes, slash ∉ part →
      part.map (fun b => if b = slash then underscore else b) = part := by
    intro part hpart
    have hid : part.map (fun b => if b = slash then underscore else b) = part.map id :=
      List.map_congr_left fun b hb => by
        have hne : b ≠ slash := fun heq => hpart (heq ▸ hb)
        simp [hne]
    rw [hid, List.map_id]
  induction parts with
  | nil => rfl
  | cons part parts ih =>
      have hrest : ∀ part ∈ parts, slash ∉ part := fun p hp => h p (List.mem_cons_of_mem part hp)
      cases parts with
      | nil => simp [hpart part (h part List.mem_cons_self)]
      | cons part' parts =>
          rw [List.intercalate_cons_cons, List.intercalate_cons_cons, List.map_append,
            List.map_append, ih hrest, hpart part (h part List.mem_cons_self)]
          rfl

theorem namespaceFromFilename_eq {filename : Bytes} :
    namespaceFromFilename filename = flatPath filename := by
  rw [flatPath, map_intercalate_slash, ← components_splitpath]
  · rfl
  · exact fun part hpart => notMem_of_mem_splitOn (List.mem_of_mem_filter hpart)

theorem indexSubst_eq {s : Bytes} : indexSubst s =
    match slashesTail s with
    | none => s
    | some tail => beforeSlashes s ++ tail := by
  rw [indexSubst, slashesTail, beforeSlashes]
  by_cases hnewline : s.getLast? = some 10
  · have hslash : s.getLast? ≠ some slash := by rw [hnewline]; decide
    by_cases hbefore : s.dropLast.getLast? = some slash
    · simp [hnewline, hbefore, show (10 : UInt8) ≠ slash by decide]
    · simp [hnewline, hbefore, show (10 : UInt8) ≠ slash by decide]
  · by_cases hslash : s.getLast? = some slash
    · simp [hslash, show slash ≠ (10 : UInt8) by decide]
    · simp [hnewline, hslash]

theorem slashesTail_eq_or {s tail : Bytes} (h : slashesTail s = some tail) :
    tail = ascii "/__INDEX__" ∨ tail = ascii "/__INDEX__" ++ [10] := by
  rw [slashesTail] at h
  split_ifs at h
  · exact .inl (Option.some.inj h).symm
  · exact .inr (Option.some.inj h).symm

/-- What is appended for the slashes does not start with a digit. -/
theorem lead_append_tail {s tail : Bytes} (h : slashesTail s = some tail) :
    lead (u ++ tail) = lead u ++ tail := by
  cases u with
  | nil => rcases slashesTail_eq_or h with rfl | rfl <;> decide
  | cons b u =>
      by_cases hdigit : isDigit b = true
      · rw [lead, lead, if_pos (by exact hdigit), if_pos (by exact hdigit)]
        rfl
      · rw [lead, lead, if_neg (by exact hdigit), if_neg (by exact hdigit)]

/-- The newline after the slashes is not lost. -/
theorem sameText_append_iff {s s' tail tail' : Bytes} (h : slashesTail s = some tail)
    (h' : slashesTail s' = some tail') :
    SameText (u ++ tail) (v ++ tail') ↔ tail = tail' ∧ SameText u v := by
  have hlast : ∀ a b : Bytes, ¬Alike identifierCode (a ++ ascii "/__INDEX__")
      (b ++ (ascii "/__INDEX__" ++ [10])) := by
    intro a b halike
    have hindex : ascii "/__INDEX__" = ascii "/__INDEX_" ++ [underscore] := by decide
    rw [← List.append_assoc, hindex, ← List.append_assoc a] at halike
    exact absurd halike.getLast_escapeLetter (by decide)
  rw [SameText, SameText, lead_append_tail h, lead_append_tail h']
  rcases slashesTail_eq_or h with rfl | rfl <;> rcases slashesTail_eq_or h' with rfl | rfl
  · rw [alike_append_right_iff, and_iff_right rfl]
  · exact iff_of_false (hlast _ _) fun hand => absurd hand.1 (by decide)
  · exact iff_of_false (fun halike => hlast _ _ halike.symm) fun hand => absurd hand.1 (by decide)
  · rw [alike_append_right_iff, and_iff_right rfl]

theorem sameText_indexSubst_iff {s s' : Bytes} :
    SameText (indexSubst s) (indexSubst s') ↔ SameUri s s' := by
  rw [indexSubst_eq, indexSubst_eq, SameUri]
  cases h : slashesTail s with
  | none => cases slashesTail s' <;> rfl
  | some tail =>
      cases h' : slashesTail s' with
      | none => rfl
      | some tail' => exact sameText_append_iff h h'

/-- The virtual host of a request. -/
def UriReq.vhost (r : UriReq) : Option Bytes := if r.isVirtual then some r.serverName else none

/-- Two files get different packages unless their paths, without empty components and with `_`
for each slash, are the same text, but for bytes that are spelled out as `_` and two digits in
one of them, and for a `_` before a digit in front.  The same holds of two pairs of a virtual
host and a URI, for the text with the host in front, where trailing slashes are the same as
`/__INDEX__`. -/
theorem namespaces_differ_iff (cls : Bytes) :
    (∀ x y, (x ≠ y → makeNamespace cls (namespaceFromFilename x) ≠
        makeNamespace cls (namespaceFromFilename y)) ↔
      x = y ∨ ¬SameText (flatPath x) (flatPath y)) ∧
    ∀ nameWithVirtualHost r r', ((r.vhost, r.uri) ≠ (r'.vhost, r'.uri) →
        makeNamespace cls (namespaceFromUri nameWithVirtualHost r) ≠
          makeNamespace cls (namespaceFromUri nameWithVirtualHost r')) ↔
      (r.vhost, r.uri) = (r'.vhost, r'.uri) ∨
        ¬SameUri (hostAndScript nameWithVirtualHost r)
          (hostAndScript nameWithVirtualHost r') := by
  refine ⟨fun x y => ?_, fun nameWithVirtualHost r r' => ?_⟩
  · rw [namespaceFromFilename_eq, namespaceFromFilename_eq, ne_eq, ne_eq, makeNamespace_eq_iff,
      ← or_iff_not_imp_left]
  · rw [namespaceFromUri, namespaceFromUri, ne_eq, ne_eq, makeNamespace_eq_iff,
      sameText_indexSubst_iff, ← or_iff_not_imp_left]

/-- `/a/b` and `/a_b` are compiled into one package. -/
theorem namespace_collision : ¬∀ x y : Bytes, x ≠ y →
    makeNamespace (ascii "ModPerl::Registry") (namespaceFromFilename x) ≠
      makeNamespace (ascii "ModPerl::Registry") (namespaceFromFilename y) := by
  intro h
  refine h (ascii "/a/b") (ascii "/a_b") (by decide) ?_
  rw [namespaceFromFilename_eq, namespaceFromFilename_eq]
  exact congrArg (makeNamespace _) (by decide)

end Registry

end ModPerl
