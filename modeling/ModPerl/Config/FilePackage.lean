import ModPerl.Handler.Mgv
import ModPerl.Config.SectionsDump

/-!
# The package of a configuration file

A `<Perl>` section is compiled into a package of its own, and the name of its file is a
part of the name of the package.  `modperl_file2package` skips what cannot begin the name,
finds out how long it gets, and copies: path delimiters become `::`, several in a row count
as one, and at the end there are none; each other byte that is not allowed becomes `_`.
The first of the three loops does not look for the end of the file name.

The functions are those of `modperl_util.c`.  `isalnum` is that of the C library, which
depends on the locale.  A result of `none` is an access outside of the file name or of the
buffer, or a buffer of negative length.
-/

namespace ModPerl

/-- `MP_VALID_PATH_DELIM` -/
def validPathDelim (c : UInt8) : Bool := c = 47 || c = 92

/-- `isalnum` of the C locale. -/
def asciiAlnum (c : UInt8) : Bool :=
  48 ≤ c && c ≤ 57 || 65 ≤ c && c ≤ 90 || 97 ≤ c && c ≤ 122

section

variable (isalnum : UInt8 → Bool)

/-- `MP_VALID_PKG_CHAR` -/
def validPkgChar (c : UInt8) : Bool := isalnum c || c = 95

/-- The first loop of `modperl_file2package`: the rest of the file name, and `len`. -/
def skipPrefix : Bytes → Int → Option (Bytes × Int)
  | [], _ => none
  | c :: file, len =>
      if validPkgChar isalnum c then some (c :: file, len) else skipPrefix file (i32 (len - 1))

/-- The second loop. -/
def countDelims : Bytes → Int → Int
  | [], len => len
  | c :: f, len => countDelims f (if validPathDelim c then i32 (len + 1) else len)

/-- A byte is written to a buffer of this length, behind those that are there. -/
def put (len : ℕ) (package : Bytes) (c : UInt8) : Option Bytes :=
  if package.length < len then some (package ++ [c]) else none

/-- The third loop. -/
def copyLoop (len : ℕ) : Bytes → Bytes → Option Bytes
  | [], package => some package
  | c :: file, package =>
      if validPkgChar isalnum c then
        (put len package c).bind fun package => copyLoop len file package
      else if validPathDelim c then
        if file.dropWhile validPathDelim ≠ [] then
          ((put len package 58).bind fun package => put len package 58).bind fun package =>
            copyLoop len (file.dropWhile validPathDelim) package
        else some package
      else (put len package 95).bind fun package => copyLoop len file package
termination_by file => file.length
decreasing_by
  all_goals simp only [List.length_cons]
  all_goals have := (List.dropWhile_sublist validPathDelim (l := file)).length_le
  all_goals omega

/-- `modperl_file2package`: the name, which ends inside of the buffer. -/
def file2package (file : Bytes) : Option Bytes :=
  (skipPrefix isalnum (cstr file) (i32 ((cstr file).length + 1))).bind fun (file, len) =>
    if countDelims file len < 0 then none
    else
      (copyLoop isalnum (countDelims file len).toNat file []).bind fun package =>
        if package.length < countDelims file len then some package else none

end

/-- Segments of letters, digits and `_`, none of them empty, are joined by `::`. -/
def PackageName (name : Bytes) : Prop :=
  ∃ segments, segments ≠ [] ∧ (∀ segment ∈ segments, segment ≠ [] ∧ segment.all identByte) ∧
    name = symbolName segments

/-- What the third loop writes. -/
def renamed (isalnum : UInt8 → Bool) : Bytes → Bytes
  | [] => []
  | c :: file =>
      if validPkgChar isalnum c then c :: renamed isalnum file
      else if validPathDelim c then
        if file.dropWhile validPathDelim ≠ [] then
          58 :: 58 :: renamed isalnum (file.dropWhile validPathDelim)
        else []
      else 95 :: renamed isalnum file
termination_by file => file.length
decreasing_by
  all_goals simp only [List.length_cons]
  all_goals have := (List.dropWhile_sublist validPathDelim (l := file)).length_le
  all_goals omega

/-- The delimiters with another one behind them, or the end. -/
def dropped : Bytes → ℕ
  | [] => 0
  | c :: file =>
      (if validPathDelim c ∧ file.head?.all validPathDelim then 1 else 0) + dropped file

/-- The length that the loops compute, but for the size of an `int`. -/
def bufferLength (file : Bytes) : ℕ := file.length + 1 + file.countP validPathDelim

/-- The file name from its first valid byte on. -/
def nameStart (isalnum : UInt8 → Bool) (file : Bytes) : Bytes :=
  (cstr file).dropWhile fun c => !validPkgChar isalnum c

/-- The file name has a byte to begin with, none that only the locale takes for a letter, and
an `int` can hold the length, or lacks no more than is not needed. -/
structure Nameable (isalnum : UInt8 → Bool) (file : Bytes) : Prop where
  exists_valid : ∃ c ∈ cstr file, validPkgChar isalnum c
  lt_of_isalnum : ∀ c ∈ cstr file, isalnum c → c < 128
  length_le : bufferLength (nameStart isalnum file) ≤
    i32 (bufferLength (nameStart isalnum file)) + 2 * dropped (nameStart isalnum file)

variable {isalnum : UInt8 → Bool} {c b : UInt8} {file name package rest : Bytes} {len : ℕ}

/-! ## Bytes -/

theorem identByte_lt (h : identByte c) : c < 128 ∧ c ≠ 58 := by
  unfold identByte at h
  grind

theorem asciiAlnum_lt (h : asciiAlnum c) : c < 128 := by
  unfold asciiAlnum at h
  grind

theorem identByte_of_valid (hascii : ∀ c < 128, isalnum c = asciiAlnum c)
    (hlt : isalnum c → c < 128) (h : validPkgChar isalnum c) : identByte c := by
  unfold validPkgChar at h
  by_cases halnum : isalnum c
  · have heq := hascii c (hlt halnum)
    unfold asciiAlnum at heq
    unfold identByte
    rw [halnum] at heq
    grind
  · have hunderscore : c = 95 := by simpa [halnum] using h
    rw [hunderscore]
    decide

theorem not_valid_of_delim (hascii : ∀ c < 128, isalnum c = asciiAlnum c)
    (h : validPathDelim c) : validPkgChar isalnum c = false := by
  unfold validPathDelim at h
  rw [Bool.or_eq_true, decide_eq_true_eq, decide_eq_true_eq] at h
  rcases h with rfl | rfl
  · rw [validPkgChar, hascii _ (by decide)]
    rfl
  · rw [validPkgChar, hascii _ (by decide)]
    rfl

/-! ## Names -/

theorem packageName_singleton (h : identByte c) : PackageName [c] :=
  ⟨[[c]], List.cons_ne_nil _ _, by simpa using h, rfl⟩

theorem PackageName.cons (hc : identByte c) (h : PackageName name) : PackageName (c :: name) := by
  obtain ⟨segments, hne, hsegments, rfl⟩ := h
  obtain ⟨segment, segments, rfl⟩ := List.exists_cons_of_ne_nil hne
  rw [List.forall_mem_cons] at hsegments
  refine ⟨(c :: segment) :: segments, List.cons_ne_nil _ _, ?_, ?_⟩
  · rw [List.forall_mem_cons, List.all_cons, hsegments.1.2, Bool.and_true]
    exact ⟨⟨List.cons_ne_nil _ _, hc⟩, hsegments.2⟩
  · cases segments <;> rfl

theorem PackageName.colons (hc : identByte c) (h : PackageName name) :
    PackageName (c :: 58 :: 58 :: name) := by
  obtain ⟨segments, hne, hsegments, rfl⟩ := h
  obtain ⟨segment, segments, rfl⟩ := List.exists_cons_of_ne_nil hne
  refine ⟨[c] :: segment :: segments, List.cons_ne_nil _ _, ?_, rfl⟩
  rw [List.forall_mem_cons]
  exact ⟨⟨List.cons_ne_nil _ _, by simpa using hc⟩, hsegments⟩

theorem mem_symbolName {segments : List Bytes} (h : c ∈ symbolName segments) :
    c = 58 ∨ ∃ segment ∈ segments, c ∈ segment := by
  induction segments using symbolName.induct with
  | case1 => cases h
  | case2 segment => exact .inr ⟨segment, List.mem_cons_self, h⟩
  | case3 segment segments hne ih =>
      rw [symbolName, List.mem_append, List.mem_append] at h
      · rcases h with (h | h) | h
        · exact .inr ⟨segment, List.mem_cons_self, h⟩
        · exact .inl (by simpa [ascii] using h)
        · refine (ih h).imp_right ?_
          rintro ⟨segment', hmem, hc⟩
          exact ⟨segment', List.mem_cons_of_mem _ hmem, hc⟩
      · exact hne

theorem PackageName.lt (h : PackageName name) (hc : c ∈ name) : c < 128 := by
  obtain ⟨segments, -, hsegments, rfl⟩ := h
  rcases mem_symbolName hc with rfl | ⟨segment, hmem, hc⟩
  · decide
  · exact (identByte_lt (List.all_eq_true.mp (hsegments segment hmem).2 c hc)).1

/-! ## The third loop -/

theorem put_of_lt (h : package.length < len) (c : UInt8) :
    put len package c = some (package ++ [c]) := if_pos h

theorem put_eq_some (h : put len package c = some name) : name = package ++ [c] := by
  unfold put at h
  split_ifs at h
  exact (Option.some.inj h).symm

/-- A buffer that is long enough. -/
theorem copyLoop_of_le (h : (package ++ renamed isalnum file).length ≤ len) :
    copyLoop isalnum len file package = some (package ++ renamed isalnum file) := by
  induction file using renamed.induct isalnum generalizing package with
  | case1 => rw [copyLoop, renamed, List.append_nil]
  | case2 c file hvalid ih =>
      rw [renamed, if_pos hvalid] at h ⊢
      rw [List.append_cons] at h ⊢
      rw [copyLoop, if_pos hvalid, put_of_lt (by simp at h; omega), Option.bind_some, ih h]
  | case3 c file hvalid hdelim hrest ih =>
      rw [renamed, if_neg hvalid, if_pos hdelim, if_pos hrest] at h ⊢
      rw [List.append_cons, List.append_cons] at h ⊢
      rw [copyLoop, if_neg hvalid, if_pos hdelim, if_pos hrest,
        put_of_lt (by simp at h; omega), Option.bind_some, put_of_lt (by simp at h ⊢; omega),
        Option.bind_some, ih h]
  | case4 c file hvalid hdelim hrest =>
      rw [copyLoop, renamed, if_neg hvalid, if_neg hvalid, if_pos hdelim, if_pos hdelim,
        if_neg hrest, if_neg hrest, List.append_nil]
  | case5 c file hvalid hdelim ih =>
      rw [renamed, if_neg hvalid, if_neg hdelim] at h ⊢
      rw [List.append_cons] at h ⊢
      rw [copyLoop, if_neg hvalid, if_neg hdelim, put_of_lt (by simp at h; omega),
        Option.bind_some, ih h]

theorem copyLoop_eq_some (h : copyLoop isalnum len file package = some name) :
    name = package ++ renamed isalnum file := by
  induction file using renamed.induct isalnum generalizing package with
  | case1 =>
      rw [copyLoop] at h
      rw [renamed, List.append_nil, Option.some.inj h]
  | case2 c file hvalid ih =>
      rw [copyLoop, if_pos hvalid] at h
      obtain ⟨package', hput, h⟩ := Option.bind_eq_some_iff.mp h
      rw [renamed, if_pos hvalid, List.append_cons, ← put_eq_some hput]
      exact ih h
  | case3 c file hvalid hdelim hrest ih =>
      rw [copyLoop, if_neg hvalid, if_pos hdelim, if_pos hrest] at h
      obtain ⟨package₂, hputs, h⟩ := Option.bind_eq_some_iff.mp h
      obtain ⟨package₁, hput₁, hput₂⟩ := Option.bind_eq_some_iff.mp hputs
      rw [renamed, if_neg hvalid, if_pos hdelim, if_pos hrest, List.append_cons,
        List.append_cons, ← put_eq_some hput₁, ← put_eq_some hput₂]
      exact ih h
  | case4 c file hvalid hdelim hrest =>
      rw [copyLoop, if_neg hvalid, if_pos hdelim, if_neg hrest] at h
      rw [renamed, if_neg hvalid, if_pos hdelim, if_neg hrest, List.append_nil, Option.some.inj h]
  | case5 c file hvalid hdelim ih =>
      rw [copyLoop, if_neg hvalid, if_neg hdelim] at h
      obtain ⟨package', hput, h⟩ := Option.bind_eq_some_iff.mp h
      rw [renamed, if_neg hvalid, if_neg hdelim, List.append_cons, ← put_eq_some hput]
      exact ih h

/-! ## The first two loops -/

theorem i32_add (n k : Int) : i32 (i32 n + k) = i32 (n + k) := by
  simp [i32]

theorem skipPrefix_eq (n : Int) :
    skipPrefix isalnum file (i32 (file.length + n)) =
      if file.dropWhile (fun c => !validPkgChar isalnum c) = [] then none
      else
        some (file.dropWhile fun c => !validPkgChar isalnum c,
          i32 ((file.dropWhile fun c => !validPkgChar isalnum c).length + n)) := by
  induction file with
  | nil => rfl
  | cons c file ih =>
      rw [skipPrefix, List.dropWhile_cons]
      by_cases hvalid : validPkgChar isalnum c
      · simp [hvalid]
      · have hlen : i32 (i32 ((c :: file).length + n) - 1) = i32 (file.length + n) := by
          rw [Int.sub_eq_add_neg, i32_add, List.length_cons]
          congr 1
          omega
        rw [if_neg hvalid, hlen, ih]
        simp [hvalid]

theorem countDelims_eq (n : Int) :
    countDelims file (i32 n) = i32 (n + file.countP validPathDelim) := by
  induction file generalizing n with
  | nil => simp [countDelims]
  | cons c file ih =>
      rw [countDelims, List.countP_cons]
      split_ifs with hdelim
      · rw [i32_add, ih]
        congr 1
        omega
      · rw [ih]
        rfl

/-- The name is what the third loop writes, if it is shorter than the buffer. -/
theorem file2package_eq_some_iff :
    file2package isalnum file = some package ↔
      nameStart isalnum file ≠ [] ∧ package = renamed isalnum (nameStart isalnum file) ∧
      (package.length : Int) < i32 (bufferLength (nameStart isalnum file)) := by
  have hlen : ∀ rest : Bytes,
      countDelims rest (i32 (rest.length + 1)) = i32 (bufferLength rest) := by
    intro rest
    rw [countDelims_eq, bufferLength]
    push_cast
    rfl
  rw [file2package, skipPrefix_eq]
  change ((if nameStart isalnum file = [] then none
    else some (nameStart isalnum file, i32 ((nameStart isalnum file).length + 1))).bind _) = _ ↔ _
  by_cases hstart : nameStart isalnum file = []
  · simp [hstart]
  rw [if_neg hstart, Option.bind_some]
  simp only [hlen]
  constructor
  · intro h
    split_ifs at h with hneg
    obtain ⟨package', hcopy, h⟩ := Option.bind_eq_some_iff.mp h
    split_ifs at h with hlt
    cases h
    exact ⟨hstart, copyLoop_eq_some hcopy, hlt⟩
  · rintro ⟨-, rfl, hlt⟩
    have hneg : ¬i32 (bufferLength (nameStart isalnum file)) < 0 := by omega
    have hcopy : copyLoop isalnum (i32 (bufferLength (nameStart isalnum file))).toNat
        (nameStart isalnum file) [] = some (renamed isalnum (nameStart isalnum file)) :=
      copyLoop_of_le (by
        rw [List.nil_append]
        omega)
    rw [if_neg hneg, hcopy, Option.bind_some, if_pos hlt]

/-! ## How long the name is -/

theorem dropped_delim (h : validPathDelim c) :
    dropped (c :: file) =
      (file.takeWhile validPathDelim).length +
        (if file.dropWhile validPathDelim = [] then 1 else 0) +
        dropped (file.dropWhile validPathDelim) := by
  induction file generalizing c with
  | nil => simp [dropped, h]
  | cons b file ih =>
      rw [dropped]
      by_cases hb : validPathDelim b
      · rw [ih hb]
        simp [h, hb]
        omega
      · simp [hb]

theorem bufferLength_delim (h : validPathDelim c) :
    bufferLength (c :: file) =
      2 + 2 * (file.takeWhile validPathDelim).length +
        bufferLength (file.dropWhile validPathDelim) := by
  have hfile := List.takeWhile_append_dropWhile (p := validPathDelim) (l := file)
  have hcount : (file.takeWhile validPathDelim).countP validPathDelim =
      (file.takeWhile validPathDelim).length :=
    List.countP_eq_length.mpr fun b hb => List.mem_takeWhile_imp hb
  have hlength : file.length =
      (file.takeWhile validPathDelim).length + (file.dropWhile validPathDelim).length := by
    rw [← List.length_append, hfile]
  have hcountP : file.countP validPathDelim =
      (file.takeWhile validPathDelim).length +
        (file.dropWhile validPathDelim).countP validPathDelim := by
    rw [← hcount, ← List.countP_append, hfile]
  rw [bufferLength, bufferLength, List.countP_cons_of_pos h, List.length_cons]
  omega

theorem length_renamed (hascii : ∀ c < 128, isalnum c = asciiAlnum c) (file : Bytes) :
    (renamed isalnum file).length + 1 + 2 * dropped file = bufferLength file := by
  -- a byte that is not a delimiter is one byte of the name
  have hother : ∀ {c : UInt8} {file : Bytes}, validPathDelim c = false →
      (renamed isalnum file).length + 1 + 2 * dropped file = bufferLength file →
      (renamed isalnum file).length + 1 + 1 + 2 * dropped (c :: file) =
        bufferLength (c :: file) := by
    intro c file hc ih
    have hdropped : dropped (c :: file) = dropped file := by simp [dropped, hc]
    calc (renamed isalnum file).length + 1 + 1 + 2 * dropped (c :: file)
        = (renamed isalnum file).length + 1 + 2 * dropped file + 1 := by
          rw [hdropped, Nat.add_right_comm]
      _ = bufferLength file + 1 := by rw [ih]
      _ = bufferLength (c :: file) := by
          rw [bufferLength, bufferLength, List.countP_cons_of_neg (by simp [hc]),
            List.length_cons]
          omega
  induction file using renamed.induct isalnum with
  | case1 => rw [renamed]; rfl
  | case2 c file hvalid ih =>
      have hc : validPathDelim c = false := by
        by_contra hdelim
        have hnot := not_valid_of_delim hascii (by simpa using hdelim)
        rw [hvalid] at hnot
        cases hnot
      rw [renamed, if_pos hvalid, List.length_cons]
      exact hother hc ih
  | case3 c file hvalid hdelim hrest ih =>
      have hdropped : dropped (c :: file) = _ := dropped_delim hdelim
      rw [if_neg hrest] at hdropped
      rw [renamed, if_neg hvalid, if_pos hdelim, if_pos hrest, List.length_cons, List.length_cons]
      calc (renamed isalnum (file.dropWhile validPathDelim)).length + 1 + 1 + 1 +
            2 * dropped (c :: file)
          = 2 + 2 * (file.takeWhile validPathDelim).length +
              ((renamed isalnum (file.dropWhile validPathDelim)).length + 1 +
                2 * dropped (file.dropWhile validPathDelim)) := by omega
        _ = 2 + 2 * (file.takeWhile validPathDelim).length +
              bufferLength (file.dropWhile validPathDelim) := by rw [ih]
        _ = bufferLength (c :: file) := (bufferLength_delim hdelim).symm
  | case4 c file hvalid hdelim hrest =>
      have hnil : file.dropWhile validPathDelim = [] := not_not.mp hrest
      rw [renamed, if_neg hvalid, if_pos hdelim, if_neg hrest, dropped_delim hdelim,
        bufferLength_delim hdelim, hnil, if_pos rfl]
      simp [dropped, bufferLength]
      omega
  | case5 c file hvalid hdelim ih =>
      have hc : validPathDelim c = false := by simpa using hdelim
      rw [renamed, if_neg hvalid, if_neg hdelim, List.length_cons]
      exact hother hc ih

/-! ## What the name is made of -/

/-- The rest of a name, from within a segment: nothing, a name, or another segment. -/
def NameTail (name : Bytes) : Prop :=
  name = [] ∨ PackageName name ∨ ∃ rest, name = 58 :: 58 :: rest ∧ PackageName rest

theorem NameTail.cons (hc : identByte c) (h : NameTail name) : PackageName (c :: name) := by
  rcases h with rfl | h | ⟨rest, rfl, h⟩
  · exact packageName_singleton hc
  · exact h.cons hc
  · exact h.colons hc

/-- A byte that is not a delimiter becomes one of an identifier. -/
theorem renamed_cons (hascii : ∀ c < 128, isalnum c = asciiAlnum c)
    (hlt : isalnum c → c < 128) (hc : ¬validPathDelim c) :
    ∃ b, renamed isalnum (c :: file) = b :: renamed isalnum file ∧ identByte b := by
  rw [renamed, if_neg hc]
  split_ifs with hvalid
  · exact ⟨c, rfl, identByte_of_valid hascii hlt hvalid⟩
  · exact ⟨95, rfl, by decide⟩

theorem nameTail_renamed (hascii : ∀ c < 128, isalnum c = asciiAlnum c)
    (hlt : ∀ c ∈ file, isalnum c → c < 128) : NameTail (renamed isalnum file) := by
  induction file using renamed.induct isalnum with
  | case1 =>
      rw [renamed]
      exact .inl rfl
  | case2 c file hvalid ih =>
      have hc := identByte_of_valid hascii (hlt c List.mem_cons_self) hvalid
      rw [renamed, if_pos hvalid]
      exact .inr (.inl ((ih fun b hb => hlt b (List.mem_cons_of_mem c hb)).cons hc))
  | case3 c file hvalid hdelim hrest ih =>
      have hmem : ∀ b ∈ file.dropWhile validPathDelim, b ∈ c :: file := fun b hb =>
        List.mem_cons_of_mem c ((List.dropWhile_sublist _).subset hb)
      have htail := ih fun b hb => hlt b (hmem b hb)
      rw [renamed, if_neg hvalid, if_pos hdelim, if_pos hrest]
      refine .inr (.inr ⟨_, rfl, ?_⟩)
      -- behind the delimiters comes a byte of an identifier, so this is not another separator
      obtain ⟨b, file', hfile⟩ := List.exists_cons_of_ne_nil hrest
      have hb : ¬validPathDelim b := by
        have hhead := List.head?_dropWhile_not validPathDelim file
        rw [hfile] at hhead
        simpa using hhead
      have hlt' := hlt b (hmem b (hfile ▸ List.mem_cons_self))
      obtain ⟨b', hcons, hb'⟩ : ∃ b', renamed isalnum (b :: file') = b' :: renamed isalnum file' ∧
          identByte b' := renamed_cons hascii hlt' hb
      rw [hfile, hcons] at htail ⊢
      rcases htail with hnil | hname | ⟨rest, heq, -⟩
      · cases hnil
      · exact hname
      · exact absurd (List.cons.inj heq).1 (identByte_lt hb').2
  | case4 c file hvalid hdelim hrest =>
      rw [renamed, if_neg hvalid, if_pos hdelim, if_neg hrest]
      exact .inl rfl
  | case5 c file hvalid hdelim ih =>
      rw [renamed, if_neg hvalid, if_neg hdelim]
      exact .inr (.inl ((ih fun b hb => hlt b (List.mem_cons_of_mem c hb)).cons (by decide)))

/-- The name begins with the first byte that is allowed. -/
theorem packageName_renamed (hascii : ∀ c < 128, isalnum c = asciiAlnum c)
    (hlt : ∀ b ∈ c :: file, isalnum b → b < 128) (hvalid : validPkgChar isalnum c) :
    PackageName (renamed isalnum (c :: file)) := by
  have hc := identByte_of_valid hascii (hlt c List.mem_cons_self) hvalid
  rw [renamed, if_pos hvalid]
  exact (nameTail_renamed hascii fun b hb => hlt b (List.mem_cons_of_mem c hb)).cons hc

theorem mem_dropWhile {p : UInt8 → Bool} (hmem : b ∈ file) (hb : ¬p b) :
    b ∈ file.dropWhile p := by
  rw [← List.takeWhile_append_dropWhile (p := p) (l := file), List.mem_append] at hmem
  exact hmem.resolve_left fun h => hb (List.mem_takeWhile_imp h)

/-- A byte that is allowed is in the name. -/
theorem mem_renamed (hascii : ∀ c < 128, isalnum c = asciiAlnum c)
    (hb : validPkgChar isalnum b) (hmem : b ∈ file) : b ∈ renamed isalnum file := by
  have hdelims : ¬validPathDelim b := by
    intro h
    rw [not_valid_of_delim hascii h] at hb
    cases hb
  induction file using renamed.induct isalnum with
  | case1 => cases hmem
  | case2 c file hvalid ih =>
      rw [renamed, if_pos hvalid]
      rcases List.mem_cons.mp hmem with rfl | hmem
      · exact List.mem_cons_self
      · exact List.mem_cons_of_mem c (ih hmem)
  | case3 c file hvalid hdelim hrest ih =>
      rw [renamed, if_neg hvalid, if_pos hdelim, if_pos hrest]
      rcases List.mem_cons.mp hmem with rfl | hmem
      · exact absurd hb hvalid
      · exact List.mem_cons_of_mem _ (List.mem_cons_of_mem _ (ih (mem_dropWhile hmem hdelims)))
  | case4 c file hvalid hdelim hrest =>
      rcases List.mem_cons.mp hmem with rfl | hmem
      · exact absurd hb hvalid
      · exact absurd (List.ne_nil_of_mem (mem_dropWhile hmem hdelims)) hrest
  | case5 c file hvalid hdelim ih =>
      rw [renamed, if_neg hvalid, if_neg hdelim]
      rcases List.mem_cons.mp hmem with rfl | hmem
      · exact absurd hb hvalid
      · exact List.mem_cons_of_mem _ (ih hmem)

/-! ## The whole function -/

theorem nameStart_ne_nil_iff :
    nameStart isalnum file ≠ [] ↔ ∃ c ∈ cstr file, validPkgChar isalnum c := by
  rw [nameStart, Ne, List.dropWhile_eq_nil_iff]
  simp

/-- The function returns the name of a package, and stays inside of the file name and of its
buffer, if and only if the file name can be made one. -/
theorem file2package_iff (isalnum : UInt8 → Bool) (hascii : ∀ c < 128, isalnum c = asciiAlnum c)
    (file : Bytes) :
    (∃ package, file2package isalnum file = some package ∧ PackageName package) ↔
      Nameable isalnum file := by
  have hlength := length_renamed hascii (nameStart isalnum file)
  constructor
  · rintro ⟨package, hpackage, hname⟩
    obtain ⟨hstart, rfl, hlt⟩ := file2package_eq_some_iff.mp hpackage
    refine ⟨nameStart_ne_nil_iff.mp hstart, fun c hc halnum => ?_, by omega⟩
    have hvalid : validPkgChar isalnum c := by simp [validPkgChar, halnum]
    exact hname.lt (mem_renamed hascii hvalid (mem_dropWhile hc (by simp [hvalid])))
  · rintro ⟨hvalid, hlt, hle⟩
    have hstart := nameStart_ne_nil_iff.mpr hvalid
    refine ⟨_, file2package_eq_some_iff.mpr ⟨hstart, rfl, by omega⟩, ?_⟩
    obtain ⟨c, rest, hrest⟩ := List.exists_cons_of_ne_nil hstart
    have hmem : ∀ b ∈ c :: rest, b ∈ cstr file := fun b hb =>
      (List.dropWhile_sublist _).subset (hrest ▸ hb)
    have hfirst : validPkgChar isalnum c := by
      have hhead := List.head?_dropWhile_not (fun c => !validPkgChar isalnum c) (cstr file)
      rw [← nameStart, hrest] at hhead
      simpa using hhead
    rw [hrest]
    exact packageName_renamed hascii (fun b hb => hlt b (hmem b hb)) hfirst

/-- The name of a file, with delimiters that are repeated and a byte that is not allowed. -/
theorem file2package_httpd_conf :
    ∃ package, file2package asciiAlnum (ascii "/etc//httpd.conf/") = some package ∧
      PackageName package :=
  (file2package_iff asciiAlnum (fun _ _ => rfl) _).mpr
    ⟨⟨101, by decide, by decide⟩, fun _ _ h => asciiAlnum_lt h, by decide⟩

/-- In the name of the root directory no byte is allowed, and the first loop goes on behind its
end. -/
theorem file2package_fails :
    ¬∀ file : Bytes, ∃ package, file2package asciiAlnum file = some package ∧
      PackageName package := by
  intro hall
  obtain ⟨package, hpackage, -⟩ := hall (ascii "/")
  obtain ⟨hstart, -⟩ := file2package_eq_some_iff.mp hpackage
  exact hstart (by decide)

end ModPerl
