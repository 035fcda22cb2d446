import ModPerl.Filter.ParseHeaders

/-!
# The end of the headers, line by line

`modperl_cgi_header_parse` counts line ends to find where the body starts; the
scan that the server makes of the same buffer reads it line by line, a line
being the bytes up to an LF less one CR in front of it, and stops at the first
empty line.  The two agree unless the count is misled: the end of the very first
line never counts as the second of two line ends, and any number of CRs between
two LFs is taken for an empty line.
-/

namespace ModPerl

/-- A line without the CR at its end, if there is one. -/
def stripCr (line : Bytes) : Bytes := if line.getLast? = some 13 then line.dropLast else line

/-- The lines in front of the first empty one, without their LFs, and the bytes
behind it; `line` is what was read of the first line already. -/
def readHeader (line : Bytes) : Bytes → Option (List Bytes × Bytes)
  | [] => none
  | c :: rest =>
      if c ≠ 10 then readHeader (line ++ [c]) rest
      else if stripCr line = [] then some ([], rest)
      else (readHeader [] rest).map fun (lines, body) => (line :: lines, body)

/-- The buffer is taken apart in front of `body`: what is returned as the body,
what is left of the buffer for the headers, and the length. -/
structure SplitBefore (parse : HeaderParse) (buffer body : Bytes) : Prop where
  taken : parse.body.getD [] = body
  header : buffer.take (buffer.length - parse.len) ++ parse.body.getD [] = buffer
  len : parse.len = body.length

variable {line rest body buffer : Bytes} {lines : List Bytes} {c : UInt8}

theorem stripCr_eq_nil : stripCr line = [] ↔ line = [] ∨ line = [13] := by
  unfold stripCr
  constructor
  · intro hstrip
    cases line using List.reverseRecOn with
    | nil => exact .inl rfl
    | append_singleton line c =>
        rw [List.getLast?_concat, List.dropLast_concat] at hstrip
        split_ifs at hstrip with hcr
        · rw [hstrip, Option.some.inj hcr]
          exact .inr rfl
        · exact absurd hstrip (by simp)
  · rintro (rfl | rfl) <;> rfl

/-! ## The count behind a byte -/

/-- What the count of line ends is inside a line that is not the first. -/
def newlnIn (line : Bytes) : Nat := if line.all (· == 13) then 1 else 0

theorem countNewln_newlnIn (hc : c ≠ 10) : countNewln (newlnIn line) c = newlnIn (line ++ [c]) := by
  unfold countNewln newlnIn
  rw [List.all_append]
  by_cases hcr : c = 13
  · simp [hcr]
  · simp [hcr, hc]

theorem countNewln_lf (newln : Nat) : countNewln newln 10 = newln + 1 := by
  simp [countNewln]

theorem countNewln_zero (hc : c ≠ 10) : countNewln 0 c = 0 := by
  simp [countNewln, hc]

theorem newlnIn_of_stripCr (h : stripCr line = []) : newlnIn line = 1 := by
  obtain rfl | rfl := stripCr_eq_nil.mp h <;> rfl

theorem headerLength_le (newln : Nat) (text : Bytes) : headerLength newln text ≤ text.length := by
  induction text generalizing newln with
  | nil => exact Nat.le_refl 0
  | cons c rest ih =>
      unfold headerLength
      split_ifs
      · exact Nat.succ_le_succ (Nat.zero_le _)
      · exact Nat.succ_le_succ (ih _)

theorem headerLength_pos (newln : Nat) (h : rest ≠ []) : 0 < headerLength newln rest := by
  cases rest with
  | nil => exact absurd rfl h
  | cons c rest =>
      unfold headerLength
      split_ifs <;> exact Nat.succ_pos _

/-! ## The two scans side by side -/

theorem readHeader_length_lt (hread : readHeader line rest = some (lines, body)) :
    body.length < rest.length := by
  induction rest generalizing line lines with
  | nil => cases hread
  | cons c rest ih =>
      unfold readHeader at hread
      split_ifs at hread with hlf hempty
      · exact Nat.lt_succ_of_lt (ih hread)
      · obtain ⟨-, rfl⟩ := Prod.mk.inj (Option.some.inj hread)
        exact Nat.lt_succ_self _
      · obtain ⟨⟨lines', body'⟩, hread', heq⟩ := Option.map_eq_some_iff.mp hread
        obtain ⟨-, rfl⟩ := Prod.mk.inj heq
        exact Nat.lt_succ_of_lt (ih hread')

theorem readHeader_drop (hread : readHeader line rest = some (lines, body)) :
    body = rest.drop (rest.length - body.length) := by
  induction rest generalizing line lines with
  | nil => cases hread
  | cons c rest ih =>
      have hshorter : ∀ {line lines}, readHeader line rest = some (lines, body) →
          body = (c :: rest).drop ((c :: rest).length - body.length) := by
        intro line lines hread
        have hlt := readHeader_length_lt hread
        rw [List.length_cons, Nat.succ_sub (Nat.le_of_lt hlt), List.drop_succ_cons]
        exact ih hread
      unfold readHeader at hread
      split_ifs at hread with hlf hempty
      · exact hshorter hread
      · obtain ⟨-, rfl⟩ := Prod.mk.inj (Option.some.inj hread)
        rw [List.length_cons, Nat.add_sub_cancel_left]
        rfl
      · obtain ⟨⟨lines', body'⟩, hread', heq⟩ := Option.map_eq_some_iff.mp hread
        obtain ⟨-, rfl⟩ := Prod.mk.inj heq
        exact hshorter hread'

/-- Behind the first line the count stops where the lines do, unless it meets a
line of several CRs and nothing else before. -/
theorem headerLength_newlnIn (hread : readHeader line rest = some (lines, body)) :
    headerLength (newlnIn line) rest + body.length = rest.length ↔
      ∀ l ∈ lines, ∃ c ∈ l, c ≠ 13 := by
  induction rest generalizing line lines with
  | nil => cases hread
  | cons c rest ih =>
      unfold readHeader at hread
      split_ifs at hread with hlf hempty
      · -- Inside a line.
        have hcount : countNewln (newlnIn line) c ≠ 2 := by
          rw [countNewln_newlnIn hlf]
          unfold newlnIn
          split_ifs <;> omega
        rw [headerLength, if_neg hcount, countNewln_newlnIn hlf, ← ih hread, List.length_cons]
        omega
      · -- The first empty line.
        obtain rfl : c = 10 := not_not.mp hlf
        obtain ⟨rfl, rfl⟩ := Prod.mk.inj (Option.some.inj hread)
        rw [headerLength, countNewln_lf, newlnIn_of_stripCr hempty, if_pos rfl, List.length_cons]
        exact ⟨fun _ l hl => absurd hl List.not_mem_nil, fun _ => Nat.add_comm _ _⟩
      · obtain rfl : c = 10 := not_not.mp hlf
        obtain ⟨⟨lines', body'⟩, hread', heq⟩ := Option.map_eq_some_iff.mp hread
        obtain ⟨rfl, rfl⟩ := Prod.mk.inj heq
        have hlt := readHeader_length_lt hread'
        have hrest : headerLength (0 + 1) rest + body'.length = rest.length ↔ _ := ih hread'
        rw [headerLength, countNewln_lf, List.forall_mem_cons, List.length_cons]
        by_cases hcrs : line.all (· == 13) = true
        · -- A line of CRs: the count stops here, in front of `body'`.
          rw [newlnIn, if_pos hcrs, if_pos rfl]
          constructor
          · omega
          · rintro ⟨⟨d, hd, hne⟩, -⟩
            exact absurd (by simpa using List.all_eq_true.mp hcrs d hd) hne
        · have hother : ∃ d ∈ line, d ≠ 13 := by simpa using hcrs
          rw [newlnIn, if_neg hcrs, if_neg (by omega), ← hrest]
          simp only [hother, true_and]
          omega

/-- From the start of the buffer: the first line ends without being looked at. -/
theorem headerLength_zero (hread : readHeader line rest = some (lines, body)) :
    headerLength 0 rest + body.length = rest.length ↔
      (lines = [] → body = []) ∧ ∀ l ∈ lines.tail, ∃ c ∈ l, c ≠ 13 := by
  induction rest generalizing line with
  | nil => cases hread
  | cons c rest ih =>
      unfold readHeader at hread
      split_ifs at hread with hlf hempty
      · rw [headerLength, countNewln_zero hlf, if_neg (by omega), ← ih hread, List.length_cons]
        omega
      · -- The first line is empty: the count goes on behind it.
        obtain rfl : c = 10 := not_not.mp hlf
        obtain ⟨rfl, rfl⟩ := Prod.mk.inj (Option.some.inj hread)
        rw [headerLength, countNewln_lf, if_neg (by omega), List.length_cons]
        constructor
        · intro hlength
          refine ⟨fun _ => ?_, fun l hl => absurd hl List.not_mem_nil⟩
          by_contra hne
          have hpos := headerLength_pos (0 + 1) hne
          omega
        · rintro ⟨hbody, -⟩
          rw [hbody rfl]
          rfl
      · obtain rfl : c = 10 := not_not.mp hlf
        obtain ⟨⟨lines', body'⟩, hread', heq⟩ := Option.map_eq_some_iff.mp hread
        obtain ⟨rfl, rfl⟩ := Prod.mk.inj heq
        have hrest : headerLength (0 + 1) rest + body'.length = rest.length ↔ _ :=
          headerLength_newlnIn hread'
        rw [headerLength, countNewln_lf, if_neg (by omega), List.tail_cons, ← hrest,
          List.length_cons]
        constructor
        · intro hlength
          exact ⟨fun hnil => absurd hnil (List.cons_ne_nil _ _), by omega⟩
        · rintro ⟨-, hlength⟩
          omega

/-- The body starts behind the first empty line exactly if nothing follows an
empty first line and no line between the first one and the first empty one
consists of CRs only. -/
theorem cgiHeaderParse_splits_iff (httpd : Httpd) (r : RequestRec)
    (hread : readHeader [] buffer = some (lines, body)) :
    SplitBefore (cgiHeaderParse httpd r buffer) buffer body ↔
      (lines = [] → body = []) ∧ ∀ line ∈ lines.tail, ∃ c ∈ line, c ≠ 13 := by
  obtain ⟨hbody, hlen⟩ := cgiHeaderParse_body httpd r buffer
  have hle := headerLength_le 0 buffer
  have hlt := readHeader_length_lt hread
  rw [← headerLength_zero hread]
  constructor
  · intro hsplit
    have hlen' := hsplit.len
    omega
  · intro hlength
    have hdrop : buffer.drop (headerLength 0 buffer) = body := by
      have hat : headerLength 0 buffer = buffer.length - body.length := by omega
      rw [hat, ← readHeader_drop hread]
    refine ⟨hbody.trans hdrop, ?_, by omega⟩
    have hat : buffer.length - (cgiHeaderParse httpd r buffer).len = headerLength 0 buffer := by
      omega
    rw [hat, hbody, List.take_append_drop]

/-- A line with CRs in it, and LFs with and without a CR in front. -/
theorem cgiHeaderParse_splits_mixed :
    SplitBefore (cgiHeaderParse .scanning .get (ascii "A: b\r\nC:\r d\n\r\nxy"))
      (ascii "A: b\r\nC:\r d\n\r\nxy") (ascii "xy") :=
  (cgiHeaderParse_splits_iff .scanning .get
    (show readHeader [] (ascii "A: b\r\nC:\r d\n\r\nxy") =
      some ([ascii "A: b\r", ascii "C:\r d"], ascii "xy") by decide +kernel)).mpr
    ⟨fun hnil => absurd hnil (by decide +kernel), by decide +kernel⟩

/-- Two CRs between two LFs end the headers, and an empty line at the very start
does not. -/
theorem cgiHeaderParse_missplits :
    readHeader [] (ascii "A: b\n\r\r\nC: d\n\nxy") =
        some ([ascii "A: b", ascii "\r\r", ascii "C: d"], ascii "xy") ∧
      (cgiHeaderParse .scanning .get (ascii "A: b\n\r\r\nC: d\n\nxy")).body =
        some (ascii "C: d\n\nxy") ∧
      readHeader [] (ascii "\nxy") = some ([], ascii "xy") ∧
      (cgiHeaderParse .scanning .get (ascii "\nxy")).body = none ∧
      ¬∀ (httpd : Httpd) (r : RequestRec) (buffer body : Bytes) (lines : List Bytes),
        readHeader [] buffer = some (lines, body) →
          SplitBefore (cgiHeaderParse httpd r buffer) buffer body := by
  have hlines : readHeader [] (ascii "\nxy") = some ([], ascii "xy") := by decide +kernel
  have hbody : (cgiHeaderParse .scanning .get (ascii "\nxy")).body = none := by decide +kernel
  refine ⟨by decide +kernel, by decide +kernel, hlines, hbody, fun hsplits => ?_⟩
  have hsplit := (hsplits .scanning .get _ _ _ hlines).taken
  rw [hbody] at hsplit
  exact absurd hsplit (by decide)

end ModPerl
