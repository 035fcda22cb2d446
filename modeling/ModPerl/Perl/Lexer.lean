import ModPerl.Config.SectionsDump
import ModPerl.Library.Transducer
import ModPerl.Registry.Namespace

/-!
# Tokens of Perl

The part of Perl's lexical rules that generated code needs: names, `$` variables,
numbers, strings between single quotes, punctuation and comments.  The lexer reads byte
by byte; where a text leaves this part of Perl it fails, and where a name or a number is
longer than the buffer in which Perl reads it.

A string is the text between its quotes if the text is `Literal`, and no other text
stands for itself in this place, whatever follows the quote (`literal_of_feed_quoted`).
-/

namespace ModPerl

open Transducer Registry

inductive PerlToken
  /-- A name, with its packages. -/
  | word (name : Bytes)
  /-- `$` and a name, or `$` and a number. -/
  | scalar (name : Bytes)
  | number (digits : Bytes)
  /-- A string between single quotes, with the value that it denotes. -/
  | str (value : Bytes)
  | punct (c : UInt8)
  /-- From behind a `#` to the end of the line. -/
  | comment (text : Bytes)
  deriving DecidableEq

/-- Where the lexer is, with what it has read of a token. -/
inductive LexMode
  | between
  | word (acc : Bytes)
  /-- In a name, behind the first of two colons. -/
  | colon (acc : Bytes)
  | scalar (acc : Bytes)
  | number (acc : Bytes)
  | comment (acc : Bytes)
  | quoted (acc : Bytes)
  /-- In a string, behind a backslash. -/
  | escape (acc : Bytes)
  deriving DecidableEq

namespace Lexer

def isBlank (c : UInt8) : Bool := c = 32 || c = 9 || c = 10 || c = 12 || c = 13

/-- A byte between two tokens, or the first one of a token. -/
def enter (c : UInt8) : Option (List PerlToken × LexMode) :=
  if isBlank c then some ([], .between)
  else if c = 35 then some ([], .comment [])
  else if c = 39 then some ([], .quoted [])
  else if c = 36 then some ([], .scalar [])
  else if isDigit c then some ([], .number [c])
  else if identByte c then some ([], .word [c])
  else if c ∈ ascii "()[]\x7b\x7d;=->," then some ([.punct c], .between)
  else none

/-- The longest name, with its packages.  One byte more is an "Identifier too long". -/
def maxWord : ℕ := 252

/-- The longest name of a `$` variable, which may be a number. -/
def maxScalar (acc : Bytes) : ℕ := if acc.head?.any isDigit then 252 else 251

/-- One digit more is a "Number too long". -/
def maxNumber : ℕ := 250

/-- A byte that does not belong to the token before it. -/
def afterToken (token : PerlToken) (c : UInt8) : Option (List PerlToken × LexMode) :=
  (enter c).map fun (out, mode) => (token :: out, mode)

/-- One byte.  A quote in a name, which used to separate packages, is not read. -/
def step : LexMode → UInt8 → Option (List PerlToken × LexMode)
  | .between, c => enter c
  | .word acc, c =>
      if identByte c then if acc.length < maxWord then some ([], .word (acc ++ [c])) else none
      else if c = 58 then some ([], .colon acc)
      else if c = 39 then none
      else afterToken (.word acc) c
  | .colon acc, c =>
      if c = 58 ∧ acc.length + 2 ≤ maxWord then some ([], .word (acc ++ [58, 58])) else none
  | .scalar acc, c =>
      if identByte c && !(acc.head?.any isDigit && !isDigit c) then
        if acc.length < maxScalar acc then some ([], .scalar (acc ++ [c])) else none
      else if acc = [] || c = 58 || c = 39 then none
      else afterToken (.scalar acc) c
  | .number acc, c =>
      if isDigit c then if acc.length < maxNumber then some ([], .number (acc ++ [c])) else none
      else if identByte c || c = 46 then none
      else afterToken (.number acc) c
  | .comment acc, c =>
      if c = 10 then some ([.comment acc], .between) else some ([], .comment (acc ++ [c]))
  | .quoted acc, c =>
      if c = 39 then some ([.str acc], .between)
      else if c = 92 then some ([], .escape acc)
      else some ([], .quoted (acc ++ [c]))
  | .escape acc, c =>
      if c = 39 ∨ c = 92 then some ([], .quoted (acc ++ [c]))
      else some ([], .quoted (acc ++ [92, c]))

/-- What a text leaves unfinished at its end. -/
def finish : LexMode → Option (List PerlToken)
  | .between => some []
  | .word acc => some [.word acc]
  | .number acc => some [.number acc]
  | .comment acc => some [.comment acc]
  | .scalar acc => if acc = [] then none else some [.scalar acc]
  | .colon _ | .quoted _ | .escape _ => none

/-- The tokens of a text. -/
def lex (text : Bytes) : Option (List PerlToken) :=
  (feed step .between text).bind fun (out, mode) => (finish mode).map (out ++ ·)

/-- Names with their packages, from behind the first byte. -/
def isNameTail : Bytes → Bool
  | [] => true
  | 58 :: 58 :: rest => isNameTail rest
  | c :: rest => identByte c && isNameTail rest

variable {acc text name tail : Bytes} {out toks : List PerlToken} {mode : LexMode} {c : UInt8}

example : lex (ascii "$_[0]->f('a\\'b\\c'); # d") = some [.scalar (ascii "_"), .punct 91,
    .number (ascii "0"), .punct 93, .punct 45, .punct 62, .word (ascii "f"), .punct 40,
    .str (ascii "a'b\\c"), .punct 41, .punct 59, .comment (ascii " d")] := by decide +kernel

/-- A text that ends between two tokens does not matter to the text behind it. -/
theorem lex_append_of (h : feed step .between text = some (out, .between)) :
    lex (text ++ tail) = (lex tail).map (out ++ ·) := by
  rw [lex, lex, feed_append_of h]
  cases feed step .between tail with
  | none => rfl
  | some r =>
      obtain ⟨out', mode⟩ := r
      simp only [Option.map_some, Option.bind_some, Option.map_map]
      exact congrArg (Option.map · (finish mode)) (funext fun rest => List.append_assoc _ _ _)

/-! ## Names, comments and strings -/

theorem isNameTail_append (h : isNameTail name = true) (htail : isNameTail tail = true) :
    isNameTail (name ++ tail) = true := by
  induction name using isNameTail.induct with
  | case1 => exact htail
  | case2 rest ih => exact ih h
  | case3 c rest hne ih =>
      rw [isNameTail] at h
      · obtain ⟨hc, hrest⟩ := Bool.and_eq_true_iff.mp h
        rw [List.cons_append, isNameTail, hc, ih hrest]
        · rfl
        · rintro more rfl
          exact absurd hc (by decide)
      · exact hne

/-- A name is read to its end, if it is not too long; then it is not read at all. -/
theorem feed_nameTail (h : isNameTail name = true) (hacc : acc.length ≤ maxWord) :
    feed step (.word acc) name =
      if acc.length + name.length ≤ maxWord then some ([], .word (acc ++ name)) else none := by
  induction name using isNameTail.induct generalizing acc with
  | case1 => simp [hacc]
  | case2 rest ih =>
      rw [isNameTail] at h
      have hfirst : step (.word acc) 58 = some ([], .colon acc) := rfl
      rw [feed_cons_silent hfirst]
      by_cases hle : acc.length + 2 ≤ maxWord
      · have hsecond : step (.colon acc) 58 = some ([], .word (acc ++ [58, 58])) :=
          if_pos ⟨rfl, hle⟩
        have hlonger : (acc ++ [58, 58]).length ≤ maxWord := by simpa using hle
        rw [feed_cons_silent hsecond, ih h hlonger]
        simp [Nat.add_assoc, Nat.add_comm 2]
      · have hsecond : step (.colon acc) 58 = none := if_neg fun h => hle h.2
        have htoo : ¬acc.length + (58 :: 58 :: rest).length ≤ maxWord := by
          simp only [List.length_cons]
          omega
        rw [feed, hsecond, if_neg htoo]
        rfl
  | case3 c rest hne ih =>
      rw [isNameTail] at h
      · obtain ⟨hc, hrest⟩ := Bool.and_eq_true_iff.mp h
        by_cases hlt : acc.length < maxWord
        · have hstep : step (.word acc) c = some ([], .word (acc ++ [c])) := by
            rw [step, if_pos hc, if_pos hlt]
          have hlonger : (acc ++ [c]).length ≤ maxWord := by
            rw [List.length_append]
            exact hlt
          rw [feed_cons_silent hstep, ih hrest hlonger]
          simp [Nat.add_assoc, Nat.add_comm 1]
        · have hstep : step (.word acc) c = none := by rw [step, if_pos hc, if_neg hlt]
          have htoo : ¬acc.length + (c :: rest).length ≤ maxWord := by
            simp only [List.length_cons]
            omega
          rw [feed, hstep, if_neg htoo]
          rfl
      · exact hne

theorem feed_name_of (h : isNameTail name = true) (hle : acc.length + name.length ≤ maxWord) :
    feed step (.word acc) name = some ([], .word (acc ++ name)) := by
  rw [feed_nameTail h (by omega), if_pos hle]

/-- A name that was read is not too long. -/
theorem length_le_of_feed (h : isNameTail name = true) (hacc : acc.length ≤ maxWord)
    (hfeed : feed step (.word acc) (name ++ tail) = some (out, mode)) :
    acc.length + name.length ≤ maxWord := by
  by_contra hlong
  have hnone : feed step (.word acc) name = none := by rw [feed_nameTail h hacc, if_neg hlong]
  rw [feed_append_of_none hnone] at hfeed
  cases hfeed

theorem isNameTail_of_all (h : name.all identByte = true) : isNameTail name = true := by
  induction name with
  | nil => rfl
  | cons c name ih =>
      obtain ⟨hc, hname⟩ := Bool.and_eq_true_iff.mp (List.all_cons ▸ h)
      rw [isNameTail, hc, ih hname]
      · rfl
      · rintro rest rfl
        exact absurd hc (by decide)

theorem feed_comment (h : 10 ∉ text) :
    feed step (.comment acc) text = some ([], .comment (acc ++ text)) := by
  induction text generalizing acc with
  | nil => simp
  | cons c text ih =>
      obtain ⟨hc, htext⟩ := not_or.mp (List.mem_cons.not.mp h)
      have hstep : step (.comment acc) c = some ([], .comment (acc ++ [c])) :=
        if_neg (Ne.symm hc)
      rw [feed_cons_of hstep, ih htext]
      simp

theorem literal_nil : Literal [] := ⟨List.not_mem_nil, by simp, by simp⟩

section Quoted

theorem step_quoted_end : step (.quoted acc) 39 = some ([.str acc], .between) := rfl

theorem step_quoted_backslash : step (.quoted acc) 92 = some ([], .escape acc) := rfl

theorem step_quoted (hquote : c ≠ 39) (hback : c ≠ 92) :
    step (.quoted acc) c = some ([], .quoted (acc ++ [c])) := by
  rw [step, if_neg hquote, if_neg hback]

theorem step_escape_special (h : c = 39 ∨ c = 92) :
    step (.escape acc) c = some ([], .quoted (acc ++ [c])) := if_pos h

theorem step_escape (hquote : c ≠ 39) (hback : c ≠ 92) :
    step (.escape acc) c = some ([], .quoted (acc ++ [92, c])) :=
  if_neg (not_or.mpr ⟨hquote, hback⟩)

/-- A literal text stands for itself, also with a backslash in front that is not one of two. -/
theorem feed_literal_both (h : Literal text) :
    feed step (.quoted acc) (text ++ [39]) = some ([.str (acc ++ text)], .between) ∧
      (text ≠ [] → text.head? ≠ some 92 →
        feed step (.escape acc) (text ++ [39]) = some ([.str (acc ++ 92 :: text)], .between)) := by
  induction text generalizing acc with
  | nil =>
      refine ⟨?_, fun hne => absurd rfl hne⟩
      rw [List.nil_append, feed_cons_of step_quoted_end]
      simp
  | cons c text ih =>
      obtain ⟨hquote, hback, htext⟩ := literal_cons_iff.mp h
      have hih := fun acc => @ih acc htext
      constructor
      · rw [List.cons_append]
        by_cases hc : c = 92
        · obtain ⟨hne, hhead⟩ := hback hc
          rw [hc, feed_cons_of step_quoted_backslash, (hih acc).2 hne hhead]
          rfl
        · rw [feed_cons_of (step_quoted hquote hc), (hih _).1]
          simp
      · intro _ hhead
        have hc : c ≠ 92 := fun heq => hhead (heq ▸ rfl)
        rw [List.cons_append, feed_cons_of (step_escape hquote hc), (hih _).1]
        simp

theorem feed_literal (h : Literal text) :
    feed step (.quoted acc) (text ++ [39]) = some ([.str (acc ++ text)], .between) :=
  (feed_literal_both h).1

/-- What is read of a string is at the beginning of its value. -/
theorem str_of_feed {token : PerlToken} (hmode : mode = .quoted acc ∨ mode = .escape acc)
    {mode' : LexMode} (h : feed step mode text = some (token :: toks, mode')) :
    ∃ v, token = .str (acc ++ v) := by
  induction text generalizing acc mode with
  | nil => cases h
  | cons c text ih =>
      obtain ⟨first, mode₁, rest, hstep, hrest, heq⟩ := feed_cons_eq_some_iff.mp h
      have hlonger : ∀ more, step mode c = some ([], .quoted (acc ++ more)) →
          ∃ v, token = .str (acc ++ v) := by
        intro more hmore
        cases hmore.symm.trans hstep
        rw [List.nil_append] at heq
        subst heq
        obtain ⟨v, hv⟩ := ih (.inl rfl) hrest
        exact ⟨more ++ v, by rw [hv, List.append_assoc]⟩
      rcases hmode with rfl | rfl
      · by_cases hquote : c = 39
        · subst hquote
          cases step_quoted_end.symm.trans hstep
          cases heq
          exact ⟨[], by rw [List.append_nil]⟩
        by_cases hback : c = 92
        · subst hback
          cases step_quoted_backslash.symm.trans hstep
          rw [List.nil_append] at heq
          subst heq
          exact ih (.inr rfl) hrest
        · exact hlonger _ (step_quoted hquote hback)
      · by_cases hspecial : c = 39 ∨ c = 92
        · exact hlonger _ (step_escape_special hspecial)
        · obtain ⟨hquote, hback⟩ := not_or.mp hspecial
          exact hlonger _ (step_escape hquote hback)

/-- What is read first is what the value has first. -/
theorem head_of_feed_quoted {more value : Bytes} (hmore : more ≠ [])
    (h : feed step (.quoted (acc ++ more)) text = some (.str (acc ++ value) :: toks, mode)) :
    value.head? = more.head? := by
  obtain ⟨v, hv⟩ := str_of_feed (.inl rfl) h
  obtain ⟨c, more, rfl⟩ := List.exists_cons_of_ne_nil hmore
  rw [PerlToken.str.injEq, List.append_assoc, List.append_cancel_left_eq] at hv
  rw [hv]
  rfl

theorem value_of_feed_end {value : Bytes}
    (h : feed step (.quoted acc) (39 :: tail) = some (.str value :: toks, mode)) :
    value = acc := by
  obtain ⟨first, mode₁, rest, hstep, -, heq⟩ := feed_cons_eq_some_iff.mp h
  cases step_quoted_end.symm.trans hstep
  cases heq
  rfl

theorem head_replicate_back (k : ℕ) (rest : Bytes) :
    (List.replicate k 92 ++ 92 :: rest).head? = some 92 := by
  cases k <;> rfl

/-- A quote is read after the backslash, where the value has a backslash. -/
theorem feed_escape_quote {k : ℕ} :
    feed step (.escape acc) (39 :: tail) ≠
      some (.str (acc ++ (List.replicate k 92 ++ 92 :: text)) :: toks, mode) := by
  intro h
  rw [feed_cons_silent (step_escape_special (.inl rfl))] at h
  have hfirst := head_of_feed_quoted (List.cons_ne_nil _ _) h
  rw [head_replicate_back] at hfirst
  cases hfirst

/-- A letter is read, where the value has backslashes in front of it. -/
theorem feed_plain_replicate {k : ℕ} {c : UInt8} (hquote : c ≠ 39) (hback : c ≠ 92)
    (h : feed step (.quoted acc) (c :: text ++ 39 :: tail) =
      some (.str (acc ++ (List.replicate k 92 ++ c :: text)) :: toks, mode)) :
    k = 0 ∧ feed step (.quoted (acc ++ [c])) (text ++ 39 :: tail) =
      some (.str (acc ++ [c] ++ text) :: toks, mode) := by
  rw [List.cons_append, feed_cons_silent (step_quoted hquote hback)] at h
  cases k with
  | zero => exact ⟨rfl, by simpa using h⟩
  | succ k =>
      have hfirst := head_of_feed_quoted (List.cons_ne_nil _ _) h
      exact absurd (Option.some.inj hfirst).symm hback

/-- Two backslashes are one in the value, so that one more of those in front is left. -/
theorem feed_pair_replicate {k : ℕ}
    (h : feed step (.quoted acc) (92 :: 92 :: text ++ 39 :: tail) =
      some (.str (acc ++ (List.replicate k 92 ++ 92 :: 92 :: text)) :: toks, mode)) :
    feed step (.quoted (acc ++ [92])) (text ++ 39 :: tail) =
      some (.str (acc ++ [92] ++ (List.replicate (k + 1) 92 ++ text)) :: toks, mode) := by
  have hvalue : acc ++ (List.replicate k 92 ++ 92 :: 92 :: text) =
      acc ++ [92] ++ (List.replicate (k + 1) 92 ++ text) :=
    calc acc ++ (List.replicate k 92 ++ 92 :: 92 :: text)
        = acc ++ (List.replicate (k + 2) 92 ++ text) := by
          simp [List.replicate_succ']
      _ = acc ++ [92] ++ (List.replicate (k + 1) 92 ++ text) := by
          simp [List.replicate_succ]
  rwa [List.cons_append, List.cons_append, feed_cons_silent step_quoted_backslash,
    feed_cons_silent (step_escape_special (.inr rfl)), hvalue] at h

/-- A backslash stays where a letter comes after it. -/
theorem feed_escape_replicate {k : ℕ} {d : UInt8} (hquote : d ≠ 39) (hback : d ≠ 92)
    (h : feed step (.quoted acc) (92 :: d :: text ++ 39 :: tail) =
      some (.str (acc ++ (List.replicate k 92 ++ 92 :: d :: text)) :: toks, mode)) :
    k = 0 ∧ feed step (.quoted (acc ++ [92, d])) (text ++ 39 :: tail) =
      some (.str (acc ++ [92, d] ++ text) :: toks, mode) := by
  rw [List.cons_append, List.cons_append, feed_cons_silent step_quoted_backslash,
    feed_cons_silent (step_escape hquote hback)] at h
  cases k with
  | zero => exact ⟨rfl, by simpa using h⟩
  | succ k =>
      obtain ⟨v, hv⟩ := str_of_feed (.inl rfl) h
      rw [PerlToken.str.injEq, List.append_assoc, List.append_cancel_left_eq,
        List.replicate_succ, List.cons_append, List.cons_append, List.cons.injEq] at hv
      have hsecond := congrArg List.head? hv.2
      rw [head_replicate_back] at hsecond
      exact absurd (Option.some.inj hsecond).symm hback

/-- The value does not have more backslashes in front than the text. -/
theorem literal_of_feed_replicate {k : ℕ} (h : feed step (.quoted acc) (text ++ 39 :: tail) =
      some (.str (acc ++ (List.replicate k 92 ++ text)) :: toks, mode)) :
    k = 0 ∧ Literal text := by
  -- two bytes are read at once where the first is a backslash
  induction hlength : text.length using Nat.strongRecOn generalizing text k acc with
  | _ n ih =>
    subst hlength
    cases text with
    | nil =>
        have hvalue := List.append_right_eq_self.mp (value_of_feed_end h)
        rw [List.append_nil, List.replicate_eq_nil_iff] at hvalue
        exact ⟨hvalue, literal_nil⟩
    | cons c text =>
        by_cases hquote : c = 39
        · subst hquote
          have hvalue := List.append_right_eq_self.mp (value_of_feed_end h)
          exact absurd hvalue (List.append_ne_nil_of_right_ne_nil _ (List.cons_ne_nil _ _))
        by_cases hback : c = 92
        swap
        · obtain ⟨hk, hrest⟩ := feed_plain_replicate hquote hback h
          have hliteral := (ih text.length (Nat.lt_succ_self _) (k := 0) hrest rfl).2
          exact ⟨hk, literal_cons_iff.mpr ⟨hquote, fun heq => absurd heq hback, hliteral⟩⟩
        subst hback
        cases text with
        | nil =>
            rw [List.cons_append, feed_cons_silent step_quoted_backslash] at h
            exact absurd h feed_escape_quote
        | cons d text =>
            have hlt : text.length < (92 :: d :: text).length := by
              simp only [List.length_cons]
              omega
            by_cases hd : d = 39
            · subst hd
              rw [List.cons_append, feed_cons_silent step_quoted_backslash] at h
              exact absurd h feed_escape_quote
            by_cases hd' : d = 92
            · subst hd'
              have hmore := (ih text.length hlt (feed_pair_replicate h) rfl).1
              exact absurd hmore (Nat.succ_ne_zero k)
            · obtain ⟨hk, hrest⟩ := feed_escape_replicate hd hd' h
              have hliteral := (ih text.length hlt (k := 0) hrest rfl).2
              have hnext : Literal (d :: text) :=
                literal_cons_iff.mpr ⟨hd, fun heq => absurd heq hd', hliteral⟩
              refine ⟨hk, literal_cons_iff.mpr ⟨hquote, fun _ => ⟨by simp, ?_⟩, hnext⟩⟩
              exact fun heq => hd' (Option.some.inj heq)

end Quoted

/-- A text after which the quote ends a string that denotes the text. -/
theorem literal_of_feed_quoted
    (h : feed step (.quoted acc) (text ++ 39 :: tail) = some (.str (acc ++ text) :: toks, mode)) :
    Literal text :=
  (literal_of_feed_replicate (k := 0) h).2

/-! ## Quotes -/

/-- A token with a quote in it. -/
def HasQuote : PerlToken → Prop
  | .str _ => True
  | .comment text => 39 ∈ text
  | _ => False

/-- A quote has been read of the token. -/
def ReadQuote : LexMode → Prop
  | .quoted _ | .escape _ => True
  | .comment acc => 39 ∈ acc
  | _ => False

theorem step_readQuote {mode' : LexMode} (hmode : ReadQuote mode)
    (h : step mode c = some (out, mode')) :
    (out = [] ∧ ReadQuote mode') ∨ ∃ token rest, out = token :: rest ∧ HasQuote token := by
  cases mode with
  | comment acc =>
      rw [step] at h
      split_ifs at h
      · cases h
        exact .inr ⟨_, _, rfl, hmode⟩
      · cases h
        exact .inl ⟨rfl, List.mem_append_left _ hmode⟩
  | quoted acc =>
      rw [step] at h
      split_ifs at h
      · cases h
        exact .inr ⟨_, _, rfl, trivial⟩
      · cases h
        exact .inl ⟨rfl, trivial⟩
      · cases h
        exact .inl ⟨rfl, trivial⟩
  | escape acc =>
      rw [step] at h
      split_ifs at h <;> cases h <;> exact .inl ⟨rfl, trivial⟩
  | _ => exact hmode.elim

/-- Between two tokens a quote begins a string. -/
theorem readQuote_of_step {mode' : LexMode} (hmode : ¬ReadQuote mode)
    (h : step mode 39 = some (out, mode')) : ReadQuote mode' := by
  cases mode with
  | between => cases h; trivial
  | word acc => cases h
  | colon acc => cases h
  | scalar acc =>
      simp [step, show identByte 39 = false by decide] at h
  | number acc => cases h; trivial
  | comment acc =>
      cases h
      exact List.mem_append_right _ (List.mem_singleton_self _)
  | quoted acc => exact absurd trivial hmode
  | escape acc => exact absurd trivial hmode

/-- A quote of the text is in one of the tokens. -/
theorem exists_hasQuote_of_feed (h : feed step mode text = some (toks, .between))
    (hmem : 39 ∈ text) : ∃ token ∈ toks, HasQuote token := by
  have hread : ∀ {mode text toks}, ReadQuote mode → feed step mode text = some (toks, .between) →
      ∃ token ∈ toks, HasQuote token := by
    intro mode text toks hmode h
    obtain ⟨token, rest, rfl, htoken⟩ :=
      head_of_feed (fun _ _ _ _ => step_readQuote) hmode (id : ¬ReadQuote .between) h
    exact ⟨token, List.mem_cons_self, htoken⟩
  induction text generalizing mode toks with
  | nil => cases hmem
  | cons c text ih =>
      obtain ⟨first, mode₁, rest, hstep, hrest, rfl⟩ := feed_cons_eq_some_iff.mp h
      by_cases hmode : ReadQuote mode
      · exact hread hmode h
      have hfound : ∃ token ∈ rest, HasQuote token := by
        rcases List.mem_cons.mp hmem with rfl | hmem
        · exact hread (readQuote_of_step hmode hstep) hrest
        · exact ih hrest hmem
      obtain ⟨token, htoken, hquote⟩ := hfound
      exact ⟨token, List.mem_append_right _ htoken, hquote⟩

/-- A string is closed at its quote if no token behind it has one. -/
theorem eq_of_feed_quoted {value : Bytes} (hvalue : 39 ∉ value ∧ 92 ∉ value)
    (htoks : ∀ token ∈ toks, ¬HasQuote token)
    (h : feed step (.quoted acc) (text ++ 39 :: tail) =
      some (.str (acc ++ value) :: toks, .between)) : text = value := by
  induction text generalizing acc value with
  | nil => exact (List.append_right_eq_self.mp (value_of_feed_end h)).symm
  | cons c text ih =>
      have hmore : ∀ {more : Bytes} {b : UInt8} {rest text : Bytes}, more = b :: rest →
          feed step (.quoted (acc ++ more)) text = some (.str (acc ++ value) :: toks, .between) →
          ∃ rest', value = b :: rest' := by
        rintro _ b rest text rfl hfeed
        have hfirst := head_of_feed_quoted (List.cons_ne_nil _ _) hfeed
        cases value with
        | nil => cases hfirst
        | cons b' value => exact ⟨value, by rw [Option.some.inj hfirst]⟩
      by_cases hquote : c = 39
      · subst hquote
        obtain ⟨first, mode₁, rest, hstep, hrest, heq⟩ := feed_cons_eq_some_iff.mp h
        cases step_quoted_end.symm.trans hstep
        obtain rfl : toks = rest := (List.cons.inj heq).2
        obtain ⟨token, htoken, hhas⟩ :=
          exists_hasQuote_of_feed hrest (List.mem_append_right _ List.mem_cons_self)
        exact absurd hhas (htoks token htoken)
      by_cases hback : c = 92
      · subst hback
        rw [List.cons_append, feed_cons_silent step_quoted_backslash] at h
        have hescape : ∀ d rest, feed step (.escape acc) (d :: rest) ≠
            some (.str (acc ++ value) :: toks, .between) := by
          intro d rest hfeed
          by_cases hd : d = 39 ∨ d = 92
          · rw [feed_cons_silent (step_escape_special hd)] at hfeed
            obtain ⟨rest', rfl⟩ := hmore rfl hfeed
            rcases hd with rfl | rfl
            · exact hvalue.1 List.mem_cons_self
            · exact hvalue.2 List.mem_cons_self
          · rw [feed_cons_silent (step_escape (not_or.mp hd).1 (not_or.mp hd).2)] at hfeed
            obtain ⟨rest', rfl⟩ := hmore rfl hfeed
            exact hvalue.2 List.mem_cons_self
        cases text with
        | nil => exact absurd h (hescape _ _)
        | cons d text => exact absurd h (hescape _ _)
      · rw [List.cons_append, feed_cons_silent (step_quoted hquote hback)] at h
        obtain ⟨value, rfl⟩ := hmore rfl h
        have hrest : 39 ∉ value ∧ 92 ∉ value :=
          ⟨fun hmem => hvalue.1 (List.mem_cons_of_mem _ hmem),
            fun hmem => hvalue.2 (List.mem_cons_of_mem _ hmem)⟩
        have hvalue' : acc ++ c :: value = acc ++ [c] ++ value := by simp
        rw [hvalue'] at h
        rw [ih hrest h]

end Lexer

end ModPerl
