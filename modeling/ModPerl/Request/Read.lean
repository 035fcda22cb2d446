import ModPerl.Filter.Reader
import ModPerl.Library.Block
import ModPerl.Request.Write

/-!
# `$r->read`

The bytes of the request body are read straight into the memory of the Perl
string, which is grown for all that is asked for first.  The input filters are
not part of the repository: a value of `InputFilters` says how they answer, for
every number of bytes that they may be asked for.

A read works as `sysread` does as long as two conversions keep their numbers:
the length of the string, to an `int`, when the offset is negative, and the sum
of length and offset, to 64 bits, when the string is grown.
-/

namespace ModPerl

/-- What `ap_get_brigade` answers to a request for so many bytes, and what the
filters deliver after that.  Behind the EOS they deliver the EOS again, alone.
Every delivery has an end, since this is an inductive type. -/
inductive InputFilters
  | ended
  | more (brigade : Nat → Except Status Brigade) (next : Nat → InputFilters)

/-- A brigade that answers a request for `n` bytes: it is not empty, its buckets
can be read, it has no more data than asked for, and an EOS is the last bucket. -/
structure Answers (n : Nat) (bb : Brigade) : Prop where
  ne_nil : bb ≠ []
  sound : ∀ rc, Bucket.broken rc ∉ bb
  length_le : bb.bytes.length ≤ n
  eos : Bucket.eos ∉ bb.dropLast

/-- The filters deliver this body, in whatever brigades. -/
def InputFilters.Delivers : InputFilters → Bytes → Prop
  | .ended, body => body = []
  | .more brigade next, body =>
      ∀ n, 0 < n → ∃ bb rest, brigade n = .ok bb ∧ Answers n bb ∧ body = bb.bytes ++ rest ∧
        (next n).Delivers rest ∧ (bb.getLast? = some .eos → next n = .ended)

/-- The exceptions of `$r->read`. -/
inductive ReadCroak
  | lengthNegative
  | offsetOutside
  | emptyBrigade
  | failed (rc : Status)
  deriving DecidableEq

/-- A Perl string: its memory, of `SvLEN` bytes, and `SvCUR`. -/
structure PerlString where
  pv : Bytes
  cur : Nat
  cur_lt : cur < pv.length
  length_lt : pv.length < 2 ^ 63

namespace PerlString

def bytes (sv : PerlString) : Bytes := sv.pv.take sv.cur

/-- `sv_setpvn(sv, "", 0)` on an undefined value -/
def empty : PerlString := ⟨[0], 0, by decide, by decide⟩

end PerlString

/-- `sv_grow`, for a process whose memory does not run out: the size of the memory
afterwards, and what is found in the part that is new. -/
structure SvGrow where
  size : Nat → Nat → Nat
  fill : Nat → UInt8
  size_ge : ∀ svLen n, n ≤ size svLen n

/-- `SvGROW` -/
def SvGrow.grow (perl : SvGrow) (pv : Bytes) (n : Nat) : Bytes :=
  if pv.length < n then
    pv ++ (List.range (perl.size pv.length n - pv.length)).map fun i => perl.fill (pv.length + i)
  else pv

/-- `apr_brigade_flatten` with room for `n` bytes -/
def flatten : Nat → Brigade → Except Status Bytes
  | _, [] => .ok []
  | _, .broken rc :: _ => .error rc
  | n, b :: bb =>
      let str := b.bytes.take n
      if n ≤ str.length then .ok str else (flatten (n - str.length) bb).map (str ++ ·)

/-- The body of the loop of `modperl_request_read`: the number of bytes that were
read, and the memory of the string. -/
def readBrigade (bb : Brigade) (pv : Bytes) (tmp len : Nat) :
    Option (Except ReadCroak (Nat × Bytes)) :=
  if bb = [] then some (.error .emptyBrigade)
  else
    match flatten len bb with
    | .error rc => some (.error (.failed rc))
    | .ok bytes => (Block.write pv tmp bytes).map fun pv => .ok (bytes.length, pv)

/-- The loop of `modperl_request_read`: the total, the memory of the string, and the
filters afterwards. -/
def readLoop : InputFilters → Bytes → Nat → Nat →
    Option (Except ReadCroak (Nat × Bytes × InputFilters))
  | .ended, pv, tmp, len =>
      (readBrigade [.eos] pv tmp len).map fun res =>
        res.map fun (read, pv) => (read, pv, .ended)
  | .more brigade next, pv, tmp, len =>
      match brigade len with
      | .error rc => some (.error (.failed rc))
      | .ok bb =>
          match readBrigade bb pv tmp len with
          | none => none
          | some (.error croak) => some (.error croak)
          | some (.ok (read, pv)) =>
              if len - read > 0 ∧ bb.getLast? ≠ some .eos then
                (readLoop (next len) pv (tmp + read) (len - read)).map fun res =>
                  res.map fun (total, pv, input) => (read + total, pv, input)
              else some (.ok (read, pv, next len))

/-- `modperl_request_read` -/
def requestRead (input : InputFilters) (pv : Bytes) (buffer len : Nat) :
    Option (Except ReadCroak (Nat × Bytes × InputFilters)) :=
  if len = 0 then some (.ok (0, pv, input)) else readLoop input pv buffer len

/-- The arguments of `$r->read($buffer, $len, $offset)`. -/
structure ReadCall where
  buffer : Option PerlString
  len : UInt64
  offset : Int64

/-- The string that the bytes are put into. -/
def ReadCall.string (c : ReadCall) : PerlString := c.buffer.getD .empty

/-- A call that returns: the number that is returned, the string, and what the
filters have still to deliver. -/
structure ReadResult where
  total : Nat
  buffer : Bytes
  input : InputFilters

/-- The second half of `mpxs_Apache2__RequestRec_read`: the string has been grown,
and the offset is not negative. -/
def readInto (input : InputFilters) (pv : Bytes) (blen offset len : Nat) :
    Option (Except ReadCroak ReadResult) :=
  let padded :=
    if offset > blen then Block.write pv blen (List.replicate (offset - blen) 0) else some pv
  padded.bind fun pv =>
    (requestRead input pv offset len).bind fun
      | .error croak => some (.error croak)
      | .ok (total, pv, input) =>
          (Block.write pv (offset + total) [0]).map fun pv =>
            .ok ⟨total, pv.take (offset + total), input⟩

/-- `mpxs_Apache2__RequestRec_read`.  The length is unsigned, so that it is not
positive only if it is zero. -/
def requestRecRead (perl : SvGrow) (input : InputFilters) (c : ReadCall) :
    Option (Except ReadCroak ReadResult) :=
  let blen := c.string.cur
  if c.len ≤ 0 then some (.error .lengthNegative)
  else if c.offset.toInt < 0 ∧ (-c.offset).toInt > toInt blen then some (.error .offsetOutside)
  else
    let offset := if c.offset.toInt < 0 then c.offset + Int64.ofNat blen else c.offset
    let pv := perl.grow c.string.pv (c.len + offset.toUInt64 + 1).toNat
    readInto input pv blen offset.toUInt64.toNat c.len.toNat

/-- A sequence of reads, if all of them return. -/
def readAll (perl : SvGrow) : InputFilters → List ReadCall → Option (List ReadResult)
  | _, [] => some []
  | input, c :: cs =>
      match requestRecRead perl input c with
      | some (.ok res) => (readAll perl res.input cs).map (res :: ·)
      | _ => none

/-! ## What `sysread` does -/

namespace ReadCall

/-- Where in the string the bytes are put: a negative offset counts from its end. -/
def start (c : ReadCall) : Nat :=
  (if c.offset.toInt < 0 then c.offset.toInt + c.string.cur else c.offset.toInt).toNat

/-- The bytes in front of that, with zeros behind a string that is shorter. -/
def kept (c : ReadCall) : Bytes :=
  c.string.bytes.take c.start ++ List.replicate (c.start - c.string.cur) 0

/-- The length is positive, and a negative offset is within the string. -/
structure Proper (c : ReadCall) : Prop where
  len_ne_zero : c.len ≠ 0
  offset_ge : -(c.string.cur : Int) ≤ c.offset.toInt

/-- The numbers survive their conversions: the length of the string, if the offset
is negative, and the size that the string is grown to; or the string has room
for what is left of the body. -/
structure Fits (c : ReadCall) (perl : SvGrow) (body : Bytes) : Prop where
  blen : c.offset.toInt < 0 → -c.offset.toInt ≤ toInt c.string.cur
  room : c.len.toNat + c.start + 1 < 2 ^ 64 ∨ c.start + min c.len.toNat body.length <
    (perl.grow c.string.pv ((c.len.toNat + c.start + 1) % 2 ^ 64)).length

end ReadCall

/-- The call reads the front of the body: fewer bytes than asked for only if the
body ends. -/
structure Sysread (c : ReadCall) (body : Bytes) (res : ReadResult) : Prop where
  buffer : res.buffer = c.kept ++ body.take res.total
  total_le : res.total ≤ c.len.toNat
  total_le_body : res.total ≤ body.length
  short : res.total < c.len.toNat → res.total = body.length ∧ res.input = .ended

/-- Each call reads on where the one before it ended. -/
def Sysreads : Bytes → List ReadCall → List ReadResult → Prop
  | _, [], [] => True
  | body, c :: cs, res :: ress => Sysread c body res ∧ Sysreads (body.drop res.total) cs ress
  | _, _, _ => False

/-- What the calls have put into their strings. -/
def bytesRead : List ReadCall → List ReadResult → Bytes
  | c :: cs, res :: ress => res.buffer.drop c.start ++ bytesRead cs ress
  | _, _ => []

/-- Every call fits, with as much of the body gone as the calls before it ask for. -/
def AllFit (perl : SvGrow) : Bytes → List ReadCall → Prop
  | _, [] => True
  | body, c :: cs => c.Fits perl body ∧ AllFit perl (body.drop c.len.toNat) cs

variable {perl : SvGrow} {input : InputFilters} {c : ReadCall} {cs : List ReadCall}
  {res : ReadResult} {bb : Brigade} {pv body : Bytes} {place len n : Nat}

/-! ## Memory -/

theorem length_grow (perl : SvGrow) (pv : Bytes) (n : Nat) : n ≤ (perl.grow pv n).length := by
  unfold SvGrow.grow
  split_ifs with hlt
  · have hge := perl.size_ge pv.length n
    rw [List.length_append, List.length_map, List.length_range]
    omega
  · exact Nat.le_of_not_lt hlt

theorem length_le_grow (perl : SvGrow) (pv : Bytes) (n : Nat) :
    pv.length ≤ (perl.grow pv n).length := by
  unfold SvGrow.grow
  split_ifs
  · rw [List.length_append]
    omega
  · exact Nat.le_refl _

/-- What was in the memory stays in it. -/
theorem take_grow (h : place ≤ pv.length) : (perl.grow pv n).take place = pv.take place := by
  unfold SvGrow.grow
  split_ifs
  · exact List.take_append_of_le_length h
  · rfl

/-! ## The loop over the brigades -/

theorem flatten_eq (hsound : ∀ rc, Bucket.broken rc ∉ bb) (hle : bb.bytes.length ≤ n) :
    flatten n bb = .ok bb.bytes := by
  induction bb generalizing n with
  | nil => rfl
  | cons b bb ih =>
      rw [Brigade.bytes_cons, List.length_append] at hle
      have htake : b.bytes.take n = b.bytes := List.take_of_length_le (by omega)
      have hrest : ∀ rc, Bucket.broken rc ∉ bb := fun rc h => hsound rc (List.mem_cons_of_mem _ h)
      have hcons : flatten n (b :: bb) =
          if n ≤ b.bytes.length then .ok b.bytes
          else (flatten (n - b.bytes.length) bb).map (b.bytes ++ ·) := by
        cases b with
        | broken rc => exact absurd List.mem_cons_self (hsound rc)
        | _ => simp only [flatten, htake]
      rw [hcons, Brigade.bytes_cons]
      split_ifs with hfull
      · have hnil : Brigade.bytes bb = [] := List.length_eq_zero_iff.mp (by omega)
        rw [hnil, List.append_nil]
      · rw [ih hrest (by omega)]
        rfl

theorem readBrigade_answers (h : Answers n bb) (pv : Bytes) (tmp : Nat) :
    readBrigade bb pv tmp n =
      (Block.write pv tmp bb.bytes).map fun pv => .ok (bb.bytes.length, pv) := by
  unfold readBrigade
  rw [if_neg h.ne_nil, flatten_eq h.sound h.length_le]

theorem answers_eos : Answers n [.eos] := ⟨by simp, by simp, Nat.zero_le _, by simp⟩

/-- The loop writes the front of the body, as long as asked for, and stops short of
that only behind the EOS; it leaves the rest of the body with the filters. -/
theorem readLoop_delivers (h : input.Delivers body) (hlen : 0 < len) (pv : Bytes) (tmp : Nat) :
    ∃ input', input'.Delivers (body.drop len) ∧ (body.length < len → input' = .ended) ∧
      readLoop input pv tmp len =
        (Block.write pv tmp (body.take len)).map fun pv =>
          .ok ((body.take len).length, pv, input') := by
  induction input generalizing body len pv tmp with
  | ended =>
      obtain rfl : body = [] := h
      refine ⟨.ended, List.drop_nil, fun _ => rfl, ?_⟩
      rw [readLoop, readBrigade_answers answers_eos, Option.map_map, List.take_nil]
      rfl
  | more brigade next ih =>
      obtain ⟨bb, rest, hbb, hanswers, rfl, hrest, heos⟩ := h len hlen
      have hle := hanswers.length_le
      rw [readLoop, hbb]
      simp only [readBrigade_answers hanswers]
      by_cases hmore : len - bb.bytes.length > 0 ∧ bb.getLast? ≠ some .eos
      · -- The rest of the bytes comes from the brigades behind this one.
        obtain ⟨input', hdelivers, hshort, hloop⟩ := ih len hrest hmore.1
          ((Block.write pv tmp bb.bytes).getD pv) (tmp + bb.bytes.length)
        refine ⟨input', ?_, ?_, ?_⟩
        · rw [List.drop_append, List.drop_of_length_le hle, List.nil_append]
          exact hdelivers
        · intro hlt
          rw [List.length_append] at hlt
          exact hshort (by omega)
        · rw [List.take_append, List.take_of_length_le hle, Block.write_append]
          cases hwrite : Block.write pv tmp bb.bytes with
          | none => rfl
          | some pv' =>
              rw [hwrite, Option.getD_some] at hloop
              simp only [Option.map_some, Option.bind_some, if_pos hmore, hloop, Option.map_map]
              rw [List.length_append]
              rfl
      · -- All that was asked for is there, or the EOS.
        have hall : (bb.bytes ++ rest).take len = bb.bytes ∧
            (bb.bytes ++ rest).drop len = rest ∧
            ((bb.bytes ++ rest).length < len → next len = .ended) := by
          by_cases hlast : bb.getLast? = some .eos
          · have hended := heos hlast
            rw [hended] at hrest
            obtain rfl : rest = [] := hrest
            rw [List.append_nil]
            exact ⟨List.take_of_length_le hle, List.drop_of_length_le hle, fun _ => hended⟩
          · have hfull : bb.bytes.length = len := by
              rw [not_and_or, not_not] at hmore
              have := hmore.resolve_right hlast
              omega
            refine ⟨List.take_left' hfull, List.drop_left' hfull, fun hlt => ?_⟩
            rw [List.length_append] at hlt
            omega
        refine ⟨next len, by rw [hall.2.1]; exact hrest, hall.2.2, ?_⟩
        rw [hall.1]
        cases hwrite : Block.write pv tmp bb.bytes with
        | none => rfl
        | some pv' => simp only [Option.map_some, if_neg hmore]

/-! ## One call -/

/-- The bytes in front of the offset, padded with zeros, if there is room for them. -/
theorem padded_eq {blen : Nat} (start : Nat) (hblen : blen ≤ pv.length) :
    (pv.length < start ∧
      (if start > blen then Block.write pv blen (List.replicate (start - blen) 0) else some pv) =
        none) ∨
    start ≤ pv.length ∧ ∃ pv', pv'.length = pv.length ∧
      pv'.take start = (pv.take blen).take start ++ List.replicate (start - blen) 0 ∧
      (if start > blen then Block.write pv blen (List.replicate (start - blen) 0) else some pv) =
        some pv' := by
  split_ifs with hlt
  · have hplace : blen + (List.replicate (start - blen) (0 : UInt8)).length = start := by
      rw [List.length_replicate]
      omega
    cases hwrite : Block.write pv blen (List.replicate (start - blen) 0) with
    | none =>
        refine .inl ⟨?_, rfl⟩
        have hover := Block.lt_of_write_eq_none hwrite
        omega
    | some pv' =>
        have htake := Block.take_write hwrite
        rw [hplace] at htake
        refine .inr ⟨?_, pv', Block.length_write hwrite, ?_, rfl⟩
        · have hfits := (Block.write_eq_some hwrite).1
          omega
        · rw [htake, List.take_take, Nat.min_eq_right (by omega)]
  · refine .inr ⟨by omega, pv, rfl, ?_, rfl⟩
    rw [Nat.sub_eq_zero_of_le (by omega), List.replicate_zero, List.append_nil, List.take_take,
      Nat.min_eq_left (by omega)]

/-- With room for the bytes and the NUL behind them the front of the body is read. -/
theorem readInto_fits {blen start : Nat} (h : input.Delivers body) (hlen : 0 < len)
    (hblen : blen ≤ pv.length) (hroom : start + min len body.length < pv.length) :
    ∃ input', input'.Delivers (body.drop len) ∧ (body.length < len → input' = .ended) ∧
      readInto input pv blen start len = some (.ok ⟨(body.take len).length,
        (pv.take blen).take start ++ List.replicate (start - blen) 0 ++ body.take len,
        input'⟩) := by
  obtain ⟨hover, -⟩ | ⟨-, pv₁, hlength₁, htake₁, hpadded⟩ := padded_eq start hblen
  · omega
  · obtain ⟨input', hdelivers, hshort, hloop⟩ := readLoop_delivers h hlen pv₁ start
    refine ⟨input', hdelivers, hshort, ?_⟩
    have htaken : (body.take len).length = min len body.length := List.length_take
    obtain ⟨pv₂, hwrite⟩ : ∃ pv₂, Block.write pv₁ start (body.take len) = some pv₂ :=
      ⟨_, if_pos (by omega)⟩
    have hlength₂ := Block.length_write hwrite
    obtain ⟨pv₃, hnul⟩ : ∃ pv₃, Block.write pv₂ (start + (body.take len).length) [0] = some pv₃ :=
      ⟨_, if_pos (by rw [List.length_singleton]; omega)⟩
    have htake₃ : pv₃.take (start + (body.take len).length) =
        pv₁.take start ++ body.take len := by
      obtain ⟨hfits, rfl⟩ := Block.write_eq_some hnul
      rw [List.append_assoc, List.take_left' (List.length_take_of_le (by omega)),
        Block.take_write hwrite]
    unfold readInto requestRead
    rw [hpadded, Option.bind_some, if_neg (by omega), hloop, hwrite]
    simp only [Option.map_some, Option.bind_some, hnul, htake₃, htake₁]

theorem readInto_over {blen start : Nat} (h : input.Delivers body) (hlen : 0 < len)
    (hblen : blen ≤ pv.length) (hover : pv.length ≤ start + min len body.length) :
    readInto input pv blen start len = none := by
  unfold readInto requestRead
  obtain ⟨-, hpadded⟩ | ⟨-, pv₁, hlength₁, -, hpadded⟩ := padded_eq start hblen
  · rw [hpadded, Option.bind_none]
  · obtain ⟨input', -, -, hloop⟩ := readLoop_delivers h hlen pv₁ start
    have htaken : (body.take len).length = min len body.length := List.length_take
    rw [hpadded, Option.bind_some, if_neg (by omega), hloop]
    cases hwrite : Block.write pv₁ start (body.take len) with
    | none => rfl
    | some pv₂ =>
        have hlength₂ := Block.length_write hwrite
        have hnul : Block.write pv₂ (start + (body.take len).length) [0] = none :=
          Block.write_eq_none (by rw [List.length_singleton]; omega)
        simp only [Option.map_some, Option.bind_some, hnul, Option.map_none]

namespace ReadCall

/-- The number that an offset comes to, in 64 bits. -/
def offset64 (c : ReadCall) : Int64 :=
  if c.offset.toInt < 0 then c.offset + Int64.ofNat c.string.cur else c.offset

theorem cur_lt_pow (c : ReadCall) : c.string.cur < 2 ^ 63 :=
  Nat.lt_trans c.string.cur_lt c.string.length_lt

theorem toInt_cur (c : ReadCall) : (Int64.ofNat c.string.cur).toInt = c.string.cur :=
  Int64.toInt_ofNat_of_lt c.cur_lt_pow

theorem Proper.start_eq (h : c.Proper) :
    (c.start : Int) =
      if c.offset.toInt < 0 then c.offset.toInt + c.string.cur else c.offset.toInt := by
  have hge := h.offset_ge
  unfold start
  split_ifs <;> omega

theorem Proper.toNat_offset64 (h : c.Proper) : c.offset64.toUInt64.toNat = c.start := by
  have hge := h.offset_ge
  have hcur := c.cur_lt_pow
  have hstart := h.start_eq
  have hhigh := c.offset.toInt_lt
  have hconv := toNat_toUInt64 c.offset64
  have htoInt : c.offset64.toInt = c.start := by
    rw [hstart]
    unfold offset64
    split_ifs with hneg
    · rw [Int64.toInt_add, c.toInt_cur]
      exact Int.bmod_eq_of_le (by omega) (by omega)
    · rfl
  have hlt := c.offset64.toInt_lt
  omega

/-- The offset is compared as it is. -/
theorem Proper.toInt_neg_offset (h : c.Proper) : (-c.offset).toInt = -c.offset.toInt := by
  have hge := h.offset_ge
  have hcur := c.cur_lt_pow
  have hhigh := c.offset.toInt_lt
  rw [Int64.toInt_neg]
  exact Int.bmod_eq_of_le (by omega) (by omega)

end ReadCall

theorem requestRecRead_eq (h : c.Proper) (perl : SvGrow) (input : InputFilters) :
    requestRecRead perl input c =
      if c.offset.toInt < 0 ∧ -c.offset.toInt > toInt c.string.cur then
        some (.error .offsetOutside)
      else
        readInto input (perl.grow c.string.pv ((c.len.toNat + c.start + 1) % 2 ^ 64))
          c.string.cur c.start c.len.toNat := by
  have hlen : ¬c.len ≤ 0 := fun hle => h.len_ne_zero (UInt64.le_zero_iff.mp hle)
  have hsize : (c.len + c.offset64.toUInt64 + 1).toNat = (c.len.toNat + c.start + 1) % 2 ^ 64 := by
    rw [UInt64.toNat_add, UInt64.toNat_add, h.toNat_offset64]
    exact Nat.mod_add_mod _ _ _
  unfold requestRecRead
  simp only [if_neg hlen, h.toInt_neg_offset]
  rw [← hsize, ← h.toNat_offset64]
  rfl

/-- A call that fits reads the front of the body and leaves the rest. -/
theorem requestRecRead_of_fits (hproper : c.Proper) (h : input.Delivers body)
    (hfits : c.Fits perl body) :
    ∃ res, requestRecRead perl input c = some (.ok res) ∧ Sysread c body res ∧
      res.input.Delivers (body.drop res.total) ∧
      body.drop res.total = body.drop c.len.toNat := by
  have hlen : 0 < c.len.toNat :=
    Nat.pos_of_ne_zero fun hzero => hproper.len_ne_zero (UInt64.toNat_inj.mp hzero)
  have hoffset : ¬(c.offset.toInt < 0 ∧ -c.offset.toInt > toInt c.string.cur) := by
    rintro ⟨hneg, hgt⟩
    have hblen := hfits.blen hneg
    omega
  have hcur : c.string.cur ≤ c.string.pv.length := Nat.le_of_lt c.string.cur_lt
  have hgrown := length_le_grow perl c.string.pv ((c.len.toNat + c.start + 1) % 2 ^ 64)
  have hroom : c.start + min c.len.toNat body.length <
      (perl.grow c.string.pv ((c.len.toNat + c.start + 1) % 2 ^ 64)).length := by
    rcases hfits.room with hsmall | hroom
    · have hsize := length_grow perl c.string.pv ((c.len.toNat + c.start + 1) % 2 ^ 64)
      rw [Nat.mod_eq_of_lt hsmall] at hsize ⊢
      omega
    · exact hroom
  obtain ⟨input', hdelivers, hshort, hread⟩ :=
    readInto_fits h hlen (Nat.le_trans hcur hgrown) hroom
  have htotal : (body.take c.len.toNat).length = min c.len.toNat body.length := List.length_take
  have hdrop : body.drop (body.take c.len.toNat).length = body.drop c.len.toNat := by
    rw [htotal]
    rcases Nat.le_total c.len.toNat body.length with hle | hle
    · rw [Nat.min_eq_left hle]
    · rw [Nat.min_eq_right hle, List.drop_length, List.drop_of_length_le hle]
  refine ⟨_, by rw [requestRecRead_eq hproper, if_neg hoffset, hread], ⟨?_, ?_, ?_, ?_⟩, ?_,
    hdrop⟩
  · have hbytes : c.string.bytes = c.string.pv.take c.string.cur := rfl
    rw [ReadCall.kept, hbytes, take_grow hcur, htotal, ← List.take_eq_take_min]
  · exact htotal ▸ Nat.min_le_left _ _
  · exact htotal ▸ Nat.min_le_right _ _
  · intro hlt
    have hends : (body.take c.len.toNat).length < c.len.toNat := hlt
    have hall : (body.take c.len.toNat).length = body.length := by omega
    exact ⟨hall, hshort (by omega)⟩
  · rw [hdrop]
    exact hdelivers

/-- A call that does not fit does not return. -/
theorem fits_of_requestRecRead (hproper : c.Proper) (h : input.Delivers body)
    (hres : requestRecRead perl input c = some (.ok res)) : c.Fits perl body := by
  have hlen : 0 < c.len.toNat :=
    Nat.pos_of_ne_zero fun hzero => hproper.len_ne_zero (UInt64.toNat_inj.mp hzero)
  have hcur : c.string.cur ≤ c.string.pv.length := Nat.le_of_lt c.string.cur_lt
  have hgrown := length_le_grow perl c.string.pv ((c.len.toNat + c.start + 1) % 2 ^ 64)
  rw [requestRecRead_eq hproper] at hres
  split_ifs at hres with hoffset
  · cases hres
  · refine ⟨fun hneg => ?_, .inr ?_⟩
    · by_contra hgt
      exact hoffset ⟨hneg, by omega⟩
    · by_contra hover
      rw [readInto_over h hlen (Nat.le_trans hcur hgrown) (by omega)] at hres
      cases hres

theorem ReadCall.length_kept (c : ReadCall) : c.kept.length = c.start := by
  have hbytes : c.string.bytes.length = c.string.cur :=
    List.length_take_of_le (Nat.le_of_lt c.string.cur_lt)
  rw [kept, List.length_append, List.length_take, List.length_replicate, hbytes]
  omega

/-! ## Every sequence of calls -/

/-- What is read is the front of the body, each byte once and in order. -/
theorem Sysreads.bytesRead {cs : List ReadCall} {ress : List ReadResult}
    (h : Sysreads body cs ress) : bytesRead cs ress <+: body := by
  induction cs generalizing body ress with
  | nil =>
      cases ress with
      | nil => exact List.nil_prefix
      | cons res ress => exact h.elim
  | cons c cs ih =>
      cases ress with
      | nil => exact h.elim
      | cons res ress =>
          obtain ⟨hread, hrest⟩ := h
          have hbytes : res.buffer.drop c.start = body.take res.total := by
            rw [hread.buffer]
            exact List.drop_left' c.length_kept
          obtain ⟨rest, heq⟩ := ih hrest
          refine ⟨rest, ?_⟩
          rw [ModPerl.bytesRead, hbytes, List.append_assoc, heq, List.take_append_drop]

/-- Reads of the body behave as `sysread` exactly if the numbers of each call
survive their conversions: every call returns, with the bytes that follow those
of the call before it, as many as asked for unless the body ends. -/
theorem reads_sysread_iff (perl : SvGrow) (h : input.Delivers body)
    (hproper : ∀ c ∈ cs, c.Proper) :
    (∃ ress, readAll perl input cs = some ress ∧ Sysreads body cs ress ∧
      bytesRead cs ress <+: body) ↔ AllFit perl body cs := by
  have hreads : (∃ ress, readAll perl input cs = some ress ∧ Sysreads body cs ress) ↔
      AllFit perl body cs := by
    induction cs generalizing input body with
    | nil => exact ⟨fun _ => trivial, fun _ => ⟨[], rfl, trivial⟩⟩
    | cons c cs ih =>
        obtain ⟨hc, hcs⟩ := List.forall_mem_cons.mp hproper
        constructor
        · rintro ⟨ress, hall, hress⟩
          rw [readAll] at hall
          split at hall
          · next res hres =>
              obtain ⟨ress', hall', rfl⟩ := Option.map_eq_some_iff.mp hall
              have hfits := fits_of_requestRecRead hc h hres
              obtain ⟨res', hres', -, hdelivers, hdrop⟩ := requestRecRead_of_fits hc h hfits
              rw [hres, Option.some_inj, Except.ok.injEq] at hres'
              subst hres'
              refine ⟨hfits, ?_⟩
              rw [← hdrop]
              exact (ih hdelivers hcs).mp ⟨ress', hall', hress.2⟩
          · cases hall
        · rintro ⟨hfits, hrest⟩
          obtain ⟨res, hres, hread, hdelivers, hdrop⟩ := requestRecRead_of_fits hc h hfits
          rw [← hdrop] at hrest
          obtain ⟨ress, hall, hress⟩ := (ih hdelivers hcs).mpr hrest
          exact ⟨res :: ress, by rw [readAll, hres]; simp only [hall, Option.map_some],
            hread, hress⟩
  rw [← hreads]
  exact ⟨fun ⟨ress, hall, hress, _⟩ => ⟨ress, hall, hress⟩,
    fun ⟨ress, hall, hress⟩ => ⟨ress, hall, hress, hress.bytesRead⟩⟩

/-- Filters that deliver one byte at a time, and the EOS behind the last. -/
def InputFilters.bytewise : Bytes → InputFilters
  | [] => .ended
  | b :: body => .more (fun _ => .ok [.data [b]]) fun _ => bytewise body

theorem InputFilters.bytewise_delivers (body : Bytes) : (bytewise body).Delivers body := by
  induction body with
  | nil => rfl
  | cons b body ih =>
      intro n hn
      exact ⟨_, body, rfl, ⟨by simp, by simp, hn, by simp⟩, rfl, ih, by simp⟩

/-- A process that finds zeros in new memory and takes no more of it than needed. -/
def SvGrow.exact : SvGrow := ⟨fun _ n => n, fun _ => 0, fun _ _ => Nat.le_refl _⟩

/-- A string of two bytes, and the NUL behind it. -/
def PerlString.two : PerlString := ⟨ascii "xy" ++ [0], 2, by decide, by decide⟩

/-- Over the second byte of a string, and behind the third of an undefined value;
the body ends in the second read. -/
theorem reads_sysread_two : ∃ ress,
    readAll .exact (.bytewise (ascii "abc")) [⟨some .two, 2, -1⟩, ⟨none, 5, 3⟩] = some ress ∧
      Sysreads (ascii "abc") [⟨some .two, 2, -1⟩, ⟨none, 5, 3⟩] ress ∧
      bytesRead [⟨some .two, 2, -1⟩, ⟨none, 5, 3⟩] ress <+: ascii "abc" := by
  refine (reads_sysread_iff .exact (InputFilters.bytewise_delivers _) ?_).mpr
    ⟨⟨fun _ => ?_, .inl (by decide)⟩, ⟨fun hneg => absurd hneg (by decide), .inl (by decide)⟩,
      trivial⟩
  · intro c hc
    rcases List.mem_cons.mp hc with rfl | hc
    · exact ⟨by decide, by decide⟩
    · rw [List.mem_singleton.mp hc]
      exact ⟨by decide, by decide⟩
  · have hcur : toInt (ReadCall.string ⟨some .two, 2, -1⟩).cur = 2 :=
      toInt_of_lt (show 2 < 2 ^ 31 by decide)
    rw [hcur]
    decide

/-- A string of `2 ^ 31` bytes. -/
def PerlString.large : PerlString where
  pv := List.replicate (2 ^ 31 + 1) 0
  cur := 2 ^ 31
  cur_lt := by rw [List.length_replicate]; decide
  length_lt := by rw [List.length_replicate]; decide

theorem toInt_large : toInt (2 ^ 31) = -2 ^ 31 := by
  unfold toInt
  decide

/-- The last byte of a string of `2 ^ 31` bytes is not an offset that is accepted,
and a length of `2 ^ 64 - 1` bytes does not grow the string at all. -/
theorem reads_sysread_fails :
    requestRecRead .exact (.bytewise (ascii "abc")) ⟨some .large, 1, -1⟩ =
        some (.error .offsetOutside) ∧
      requestRecRead .exact (.bytewise (ascii "abc")) ⟨none, -1, 0⟩ = none ∧
      ¬∀ (perl : SvGrow) (input : InputFilters) (body : Bytes) (cs : List ReadCall),
        input.Delivers body → (∀ c ∈ cs, c.Proper) →
          ∃ ress, readAll perl input cs = some ress ∧ Sysreads body cs ress := by
  have hproper : ReadCall.Proper ⟨some .large, 1, -1⟩ := ⟨by decide, by decide⟩
  have hcroak : requestRecRead .exact (.bytewise (ascii "abc")) ⟨some .large, 1, -1⟩ =
      some (.error .offsetOutside) := by
    rw [requestRecRead_eq hproper, if_pos]
    refine ⟨by decide, ?_⟩
    have hcur : toInt (ReadCall.string ⟨some .large, 1, -1⟩).cur = -2 ^ 31 := toInt_large
    rw [hcur]
    decide
  refine ⟨hcroak, by decide +kernel, fun hall => ?_⟩
  obtain ⟨ress, hread, -⟩ := hall .exact _ _ [⟨some .large, 1, -1⟩]
    (InputFilters.bytewise_delivers (ascii "abc")) (by simpa using hproper)
  rw [readAll, hcroak] at hread
  cases hread

end ModPerl
