import ModPerl.Filter.ParseHeaders
import Mathlib.Algebra.Group.Nat.Defs
import Mathlib.Algebra.Group.Int.Defs

/-!
# `$r->write`

`mpxs_Apache2__RequestRec_write` works out how many bytes to send and from
where, and hands the address to the output buffer.  It compares neither the
offset nor the length with the length of the string: what is handed over is
what the process has in its memory there.
-/

namespace ModPerl

/-- The string of a Perl scalar, and the memory of the process by its distance
from the first byte of the string. -/
structure Scalar where
  bytes : Bytes
  memory : Int → UInt8
  length_lt : bytes.length < 2 ^ 63
  memory_bytes : ∀ i : Nat, i < bytes.length → bytes[i]? = some (memory i)

/-- The `n` bytes from the address `start` on. -/
def Scalar.fetch (buffer : Scalar) (start : Int) (n : Nat) : Bytes :=
  (List.range n).map fun i : Nat => buffer.memory (start + i)

namespace Output

variable (httpd : Httpd)

/-- `modperl_wbucket_write` for a length of any size: the sum is one of
`apr_size_t`. -/
def wbucketWrite64 (out : Output) (buf : Bytes) : Option (Status × Nat × Output) :=
  if (buf.length + out.wb.outcnt) % 2 ^ 64 > ioBufSize then
    (out.wbucketFlush httpd false).bind fun (rv, out) =>
      if rv ≠ aprSuccess then some (rv, 0, out) else out.wbucketStore httpd buf
  else out.wbucketStore httpd buf

theorem wbucketWrite64_eq {out : Output} {buf : Bytes} (h : buf.length + out.wb.outcnt < 2 ^ 64) :
    out.wbucketWrite64 httpd buf = out.wbucketWrite httpd buf := by
  unfold wbucketWrite64 wbucketWrite
  rw [Nat.mod_eq_of_lt h]

end Output

/-- The exceptions of `$r->write`: there is no buffer before the response phase,
and a write that fails is an `APR::Error`. -/
inductive WriteCroak
  | notInResponse
  | failed (rc : Status)

/-- A call of `$r->write` that returns: the bytes that `modperl_wbucket_write` was
handed, the number that is returned, and the buffer afterwards. -/
structure WriteCall where
  handed : Bytes
  wlen : Nat
  out : Output

/-- The number of bytes to send. -/
def writeLength (avail : Nat) (len : UInt64) (offset : Int64) : UInt64 :=
  if len = -1 then
    if offset ≠ 0 then UInt64.ofNat avail - offset.toUInt64 else UInt64.ofNat avail
  else len

/-- `mpxs_Apache2__RequestRec_write` -/
def requestRecWrite (httpd : Httpd) (wbucket : Option Output) (buffer : Scalar) (len : UInt64)
    (offset : Int64) : Option (Except WriteCroak WriteCall) :=
  let handed := buffer.fetch offset.toInt (writeLength buffer.bytes.length len offset).toNat
  match wbucket with
  | none => some (.error .notInResponse)
  | some out =>
      (out.wbucketWrite64 httpd handed).map fun (rc, wlen, out) =>
        if rc ≠ aprSuccess then .error (.failed rc) else .ok ⟨handed, wlen, out⟩

/-- What `$r->write($buffer, $len, $offset)` is to send: `len` bytes of the string
from `offset` on, as far as there are so many, and all of them for `-1`.  There
are none at a negative offset. -/
def sliceOf (buffer : Bytes) (len : UInt64) (offset : Int64) : Bytes :=
  if offset.toInt < 0 then []
  else if len = -1 then buffer.drop offset.toInt.toNat
  else (buffer.drop offset.toInt.toNat).take len.toNat

/-- The offset is within the string, and the length, unless it is `-1`, ends
there; or nothing is to be sent. -/
def WithinScalar (buffer : Scalar) (len : UInt64) (offset : Int64) : Prop :=
  len = 0 ∨ 0 ≤ offset.toInt ∧
    offset.toInt + (if len = -1 then 0 else len.toNat : Nat) ≤ buffer.bytes.length

instance (buffer : Scalar) (len : UInt64) (offset : Int64) :
    Decidable (WithinScalar buffer len offset) :=
  inferInstanceAs (Decidable (_ ∨ _))

variable {httpd : Httpd} {wbucket : Option Output} {buffer : Scalar} {len : UInt64}
  {offset : Int64} {call : WriteCall} {n : Nat}

/-! ## Addresses -/

/-- A signed number converted to an unsigned one of the same width. -/
theorem toNat_toUInt64 (x : Int64) : (x.toUInt64.toNat : Int) = x.toInt % 2 ^ 64 := by
  rw [← Int64.toNat_toBitVec, ← Int64.toInt_toBitVec, BitVec.toInt_eq_toNat_bmod]
  simp [Int.bmod]
  omega

@[simp] theorem Scalar.length_fetch (start : Int) : (buffer.fetch start n).length = n := by
  rw [fetch, List.length_map, List.length_range]

theorem Scalar.fetch_zero (start : Int) : buffer.fetch start 0 = [] := rfl

/-- Inside the string it is the string that is fetched. -/
theorem Scalar.fetch_within {k : Nat} (h : k + n ≤ buffer.bytes.length) :
    buffer.fetch k n = (buffer.bytes.drop k).take n := by
  refine List.ext_getElem? fun i => ?_
  rw [fetch, List.getElem?_map]
  by_cases hi : i < n
  · rw [List.getElem?_range hi, Option.map_some, List.getElem?_take_of_lt hi, List.getElem?_drop,
      buffer.memory_bytes (k + i) (by omega), Int.natCast_add]
  · rw [List.getElem?_eq_none (by rw [List.length_range]; omega),
      List.getElem?_eq_none (by rw [List.length_take]; omega), Option.map_none]

theorem writeLength_minusOne (havail : n < 2 ^ 63) (hle : offset.toInt ≤ n) :
    ((writeLength n (-1) offset).toNat : Int) = n - offset.toInt := by
  have hlow := offset.le_toInt
  unfold writeLength
  rw [if_pos rfl]
  split_ifs with hoff
  · rw [UInt64.toNat_sub, UInt64.toNat_ofNat']
    have hconv := toNat_toUInt64 offset
    omega
  · obtain rfl : offset = 0 := not_not.mp hoff
    rw [UInt64.toNat_ofNat', Int64.toInt_zero]
    omega

/-- Behind the string the subtraction wraps. -/
theorem writeLength_minusOne_pos (havail : n < 2 ^ 63) (hlt : n < offset.toInt) :
    0 < (writeLength n (-1) offset).toNat := by
  have hhigh := offset.toInt_lt
  have hoff : offset ≠ 0 := by
    rintro rfl
    rw [Int64.toInt_zero] at hlt
    omega
  have hconv := toNat_toUInt64 offset
  unfold writeLength
  rw [if_pos rfl, if_pos hoff, UInt64.toNat_sub, UInt64.toNat_ofNat']
  omega

theorem writeLength_of_ne (hlen : len ≠ -1) : writeLength n len offset = len := if_neg hlen

/-! ## What is handed over -/

theorem requestRecWrite_handed
    (hcall : requestRecWrite httpd wbucket buffer len offset = some (.ok call)) :
    call.handed =
      buffer.fetch offset.toInt (writeLength buffer.bytes.length len offset).toNat := by
  unfold requestRecWrite at hcall
  cases wbucket with
  | none => cases hcall
  | some out =>
      obtain ⟨⟨rc, wlen, out'⟩, -, hres⟩ := Option.map_eq_some_iff.mp hcall
      simp only at hres
      split_ifs at hres
      exact (congrArg WriteCall.handed (Except.ok.inj hres)).symm

/-- A length of `-1`. -/
theorem fetch_minusOne_iff :
    buffer.fetch offset.toInt (writeLength buffer.bytes.length (-1) offset).toNat =
        sliceOf buffer.bytes (-1) offset ↔
      0 ≤ offset.toInt ∧ offset.toInt ≤ buffer.bytes.length := by
  have havail := buffer.length_lt
  constructor
  · intro heq
    have hlength := congrArg List.length heq
    rw [Scalar.length_fetch] at hlength
    by_contra hout
    rcases Int.lt_or_le (buffer.bytes.length : Int) offset.toInt with hlt | hge
    · -- Behind the end there is nothing to send, and the number of bytes wraps.
      have hpos := writeLength_minusOne_pos havail hlt
      rw [sliceOf, if_neg (by omega), if_pos rfl, List.length_drop] at hlength
      omega
    · have hneg : offset.toInt < 0 := by omega
      have hsub := writeLength_minusOne havail hge
      rw [sliceOf, if_pos hneg, List.length_nil] at hlength
      omega
  · rintro ⟨hzero, hle⟩
    obtain ⟨k, hk⟩ := Int.eq_ofNat_of_zero_le hzero
    have hsub := writeLength_minusOne havail hle
    rw [sliceOf, if_neg (by omega), if_pos rfl]
    rw [hk] at hsub hle ⊢
    have hwlen : (writeLength buffer.bytes.length (-1) offset).toNat =
        buffer.bytes.length - k := by omega
    rw [hwlen, Scalar.fetch_within (by omega), Int.toNat_natCast]
    exact List.take_of_length_le (List.length_drop ▸ Nat.le_refl _)

/-- Any other length. -/
theorem fetch_length_iff (hlen : len ≠ -1) :
    buffer.fetch offset.toInt len.toNat = sliceOf buffer.bytes len offset ↔
      len = 0 ∨ 0 ≤ offset.toInt ∧ offset.toInt + len.toNat ≤ buffer.bytes.length := by
  have hzero : len = 0 ↔ len.toNat = 0 := UInt64.toNat_inj.symm
  rw [hzero]
  constructor
  · intro heq
    have hlength := congrArg List.length heq
    rw [Scalar.length_fetch] at hlength
    by_cases hneg : offset.toInt < 0
    · rw [sliceOf, if_pos hneg, List.length_nil] at hlength
      exact .inl hlength
    · rw [sliceOf, if_neg hneg, if_neg hlen, List.length_take, List.length_drop] at hlength
      omega
  · rintro (hnone | ⟨hoff, hle⟩)
    · rw [hnone, Scalar.fetch_zero, sliceOf, if_neg hlen, hnone, List.take_zero]
      split_ifs <;> rfl
    · obtain ⟨k, hk⟩ := Int.eq_ofNat_of_zero_le hoff
      rw [sliceOf, if_neg (by omega), if_neg hlen, hk, Scalar.fetch_within (by omega),
        Int.toNat_natCast]

/-- A write that returns has handed on the bytes of its argument exactly if the
length is zero, or if the offset, and the end of what is to be sent, are within
the string. -/
theorem requestRecWrite_handed_iff
    (hcall : requestRecWrite httpd wbucket buffer len offset = some (.ok call)) :
    call.handed = sliceOf buffer.bytes len offset ↔ WithinScalar buffer len offset := by
  rw [requestRecWrite_handed hcall]
  unfold WithinScalar
  by_cases hlen : len = -1
  · subst hlen
    rw [fetch_minusOne_iff, if_pos rfl, Int.natCast_zero, Int.add_zero]
    exact ⟨.inr, fun h => h.resolve_left (by decide)⟩
  · rw [writeLength_of_ne hlen, fetch_length_iff hlen, if_neg hlen]

/-- A string of four bytes with two of something else behind it. -/
def Scalar.four : Scalar where
  bytes := ascii "abcd"
  memory i := if i = 4 then 0 else if i = 5 then 120 else 97 + UInt8.ofNat i.toNat
  length_lt := by decide
  memory_bytes := by decide

/-- The last two bytes are sent with a length of `-1`. -/
theorem requestRecWrite_handed_four :
    ∃ call, requestRecWrite .accepting (some ⟨.init, none, []⟩) .four (-1) 2 = some (.ok call) ∧
      call.handed = ascii "cd" := by
  obtain ⟨call, hcall⟩ : ∃ call,
      requestRecWrite .accepting (some ⟨.init, none, []⟩) .four (-1) 2 = some (.ok call) :=
    ⟨_, rfl⟩
  exact ⟨call, hcall, (requestRecWrite_handed_iff hcall).mpr (by decide)⟩

/-- Six bytes of a string of four: two bytes of the process are sent with them. -/
theorem requestRecWrite_handed_outside :
    ¬∀ (httpd : Httpd) (wbucket : Option Output) (buffer : Scalar) (len : UInt64) (offset : Int64)
      (call : WriteCall), requestRecWrite httpd wbucket buffer len offset = some (.ok call) →
        call.handed = sliceOf buffer.bytes len offset := by
  intro hall
  obtain ⟨call, hcall⟩ : ∃ call,
      requestRecWrite .accepting (some ⟨.init, none, []⟩) .four 6 0 = some (.ok call) :=
    ⟨_, rfl⟩
  have hhanded := hall _ _ _ _ _ _ hcall
  rw [requestRecWrite_handed hcall] at hhanded
  exact absurd hhanded (by decide)

/-! ## What is sent -/

theorem fetch_of_within (hwithin : WithinScalar buffer len offset) :
    buffer.fetch offset.toInt (writeLength buffer.bytes.length len offset).toNat =
      sliceOf buffer.bytes len offset := by
  unfold WithinScalar at hwithin
  by_cases hlen : len = -1
  · subst hlen
    rw [if_pos rfl, Int.natCast_zero, Int.add_zero] at hwithin
    exact fetch_minusOne_iff.mpr (hwithin.resolve_left (by decide))
  · rw [if_neg hlen] at hwithin
    rw [writeLength_of_ne hlen]
    exact (fetch_length_iff hlen).mpr hwithin

theorem length_sliceOf_le {bytes : Bytes} : (sliceOf bytes len offset).length ≤ bytes.length := by
  unfold sliceOf
  split_ifs
  · exact Nat.zero_le _
  · exact List.length_drop ▸ Nat.sub_le _ _
  · rw [List.length_take, List.length_drop]
    omega

/-- A write inside the string behaves as one of the bytes that it is to send: they
are accepted behind all that was written before, and counted. -/
theorem requestRecWrite_sends {out : Output} (hnext : httpd.TakesAll) (hplain : out.Plain)
    (hwithin : WithinScalar buffer len offset) :
    ∃ out', requestRecWrite httpd (some out) buffer len offset =
        some (.ok ⟨sliceOf buffer.bytes len offset, (sliceOf buffer.bytes len offset).length,
          out'⟩) ∧
      out.Accepts out' (sliceOf buffer.bytes len offset) := by
  have hslice := fetch_of_within hwithin
  have hshort : (sliceOf buffer.bytes len offset).length ≤ buffer.bytes.length := length_sliceOf_le
  have havail := buffer.length_lt
  have hcnt := hplain.outcnt_le
  have hsize : ioBufSize = 8192 := rfl
  obtain ⟨out', hwrite, haccepts⟩ :=
    Output.wbucketWrite_success hnext hplain (sliceOf buffer.bytes len offset)
  refine ⟨out', ?_, haccepts⟩
  unfold requestRecWrite
  simp only [hslice]
  rw [Output.wbucketWrite64_eq httpd (by omega), hwrite]
  rfl

end ModPerl
