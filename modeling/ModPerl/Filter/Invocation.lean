import ModPerl.Filter.Wbucket
import Mathlib.Algebra.Group.Nat.Defs
import Mathlib.Algebra.Group.Int.Defs

/-!
# One invocation of a streaming filter

A filter of `mod_perl` is called with a brigade (output), or with a brigade to
fill (input).  `modperl_filter_t` lives as long as the invocation: it holds the
place in the incoming brigade up to which the Perl handler has read, what the
handler has printed and not yet passed on, and the EOS and FLUSH it has met.
`modperl_filter_ctx_t` lives as long as the filter; of it only `sent_eos` matters
here.

The functions are those of `modperl_filter.c`.  A function that may croak
returns `Except.error` with the status; the state is what the croak leaves
behind.  A result of `none` is an access outside a buffer.
-/

namespace ModPerl

/-- `modperl_filter_mode_e` -/
inductive FilterMode
  | input
  | output
  deriving DecidableEq

/-- `modperl_filter_t`, with `sent_eos` of its `modperl_filter_ctx_t`.  The place
of `bucket` is its index in `bb_in`; `leftover` are the bytes from the pointer
to the end of its bucket.  `passed` are the brigades handed to the next filter. -/
structure Filter where
  mode : FilterMode
  seenEos : Bool
  eos : Bool
  flush : Bool
  leftover : Bytes
  remaining : Nat
  wbucket : Option Wbucket
  bucket : Option Nat
  bbIn : Option Brigade
  bbOut : Brigade
  rc : Status
  sentEos : Bool
  passed : List Brigade

/-- What a call from the Perl handler comes to. -/
abbrev FilterResult (α : Type) := Option (Except Status α × Filter)

/-- `MODPERL_FILTER_ERROR` -/
def modperlFilterError : Status := 120001

/-- `APR_STATUS_IS_ECONNRESET(rc) || APR_STATUS_IS_ECONNABORTED(rc)` -/
def isConnReset (rc : Status) : Bool := rc = 104 ∨ rc = 103

/-- A `size_t` that is stored in an `int`. -/
@[irreducible] def toInt (n : Nat) : Int := Int.bmod n (2 ^ 32)

namespace Filter

/-- `modperl_filter_new`, for an input filter with the brigade to fill, for an
output filter with the one to read. -/
def new (mode : FilterMode) (bb : Brigade) (sentEos : Bool) (passed : List Brigade) : Filter where
  mode := mode
  seenEos := false
  eos := false
  flush := false
  leftover := []
  remaining := 0
  wbucket := none
  bucket := none
  bbIn := match mode with
    | .input => none
    | .output => some bb
  bbOut := match mode with
    | .input => bb
    | .output => []
  rc := aprSuccess
  sentEos := sentEos
  passed := passed

/-! ## Sending -/

/-- `send_input_eos` -/
def sendInputEos (f : Filter) : Status × Filter :=
  (aprSuccess, { f with bbOut := f.bbOut ++ [.eos], sentEos := true })

/-- `send_input_flush` -/
def sendInputFlush (f : Filter) : Status × Filter :=
  (aprSuccess, { f with bbOut := f.bbOut ++ [.flush] })

/-- `send_output_eos` -/
def sendOutputEos (httpd : Httpd) (f : Filter) : Status × Filter :=
  (httpd.passBrigade (f.passed ++ [[.eos]]),
    { f with passed := f.passed ++ [[.eos]], sentEos := true })

/-- The buffer for what the handler prints, after `WBUCKET_INIT`. -/
def output (f : Filter) : Output := ⟨f.wbucket.getD .init, none, f.passed⟩

/-- The buffer after a call on it. -/
def setOutput (f : Filter) (out : Output) : Filter :=
  { f with wbucket := some out.wb, passed := out.passed }

/-- `modperl_input_filter_flush` -/
def inputFilterFlush (f : Filter) : Status × Filter :=
  if f.sentEos then (f.rc, f)
  else
    let f :=
      if f.flush then
        let (rc, f) := f.sendInputFlush
        { f with rc, flush := false }
      else f
    let f :=
      if f.eos then
        let (rc, f) := f.sendInputEos
        { f with rc, eos := false }
      else f
    (f.rc, f)

/-- `modperl_output_filter_flush` -/
def outputFilterFlush (httpd : Httpd) (f : Filter) : Option (Status × Filter) :=
  if f.sentEos then some (f.rc, f)
  else
    let addFlushBucket := f.flush
    let f := { f with flush := false }
    (f.output.wbucketFlush httpd addFlushBucket).map fun (rc, out) =>
      let f := { f.setOutput out with rc }
      if f.rc ≠ aprSuccess then (f.rc, f)
      else if f.eos then
        let (rc, f) := f.sendOutputEos httpd
        (rc, { f with rc, bbIn := none, eos := false })
      else (f.rc, f)

/-- `modperl_input_filter_write` -/
def inputFilterWrite (f : Filter) (buf : Bytes) : Status × Filter :=
  (aprSuccess, { f with bbOut := f.bbOut ++ [.data buf] })

/-- `modperl_output_filter_write`; the number is what `*len` is set to. -/
def outputFilterWrite (httpd : Httpd) (f : Filter) (buf : Bytes) : Option (Status × Nat × Filter) :=
  (f.output.wbucketWrite httpd buf).map fun (rv, wlen, out) => (rv, wlen, f.setOutput out)

/-! ## Reading -/

/-- The place of the bucket behind the one that `bucket` points to. -/
def nextPlace (f : Filter) : Nat :=
  match f.bucket with
  | none => 0
  | some i => i + 1

/-- `get_bucket` -/
def getBucket (f : Filter) : Bool × Filter :=
  match f.bbIn with
  | none => (false, f)
  | some bb =>
      if bb = [] then (false, f)
      else
        match (bb[f.nextPlace]? : Option Bucket) with
        | none => (false, { f with bucket := none, bbIn := some [] })
        | some .eos => (false, { f with bucket := some f.nextPlace, seenEos := true })
        | some .flush => (false, { f with bucket := some f.nextPlace, flush := true })
        | some _ => (true, { f with bucket := some f.nextPlace })

/-- The bucket that `bucket` points to. -/
def current (f : Filter) : Option Bucket := f.bbIn.bind fun bb => f.bucket.bind fun i => bb[i]?

/-- The end of `modperl_filter_read` in a bucket that has all that is wanted
still: `nibble` bytes.  Where the `int` is negative, `sv_catpvn` copies without
bound. -/
def takeNibble (nibble : Int) (f : Filter) (len : Nat) (buffer buf : Bytes) :
    FilterResult (Nat × Bytes) :=
  if nibble < 0 then none
  else
    some (.ok (len + nibble.toNat, buffer ++ buf.take nibble.toNat),
      { f with leftover := buf.drop nibble.toNat, remaining := buf.length - nibble.toNat })

/-- The loop of `modperl_filter_read`, from a number of bytes `len` that are in
the buffer on.  It goes through the brigade, so the buckets and the end of the
brigade bound its rounds. -/
def readLoop (wanted : Nat) : Nat → Filter → Nat → Bytes → FilterResult (Nat × Bytes)
  | 0, _, _, _ => none
  | rounds + 1, f, len, buffer =>
      match f.getBucket with
      | (false, f) => some (.ok (len, buffer), f)
      | (true, f) =>
          match f.current with
          | some (.broken rc) => some (.error rc, { f with rc })
          | some (.data buf) =>
              let f := { f with rc := aprSuccess }
              if buf.length ≠ 0 then
                if buffer.length + buf.length ≥ wanted then
                  takeNibble (toInt (wanted - buffer.length)) f len buffer buf
                else readLoop wanted rounds f (len + buf.length) (buffer ++ buf)
              else readLoop wanted rounds f len buffer
          | _ => none

/-- `modperl_filter_read`: the number returned and the bytes in the buffer. -/
def filterRead (f : Filter) (wanted : Nat) : FilterResult (Nat × Bytes) :=
  let rounds := (f.bbIn.getD []).length + 1
  if f.seenEos then some (.ok (0, []), f)
  else if f.remaining ≠ 0 then
    if f.remaining ≥ wanted then
      some (.ok (wanted, f.leftover.take wanted),
        { f with leftover := f.leftover.drop wanted, remaining := f.remaining - wanted })
    else
      readLoop wanted rounds { f with leftover := [], remaining := 0 } f.remaining
        (f.leftover.take f.remaining)
  else readLoop wanted rounds f 0 []

/-- `modperl_output_filter_read` -/
def outputFilterRead (httpd : Httpd) (f : Filter) (wanted : Nat) : FilterResult (Nat × Bytes) :=
  (f.filterRead wanted).bind fun
    | (.error rc, f) => some (.error rc, f)
    | (.ok (len, buffer), f) =>
        if f.flush ∧ len = 0 then
          (f.outputFilterFlush httpd).map fun (rc, f) =>
            if rc ≠ aprSuccess then (.error rc, f) else (.ok (len, buffer), f)
        else some (.ok (len, buffer), f)

/-- `modperl_input_filter_read`; `upstream` is the status of `ap_get_brigade` and
what it puts into the brigade. -/
def inputFilterRead (upstream : Status × Brigade) (f : Filter) (wanted : Nat) :
    FilterResult (Nat × Bytes) :=
  let get : Status × Filter := match f.bbIn with
    | none => (upstream.1, { f with bbIn := some upstream.2 })
    | some _ => (aprSuccess, f)
  if get.1 ≠ aprSuccess then some (.error get.1, get.2)
  else
    (get.2.filterRead wanted).map fun
      | (.error rc, f) => (.error rc, f)
      | (.ok (len, buffer), f) =>
          if f.flush ∧ len = 0 then
            let (rc, f) := f.inputFilterFlush
            if rc ≠ aprSuccess then (.error rc, f) else (.ok (len, buffer), f)
          else (.ok (len, buffer), f)

/-! ## The invocation -/

/-- A Perl handler: what `modperl_callback` and `modperl_errsv` return after it. -/
abbrev Handler := Filter → Option (Status × Filter)

/-- `MP_RUN_CROAK_RESET_OK`, then `return status;` -/
def finish (rc : Status) (status : Status) : Except Status Status :=
  if rc ≠ aprSuccess ∧ ¬isConnReset rc then .error rc else .ok status

/-- `modperl_run_filter` -/
def runFilter (httpd : Httpd) (handler : Handler) (f : Filter) : FilterResult Status :=
  (handler f).bind fun (status, f) =>
    let f := if f.seenEos then { f with eos := true, seenEos := false } else f
    match f.mode with
    | .input =>
        if f.bbIn.isSome ∧ status = declined then some (.error modperlFilterError, f)
        else
          let (rc, f) := { f with bbIn := none }.inputFilterFlush
          some (finish rc status, f)
    | .output => (f.outputFilterFlush httpd).map fun (rc, f) => (finish rc status, f)

end Filter

/-- A filter between its invocations: `sent_eos`, and what it has handed to the
next filter so far. -/
structure FilterSeat where
  sentEos : Bool
  passed : List Brigade

/-- What an invocation comes to: the status that is returned or croaked with, the
filter afterwards, the brigade of the caller, and whether Perl was called. -/
structure Invoked where
  result : Except Status Status
  seat : FilterSeat
  bb : Brigade
  called : Bool

/-- `modperl_output_filter_handler` -/
def outputFilterHandler (httpd : Httpd) (handler : Filter.Handler) (seat : FilterSeat)
    (bb : Brigade) : Option Invoked :=
  let passOn (seat : FilterSeat) (bb : Brigade) (called : Bool) : Invoked :=
    ⟨.ok (httpd.passBrigade (seat.passed ++ [bb])),
      { seat with passed := seat.passed ++ [bb] }, bb, called⟩
  if seat.sentEos then some (passOn seat bb false)
  else
    ((Filter.new .output bb seat.sentEos seat.passed).runFilter httpd handler).map fun
      | (.error rc, f) => ⟨.error rc, ⟨f.sentEos, f.passed⟩, f.bbIn.getD [], true⟩
      | (.ok status, f) =>
          if status = ok then ⟨.ok aprSuccess, ⟨f.sentEos, f.passed⟩, f.bbIn.getD [], true⟩
          else if status = declined then passOn ⟨f.sentEos, f.passed⟩ (f.bbIn.getD []) true
          else ⟨.ok status, ⟨f.sentEos, f.passed⟩, f.bbIn.getD [], true⟩

/-- `modperl_input_filter_handler` -/
def inputFilterHandler (httpd : Httpd) (handler : Filter.Handler) (upstream : Status × Brigade)
    (seat : FilterSeat) (bb : Brigade) : Option Invoked :=
  if seat.sentEos then some ⟨.ok upstream.1, seat, bb ++ upstream.2, false⟩
  else
    ((Filter.new .input bb seat.sentEos seat.passed).runFilter httpd handler).map fun
      | (.error rc, f) => ⟨.error rc, ⟨f.sentEos, f.passed⟩, f.bbOut, true⟩
      | (.ok status, f) =>
          if status = ok then ⟨.ok aprSuccess, ⟨f.sentEos, f.passed⟩, f.bbOut, true⟩
          else if status = declined then
            ⟨.ok upstream.1, ⟨f.sentEos, f.passed⟩, f.bbOut ++ upstream.2, true⟩
          else if status = httpInternalServerError then
            ⟨.ok modperlFilterError, ⟨f.sentEos, f.passed⟩, f.bbOut, true⟩
          else ⟨.ok status, ⟨f.sentEos, f.passed⟩, f.bbOut, true⟩

end ModPerl
