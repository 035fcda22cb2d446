import ModPerl.Request.Write

/-!
# The output of a response

A response handler sends its output by any mix of `$r->print`, `puts`, `printf`,
`write`, `rflush` and `sendfile`, of prints to a STDOUT with the `:Apache2` layer,
and of settings of `$|`; the exception of one call may be caught and further calls
follow.  All of them but `sendfile` go through the one output buffer, and
`sendfile` empties it before the file goes to the output filters directly.  So
the bytes reach the filters in the order of the calls: of each call a part from
the front of what it is to send, and all of it unless the call croaks.
-/

namespace ModPerl

/-- What the functions return to Perl. -/
inductive OutputReturn
  | nothing
  | bytes (n : Nat)
  | zeroButTrue
  | status (rc : Status)
  deriving DecidableEq

/-- What a call returned or croaked with, and the state afterwards; `none` is an
access outside of the process's own memory. -/
abbrev OutputResult (σ : Type) := Option (Except WriteCroak OutputReturn × σ)

/-- `PerlIOApache`: whether `PERLIO_F_CANWRITE` is set, and whether its request is
still there. -/
structure PerlIOApache where
  canWrite : Bool
  hasRequest : Bool
  deriving DecidableEq

namespace Output

variable (httpd : Httpd) (isReset : Status → Bool)

/-- `MP_RUN_CROAK` around a flush -/
def flushCroak (out : Output) (addFlushBucket : Bool) (ret : OutputReturn) :
    OutputResult Output :=
  (out.wbucketFlush httpd addFlushBucket).map fun res =>
    (if res.1 ≠ aprSuccess then .error (.failed res.1) else .ok ret, res.2)

/-- `MP_RUN_CROAK_RESET_OK` around a flush: that the client went away is only logged. -/
def flushCroakResetOk (out : Output) (addFlushBucket : Bool) (ret : OutputReturn) :
    OutputResult Output :=
  (out.wbucketFlush httpd addFlushBucket).map fun res =>
    (if res.1 ≠ aprSuccess ∧ isReset res.1 = false then .error (.failed res.1) else .ok ret, res.2)

/-- `MP_RUN_CROAK` around a write of the bytes; the value is their number. -/
def writeCroak (out : Output) (buf : Bytes) : Option (Except WriteCroak Nat × Output) :=
  (out.wbucketWrite httpd buf).map fun res =>
    (if res.1 ≠ aprSuccess then .error (.failed res.1) else .ok res.2.1, res.2.2)

/-- `mpxs_write_loop` -/
def writeLoop (bytes : Nat) : Output → List Bytes → Option (Except WriteCroak Nat × Output)
  | out, [] => some (.ok bytes, out)
  | out, buf :: args =>
      (out.writeCroak httpd buf).bind fun res =>
        match res.1 with
        | .error croak => some (.error croak, res.2)
        | .ok wlen => writeLoop (bytes + wlen) res.2 args

/-- `mpxs_output_flush`, if `$|` is set, and then the return value. -/
def outputFlush (ioFlush : Bool) (out : Output) (ret : OutputReturn) : OutputResult Output :=
  if ioFlush then out.flushCroak httpd true ret else some (.ok ret, out)

/-- `mpxs_ap_rvputs` -/
def rvputs (out : Output) (args : List Bytes) : OutputResult Output :=
  (out.writeLoop httpd 0 args).map fun res => (res.1.map .bytes, res.2)

/-- `mpxs_Apache2__RequestRec_print` -/
def print (ioFlush : Bool) (out : Output) (args : List Bytes) : OutputResult Output :=
  (out.writeLoop httpd 0 args).bind fun res =>
    match res.1 with
    | .error croak => some (.error croak, res.2)
    | .ok bytes =>
        res.2.outputFlush httpd ioFlush (if bytes ≠ 0 then .bytes bytes else .zeroButTrue)

/-- `mpxs_ap_rprintf` of what `modperl_perl_do_sprintf` makes of the arguments. -/
def rprintf (ioFlush : Bool) (out : Output) (text : Bytes) : OutputResult Output :=
  (out.writeCroak httpd text).bind fun res =>
    match res.1 with
    | .error croak => some (.error croak, res.2)
    | .ok bytes => res.2.outputFlush httpd ioFlush (.bytes bytes)

/-- `mpxs_Apache2__RequestRec_write`, with the buffer also where it croaks. -/
def write (out : Output) (buffer : Scalar) (len : UInt64) (offset : Int64) : OutputResult Output :=
  let wlen := writeLength buffer.bytes.length len offset
  (out.wbucketWrite64 httpd (buffer.fetch offset.toInt wlen.toNat)).map fun res =>
    (if res.1 ≠ aprSuccess then .error (.failed res.1) else .ok (.bytes res.2.1), res.2.2)

/-- `mpxs_Apache2__RequestRec_rflush` -/
def rflush (out : Output) : OutputResult Output := out.flushCroakResetOk httpd isReset true .nothing

/-- `PerlIOApache_write` -/
def layerWrite (f : PerlIOApache) (out : Output) (buf : Bytes) : OutputResult Output :=
  if ¬f.canWrite then some (.ok (.bytes 0), out)
  else if ¬f.hasRequest then none
  else (out.writeCroak httpd buf).map fun res => (res.1.map .bytes, res.2)

/-- `PerlIOApache_flush` -/
def layerFlush (f : PerlIOApache) (out : Output) : OutputResult Output :=
  if ¬f.hasRequest then some (.ok (.status (-1)), out)
  else if ¬f.canWrite then some (.ok (.status (-1)), out)
  else out.flushCroakResetOk httpd isReset false (.status 0)

/-- The number of bytes that `sendfile` asks for; `0` is the rest of the file. -/
def sendfileLength (size : Nat) (offset : Int64) (len : UInt64) : UInt64 :=
  if len = 0 then
    if offset ≠ 0 then UInt64.ofNat size - offset.toUInt64 else UInt64.ofNat size
  else len

/-- `ap_send_fd`, which passes on a brigade of the file, and the end of `sendfile`. -/
def sendFd (out : Output) (bb : Brigade) (void : Bool) : OutputResult Output :=
  let sent := out.passBrigade httpd bb
  some (if void = true ∧ sent.1 ≠ aprSuccess then .error (.failed sent.1) else .ok (.status sent.1),
    sent.2)

/-- `mpxs_Apache2__RequestRec_sendfile`, in void context or not, of a file that does
not open, with this status, or has this content; `brigade` is what `ap_send_fd` makes
of the file. -/
def sendfile (brigade : Bytes → Int64 → UInt64 → Brigade) (out : Output)
    (file : Except Status Bytes) (offset : Int64) (len : UInt64) (void : Bool) :
    OutputResult Output :=
  match file with
  | .error rc => some (if void then .error (.failed rc) else .ok (.status rc), out)
  | .ok content =>
      let bb := brigade content offset (sendfileLength content.length offset len)
      if out.wb.outcnt ≠ 0 then
        (out.flushCroak httpd true .nothing).bind fun res =>
          match res.1 with
          | .error croak => some (.error croak, res.2)
          | .ok _ => res.2.sendFd httpd bb void
      else out.sendFd httpd bb void

end Output

/-! ## A response handler -/

/-- What the handler does with its output. -/
inductive OutputCall
  | print (args : List Bytes)
  | puts (args : List Bytes)
  | printf (text : Bytes)
  | write (buffer : Scalar) (len : UInt64) (offset : Int64)
  | rflush
  | sendfile (file : Except Status Bytes) (offset : Int64) (len : UInt64) (void : Bool)
  | layerWrite (f : PerlIOApache) (buf : Bytes)
  | layerFlush (f : PerlIOApache)
  | autoflush (set : Bool)

/-- The buffer, and `IoFLUSH(PL_defoutgv)`. -/
structure Responding where
  out : Output
  ioFlush : Bool

/-- What the server has for the output. -/
structure OutputServer where
  httpd : Httpd
  isReset : Status → Bool
  sendFd : Bytes → Int64 → UInt64 → Brigade

namespace Responding

variable (server : OutputServer)

def step (s : Responding) (c : OutputCall) : OutputResult Responding :=
  let on (res : OutputResult Output) : OutputResult Responding :=
    res.map fun res => (res.1, { s with out := res.2 })
  match c with
  | .print args => on (s.out.print server.httpd s.ioFlush args)
  | .puts args => on (s.out.rvputs server.httpd args)
  | .printf text => on (s.out.rprintf server.httpd s.ioFlush text)
  | .write buffer len offset => on (s.out.write server.httpd buffer len offset)
  | .rflush => on (s.out.rflush server.httpd server.isReset)
  | .sendfile file offset len void =>
      on (s.out.sendfile server.httpd server.sendFd file offset len void)
  | .layerWrite f buf => on (s.out.layerWrite server.httpd f buf)
  | .layerFlush f => on (s.out.layerFlush server.httpd server.isReset f)
  | .autoflush set => some (.ok .nothing, { s with ioFlush := set })

/-- The calls, each whatever the one before it ended with, and their results. -/
def run : Responding → List OutputCall → Option (List (Except WriteCroak OutputReturn) × Responding)
  | s, [] => some ([], s)
  | s, c :: cs =>
      (s.step server c).bind fun res =>
        (run res.2 cs).map fun rest => (res.1 :: rest.1, rest.2)

end Responding

/-- The bytes that a call is to send. -/
def OutputCall.text : OutputCall → Bytes
  | .print args => args.flatten
  | .puts args => args.flatten
  | .printf text => text
  | .write buffer len offset => sliceOf buffer.bytes len offset
  | .sendfile (.ok content) offset len _ =>
      if len = 0 then content.drop offset.toInt.toNat
      else (content.drop offset.toInt.toNat).take len.toNat
  | .layerWrite f buf => if f.canWrite then buf else []
  | _ => []

/-- The ranges of a call are within what they are ranges of, and a STDOUT that is
written to is open. -/
def OutputCall.Within : OutputCall → Prop
  | .write buffer len offset => WithinScalar buffer len offset
  | .sendfile (.ok content) offset len _ =>
      content.length < 2 ^ 63 ∧ 0 ≤ offset.toInt ∧ offset.toInt + len.toNat ≤ content.length
  | .layerWrite f _ => f.canWrite → f.hasRequest
  | _ => True

/-- A call after which nothing waits in the buffer. -/
def OutputCall.Flushes (ioFlush : Bool) : OutputCall → Prop
  | .print _ => ioFlush
  | .printf _ => ioFlush
  | .rflush => True
  | .sendfile (.ok _) _ _ _ => True
  | .layerFlush f => f.canWrite ∧ f.hasRequest
  | _ => False

/-- These bytes are of the calls, in their order: from the front of what each is
to send, and all of it where the call did not croak. -/
inductive SentBy : List OutputCall → List (Except WriteCroak OutputReturn) → Bytes → Prop
  | nil : SentBy [] [] []
  | cons {c : OutputCall} {cs : List OutputCall} {res : Except WriteCroak OutputReturn}
      {ress : List (Except WriteCroak OutputReturn)} {buf bufs : Bytes} (part : buf <+: c.text)
      (whole : res.isOk = true → buf = c.text) (rest : SentBy cs ress bufs) :
      SentBy (c :: cs) (res :: ress) (buf ++ bufs)

/-- `ap_send_fd` passes on the bytes of the file from the offset on, if there are so
many, and no EOS. -/
structure OutputServer.SendsFile (server : OutputServer) : Prop where
  bytes : ∀ content offset len, 0 ≤ Int64.toInt offset →
    offset.toInt + len.toNat ≤ content.length →
    Brigade.bytes (server.sendFd content offset len) =
      (content.drop offset.toInt.toNat).take len.toNat
  eos : ∀ content offset len, Bucket.eos ∉ server.sendFd content offset len

namespace Output

variable {α β : Type} {httpd : Httpd} {isReset : Status → Bool} {out out' : Output}
  {text text' acc buf : Bytes} {addFlushBucket ioFlush : Bool} {ret : OutputReturn}

/-- The call accepted a part of the text, and all of it unless it croaked, which it does
not if the next filter takes everything. -/
def Sends (httpd : Httpd) (out : Output) (text : Bytes) (res : Except WriteCroak α × Output) :
    Prop :=
  ∃ acc, out.Accepts res.2 acc ∧ acc <+: text ∧ (res.1.isOk = true → acc = text) ∧
    (httpd.TakesAll → res.1.isOk = true)

/-! ## One call -/

theorem Sends.of_ok {val : α} (haccepts : out.Accepts out' text) :
    Sends httpd out text (.ok val, out') :=
  ⟨text, haccepts, List.prefix_rfl, fun _ => rfl, fun _ => rfl⟩

theorem Sends.of_croak {croak : WriteCroak} (haccepts : out.Accepts out' acc)
    (hpart : acc <+: text) (hrefuses : ¬httpd.TakesAll) :
    Sends httpd out text ((.error croak : Except WriteCroak α), out') :=
  ⟨acc, haccepts, hpart, nofun, fun hnext => absurd hnext hrefuses⟩

theorem Sends.accepts {val : α} (h : Sends httpd out text (.ok val, out')) :
    out.Accepts out' text := by
  obtain ⟨acc, haccepts, -, hwhole, -⟩ := h
  exact hwhole rfl ▸ haccepts

/-- What follows a call that accepted all its bytes. -/
theorem Sends.after {res : Except WriteCroak α × Output} (haccepts : out.Accepts out' text)
    (h : Sends httpd out' text' res) : Sends httpd out (text ++ text') res := by
  obtain ⟨acc, haccepts', hpart, hwhole, hok⟩ := h
  refine ⟨text ++ acc, haccepts.trans haccepts', ?_, fun h => by rw [hwhole h], hok⟩
  exact (List.prefix_append_right_inj text).mpr hpart

/-- What a croak has skipped. -/
theorem Sends.croak {croak : WriteCroak}
    (h : Sends httpd out text ((.error croak : Except WriteCroak α), out'))
    (hpart : text <+: text') :
    Sends httpd out text' ((.error croak : Except WriteCroak β), out') := by
  obtain ⟨acc, haccepts, hacc, -, hok⟩ := h
  exact .of_croak haccepts (hacc.trans hpart) fun hnext => by cases hok hnext

theorem Sends.map {res : Except WriteCroak α × Output} (h : Sends httpd out text res)
    (f : α → β) : Sends httpd out text (res.1.map f, res.2) := by
  obtain ⟨val, out'⟩ := res
  cases val with
  | error croak => exact h.croak List.prefix_rfl
  | ok val => exact .of_ok h.accepts

theorem writeCroak_sends (httpd : Httpd) (hplain : out.Plain) (buf : Bytes) :
    ∃ res, out.writeCroak httpd buf = some res ∧ Sends httpd out buf res := by
  rcases @wbucketWrite_accepts httpd out hplain buf with
    ⟨rv, out', ⟨-, hrv, hflush⟩, hwrite, haccepts⟩ | ⟨-, rv, out', hwrite, haccepts⟩
  · refine ⟨_, by rw [writeCroak, hwrite]; rfl, ?_⟩
    simp only [hrv, ne_eq, not_false_eq_true, if_true]
    exact .of_croak haccepts List.nil_prefix fun hnext =>
      hrv (wbucketFlush_success hnext hplain hflush)
  · refine ⟨_, by rw [writeCroak, hwrite]; rfl, buf, haccepts, List.prefix_rfl, fun _ => rfl,
      fun hnext => ?_⟩
    obtain ⟨out₁, hwrite₁, -⟩ := wbucketWrite_success hnext hplain buf
    rw [hwrite, Option.some_inj, Prod.mk.injEq] at hwrite₁
    simp [hwrite₁.1, Except.isOk, Except.toBool]

theorem writeLoop_sends (httpd : Httpd) (hplain : out.Plain) (args : List Bytes) (bytes : Nat) :
    ∃ res, out.writeLoop httpd bytes args = some res ∧ Sends httpd out args.flatten res := by
  induction args generalizing out bytes with
  | nil => exact ⟨_, rfl, .of_ok (.refl hplain)⟩
  | cons buf args ih =>
      obtain ⟨⟨wrote, out₁⟩, hwrite, hfirst⟩ := writeCroak_sends httpd hplain buf
      rw [writeLoop, hwrite, Option.bind_some]
      cases wrote with
      | error croak => exact ⟨_, rfl, hfirst.croak (List.prefix_append buf args.flatten)⟩
      | ok wlen =>
          obtain ⟨res, hloop, hrest⟩ := ih hfirst.accepts.plain (bytes + wlen)
          exact ⟨res, hloop, hrest.after hfirst.accepts⟩

/-- A flush accepts nothing, and leaves the buffer empty however it ends. -/
theorem flushCroak_sends (httpd : Httpd) (hplain : out.Plain) (addFlushBucket : Bool)
    (ret : OutputReturn) :
    ∃ res, out.flushCroak httpd addFlushBucket ret = some res ∧ Sends httpd out [] res ∧
      res.2.wb.outcnt = 0 := by
  obtain ⟨rv, out', hflush, haccepts, hempty⟩ := wbucketFlush_accepts httpd hplain addFlushBucket
  refine ⟨_, by rw [flushCroak, hflush]; rfl, ⟨[], haccepts, List.nil_prefix, fun _ => rfl,
    fun hnext => ?_⟩, hempty⟩
  simp [wbucketFlush_success hnext hplain hflush, Except.isOk, Except.toBool]

theorem flushCroakResetOk_sends (httpd : Httpd) (isReset : Status → Bool) (hplain : out.Plain)
    (addFlushBucket : Bool) (ret : OutputReturn) :
    ∃ res, out.flushCroakResetOk httpd isReset addFlushBucket ret = some res ∧
      Sends httpd out [] res ∧ res.2.wb.outcnt = 0 := by
  obtain ⟨rv, out', hflush, haccepts, hempty⟩ := wbucketFlush_accepts httpd hplain addFlushBucket
  refine ⟨_, by rw [flushCroakResetOk, hflush]; rfl, ⟨[], haccepts, List.nil_prefix,
    fun _ => rfl, fun hnext => ?_⟩, hempty⟩
  simp [wbucketFlush_success hnext hplain hflush, Except.isOk, Except.toBool]

/-- With `$|` nothing waits after what was written. -/
theorem outputFlush_sends (httpd : Httpd) (hplain : out.Plain) (ioFlush : Bool)
    (ret : OutputReturn) :
    ∃ res, out.outputFlush httpd ioFlush ret = some res ∧ Sends httpd out [] res ∧
      (ioFlush = true → res.2.wb.outcnt = 0) := by
  cases ioFlush with
  | false =>
      refine ⟨_, rfl, .of_ok (.refl hplain), fun h => ?_⟩
      cases h
  | true =>
      obtain ⟨res, hflush, hsend, hempty⟩ := flushCroak_sends httpd hplain true ret
      exact ⟨res, hflush, hsend, fun _ => hempty⟩

theorem rvputs_sends (httpd : Httpd) (hplain : out.Plain) (args : List Bytes) :
    ∃ res, out.rvputs httpd args = some res ∧ Sends httpd out args.flatten res := by
  obtain ⟨res, hloop, hsend⟩ := writeLoop_sends httpd hplain args 0
  exact ⟨_, by rw [rvputs, hloop]; rfl, hsend.map OutputReturn.bytes⟩

theorem print_sends (httpd : Httpd) (hplain : out.Plain) (ioFlush : Bool) (args : List Bytes) :
    ∃ res, out.print httpd ioFlush args = some res ∧ Sends httpd out args.flatten res ∧
      (ioFlush = true → res.1.isOk = true → res.2.wb.outcnt = 0) := by
  obtain ⟨⟨wrote, out₁⟩, hloop, hfirst⟩ := writeLoop_sends httpd hplain args 0
  rw [print, hloop, Option.bind_some]
  cases wrote with
  | error croak =>
      refine ⟨_, rfl, hfirst.croak List.prefix_rfl, fun _ h => ?_⟩
      cases h
  | ok bytes =>
      obtain ⟨res, hflush, hrest, hempty⟩ := outputFlush_sends httpd hfirst.accepts.plain ioFlush
        (if bytes ≠ 0 then .bytes bytes else .zeroButTrue)
      refine ⟨res, hflush, by simpa using hrest.after hfirst.accepts, fun hset _ => hempty hset⟩

theorem rprintf_sends (httpd : Httpd) (hplain : out.Plain) (ioFlush : Bool) (text : Bytes) :
    ∃ res, out.rprintf httpd ioFlush text = some res ∧ Sends httpd out text res ∧
      (ioFlush = true → res.1.isOk = true → res.2.wb.outcnt = 0) := by
  obtain ⟨⟨wrote, out₁⟩, hwrite, hfirst⟩ := writeCroak_sends httpd hplain text
  rw [rprintf, hwrite, Option.bind_some]
  cases wrote with
  | error croak =>
      refine ⟨_, rfl, hfirst.croak List.prefix_rfl, fun _ h => ?_⟩
      cases h
  | ok bytes =>
      obtain ⟨res, hflush, hrest, hempty⟩ :=
        outputFlush_sends httpd hfirst.accepts.plain ioFlush (.bytes bytes)
      refine ⟨res, hflush, by simpa using hrest.after hfirst.accepts, fun hset _ => hempty hset⟩

theorem write_sends (httpd : Httpd) (hplain : out.Plain) {buffer : Scalar} {len : UInt64}
    {offset : Int64} (hwithin : WithinScalar buffer len offset) :
    ∃ res, out.write httpd buffer len offset = some res ∧
      Sends httpd out (sliceOf buffer.bytes len offset) res := by
  have hlength : (sliceOf buffer.bytes len offset).length + out.wb.outcnt < 2 ^ 64 := by
    have hle : (sliceOf buffer.bytes len offset).length ≤ buffer.bytes.length := length_sliceOf_le
    have havail := buffer.length_lt
    have hcnt := hplain.outcnt_le
    have hsize : ioBufSize = 8192 := rfl
    omega
  obtain ⟨res, hwrite, hsend⟩ :=
    writeCroak_sends httpd hplain (sliceOf buffer.bytes len offset)
  refine ⟨(res.1.map OutputReturn.bytes, res.2), ?_, hsend.map OutputReturn.bytes⟩
  obtain ⟨wrote, hwrote, rfl⟩ := Option.map_eq_some_iff.mp hwrite
  unfold write
  simp only
  rw [fetch_of_within hwithin, wbucketWrite64_eq httpd hlength, hwrote, Option.map_some]
  simp only [Option.some_inj, Prod.mk.injEq, and_true]
  split_ifs <;> rfl

theorem layerWrite_sends (httpd : Httpd) (hplain : out.Plain) {f : PerlIOApache}
    (hopen : f.canWrite = true → f.hasRequest = true) (buf : Bytes) :
    ∃ res, out.layerWrite httpd f buf = some res ∧
      Sends httpd out (if f.canWrite then buf else []) res := by
  unfold layerWrite
  by_cases hcan : f.canWrite = true
  · obtain ⟨res, hwrite, hsend⟩ := writeCroak_sends httpd hplain buf
    rw [if_neg (not_not.mpr hcan), if_neg (not_not.mpr (hopen hcan)), if_pos hcan, hwrite]
    exact ⟨_, rfl, hsend.map OutputReturn.bytes⟩
  · rw [if_pos hcan, if_neg hcan]
    exact ⟨_, rfl, .of_ok (.refl hplain)⟩

theorem layerFlush_sends (httpd : Httpd) (isReset : Status → Bool) (hplain : out.Plain)
    (f : PerlIOApache) :
    ∃ res, out.layerFlush httpd isReset f = some res ∧ Sends httpd out [] res ∧
      (f.canWrite = true ∧ f.hasRequest = true → res.2.wb.outcnt = 0) := by
  unfold layerFlush
  by_cases hrequest : f.hasRequest = true
  · rw [if_neg (not_not.mpr hrequest)]
    by_cases hcan : f.canWrite = true
    · obtain ⟨res, hflush, hsend, hempty⟩ :=
        flushCroakResetOk_sends httpd isReset hplain false (.status 0)
      rw [if_neg (not_not.mpr hcan)]
      exact ⟨res, hflush, hsend, fun _ => hempty⟩
    · rw [if_pos hcan]
      exact ⟨_, rfl, .of_ok (.refl hplain), fun h => absurd h.1 hcan⟩
  · rw [if_pos hrequest]
    exact ⟨_, rfl, .of_ok (.refl hplain), fun h => absurd h.2 hrequest⟩

theorem toNat_sendfileLength {size : Nat} {offset : Int64} {len : UInt64} (hsize : size < 2 ^ 63)
    (hoff : 0 ≤ offset.toInt) (hle : offset.toInt + len.toNat ≤ size) :
    (sendfileLength size offset len).toNat =
      if len = 0 then size - offset.toInt.toNat else len.toNat := by
  have hconv := toNat_toUInt64 offset
  have hhigh := offset.toInt_lt
  unfold sendfileLength
  split_ifs with hlen hzero
  · rw [UInt64.toNat_sub, UInt64.toNat_ofNat']
    omega
  · obtain rfl : offset = 0 := not_not.mp hzero
    rw [UInt64.toNat_ofNat', Int64.toInt_zero]
    omega
  · rfl

/-- A file is sent behind all that was written before if nothing waits. -/
theorem sendFd_sends (httpd : Httpd) (hplain : out.Plain) (hempty : out.wb.outcnt = 0)
    {bb : Brigade} (heos : Bucket.eos ∉ bb) (void : Bool) :
    ∃ res, out.sendFd httpd bb void = some res ∧ Sends httpd out bb.bytes res ∧
      res.2.wb.outcnt = 0 := by
  refine ⟨_, rfl, ⟨bb.bytes, ⟨⟨hplain.headerParse, hplain.outcnt_le⟩, rfl, ?_, [bb], rfl, ?_⟩,
    List.prefix_rfl, fun _ => rfl, fun hnext => ?_⟩, hempty⟩
  · simp [passBrigade, sent, held_of_outcnt_zero hempty]
  · intro bb' hbb
    exact List.mem_singleton.mp hbb ▸ heos
  · simp [passBrigade, hnext _, Except.isOk, Except.toBool]

theorem sendfile_sends {server : OutputServer} (hsends : server.SendsFile) (hplain : out.Plain)
    {content : Bytes} {offset : Int64} {len : UInt64} (hsize : content.length < 2 ^ 63)
    (hoff : 0 ≤ offset.toInt) (hle : offset.toInt + len.toNat ≤ content.length) (void : Bool) :
    ∃ res, out.sendfile server.httpd server.sendFd (.ok content) offset len void = some res ∧
      Sends server.httpd out (OutputCall.sendfile (.ok content) offset len void).text res ∧
      res.2.wb.outcnt = 0 := by
  have hlength := toNat_sendfileLength hsize hoff hle
  have hfile : Brigade.bytes (server.sendFd content offset
      (sendfileLength content.length offset len)) =
        (OutputCall.sendfile (.ok content) offset len void).text := by
    rw [hsends.bytes content offset _ hoff (by rw [hlength]; split_ifs <;> omega), hlength,
      OutputCall.text]
    split_ifs
    · exact List.take_of_length_le (by rw [List.length_drop])
    · rfl
  rw [← hfile]
  unfold sendfile
  simp only
  split_ifs with hcnt
  · obtain ⟨⟨flushed, out₁⟩, hflush, hfirst, hempty⟩ :=
      flushCroak_sends server.httpd hplain true .nothing
    rw [hflush, Option.bind_some]
    cases flushed with
    | error croak => exact ⟨_, rfl, hfirst.croak List.nil_prefix, hempty⟩
    | ok ret =>
        obtain ⟨res, hsend, hrest, hsent⟩ := sendFd_sends server.httpd hfirst.accepts.plain hempty
          (hsends.eos content offset (sendfileLength content.length offset len)) void
        exact ⟨res, hsend, hrest.after hfirst.accepts, hsent⟩
  · exact sendFd_sends server.httpd hplain (not_not.mp hcnt) (hsends.eos _ _ _) void

end Output

namespace Responding

open Output

variable {server : OutputServer} {s : Responding} {c : OutputCall} {cs : List OutputCall}

/-- What a call does to the output: of the bytes it is to send it accepts these. -/
structure Step (server : OutputServer) (s : Responding) (c : OutputCall)
    (res : Except WriteCroak OutputReturn) (s' : Responding) (buf : Bytes) : Prop where
  accepts : s.out.Accepts s'.out buf
  part : buf <+: c.text
  whole : res.isOk = true → buf = c.text
  takesAll : server.httpd.TakesAll → buf = c.text
  flushed : c.Flushes s.ioFlush → res.isOk = true → s'.out.wb.outcnt = 0

theorem Step.of_sends {res : Except WriteCroak OutputReturn × Output}
    (h : Sends server.httpd s.out c.text res)
    (hflushed : c.Flushes s.ioFlush → res.1.isOk = true → res.2.wb.outcnt = 0) :
    ∃ buf, Step server s c res.1 { s with out := res.2 } buf := by
  obtain ⟨buf, haccepts, hpart, hwhole, hok⟩ := h
  exact ⟨buf, haccepts, hpart, hwhole, fun hnext => hwhole (hok hnext), hflushed⟩

theorem step_exists (hsends : server.SendsFile) (hplain : s.out.Plain) (hwithin : c.Within) :
    ∃ res buf, s.step server c = some res ∧ Step server s c res.1 res.2 buf := by
  cases c with
  | print args =>
      obtain ⟨res, hres, hsend, hempty⟩ := print_sends server.httpd hplain s.ioFlush args
      obtain ⟨buf, hstep⟩ := Step.of_sends (c := .print args) hsend hempty
      exact ⟨_, buf, by rw [step, hres]; rfl, hstep⟩
  | puts args =>
      obtain ⟨res, hres, hsend⟩ := rvputs_sends server.httpd hplain args
      obtain ⟨buf, hstep⟩ := Step.of_sends (c := .puts args) hsend nofun
      exact ⟨_, buf, by rw [step, hres]; rfl, hstep⟩
  | printf text =>
      obtain ⟨res, hres, hsend, hempty⟩ := rprintf_sends server.httpd hplain s.ioFlush text
      obtain ⟨buf, hstep⟩ := Step.of_sends (c := .printf text) hsend hempty
      exact ⟨_, buf, by rw [step, hres]; rfl, hstep⟩
  | write buffer len offset =>
      obtain ⟨res, hres, hsend⟩ := write_sends server.httpd hplain hwithin
      obtain ⟨buf, hstep⟩ := Step.of_sends (c := .write buffer len offset) hsend nofun
      exact ⟨_, buf, by rw [step, hres]; rfl, hstep⟩
  | rflush =>
      obtain ⟨res, hres, hsend, hempty⟩ :=
        flushCroakResetOk_sends server.httpd server.isReset hplain true .nothing
      obtain ⟨buf, hstep⟩ := Step.of_sends (c := .rflush) hsend fun _ _ => hempty
      exact ⟨_, buf, by rw [step, rflush, hres]; rfl, hstep⟩
  | sendfile file offset len void =>
      cases file with
      | error rc =>
          exact ⟨_, [], rfl, .refl hplain, List.nil_prefix, fun _ => rfl, fun _ => rfl, nofun⟩
      | ok content =>
          obtain ⟨hsize, hoff, hle⟩ := hwithin
          obtain ⟨res, hres, hsend, hempty⟩ :=
            sendfile_sends hsends hplain hsize hoff hle void
          obtain ⟨buf, hstep⟩ := Step.of_sends hsend fun _ _ => hempty
          exact ⟨_, buf, by rw [step, hres]; rfl, hstep⟩
  | layerWrite f buf =>
      obtain ⟨res, hres, hsend⟩ := layerWrite_sends server.httpd hplain hwithin buf
      obtain ⟨buf', hstep⟩ := Step.of_sends (c := .layerWrite f buf) hsend nofun
      exact ⟨_, buf', by rw [step, hres]; rfl, hstep⟩
  | layerFlush f =>
      obtain ⟨res, hres, hsend, hempty⟩ :=
        layerFlush_sends server.httpd server.isReset hplain f
      obtain ⟨buf, hstep⟩ := Step.of_sends (c := .layerFlush f) hsend fun h _ => hempty h
      exact ⟨_, buf, by rw [step, hres]; rfl, hstep⟩
  | autoflush set =>
      exact ⟨_, [], rfl, .refl hplain, List.nil_prefix, fun _ => rfl, fun _ => rfl, nofun⟩

theorem run_exists (hsends : server.SendsFile) (hplain : s.out.Plain)
    (hwithin : ∀ c ∈ cs, c.Within) :
    ∃ ress s' bufs, s.run server cs = some (ress, s') ∧ s.out.Accepts s'.out bufs ∧
      SentBy cs ress bufs ∧ (server.httpd.TakesAll → bufs = cs.flatMap OutputCall.text) := by
  induction cs generalizing s with
  | nil => exact ⟨[], s, [], rfl, .refl hplain, .nil, fun _ => rfl⟩
  | cons c cs ih =>
      obtain ⟨⟨res, s₁⟩, buf, hstep, hfirst⟩ :=
        step_exists hsends hplain (hwithin c List.mem_cons_self)
      obtain ⟨ress, s', bufs, hrun, haccepts, hsent, hall⟩ :=
        ih hfirst.accepts.plain fun c' hc' => hwithin c' (List.mem_cons_of_mem c hc')
      refine ⟨res :: ress, s', buf ++ bufs, ?_, hfirst.accepts.trans haccepts,
        .cons hfirst.part hfirst.whole hsent, fun hnext => ?_⟩
      · rw [run, hstep, Option.bind_some, hrun]
        rfl
      · rw [hfirst.takesAll hnext, hall hnext, List.flatMap_cons]

end Responding

/-- `modperl_response_init`, with `MpDirPARSE_HEADERS` and `MpReqPARSE_HEADERS`. -/
def responseStart (dirParseHeaders reqParseHeaders : Bool) (r : RequestRec) (outbuf : Bytes)
    (h : outbuf.length = ioBufSize) : Output :=
  { responseInit r outbuf h with wb := ⟨0, outbuf, dirParseHeaders && reqParseHeaders, h⟩ }

/-- `modperl_response_finish` -/
def responseFinish (httpd : Httpd) (out : Output) : Option (Status × Output) :=
  out.wbucketFlush httpd false

/-- For every response without `+ParseHeaders` and every list of calls, whatever the next
filter answers, and whether or not the exceptions of the calls are caught: no call goes
outside its own bytes; what was handed to the filters, and then what waits, is of the
calls in their order, of each a part from the front, all of it unless it croaked, and all
of all calls if the next filter takes everything; a call that flushes and returns leaves
nothing waiting; and when the response is finished everything was handed on. -/
theorem response_in_order {server : OutputServer} {dirParseHeaders reqParseHeaders ioFlush : Bool}
    {r : RequestRec} {outbuf : Bytes} {h : outbuf.length = ioBufSize} {cs : List OutputCall}
    (hsends : server.SendsFile) (hparse : (dirParseHeaders && reqParseHeaders) = false)
    (hwithin : ∀ c ∈ cs, c.Within) :
    ∃ ress s' bufs,
      Responding.run server ⟨responseStart dirParseHeaders reqParseHeaders r outbuf h, ioFlush⟩ cs =
        some (ress, s') ∧
      SentBy cs ress bufs ∧
      (server.httpd.TakesAll → bufs = cs.flatMap OutputCall.text) ∧
      s'.out.sent ++ s'.out.wb.held = bufs ∧
      (∀ c : OutputCall, c.Within → ∃ res, s'.step server c = some res ∧
        (c.Flushes s'.ioFlush → res.1.isOk = true → res.2.out.wb.held = [])) ∧
      ∃ rc out', responseFinish server.httpd s'.out = some (rc, out') ∧ out'.sent = bufs ∧
        out'.wb.held = [] ∧ ∀ bb ∈ out'.passed, Bucket.eos ∉ bb := by
  have hplain : (responseStart dirParseHeaders reqParseHeaders r outbuf h).Plain :=
    ⟨hparse, Nat.zero_le _⟩
  obtain ⟨ress, s', bufs, hrun, haccepts, hsent, hall⟩ :=
    Responding.run_exists (s := ⟨_, ioFlush⟩) hsends hplain hwithin
  have hbytes : s'.out.sent ++ s'.out.wb.held = bufs := haccepts.bytes
  refine ⟨ress, s', bufs, hrun, hsent, hall, hbytes, fun c hc => ?_, ?_⟩
  · obtain ⟨res, buf, hstep, hc⟩ := Responding.step_exists hsends haccepts.plain hc
    exact ⟨res, hstep, fun hf hok => Output.held_of_outcnt_zero (hc.flushed hf hok)⟩
  · obtain ⟨rc, out', hflush, hfinish, hdone⟩ :=
      Output.wbucketFlush_accepts server.httpd haccepts.plain false
    have hheld : out'.wb.held = [] := Output.held_of_outcnt_zero hdone
    have hsentAll : out'.sent ++ out'.wb.held = s'.out.sent ++ s'.out.wb.held ++ [] :=
      hfinish.bytes
    rw [hheld, List.append_nil, List.append_nil, hbytes] at hsentAll
    obtain ⟨bbs, hpassed, heos⟩ := (haccepts.trans hfinish).passed
    refine ⟨rc, out', hflush, hsentAll, hheld, fun bb hbb => heos bb ?_⟩
    rw [hpassed] at hbb
    exact hbb

/-- A server that takes everything, and sends a file as one bucket. -/
def OutputServer.accepting : OutputServer where
  httpd := .accepting
  isReset _ := false
  sendFd content offset len := [.data ((content.drop offset.toInt.toNat).take len.toNat)]

theorem OutputServer.accepting_sendsFile : OutputServer.accepting.SendsFile where
  bytes _ _ _ _ _ := List.append_nil _
  eos _ _ _ h := by simp [accepting] at h

/-- The middle of a file between two prints, the second one with `$|`. -/
theorem response_in_order_three :
    ∃ ress s' bufs,
      Responding.run .accepting ⟨responseStart true false .get (List.replicate ioBufSize 0)
        List.length_replicate, false⟩
        [.print [[1], [2]], .sendfile (.ok [9, 3, 4, 9]) 1 2 true, .autoflush true,
          .print [[5]]] = some (ress, s') ∧
      bufs = [1, 2, 3, 4, 5] ∧ s'.out.sent ++ s'.out.wb.held = bufs := by
  have hwithin : ∀ c ∈ [OutputCall.print [[1], [2]], .sendfile (.ok [9, 3, 4, 9]) 1 2 true,
      .autoflush true, .print [[5]]], c.Within := by
    simp only [List.mem_cons, List.not_mem_nil, or_false]
    rintro c (rfl | rfl | rfl | rfl)
    · trivial
    · exact ⟨by decide, by decide, by decide⟩
    · trivial
    · trivial
  obtain ⟨ress, s', bufs, hrun, -, hall, hbytes, -⟩ :=
    @response_in_order .accepting true false false .get (List.replicate ioBufSize 0)
      List.length_replicate _ OutputServer.accepting_sendsFile rfl hwithin
  exact ⟨ress, s', bufs, hrun, hall fun _ => rfl, hbytes⟩

end ModPerl
