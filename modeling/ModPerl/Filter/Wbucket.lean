import ModPerl.Httpd

/-!
# The output buffer

`modperl_wbucket_t` collects what is printed.  A write that does not fit empties
the buffer first; a write of at least the size of the buffer goes straight to
the next filter.  The first time bytes are passed on while `header_parse` is
set, the headers in front of them are taken off.

The functions are those of `modperl_filter.c` and `modperl_cgi.c`.  A result of
`none` is an access outside the buffer, or to a request that is not there.  The
brigades that were handed to the next filter are recorded, whatever status it
answered with.
-/

namespace ModPerl

/-- `MP_IOBUFSIZE` -/
def ioBufSize : Nat := 8192

/-- `modperl_wbucket_t`, without the pointers to its pool, its filters and its
request. -/
structure Wbucket where
  outcnt : Nat
  outbuf : Bytes
  headerParse : Bool
  outbuf_length : outbuf.length = ioBufSize
  deriving DecidableEq

/-- A buffer, the request it writes for and the brigades that the next filter
was handed, oldest first.  The buffer of a filter has no request. -/
structure Output where
  wb : Wbucket
  r : Option RequestRec
  passed : List Brigade
  deriving DecidableEq

namespace Wbucket

/-- The bytes that wait in the buffer. -/
def held (wb : Wbucket) : Bytes := wb.outbuf.take wb.outcnt

/-- `memcpy(&wb->outbuf[wb->outcnt], buf, len); wb->outcnt += len;` -/
def memcpy (wb : Wbucket) (buf : Bytes) : Option Wbucket :=
  if hfits : wb.outcnt + buf.length ≤ ioBufSize then
    some
      { wb with
        outcnt := wb.outcnt + buf.length
        outbuf := wb.outbuf.take wb.outcnt ++ buf ++ wb.outbuf.drop (wb.outcnt + buf.length)
        outbuf_length := by simp [wb.outbuf_length]; omega }
  else none

/-- `WBUCKET_INIT`: the buffer of a filter, zeroed. -/
def init : Wbucket where
  outcnt := 0
  outbuf := List.replicate ioBufSize 0
  headerParse := false
  outbuf_length := List.length_replicate

end Wbucket

/-- The count of line ends behind a byte: those since the last byte that is
neither CR nor LF. -/
def countNewln (newln : Nat) (c : UInt8) : Nat :=
  let newln := if c ≠ 13 ∧ c ≠ 10 then 0 else newln
  if c = 10 then newln + 1 else newln

/-- The loop of `modperl_cgi_header_parse`: the number of bytes up to and with
the first empty line, of all bytes if there is none. -/
def headerLength (newln : Nat) : Bytes → Nat
  | [] => 0
  | c :: rest =>
      if countNewln newln c = 2 then 1 else headerLength (countNewln newln c) rest + 1

/-- What `modperl_cgi_header_parse` returns: its status, `*len` and `*body`, the
request, and what a redirected request has passed on meanwhile. -/
structure HeaderParse where
  status : Status
  len : Nat
  body : Option Bytes
  r : RequestRec
  redirected : List Brigade

/-- `modperl_cgi_header_parse` -/
def cgiHeaderParse (httpd : Httpd) (r : RequestRec) (buffer : Bytes) : HeaderParse :=
  let tmp := headerLength 0 buffer
  let body := if tmp ≥ buffer.length then none else some (buffer.drop tmp)
  let len := if tmp ≥ buffer.length then 0 else buffer.length - tmp
  let (status, r) := httpd.scanScriptHeader r buffer
  match Table.get caseless r.headersOut (ascii "Location") with
  | some location =>
      if location.head? = some 47 ∧ r.status = httpOk then
        let r :=
          { r with
            method := ascii "GET"
            methodNumber := 0
            headersIn := Table.unset caseless r.headersIn (ascii "Content-Length") }
        let (redirected, r) := httpd.internalRedirect r location
        ⟨ok, len, body, r, redirected⟩
      else if r.status = httpOk then
        ⟨httpMovedTemporarily, len, body, { r with rcfgStatus := httpMovedTemporarily }, []⟩
      else ⟨status, len, body, r, []⟩
  | none => ⟨status, len, body, r, []⟩

namespace Output

variable (httpd : Httpd)

/-- `ap_pass_brigade` to the next filter -/
def passBrigade (out : Output) (bb : Brigade) : Status × Output :=
  (httpd.passBrigade (out.passed ++ [bb]), { out with passed := out.passed ++ [bb] })

/-- `send_output_flush` -/
def sendOutputFlush (out : Output) : Status × Output := out.passBrigade httpd [.flush]

/-- The brigade that `modperl_wbucket_pass` makes of the bytes. -/
def brigade (buf : Bytes) (addFlushBucket : Bool) : Brigade :=
  if addFlushBucket then [.data buf, .flush] else [.data buf]

/-- `modperl_wbucket_pass` -/
def wbucketPass (out : Output) (buf : Bytes) (addFlushBucket : Bool) : Option (Status × Output) :=
  let out := { out with wb := { out.wb with outcnt := 0 } }
  if out.wb.headerParse then
    match out.r with
    | none => none
    | some r =>
        let parse := cgiHeaderParse httpd r buf
        let out :=
          { out with
            wb := { out.wb with headerParse := false }
            r := some parse.r
            passed := out.passed ++ parse.redirected }
        if parse.status = httpMovedTemporarily then some (aprSuccess, out)
        else if parse.status ≠ ok then
          some (aprSuccess, { out with r := some { parse.r with status := parse.status } })
        else if parse.len = 0 then some (aprSuccess, out)
        else some (out.passBrigade httpd (brigade (parse.body.getD []) addFlushBucket))
  else some (out.passBrigade httpd (brigade buf addFlushBucket))

/-- `modperl_wbucket_flush` -/
def wbucketFlush (out : Output) (addFlushBucket : Bool) : Option (Status × Output) :=
  if out.wb.outcnt ≠ 0 then out.wbucketPass httpd out.wb.held addFlushBucket
  else if addFlushBucket then some (out.sendOutputFlush httpd)
  else some (aprSuccess, out)

/-- The second half of `modperl_wbucket_write`: the bytes are passed on or copied.
The number is what `*wlen` is set to. -/
def wbucketStore (out : Output) (buf : Bytes) : Option (Status × Nat × Output) :=
  if buf.length ≥ ioBufSize then
    (out.wbucketPass httpd buf false).map fun (rv, out) => (rv, buf.length, out)
  else (out.wb.memcpy buf).map fun wb => (aprSuccess, buf.length, { out with wb })

/-- `modperl_wbucket_write`.  The sum is exact: a length below `2 ^ 63` and a
count that is at most the size of the buffer do not wrap. -/
def wbucketWrite (out : Output) (buf : Bytes) : Option (Status × Nat × Output) :=
  if buf.length + out.wb.outcnt > ioBufSize then
    (out.wbucketFlush httpd false).bind fun (rv, out) =>
      if rv ≠ aprSuccess then some (rv, 0, out) else out.wbucketStore httpd buf
  else out.wbucketStore httpd buf

end Output

end ModPerl
