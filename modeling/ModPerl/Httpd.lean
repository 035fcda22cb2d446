import ModPerl.Library.Table
import Mathlib.Data.List.TakeWhile

/-!
# What the server contributes

Status codes, buckets and brigades, tables and the request record, as far as
`mod_perl` reads and writes them, and the functions of the server that its
output goes through.  The latter are not part of the repository: a value of
`Httpd` says how they answer, for every history of what they were handed.
-/

namespace ModPerl

/-- `apr_status_t`, and the return values of handlers and hooks. -/
abbrev Status := Int

/-- `APR_SUCCESS` -/
def aprSuccess : Status := 0

/-- `OK` -/
def ok : Status := 0

/-- `DECLINED` -/
def declined : Status := -1

/-- `HTTP_OK` -/
def httpOk : Status := 200

/-- `HTTP_MOVED_TEMPORARILY` -/
def httpMovedTemporarily : Status := 302

/-- `HTTP_INTERNAL_SERVER_ERROR` -/
def httpInternalServerError : Status := 500

abbrev Bytes := List UInt8

/-- The bytes of an ASCII literal of the source. -/
def ascii (s : String) : Bytes := s.toList.map fun c => UInt8.ofNat c.toNat

/-- The lower case of an ASCII letter. -/
def lower (b : UInt8) : UInt8 := if 65 ≤ b ∧ b ≤ 90 then b + 32 else b

theorem notMem_of_mem_splitOn {sep : UInt8} {s part : Bytes} (h : part ∈ s.splitOn sep) :
    sep ∉ part := by
  induction s generalizing part with
  | nil =>
      rw [List.splitOn_nil, List.mem_singleton] at h
      exact h ▸ List.not_mem_nil
  | cons b s ih =>
      rw [List.splitOn_cons_eq_if_modifyHead] at h
      split_ifs at h with hb
      · rcases List.mem_cons.mp h with rfl | h
        · exact List.not_mem_nil
        · exact ih h
      · cases hparts : s.splitOn sep with
        | nil => exact absurd hparts (List.splitOn_ne_nil sep s)
        | cons first parts =>
            rw [hparts] at h ih
            rcases List.mem_cons.mp h with rfl | h
            · rw [List.mem_cons, not_or]
              exact ⟨fun heq => hb (by simp [heq]), ih List.mem_cons_self⟩
            · exact ih (List.mem_cons_of_mem first h)

/-- What a C function sees of a Perl string: the bytes before the first NUL. -/
def cstr (s : Bytes) : Bytes := s.takeWhile (· ≠ 0)

@[simp] theorem cstr_cstr (s : Bytes) : cstr (cstr s) = cstr s := List.takeWhile_idem ..

/-- `apr_table_t`: the keys are compared without regard to case. -/
abbrev AprTable := Table Bytes Bytes

/-- The key up to case. -/
def caseless (key : Bytes) : Bytes := key.map lower

/-- A bucket of a brigade.  Metadata buckets other than these two read as
empty data; `apr_bucket_read` of a broken bucket fails with its status. -/
inductive Bucket
  | data (bytes : Bytes)
  | broken (rc : Status)
  | flush
  | eos
  deriving DecidableEq

abbrev Brigade := List Bucket

/-- The data bytes of a bucket. -/
def Bucket.bytes : Bucket → Bytes
  | .data bytes => bytes
  | _ => []

/-- The data bytes of a brigade, in order. -/
def Brigade.bytes (bb : Brigade) : Bytes := bb.flatMap Bucket.bytes

@[simp] theorem Brigade.bytes_nil : Brigade.bytes [] = [] := rfl

@[simp] theorem Brigade.bytes_cons (b : Bucket) (bb : Brigade) :
    Brigade.bytes (b :: bb) = b.bytes ++ Brigade.bytes bb := rfl

@[simp] theorem Brigade.bytes_append (bb cc : Brigade) :
    Brigade.bytes (bb ++ cc) = bb.bytes ++ cc.bytes := List.flatMap_append

theorem Brigade.bytes_flatten (bbs : List Brigade) :
    Brigade.bytes bbs.flatten = bbs.flatMap Brigade.bytes := by
  induction bbs with
  | nil => rfl
  | cons bb bbs ih => rw [List.flatten_cons, Brigade.bytes_append, ih, List.flatMap_cons]

/-- `request_rec`, with `status` of `modperl_config_req_t`. -/
structure RequestRec where
  status : Status
  method : Bytes
  methodNumber : Int
  headersIn : AprTable
  headersOut : AprTable
  errHeadersOut : AprTable
  rcfgStatus : Status
  deriving DecidableEq

/-- The functions of the server that output goes through. -/
structure Httpd where
  /-- `ap_pass_brigade`: the status of handing on the last of these brigades,
  after the others. -/
  passBrigade : List Brigade → Status
  /-- `ap_scan_script_header_err_strs`: the status and the request after the
  headers at the front of the text. -/
  scanScriptHeader : RequestRec → Bytes → Status × RequestRec
  /-- `ap_internal_redirect_handler`: what the redirected request passes to the
  output filters, and the request afterwards. -/
  internalRedirect : RequestRec → Bytes → List Brigade × RequestRec

/-- The next filter takes every brigade. -/
def Httpd.TakesAll (httpd : Httpd) : Prop := ∀ bbs, httpd.passBrigade bbs = aprSuccess

end ModPerl
