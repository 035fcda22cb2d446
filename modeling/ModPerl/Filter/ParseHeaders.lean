import ModPerl.Filter.Fifo

/-!
# Responses with their headers in the output

With `+ParseHeaders` the script prints the headers of its response in front of
the body.  They are looked for once, in the bytes that the output buffer is
first emptied of.  What becomes of the response depends on how the script
chunks its output only through the number of these bytes: if they contain the
header block whole, the same headers are set and the same body is passed on,
unless the headers redirect the client elsewhere.
-/

namespace ModPerl

/-- The number of bytes up to and with the first empty line, if there is one. -/
def headerEnd (newln : Nat) : Bytes → Option Nat
  | [] => none
  | c :: rest =>
      if countNewln newln c = 2 then some 1
      else (headerEnd (countNewln newln c) rest).map (· + 1)

/-- `modperl_response_init`, with `+ParseHeaders` and a buffer as it comes from
the pool. -/
def responseInit (r : RequestRec) (outbuf : Bytes) (h : outbuf.length = ioBufSize) : Output where
  wb := ⟨0, outbuf, true, h⟩
  r := some r
  passed := []

namespace Output

variable (httpd : Httpd)

/-- The prints and flushes of the script. -/
def runScript : Output → List WbucketCall → Option Output
  | out, [] => some out
  | out, .write buf :: cs => (out.wbucketWrite httpd buf).bind fun (_, _, out) => runScript out cs
  | out, .flush addFlushBucket :: cs =>
      (out.wbucketFlush httpd addFlushBucket).bind fun (_, out) => runScript out cs

/-- The script, and then `modperl_response_finish`. -/
def respond (out : Output) (cs : List WbucketCall) : Option Output :=
  (out.runScript httpd cs).bind fun out => (out.wbucketFlush httpd false).map Prod.snd

end Output

/-- All that the script prints. -/
def scriptText : List WbucketCall → Bytes
  | [] => []
  | .write buf :: cs => buf ++ scriptText cs
  | .flush _ :: cs => scriptText cs

/-- The number of bytes that are passed on first, when so many are in the buffer. -/
def firstPass : Nat → List WbucketCall → Nat
  | held, [] => held
  | held, .flush _ :: cs => if held ≠ 0 then held else firstPass held cs
  | held, .write buf :: cs =>
      if buf.length + held > ioBufSize ∧ held ≠ 0 then held
      else if buf.length ≥ ioBufSize then buf.length
      else firstPass (held + buf.length) cs

/-- What becomes of the bytes that are passed on first: the request, and the
bytes that the output filters get. -/
def parsed (httpd : Httpd) (r : RequestRec) (buf : Bytes) : RequestRec × Bytes :=
  let parse := cgiHeaderParse httpd r buf
  (if parse.status = httpMovedTemporarily ∨ parse.status = ok then parse.r
    else { parse.r with status := parse.status },
    parse.redirected.flatMap Brigade.bytes ++
      if parse.status = ok then parse.body.getD [] else [])

variable {httpd : Httpd} {out out' : Output} {buf text : Bytes} {r : RequestRec}
  {cs : List WbucketCall}

theorem headerLength_eq (newln : Nat) (buf : Bytes) :
    headerLength newln buf = (headerEnd newln buf).getD buf.length := by
  induction buf generalizing newln with
  | nil => rfl
  | cons c rest ih =>
      unfold headerLength headerEnd
      split_ifs
      · rfl
      · rw [ih]
        cases headerEnd (countNewln newln c) rest <;> rfl

/-- An empty line is found in the bytes that contain it, and in no fewer. -/
theorem headerEnd_take {newln h : Nat} (hend : headerEnd newln text = some h) (p : Nat) :
    headerEnd newln (text.take p) = if h ≤ p then some h else none := by
  induction text generalizing newln h p with
  | nil => cases hend
  | cons c rest ih =>
      cases p with
      | zero =>
          have hpos : 0 < h := by
            unfold headerEnd at hend
            split_ifs at hend
            · obtain rfl := Option.some.inj hend
              omega
            · obtain ⟨h', -, rfl⟩ := Option.map_eq_some_iff.mp hend
              omega
          rw [if_neg (by omega)]
          rfl
      | succ p =>
          rw [List.take_succ_cons]
          unfold headerEnd at hend ⊢
          split_ifs at hend ⊢ with htwo hle hle
          · exact hend
          · obtain rfl := Option.some.inj hend
            omega
          · obtain ⟨h', hh', rfl⟩ := Option.map_eq_some_iff.mp hend
            rw [ih hh', if_pos (by omega)]
            rfl
          · obtain ⟨h', hh', rfl⟩ := Option.map_eq_some_iff.mp hend
            rw [ih hh', if_neg (by omega)]
            rfl

theorem headerEnd_le {newln h : Nat} (hend : headerEnd newln text = some h) : h ≤ text.length := by
  have htake := headerEnd_take hend text.length
  rw [List.take_length, hend] at htake
  by_contra hnot
  rw [if_neg hnot] at htake
  cases htake

/-- The body is what is behind the first empty line, whatever the headers say. -/
theorem cgiHeaderParse_body (httpd : Httpd) (r : RequestRec) (buf : Bytes) :
    (cgiHeaderParse httpd r buf).body.getD [] = buf.drop (headerLength 0 buf) ∧
      (cgiHeaderParse httpd r buf).len = buf.length - headerLength 0 buf := by
  have hbody : (cgiHeaderParse httpd r buf).body =
      (if headerLength 0 buf ≥ buf.length then none else some (buf.drop (headerLength 0 buf))) ∧
      (cgiHeaderParse httpd r buf).len =
        if headerLength 0 buf ≥ buf.length then 0 else buf.length - headerLength 0 buf := by
    unfold cgiHeaderParse
    simp only
    split
    · split_ifs <;> exact ⟨rfl, rfl⟩
    · exact ⟨rfl, rfl⟩
  rw [hbody.1, hbody.2]
  split_ifs with hall
  · exact ⟨(List.drop_eq_nil_iff.mpr hall).symm, by omega⟩
  · exact ⟨rfl, rfl⟩

namespace Output

/-! ## After the headers -/

theorem runScript_accepts (hnext : httpd.TakesAll) (hplain : out.Plain) (cs : List WbucketCall) :
    ∃ out', out.runScript httpd cs = some out' ∧ out.Accepts out' (scriptText cs) := by
  induction cs generalizing out with
  | nil => exact ⟨out, rfl, .refl hplain⟩
  | cons c cs ih =>
      cases c with
      | write buf =>
          obtain ⟨out₁, hwrite, haccepts⟩ := wbucketWrite_success hnext hplain buf
          obtain ⟨out₂, hrun, haccepts'⟩ := ih haccepts.plain
          exact ⟨out₂, by rw [runScript, hwrite]; exact hrun, haccepts.trans haccepts'⟩
      | flush addFlushBucket =>
          obtain ⟨rv, out₁, hflush, haccepts, -⟩ :=
            wbucketFlush_accepts httpd hplain addFlushBucket
          obtain ⟨out₂, hrun, haccepts'⟩ := ih haccepts.plain
          exact ⟨out₂, by rw [runScript, hflush]; exact hrun, haccepts.trans haccepts'⟩

/-- The rest of a script whose headers were dealt with. -/
theorem respond_of_plain (hnext : httpd.TakesAll) (hplain : out.Plain) (cs : List WbucketCall) :
    ∃ out', out.respond httpd cs = some out' ∧ out'.r = out.r ∧
      out'.sent = out.sent ++ out.wb.held ++ scriptText cs := by
  obtain ⟨out₁, hrun, haccepts⟩ := runScript_accepts hnext hplain cs
  obtain ⟨rv, out₂, hflush, haccepts', hempty⟩ :=
    wbucketFlush_accepts httpd haccepts.plain false
  refine ⟨out₂, ?_, haccepts'.r.trans haccepts.r, ?_⟩
  · rw [respond, hrun, Option.bind_some, hflush]
    rfl
  · have hbytes := haccepts'.bytes
    rw [held_of_outcnt_zero hempty, List.append_nil, List.append_nil] at hbytes
    rw [hbytes, haccepts.bytes]

/-! ## Up to the headers -/

/-- No bytes were passed on so far; these are held. -/
structure Parsing (out : Output) (r : RequestRec) (bytes : Bytes) : Prop where
  headerParse : out.wb.headerParse = true
  r : out.r = some r
  held : out.wb.held = bytes
  outcnt : out.wb.outcnt = bytes.length
  outcnt_le : out.wb.outcnt ≤ ioBufSize
  sent : out.sent = []

/-- The first bytes are passed on. -/
theorem Parsing.pass {held : Bytes} (h : out.Parsing r held) (hnext : httpd.TakesAll) (buf : Bytes)
    (addFlushBucket : Bool) :
    ∃ out', out.wbucketPass httpd buf addFlushBucket = some (aprSuccess, out') ∧ out'.Plain ∧
      out'.wb.outcnt = 0 ∧ out'.r = some (parsed httpd r buf).1 ∧
      out'.sent = (parsed httpd r buf).2 := by
  have hsent : ∀ wb r bbs, Output.sent ⟨wb, r, out.passed ++ bbs⟩ = bbs.flatMap Brigade.bytes := by
    intro wb r bbs
    have hpassed : out.passed.flatMap Brigade.bytes = [] := h.sent
    rw [Output.sent, List.flatMap_append, hpassed, List.nil_append]
  have hne : httpMovedTemporarily ≠ ok := by decide
  obtain ⟨hbody, hlen⟩ := cgiHeaderParse_body httpd r buf
  unfold wbucketPass parsed
  simp only [h.headerParse, h.r, if_true]
  by_cases hmoved : (cgiHeaderParse httpd r buf).status = httpMovedTemporarily
  · simp only [hmoved, if_true, true_or, hne, if_false]
    exact ⟨_, rfl, ⟨rfl, Nat.zero_le _⟩, rfl, rfl, by rw [hsent, List.append_nil]⟩
  · by_cases hok : (cgiHeaderParse httpd r buf).status = ok
    · simp only [hok, hne.symm, or_true, if_true, if_false, ne_eq, not_true_eq_false]
      split_ifs with hzero
      · have hnil : buf.drop (headerLength 0 buf) = [] :=
          List.drop_eq_nil_iff.mpr (by omega)
        refine ⟨_, rfl, ⟨rfl, Nat.zero_le _⟩, rfl, rfl, ?_⟩
        rw [hsent, hbody, hnil, List.append_nil]
      · refine ⟨_, by rw [passBrigade, hnext], ⟨rfl, Nat.zero_le _⟩, rfl, rfl, ?_⟩
        rw [List.append_assoc, hsent, List.flatMap_append, List.flatMap_singleton, bytes_brigade]
    · simp only [hmoved, hok, if_false, ne_eq, not_false_eq_true, if_true, or_self]
      exact ⟨_, rfl, ⟨rfl, Nat.zero_le _⟩, rfl, rfl, by rw [hsent, List.append_nil]⟩

theorem respond_write {rv : Status} {wlen : Nat}
    (h : out.wbucketWrite httpd buf = some (rv, wlen, out')) (cs : List WbucketCall) :
    out.respond httpd (.write buf :: cs) = out'.respond httpd cs := by
  rw [respond, runScript, h]
  rfl

theorem respond_flush {rv : Status} {addFlushBucket : Bool}
    (h : out.wbucketFlush httpd addFlushBucket = some (rv, out')) (cs : List WbucketCall) :
    out.respond httpd (.flush addFlushBucket :: cs) = out'.respond httpd cs := by
  rw [respond, runScript, h]
  rfl

/-- The response, when so many bytes of the text are passed on first. -/
def Responds (httpd : Httpd) (r : RequestRec) (text : Bytes) (p : Nat) (res : Option Output) :
    Prop :=
  ∃ out', res = some out' ∧ out'.r = some (parsed httpd r (text.take p)).1 ∧
    out'.sent = (parsed httpd r (text.take p)).2 ++ text.drop p

/-- The headers were dealt with, and this is still to be printed. -/
theorem responds_of_plain {bytes : Bytes} (rest : Bytes) (hnext : httpd.TakesAll)
    (hplain : out.Plain) (hr : out.r = some (parsed httpd r bytes).1)
    (hsent : out.sent ++ out.wb.held = (parsed httpd r bytes).2 ++ rest) (cs : List WbucketCall) :
    Responds httpd r (bytes ++ (rest ++ scriptText cs)) bytes.length (out.respond httpd cs) := by
  obtain ⟨out', hrespond, hr', hsent'⟩ := respond_of_plain hnext hplain cs
  refine ⟨out', hrespond, ?_, ?_⟩
  · rw [List.take_left, hr', hr]
  · rw [List.take_left, List.drop_left, hsent', hsent, List.append_assoc]

/-- The buffer holds bytes, and is emptied. -/
theorem Parsing.flush {bytes : Bytes} (h : out.Parsing r bytes) (hnext : httpd.TakesAll)
    (hbytes : bytes.length ≠ 0) (addFlushBucket : Bool) :
    ∃ out', out.wbucketFlush httpd addFlushBucket = some (aprSuccess, out') ∧ out'.Plain ∧
      out'.wb.outcnt = 0 ∧ out'.r = some (parsed httpd r bytes).1 ∧
      out'.sent = (parsed httpd r bytes).2 := by
  obtain ⟨out', hpass, hrest⟩ := h.pass hnext bytes addFlushBucket
  refine ⟨out', ?_, hrest⟩
  rw [wbucketFlush, h.outcnt, if_pos hbytes, h.held, hpass]

/-- The bytes fit behind those that the buffer holds. -/
theorem Parsing.write (httpd : Httpd) {bytes : Bytes} (h : out.Parsing r bytes)
    (hlt : buf.length < ioBufSize)
    (hfits : ¬(buf.length + bytes.length > ioBufSize ∧ bytes.length ≠ 0)) :
    ∃ out', out.wbucketWrite httpd buf = some (aprSuccess, buf.length, out') ∧
      out'.Parsing r (bytes ++ buf) := by
  have hle : buf.length + out.wb.outcnt ≤ ioBufSize := by
    rw [h.outcnt]
    omega
  obtain ⟨wb, hwb⟩ : ∃ wb, out.wb.memcpy buf = some wb := by
    unfold Wbucket.memcpy
    exact ⟨_, dif_pos (by omega)⟩
  obtain ⟨hheld, hcnt, hparse⟩ := memcpy_held h.outcnt_le hwb
  have houtcnt : wb.outcnt = out.wb.outcnt + buf.length := by
    unfold Wbucket.memcpy at hwb
    split_ifs at hwb
    exact (Option.some.inj hwb).symm ▸ rfl
  refine ⟨{ out with wb }, ?_, ⟨hparse.trans h.headerParse, h.r, ?_, ?_, hcnt, h.sent⟩⟩
  · rw [wbucketWrite, if_neg (by omega), wbucketStore, if_neg (by omega), hwb]
    rfl
  · rw [hheld, h.held]
  · rw [houtcnt, h.outcnt, List.length_append]

/-- An empty buffer has nothing to pass on. -/
theorem Parsing.flush_nil (httpd : Httpd) (h : out.Parsing r []) (addFlushBucket : Bool) :
    ∃ rv out', out.wbucketFlush httpd addFlushBucket = some (rv, out') ∧ out'.Parsing r [] := by
  have hempty : out.wb.outcnt = 0 := h.outcnt
  cases addFlushBucket with
  | false => exact ⟨aprSuccess, out, by simp [wbucketFlush, hempty], h⟩
  | true =>
      refine ⟨_, _, by rw [wbucketFlush, if_neg (not_not.mpr hempty), if_pos rfl], ?_⟩
      refine ⟨h.headerParse, h.r, h.held, h.outcnt, h.outcnt_le, ?_⟩
      have hsent : out.passed.flatMap Brigade.bytes = [] := h.sent
      rw [Output.sent, sendOutputFlush, passBrigade, List.flatMap_append, hsent]
      rfl

/-- The bytes do not fit behind those that the buffer holds: these are passed
on, and the others are accepted behind them. -/
theorem Parsing.write_flush {bytes : Bytes} (h : out.Parsing r bytes) (hnext : httpd.TakesAll)
    (hover : buf.length + bytes.length > ioBufSize) (hbytes : bytes.length ≠ 0) :
    ∃ rv out', out.wbucketWrite httpd buf = some (rv, buf.length, out') ∧ out'.Plain ∧
      out'.r = some (parsed httpd r bytes).1 ∧
      out'.sent ++ out'.wb.held = (parsed httpd r bytes).2 ++ buf := by
  obtain ⟨out₁, hflush, hplain, hempty, hr, hsent⟩ := h.flush hnext hbytes false
  obtain ⟨rv, out₂, hstore, haccepts⟩ := wbucketStore_accepts httpd hplain buf (.inr hempty)
  refine ⟨rv, out₂, ?_, haccepts.plain, haccepts.r.trans hr, ?_⟩
  · rw [wbucketWrite, if_pos (by rw [h.outcnt]; exact hover), hflush, Option.bind_some]
    simp only [ne_eq, not_true_eq_false, if_false, hstore]
  · rw [haccepts.bytes, held_of_outcnt_zero hempty, List.append_nil, hsent]

/-- Bytes that are as many as the buffer can hold are passed on directly, if the
buffer is empty. -/
theorem Parsing.write_large (h : out.Parsing r []) (hnext : httpd.TakesAll)
    (hlarge : buf.length ≥ ioBufSize) :
    ∃ rv out', out.wbucketWrite httpd buf = some (rv, buf.length, out') ∧ out'.Plain ∧
      out'.wb.outcnt = 0 ∧ out'.r = some (parsed httpd r buf).1 ∧
      out'.sent = (parsed httpd r buf).2 := by
  obtain ⟨out', hpass, hrest⟩ := h.pass hnext buf false
  have hempty : out.wb.outcnt = 0 := h.outcnt
  have hstore : out.wbucketStore httpd buf = some (aprSuccess, buf.length, out') := by
    rw [wbucketStore, if_pos hlarge, hpass]
    rfl
  refine ⟨aprSuccess, out', ?_, hrest⟩
  have hflush : out.wbucketFlush httpd false = some (aprSuccess, out) := by
    simp [wbucketFlush, hempty]
  rw [wbucketWrite, hflush, Option.bind_some]
  simp only [ne_eq, not_true_eq_false, if_false, hstore, ite_self]

/-- What is printed before the buffer is first emptied decides the response. -/
theorem Parsing.responds {bytes : Bytes} (h : out.Parsing r bytes) (hnext : httpd.TakesAll)
    (cs : List WbucketCall) (htext : bytes ++ scriptText cs ≠ []) :
    Responds httpd r (bytes ++ scriptText cs) (firstPass bytes.length cs)
      (out.respond httpd cs) := by
  induction cs generalizing out bytes with
  | nil =>
      rw [scriptText, List.append_nil] at htext
      have hbytes : bytes.length ≠ 0 := fun h => htext (List.length_eq_zero_iff.mp h)
      obtain ⟨out', hflush, -, -, hr, hsent⟩ := h.flush hnext hbytes false
      refine ⟨out', ?_, ?_, ?_⟩
      · rw [respond, runScript, Option.bind_some, hflush]
        rfl
      · rw [firstPass, scriptText, List.append_nil, List.take_length, hr]
      · rw [firstPass, scriptText, List.append_nil, List.take_length, List.drop_length,
          List.append_nil, hsent]
  | cons c cs ih =>
      cases c with
      | flush addFlushBucket =>
          by_cases hbytes : bytes.length = 0
          · obtain rfl := List.length_eq_zero_iff.mp hbytes
            obtain ⟨rv, out', hflush, hparsing⟩ := h.flush_nil httpd addFlushBucket
            rw [respond_flush hflush, firstPass, if_neg (not_not.mpr hbytes)]
            exact ih hparsing htext
          · obtain ⟨out', hflush, hplain, hempty, hr, hsent⟩ := h.flush hnext hbytes addFlushBucket
            rw [respond_flush hflush, firstPass, if_pos hbytes]
            refine responds_of_plain [] hnext hplain hr ?_ cs
            rw [held_of_outcnt_zero hempty, hsent]
      | write buf =>
          rw [firstPass]
          split_ifs with hover hlarge
          · -- the buffer is sent to make room: the headers end in what it held
            obtain ⟨rv, out', hwrite, hplain, hr, hsent⟩ := h.write_flush hnext hover.1 hover.2
            rw [respond_write hwrite]
            exact responds_of_plain buf hnext hplain hr hsent cs
          · -- too much for an empty buffer: it is sent as it is
            have hsize : 0 < ioBufSize := by decide
            obtain rfl : bytes = [] := by
              rw [← List.length_eq_zero_iff]
              by_contra hne
              exact hover ⟨by omega, hne⟩
            obtain ⟨rv, out', hwrite, hplain, hempty, hr, hsent⟩ := h.write_large hnext hlarge
            rw [respond_write hwrite]
            refine responds_of_plain [] hnext hplain hr ?_ cs
            rw [held_of_outcnt_zero hempty, hsent]
          · -- the bytes are held, and the headers still to be parsed
            obtain ⟨out', hwrite, hparsing⟩ := h.write httpd (by omega) hover
            rw [respond_write hwrite]
            rw [scriptText, ← List.append_assoc] at htext ⊢
            rw [Nat.add_comm, Nat.add_comm, ← List.length_append]
            exact ih hparsing htext

end Output

/-! ## Any two ways to chunk the same text -/

/-- The headers send the client elsewhere, and no status was given with them. -/
def ExternalRedirect (httpd : Httpd) (r : RequestRec) (header : Bytes) : Prop :=
  ∃ location, Table.get caseless (httpd.scanScriptHeader r header).2.headersOut
      (ascii "Location") = some location ∧
    location.head? ≠ some 47 ∧ (httpd.scanScriptHeader r header).2.status = httpOk

/-- The header scan accepts the front of the text if the header block is
complete in it, and reads no further than this block. -/
structure Httpd.ScansHeaders (httpd : Httpd) (r : RequestRec) (text : Bytes) : Prop where
  accepts : ∀ p, (httpd.scanScriptHeader r (text.take p)).1 = ok ↔
    (headerEnd 0 (text.take p)).isSome
  header : ∀ p h, headerEnd 0 (text.take p) = some h →
    httpd.scanScriptHeader r (text.take p) = httpd.scanScriptHeader r (text.take h)

/-- Texts that are scanned alike differ in their bodies only. -/
theorem cgiHeaderParse_congr {buf' : Bytes}
    (hscan : httpd.scanScriptHeader r buf = httpd.scanScriptHeader r buf') :
    (cgiHeaderParse httpd r buf).status = (cgiHeaderParse httpd r buf').status ∧
      (cgiHeaderParse httpd r buf).r = (cgiHeaderParse httpd r buf').r ∧
      (cgiHeaderParse httpd r buf).redirected = (cgiHeaderParse httpd r buf').redirected := by
  cases hlocation : Table.get caseless (httpd.scanScriptHeader r buf').2.headersOut
    (ascii "Location") with
  | some location =>
      simp only [cgiHeaderParse, hscan, hlocation]
      split_ifs <;> exact ⟨rfl, rfl, rfl⟩
  | none =>
      simp only [cgiHeaderParse, hscan, hlocation, and_self]

/-- Complete headers are accepted, unless they send the client elsewhere. -/
theorem cgiHeaderParse_ok (hok : (httpd.scanScriptHeader r buf).1 = ok)
    (hinternal : ¬ExternalRedirect httpd r buf) : (cgiHeaderParse httpd r buf).status = ok := by
  cases hlocation : Table.get caseless (httpd.scanScriptHeader r buf).2.headersOut
    (ascii "Location") with
  | none => simpa only [cgiHeaderParse, hlocation] using hok
  | some location =>
      simp only [cgiHeaderParse, hlocation]
      by_cases hstatus : (httpd.scanScriptHeader r buf).2.status = httpOk
      · have hslash : location.head? = some 47 := by
          by_contra hslash
          exact hinternal ⟨location, hlocation, hslash, hstatus⟩
        rw [if_pos ⟨hslash, hstatus⟩]
      · rw [if_neg fun h => hstatus h.2, if_neg hstatus, hok]

/-- Where the header block is in the bytes passed on first, it does not matter
how many more there are. -/
theorem parsed_take (hscans : httpd.ScansHeaders r text) {h p : Nat} (hend : headerEnd 0 text = some h)
    (hp : h ≤ p) :
    (parsed httpd r (text.take p)).1 = (parsed httpd r (text.take h)).1 ∧
      (¬ExternalRedirect httpd r (text.take h) →
        (parsed httpd r (text.take p)).2 ++ text.drop p =
          (parsed httpd r (text.take h)).2 ++ text.drop h) := by
  have hend_take : ∀ {q}, h ≤ q → headerEnd 0 (text.take q) = some h := fun hq => by
    rw [headerEnd_take hend, if_pos hq]
  have hscan : httpd.scanScriptHeader r (text.take p) = httpd.scanScriptHeader r (text.take h) :=
    hscans.header p h (hend_take hp)
  have hbody : ∀ {q}, h ≤ q →
      (cgiHeaderParse httpd r (text.take q)).body.getD [] = (text.take q).drop h := fun hq => by
    rw [(cgiHeaderParse_body _ _ _).1, headerLength_eq, hend_take hq, Option.getD_some]
  obtain ⟨hstatus, hr, hredirected⟩ := cgiHeaderParse_congr hscan
  refine ⟨?_, fun hinternal => ?_⟩
  · rw [parsed, parsed, hstatus, hr]
  · have hok : (cgiHeaderParse httpd r (text.take h)).status = ok := by
      refine cgiHeaderParse_ok ((hscans.accepts h).mpr ?_) hinternal
      rw [hend_take (Nat.le_refl h)]
      rfl
    have hdrop : (text.take p).drop h ++ text.drop p = text.drop h := by
      rw [List.drop_take, ← Nat.add_sub_cancel' hp, ← List.drop_drop, Nat.add_sub_cancel_left]
      exact List.take_append_drop _ _
    have hparsed : ∀ {q}, h ≤ q → (cgiHeaderParse httpd r (text.take q)).status = ok →
        (parsed httpd r (text.take q)).2 =
          (cgiHeaderParse httpd r (text.take q)).redirected.flatMap Brigade.bytes ++
            (text.take q).drop h := fun hq hstatus => by
      rw [← hbody hq]
      exact congrArg _ (if_pos hstatus)
    calc (parsed httpd r (text.take p)).2 ++ text.drop p
        = (cgiHeaderParse httpd r (text.take h)).redirected.flatMap Brigade.bytes ++
            ((text.take p).drop h ++ text.drop p) := by
          rw [hparsed hp (hstatus.trans hok), hredirected, List.append_assoc]
      _ = (cgiHeaderParse httpd r (text.take h)).redirected.flatMap Brigade.bytes ++
            ((text.take h).drop h ++ text.drop h) := by
          rw [hdrop, List.drop_take, Nat.sub_self, List.take_zero, List.nil_append]
      _ = (parsed httpd r (text.take h)).2 ++ text.drop h := by
          rw [hparsed (Nat.le_refl h) hok, List.append_assoc]

/-- Two scripts that print the same text, headers and body, get the same
response if the same bytes are passed on first; and if the headers are complete
in the bytes that each passes on first, the same headers are set, and the same
body is passed on unless they send the client elsewhere. -/
theorem response_independent_of_chunking {httpd : Httpd} {r : RequestRec} {outbuf text : Bytes}
    {h : Nat} {cs₁ cs₂ : List WbucketCall} (houtbuf : outbuf.length = ioBufSize)
    (hnext : httpd.TakesAll) (hscans : httpd.ScansHeaders r text) (hend : headerEnd 0 text = some h)
    (h₁ : scriptText cs₁ = text) (h₂ : scriptText cs₂ = text) :
    ∃ out₁ out₂, (responseInit r outbuf houtbuf).respond httpd cs₁ = some out₁ ∧
      (responseInit r outbuf houtbuf).respond httpd cs₂ = some out₂ ∧
      (firstPass 0 cs₁ = firstPass 0 cs₂ → out₁.r = out₂.r ∧ out₁.sent = out₂.sent) ∧
      (h ≤ firstPass 0 cs₁ → h ≤ firstPass 0 cs₂ → out₁.r = out₂.r ∧
        (¬ExternalRedirect httpd r (text.take h) → out₁.sent = out₂.sent)) := by
  have hinit : (responseInit r outbuf houtbuf).Parsing r [] :=
    ⟨rfl, rfl, rfl, rfl, Nat.zero_le _, rfl⟩
  have hne : text ≠ [] := by
    rintro rfl
    cases hend
  have hresponds : ∀ cs, scriptText cs = text → Output.Responds httpd r text (firstPass 0 cs)
      ((responseInit r outbuf houtbuf).respond httpd cs) := by
    rintro cs rfl
    exact hinit.responds hnext cs hne
  obtain ⟨out₁, hrespond₁, hr₁, hsent₁⟩ := hresponds cs₁ h₁
  obtain ⟨out₂, hrespond₂, hr₂, hsent₂⟩ := hresponds cs₂ h₂
  refine ⟨out₁, out₂, hrespond₁, hrespond₂, fun hsame => ?_,
    fun hp₁ hp₂ => ⟨?_, fun hinternal => ?_⟩⟩
  · rw [hr₁, hr₂, hsent₁, hsent₂, hsame]
    exact ⟨rfl, rfl⟩
  · rw [hr₁, hr₂, (parsed_take hscans hend hp₁).1, (parsed_take hscans hend hp₂).1]
  · rw [hsent₁, hsent₂, (parsed_take hscans hend hp₁).2 hinternal,
      (parsed_take hscans hend hp₂).2 hinternal]

/-- A server whose filters take everything.  Its header scan knows lines with a
key and a value, `Location` among them, but no `Status` and no `Content-Type`. -/
def Httpd.scanning : Httpd where
  passBrigade _ := aprSuccess
  scanScriptHeader r text :=
    match headerEnd 0 text with
    | none => (httpInternalServerError, r)
    | some h => (ok, ((text.take h).splitOn 10).foldl scanLine r)
  internalRedirect r _ := ([], r)
where
  /-- A line of the header block, with the line end taken off. -/
  scanLine (r : RequestRec) (line : Bytes) : RequestRec :=
    let line := line.filter (· ≠ 13)
    let key := line.takeWhile (· ≠ 58)
    let value := (line.drop (key.length + 1)).dropWhile (· = 32)
    if key = line then r
    else if caseless key = caseless (ascii "Location") then
      { r with headersOut := Table.set caseless r.headersOut key value }
    else { r with errHeadersOut := Table.set caseless r.errHeadersOut key value }

theorem Httpd.scanning_scansHeaders (r : RequestRec) (text : Bytes) :
    Httpd.scanning.ScansHeaders r text where
  accepts p := by
    have hne : httpInternalServerError ≠ ok := by decide
    cases hend : headerEnd 0 (text.take p) <;> simp [Httpd.scanning, hend, hne]
  header p h hend := by
    have hle : h ≤ p := by
      have hlen := headerEnd_le hend
      rw [List.length_take] at hlen
      exact hlen.trans (Nat.min_le_left _ _)
    have htake : (text.take p).take h = text.take h := by
      rw [List.take_take, Nat.min_eq_left hle]
    have hend' : headerEnd 0 (text.take h) = some h := by
      rw [← htake, headerEnd_take hend, if_pos (Nat.le_refl h)]
    simp [Httpd.scanning, hend, hend', htake, List.take_take]

/-- A `GET` request, before the script runs. -/
def RequestRec.get : RequestRec := ⟨httpOk, ascii "GET", 0, [], [], [], httpOk⟩

/-- A header and a body of two bytes: printed at once, or with a flush in the
middle of the body. -/
theorem response_independent_of_chunking_two :
    ∃ out₁ out₂,
      (responseInit .get (List.replicate ioBufSize 0) List.length_replicate).respond .scanning
        [.write (ascii "A: b\n\nxy")] = some out₁ ∧
      (responseInit .get (List.replicate ioBufSize 0) List.length_replicate).respond .scanning
        [.write (ascii "A: b\n"), .write (ascii "\nx"), .flush true, .write (ascii "y")] =
          some out₂ ∧
      out₁.r = out₂.r ∧ out₁.sent = out₂.sent := by
  obtain ⟨out₁, out₂, h₁, h₂, -, hcomplete⟩ := @response_independent_of_chunking .scanning .get
    (List.replicate ioBufSize 0) (ascii "A: b\n\nxy") 6 [.write (ascii "A: b\n\nxy")]
    [.write (ascii "A: b\n"), .write (ascii "\nx"), .flush true, .write (ascii "y")]
    List.length_replicate (fun _ => rfl) (Httpd.scanning_scansHeaders _ _) (by decide +kernel)
    (by decide +kernel) (by decide +kernel)
  obtain ⟨hr, hsent⟩ := hcomplete (by decide +kernel) (by decide +kernel)
  refine ⟨out₁, out₂, h₁, h₂, hr, hsent ?_⟩
  rintro ⟨location, hlocation, -⟩
  have hnone : Table.get caseless (Httpd.scanning.scanScriptHeader .get
      ((ascii "A: b\n\nxy").take 6)).2.headersOut (ascii "Location") = none := by decide +kernel
  rw [hnone] at hlocation
  cases hlocation

/-- The same text with a flush behind the first line: the scan gets the headers
incomplete, the request fails and the rest of the headers is passed on as body. -/
theorem response_depends_on_chunking :
    Httpd.scanning.TakesAll ∧ Httpd.scanning.ScansHeaders .get (ascii "A: b\n\nxy") ∧
      headerEnd 0 (ascii "A: b\n\nxy") = some 6 ∧
      scriptText [.write (ascii "A: b\n\nxy")] = ascii "A: b\n\nxy" ∧
      scriptText [.write (ascii "A: b\n"), .flush true, .write (ascii "\nxy")] =
        ascii "A: b\n\nxy" ∧
      ((responseInit .get (List.replicate ioBufSize 0) List.length_replicate).respond .scanning
        [.write (ascii "A: b\n\nxy")]).map (fun out => (out.r, out.sent)) =
          some (some { RequestRec.get with errHeadersOut := [(ascii "A", ascii "b")] },
            ascii "xy") ∧
      ((responseInit .get (List.replicate ioBufSize 0) List.length_replicate).respond .scanning
        [.write (ascii "A: b\n"), .flush true, .write (ascii "\nxy")]).map
          (fun out => (out.r, out.sent)) =
          some (some { RequestRec.get with status := httpInternalServerError },
            ascii "\nxy") := by
  refine ⟨fun _ => rfl, Httpd.scanning_scansHeaders _ _, ?_, ?_, ?_, ?_, ?_⟩ <;> decide +kernel

end ModPerl
