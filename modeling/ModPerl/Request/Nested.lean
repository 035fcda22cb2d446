import ModPerl.Request.Response

/-!
# Responses inside of responses

A response handler may run a subrequest, or redirect to another URI, and the handler of
that request may be one of Perl again, and so on.  Each of the requests has its own output
buffer, and all of them send to the output filters of the main request.  A `perl-script`
handler has STDOUT on its request until it returns; a `modperl` handler has STDOUT where it
was.

What reaches the filters is in the order of the prints, through all requests, because a
subrequest is run with the buffer of its main request flushed, and a response is over with
its own buffer flushed.  Two things are left to the handlers: nothing of theirs may wait
when they redirect, and a `modperl` handler may not print to a STDOUT that is the one of
another request.
-/

namespace ModPerl

/-- A request that is being responded to: by a `perl-script` handler or a `modperl` one,
and its buffer. -/
structure ResponseFrame where
  perlScript : Bool
  wb : Wbucket
  deriving DecidableEq

/-- The requests that are being responded to, the innermost first, and what the output
filters of the main one were handed. -/
structure Responses where
  frames : List ResponseFrame
  passed : List Brigade
  deriving DecidableEq

/-- What a response handler does: it prints to its request or to STDOUT, flushes, runs a
subrequest or redirects, and dies or returns. -/
inductive Script
  | done
  | die
  | print (buf : Bytes) (rest : Script)
  | stdout (buf : Bytes) (rest : Script)
  | rflush (rest : Script)
  | subrequest (perlScript : Bool) (handler rest : Script)
  | redirect (perlScript : Bool) (handler rest : Script)

namespace Responses

variable (httpd : Httpd) (isReset : Status → Bool)

/-- A call on the buffer of one of the requests, and whether it returned. -/
def onFrame {α : Type} (w : Responses) (i : Nat)
    (call : Output → Option (Except WriteCroak α × Output)) : Option (Bool × Responses) :=
  (w.frames[i]?).bind fun frame =>
    (call ⟨frame.wb, none, w.passed⟩).map fun res =>
      (res.1.isOk, ⟨w.frames.set i { frame with wb := res.2.wb }, res.2.passed⟩)

/-- The request that STDOUT is on. -/
def stdout? (w : Responses) : Option Nat := w.frames.findIdx? ResponseFrame.perlScript

/-- `modperl_response_handler` and `modperl_response_handler_cgi`, around what the handler
does.  Where STDOUT cannot be flushed before it is restored, the croak goes through to the
handler that has called. -/
def respond (perlScript : Bool) (handler : Responses → Option (Bool × Responses))
    (w : Responses) : Option (Bool × Responses) :=
  (handler { w with frames := ⟨perlScript, .init⟩ :: w.frames }).bind fun res =>
    let restore : Option (Bool × Responses) :=
      if perlScript then res.2.onFrame 0 (Output.layerFlush httpd isReset ⟨true, true⟩)
      else some (true, res.2)
    restore.bind fun res =>
      if res.1 = false then some (false, { res.2 with frames := res.2.frames.tail })
      else
        (res.2.onFrame 0 fun out => (responseFinish httpd out).map fun finished =>
            (.ok finished.1, finished.2)).map
          fun res => (true, { res.2 with frames := res.2.frames.tail })

end Responses

namespace Script

open Responses

/-- The script from a state on: whether the handler has returned, and not died. -/
def exec (httpd : Httpd) (isReset : Status → Bool) : Script → Responses → Option (Bool × Responses)
  | .done, w => some (true, w)
  | .die, w => some (false, w)
  | .print buf rest, w =>
      (w.onFrame 0 fun out => out.writeCroak httpd buf).bind fun res =>
        if res.1 then rest.exec httpd isReset res.2 else some res
  | .stdout buf rest, w =>
      match w.stdout? with
      | none => rest.exec httpd isReset w
      | some i =>
          (w.onFrame i (Output.layerWrite httpd ⟨true, true⟩ · buf)).bind fun res =>
            if res.1 then rest.exec httpd isReset res.2 else some res
  | .rflush rest, w =>
      (w.onFrame 0 (Output.rflush httpd isReset)).bind fun res =>
        if res.1 then rest.exec httpd isReset res.2 else some res
  | .subrequest perlScript handler rest, w =>
      -- `mpxs_ap_run_sub_req`
      (w.onFrame 0 fun out => out.flushCroak httpd false .nothing).bind fun res =>
        if res.1 then
          (respond httpd isReset perlScript (handler.exec httpd isReset) res.2).bind fun res =>
            if res.1 then rest.exec httpd isReset res.2 else some res
        else some res
  | .redirect perlScript handler rest, w =>
      (respond httpd isReset perlScript (handler.exec httpd isReset) w).bind fun res =>
        if res.1 then rest.exec httpd isReset res.2 else some res

/-- What is printed, up to where a handler dies, through all requests. -/
def text : Script → Bytes
  | .done => []
  | .die => []
  | .print buf rest => buf ++ rest.text
  | .stdout buf rest => buf ++ rest.text
  | .rflush rest => rest.text
  | .subrequest _ handler rest => handler.text ++ rest.text
  | .redirect _ handler rest => handler.text ++ rest.text

/-- The handlers print to a STDOUT that is theirs, and redirect with nothing waiting;
`waits` is whether something may wait. -/
def Ordered (perlScript : Bool) : Bool → Script → Prop
  | _, .done => True
  | _, .die => True
  | _, .print _ rest => rest.Ordered perlScript true
  | _, .stdout _ rest => perlScript = true ∧ rest.Ordered perlScript true
  | _, .rflush rest => rest.Ordered perlScript false
  | _, .subrequest perlScript' handler rest =>
      handler.Ordered perlScript' false ∧ rest.Ordered perlScript false
  | waits, .redirect perlScript' handler rest =>
      waits = false ∧ handler.Ordered perlScript' false ∧ rest.Ordered perlScript false

end Script

namespace Responses

/-- The filters were handed these bytes, and no EOS. -/
def Handed (passed passed' : List Brigade) (buf : Bytes) : Prop :=
  ∃ bbs : List Brigade, passed' = passed ++ bbs ∧ (∀ bb ∈ bbs, Bucket.eos ∉ bb) ∧
    Brigade.bytes bbs.flatten = buf

variable {httpd : Httpd} {isReset : Status → Bool} {perlScript : Bool} {wb wb' : Wbucket}
  {outer : List ResponseFrame} {passed passed' : List Brigade} {buf : Bytes} {α : Type}

/-- With nothing waiting before and after, what was accepted was handed on. -/
theorem handed_of_accepts (h : Output.Accepts ⟨wb, none, passed⟩ ⟨wb', none, passed'⟩ buf)
    (hheld : wb.held = []) (hheld' : wb'.held = []) : Handed passed passed' buf := by
  obtain ⟨bbs, hbbs, heos⟩ := h.passed
  have hbytes := h.bytes
  simp only [Output.sent] at hbbs hbytes
  rw [hheld, hheld', List.append_nil, List.append_nil, hbbs, List.flatMap_append] at hbytes
  refine ⟨bbs, hbbs, heos, ?_⟩
  rw [Brigade.bytes_flatten]
  exact List.append_cancel_left hbytes

/-- What others hand on does not matter to a request that has nothing waiting. -/
theorem Handed.accepts (h : Handed passed passed' buf)
    (hplain : Output.Plain ⟨wb, none, passed⟩) (hheld : wb.held = []) :
    Output.Accepts ⟨wb, none, passed⟩ ⟨wb, none, passed'⟩ buf := by
  obtain ⟨bbs, rfl, heos, rfl⟩ := h
  refine ⟨⟨hplain.headerParse, hplain.outcnt_le⟩, rfl, ?_, bbs, rfl, heos⟩
  simp only [Output.sent, hheld, List.append_nil, List.flatMap_append, Brigade.bytes_flatten]

/-- A call on the innermost request, if the next filter takes everything. -/
theorem onFrame_zero (perlScript : Bool) (outer : List ResponseFrame)
    (call : Output → Option (Except WriteCroak α × Output))
    {res : Except WriteCroak α × Output} (hnext : httpd.TakesAll)
    (hcall : call ⟨wb, none, passed⟩ = some res)
    (hsends : Output.Sends httpd ⟨wb, none, passed⟩ buf res) :
    onFrame ⟨⟨perlScript, wb⟩ :: outer, passed⟩ 0 call =
        some (true, ⟨⟨perlScript, res.2.wb⟩ :: outer, res.2.passed⟩) ∧
      Output.Accepts ⟨wb, none, passed⟩ ⟨res.2.wb, none, res.2.passed⟩ buf := by
  obtain ⟨acc, haccepts, -, hall, htakes⟩ := hsends
  have hok := htakes hnext
  obtain rfl := hall hok
  refine ⟨?_, ?_⟩
  · rw [onFrame, List.getElem?_cons_zero, Option.bind_some, hcall, Option.map_some, hok]
    rfl
  · have hr : res.2.r = none := haccepts.r
    rw [show (⟨res.2.wb, none, res.2.passed⟩ : Output) = res.2 by rw [← hr]]
    exact haccepts

/-- A response hands on all that its handler prints, and leaves the other requests as they
were. -/
theorem respond_hands (isReset : Status → Bool)
    {handler : Responses → Option (Bool × Responses)} {ret : Bool}
    (hnext : httpd.TakesAll)
    (hhandler : handler ⟨⟨perlScript, .init⟩ :: outer, passed⟩ =
      some (ret, ⟨⟨perlScript, wb'⟩ :: outer, passed'⟩))
    (haccepts : Output.Accepts ⟨.init, none, passed⟩ ⟨wb', none, passed'⟩ buf) :
    ∃ passed₁, respond httpd isReset perlScript handler ⟨outer, passed⟩ =
      some (true, ⟨outer, passed₁⟩) ∧ Handed passed passed₁ buf := by
  -- STDOUT is flushed before it is restored
  obtain ⟨wb₁, passed₁, hrestore, haccepts₁⟩ : ∃ wb₁ passed₁,
      (if perlScript = true then onFrame ⟨⟨perlScript, wb'⟩ :: outer, passed'⟩ 0
        (Output.layerFlush httpd isReset ⟨true, true⟩)
      else some (true, ⟨⟨perlScript, wb'⟩ :: outer, passed'⟩)) =
        some (true, ⟨⟨perlScript, wb₁⟩ :: outer, passed₁⟩) ∧
      Output.Accepts ⟨.init, none, passed⟩ ⟨wb₁, none, passed₁⟩ buf := by
    cases perlScript with
    | false => exact ⟨wb', passed', rfl, haccepts⟩
    | true =>
        obtain ⟨res, hflush, hsends, -⟩ :=
          Output.layerFlush_sends httpd isReset haccepts.plain ⟨true, true⟩
        obtain ⟨hon, hflushed⟩ := onFrame_zero true outer _ hnext hflush hsends
        refine ⟨_, _, hon, ?_⟩
        simpa using haccepts.trans hflushed
  obtain ⟨rc, out, hfinish, haccepts₂, hempty⟩ :=
    Output.wbucketFlush_accepts httpd haccepts₁.plain false
  have hall := haccepts₁.trans haccepts₂
  rw [List.append_nil] at hall
  have hr : out.r = none := hall.r
  have hdone : Output.Accepts ⟨.init, none, passed⟩ ⟨out.wb, none, out.passed⟩ buf := by
    rw [show (⟨out.wb, none, out.passed⟩ : Output) = out by rw [← hr]]
    exact hall
  refine ⟨out.passed, ?_, handed_of_accepts hdone rfl (Output.held_of_outcnt_zero hempty)⟩
  simp only [respond, hhandler, Option.bind_some, hrestore]
  rw [if_neg (by decide), onFrame, List.getElem?_cons_zero, Option.bind_some, responseFinish,
    hfinish]
  rfl

end Responses

open Responses

/-- What a handler that is ordered prints, and the subrequests of it, is accepted in order by
its request, and the other requests stay as they are. -/
theorem Script.exec_accepts {httpd : Httpd} (isReset : Status → Bool) (hnext : httpd.TakesAll)
    {s : Script} {perlScript waits : Bool} (wb : Wbucket) (outer : List ResponseFrame)
    (passed : List Brigade) (hordered : s.Ordered perlScript waits)
    (hplain : Output.Plain ⟨wb, none, passed⟩) (hwaits : waits = false → wb.held = []) :
    ∃ ret wb' passed', s.exec httpd isReset ⟨⟨perlScript, wb⟩ :: outer, passed⟩ =
        some (ret, ⟨⟨perlScript, wb'⟩ :: outer, passed'⟩) ∧
      Output.Accepts ⟨wb, none, passed⟩ ⟨wb', none, passed'⟩ s.text := by
  induction s generalizing perlScript waits wb outer passed with
  | done => exact ⟨true, wb, passed, rfl, .refl hplain⟩
  | die => exact ⟨false, wb, passed, rfl, .refl hplain⟩
  | print buf rest ih =>
      obtain ⟨res, hwrite, hsends⟩ := Output.writeCroak_sends httpd hplain buf
      obtain ⟨hon, haccepts⟩ := onFrame_zero perlScript outer
        (fun out => out.writeCroak httpd buf) hnext hwrite hsends
      obtain ⟨ret, wb', passed', hexec, hrest⟩ :=
        ih _ outer _ hordered haccepts.plain (fun h => by cases h)
      refine ⟨ret, wb', passed', ?_, haccepts.trans hrest⟩
      rw [Script.exec, hon, Option.bind_some, if_pos rfl]
      exact hexec
  | stdout buf rest ih =>
      obtain ⟨rfl, hordered⟩ := hordered
      obtain ⟨res, hwrite, hsends⟩ := Output.layerWrite_sends httpd hplain (f := ⟨true, true⟩)
        (fun _ => rfl) buf
      rw [if_pos rfl] at hsends
      obtain ⟨hon, haccepts⟩ := onFrame_zero true outer
        ((Output.layerWrite httpd ⟨true, true⟩ · buf)) hnext hwrite hsends
      obtain ⟨ret, wb', passed', hexec, hrest⟩ :=
        ih _ outer _ hordered haccepts.plain (fun h => by cases h)
      refine ⟨ret, wb', passed', ?_, haccepts.trans hrest⟩
      have hstdout : stdout? ⟨⟨true, wb⟩ :: outer, passed⟩ = some 0 := by
        simp [stdout?, List.findIdx?_cons]
      rw [Script.exec, hstdout]
      simp only [hon, Option.bind_some, if_true]
      exact hexec
  | rflush rest ih =>
      obtain ⟨res, hflush, hsends, hempty⟩ :=
        Output.flushCroakResetOk_sends httpd isReset hplain true .nothing
      obtain ⟨hon, haccepts⟩ := onFrame_zero perlScript outer
        (Output.rflush httpd isReset) hnext hflush hsends
      obtain ⟨ret, wb', passed', hexec, hrest⟩ := ih _ outer _ hordered haccepts.plain
        (fun _ => Output.held_of_outcnt_zero hempty)
      refine ⟨ret, wb', passed', ?_, by simpa [Script.text] using haccepts.trans hrest⟩
      rw [Script.exec, hon, Option.bind_some, if_pos rfl]
      exact hexec
  | subrequest perlScript' handler rest ihhandler ih =>
      obtain ⟨hhandler, hordered⟩ := hordered
      obtain ⟨res, hflush, hsends, hempty⟩ :=
        Output.flushCroak_sends httpd hplain false .nothing
      obtain ⟨hon, haccepts⟩ := onFrame_zero perlScript outer
        (fun out => out.flushCroak httpd false .nothing) hnext hflush hsends
      have hheld := Output.held_of_outcnt_zero hempty
      obtain ⟨ret₁, wb₁, passed₁, hexec₁, haccepts₁⟩ := ihhandler .init
        (⟨perlScript, res.2.wb⟩ :: outer) res.2.passed hhandler ⟨rfl, Nat.zero_le _⟩ (fun _ => rfl)
      obtain ⟨passed₂, hrespond, hhanded⟩ := respond_hands isReset hnext hexec₁ haccepts₁
      have hhere := hhanded.accepts haccepts.plain hheld
      obtain ⟨ret, wb', passed', hexec, hrest⟩ := ih _ outer _ hordered hhere.plain (fun _ => hheld)
      refine ⟨ret, wb', passed', ?_, ?_⟩
      · rw [Script.exec, hon, Option.bind_some, if_pos rfl, hrespond, Option.bind_some, if_pos rfl]
        exact hexec
      · simpa [Script.text] using (haccepts.trans hhere).trans hrest
  | redirect perlScript' handler rest ihhandler ih =>
      obtain ⟨rfl, hhandler, hordered⟩ := hordered
      have hheld := hwaits rfl
      obtain ⟨ret₁, wb₁, passed₁, hexec₁, haccepts₁⟩ :=
        ihhandler .init (⟨perlScript, wb⟩ :: outer) passed hhandler ⟨rfl, Nat.zero_le _⟩
          (fun _ => rfl)
      obtain ⟨passed₂, hrespond, hhanded⟩ := respond_hands isReset hnext hexec₁ haccepts₁
      have hhere := hhanded.accepts hplain hheld
      obtain ⟨ret, wb', passed', hexec, hrest⟩ := ih _ outer _ hordered hhere.plain (fun _ => hheld)
      refine ⟨ret, wb', passed', ?_, hhere.trans hrest⟩
      rw [Script.exec, hrespond, Option.bind_some, if_pos rfl]
      exact hexec

/-- Whatever responses a response runs inside, and wherever handlers die: what is handed to
the output filters is all that was printed, in the order in which it was, by whichever of
the requests, and when it is over STDOUT and the buffers of the requests around it are as
they were. -/
theorem nested_responses_in_order {httpd : Httpd} (isReset : Status → Bool)
    (hnext : httpd.TakesAll) {s : Script} {perlScript : Bool}
    (hordered : s.Ordered perlScript false) (w : Responses) :
    ∃ passed', respond httpd isReset perlScript (s.exec httpd isReset) w =
      some (true, ⟨w.frames, passed'⟩) ∧ Handed w.passed passed' s.text := by
  have hplain : Output.Plain ⟨.init, none, w.passed⟩ := ⟨rfl, Nat.zero_le _⟩
  obtain ⟨ret, wb', passed', hexec, haccepts⟩ :=
    Script.exec_accepts isReset hnext .init w.frames w.passed hordered hplain fun _ => rfl
  exact respond_hands isReset hnext hexec haccepts

/-- A subrequest that prints and dies, between two prints of its main request. -/
theorem nested_responses_in_order_three : ∃ passed',
    respond .accepting (fun _ => false) true (Script.exec .accepting (fun _ => false)
      (.stdout [1] (.subrequest false (.print [2] .die) (.print [3] .done)))) ⟨[], []⟩ =
        some (true, ⟨[], passed'⟩) ∧ Handed [] passed' [1, 2, 3] := by
  have hordered : (Script.stdout [1] (.subrequest false (.print [2] .die)
      (.print [3] .done))).Ordered true false := by simp [Script.Ordered]
  exact nested_responses_in_order (fun _ => false) (fun _ => rfl) hordered ⟨[], []⟩

/-- A `modperl` handler that prints to STDOUT prints to the request around it, and behind
what it prints to its own. -/
example : (respond .accepting (fun _ => false) true (Script.exec .accepting (fun _ => false)
    (.subrequest false (.stdout [1] (.print [2] .done)) .done)) ⟨[], []⟩).map
      (fun res => res.2.passed) = some [[.data [2]], [.data [1]]] := by decide +kernel

end ModPerl
