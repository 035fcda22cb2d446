import ModPerl.Filter.Invocation
import ModPerl.Filter.Fifo

/-!
# The EOS of a filter

A filter is invoked any number of times; in each invocation the Perl handler
reads, prints and sets `seen_eos` in any order, whether or not a call croaks,
and returns.  While it runs, `eos` is clear, so that no flush out of a read can
send an EOS: it is sent at the end of the invocation, behind everything printed,
and `sent_eos` keeps every later brigade away from the handler.
-/

namespace ModPerl

open Machine

/-- A call on the filter object from the Perl handler. -/
inductive FilterCall
  | read (wanted : Nat)
  | print (buf : Bytes)
  | seenEos (set : Bool)

namespace Filter

variable (httpd : Httpd) (upstream : Status × Brigade)

/-- The filter after a call, and the bytes that were accepted for output.  What
the call returns or croaks with decides only how the handler goes on. -/
def call (f : Filter) : FilterCall → Option (Filter × Bytes)
  | .read wanted =>
      match f.mode with
      | .input => (f.inputFilterRead upstream wanted).map fun (_, f) => (f, [])
      | .output => (f.outputFilterRead httpd wanted).map fun (_, f) => (f, [])
  | .print buf =>
      match f.mode with
      | .input => some ((f.inputFilterWrite buf).2, buf)
      | .output => (f.outputFilterWrite httpd buf).map fun (_, wlen, f) => (f, buf.take wlen)
  -- only at the end of the invocation does `eos` become what the handler has set
  | .seenEos set => some ({ f with seenEos := set }, [])

/-- The filter after the calls, and all bytes accepted by them. -/
def runCalls : Filter → List FilterCall → Option (Filter × Bytes)
  | f, [] => some (f, [])
  | f, c :: cs =>
      (f.call httpd upstream c).bind fun (f, buf) =>
        (runCalls f cs).map fun (f, bufs) => (f, buf ++ bufs)

variable {httpd upstream} {start f f' f'' : Filter} {printed buf : Bytes} {wanted : Nat}

/-! ## What reading leaves alone -/

/-- The two states differ at most in the place in the incoming brigade and in
what was met there. -/
structure SameOutput (f f' : Filter) : Prop where
  mode : f'.mode = f.mode
  eos : f'.eos = f.eos
  sentEos : f'.sentEos = f.sentEos
  wbucket : f'.wbucket = f.wbucket
  bbOut : f'.bbOut = f.bbOut
  passed : f'.passed = f.passed

theorem SameOutput.refl : SameOutput f f := ⟨rfl, rfl, rfl, rfl, rfl, rfl⟩

theorem SameOutput.trans (h : SameOutput f f') (h' : SameOutput f' f'') : SameOutput f f'' where
  mode := h'.mode.trans h.mode
  eos := h'.eos.trans h.eos
  sentEos := h'.sentEos.trans h.sentEos
  wbucket := h'.wbucket.trans h.wbucket
  bbOut := h'.bbOut.trans h.bbOut
  passed := h'.passed.trans h.passed

theorem getBucket_sameOutput : SameOutput f f.getBucket.2 := by
  unfold getBucket
  repeat' split
  all_goals exact ⟨rfl, rfl, rfl, rfl, rfl, rfl⟩

theorem readLoop_sameOutput {rounds len : Nat} {buffer : Bytes}
    {res : Except Status (Nat × Bytes)}
    (h : readLoop wanted rounds f len buffer = some (res, f')) : SameOutput f f' := by
  induction rounds generalizing f len buffer with
  | zero => simp [readLoop] at h
  | succ rounds ih =>
      have hbucket : SameOutput f f.getBucket.2 := getBucket_sameOutput
      unfold readLoop at h
      rcases hget : f.getBucket with ⟨found, f₁⟩
      rw [hget] at h hbucket
      -- a round changes the return code and what is left over, and nothing of the output
      have hset : ∀ rc leftover remaining,
          SameOutput f { f₁ with rc, leftover, remaining } := fun _ _ _ =>
        ⟨hbucket.mode, hbucket.eos, hbucket.sentEos, hbucket.wbucket, hbucket.bbOut, hbucket.passed⟩
      have hrc : SameOutput f { f₁ with rc := aprSuccess } := hset _ f₁.leftover f₁.remaining
      cases found with
      | false =>
          obtain ⟨-, rfl⟩ := Prod.mk.inj (Option.some.inj h)
          exact hbucket
      | true =>
          simp only at h
          split at h
          · obtain ⟨-, rfl⟩ := Prod.mk.inj (Option.some.inj h)
            exact hset _ f₁.leftover f₁.remaining
          · split_ifs at h
            · unfold takeNibble at h
              split_ifs at h
              obtain ⟨-, rfl⟩ := Prod.mk.inj (Option.some.inj h)
              exact hset _ _ _
            · exact hrc.trans (ih h)
            · exact hrc.trans (ih h)
          · cases h

theorem filterRead_sameOutput {res : Except Status (Nat × Bytes)}
    (h : f.filterRead wanted = some (res, f')) : SameOutput f f' := by
  unfold filterRead at h
  simp only at h
  split_ifs at h
  · obtain ⟨-, rfl⟩ := Prod.mk.inj (Option.some.inj h)
    exact .refl
  · obtain ⟨-, rfl⟩ := Prod.mk.inj (Option.some.inj h)
    exact ⟨rfl, rfl, rfl, rfl, rfl, rfl⟩
  · have hstart : SameOutput f { f with leftover := [], remaining := 0 } :=
      ⟨rfl, rfl, rfl, rfl, rfl, rfl⟩
    exact hstart.trans (readLoop_sameOutput h)
  · exact readLoop_sameOutput h

/-! ## While the handler runs -/

/-- From the first state to the second the brigades were sent, to the next
filter or into the brigade of the caller. -/
def Emits (f f' : Filter) (bbs : List Brigade) : Prop :=
  match f.mode with
  | .input => f'.bbOut = f.bbOut ++ bbs.flatten ∧ f'.passed = f.passed
  | .output => f'.passed = f.passed ++ bbs ∧ f'.bbOut = f.bbOut

/-- What was printed and not yet sent.  An input filter holds nothing back. -/
def held (f : Filter) : Bytes :=
  match f.mode with
  | .input => []
  | .output => f.output.wb.held

/-- The filter was started in the first state and is in the second: no EOS was
sent, none is due, and what was printed was sent or is held. -/
structure Open (start f : Filter) (printed : Bytes) : Prop where
  mode : f.mode = start.mode
  eos : f.eos = false
  sentEos : f.sentEos = false
  plain : f.output.Plain
  emits : ∃ bbs, Emits start f bbs ∧ Bucket.eos ∉ bbs.flatten ∧
    Brigade.bytes bbs.flatten ++ f.held = printed

theorem Emits.snoc {bbs bbs' : List Brigade} (hmode : f.mode = start.mode)
    (h : Emits start f bbs) (h' : Emits f f' bbs') : Emits start f' (bbs ++ bbs') := by
  unfold Emits at *
  rw [hmode] at h'
  cases hm : start.mode with
  | input =>
      simp only [hm] at h h' ⊢
      rw [h'.1, h.1, h'.2, h.2]
      simp
  | output =>
      simp only [hm] at h h' ⊢
      rw [h'.1, h.1, h'.2, h.2]
      simp

/-- Brigades without EOS are sent, for bytes that are accepted meanwhile. -/
theorem Open.send (bbs : List Brigade) (h : Open start f printed) (hmode : f'.mode = f.mode)
    (heos : f'.eos = false) (hsent : f'.sentEos = false) (hplain : f'.output.Plain)
    (hemits : Emits f f' bbs) (hno : Bucket.eos ∉ bbs.flatten)
    (hbytes : Brigade.bytes bbs.flatten ++ f'.held = f.held ++ buf) :
    Open start f' (printed ++ buf) := by
  obtain ⟨bbs₀, hemits₀, hno₀, hbytes₀⟩ := h.emits
  refine ⟨hmode.trans h.mode, heos, hsent, hplain, bbs₀ ++ bbs, hemits₀.snoc h.mode hemits, ?_, ?_⟩
  · rw [List.flatten_append, List.mem_append]
    exact not_or.mpr ⟨hno₀, hno⟩
  · rw [List.flatten_append, Brigade.bytes_append, List.append_assoc, hbytes, ← List.append_assoc,
      hbytes₀]

theorem Emits.none (hpassed : f'.passed = f.passed) (hbbOut : f'.bbOut = f.bbOut) :
    Emits f f' [] := by
  unfold Emits
  split <;> simp [hpassed, hbbOut]

theorem output_congr (hwbucket : f'.wbucket = f.wbucket) (hpassed : f'.passed = f.passed) :
    f'.output = f.output := by
  rw [output, hwbucket, hpassed, output]

theorem SameOutput.held (h : SameOutput f f') : f'.held = f.held := by
  unfold Filter.held
  rw [h.mode, output_congr h.wbucket h.passed]

theorem Open.same (h : Open start f printed) (hsame : SameOutput f f') :
    Open start f' printed := by
  rw [← List.append_nil printed]
  refine h.send [] hsame.mode (hsame.eos.trans h.eos) (hsame.sentEos.trans h.sentEos) ?_
    (.none hsame.passed hsame.bbOut) (by simp) (by simp [hsame.held])
  rw [output_congr hsame.wbucket hsame.passed]
  exact h.plain

/-- An input filter appends buckets to the brigade of its caller. -/
theorem Open.append {bb : Brigade} (h : Open start f printed) (hmode : f.mode = .input)
    (hno : Bucket.eos ∉ bb) :
    Open start { f with bbOut := f.bbOut ++ bb } (printed ++ bb.bytes) := by
  have hbb : [bb].flatten = bb := by simp
  refine h.send [bb] rfl h.eos h.sentEos h.plain ?_ (by rwa [hbb]) ?_
  · simp [Emits, hmode]
  · simp [held, hmode]

/-- An output filter writes to its buffer or flushes it. -/
theorem Open.setOutput {out : Output} (h : Open start f printed) (hmode : f.mode = .output)
    (ho : f.output.Accepts out buf) : Open start (f.setOutput out) (printed ++ buf) := by
  obtain ⟨bbs, hpassed, hno⟩ := ho.passed
  have hr : (f.setOutput out).output = out := by
    have hr : out.r = none := ho.r
    cases out
    cases hr
    rfl
  refine h.send bbs rfl h.eos h.sentEos (hr ▸ ho.plain) ?_ ?_ ?_
  · simp only [Emits, hmode]
    exact ⟨hpassed, rfl⟩
  · rw [List.mem_flatten]
    rintro ⟨bb, hbb, heos⟩
    exact hno bb hbb heos
  · have hbytes := ho.bytes
    have hheld : (f.setOutput out).held = out.wb.held := by
      rw [held, show (f.setOutput out).mode = .output from hmode, hr]
    have hfheld : f.held = f.output.wb.held := by rw [held, hmode]
    rw [hheld, hfheld, Brigade.bytes_flatten]
    rw [Output.sent, hpassed, List.flatMap_append, List.append_assoc, List.append_assoc,
      Output.sent, List.append_cancel_left_eq] at hbytes
    exact hbytes

/-- A flush of an input filter appends the FLUSH and the EOS that are due. -/
theorem inputFilterFlush_eq (hsent : f.sentEos = false) : ∃ rc, f.inputFilterFlush.2 =
    { f with
      bbOut := f.bbOut ++ (if f.flush then [.flush] else []) ++ if f.eos then [.eos] else []
      flush := false, eos := false, sentEos := f.eos, rc } := by
  obtain ⟨mode, seenEos, eos, flush, leftover, remaining, wbucket, bucket, bbIn, bbOut, rc,
    sentEos, passed⟩ := f
  cases hsent
  cases eos <;> cases flush <;>
    simp [Filter.inputFilterFlush, sendInputFlush, sendInputEos]

theorem Open.appendFlush (h : Open start f printed) (hmode : f.mode = .input) :
    Open start { f with bbOut := f.bbOut ++ if f.flush then [.flush] else [] } printed := by
  have hflush : Open start { f with bbOut := f.bbOut ++ if f.flush then [.flush] else [] }
      (printed ++ Brigade.bytes (if f.flush then [.flush] else [])) :=
    h.append hmode (by split <;> simp)
  have hbytes : Brigade.bytes (if f.flush then [.flush] else []) = [] := by split <;> rfl
  rwa [hbytes, List.append_nil] at hflush

theorem Open.inputFilterFlush (h : Open start f printed) (hmode : f.mode = .input) :
    Open start f.inputFilterFlush.2 printed := by
  obtain ⟨rc, heq⟩ := inputFilterFlush_eq h.sentEos
  rw [heq, h.eos]
  refine (h.appendFlush hmode).same ⟨rfl, h.eos.symm, h.sentEos.symm, rfl, ?_, rfl⟩
  simp

/-- A flush of an output filter sends what is held, and then the EOS if it is
due and the next filter takes the rest. -/
theorem outputFilterFlush_cases (httpd : Httpd) (hsent : f.sentEos = false)
    (hplain : f.output.Plain) :
    ∃ rc f' out, f.outputFilterFlush httpd = some (rc, f') ∧ f.output.Accepts out [] ∧
      out.wb.outcnt = 0 ∧ (httpd.TakesAll → rc = aprSuccess) ∧
      ((rc ≠ aprSuccess ∨ f.eos = false) ∧ f' = { f.setOutput out with flush := false, rc } ∨
        f.eos = true ∧ f' =
          { f.setOutput out with
            flush := false, eos := false, bbIn := none, rc, sentEos := true
            passed := out.passed ++ [[.eos]] }) := by
  obtain ⟨rc, out, hflush, haccepts, hempty⟩ :=
    Output.wbucketFlush_accepts httpd hplain f.flush
  have hstart : outputFilterFlush httpd f =
      (f.output.wbucketFlush httpd f.flush).map fun flushed =>
        let f := { f.setOutput flushed.2 with flush := false, rc := flushed.1 }
        if f.rc ≠ aprSuccess then (f.rc, f)
        else if f.eos then
          let sent := f.sendOutputEos httpd
          (sent.1, { sent.2 with rc := sent.1, bbIn := none, eos := false })
        else (f.rc, f) := by
    rw [Filter.outputFilterFlush, if_neg (by simp [hsent])]
    rfl
  rw [hstart, hflush, Option.map_some]
  have htakes : httpd.TakesAll → rc = aprSuccess := fun hnext =>
    Output.wbucketFlush_success hnext hplain hflush
  by_cases hrc : rc = aprSuccess
  · cases heos : f.eos with
    | false =>
        refine ⟨rc, _, out, ?_, haccepts, hempty, htakes, .inl ⟨.inr rfl, rfl⟩⟩
        simp [Filter.setOutput, hrc, heos]
    | true =>
        refine ⟨httpd.passBrigade (out.passed ++ [[.eos]]), _, out, ?_, haccepts, hempty,
          fun hnext => hnext _, .inr ⟨rfl, rfl⟩⟩
        simp [Filter.setOutput, sendOutputEos, hrc, heos]
  · refine ⟨rc, _, out, ?_, haccepts, hempty, htakes, .inl ⟨.inl hrc, rfl⟩⟩
    simp [Filter.setOutput, hrc]

theorem Open.outputFilterFlush {rc : Status} (h : Open start f printed) (hmode : f.mode = .output)
    (hflush : f.outputFilterFlush httpd = some (rc, f')) : Open start f' printed := by
  obtain ⟨rc', f₁, out, hflush', haccepts, -, -, ⟨-, rfl⟩ | ⟨heos, -⟩⟩ :=
    outputFilterFlush_cases httpd h.sentEos h.plain
  · rw [hflush, Option.some_inj, Prod.mk.injEq] at hflush'
    rw [hflush'.2, ← List.append_nil printed]
    exact (h.setOutput hmode haccepts).same ⟨rfl, rfl, rfl, rfl, rfl, rfl⟩
  · rw [h.eos] at heos
    cases heos

theorem Open.outputFilterRead {res : Except Status (Nat × Bytes)} (h : Open start f printed)
    (hmode : f.mode = .output) (hread : f.outputFilterRead httpd wanted = some (res, f')) :
    Open start f' printed := by
  obtain ⟨⟨res₁, f₁⟩, hfilter, hread⟩ := Option.bind_eq_some_iff.mp hread
  have hsame := filterRead_sameOutput hfilter
  have hopen := h.same hsame
  cases res₁ with
  | error rc =>
      obtain ⟨-, rfl⟩ := Prod.mk.inj (Option.some.inj hread)
      exact hopen
  | ok read =>
      simp only at hread
      split_ifs at hread
      · obtain ⟨⟨rc, f₂⟩, hflush, hres⟩ := Option.map_eq_some_iff.mp hread
        have hflushed := hopen.outputFilterFlush (hsame.mode.trans hmode) hflush
        simp only at hres
        split_ifs at hres <;> exact (Prod.mk.inj hres).2 ▸ hflushed
      · obtain ⟨-, rfl⟩ := Prod.mk.inj (Option.some.inj hread)
        exact hopen

theorem Open.inputFilterRead {res : Except Status (Nat × Bytes)} (h : Open start f printed)
    (hmode : f.mode = .input) (hread : f.inputFilterRead upstream wanted = some (res, f')) :
    Open start f' printed := by
  unfold Filter.inputFilterRead at hread
  extract_lets get at hread
  have hsame : SameOutput f get.2 := by
    unfold get
    split <;> exact ⟨rfl, rfl, rfl, rfl, rfl, rfl⟩
  split_ifs at hread
  · obtain ⟨-, rfl⟩ := Prod.mk.inj (Option.some.inj hread)
    exact h.same hsame
  · obtain ⟨⟨res₁, f₁⟩, hfilter, hres⟩ := Option.map_eq_some_iff.mp hread
    have hread := hsame.trans (filterRead_sameOutput hfilter)
    have hopen := h.same hread
    cases res₁ with
    | error rc => exact (Prod.mk.inj hres).2 ▸ hopen
    | ok read =>
        have hflushed := hopen.inputFilterFlush (hread.mode.trans hmode)
        simp only at hres
        split_ifs at hres
        · exact (Prod.mk.inj hres).2 ▸ hflushed
        · exact (Prod.mk.inj hres).2 ▸ hflushed
        · exact (Prod.mk.inj hres).2 ▸ hopen

/-- Every call keeps the filter open, also one that croaks. -/
theorem Open.call {c : FilterCall} (h : Open start f printed)
    (hcall : f.call httpd upstream c = some (f', buf)) : Open start f' (printed ++ buf) := by
  cases c with
  | seenEos set =>
      obtain ⟨rfl, rfl⟩ := Prod.mk.inj (Option.some.inj hcall)
      rw [List.append_nil]
      exact h.same ⟨rfl, rfl, rfl, rfl, rfl, rfl⟩
  | print bytes =>
      unfold Filter.call at hcall
      cases hmode : f.mode with
      | input =>
          simp only [hmode] at hcall
          obtain ⟨rfl, rfl⟩ := Prod.mk.inj (Option.some.inj hcall)
          have happend : Open start (f.inputFilterWrite bytes).2
              (printed ++ Brigade.bytes [.data bytes]) := h.append hmode (by simp)
          simpa [Bucket.bytes] using happend
      | output =>
          simp only [hmode, outputFilterWrite, Option.map_map, Option.map_eq_some_iff] at hcall
          obtain ⟨⟨rv, wlen, out⟩, hwrite, hres⟩ := hcall
          obtain ⟨rfl, rfl⟩ := Prod.mk.inj hres
          -- `wlen` is set only by a write that succeeds
          rcases Output.wbucketWrite_accepts h.plain bytes with
            ⟨rv', out', -, hwrite', haccepts⟩ | ⟨-, rv', out', hwrite', haccepts⟩
          · rw [hwrite, Option.some_inj, Prod.mk.injEq, Prod.mk.injEq] at hwrite'
            obtain ⟨-, rfl, rfl⟩ := hwrite'
            exact h.setOutput hmode haccepts
          · rw [hwrite, Option.some_inj, Prod.mk.injEq, Prod.mk.injEq] at hwrite'
            obtain ⟨-, rfl, rfl⟩ := hwrite'
            rw [List.take_length]
            exact h.setOutput hmode haccepts
  | read wanted =>
      unfold Filter.call at hcall
      cases hmode : f.mode with
      | input =>
          simp only [hmode, Option.map_eq_some_iff] at hcall
          obtain ⟨⟨res, f₁⟩, hread, hres⟩ := hcall
          obtain ⟨rfl, rfl⟩ := Prod.mk.inj hres
          rw [List.append_nil]
          exact h.inputFilterRead hmode hread
      | output =>
          simp only [hmode, Option.map_eq_some_iff] at hcall
          obtain ⟨⟨res, f₁⟩, hread, hres⟩ := hcall
          obtain ⟨rfl, rfl⟩ := Prod.mk.inj hres
          rw [List.append_nil]
          exact h.outputFilterRead hmode hread

theorem Open.runCalls {cs : List FilterCall} (h : Open start f printed)
    (hcalls : f.runCalls httpd upstream cs = some (f', buf)) : Open start f' (printed ++ buf) := by
  induction cs generalizing f printed buf with
  | nil =>
      obtain ⟨rfl, rfl⟩ := Prod.mk.inj (Option.some.inj hcalls)
      rwa [List.append_nil]
  | cons c cs ih =>
      obtain ⟨⟨f₁, buf₁⟩, hcall, hcalls⟩ := Option.bind_eq_some_iff.mp hcalls
      obtain ⟨⟨f₂, buf₂⟩, hcs, hres⟩ := Option.map_eq_some_iff.mp hcalls
      obtain ⟨rfl, rfl⟩ := Prod.mk.inj hres
      rw [← List.append_assoc]
      exact ih (h.call hcall) hcs

theorem Open.new {mode : FilterMode} {bb : Brigade} {passed : List Brigade} :
    Open (.new mode bb false passed) (.new mode bb false passed) [] where
  mode := rfl
  eos := rfl
  sentEos := rfl
  plain := ⟨rfl, Nat.zero_le _⟩
  emits := by
    refine ⟨[], .none rfl rfl, by simp, ?_⟩
    cases mode with
    | input => rfl
    | output => rfl

/-! ## At the end of the invocation -/

/-- The invocation sent all that was printed, and then an EOS or none. -/
def Closed (start f : Filter) (printed : Bytes) : Prop :=
  ∃ bbs, Bucket.eos ∉ bbs.flatten ∧ Brigade.bytes bbs.flatten = printed ∧
    (f.sentEos = false ∧ Emits start f bbs ∨ f.sentEos = true ∧ Emits start f (bbs ++ [[.eos]]))

theorem Open.closed (h : Open start f printed) (hheld : f.held = []) :
    Closed start f printed := by
  obtain ⟨bbs, hemits, hno, hbytes⟩ := h.emits
  rw [hheld, List.append_nil] at hbytes
  exact ⟨bbs, hno, hbytes, .inl ⟨h.sentEos, hemits⟩⟩

theorem held_of_input (hmode : f.mode = .input) : f.held = [] := by
  rw [held, hmode]

theorem held_setOutput {out : Output} (hmode : f.mode = .output) (hempty : out.wb.outcnt = 0) :
    (f.setOutput out).held = [] := by
  have hmode' : (f.setOutput out).mode = .output := hmode
  rw [held, hmode']
  exact Output.held_of_outcnt_zero hempty

/-- The flush at the end, with `eos` set to what the handler has met. -/
theorem Open.finish_input {eos : Bool} (h : Open start f printed) (hmode : f.mode = .input) :
    Closed start { f with eos }.inputFilterFlush.2 printed := by
  have hsent : { f with eos }.sentEos = false := h.sentEos
  obtain ⟨rc, heq⟩ := inputFilterFlush_eq hsent
  cases eos with
  | false =>
      have hsame : SameOutput f { f with eos := false } :=
        ⟨rfl, h.eos.symm, rfl, rfl, rfl, rfl⟩
      refine ((h.same hsame).inputFilterFlush hmode).closed (held_of_input ?_)
      rw [heq]
      exact hmode
  | true =>
      rw [heq]
      have hflush := h.appendFlush hmode
      obtain ⟨bbs, hemits, hno, hbytes⟩ := hflush.emits
      rw [held_of_input (hflush.mode.trans (h.mode.symm.trans hmode)), List.append_nil] at hbytes
      refine ⟨bbs, hno, hbytes, .inr ⟨rfl, hemits.snoc hflush.mode ?_⟩⟩
      simp [Emits, hmode]

theorem Open.finish_output {eos : Bool} {rc : Status} (h : Open start f printed)
    (hmode : f.mode = .output) (hflush : { f with eos }.outputFilterFlush httpd = some (rc, f')) :
    Closed start f' printed ∧ (httpd.TakesAll → rc = aprSuccess ∧ f'.sentEos = eos) := by
  have hsent : { f with eos }.sentEos = false := h.sentEos
  obtain ⟨rc', f₁, out, hflush', haccepts, hempty, htakes, hcases⟩ :=
    outputFilterFlush_cases httpd hsent h.plain
  rw [hflush, Option.some_inj, Prod.mk.injEq] at hflush'
  obtain ⟨rfl, rfl⟩ := hflush'
  have hopen := h.setOutput hmode haccepts
  obtain ⟨bbs, hemits, hno, hbytes⟩ := hopen.emits
  rw [held_setOutput hmode hempty, List.append_nil, List.append_nil] at hbytes
  rcases hcases with ⟨hnot, rfl⟩ | ⟨heos, rfl⟩
  · refine ⟨⟨bbs, hno, hbytes, .inl ⟨h.sentEos, hemits⟩⟩, fun hnext => ⟨htakes hnext, ?_⟩⟩
    have heos : eos = false := hnot.resolve_left (not_not.mpr (htakes hnext))
    exact heos ▸ h.sentEos
  · refine ⟨⟨bbs, hno, hbytes, .inr ⟨rfl, hemits.snoc hopen.mode ?_⟩⟩, fun hnext =>
      ⟨htakes hnext, heos.symm⟩⟩
    simp [Emits, Filter.setOutput, hmode]

/-- The EOS that was met is now due. -/
theorem exists_eos (f : Filter) : ∃ eos seenEos,
    (if f.seenEos then { f with eos := true, seenEos := false } else f) =
      { f with eos, seenEos } ∧ (f.eos = false → eos = f.seenEos) := by
  split
  · next hseen => exact ⟨_, _, rfl, fun _ => hseen.symm⟩
  · next hseen => exact ⟨f.eos, f.seenEos, rfl, fun heos => by simp [heos, hseen]⟩

/-- Whatever the handler did, and however the invocation ends. -/
theorem Open.runFilter {handler : Handler} {status : Status} {res : Except Status Status}
    (h : Open start f printed) (hhandler : handler start = some (status, f))
    (hrun : start.runFilter httpd handler = some (res, f')) : Closed start f' printed := by
  obtain ⟨⟨status', f₁⟩, hhandler', hrun⟩ := Option.bind_eq_some_iff.mp hrun
  rw [hhandler, Option.some_inj, Prod.mk.injEq] at hhandler'
  obtain ⟨rfl, rfl⟩ := hhandler'
  obtain ⟨eos, seenEos, hseen, -⟩ := exists_eos f
  simp only [hseen] at hrun
  have hsame : ∀ bbIn, Open start { f with seenEos, bbIn } printed := fun _ =>
    h.same ⟨rfl, rfl, rfl, rfl, rfl, rfl⟩
  split at hrun
  · next hmode =>
      -- `DECLINED` after a read croaks before the flush
      split_ifs at hrun
      · obtain ⟨-, rfl⟩ := Prod.mk.inj (Option.some.inj hrun)
        exact h.closed (held_of_input hmode)
      · obtain ⟨-, rfl⟩ := Prod.mk.inj (Option.some.inj hrun)
        exact (hsame none).finish_input hmode
  · next hmode =>
      obtain ⟨⟨rc, f₁⟩, hflush, hres⟩ := Option.map_eq_some_iff.mp hrun
      obtain ⟨-, rfl⟩ := Prod.mk.inj hres
      exact ((hsame f.bbIn).finish_output hmode hflush).1

/-- The handler was called, and what is returned is what it returned. -/
theorem runFilter_handler {handler : Handler} {res : Except Status Status}
    (hrun : start.runFilter httpd handler = some (res, f')) :
    ∃ status f, handler start = some (status, f) ∧ ∀ st, res = .ok st → st = status := by
  obtain ⟨⟨status, f⟩, hhandler, hrun⟩ := Option.bind_eq_some_iff.mp hrun
  have hfinish : ∀ rc st, finish rc status = .ok st → st = status := by
    intro rc st h
    unfold finish at h
    split_ifs at h
    cases h
    rfl
  refine ⟨status, f, hhandler, fun st hst => ?_⟩
  subst hst
  obtain ⟨eos, seenEos, hseen, -⟩ := exists_eos f
  simp only [hseen] at hrun
  split at hrun
  · split_ifs at hrun
    · cases (Prod.mk.inj (Option.some.inj hrun)).1
    · exact hfinish _ st (Prod.mk.inj (Option.some.inj hrun)).1
  · obtain ⟨⟨rc, f₁⟩, -, hres⟩ := Option.map_eq_some_iff.mp hrun
    exact hfinish _ st (Prod.mk.inj hres).1

end Filter

/-! ## The life of a filter -/

/-- An invocation: the brigade it is called with, what the next filter of an
input filter would deliver, what the handler calls and what it returns. -/
structure FilterInvocation where
  bb : Brigade
  upstream : Status × Brigade
  calls : List FilterCall
  status : Status

/-- A filter over its invocations: its seat in the chain, and the buckets that
originate from it. -/
structure FilterLife where
  seat : FilterSeat
  emitted : List Bucket

namespace FilterInvocation

variable (httpd : Httpd) (mode : FilterMode)

def handler (inv : FilterInvocation) : Filter.Handler := fun f =>
  (f.runCalls httpd inv.upstream inv.calls).map fun (f, _) => (inv.status, f)

/-- The invocation, by the handler of the mode. -/
def invoke (inv : FilterInvocation) (seat : FilterSeat) : Option Invoked :=
  match mode with
  | .input => inputFilterHandler httpd (inv.handler httpd) inv.upstream seat inv.bb
  | .output => outputFilterHandler httpd (inv.handler httpd) seat inv.bb

/-- The buckets that an invocation has added, if Perl was called: to the brigade
of the caller, or to what the next filter was handed. -/
def own (inv : FilterInvocation) (seat : FilterSeat) (i : Invoked) : List Bucket :=
  if i.called then
    match mode with
    | .input => i.bb.drop inv.bb.length
    | .output => (i.seat.passed.drop seat.passed.length).flatten
  else []

/-- The brigade is as before, behind what was there: the next filter gets it, or
the caller gets what the next filter delivers. -/
def PassedThrough (inv : FilterInvocation) (seat : FilterSeat) (i : Invoked) : Prop :=
  i.called = false ∧ i.seat.sentEos = seat.sentEos ∧
    match mode with
    | .input => i.bb = inv.bb ++ inv.upstream.2 ∧ i.seat.passed = seat.passed
    | .output => i.bb = inv.bb ∧ i.seat.passed = seat.passed ++ [inv.bb]

variable {httpd mode} {inv : FilterInvocation} {seat : FilterSeat} {i : Invoked}

theorem invoke_of_sent (hsent : seat.sentEos = true) (h : inv.invoke httpd mode seat = some i) :
    inv.PassedThrough mode seat i := by
  unfold invoke at h
  cases mode with
  | input =>
      simp only [inputFilterHandler, hsent, if_true, Option.some_inj] at h
      exact h ▸ ⟨rfl, rfl, rfl, rfl⟩
  | output =>
      simp only [outputFilterHandler, hsent, if_true, Option.some_inj] at h
      exact h ▸ ⟨rfl, hsent.symm, rfl, rfl⟩

/-- An invocation that calls Perl, with a handler that returns OK. -/
theorem invoke_of_not_sent (hsent : seat.sentEos = false) (hstatus : inv.status = ok)
    (h : inv.invoke httpd mode seat = some i) :
    ∃ f printed, (Filter.new mode inv.bb false seat.passed).runCalls httpd inv.upstream inv.calls =
      some (f, printed) ∧
      (i.seat.sentEos = false ∧ Bucket.eos ∉ inv.own mode seat i ∨
        i.seat.sentEos = true ∧ ∃ bb, inv.own mode seat i = bb ++ [.eos] ∧ Bucket.eos ∉ bb ∧
          Brigade.bytes bb = printed) := by
  have hreturns : ∀ {res f'}, (Filter.new mode inv.bb false seat.passed).runFilter httpd
      (inv.handler httpd) = some (.ok res, f') → res = ok := by
    intro res f' hrun
    obtain ⟨status, f, hhandler, hst⟩ := Filter.runFilter_handler hrun
    obtain ⟨_, _, hres⟩ := Option.map_eq_some_iff.mp hhandler
    rw [hst res rfl, ← (Prod.mk.inj hres).1, hstatus]
  obtain ⟨res, f', hrun, hseat, hcalled, hbb⟩ : ∃ res f',
      (Filter.new mode inv.bb false seat.passed).runFilter httpd (inv.handler httpd) =
        some (res, f') ∧ i.seat = ⟨f'.sentEos, f'.passed⟩ ∧ i.called = true ∧
        (mode = .input → i.bb = f'.bbOut) := by
    unfold invoke at h
    cases mode with
    | input =>
        simp only [inputFilterHandler, hsent, Bool.false_eq_true, if_false] at h
        obtain ⟨⟨res, f'⟩, hrun, hres⟩ := Option.map_eq_some_iff.mp h
        refine ⟨res, f', hrun, ?_⟩
        cases res with
        | error rc => exact hres ▸ ⟨rfl, rfl, fun _ => rfl⟩
        | ok status =>
            obtain rfl := hreturns hrun
            exact hres ▸ ⟨rfl, rfl, fun _ => rfl⟩
    | output =>
        simp only [outputFilterHandler, hsent, Bool.false_eq_true, if_false] at h
        obtain ⟨⟨res, f'⟩, hrun, hres⟩ := Option.map_eq_some_iff.mp h
        refine ⟨res, f', hrun, ?_⟩
        cases res with
        | error rc => exact hres ▸ ⟨rfl, rfl, fun h => nomatch h⟩
        | ok status =>
            obtain rfl := hreturns hrun
            exact hres ▸ ⟨rfl, rfl, fun h => nomatch h⟩
  obtain ⟨status, f, hhandler, -⟩ := Filter.runFilter_handler hrun
  obtain ⟨⟨f₁, printed⟩, hcalls, hres⟩ := Option.map_eq_some_iff.mp hhandler
  obtain ⟨-, rfl⟩ := Prod.mk.inj hres
  have hopen : Filter.Open _ f₁ printed := Filter.Open.new.runCalls hcalls
  -- what an invocation adds is what was sent from its first state on
  have hown : ∀ bbs, Filter.Emits (.new mode inv.bb false seat.passed) f' bbs →
      inv.own mode seat i = bbs.flatten := by
    intro bbs hemits
    cases mode with
    | input =>
        have hbbOut : i.bb = inv.bb ++ bbs.flatten := (hbb rfl).trans hemits.1
        simp [own, hcalled, hbbOut]
    | output =>
        have hpassed : i.seat.passed = seat.passed ++ bbs := hseat ▸ hemits.1
        simp [own, hcalled, hpassed]
  refine ⟨f₁, printed, hcalls, ?_⟩
  obtain ⟨bbs, hno, hbytes, ⟨hnot, hemits⟩ | ⟨hyes, hemits⟩⟩ := hopen.runFilter hhandler hrun
  · exact .inl ⟨hseat ▸ hnot, hown bbs hemits ▸ hno⟩
  · refine .inr ⟨hseat ▸ hyes, bbs.flatten, ?_, hno, hbytes⟩
    rw [hown _ hemits]
    simp

end FilterInvocation

namespace FilterLife

open FilterInvocation

variable {httpd : Httpd} {mode : FilterMode} {s s' : FilterLife}

/-- One invocation. -/
def step (httpd : Httpd) (mode : FilterMode) (s : FilterLife) (inv : FilterInvocation) :
    Option FilterLife :=
  (inv.invoke httpd mode s.seat).map fun i => ⟨i.seat, s.emitted ++ inv.own mode s.seat i⟩

/-- The handler returns OK. -/
def ReturnsOk (_ : FilterLife) (inv : FilterInvocation) : Prop := inv.status = ok

instance : DecidableRel ReturnsOk := fun _ inv => inferInstanceAs (Decidable (inv.status = ok))

/-- No EOS was emitted, or it was the last bucket and is remembered. -/
def AtMostOneEos (s : FilterLife) : Prop :=
  s.seat.sentEos = false ∧ Bucket.eos ∉ s.emitted ∨
    s.seat.sentEos = true ∧ ∃ bb, s.emitted = bb ++ [.eos] ∧ Bucket.eos ∉ bb

theorem AtMostOneEos.step {inv : FilterInvocation} (h : AtMostOneEos s) (hok : ReturnsOk s inv)
    (hs : step httpd mode s inv = some s') : AtMostOneEos s' := by
  obtain ⟨i, hi, rfl⟩ := Option.map_eq_some_iff.mp hs
  rcases h with ⟨hsent, hno⟩ | ⟨hsent, bb, hbb, hno⟩
  · obtain ⟨-, -, -, ⟨hnot, hown⟩ | ⟨hyes, bb, hown, hno', -⟩⟩ := invoke_of_not_sent hsent hok hi
    · refine .inl ⟨hnot, ?_⟩
      rw [List.mem_append]
      exact not_or.mpr ⟨hno, hown⟩
    · refine .inr ⟨hyes, s.emitted ++ bb, ?_, ?_⟩
      · rw [hown, List.append_assoc]
      · rw [List.mem_append]
        exact not_or.mpr ⟨hno, hno'⟩
  · obtain ⟨hcalled, hsent', -⟩ := invoke_of_sent hsent hi
    refine .inr ⟨hsent'.trans hsent, bb, ?_, hno⟩
    simp [own, hcalled, hbb]

end FilterLife

/-- Over all invocations with handlers that return OK, the filter emits at most
one EOS, `sent_eos` says whether it did, and the EOS is the last bucket that
originates from it.  In the invocation that emits it, all that was accepted for
output goes before it; once it is emitted, Perl is not called again and brigades
are passed through. -/
theorem eos_protocol {httpd : Httpd} {mode : FilterMode} {s : FilterLife}
    (h : Reachable (FilterLife.step httpd mode) FilterLife.ReturnsOk ⟨⟨false, []⟩, []⟩ s) :
    s.emitted.count .eos ≤ 1 ∧ (s.seat.sentEos = true ↔ Bucket.eos ∈ s.emitted) ∧
      (s.seat.sentEos = true → s.emitted.getLast? = some .eos) ∧
      ∀ (inv : FilterInvocation) (i : Invoked), inv.status = ok →
        inv.invoke httpd mode s.seat = some i →
        (s.seat.sentEos = true → inv.PassedThrough mode s.seat i) ∧
        (s.seat.sentEos = false → i.seat.sentEos = true → ∃ f printed bb,
          (Filter.new mode inv.bb false s.seat.passed).runCalls httpd inv.upstream inv.calls =
            some (f, printed) ∧
          inv.own mode s.seat i = bb ++ [.eos] ∧ Bucket.eos ∉ bb ∧ Brigade.bytes bb = printed) := by
  have hinv : s.AtMostOneEos := by
    refine h.invariant (.inl ⟨rfl, by simp⟩) fun _ _ _ _ hi hok hs => hi.step hok hs
  refine ⟨?_, ?_, ?_, fun inv i hok hi => ⟨fun hsent => ?_, fun hsent hsent' => ?_⟩⟩
  · rcases hinv with ⟨-, hno⟩ | ⟨-, bb, hbb, hno⟩
    · simp [List.count_eq_zero.mpr hno]
    · simp [hbb, List.count_eq_zero.mpr hno]
  · rcases hinv with ⟨hsent, hno⟩ | ⟨hsent, bb, hbb, -⟩
    · simp [hsent, hno]
    · simp [hsent, hbb]
  · intro hsent
    rcases hinv with ⟨hnot, -⟩ | ⟨-, bb, hbb, -⟩
    · rw [hnot] at hsent
      cases hsent
    · simp [hbb]
  · exact FilterInvocation.invoke_of_sent hsent hi
  · obtain ⟨f, printed, hcalls, ⟨hnot, -⟩ | ⟨-, bb, hown, hno, hbytes⟩⟩ :=
      FilterInvocation.invoke_of_not_sent hsent hok hi
    · rw [hnot] at hsent'
      cases hsent'
    · exact ⟨f, printed, bb, hcalls, hown, hno, hbytes⟩

/-- A filter that reads and prints one brigade with EOS, and is then given
another one. -/
theorem eos_protocol_two : ∃ s : FilterLife,
    s.seat.passed = [[.data [1, 2]], [.eos], [.data [3]]] ∧
      s.emitted = [.data [1, 2], .eos] ∧ s.emitted.count .eos ≤ 1 := by
  obtain ⟨s, hs, hpassed, hemitted⟩ : ∃ s : FilterLife,
      Reachable (FilterLife.step .accepting .output) FilterLife.ReturnsOk ⟨⟨false, []⟩, []⟩ s ∧
        s.seat.passed = [[.data [1, 2]], [.eos], [.data [3]]] ∧
          s.emitted = [.data [1, 2], .eos] :=
    Reachable.exists_of_run (show runOk _ _ _
      [⟨[.data [1, 2], .eos], (aprSuccess, []), [.read 8192, .print [1, 2]], ok⟩,
        ⟨[.data [3]], (aprSuccess, []), [], ok⟩] by decide +kernel) (by decide +kernel)
  exact ⟨s, hpassed, hemitted, (eos_protocol hs).1⟩

end ModPerl
