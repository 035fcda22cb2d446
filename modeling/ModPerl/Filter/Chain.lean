import ModPerl.Filter.Streaming

/-!
# Chains of output filters

A filter hands its brigades to the next one, and goes on when that has answered.  So the
answer that a filter of a chain gets is what the rest of the chain does with all that it
was handed so far (`chain`), and what the network gets is what the last filter handed on
(`network`).

The filters here translate what they read byte by byte, by the loop of the documentation

  `while ($f->read(my $buf, $wanted)) { $buf =~ …; $f->print($buf) }`

or decline.  The brigades that such a filter hands on have a FLUSH at the end only, and so
lose nothing in the next one, whatever was in the brigades before the first of them.
-/

namespace ModPerl

/-- Data, and then FLUSH buckets or one EOS. -/
def Brigade.Tidy : Brigade → Prop
  | [] => True
  | .data _ :: rest => Brigade.Tidy rest
  | .flush :: rest => ∀ b ∈ rest, b = .flush
  | .eos :: rest => rest = []
  | .broken _ :: _ => False

/-- What a filter is handed before the end of a response. -/
def Clean (bbs : List Brigade) : Prop := ∀ bb ∈ bbs, bb.Tidy ∧ Bucket.eos ∉ bb

/-- What a filter is handed up to the end of a response or before: nothing comes behind
the EOS. -/
def Orderly (bbs : List Brigade) : Prop :=
  (∀ bb ∈ bbs, bb.Tidy) ∧ Bucket.eos ∉ bbs.dropLast.flatten

/-- The next filter takes what is orderly. -/
def Httpd.TakesOrderly (httpd : Httpd) : Prop :=
  ∀ bbs, Orderly bbs → httpd.passBrigade bbs = aprSuccess

/-- The loop of a handler that translates, from read number `k` on, for so many rounds. -/
def translateLoop (httpd : Httpd) (tr : UInt8 → Bytes) (wanted : ℕ → ℕ) : ℕ → ℕ → Filter.Handler
  | 0, _, _ => none
  | rounds + 1, k, f =>
      (f.outputFilterRead httpd (wanted k)).bind fun
        | (.error _, f) => some (httpInternalServerError, f)
        | (.ok (len, buffer), f) =>
            if len = 0 then some (ok, f)
            else
              (f.outputFilterWrite httpd (buffer.flatMap tr)).bind fun (rv, _, f) =>
                if rv ≠ aprSuccess then some (httpInternalServerError, f)
                else translateLoop httpd tr wanted rounds (k + 1) f

/-- A filter of a chain. -/
inductive Stage
  | translating (tr : UInt8 → Bytes) (wanted : ℕ → ℕ)
  | declining

namespace Stage

/-- A round of the loop takes a byte at least, but for the last two. -/
def handler (httpd : Httpd) : Stage → Filter.Handler
  | .translating tr wanted => fun f =>
      translateLoop httpd tr wanted ((f.bbIn.getD []).bytes.length + 2) 0 f
  | .declining => fun f => some (declined, f)

/-- What a filter makes of the bytes. -/
def translate : Stage → Bytes → Bytes
  | .translating tr _, bytes => bytes.flatMap tr
  | .declining, bytes => bytes

/-- The reads are of a positive number of bytes, which an `int` can hold. -/
def Reading : Stage → Prop
  | .translating _ wanted => ∀ k, 0 < wanted k ∧ wanted k < 2 ^ 31
  | .declining => True

end Stage

/-- The status of an invocation: that of the croak, if it has croaked. -/
def Invoked.status (i : Invoked) : Status :=
  match i.result with
  | .ok status => status
  | .error rc => rc

/-- A filter is handed these brigades one after the other: the status of the last one, and
the filter after it. -/
def deliver (httpd : Httpd) (handler : Filter.Handler) (bbs : List Brigade) :
    Option (Status × FilterSeat) :=
  bbs.foldlM (fun r bb =>
    (outputFilterHandler httpd handler r.2 bb).map fun i => (i.status, i.seat))
    (aprSuccess, ⟨false, []⟩)

/-- The server, with the filters before what it does with a brigade itself.  A fault has no
answer. -/
def chain (httpd : Httpd) : List Stage → Httpd
  | [] => httpd
  | stage :: stages =>
      let next := chain httpd stages
      { next with
        passBrigade := fun bbs => ((deliver next (stage.handler next) bbs).map Prod.fst).getD (-1) }

/-- What is handed on behind the last filter. -/
def network (httpd : Httpd) : List Stage → List Brigade → Option (List Brigade)
  | [], bbs => some bbs
  | stage :: stages, bbs =>
      let next := chain httpd stages
      (deliver next (stage.handler next) bbs).bind fun r => network httpd stages r.2.passed

variable {httpd : Httpd} {tr : UInt8 → Bytes} {wanted : ℕ → ℕ} {k : ℕ} {bb rest : Brigade}
  {bbs passed : List Brigade} {left : Bytes}

/-! ## Tidy brigades -/

theorem Brigade.tidy_of_flush (h : ∀ b ∈ bb, b = .flush) : bb.Tidy := by
  cases bb with
  | nil => trivial
  | cons b bb =>
      obtain rfl := h b List.mem_cons_self
      exact fun b' hb' => h b' (List.mem_cons_of_mem _ hb')

theorem Brigade.Tidy.streamable (h : bb.Tidy) : bb.Streamable := by
  induction bb with
  | nil => trivial
  | cons b bb ih =>
      cases b with
      | data bytes => exact ih h
      | broken rc => exact h
      | eos => exact h
      | flush => exact ih (Brigade.tidy_of_flush h)

/-- A begun bucket is read until less is left of it than is wanted. -/
theorem leftReads_lt (hwanted : ∀ k, 0 < wanted k) (k n : ℕ) :
    (leftReads wanted k n).2 < wanted (leftReads wanted k n).1 := by
  induction n using Nat.strongRecOn generalizing k with
  | ind n ih =>
      by_cases hle : wanted k ≤ n
      · rw [leftReads_of_le (hwanted k) hle]
        exact ih _ (Nat.sub_lt (lt_of_lt_of_le (hwanted k) hle) (hwanted k)) (k + 1)
      · rw [leftReads_of_lt (Nat.lt_of_not_le hle)]
        exact Nat.lt_of_not_le hle

/-- No read loses anything of a tidy brigade. -/
theorem Brigade.Tidy.drains (h : bb.Tidy) (hwanted : ∀ k, 0 < wanted k ∧ wanted k < 2 ^ 31)
    {got : ℕ} (hgot : got < wanted k) : Drains wanted k got bb := by
  induction bb generalizing k got with
  | nil => trivial
  | cons b bb ih =>
      cases b with
      | broken rc => exact h.elim
      | eos => trivial
      | flush =>
          have hbytes : Brigade.bytes bb = [] :=
            List.flatMap_eq_nil_iff.mpr fun b hb => by rw [h b hb]; rfl
          have heos : Bucket.eos ∉ bb := fun hmem => by cases h _ hmem
          rw [Drains]
          split_ifs
          · exact ⟨hbytes, heos⟩
          · exact ih (Brigade.tidy_of_flush h) (hwanted (k + 1)).1
      | data buf =>
          rw [Drains]
          split_ifs with hfull
          · have hint : toInt (wanted k - got) = (wanted k - got : ℕ) :=
              toInt_of_lt (by have := (hwanted k).2; omega)
            refine ⟨by rw [hint]; exact Int.natCast_nonneg _, by rw [hint]; omega, ?_⟩
            exact ih h (leftReads_lt (fun k => (hwanted k).1) _ _)
          · exact ih h (by omega)

theorem Clean.orderly (h : Clean bbs) : Orderly bbs := by
  refine ⟨fun bb hbb => (h bb hbb).1, fun hmem => ?_⟩
  obtain ⟨bb, hbb, heos⟩ := List.mem_flatten.mp hmem
  exact (h bb (List.dropLast_subset bbs hbb)).2 heos

theorem Clean.concat_orderly (h : Clean bbs) (hbb : bb.Tidy) : Orderly (bbs ++ [bb]) := by
  refine ⟨fun bb' hmem => ?_, fun hmem => ?_⟩
  · obtain hmem | hmem := List.mem_append.mp hmem
    · exact (h bb' hmem).1
    · rw [List.mem_singleton.mp hmem]
      exact hbb
  · rw [List.dropLast_concat] at hmem
    obtain ⟨bb', hbb', heos⟩ := List.mem_flatten.mp hmem
    exact (h bb' hbb').2 heos

theorem Clean.append {bbs' : List Brigade} (h : Clean bbs) (h' : Clean bbs') :
    Clean (bbs ++ bbs') := fun bb hbb =>
  (List.mem_append.mp hbb).elim (h bb) (h' bb)

theorem clean_singleton (hbb : bb.Tidy) (heos : Bucket.eos ∉ bb) : Clean [bb] := fun bb' hmem => by
  rw [List.mem_singleton.mp hmem]
  exact ⟨hbb, heos⟩

/-! ## What is passed on -/

namespace Output

variable {out out' : Output} {buf : Bytes} {addFlushBucket : Bool} {rv : Status} {wlen : ℕ}

theorem tidy_brigade (buf : Bytes) (addFlushBucket : Bool) :
    Brigade.Tidy (brigade buf addFlushBucket) := by
  cases addFlushBucket <;> simp [brigade, Brigade.Tidy]

/-- A call that succeeds, and hands on what is tidy. -/
def Keeps (rv : Status) (out' : Output) : Prop := rv = aprSuccess ∧ Clean out'.passed

theorem passBrigade_keeps (hnext : httpd.TakesOrderly) (hclean : Clean out.passed) {bb : Brigade}
    (hbb : bb.Tidy) (heos : Bucket.eos ∉ bb) :
    Keeps (out.passBrigade httpd bb).1 (out.passBrigade httpd bb).2 :=
  ⟨hnext _ (hclean.concat_orderly hbb), hclean.append (clean_singleton hbb heos)⟩

theorem wbucketPass_keeps (hnext : httpd.TakesOrderly) (hplain : out.Plain)
    (hclean : Clean out.passed)
    (h : out.wbucketPass httpd buf addFlushBucket = some (rv, out')) : Keeps rv out' := by
  rw [wbucketPass_eq hplain, Option.some_inj] at h
  obtain ⟨rfl, rfl⟩ := Prod.mk.inj h
  exact passBrigade_keeps hnext hclean (tidy_brigade _ _) (eos_notMem_brigade _ _)

theorem wbucketFlush_keeps (hnext : httpd.TakesOrderly) (hplain : out.Plain)
    (hclean : Clean out.passed)
    (h : out.wbucketFlush httpd addFlushBucket = some (rv, out')) : Keeps rv out' := by
  unfold wbucketFlush at h
  split_ifs at h
  · exact wbucketPass_keeps hnext hplain hclean h
  · obtain ⟨rfl, rfl⟩ := Prod.mk.inj (Option.some.inj h)
    exact passBrigade_keeps hnext hclean (by simp [Brigade.Tidy]) (by simp)
  · obtain ⟨rfl, rfl⟩ := Prod.mk.inj (Option.some.inj h)
    exact ⟨rfl, hclean⟩

theorem wbucketStore_keeps (hnext : httpd.TakesOrderly) (hplain : out.Plain)
    (hclean : Clean out.passed) (h : out.wbucketStore httpd buf = some (rv, wlen, out')) :
    Keeps rv out' := by
  unfold wbucketStore at h
  split_ifs at h
  · obtain ⟨⟨rv', out₁⟩, hpass, hres⟩ := Option.map_eq_some_iff.mp h
    simp only [Prod.mk.injEq] at hres
    obtain ⟨rfl, -, rfl⟩ := hres
    exact wbucketPass_keeps hnext hplain hclean hpass
  · obtain ⟨wb, -, hres⟩ := Option.map_eq_some_iff.mp h
    simp only [Prod.mk.injEq] at hres
    obtain ⟨rfl, -, rfl⟩ := hres
    exact ⟨rfl, hclean⟩

/-- A write accepts all its bytes. -/
theorem wbucketWrite_keeps (hnext : httpd.TakesOrderly) (hplain : out.Plain)
    (hclean : Clean out.passed) (buf : Bytes) :
    ∃ out', out.wbucketWrite httpd buf = some (aprSuccess, buf.length, out') ∧
      out.Accepts out' buf ∧ Clean out'.passed := by
  rcases @wbucketWrite_accepts httpd out hplain buf with
    ⟨rv, out', ⟨-, hne, hflush⟩, -⟩ | ⟨-, rv, out', hwrite, haccepts⟩
  · exact absurd (wbucketFlush_keeps hnext hplain hclean hflush).1 hne
  · have hkeeps : Keeps rv out' := by
      unfold wbucketWrite at hwrite
      split_ifs at hwrite
      · obtain ⟨⟨rv₁, out₁⟩, hflush, hrest⟩ := Option.bind_eq_some_iff.mp hwrite
        obtain ⟨rv₂, out₂, hflush', hflushed, -⟩ := wbucketFlush_accepts httpd hplain false
        rw [hflush, Option.some_inj, Prod.mk.injEq] at hflush'
        obtain ⟨hrv₁, hclean₁⟩ := wbucketFlush_keeps hnext hplain hclean hflush
        simp only [hrv₁, ne_eq, not_true_eq_false, if_false] at hrest
        exact wbucketStore_keeps hnext (hflush'.2 ▸ hflushed.plain) hclean₁ hrest
      · exact wbucketStore_keeps hnext hplain hclean hwrite
    exact ⟨out', by rw [hwrite, hkeeps.1], haccepts, hkeeps.2⟩

end Output

namespace Filter

variable {start f f' : Filter} {printed : Bytes}

/-- A flush succeeds, and the EOS goes behind all else. -/
theorem outputFilterFlush_keeps (hnext : httpd.TakesOrderly) (hsent : f.sentEos = false)
    (hplain : f.output.Plain) (hclean : Clean f.passed) :
    ∃ f' clean, f.outputFilterFlush httpd = some (aprSuccess, f') ∧ Clean clean ∧
      f'.seenEos = f.seenEos ∧ f'.mode = f.mode ∧ f'.sentEos = f.eos ∧
      (f.eos = false → f'.bbIn = f.bbIn) ∧
      f'.passed = clean ++ if f.eos then [[.eos]] else [] := by
  obtain ⟨rc, out, hflush, haccepts, -⟩ := Output.wbucketFlush_accepts httpd hplain f.flush
  obtain ⟨rfl, hclean'⟩ := Output.wbucketFlush_keeps hnext hplain hclean hflush
  have hstart : outputFilterFlush httpd f =
      (f.output.wbucketFlush httpd f.flush).map fun flushed =>
        let f := { f.setOutput flushed.2 with flush := false, rc := flushed.1 }
        if f.rc ≠ aprSuccess then (f.rc, f)
        else if f.eos then
          let sent := f.sendOutputEos httpd
          (sent.1, { sent.2 with rc := sent.1, bbIn := none, eos := false })
        else (f.rc, f) := by
    rw [Filter.outputFilterFlush, if_neg (by simp [hsent])]
    rfl
  rw [hstart, hflush, Option.map_some]
  have hsend : httpd.passBrigade (out.passed ++ [[.eos]]) = aprSuccess :=
    hnext _ (hclean'.concat_orderly rfl)
  cases heos : f.eos with
  | false =>
      simp only [Filter.setOutput, heos, ne_eq, not_true_eq_false, if_false]
      exact ⟨_, out.passed, rfl, hclean', rfl, rfl, hsent, fun _ => rfl, (List.append_nil _).symm⟩
  | true =>
      simp only [Filter.setOutput, heos, sendOutputEos, hsend, ne_eq, not_true_eq_false, if_false,
        if_true]
      exact ⟨_, out.passed, rfl, hclean', rfl, rfl, rfl, fun h => (by cases h), rfl⟩

/-- What a read comes to, when the next filter takes what is orderly. -/
theorem outputFilterRead_keeps {read : Read} {n : ℕ} (hnext : httpd.TakesOrderly)
    (hopen : Open start f printed) (hmode : f.mode = .output) (hclean : Clean f.passed)
    (h : Returns f (some (.ok read)) (f.filterRead n)) :
    ∃ f', f.outputFilterRead httpd n = some (.ok (read.buffer.length, read.buffer), f') ∧
      Open start f' printed ∧ f'.mode = .output ∧ Clean f'.passed ∧
      f'.seenEos = (f.seenEos || read.met == some .eos) ∧
      (read.buffer ≠ [] → f'.At read.left read.rest) := by
  obtain ⟨f₁, hread, hmoved, hat⟩ := h
  have hopen₁ := hopen.same hmoved.sameOutput
  have hmode₁ := hmoved.sameOutput.mode.trans hmode
  have hclean₁ : Clean f₁.passed := hmoved.sameOutput.passed ▸ hclean
  simp only [outputFilterRead, hread, Option.bind_some]
  by_cases hflush : f₁.flush = true ∧ read.buffer.length = 0
  · obtain ⟨f₂, clean, hflushed, hclean₂, hseen, hmode₂, -, -, hpassed⟩ :=
      outputFilterFlush_keeps hnext hopen₁.sentEos hopen₁.plain hclean₁
    rw [hopen₁.eos] at hpassed
    rw [if_pos hflush, hflushed]
    simp only [Option.map_some, ne_eq, not_true_eq_false, if_false]
    refine ⟨f₂, rfl, hopen₁.outputFilterFlush hmode₁ hflushed, hmode₂.trans hmode₁, ?_,
      hseen.trans hmoved.seenEos, fun hne => absurd (List.length_eq_zero_iff.mp hflush.2) hne⟩
    rw [hpassed]
    simpa using hclean₂
  · rw [if_neg hflush]
    exact ⟨f₁, rfl, hopen₁, hmode₁, hclean₁, hmoved.seenEos, fun _ => hat⟩

/-- From anywhere in a brigade of which no read loses anything, the loop prints the
translation of all that is left, in as many rounds as there are bytes. -/
theorem translateLoop_ends (tr : UInt8 → Bytes) (rounds : ℕ) (hnext : httpd.TakesOrderly)
    (hwanted : ∀ k, 0 < wanted k) (hopen : Open start f printed) (hmode : f.mode = .output)
    (hclean : Clean f.passed) (hat : f.At left rest) (heos : f.seenEos = false)
    (hrest : rest.Streamable) (hdrains : DrainsFrom wanted k left.length rest)
    (hrounds : left.length + rest.bytes.length + 2 ≤ rounds) :
    ∃ f', translateLoop httpd tr wanted rounds k f = some (ok, f') ∧
      Open start f' (printed ++ (left ++ rest.bytes).flatMap tr) ∧ f'.mode = .output ∧
      Clean f'.passed ∧ (f'.seenEos = true ↔ .eos ∈ rest) := by
  induction rounds generalizing k f left rest printed with
  | zero => omega
  | succ rounds ih =>
      have hreturns := filterRead_returns (wanted k) hat heos
      have hon := readFrom_readsOn k left hwanted hrest
      rcases hfrom : readFrom (wanted k) left rest with _ | rc | read
      · rw [hfrom] at hon
        exact absurd hdrains hon
      · rw [hfrom] at hon
        exact hon.elim
      · rw [hfrom] at hreturns hon
        obtain ⟨f₁, hf₁, hopen₁, hmode₁, hclean₁, hseen₁, hat₁⟩ :=
          outputFilterRead_keeps hnext hopen hmode hclean hreturns
        rw [heos, Bool.false_or] at hseen₁
        have hmet : f₁.seenEos = true ↔ read.met = some .eos := by rw [hseen₁, beq_iff_eq]
        rw [← hon.bytes]
        simp only [translateLoop, hf₁, Option.bind_some]
        by_cases hbuffer : read.buffer = []
        · -- a read of nothing ends the loop
          obtain ⟨hleft, hbytes, hno⟩ := (hon.nothing hbuffer).mp hdrains
          rw [hbuffer, hleft, hbytes, List.length_nil, if_pos rfl]
          refine ⟨f₁, rfl, by simpa using hopen₁, hmode₁, hclean₁, ?_⟩
          rw [hmet, hon.eos, or_iff_left hno]
        · -- the translation of what was read is printed
          have hpos : 0 < read.buffer.length := List.length_pos_iff.mpr hbuffer
          obtain ⟨out, hwrite, haccepts, hclean₂⟩ := Output.wbucketWrite_keeps hnext hopen₁.plain
            hclean₁ (read.buffer.flatMap tr)
          have hopen₂ := hopen₁.setOutput hmode₁ haccepts
          have hat₂ : (f₁.setOutput out).At read.left read.rest :=
            ⟨(hat₁ hbuffer).leftover, (hat₁ hbuffer).remaining, (hat₁ hbuffer).unread⟩
          have hlength := congrArg List.length hon.bytes
          simp only [List.length_append] at hlength
          rw [if_neg (Nat.pos_iff_ne_zero.mp hpos), outputFilterWrite, hwrite]
          simp only [Option.map_some, Option.bind_some, ne_eq, not_true_eq_false, if_false]
          rw [List.flatMap_append, ← List.append_assoc]
          by_cases heos₁ : read.met = some .eos
          · -- behind the EOS the next read returns nothing
            obtain ⟨hleft, hrest'⟩ := hon.ended heos₁
            have hseen₂ : (f₁.setOutput out).seenEos = true := hmet.mpr heos₁
            have hagain : Returns (f₁.setOutput out) (some (.ok ⟨[], [], [], none⟩))
                ((f₁.setOutput out).filterRead (wanted (k + 1))) :=
              ⟨_, filterRead_of_seenEos hseen₂, .refl, hrest' ▸ hleft ▸ hat₂⟩
            obtain ⟨f₃, hf₃, hopen₃, hmode₃, hclean₃, hseen₃, -⟩ :=
              outputFilterRead_keeps hnext hopen₂ hmode₁ hclean₂ hagain
            obtain ⟨rounds, rfl⟩ : ∃ r, rounds = r + 1 := ⟨rounds - 1, by omega⟩
            simp only [translateLoop, hf₃, Option.bind_some, List.length_nil, if_true]
            refine ⟨f₃, rfl, ?_, hmode₃, hclean₃, iff_of_true (by rw [hseen₃, hseen₂]; rfl) ?_⟩
            · rw [hleft, hrest']
              simpa using hopen₃
            · exact hon.eos.mpr (.inl heos₁)
          · have hseen₂ : (f₁.setOutput out).seenEos = false := by
              rw [← Bool.not_eq_true]
              exact fun h => heos₁ (hmet.mp h)
            have hdrains₂ := (hon.something hbuffer).mp hdrains
            rw [hon.eos, or_iff_right heos₁]
            exact ih hopen₂ hmode₁ hclean₂ hat₂ hseen₂ hon.streamable hdrains₂ (by omega)

/-- The end of an invocation with a handler that returned OK. -/
theorem Open.runFilter_keeps {passed : List Brigade} {bb : Brigade}
    (hopen : Open (.new .output bb false passed) f printed) (handler : Handler)
    (hnext : httpd.TakesOrderly)
    (hmode : f.mode = .output) (hclean : Clean f.passed) {status : Status}
    (hhandler : handler (.new .output bb false passed) = some (status, f)) :
    ∃ f' bbs, (Filter.new .output bb false passed).runFilter httpd handler =
        some (.ok status, f') ∧ f'.sentEos = f.seenEos ∧
      (f.seenEos = false → f'.bbIn = f.bbIn) ∧
      f'.passed = passed ++ (bbs ++ if f.seenEos then [[.eos]] else []) ∧ Clean bbs ∧
      Brigade.bytes bbs.flatten = printed := by
  obtain ⟨eos, seenEos, hseen, heos⟩ := exists_eos f
  have heos := heos hopen.eos
  have hsame : Open _ { f with seenEos } printed := hopen.same ⟨rfl, rfl, rfl, rfl, rfl, rfl⟩
  have hsent : { f with eos, seenEos }.sentEos = false := hopen.sentEos
  obtain ⟨f', clean, hflush, hclean', -, -, hsent', hbbIn, hpassed⟩ :=
    outputFilterFlush_keeps (f := { f with eos, seenEos }) hnext hsent hopen.plain hclean
  obtain ⟨⟨bbs, -, hbytes, hemits⟩, -⟩ := hsame.finish_output hmode hflush
  have hmode' : { f with eos, seenEos }.mode = .output := hmode
  have hrun : (Filter.new .output bb false passed).runFilter httpd handler =
      some (.ok status, f') := by
    rw [Filter.runFilter, hhandler, Option.bind_some]
    simp only [hseen]
    split
    · next hinput => exact absurd (hmode'.symm.trans hinput) (by decide)
    · rw [hflush]
      rfl
  refine ⟨f', bbs, hrun, hsent'.trans heos, fun h => hbbIn (heos.trans h), ?_⟩
  -- the EOS is behind what the flush has sent
  have hsends : passed ++ bbs = clean ∧
      f'.passed = passed ++ (bbs ++ if f.seenEos then [[.eos]] else []) := by
    rcases hemits with ⟨hnot, hemits⟩ | ⟨hyes, hemits⟩
    · have hfalse : f.seenEos = false := heos.symm.trans (hsent'.symm.trans hnot)
      have hbbs : f'.passed = passed ++ bbs := hemits.1
      have hsame' : f'.passed = clean := by simpa [heos, hfalse] using hpassed
      exact ⟨hbbs.symm.trans hsame', by simpa [hfalse] using hbbs⟩
    · have htrue : f.seenEos = true := heos.symm.trans (hsent'.symm.trans hyes)
      have hbbs : f'.passed = passed ++ (bbs ++ [[.eos]]) := hemits.1
      have hsame' : f'.passed = clean ++ [[.eos]] := by simpa [heos, htrue] using hpassed
      refine ⟨?_, by simpa [htrue] using hbbs⟩
      rw [hbbs, ← List.append_assoc] at hsame'
      exact List.append_cancel_right hsame'
  refine ⟨hsends.2, fun bb' hbb' => hclean' bb' ?_, hbytes⟩
  rw [← hsends.1]
  exact List.mem_append_right _ hbb'

end Filter

/-! ## One filter -/

/-- What an invocation of a filter comes to, up to the end of the response. -/
structure Translates (stage : Stage) (bb : Brigade) (passed : List Brigade) (i : Invoked) :
    Prop where
  result : i.status = aprSuccess
  sentEos : i.seat.sentEos = true → Bucket.eos ∈ bb
  passed : ∃ clean last, i.seat.passed = passed ++ (clean ++ last) ∧ Clean clean ∧
    (∀ bb' ∈ last, bb'.Tidy) ∧ last.length ≤ 1 ∧ (Bucket.eos ∈ last.flatten ↔ Bucket.eos ∈ bb) ∧
    Brigade.bytes (clean ++ last).flatten = stage.translate bb.bytes

theorem outputFilterHandler_translates (hnext : httpd.TakesOrderly) {stage : Stage}
    (hreading : stage.Reading) (hclean : Clean passed) (hbb : bb.Tidy) :
    ∃ i, outputFilterHandler httpd (stage.handler httpd) ⟨false, passed⟩ bb = some i ∧
      Translates stage bb passed i := by
  have hnew : Filter.Open (.new .output bb false passed) (.new .output bb false passed) [] := .new
  cases stage with
  | translating tr wanted =>
      have hat : (Filter.new .output bb false passed).At [] bb := ⟨rfl, rfl, List.drop_zero⟩
      have hdrains : DrainsFrom wanted 0 0 bb := by
        rw [DrainsFrom, leftReads_of_lt (hreading 0).1]
        exact hbb.drains hreading (hreading 0).1
      obtain ⟨f, hrun, hopen, hmode, hcleanf, hseen⟩ := Filter.translateLoop_ends tr
        (bb.bytes.length + 2) hnext (fun k => (hreading k).1) hnew rfl hclean hat rfl
        hbb.streamable hdrains (by simp)
      obtain ⟨f', bbs, hf', hsent, -, hpassed, hbbs, hbytes⟩ := hopen.runFilter_keeps
        (Stage.handler httpd (.translating tr wanted)) hnext hmode hcleanf hrun
      refine ⟨⟨.ok aprSuccess, ⟨f'.sentEos, f'.passed⟩, f'.bbIn.getD [], true⟩, ?_, rfl, ?_, bbs,
        if f.seenEos then [[.eos]] else [], hpassed, hbbs, ?_, ?_, ?_, ?_⟩
      · simp only [outputFilterHandler, Bool.false_eq_true, if_false, hf', Option.map_some, if_true]
      · intro h
        exact hseen.mp (hsent.symm.trans h)
      · intro bb' hbb'
        split_ifs at hbb'
        · rw [List.mem_singleton.mp hbb']
          rfl
        · cases hbb'
      · split_ifs <;> simp
      · rw [← hseen]
        split_ifs with h <;> simp [h]
      · rw [List.flatten_append, Brigade.bytes_append, hbytes, List.nil_append, List.nil_append,
          Stage.translate]
        split_ifs <;> simp [Bucket.bytes]
  | declining =>
      -- nothing was printed, and the brigade is handed on as it is
      have hdeclines : Stage.handler httpd .declining (.new .output bb false passed) =
          some (declined, .new .output bb false passed) := rfl
      obtain ⟨f', bbs, hf', hsent, hbbIn, hpassed, hbbs, hbytes⟩ :=
        hnew.runFilter_keeps _ hnext rfl hclean hdeclines
      have hbb' : f'.bbIn.getD [] = bb := by rw [hbbIn rfl]; rfl
      have hpassed' : f'.passed = passed ++ bbs := by simpa [Filter.new] using hpassed
      refine ⟨⟨.ok (httpd.passBrigade (f'.passed ++ [bb])),
          ⟨f'.sentEos, f'.passed ++ [bb]⟩, bb, true⟩, ?_, ?_, ?_, bbs, [bb], ?_, hbbs, ?_,
        by simp, by simp, ?_⟩
      · simp only [outputFilterHandler, Bool.false_eq_true, if_false, hf', Option.map_some, hbb']
        rfl
      · refine hnext _ (Clean.concat_orderly ?_ hbb)
        rw [hpassed']
        exact hclean.append hbbs
      · intro h
        rw [hsent] at h
        cases h
      · rw [hpassed', List.append_assoc]
      · intro bb' hbb'
        rw [List.mem_singleton.mp hbb']
        exact hbb
      · rw [List.flatten_append, Brigade.bytes_append, hbytes, List.flatten_singleton,
          List.nil_append, Stage.translate]

theorem Clean.eos_notMem (h : Clean bbs) : Bucket.eos ∉ bbs.flatten := by
  intro hmem
  obtain ⟨bb', hbb', heos⟩ := List.mem_flatten.mp hmem
  exact (h bb' hbb').2 heos

/-- One brigade more. -/
theorem deliver_concat (hnext : httpd.TakesOrderly) {stage : Stage} (hreading : stage.Reading)
    {seat : FilterSeat}
    (hdeliver : deliver httpd (stage.handler httpd) bbs = some (aprSuccess, seat))
    (hsent : seat.sentEos = false) (hclean : Clean seat.passed) (hbb : bb.Tidy) :
    ∃ i, deliver httpd (stage.handler httpd) (bbs ++ [bb]) = some (aprSuccess, i.seat) ∧
      Translates stage bb seat.passed i := by
  obtain ⟨i, hi, hres⟩ := outputFilterHandler_translates hnext hreading hclean hbb
  have hseat : (⟨false, seat.passed⟩ : FilterSeat) = seat := by rw [← hsent]
  refine ⟨i, ?_, hres⟩
  rw [deliver, List.foldlM_append, ← deliver, hdeliver]
  simp only [List.foldlM_cons, List.foldlM_nil, Option.bind_eq_bind, Option.bind_some]
  rw [← hseat, hi, Option.map_some, Option.bind_some, hres.result]
  rfl

theorem Stage.translate_append (stage : Stage) (a b : Bytes) :
    stage.translate (a ++ b) = stage.translate a ++ stage.translate b := by
  cases stage with
  | translating tr wanted => exact List.flatMap_append
  | declining => rfl

/-- The bytes that were handed on, after one brigade more. -/
theorem Translates.bytes {stage : Stage} {i : Invoked} (h : Translates stage bb passed i)
    (hpassed : Brigade.bytes passed.flatten = stage.translate (Brigade.bytes bbs.flatten)) :
    Brigade.bytes i.seat.passed.flatten =
      stage.translate (Brigade.bytes (bbs ++ [bb]).flatten) := by
  obtain ⟨clean, last, hseat, -, -, -, -, hbytes⟩ := h.passed
  rw [hseat, List.flatten_append, Brigade.bytes_append, hpassed, hbytes, List.flatten_append,
    Brigade.bytes_append, stage.translate_append, List.flatten_singleton]

/-- Before the EOS the filter is ready for more. -/
theorem deliver_clean (hnext : httpd.TakesOrderly) {stage : Stage} (hreading : stage.Reading)
    (hbbs : Clean bbs) :
    ∃ seat, deliver httpd (stage.handler httpd) bbs = some (aprSuccess, seat) ∧
      seat.sentEos = false ∧ Clean seat.passed ∧
      Brigade.bytes seat.passed.flatten = stage.translate (Brigade.bytes bbs.flatten) := by
  induction bbs using List.reverseRecOn with
  | nil =>
      refine ⟨⟨false, []⟩, rfl, rfl, fun _ h => (List.not_mem_nil h).elim, ?_⟩
      cases stage <;> rfl
  | append_singleton bbs bb ih =>
      obtain ⟨seat, hdeliver, hsent, hpassed, hbytes⟩ :=
        ih fun bb' hmem => hbbs bb' (List.mem_append_left _ hmem)
      obtain ⟨htidy, heos⟩ := hbbs bb (List.mem_append_right _ List.mem_cons_self)
      obtain ⟨i, hi, hres⟩ := deliver_concat hnext hreading hdeliver hsent hpassed htidy
      obtain ⟨clean, last, hpassed', hclean', htidy', -, heos', -⟩ := hres.passed
      refine ⟨i.seat, hi, ?_, ?_, hres.bytes hbytes⟩
      · rw [← Bool.not_eq_true]
        exact fun h => heos (hres.sentEos h)
      · rw [hpassed']
        refine hpassed.append (hclean'.append fun bb' hmem => ⟨htidy' bb' hmem, fun h => ?_⟩)
        exact heos (heos'.mp (List.mem_flatten.mpr ⟨bb', hmem, h⟩))

/-- The brigades of a response, one after the other. -/
theorem deliver_translates (hnext : httpd.TakesOrderly) {stage : Stage}
    (hreading : stage.Reading) (hbbs : Orderly bbs) :
    ∃ seat, deliver httpd (stage.handler httpd) bbs = some (aprSuccess, seat) ∧
      Orderly seat.passed ∧ (Bucket.eos ∈ seat.passed.flatten ↔ Bucket.eos ∈ bbs.flatten) ∧
      Brigade.bytes seat.passed.flatten = stage.translate (Brigade.bytes bbs.flatten) := by
  induction bbs using List.reverseRecOn with
  | nil =>
      have hnone : Clean [] := fun _ h => (List.not_mem_nil h).elim
      obtain ⟨seat, hdeliver, -, hpassed, hbytes⟩ := deliver_clean hnext hreading hnone
      exact ⟨seat, hdeliver, hpassed.orderly,
        iff_of_false hpassed.eos_notMem List.not_mem_nil, hbytes⟩
  | append_singleton bbs bb _ =>
      have hbefore : Clean bbs := by
        intro bb' hmem
        refine ⟨hbbs.1 bb' (List.mem_append_left _ hmem), fun heos => hbbs.2 ?_⟩
        rw [List.dropLast_concat]
        exact List.mem_flatten.mpr ⟨bb', hmem, heos⟩
      obtain ⟨seat, hdeliver, hsent, hpassed, hbytes⟩ := deliver_clean hnext hreading hbefore
      obtain ⟨i, hi, hres⟩ := deliver_concat hnext hreading hdeliver hsent hpassed
        (hbbs.1 bb (List.mem_append_right _ List.mem_cons_self))
      obtain ⟨clean, last, hpassed', hclean', htidy', hone, heos', -⟩ := hres.passed
      refine ⟨i.seat, hi, ?_, ?_, hres.bytes hbytes⟩
      · rw [hpassed']
        -- only the last brigade may have an EOS
        rcases last with _ | ⟨bb', _ | ⟨bb'', last⟩⟩
        · rw [List.append_nil]
          exact (hpassed.append hclean').orderly
        · rw [← List.append_assoc]
          exact (hpassed.append hclean').concat_orderly (htidy' bb' List.mem_cons_self)
        · simp at hone
      · rw [hpassed', List.flatten_append, List.flatten_append, List.flatten_append,
          List.flatten_singleton, List.mem_append, List.mem_append, List.mem_append, heos',
          or_iff_right hpassed.eos_notMem, or_iff_right hclean'.eos_notMem,
          or_iff_right hbefore.eos_notMem]

/-! ## The chain -/

/-- A chain takes what is orderly, if the server does. -/
theorem chain_takesOrderly (hnext : httpd.TakesOrderly) {stages : List Stage}
    (hreading : ∀ stage ∈ stages, stage.Reading) : (chain httpd stages).TakesOrderly := by
  induction stages with
  | nil => exact hnext
  | cons stage stages ih =>
      intro bbs hbbs
      have hrest := ih fun stage hmem => hreading stage (List.mem_cons_of_mem _ hmem)
      obtain ⟨seat, hdeliver, -⟩ :=
        deliver_translates hrest (hreading stage List.mem_cons_self) hbbs
      simp only [chain, hdeliver, Option.map_some, Option.getD_some]

/-- A chain of filters that translate and decline takes all that a response hands on, and
what comes out behind it is the translation, one filter after the other, of all bytes of
the response, and the EOS behind them if there was one: whatever the brigades, the buckets
and the FLUSHes were, and the sizes of the reads. -/
theorem filter_chain_translates (hnext : httpd.TakesOrderly) {stages : List Stage}
    (hreading : ∀ stage ∈ stages, stage.Reading) (hbbs : Orderly bbs) :
    (chain httpd stages).passBrigade bbs = aprSuccess ∧
      ∃ out, network httpd stages bbs = some out ∧ Orderly out ∧
        (Bucket.eos ∈ out.flatten ↔ Bucket.eos ∈ bbs.flatten) ∧
        Brigade.bytes out.flatten =
          stages.foldl (fun bytes stage => stage.translate bytes) (Brigade.bytes bbs.flatten) := by
  refine ⟨chain_takesOrderly hnext hreading bbs hbbs, ?_⟩
  induction stages generalizing bbs with
  | nil => exact ⟨bbs, rfl, hbbs, Iff.rfl, rfl⟩
  | cons stage stages ih =>
      have hreading' := fun stage hmem => hreading stage (List.mem_cons_of_mem _ hmem)
      obtain ⟨seat, hdeliver, horderly, heos, hbytes⟩ := deliver_translates
        (chain_takesOrderly hnext hreading') (hreading stage List.mem_cons_self) hbbs
      obtain ⟨out, hout, horderly', heos', hbytes'⟩ := ih hreading' horderly
      refine ⟨out, ?_, horderly', heos'.trans heos, ?_⟩
      · simp only [network, hdeliver, Option.bind_some]
        exact hout
      · rw [hbytes', hbytes, List.foldl_cons]

/-- Two filters and one that declines: the first doubles each byte and reads three at a
time, the second takes the ones away. -/
theorem filter_chain_translates_three :
    ∃ out, network .accepting [.translating (fun b => [b, b]) fun _ => 3, .declining,
        .translating (fun b => if b = 1 then [] else [b]) fun _ => 2]
        [[.data [1, 2], .flush], [.data [1, 3], .data [4]], [.eos]] = some out ∧
      Bucket.eos ∈ out.flatten ∧ Brigade.bytes out.flatten = [2, 2, 3, 3, 4, 4] := by
  have hreading : ∀ stage ∈ [Stage.translating (fun b => [b, b]) fun _ => 3, .declining,
      .translating (fun b => if b = 1 then [] else [b]) fun _ => 2], stage.Reading := by
    simp [Stage.Reading]
  have hnext : Httpd.TakesOrderly .accepting := fun _ _ => rfl
  have horderly : Orderly [[.data [1, 2], .flush], [.data [1, 3], .data [4]], [.eos]] :=
    ⟨by simp [Brigade.Tidy], by decide⟩
  obtain ⟨-, out, hout, -, heos, hbytes⟩ := filter_chain_translates hnext hreading horderly
  exact ⟨out, hout, heos.mpr (by decide), hbytes⟩

end ModPerl
