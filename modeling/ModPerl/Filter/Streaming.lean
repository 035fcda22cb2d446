import ModPerl.Filter.Reader

/-!
# The streaming loop

The filter handler of the documentation reads until a read returns nothing, and
prints what it has read:

  `while ($f->read(my $buf, $wanted)) { $f->print($buf) }`

A read that meets a FLUSH before it has taken a byte returns nothing, and the
loop ends there.  So the invocation passes the whole brigade on if and only if
no read does so while data or the EOS are still to come.  This depends on the
lengths of the buckets and on the wanted sizes alone (`Drains`).
-/

namespace ModPerl

/-- Data and FLUSH buckets in any order, and then one EOS or none. -/
def Brigade.Streamable : Brigade → Prop
  | [] => True
  | .data _ :: rest => Brigade.Streamable rest
  | .flush :: rest => Brigade.Streamable rest
  | .eos :: rest => rest = []
  | .broken _ :: _ => False

/-- The loop of the handler from read number `k` on, for so many rounds; a handler
that dies returns `HTTP_INTERNAL_SERVER_ERROR`. -/
def streamLoop (httpd : Httpd) (wanted : ℕ → ℕ) : ℕ → ℕ → Filter.Handler
  | 0, _, _ => none
  | rounds + 1, k, f =>
      (f.outputFilterRead httpd (wanted k)).bind fun
        | (.error _, f) => some (httpInternalServerError, f)
        | (.ok (len, buffer), f) =>
            if len = 0 then some (ok, f)
            else
              (f.outputFilterWrite httpd buffer).bind fun (rv, _, f) =>
                if rv ≠ aprSuccess then some (httpInternalServerError, f)
                else streamLoop httpd wanted rounds (k + 1) f

/-- Read number `k` and those after it take what they want from a begun bucket
of `left` bytes; the last of them takes the rest of it: its number, and how many
bytes it then has. -/
def leftReads (wanted : ℕ → ℕ) (k left : ℕ) : ℕ × ℕ :=
  if 0 < wanted k ∧ wanted k ≤ left then leftReads wanted (k + 1) (left - wanted k) else (k, left)
termination_by left

/-- Read number `k` has `got` bytes and goes on with these buckets: this read and
those after it take all data and the EOS of the brigade.  The two ways to fail
are a FLUSH met with no byte taken, and a number of bytes to take from a bucket
that does not survive as an `int`. -/
def Drains (wanted : ℕ → ℕ) : ℕ → ℕ → Brigade → Prop
  | _, _, [] => True
  | _, _, .eos :: _ => True
  | _, _, .broken _ :: _ => False
  | k, got, .flush :: rest =>
      if got = 0 then Brigade.bytes rest = [] ∧ Bucket.eos ∉ rest else Drains wanted (k + 1) 0 rest
  | k, got, .data buf :: rest =>
      if buf.length ≠ 0 ∧ got + buf.length ≥ wanted k then
        let nibble := toInt (wanted k - got)
        let next := leftReads wanted (k + 1) (buf.length - nibble.toNat)
        0 ≤ nibble ∧ 0 < got + nibble.toNat ∧ Drains wanted next.1 next.2 rest
      else Drains wanted k (got + buf.length) rest

/-- Read number `k` is next, with some bytes left of a begun bucket. -/
def DrainsFrom (wanted : ℕ → ℕ) (k left : ℕ) (rest : Brigade) : Prop :=
  Drains wanted (leftReads wanted k left).1 (leftReads wanted k left).2 rest

variable {wanted : ℕ → ℕ} {k : ℕ} {left buffer : Bytes} {rest : Brigade}

theorem leftReads_of_le {n : ℕ} (hwanted : 0 < wanted k) (hle : wanted k ≤ n) :
    leftReads wanted k n = leftReads wanted (k + 1) (n - wanted k) := by
  rw [leftReads, if_pos ⟨hwanted, hle⟩]

theorem leftReads_of_lt {n : ℕ} (hlt : n < wanted k) : leftReads wanted k n = (k, n) := by
  rw [leftReads, if_neg fun h => absurd h.2 (Nat.not_le.mpr hlt)]

/-- What a read does with the bytes and the buckets in front of it, when `drains`
is the condition on them. -/
structure Advances (wanted : ℕ → ℕ) (k : ℕ) (drains : Prop) (left : Bytes) (rest : Brigade)
    (read : Read) : Prop where
  bytes : read.buffer ++ (read.left ++ read.rest.bytes) = left ++ rest.bytes
  streamable : read.rest.Streamable
  eos : .eos ∈ rest ↔ read.met = some .eos ∨ .eos ∈ read.rest
  ended : read.met = some .eos → read.left = [] ∧ read.rest = []
  nothing : read.buffer = [] →
    (drains ↔ read.left = [] ∧ read.rest.bytes = [] ∧ .eos ∉ read.rest)
  something : read.buffer ≠ [] → (drains ↔ DrainsFrom wanted (k + 1) read.left.length read.rest)

/-- A read advances, or faults where the condition fails. -/
def ReadsOn (wanted : ℕ → ℕ) (k : ℕ) (drains : Prop) (left : Bytes) (rest : Brigade) :
    Option (Except Status Read) → Prop
  | none => ¬drains
  | some (.error _) => False
  | some (.ok read) => Advances wanted k drains left rest read

theorem ReadsOn.cons_data {drains : Prop} {buf : Bytes} {read : Option (Except Status Read)}
    (h : ReadsOn wanted k drains (buffer ++ buf) rest read) :
    ReadsOn wanted k drains buffer (.data buf :: rest) read := by
  rcases read with _ | _ | read
  · exact h
  · exact h
  · refine ⟨?_, h.streamable, ?_, h.ended, h.nothing, h.something⟩
    · rw [h.bytes, Brigade.bytes_cons, Bucket.bytes, List.append_assoc]
    · rw [← h.eos]
      simp

/-- The last bucket of a read. -/
theorem readNibble_readsOn {buf : Bytes} {nibble : Int} (hrest : rest.Streamable)
    (hbuf : buf.length ≠ 0) :
    ReadsOn wanted k
      (0 ≤ nibble ∧ 0 < buffer.length + nibble.toNat ∧
        DrainsFrom wanted (k + 1) (buf.length - nibble.toNat) rest)
      buffer (.data buf :: rest) (readNibble nibble buffer buf rest) := by
  unfold readNibble
  split_ifs with hneg
  · exact fun h => absurd h.1 (Int.not_le.mpr hneg)
  · refine ⟨?_, hrest, by simp, by simp, fun hnil => ?_, fun hne => ?_⟩
    · rw [Brigade.bytes_cons, Bucket.bytes, List.append_assoc, ← List.append_assoc (buf.take _),
        List.take_append_drop]
    · -- it has taken nothing, and the bucket is left
      obtain ⟨hbuffer, htake⟩ := List.append_eq_nil_iff.mp hnil
      have hzero : nibble.toNat = 0 := by
        rcases List.take_eq_nil_iff.mp htake with h | h
        · exact h
        · exact absurd (List.length_eq_zero_iff.mpr h) hbuf
      constructor
      · rintro ⟨-, hpos, -⟩
        rw [hbuffer, hzero] at hpos
        exact absurd hpos (Nat.lt_irrefl 0)
      · rintro ⟨hleft, -⟩
        rw [hzero, List.drop_zero] at hleft
        exact absurd (List.length_eq_zero_iff.mpr hleft) hbuf
    · -- something was taken, and what is left of the bucket is drained from there
      have hpos : 0 < buffer.length + nibble.toNat := by
        by_contra hcon
        apply hne
        have hbuffer : buffer = [] := List.length_eq_zero_iff.mp (by omega)
        have hzero : nibble.toNat = 0 := by omega
        rw [hbuffer, hzero]
        rfl
      rw [List.length_drop]
      exact ⟨fun h => h.2.2, fun h => ⟨Int.not_lt.mp hneg, hpos, h⟩⟩

theorem gather_readsOn (hwanted : ∀ k, 0 < wanted k) (hrest : rest.Streamable)
    (hlt : buffer.length < wanted k) :
    ReadsOn wanted k (Drains wanted k buffer.length rest) buffer rest
      (gather (wanted k) buffer rest) := by
  induction rest generalizing buffer with
  | nil =>
      refine ⟨by simp, trivial, by simp, by simp, fun _ => by simp [Drains], fun _ => ?_⟩
      simp [DrainsFrom, Drains]
  | cons b rest ih =>
      cases b with
      | broken rc => exact hrest.elim
      | eos =>
          obtain rfl : rest = [] := hrest
          refine ⟨by simp [Bucket.bytes], trivial, by simp, by simp, fun _ => by simp [Drains],
            fun _ => ?_⟩
          simp [DrainsFrom, Drains]
      | flush =>
          refine ⟨by simp [Bucket.bytes], hrest, by simp, by simp, fun hnil => ?_, fun hne => ?_⟩
          · simp only at hnil
            simp [Drains, hnil]
          · have hlength : buffer.length ≠ 0 := by simpa using hne
            simp only [Drains, DrainsFrom, hlength, if_false, List.length_nil,
              leftReads_of_lt (hwanted (k + 1))]
      | data buf =>
          simp only [gather, Drains]
          -- the bucket fills the buffer, or the loop goes on behind it
          by_cases hfull : buf.length ≠ 0 ∧ buffer.length + buf.length ≥ wanted k
          · rw [if_pos hfull, if_pos hfull]
            exact readNibble_readsOn hrest hfull.1
          · rw [if_neg hfull, if_neg hfull]
            have hlt' : (buffer ++ buf).length < wanted k := by
              rw [List.length_append]
              omega
            rw [← List.length_append]
            exact (ih hrest hlt').cons_data

/-- One read, from the rest of a bucket on. -/
theorem readFrom_readsOn (k : ℕ) (left : Bytes) (hwanted : ∀ k, 0 < wanted k)
    (hrest : rest.Streamable) :
    ReadsOn wanted k (DrainsFrom wanted k left.length rest) left rest
      (readFrom (wanted k) left rest) := by
  unfold readFrom
  split_ifs with hfull
  · refine ⟨?_, hrest, by simp, by simp, fun hnil => ?_, fun _ => ?_⟩
    · rw [← List.append_assoc, List.take_append_drop]
    · have hk := hwanted k
      rcases List.take_eq_nil_iff.mp hnil with h | h
      · omega
      · exact absurd (List.length_eq_zero_iff.mpr h) hfull.1
    · rw [DrainsFrom, leftReads_of_le (hwanted k) hfull.2, List.length_drop]
      rfl
  · have hlt : left.length < wanted k := by
      have := hwanted k
      omega
    rw [DrainsFrom, leftReads_of_lt hlt]
    exact gather_readsOn hwanted hrest hlt

namespace Filter

variable {httpd : Httpd} {start f f' : Filter} {printed : Bytes}

/-- What a read by the handler of an output filter comes to. -/
def ReadReturns (start f : Filter) (printed : Bytes) :
    Option (Except Status Read) → FilterResult (Nat × Bytes) → Prop
  | none, res => res = none
  | some (.error rc), res => ∃ f', res = some (.error rc, f')
  | some (.ok read), res => ∃ f', res = some (.ok (read.buffer.length, read.buffer), f') ∧
      Open start f' printed ∧ f'.mode = .output ∧
      f'.seenEos = (f.seenEos || read.met == some .eos) ∧
      (read.buffer ≠ [] → f'.At read.left read.rest)

/-- A read that returns nothing flushes if it met a FLUSH. -/
theorem outputFilterRead_of_returns {read : Option (Except Status Read)} {n : ℕ}
    (hnext : httpd.TakesAll) (hopen : Open start f printed) (hmode : f.mode = .output)
    (h : Returns f read (f.filterRead n)) :
    ReadReturns start f printed read (f.outputFilterRead httpd n) := by
  rcases read with _ | rc | read
  · have hread : f.filterRead n = none := h
    simp only [ReadReturns, outputFilterRead, hread, Option.bind_none]
  · obtain ⟨f', hread⟩ := h
    exact ⟨f', by simp only [outputFilterRead, hread, Option.bind_some]⟩
  · obtain ⟨f₁, hread, hmoved, hat⟩ := h
    have hopen₁ := hopen.same hmoved.sameOutput
    have hmode₁ := hmoved.sameOutput.mode.trans hmode
    simp only [ReadReturns, outputFilterRead, hread, Option.bind_some]
    by_cases hflush : f₁.flush = true ∧ read.buffer.length = 0
    · obtain ⟨rc, f₂, out, hflushed, -, -, htakes, hcases⟩ :=
        outputFilterFlush_cases httpd hopen₁.sentEos hopen₁.plain
      rw [if_pos hflush, hflushed]
      simp only [Option.map_some, htakes hnext, ne_eq, not_true_eq_false, if_false]
      have hopen₂ := hopen₁.outputFilterFlush hmode₁ hflushed
      refine ⟨f₂, rfl, hopen₂, ?_, ?_, fun hne => ?_⟩
      · rcases hcases with ⟨-, rfl⟩ | ⟨-, rfl⟩ <;> exact hmode₁
      · rcases hcases with ⟨-, rfl⟩ | ⟨-, rfl⟩ <;> exact hmoved.seenEos
      · exact absurd (List.length_eq_zero_iff.mp hflush.2) hne
    · rw [if_neg hflush]
      exact ⟨f₁, rfl, hopen₁, hmode₁, hmoved.seenEos, fun _ => hat⟩

/-- What was printed is determined by where the filter is. -/
theorem Open.printed_eq {printed' : Bytes} (h : Open start f printed)
    (h' : Open start f printed') (hmode : f.mode = .output) : printed = printed' := by
  obtain ⟨bbs, hemits, -, hbytes⟩ := h.emits
  obtain ⟨bbs', hemits', -, hbytes'⟩ := h'.emits
  have hstart : start.mode = .output := h.mode.symm.trans hmode
  simp only [Emits, hstart] at hemits hemits'
  have hbbs : bbs = bbs' := List.append_cancel_left (hemits.1.symm.trans hemits'.1)
  rw [← hbytes, ← hbytes', hbbs]

/-- The loop ends, having printed all that was left of the brigade, and it has
met the EOS if there is one. -/
def Streams (httpd : Httpd) (wanted : ℕ → ℕ) (k : ℕ) (start f : Filter) (printed : Bytes)
    (eos : Prop) : Prop :=
  ∃ rounds f', streamLoop httpd wanted rounds k f = some (ok, f') ∧ Open start f' printed ∧
    f'.mode = .output ∧ (f'.seenEos = true ↔ eos)

/-- The loop ends with the read that returns nothing. -/
theorem streams_of_nothing {eos : Prop} {printed' : Bytes}
    (hread : f.outputFilterRead httpd (wanted k) = some (.ok (0, []), f'))
    (hopen : Open start f' printed) (hmode : f'.mode = .output) :
    Streams httpd wanted k start f printed' eos ↔
      printed' = printed ∧ (f'.seenEos = true ↔ eos) := by
  have hloop : ∀ rounds, streamLoop httpd wanted (rounds + 1) k f = some (ok, f') := by
    intro rounds
    simp only [streamLoop, hread, Option.bind_some, if_true]
  constructor
  · rintro ⟨rounds, f'', hrun, hopen', hmode', heos⟩
    cases rounds with
    | zero => cases hrun
    | succ rounds =>
        rw [hloop, Option.some_inj, Prod.mk.injEq] at hrun
        obtain ⟨-, rfl⟩ := hrun
        exact ⟨hopen'.printed_eq hopen hmode, heos⟩
  · rintro ⟨rfl, heos⟩
    exact ⟨1, f', hloop 0, hopen, hmode, heos⟩

/-- The loop goes on after a read that returns bytes, once they are printed. -/
theorem streams_of_something {eos : Prop} {printed' buffer : Bytes} {f'' : Filter} {wlen : ℕ}
    (hread : f.outputFilterRead httpd (wanted k) = some (.ok (buffer.length, buffer), f'))
    (hbuffer : buffer ≠ [])
    (hwrite : f'.outputFilterWrite httpd buffer = some (aprSuccess, wlen, f'')) :
    Streams httpd wanted k start f printed' eos ↔
      Streams httpd wanted (k + 1) start f'' printed' eos := by
  have hlength : buffer.length ≠ 0 := by simpa using hbuffer
  have hloop : ∀ rounds, streamLoop httpd wanted (rounds + 1) k f =
      streamLoop httpd wanted rounds (k + 1) f'' := fun rounds => by
    simp only [streamLoop, hread, Option.bind_some, hlength, if_false, hwrite, ne_eq,
      not_true_eq_false]
  constructor
  · rintro ⟨rounds, f₁, hrun, hrest⟩
    cases rounds with
    | zero => cases hrun
    | succ rounds => exact ⟨rounds, f₁, hloop rounds ▸ hrun, hrest⟩
  · rintro ⟨rounds, f₁, hrun, hrest⟩
    exact ⟨rounds + 1, f₁, hloop rounds ▸ hrun, hrest⟩

/-- From anywhere in a brigade, the loop prints all that is left of it if and
only if the lengths allow it. -/
theorem streams_iff (k : ℕ) (hnext : httpd.TakesAll) (hwanted : ∀ k, 0 < wanted k)
    (hopen : Open start f printed) (hmode : f.mode = .output) (hat : f.At left rest)
    (heos : f.seenEos = false) (hrest : rest.Streamable) :
    Streams httpd wanted k start f (printed ++ (left ++ rest.bytes)) (.eos ∈ rest) ↔
      DrainsFrom wanted k left.length rest := by
  -- a read that returns something leaves fewer bytes
  induction hn : left.length + rest.bytes.length using Nat.strongRecOn
    generalizing k f left rest printed with
  | ind n ih =>
      have hread := outputFilterRead_of_returns hnext hopen hmode
        (filterRead_returns (wanted k) hat heos)
      have hon := readFrom_readsOn k left hwanted hrest
      rcases hfrom : readFrom (wanted k) left rest with _ | rc | read
      · rw [hfrom] at hread hon
        refine iff_of_false ?_ hon
        rintro ⟨rounds, f', hrun, -⟩
        cases rounds with
        | zero => cases hrun
        | succ rounds =>
            have hfault : f.outputFilterRead httpd (wanted k) = none := hread
            simp [streamLoop, hfault] at hrun
      · rw [hfrom] at hon
        exact hon.elim
      · rw [hfrom] at hread hon
        obtain ⟨f₁, hf₁, hopen₁, hmode₁, hseen₁, hat₁⟩ := hread
        rw [heos, Bool.false_or] at hseen₁
        have hmet : f₁.seenEos = true ↔ read.met = some .eos := by rw [hseen₁, beq_iff_eq]
        by_cases hbuffer : read.buffer = []
        · -- a read of nothing ends the loop, with the EOS or before it
          rw [hbuffer] at hf₁
          rw [streams_of_nothing hf₁ hopen₁ hmode₁, hon.nothing hbuffer, hmet, hon.eos]
          have hbytes := hon.bytes
          rw [hbuffer, List.nil_append] at hbytes
          rw [← hbytes, List.append_right_eq_self, List.append_eq_nil_iff, and_assoc]
          refine and_congr_right fun _ => and_congr_right fun _ => ⟨fun h hmem => ?_, fun hno => ?_⟩
          · rw [(hon.ended (h.mpr (.inr hmem))).2] at hmem
            cases hmem
          · exact ⟨.inl, fun h => h.resolve_right hno⟩
        · -- what was read is printed, and the loop goes on with what is left
          obtain ⟨out, hwrite, haccepts⟩ :=
            Output.wbucketWrite_success hnext hopen₁.plain read.buffer
          have hwrite' : f₁.outputFilterWrite httpd read.buffer =
              some (aprSuccess, read.buffer.length, f₁.setOutput out) := by
            rw [outputFilterWrite, hwrite]
            rfl
          have hopen₂ := hopen₁.setOutput hmode₁ haccepts
          have hat₂ : (f₁.setOutput out).At read.left read.rest :=
            ⟨(hat₁ hbuffer).leftover, (hat₁ hbuffer).remaining, (hat₁ hbuffer).unread⟩
          rw [streams_of_something hf₁ hbuffer hwrite', hon.something hbuffer, ← hon.bytes,
            ← List.append_assoc]
          by_cases heos₁ : read.met = some .eos
          · -- the read has met the EOS, and the next one returns nothing
            obtain ⟨hleft, hrest'⟩ := hon.ended heos₁
            rw [hleft, hrest'] at hat₂ ⊢
            have hseen₂ : (f₁.setOutput out).seenEos = true := hmet.mpr heos₁
            have hagain : Returns (f₁.setOutput out) (some (.ok ⟨[], [], [], none⟩))
                ((f₁.setOutput out).filterRead (wanted (k + 1))) :=
              ⟨_, filterRead_of_seenEos hseen₂, .refl, hat₂⟩
            obtain ⟨f₃, hf₃, hopen₃, hmode₃, hseen₃, -⟩ :=
              outputFilterRead_of_returns hnext hopen₂ hmode₁ hagain
            rw [streams_of_nothing hf₃ hopen₃ hmode₃, hseen₃, hseen₂]
            refine iff_of_true ⟨by simp, iff_of_true rfl (hon.eos.mpr (.inl heos₁))⟩ ?_
            simp [DrainsFrom, Drains]
          · have hseen₂ : (f₁.setOutput out).seenEos = false := by
              rw [← Bool.not_eq_true]
              exact fun h => heos₁ (hmet.mp h)
            have hlength := congrArg List.length hon.bytes
            simp only [List.length_append] at hlength
            have hpos : 0 < read.buffer.length := List.length_pos_iff.mpr hbuffer
            have heos₂ : Bucket.eos ∈ rest ↔ Bucket.eos ∈ read.rest := by
              rw [hon.eos, or_iff_right heos₁]
            rw [heos₂]
            exact ih _ (by omega) (k + 1) hopen₂ hmode₁ hat₂ hseen₂ hon.streamable rfl

/-- However the loop ends, what was printed was sent or is held. -/
theorem streamLoop_open {rounds : ℕ} {status : Status} (hopen : Open start f printed)
    (hmode : f.mode = .output) (h : streamLoop httpd wanted rounds k f = some (status, f')) :
    (∃ printed', Open start f' printed') ∧ (status = ok ∨ status = httpInternalServerError) := by
  induction rounds generalizing k f printed with
  | zero => cases h
  | succ rounds ih =>
      obtain ⟨⟨res, f₁⟩, hread, h⟩ := Option.bind_eq_some_iff.mp h
      have hopen₁ := hopen.outputFilterRead hmode hread
      have hmode₁ : f₁.mode = .output := hopen₁.mode.trans (hopen.mode.symm.trans hmode)
      rcases res with rc | ⟨len, buffer⟩
      · obtain ⟨rfl, rfl⟩ := Prod.mk.inj (Option.some.inj h)
        exact ⟨⟨_, hopen₁⟩, .inr rfl⟩
      · simp only at h
        split_ifs at h
        · obtain ⟨rfl, rfl⟩ := Prod.mk.inj (Option.some.inj h)
          exact ⟨⟨_, hopen₁⟩, .inl rfl⟩
        · obtain ⟨⟨rv, wlen, f₂⟩, hwrite, h⟩ := Option.bind_eq_some_iff.mp h
          have hcall : f₁.call httpd (aprSuccess, []) (.print buffer) =
              some (f₂, buffer.take wlen) := by
            simp only [Filter.call, hmode₁, hwrite, Option.map_some]
          have hopen₂ := hopen₁.call hcall
          simp only at h
          split_ifs at h
          · obtain ⟨rfl, rfl⟩ := Prod.mk.inj (Option.some.inj h)
            exact ⟨⟨_, hopen₂⟩, .inr rfl⟩
          · exact ih hopen₂ (hopen₂.mode.trans (hopen.mode.symm.trans hmode)) h

/-- The invocation after a handler that returns OK. -/
theorem Open.runFilter_output {handler : Handler} (hopen : Open start f printed)
    (hnext : httpd.TakesAll) (hmode : f.mode = .output) (hhandler : handler start = some (ok, f)) :
    ∃ f', start.runFilter httpd handler = some (.ok ok, f') ∧ Closed start f' printed ∧
      f'.sentEos = f.seenEos := by
  obtain ⟨eos, seenEos, hseen, heos⟩ := exists_eos f
  have hsame : Open start { f with seenEos } printed := hopen.same ⟨rfl, rfl, rfl, rfl, rfl, rfl⟩
  have hsent : { f with eos, seenEos }.sentEos = false := hopen.sentEos
  obtain ⟨rc, f', -, hflush, -⟩ := outputFilterFlush_cases httpd hsent hopen.plain
  obtain ⟨hclosed, htakes⟩ := hsame.finish_output hmode hflush
  obtain ⟨rfl, hsent'⟩ := htakes hnext
  refine ⟨f', ?_, hclosed, hsent'.trans (heos hopen.eos)⟩
  have hmode' : { f with eos, seenEos }.mode = .output := hmode
  rw [Filter.runFilter, hhandler, Option.bind_some]
  simp only [hseen]
  split
  · next hinput => exact absurd (hmode'.symm.trans hinput) (by decide)
  · rw [hflush]
    rfl

end Filter

/-- The invocation with the loop passes on all data of the brigade, and one EOS
behind it if and only if there is one. -/
def StreamsAll (httpd : Httpd) (wanted : ℕ → ℕ) (passed : List Brigade) (bb : Brigade) : Prop :=
  ∃ rounds i bbs data, outputFilterHandler httpd (streamLoop httpd wanted rounds 0) ⟨false, passed⟩
      bb = some i ∧ i.result = .ok aprSuccess ∧ i.seat.passed = passed ++ bbs ∧
    bbs.flatten = data ++ (if .eos ∈ bb then [.eos] else []) ∧ .eos ∉ data ∧
    Brigade.bytes data = bb.bytes

open ModPerl.Filter in
theorem streamsAll_iff {httpd : Httpd} {passed : List Brigade} {bb : Brigade}
    (hnext : httpd.TakesAll) :
    StreamsAll httpd wanted passed bb ↔
      Streams httpd wanted 0 (.new .output bb false passed) (.new .output bb false passed)
        bb.bytes (.eos ∈ bb) := by
  have hnew : Open (.new .output bb false passed) (.new .output bb false passed) [] := .new
  constructor
  · rintro ⟨rounds, i, bbs, data, hinvoke, hresult, hpassed, hflat, hno, hbytes⟩
    simp only [outputFilterHandler, Bool.false_eq_true, if_false] at hinvoke
    obtain ⟨⟨res, f'⟩, hrun, hi⟩ := Option.map_eq_some_iff.mp hinvoke
    obtain ⟨status, f, hhandler, hreturns⟩ := runFilter_handler hrun
    obtain ⟨⟨printed, hopen⟩, hstatus⟩ := streamLoop_open hnew rfl hhandler
    have hok : status = ok ∧ i.seat.passed = f'.passed := by
      rcases res with rc | st
      · rw [← hi] at hresult
        cases hresult
      · obtain rfl := hreturns st rfl
        rcases hstatus with rfl | rfl
        · exact ⟨rfl, hi ▸ rfl⟩
        · rw [← hi] at hresult
          cases hresult
    obtain ⟨rfl, hseat⟩ := hok
    have hmode : f.mode = .output := hopen.mode
    obtain ⟨f'', hf'', ⟨bbs', hno', hbytes', hsent⟩, hseen⟩ :=
      hopen.runFilter_output hnext hmode hhandler
    rw [hrun, Option.some_inj, Prod.mk.injEq] at hf''
    obtain ⟨-, rfl⟩ := hf''
    have hbbs : ∀ bbs'', Emits (.new .output bb false passed) f' bbs'' → bbs'' = bbs :=
      fun bbs'' hemits => List.append_cancel_left (hemits.1.symm.trans (hseat ▸ hpassed))
    -- where the EOS went decides what the data of the claim is
    have hsplit : data = bbs'.flatten ∧ (f.seenEos = true ↔ Bucket.eos ∈ bb) := by
      rw [← hseen]
      rcases hsent with ⟨hnot, hemits⟩ | ⟨hyes, hemits⟩
      · rw [← hbbs _ hemits] at hflat
        by_cases hmem : Bucket.eos ∈ bb
        · rw [if_pos hmem] at hflat
          exact absurd (hflat ▸ by simp) hno'
        · rw [if_neg hmem, List.append_nil] at hflat
          exact ⟨hflat.symm, by simp [hnot, hmem]⟩
      · rw [← hbbs _ hemits, List.flatten_append, List.flatten_singleton] at hflat
        by_cases hmem : Bucket.eos ∈ bb
        · rw [if_pos hmem] at hflat
          exact ⟨(List.append_cancel_right hflat).symm, by simp [hyes, hmem]⟩
        · rw [if_neg hmem, List.append_nil] at hflat
          exact absurd (hflat ▸ by simp) hno
    refine ⟨rounds, f, hhandler, ?_, hmode, hsplit.2⟩
    rw [← hbytes, hsplit.1, hbytes']
    exact hopen
  · rintro ⟨rounds, f, hrun, hopen, hmode, heos⟩
    obtain ⟨f', hf', ⟨bbs, hno, hbytes, hsent⟩, hseen⟩ := hopen.runFilter_output hnext hmode hrun
    have hinvoke : outputFilterHandler httpd (streamLoop httpd wanted rounds 0) ⟨false, passed⟩ bb =
        some ⟨.ok aprSuccess, ⟨f'.sentEos, f'.passed⟩, f'.bbIn.getD [], true⟩ := by
      simp only [outputFilterHandler, Bool.false_eq_true, if_false, hf', Option.map_some, if_true]
    rcases hsent with ⟨hnot, hemits⟩ | ⟨hyes, hemits⟩
    · have hmem : Bucket.eos ∉ bb := by
        rw [← heos, ← hseen, hnot]
        simp
      exact ⟨rounds, _, bbs, bbs.flatten, hinvoke, rfl, hemits.1, by simp [hmem], hno, hbytes⟩
    · have hmem : Bucket.eos ∈ bb := by rw [← heos, ← hseen, hyes]
      exact ⟨rounds, _, _, bbs.flatten, hinvoke, rfl, hemits.1, by simp [hmem], hno, hbytes⟩

/-- One invocation with the loop loses nothing of a brigade if and only if every
read that meets a FLUSH with data or the EOS behind it has taken a byte by then,
and no number of bytes to take from a bucket is lost in its conversion. -/
theorem streaming_loses_nothing {httpd : Httpd} {passed : List Brigade} {bb : Brigade}
    (hnext : httpd.TakesAll) (hwanted : ∀ k, 0 < wanted k) (hbb : bb.Streamable) :
    StreamsAll httpd wanted passed bb ↔ Drains wanted 0 0 bb := by
  have hat : (Filter.new .output bb false passed).At [] bb := ⟨rfl, rfl, List.drop_zero⟩
  have hiff := Filter.streams_iff 0 hnext hwanted Filter.Open.new rfl hat rfl hbb
  rw [List.nil_append, List.nil_append] at hiff
  rw [streamsAll_iff hnext, hiff, DrainsFrom, List.length_nil, leftReads_of_lt (hwanted 0)]

/-- A brigade with a FLUSH in it is passed on whole: the read that meets the FLUSH
has two bytes. -/
theorem streaming_loses_nothing_flush :
    StreamsAll .accepting (fun _ => 8192) [] [.data [1, 2], .flush, .data [3], .eos] := by
  refine (streaming_loses_nothing (fun _ => rfl) (by simp) (by simp [Brigade.Streamable])).mpr ?_
  simp [Drains]

/-- Reads of three bytes lose what is behind three bytes and a FLUSH: the second
read meets the FLUSH at once, and the byte and the EOS behind it are never read. -/
theorem streaming_loses_data :
    (outputFilterHandler .accepting (streamLoop .accepting (fun _ => 3) 2 0) ⟨false, []⟩
      [.data [1, 2, 3], .flush, .data [4], .eos]).map (fun i => i.seat.passed) =
        some [[.data [1, 2, 3], .flush]] ∧
      ¬StreamsAll .accepting (fun _ => 3) [] [.data [1, 2, 3], .flush, .data [4], .eos] := by
  refine ⟨by decide +kernel, fun hall => ?_⟩
  have hat : (Filter.new .output [.data [1, 2, 3], .flush, .data [4], .eos] false []).At []
      [.data [1, 2, 3], .flush, .data [4], .eos] := ⟨rfl, rfl, rfl⟩
  have hstreams := (streamsAll_iff fun _ => rfl).mp hall
  have hdrains := (Filter.streams_iff 0 (fun _ => rfl) (by simp) Filter.Open.new rfl hat rfl
    (by simp [Brigade.Streamable])).mp hstreams
  simp [DrainsFrom, Drains, leftReads_of_lt, toInt_of_lt] at hdrains

end ModPerl
