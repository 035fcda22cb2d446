import ModPerl.Filter.Wbucket
import ModPerl.Library.Machine

/-!
# The output buffer is a queue

With `header_parse` off, the bytes handed to the next filter followed by the
bytes held back are the bytes accepted so far: each write and each flush keeps
the two together in this order, by whichever of the three ways the bytes of a
write go.  The law does not ask how the next filter answers; a write whose
flush fails accepts nothing.
-/

namespace ModPerl

open Machine

namespace Output

/-- The data bytes that the next filter was handed. -/
def sent (out : Output) : Bytes := out.passed.flatMap Brigade.bytes

/-- No headers are looked for, and the count is within the buffer. -/
structure Plain (out : Output) : Prop where
  headerParse : out.wb.headerParse = false
  outcnt_le : out.wb.outcnt ≤ ioBufSize

/-- From the first to the second state the bytes were accepted behind those of
before, and no brigade that was handed on has an EOS bucket. -/
structure Accepts (out out' : Output) (buf : Bytes) : Prop where
  plain : out'.Plain
  r : out'.r = out.r
  bytes : out'.sent ++ out'.wb.held = out.sent ++ out.wb.held ++ buf
  passed : ∃ bbs, out'.passed = out.passed ++ bbs ∧ ∀ bb ∈ bbs, Bucket.eos ∉ bb

variable {httpd : Httpd} {out out' out'' : Output} {buf buf' : Bytes} {addFlushBucket : Bool}
  {rv : Status} {wlen : Nat}

theorem Accepts.refl (hplain : out.Plain) : out.Accepts out [] where
  plain := hplain
  r := rfl
  bytes := (List.append_nil _).symm
  passed := ⟨[], (List.append_nil _).symm, fun _ hbb => nomatch hbb⟩

theorem Accepts.trans (h : out.Accepts out' buf) (h' : out'.Accepts out'' buf') :
    out.Accepts out'' (buf ++ buf') := by
  obtain ⟨bbs, hbbs, heos⟩ := h.passed
  obtain ⟨bbs', hbbs', heos'⟩ := h'.passed
  refine ⟨h'.plain, h'.r.trans h.r, ?_, bbs ++ bbs', ?_, ?_⟩
  · rw [h'.bytes, h.bytes, List.append_assoc]
  · rw [hbbs', hbbs, List.append_assoc]
  · intro bb hbb
    rcases List.mem_append.mp hbb with hbb | hbb
    · exact heos bb hbb
    · exact heos' bb hbb

@[simp] theorem held_of_outcnt_zero {wb : Wbucket} (h : wb.outcnt = 0) : wb.held = [] := by
  rw [Wbucket.held, h, List.take_zero]

theorem bytes_brigade (buf : Bytes) (addFlushBucket : Bool) :
    Brigade.bytes (brigade buf addFlushBucket) = buf := by
  cases addFlushBucket <;> simp [brigade, Bucket.bytes]

theorem eos_notMem_brigade (buf : Bytes) (addFlushBucket : Bool) :
    Bucket.eos ∉ brigade buf addFlushBucket := by
  cases addFlushBucket <;> simp [brigade]

/-! ## The functions with `header_parse` off -/

theorem wbucketPass_eq (hplain : out.Plain) :
    out.wbucketPass httpd buf addFlushBucket =
      some ({ out with wb := { out.wb with outcnt := 0 } }.passBrigade httpd
        (brigade buf addFlushBucket)) := by
  simp [wbucketPass, hplain.headerParse]

/-- Bytes that are passed on directly are accepted, behind all that was held. -/
theorem wbucketPass_accepts (hplain : out.Plain) (buf : Bytes) (addFlushBucket : Bool) :
    ∃ rv out', out.wbucketPass httpd (out.wb.held ++ buf) addFlushBucket = some (rv, out') ∧
      out.Accepts out' buf ∧ out'.wb.outcnt = 0 := by
  refine ⟨_, _, wbucketPass_eq hplain, ⟨⟨hplain.headerParse, Nat.zero_le _⟩, rfl, ?_, [_], rfl, ?_⟩,
    rfl⟩
  · simp [sent, bytes_brigade]
  · intro bb hbb
    rw [List.mem_singleton.mp hbb]
    exact eos_notMem_brigade _ _

/-- A flush accepts nothing and leaves the buffer empty. -/
theorem wbucketFlush_accepts (httpd : Httpd) (hplain : out.Plain) (addFlushBucket : Bool) :
    ∃ rv out', out.wbucketFlush httpd addFlushBucket = some (rv, out') ∧
      out.Accepts out' [] ∧ out'.wb.outcnt = 0 := by
  unfold wbucketFlush
  split_ifs with hcnt hflush
  · simpa only [List.append_nil] using wbucketPass_accepts hplain [] addFlushBucket
  · refine ⟨_, _, rfl, ⟨⟨hplain.headerParse, hplain.outcnt_le⟩, rfl, ?_, [_], rfl, ?_⟩,
      not_not.mp hcnt⟩
    · simp [sent, Bucket.bytes]
    · intro bb hbb
      rw [List.mem_singleton.mp hbb]
      simp
  · exact ⟨_, _, rfl, .refl hplain, not_not.mp hcnt⟩

theorem memcpy_held {wb wb' : Wbucket} (hle : wb.outcnt ≤ ioBufSize)
    (h : wb.memcpy buf = some wb') :
    wb'.held = wb.held ++ buf ∧ wb'.outcnt ≤ ioBufSize ∧ wb'.headerParse = wb.headerParse := by
  unfold Wbucket.memcpy at h
  split_ifs at h with hfits
  obtain rfl := Option.some.inj h
  refine ⟨?_, hfits, rfl⟩
  have hlength : (wb.outbuf.take wb.outcnt ++ buf).length = wb.outcnt + buf.length := by
    rw [List.length_append, List.length_take, wb.outbuf_length, Nat.min_eq_left hle]
  exact List.take_left' hlength

/-- The bytes are stored whole if the buffer is empty or has room for them. -/
theorem wbucketStore_accepts (httpd : Httpd) (hplain : out.Plain) (buf : Bytes)
    (hroom : buf.length + out.wb.outcnt ≤ ioBufSize ∨ out.wb.outcnt = 0) :
    ∃ rv out', out.wbucketStore httpd buf = some (rv, buf.length, out') ∧
      out.Accepts out' buf := by
  unfold wbucketStore
  split_ifs with hlarge
  · have hempty : out.wb.held = [] := held_of_outcnt_zero (by omega)
    obtain ⟨rv, out', hpass, haccepts, -⟩ := wbucketPass_accepts hplain buf false
    rw [hempty, List.nil_append] at hpass
    exact ⟨rv, out', by rw [hpass]; rfl, haccepts⟩
  · have hfits : out.wb.outcnt + buf.length ≤ ioBufSize := by omega
    obtain ⟨wb, hwb⟩ : ∃ wb, out.wb.memcpy buf = some wb := ⟨_, dif_pos hfits⟩
    obtain ⟨hheld, hcnt, hparse⟩ := memcpy_held hplain.outcnt_le hwb
    refine ⟨aprSuccess, { out with wb }, by rw [hwb]; rfl,
      ⟨hparse.trans hplain.headerParse, hcnt⟩, rfl, ?_, [], ?_, ?_⟩
    · rw [hheld, ← List.append_assoc]
      rfl
    · exact (List.append_nil _).symm
    · exact fun _ hbb => nomatch hbb

/-- The flush that a write begins with is needed and fails. -/
def FlushFails (out : Output) (httpd : Httpd) (buf : Bytes) (rv : Status) (out' : Output) : Prop :=
  buf.length + out.wb.outcnt > ioBufSize ∧ rv ≠ aprSuccess ∧
    out.wbucketFlush httpd false = some (rv, out')

/-- A write accepts all its bytes, unless the flush before it fails: it then
accepts none. -/
theorem wbucketWrite_accepts (hplain : out.Plain) (buf : Bytes) :
    (∃ rv out', out.FlushFails httpd buf rv out' ∧
      out.wbucketWrite httpd buf = some (rv, 0, out') ∧ out.Accepts out' []) ∨
    ((∀ rv out', ¬out.FlushFails httpd buf rv out') ∧
      ∃ rv out', out.wbucketWrite httpd buf = some (rv, buf.length, out') ∧
        out.Accepts out' buf) := by
  unfold wbucketWrite
  split_ifs with hover
  · obtain ⟨rv, out', hflush, haccepts, hempty⟩ := wbucketFlush_accepts httpd hplain false
    by_cases hrv : rv = aprSuccess
    · obtain ⟨rv', out'', hstore, hstored⟩ :=
        wbucketStore_accepts httpd haccepts.plain buf (.inr hempty)
      refine .inr ⟨?_, rv', out'', ?_, haccepts.trans hstored⟩
      · rintro rv₁ out₁ ⟨-, hne, hflush₁⟩
        rw [hflush, Option.some_inj, Prod.mk.injEq] at hflush₁
        exact hne (hflush₁.1 ▸ hrv)
      · rw [hflush, Option.bind_some]
        simp only [hrv, ne_eq, not_true_eq_false, if_false, hstore]
    · refine .inl ⟨rv, out', ⟨hover, hrv, hflush⟩, ?_, haccepts⟩
      rw [hflush, Option.bind_some]
      simp only [ne_eq, hrv, not_false_eq_true, if_true]
  · refine .inr ⟨fun _ _ hfails => hover hfails.1, ?_⟩
    exact wbucketStore_accepts httpd hplain buf (.inl (by omega))

/-! ## A next filter that takes everything -/

theorem wbucketFlush_success (hnext : httpd.TakesAll) (hplain : out.Plain)
    (h : out.wbucketFlush httpd addFlushBucket = some (rv, out')) : rv = aprSuccess := by
  unfold wbucketFlush at h
  split_ifs at h
  · rw [wbucketPass_eq hplain, Option.some_inj] at h
    exact (Prod.mk.inj h).1 ▸ hnext _
  · exact (Prod.mk.inj (Option.some.inj h)).1 ▸ hnext _
  · exact (Prod.mk.inj (Option.some.inj h)).1.symm

theorem wbucketStore_success (hnext : httpd.TakesAll) (hplain : out.Plain)
    (h : out.wbucketStore httpd buf = some (rv, wlen, out')) : rv = aprSuccess := by
  unfold wbucketStore at h
  split_ifs at h
  · rw [wbucketPass_eq hplain, Option.map_some, Option.some_inj] at h
    exact (Prod.mk.inj h).1 ▸ hnext _
  · obtain ⟨wb, -, hres⟩ := Option.map_eq_some_iff.mp h
    exact (Prod.mk.inj hres).1.symm

theorem wbucketWrite_success (hnext : httpd.TakesAll) (hplain : out.Plain) (buf : Bytes) :
    ∃ out', out.wbucketWrite httpd buf = some (aprSuccess, buf.length, out') ∧
      out.Accepts out' buf := by
  rcases wbucketWrite_accepts hplain buf with
    ⟨rv, out', ⟨-, hne, hflush⟩, -⟩ | ⟨-, rv, out', hwrite, haccepts⟩
  · exact absurd (wbucketFlush_success hnext hplain hflush) hne
  · refine ⟨out', ?_, haccepts⟩
    have hrv : rv = aprSuccess := by
      unfold wbucketWrite at hwrite
      split_ifs at hwrite
      · obtain ⟨⟨rv₁, out₁⟩, hflush, hrest⟩ := Option.bind_eq_some_iff.mp hwrite
        obtain ⟨rv₂, out₂, hflush', hflushed, -⟩ := wbucketFlush_accepts httpd hplain false
        rw [hflush, Option.some_inj, Prod.mk.injEq] at hflush'
        have hrv₁ := wbucketFlush_success hnext hplain hflush
        simp only [hrv₁, ne_eq, not_true_eq_false, if_false] at hrest
        rw [hflush'.2] at hrest
        exact wbucketStore_success hnext hflushed.plain hrest
      · exact wbucketStore_success hnext hplain hwrite
    rw [hwrite, hrv]

end Output

/-! ## Every sequence of writes and flushes -/

/-- A call on the buffer. -/
inductive WbucketCall
  | write (buf : Bytes)
  | flush (addFlushBucket : Bool)

/-- A buffer in use, and the bytes it has accepted: of each write as many as
the write has reported. -/
structure Buffering where
  out : Output
  accepted : Bytes

namespace Buffering

variable (httpd : Httpd)

def step (s : Buffering) : WbucketCall → Option Buffering
  | .write buf =>
      (s.out.wbucketWrite httpd buf).map fun (_, wlen, out) => ⟨out, s.accepted ++ buf.take wlen⟩
  | .flush addFlushBucket =>
      (s.out.wbucketFlush httpd addFlushBucket).map fun (_, out) => ⟨out, s.accepted⟩

/-- What has been accepted was handed on or is held, in this order. -/
structure Queued (s : Buffering) : Prop where
  plain : s.out.Plain
  accepted : s.out.sent ++ s.out.wb.held = s.accepted

variable {httpd} {s s' : Buffering} {a : WbucketCall}

theorem Queued.accepts {out : Output} {buf : Bytes} (h : Queued s) (ho : s.out.Accepts out buf) :
    Queued ⟨out, s.accepted ++ buf⟩ :=
  ⟨ho.plain, by rw [ho.bytes, h.accepted]⟩

/-- No call accesses bytes outside the buffer, and each keeps the order. -/
theorem Queued.step (h : Queued s) (a : WbucketCall) :
    ∃ s', Buffering.step httpd s a = some s' ∧ Queued s' := by
  cases a with
  | write buf =>
      rcases Output.wbucketWrite_accepts h.plain buf with
        ⟨rv, out, -, hwrite, haccepts⟩ | ⟨-, rv, out, hwrite, haccepts⟩
      · exact ⟨_, by rw [Buffering.step, hwrite]; rfl, h.accepts haccepts⟩
      · refine ⟨_, by rw [Buffering.step, hwrite]; rfl, ?_⟩
        simp only [List.take_length]
        exact h.accepts haccepts
  | flush addFlushBucket =>
      obtain ⟨rv, out, hflush, haccepts, -⟩ :=
        Output.wbucketFlush_accepts httpd h.plain addFlushBucket
      refine ⟨_, by rw [Buffering.step, hflush]; rfl, ?_⟩
      simpa using h.accepts haccepts

theorem Queued.of_reachable {wb : Wbucket} {r : Option RequestRec}
    (hparse : wb.headerParse = false) (hempty : wb.outcnt = 0)
    (h : Reachable (Buffering.step httpd) Always ⟨⟨wb, r, []⟩, []⟩ s) : Queued s := by
  refine h.invariant ⟨⟨hparse, hempty ▸ Nat.zero_le _⟩, ?_⟩ fun s a s' _ hq _ hs => ?_
  · simp [Output.sent, Output.held_of_outcnt_zero hempty]
  · obtain ⟨s₁, hs₁, hq₁⟩ := hq.step a
    rw [hs, Option.some_inj] at hs₁
    exact hs₁ ▸ hq₁

end Buffering

/-- In every state that writes and flushes lead to from an empty buffer: the
count is within the buffer; no further call copies outside it; the bytes handed
on and the bytes held are, in this order, the bytes accepted; a flush leaves
nothing behind; and a write reports its length, or, if the flush before it
fails, zero, and then leaves what that flush left. -/
theorem wbucket_fifo {httpd : Httpd} {wb : Wbucket} {r : Option RequestRec} {s : Buffering}
    (hparse : wb.headerParse = false) (hempty : wb.outcnt = 0)
    (h : Reachable (Buffering.step httpd) Always ⟨⟨wb, r, []⟩, []⟩ s) :
    s.out.wb.outcnt ≤ ioBufSize ∧
      (∀ a, ∃ s', Buffering.step httpd s a = some s') ∧
      s.out.sent ++ s.out.wb.held = s.accepted ∧
      (∀ addFlushBucket, ∃ rv out', s.out.wbucketFlush httpd addFlushBucket = some (rv, out') ∧
        out'.wb.outcnt = 0) ∧
      ∀ buf, (∃ rv out', s.out.FlushFails httpd buf rv out' ∧
          s.out.wbucketWrite httpd buf = some (rv, 0, out')) ∨
        ((∀ rv out', ¬s.out.FlushFails httpd buf rv out') ∧
          ∃ rv out', s.out.wbucketWrite httpd buf = some (rv, buf.length, out')) := by
  have hq := Buffering.Queued.of_reachable hparse hempty h
  refine ⟨hq.plain.outcnt_le, fun a => ?_, hq.accepted, fun addFlushBucket => ?_, fun buf => ?_⟩
  · obtain ⟨s', hs', -⟩ := hq.step a
    exact ⟨s', hs'⟩
  · obtain ⟨rv, out', hflush, -, hout⟩ := Output.wbucketFlush_accepts httpd hq.plain addFlushBucket
    exact ⟨rv, out', hflush, hout⟩
  · rcases Output.wbucketWrite_accepts hq.plain buf with
      ⟨rv, out', hfails, hwrite, -⟩ | ⟨hfails, rv, out', hwrite, -⟩
    · exact .inl ⟨rv, out', hfails, hwrite⟩
    · exact .inr ⟨hfails, rv, out', hwrite⟩

/-- A server whose filters take everything and whose header scan accepts any
text and sets no header. -/
def Httpd.accepting : Httpd where
  passBrigade _ := aprSuccess
  scanScriptHeader r _ := (ok, r)
  internalRedirect r _ := ([], r)

/-- Two bytes, a flush and one more: one brigade went out, one byte is held. -/
theorem wbucket_fifo_three : ∃ s : Buffering,
    s.out.passed = [[.data [1, 2], .flush]] ∧ s.accepted = [1, 2, 3] ∧
      s.out.sent ++ s.out.wb.held = [1, 2, 3] := by
  obtain ⟨s, hs, hpassed, haccepted⟩ : ∃ s : Buffering,
      Reachable (Buffering.step .accepting) Always ⟨⟨.init, none, []⟩, []⟩ s ∧
        s.out.passed = [[.data [1, 2], .flush]] ∧ s.accepted = [1, 2, 3] :=
    Reachable.exists_of_run (Reachable.runOk_always [.write [1], .write [2], .flush true,
      .write [3]]) (by decide +kernel)
  exact ⟨s, hpassed, haccepted, haccepted ▸ (wbucket_fifo rfl rfl hs).2.2.1⟩

end ModPerl
