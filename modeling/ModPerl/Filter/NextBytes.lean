import ModPerl.Library.Machine
import ModPerl.Filter.Reader

/-!
# Reads in a row

What a filter has still to read is what `leftover` and `remaining` say of the bucket it
is in, and the buckets behind this one.  A read returns the next bytes of it, as many as
are wanted or as there are up to the next FLUSH, the EOS or the end, and leaves the rest.
There are two exceptions: a bucket that cannot be read, at which the read croaks and drops
what it has gathered, and a bucket from which so much is wanted that the number is not one
of an `int`.
-/

namespace ModPerl

open Machine

/-- The data in front of the next FLUSH, the EOS or the end. -/
def Brigade.ahead : Brigade → Bytes
  | [] => []
  | .eos :: _ => []
  | .flush :: _ => []
  | b :: rest => b.bytes ++ Brigade.ahead rest

/-- A read that has some bytes comes to an end in these buckets: it meets none that cannot
be read, and what it takes from the last one can be counted by an `int`. -/
def Finishes (wanted : ℕ) : ℕ → Brigade → Prop
  | _, [] => True
  | _, .eos :: _ => True
  | _, .flush :: _ => True
  | _, .broken _ :: _ => False
  | got, .data buf :: rest =>
      if buf.length ≠ 0 ∧ got + buf.length ≥ wanted then wanted - got < 2 ^ 31
      else Finishes wanted (got + buf.length) rest

instance Finishes.decidable (wanted : ℕ) : ∀ got bb, Decidable (Finishes wanted got bb)
  | _, [] => isTrue trivial
  | _, .eos :: _ => isTrue trivial
  | _, .flush :: _ => isTrue trivial
  | _, .broken _ :: _ => isFalse id
  | got, .data buf :: rest =>
      have := Finishes.decidable wanted (got + buf.length) rest
      inferInstanceAs (Decidable (if buf.length ≠ 0 ∧ got + buf.length ≥ wanted then
        wanted - got < 2 ^ 31 else Finishes wanted (got + buf.length) rest))

namespace Filter

/-- What no read has returned. -/
def unreturned (f : Filter) : Bytes := f.leftover.take f.remaining ++ f.unread.bytes

/-- The part of it that the next read may return.  There is nothing behind an EOS. -/
def ahead (f : Filter) : Bytes :=
  if f.seenEos then [] else f.leftover.take f.remaining ++ f.unread.ahead

/-- A read returns the next bytes and their number, and leaves the rest. -/
def ReturnsNext (f : Filter) (wanted : ℕ) : Prop :=
  ∃ f', f.filterRead wanted =
      some (.ok ((f.ahead.take wanted).length, f.ahead.take wanted), f') ∧
    f.ahead.take wanted ++ f'.unreturned = f.unreturned ∧ f'.remaining = f'.leftover.length

/-- The read ends before it begins, in the bucket it is in, or in one of those behind. -/
def ReadOk (f : Filter) (wanted : ℕ) : Prop :=
  f.seenEos = true ∨ wanted ≤ f.remaining ∨ Finishes wanted f.remaining f.unread

instance (f : Filter) (wanted : ℕ) : Decidable (f.ReadOk wanted) :=
  inferInstanceAs (Decidable (_ ∨ _ ∨ _))

end Filter

/-- A filter, and what its reads have returned. -/
structure Reader where
  filter : Filter
  returned : Bytes

namespace Reader

/-- A filter that has begun to read a brigade. -/
def start (f : Filter) (bb : Brigade) : Reader where
  filter := { f with seenEos := false, leftover := [], remaining := 0, bucket := none,
                     bbIn := some bb }
  returned := []

/-- A call of `modperl_filter_read`.  The handler may go on when it croaks. -/
def step (r : Reader) (wanted : ℕ) : Option Reader :=
  (r.filter.filterRead wanted).map fun
    | (.ok (_, buffer), f) => ⟨f, r.returned ++ buffer⟩
    | (.error _, f) => ⟨f, r.returned⟩

end Reader

variable {wanted : ℕ} {buffer left : Bytes} {rest : Brigade}

/-! ## One read -/

theorem toInt_lt (n : ℕ) : toInt n < 2 ^ 31 := by
  unfold toInt
  have hlt : (n : Int).bmod (2 ^ 32) < ((2 ^ 32 : ℕ) + 1) / 2 := Int.bmod_lt (by decide)
  omega

/-- The read has come to the next bytes. -/
def GivesNext (wanted : ℕ) (buffer : Bytes) (rest : Brigade)
    (res : Option (Except Status Read)) : Prop :=
  ∃ read, res = some (.ok read) ∧ read.buffer = (buffer ++ rest.ahead).take wanted ∧
    read.buffer ++ (read.left ++ read.rest.bytes) = buffer ++ rest.bytes

/-- The bucket that has all that is wanted still. -/
theorem readNibble_givesNext_iff {buf : Bytes} (hlt : buffer.length < wanted)
    (hfull : wanted ≤ buffer.length + buf.length) :
    GivesNext wanted buffer (.data buf :: rest)
        (readNibble (toInt (wanted - buffer.length)) buffer buf rest) ↔
      wanted - buffer.length < 2 ^ 31 := by
  have hnext : (buffer ++ Brigade.ahead (.data buf :: rest)).take wanted =
      buffer ++ buf.take (wanted - buffer.length) := by
    have hahead : Brigade.ahead (.data buf :: rest) = buf ++ rest.ahead := rfl
    have hle : wanted - buffer.length ≤ buf.length := by omega
    rw [hahead, List.take_append, List.take_of_length_le (Nat.le_of_lt hlt),
      List.take_append_of_le_length hle]
  unfold readNibble
  constructor
  · rintro ⟨read, hread, hbuffer, -⟩
    split_ifs at hread with hneg
    obtain rfl := Except.ok.inj (Option.some.inj hread)
    -- fewer bytes are taken than are wanted, if the number has shrunk
    rw [hnext] at hbuffer
    have hlength := congrArg List.length hbuffer
    simp only [List.length_append, List.length_take] at hlength
    have hint := toInt_lt (wanted - buffer.length)
    omega
  · intro hsmall
    have hint : toInt (wanted - buffer.length) = (wanted - buffer.length : ℕ) :=
      toInt_of_lt hsmall
    have hneg : ¬((wanted - buffer.length : ℕ) : Int) < 0 := by omega
    rw [hint, if_neg hneg, Int.toNat_natCast]
    refine ⟨_, rfl, hnext.symm, ?_⟩
    rw [Brigade.bytes_cons, Bucket.bytes, List.append_assoc, ← List.append_assoc (buf.take _),
      List.take_append_drop]

/-- The loop, bucket by bucket. -/
theorem gather_givesNext_iff (hlt : buffer.length < wanted) :
    GivesNext wanted buffer rest (gather wanted buffer rest) ↔
      Finishes wanted buffer.length rest := by
  have hwhole : buffer.take wanted = buffer := List.take_of_length_le (Nat.le_of_lt hlt)
  induction rest generalizing buffer with
  | nil =>
      refine iff_of_true ⟨_, rfl, ?_, rfl⟩ trivial
      rw [Brigade.ahead, List.append_nil, hwhole]
  | cons b rest ih =>
      cases b with
      | eos =>
          refine iff_of_true ⟨_, rfl, ?_, rfl⟩ trivial
          rw [Brigade.ahead, List.append_nil, hwhole]
      | flush =>
          refine iff_of_true ⟨_, rfl, ?_, rfl⟩ trivial
          rw [Brigade.ahead, List.append_nil, hwhole]
      | broken rc =>
          refine iff_of_false ?_ id
          rintro ⟨read, hread, -⟩
          cases hread
      | data buf =>
          rw [gather, Finishes]
          by_cases hfull : buf.length ≠ 0 ∧ buffer.length + buf.length ≥ wanted
          · rw [if_pos hfull, if_pos hfull]
            exact readNibble_givesNext_iff hlt hfull.2
          · -- the bucket is taken whole
            have hlt' : (buffer ++ buf).length < wanted := by
              rw [List.length_append]
              omega
            have hrest := ih hlt' (List.take_of_length_le (Nat.le_of_lt hlt'))
            rw [if_neg hfull, if_neg hfull, ← List.length_append]
            simpa only [GivesNext, Brigade.ahead, Brigade.bytes_cons, Bucket.bytes,
              List.append_assoc] using hrest

/-- One read, from the rest of a bucket on. -/
theorem readFrom_givesNext_iff (hwanted : 0 < wanted) :
    GivesNext wanted left rest (readFrom wanted left rest) ↔
      wanted ≤ left.length ∨ Finishes wanted left.length rest := by
  unfold readFrom
  split_ifs with hfull
  · refine iff_of_true ⟨_, rfl, ?_, ?_⟩ (.inl hfull.2)
    · rw [List.take_append_of_le_length hfull.2]
    · rw [← List.append_assoc, List.take_append_drop]
  · have hlt : left.length < wanted := by omega
    rw [gather_givesNext_iff hlt, or_iff_right (Nat.not_le.mpr hlt)]

namespace Filter

variable {f f' : Filter}

theorem At.unreturned_eq (h : f.At left rest) : f.unreturned = left ++ rest.bytes := by
  rw [unreturned, h.leftover, h.remaining, List.take_length, h.unread]

theorem At.ahead_eq (h : f.At left rest) (heos : f.seenEos = false) :
    f.ahead = left ++ rest.ahead := by
  rw [ahead, heos, if_neg Bool.false_ne_true, h.leftover, h.remaining, List.take_length, h.unread]

/-- The filter returns what the read has come to. -/
theorem returnsNext_iff_givesNext {res : Option (Except Status Read)} (hat : f.At left rest)
    (heos : f.seenEos = false) (hread : Returns f res (f.filterRead wanted)) :
    f.ReturnsNext wanted ↔ GivesNext wanted left rest res := by
  unfold ReturnsNext
  rw [hat.ahead_eq heos, hat.unreturned_eq]
  constructor
  · rintro ⟨f', hf', hrest, -⟩
    rcases res with _ | rc | read
    · have hfault : f.filterRead wanted = none := hread
      cases hfault.symm.trans hf'
    · obtain ⟨f'', hf''⟩ := hread
      cases hf''.symm.trans hf'
    · obtain ⟨f'', hf'', -, hat'⟩ := hread
      obtain ⟨hbuffer, rfl⟩ := Prod.mk.inj (Option.some.inj (hf''.symm.trans hf'))
      have hbuffer : read.buffer = (left ++ rest.ahead).take wanted :=
        (Prod.mk.inj (Except.ok.inj hbuffer)).2
      refine ⟨read, rfl, hbuffer, ?_⟩
      rw [hbuffer, ← hat'.unreturned_eq]
      exact hrest
  · rintro ⟨read, rfl, hbuffer, hrest⟩
    obtain ⟨f', hf', -, hat'⟩ := hread
    rw [hbuffer] at hf' hrest
    refine ⟨f', hf', ?_, hat'.remaining.trans (congrArg _ hat'.leftover.symm)⟩
    rw [hat'.unreturned_eq]
    exact hrest

/-- A read returns the next bytes if and only if it comes to an end. -/
theorem returnsNext_iff (hremaining : f.remaining = f.leftover.length) (hwanted : 0 < wanted) :
    f.ReturnsNext wanted ↔ f.ReadOk wanted := by
  cases heos : f.seenEos with
  | true =>
      -- nothing is read behind the EOS
      have hahead : f.ahead.take wanted = [] := by rw [ahead, heos, if_pos rfl, List.take_nil]
      refine iff_of_true ⟨f, ?_, ?_, hremaining⟩ (.inl heos)
      · rw [hahead, filterRead_of_seenEos heos]
        rfl
      · rw [hahead, List.nil_append]
  | false =>
      have hat : f.At f.leftover f.unread := ⟨rfl, hremaining, rfl⟩
      rw [returnsNext_iff_givesNext hat heos (filterRead_returns wanted hat heos),
        readFrom_givesNext_iff hwanted, ReadOk, hremaining, heos]
      exact (or_iff_right Bool.false_ne_true).symm

theorem getBucket_leftover :
    f.getBucket.2.leftover = f.leftover ∧ f.getBucket.2.remaining = f.remaining := by
  unfold getBucket
  repeat' split
  all_goals exact ⟨rfl, rfl⟩

theorem remaining_of_readLoop {rounds len : ℕ} {res : Except Status (ℕ × Bytes)}
    (hremaining : f.remaining = f.leftover.length)
    (h : readLoop wanted rounds f len buffer = some (res, f')) :
    f'.remaining = f'.leftover.length := by
  induction rounds generalizing f len buffer with
  | zero => cases h
  | succ rounds ih =>
      have hbucket := getBucket_leftover (f := f)
      rw [readLoop] at h
      rcases hget : f.getBucket with ⟨found, f₁⟩
      rw [hget] at h hbucket
      have hremaining₁ : f₁.remaining = f₁.leftover.length := by
        rw [hbucket.1, hbucket.2]
        exact hremaining
      cases found with
      | false =>
          obtain ⟨-, rfl⟩ := Prod.mk.inj (Option.some.inj h)
          exact hremaining₁
      | true =>
          simp only at h
          split at h
          · obtain ⟨-, rfl⟩ := Prod.mk.inj (Option.some.inj h)
            exact hremaining₁
          · split_ifs at h
            · unfold takeNibble at h
              split_ifs at h
              obtain ⟨-, rfl⟩ := Prod.mk.inj (Option.some.inj h)
              exact List.length_drop.symm
            · exact ih (f := { f₁ with rc := aprSuccess }) hremaining₁ h
            · exact ih (f := { f₁ with rc := aprSuccess }) hremaining₁ h
          · cases h

/-- A read leaves a pointer and a count that agree, also a read that croaks. -/
theorem remaining_of_read {res : Except Status (ℕ × Bytes)}
    (hremaining : f.remaining = f.leftover.length) (h : f.filterRead wanted = some (res, f')) :
    f'.remaining = f'.leftover.length := by
  unfold filterRead at h
  simp only at h
  split_ifs at h
  · obtain ⟨-, rfl⟩ := Prod.mk.inj (Option.some.inj h)
    exact hremaining
  · obtain ⟨-, rfl⟩ := Prod.mk.inj (Option.some.inj h)
    simp only [List.length_drop, hremaining]
  · exact remaining_of_readLoop (f := { f with leftover := [], remaining := 0 }) rfl h
  · exact remaining_of_readLoop hremaining h

end Filter

namespace Reader

variable {f : Filter} {bb : Brigade} {r r' : Reader}

/-! ## Reads in a row -/

theorem step_cases (h : r.step wanted = some r') :
    ∃ res, r.filter.filterRead wanted = some (res, r'.filter) ∧
      r'.returned = match res with
        | .ok (_, buffer) => r.returned ++ buffer
        | .error _ => r.returned := by
  obtain ⟨⟨res, f'⟩, hread, heq⟩ := Option.map_eq_some_iff.mp h
  rcases res with rc | ⟨len, buffer⟩
  · cases heq
    exact ⟨_, hread, rfl⟩
  · cases heq
    exact ⟨_, hread, rfl⟩

theorem remaining_of_reachable {ok : Reader → ℕ → Prop}
    (h : Reachable step ok (start f bb) r) : r.filter.remaining = r.filter.leftover.length := by
  refine h.invariant (I := fun r => r.filter.remaining = r.filter.leftover.length) rfl ?_
  intro s wanted s' _ hremaining _ hs
  obtain ⟨res, hread, -⟩ := step_cases hs
  exact Filter.remaining_of_read hremaining hread

/-- What a read has returned, and what is left then, is what there was. -/
theorem unreturned_of_step (hnext : r.filter.ReturnsNext wanted) (h : r.step wanted = some r') :
    r'.returned ++ r'.filter.unreturned = r.returned ++ r.filter.unreturned := by
  obtain ⟨f', hread, hrest, -⟩ := hnext
  obtain ⟨res, hread', hreturned⟩ := step_cases h
  obtain ⟨rfl, rfl⟩ := Prod.mk.inj (Option.some.inj (hread.symm.trans hread'))
  simp only at hreturned
  rw [hreturned, List.append_assoc, hrest]

end Reader

open Reader in
/-- In whatever state earlier reads have left the filter, a read returns the next bytes
exactly if it comes to an end.  As long as all reads do, none returns a byte twice or
passes over one. -/
theorem filterRead_next_iff (f : Filter) (bb : Brigade) :
    (∀ r, Reachable step Always (start f bb) r → ∀ wanted, 0 < wanted →
      (r.filter.ReturnsNext wanted ↔ r.filter.ReadOk wanted)) ∧
    ∀ r, Reachable step (fun r wanted => 0 < wanted ∧ r.filter.ReadOk wanted) (start f bb) r →
      r.returned ++ r.filter.unreturned = bb.bytes := by
  constructor
  · intro r hr wanted hwanted
    exact Filter.returnsNext_iff (remaining_of_reachable hr) hwanted
  · intro r hr
    refine hr.invariant (I := fun r => r.returned ++ r.filter.unreturned = bb.bytes) rfl ?_
    rintro s wanted s' hs hbytes ⟨hwanted, hok⟩ hstep
    have hnext := (Filter.returnsNext_iff (remaining_of_reachable hs) hwanted).mpr hok
    exact (unreturned_of_step hnext hstep).trans hbytes

/-- Three reads of a brigade: into its second bucket, up to the FLUSH, and up to the EOS. -/
theorem filterRead_next_three : ∃ r : Reader, r.returned = [1, 2, 3, 4, 5, 6] ∧
    r.returned ++ r.filter.unreturned = [1, 2, 3, 4, 5, 6] := by
  obtain ⟨r, hr, hreturned⟩ : ∃ r, Reachable Reader.step
      (fun r wanted => 0 < wanted ∧ r.filter.ReadOk wanted)
      (Reader.start (.new .output [] false [])
        [.data [1, 2, 3], .data [4, 5], .flush, .data [6], .eos]) r ∧
      r.returned = [1, 2, 3, 4, 5, 6] :=
    Reachable.exists_of_run (show runOk _ _ _ [4, 4, 4] by decide +kernel) (by decide +kernel)
  exact ⟨r, hreturned, (filterRead_next_iff _ _).2 r hr⟩

/-- Of a bucket of 2 GiB all is wanted at once: the read copies without bound. -/
theorem filterRead_next_fails : ¬∀ (f : Filter) (bb : Brigade) (r : Reader),
    Reachable Reader.step Always (Reader.start f bb) r → ∀ wanted, 0 < wanted →
      r.filter.ReturnsNext wanted := by
  intro hall
  obtain ⟨buf, hlength⟩ : ∃ buf : Bytes, buf.length = 2 ^ 31 :=
    ⟨List.replicate (2 ^ 31) 0, List.length_replicate⟩
  have hnext := hall (.new .output [] false []) [.data buf] _ .start (2 ^ 31) (Nat.two_pow_pos 31)
  rcases (Filter.returnsNext_iff rfl (Nat.two_pow_pos 31)).mp hnext with heos | hle | hfinishes
  · cases heos
  · have hzero : 2 ^ 31 ≤ 0 := hle
    omega
  · have hfinishes' : Finishes (2 ^ 31) 0 [.data buf] := hfinishes
    rw [Finishes, hlength, if_pos (by omega)] at hfinishes'
    omega

end ModPerl
