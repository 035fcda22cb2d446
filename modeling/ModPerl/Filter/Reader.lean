import ModPerl.Filter.EosProtocol

/-!
# What a read returns

Abstractly a reader has the rest of a bucket it has begun, and the buckets
behind it.  A read takes from the begun bucket what it wants, or takes it whole
and gathers more from the buckets up to the next FLUSH, the EOS or the end.
`modperl_filter_read` does this on pointers into the brigade (`filterRead_eq`).
-/

namespace ModPerl

/-- What a read comes to: the bytes, what it leaves of the bucket it ended in,
the buckets behind that, and the FLUSH or EOS that ended it. -/
structure Read where
  buffer : Bytes
  left : Bytes
  rest : Brigade
  met : Option Bucket

/-- A read ends in a bucket that has all that is wanted still. -/
def readNibble (nibble : Int) (buffer buf : Bytes) (rest : Brigade) :
    Option (Except Status Read) :=
  if nibble < 0 then none
  else some (.ok ⟨buffer ++ buf.take nibble.toNat, buf.drop nibble.toNat, rest, none⟩)

/-- The bytes are gathered bucket by bucket until as many are there as wanted. -/
def gather (wanted : Nat) (buffer : Bytes) : Brigade → Option (Except Status Read)
  | [] => some (.ok ⟨buffer, [], [], none⟩)
  | .eos :: rest => some (.ok ⟨buffer, [], rest, some .eos⟩)
  | .flush :: rest => some (.ok ⟨buffer, [], rest, some .flush⟩)
  | .broken rc :: _ => some (.error rc)
  | .data buf :: rest =>
      if buf.length ≠ 0 ∧ buffer.length + buf.length ≥ wanted then
        readNibble (toInt (wanted - buffer.length)) buffer buf rest
      else gather wanted (buffer ++ buf) rest

/-- One read, with the rest of a begun bucket and the buckets behind it. -/
def readFrom (wanted : Nat) (left : Bytes) (rest : Brigade) : Option (Except Status Read) :=
  if left.length ≠ 0 ∧ left.length ≥ wanted then
    some (.ok ⟨left.take wanted, left.drop wanted, rest, none⟩)
  else gather wanted left rest

/-- A conversion to `int` that is not negative has not grown. -/
theorem toNat_toInt_le (n : Nat) : (toInt n).toNat ≤ n := by
  unfold toInt
  have hmod : (n : Int).bmod (2 ^ 32) ≤ n := by
    have hdef := Int.bmod_def n (2 ^ 32)
    split_ifs at hdef <;> omega
  omega

theorem toInt_of_lt {n : Nat} (h : n < 2 ^ 31) : toInt n = n := by
  unfold toInt
  have hdef := Int.bmod_def n (2 ^ 32)
  split_ifs at hdef <;> omega

namespace Filter

variable {f f' : Filter} {wanted : Nat} {left buffer : Bytes} {rest : Brigade}

/-- The buckets behind the one that `bucket` points to. -/
def unread (f : Filter) : Brigade := (f.bbIn.getD []).drop f.nextPlace

/-- The filter is in the middle of a brigade: this is left of the current bucket,
and these buckets follow. -/
structure At (f : Filter) (left : Bytes) (rest : Brigade) : Prop where
  leftover : f.leftover = left
  remaining : f.remaining = left.length
  unread : f.unread = rest

/-- The reader has moved on, and has noted the bucket it met. -/
structure Moved (f f' : Filter) (met : Option Bucket) : Prop where
  sameOutput : SameOutput f f'
  seenEos : f'.seenEos = (f.seenEos || met == some .eos)
  flush : f'.flush = (f.flush || met == some .flush)

theorem Moved.refl : Moved f f none := ⟨.refl, by simp, by simp⟩

theorem Moved.trans {f'' : Filter} {met : Option Bucket} (h : Moved f f' none)
    (h' : Moved f' f'' met) : Moved f f'' met where
  sameOutput := h.sameOutput.trans h'.sameOutput
  seenEos := by rw [h'.seenEos, h.seenEos]; simp
  flush := by rw [h'.flush, h.flush]; simp

/-- `get_bucket` at the end, at a FLUSH or EOS, and at data. -/
theorem getBucket_nil (h : f.unread = []) : ∃ f', f.getBucket = (false, f') ∧
    Moved f f' none ∧ f'.unread = [] ∧ f'.leftover = f.leftover ∧ f'.remaining = f.remaining := by
  unfold getBucket
  cases hbb : f.bbIn with
  | none => exact ⟨f, rfl, .refl, h, rfl, rfl⟩
  | some bb =>
      have hplace : bb[f.nextPlace]? = none := by
        rw [List.getElem?_eq_none_iff, ← List.drop_eq_nil_iff]
        simpa [unread, hbb] using h
      simp only [hplace]
      split_ifs
      · exact ⟨f, rfl, .refl, h, rfl, rfl⟩
      · exact ⟨_, rfl, ⟨⟨rfl, rfl, rfl, rfl, rfl, rfl⟩, by simp, by simp⟩, rfl, rfl, rfl⟩

theorem getBucket_cons {b : Bucket} (h : f.unread = b :: rest) :
    ∃ f', f.getBucket = (decide (b ≠ .eos ∧ b ≠ .flush), f') ∧
      Moved f f' (some b) ∧ f'.unread = rest ∧ f'.leftover = f.leftover ∧
      f'.remaining = f.remaining ∧ f'.current = some b := by
  unfold getBucket
  cases hbb : f.bbIn with
  | none => simp [unread, hbb] at h
  | some bb =>
      have hdrop : bb.drop f.nextPlace = b :: rest := by simpa [unread, hbb] using h
      have hplace : bb[f.nextPlace]? = some b := by
        have hhead := congrArg (fun l => l[0]?) hdrop
        simpa [List.getElem?_drop] using hhead
      have hne : bb ≠ [] := by
        rintro rfl
        simp at hdrop
      have hrest : bb.drop (f.nextPlace + 1) = rest := by
        rw [← List.drop_drop, hdrop]
        rfl
      simp only [hplace, hne, if_false]
      cases b <;>
        exact ⟨_, rfl, ⟨⟨rfl, rfl, rfl, rfl, rfl, rfl⟩, by simp, by simp⟩,
          by simpa [unread, hbb, nextPlace] using hrest, rfl, rfl, by simp [current, hplace]⟩

/-- What the model returns for what a read comes to. -/
def Returns (f : Filter) : Option (Except Status Read) → FilterResult (Nat × Bytes) → Prop
  | none, res => res = none
  | some (.error rc), res => ∃ f', res = some (.error rc, f')
  | some (.ok read), res => ∃ f', res = some (.ok (read.buffer.length, read.buffer), f') ∧
      Moved f f' read.met ∧ f'.At read.left read.rest

theorem Returns.moved {f₁ : Filter} {res : FilterResult (Nat × Bytes)}
    {read : Option (Except Status Read)} (h : Returns f₁ read res) (hmoved : Moved f f₁ none) :
    Returns f read res := by
  rcases read with _ | rc | read
  · exact h
  · exact h
  · obtain ⟨f', hres, hmoved', hat⟩ := h
    exact ⟨f', hres, hmoved.trans hmoved', hat⟩

theorem takeNibble_returns {buf : Bytes} {nibble : Int} (hle : nibble.toNat ≤ buf.length)
    (hunread : f.unread = rest) :
    Returns f (readNibble nibble buffer buf rest)
      (takeNibble nibble f buffer.length buffer buf) := by
  unfold readNibble takeNibble
  by_cases hneg : nibble < 0
  · simp only [hneg, if_true]
    rfl
  · have htake : (buf.take nibble.toNat).length = nibble.toNat := by
      rw [List.length_take, Nat.min_eq_left hle]
    simp only [hneg, if_false]
    refine ⟨_, by simp only [List.length_append, htake]; rfl, ?_, ?_⟩
    · exact ⟨⟨rfl, rfl, rfl, rfl, rfl, rfl⟩, by simp, by simp⟩
    · exact ⟨rfl, by simp, hunread⟩

/-- The loop gathers; the rounds suffice if there are more than buckets. -/
theorem readLoop_returns {rounds : Nat} (hat : f.At [] rest) (hrounds : rest.length < rounds) :
    Returns f (gather wanted buffer rest) (readLoop wanted rounds f buffer.length buffer) := by
  induction rest generalizing rounds f buffer with
  | nil =>
      obtain ⟨rounds, rfl⟩ := Nat.exists_eq_add_of_lt hrounds
      obtain ⟨f', hget, hmoved, hunread, hleft, hrem⟩ := getBucket_nil hat.unread
      simp only [readLoop, hget, gather, Returns]
      exact ⟨f', rfl, hmoved, hleft.trans hat.leftover, hrem.trans hat.remaining, hunread⟩
  | cons b rest ih =>
      obtain ⟨rounds, rfl⟩ := Nat.exists_eq_add_of_lt hrounds
      obtain ⟨f', hget, hmoved, hunread, hleft, hrem, hcurrent⟩ := getBucket_cons hat.unread
      have hat' : f'.At [] rest := ⟨hleft.trans hat.leftover, hrem.trans hat.remaining, hunread⟩
      cases b with
      | eos =>
          have hget' : f.getBucket = (false, f') := by simpa using hget
          simp only [readLoop, hget', gather, Returns]
          exact ⟨f', rfl, hmoved, hat'⟩
      | flush =>
          have hget' : f.getBucket = (false, f') := by simpa using hget
          simp only [readLoop, hget', gather, Returns]
          exact ⟨f', rfl, hmoved, hat'⟩
      | broken rc =>
          have hget' : f.getBucket = (true, f') := by simpa using hget
          simp only [readLoop, hget', hcurrent, gather, Returns]
          exact ⟨_, rfl⟩
      | data buf =>
          have hget' : f.getBucket = (true, f') := by simpa using hget
          have hrc : Moved f { f' with rc := aprSuccess } none :=
            ⟨hmoved.sameOutput.trans ⟨rfl, rfl, rfl, rfl, rfl, rfl⟩, hmoved.seenEos,
              hmoved.flush⟩
          -- the bucket is taken whole, and the loop goes on behind it
          have hnext : ∀ {buffer' : Bytes}, buffer' = buffer ++ buf →
              Returns f (gather wanted (buffer ++ buf) rest)
                (readLoop wanted (rest.length + 1 + rounds) { f' with rc := aprSuccess }
                  buffer'.length buffer') := by
            rintro _ rfl
            have hat'' : At { f' with rc := aprSuccess } [] rest :=
              ⟨hat'.leftover, hat'.remaining, hat'.unread⟩
            exact (ih hat'' (by omega)).moved hrc
          simp only [readLoop, hget', hcurrent, gather]
          by_cases hempty : buf = []
          · simpa [hempty] using hnext (by rw [hempty, List.append_nil])
          · have hlength : buf.length ≠ 0 := by simpa using hempty
            by_cases hfull : buffer.length + buf.length ≥ wanted
            · rw [if_pos hlength, if_pos hfull, if_pos ⟨hlength, hfull⟩]
              have hunread' : unread { f' with rc := aprSuccess } = rest := hunread
              have hle : (toInt (wanted - buffer.length)).toNat ≤ buf.length := by
                have := toNat_toInt_le (wanted - buffer.length)
                omega
              exact (takeNibble_returns hle hunread').moved hrc
            · rw [if_pos hlength, if_neg hfull, if_neg fun h => hfull h.2]
              simpa using hnext rfl

/-- A read that begins before the EOS does what the abstract reader does. -/
theorem filterRead_returns (wanted : Nat) (hat : f.At left rest) (heos : f.seenEos = false) :
    Returns f (readFrom wanted left rest) (f.filterRead wanted) := by
  have hrounds : rest.length < (f.bbIn.getD []).length + 1 := by
    rw [← hat.unread, unread, List.length_drop]
    omega
  have hstart : f.filterRead wanted =
      if f.remaining ≠ 0 then
        if f.remaining ≥ wanted then
          some (.ok (wanted, f.leftover.take wanted),
            { f with leftover := f.leftover.drop wanted, remaining := f.remaining - wanted })
        else
          readLoop wanted ((f.bbIn.getD []).length + 1) { f with leftover := [], remaining := 0 }
            f.remaining (f.leftover.take f.remaining)
      else readLoop wanted ((f.bbIn.getD []).length + 1) f 0 [] := by
    unfold filterRead
    exact if_neg (by simp [heos])
  rw [hstart, readFrom]
  by_cases hempty : left.length = 0
  · obtain rfl := List.length_eq_zero_iff.mp hempty
    have hremaining : f.remaining = 0 := hat.remaining
    rw [if_neg (not_not.mpr hremaining), if_neg fun h => h.1 hempty]
    exact readLoop_returns hat hrounds
  · have hremaining : f.remaining ≠ 0 := by rwa [hat.remaining]
    by_cases hfull : left.length ≥ wanted
    · -- the leftover is enough, and no bucket is read
      have hfull' : f.remaining ≥ wanted := by rwa [hat.remaining]
      rw [if_pos hremaining, if_pos hfull', if_pos ⟨hempty, hfull⟩]
      have htake : (left.take wanted).length = wanted := by
        rw [List.length_take, Nat.min_eq_left hfull]
      refine ⟨_, by rw [htake, hat.leftover], ?_, ?_⟩
      · exact ⟨⟨rfl, rfl, rfl, rfl, rfl, rfl⟩, by simp, by simp⟩
      · exact ⟨rfl, by simp [hat.remaining], hat.unread⟩
    · have hfull' : ¬f.remaining ≥ wanted := by rwa [hat.remaining]
      rw [if_pos hremaining, if_neg hfull', if_neg fun h => hfull h.2, hat.leftover, hat.remaining,
        List.take_length]
      have hat' : At { f with leftover := [], remaining := 0 } [] rest := ⟨rfl, rfl, hat.unread⟩
      have hmoved : Moved f { f with leftover := [], remaining := 0 } none :=
        ⟨⟨rfl, rfl, rfl, rfl, rfl, rfl⟩, by simp, by simp⟩
      exact (readLoop_returns hat' hrounds).moved hmoved

theorem filterRead_of_seenEos (heos : f.seenEos = true) :
    f.filterRead wanted = some (.ok (0, []), f) := by
  simp [filterRead, heos]

end Filter

end ModPerl
