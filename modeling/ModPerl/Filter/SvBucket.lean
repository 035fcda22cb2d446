import ModPerl.Library.Arena
import ModPerl.Library.Machine
import ModPerl.Request.Write
import Mathlib.Data.List.Count

/-!
# Buckets of Perl strings

A bucket that `APR::Bucket->new` makes does not copy its string: it refers to a body
that it shares with the buckets that were copied or split from it, and that body holds
a reference to the Perl scalar.  The bucket has an offset into the string and a length,
and reads what the scalar has there at the time, unless the scalar is too short by then;
`setaside` copies the bytes, and gives up the share.

A result of `none` is an access to memory that was freed or is outside of the string.
The lengths of strings are those that fit into memory.
-/

namespace ModPerl

open Machine

/-- A scalar with its string and its reference count. -/
structure StringSv where
  bytes : Bytes
  refcnt : Nat
  length_lt : bytes.length < 2 ^ 63
  deriving DecidableEq

/-- `modperl_bucket_sv_t`: the scalar, and how many buckets share it. -/
structure SvBucket where
  sv : Nat
  refcount : Nat
  deriving DecidableEq

/-- What a bucket has its data from: a shared scalar, or bytes in a pool. -/
inductive BucketData
  | sv (svbucket : Nat)
  | pool (bytes : Bytes)
  deriving DecidableEq

/-- `apr_bucket`: its data, and the part of it that is the bucket's. -/
structure AprBucket where
  data : BucketData
  start : Int64
  length : UInt64
  deriving DecidableEq

/-- Scalars, shared bodies and buckets, the references to scalars that Perl has, and those
that nobody has any more. -/
structure BucketWorld where
  svs : Arena StringSv
  shared : Arena SvBucket
  buckets : Arena AprBucket
  refs : List Nat
  leaked : List Nat
  deriving DecidableEq

namespace BucketWorld

def init : BucketWorld := ⟨[], [], [], [], []⟩

/-- `APR_EGENERAL` -/
def aprEgeneral : Status := 20014

/-- `apr_off_t` and `apr_size_t` added, as `apr_size_t`. -/
def sum (start : Int64) (length : UInt64) : UInt64 := start.toUInt64 + length

/-- The bytes of a string at these addresses, all of which are to be inside. -/
def slice (bytes : Bytes) (start : Int64) (length : UInt64) : Option Bytes :=
  if 0 ≤ start.toInt ∧ start.toInt + length.toNat ≤ bytes.length then
    some ((bytes.drop start.toInt.toNat).take length.toNat)
  else none

/-- `apr_bucket_read`, by `modperl_bucket_sv_read` for a bucket of a scalar. -/
def read (w : BucketWorld) (b : Nat) : Option (Except Status Bytes) :=
  (w.buckets.get? b).bind fun bucket =>
    match bucket.data with
    | .pool bytes => some (.ok bytes)
    | .sv data =>
        (w.shared.get? data).bind fun svbucket =>
          (w.svs.get? svbucket.sv).bind fun sv =>
            if UInt64.ofNat sv.bytes.length < sum bucket.start bucket.length then
              some (.error aprEgeneral)
            else (slice sv.bytes bucket.start bucket.length).map .ok

/-- `SvREFCNT_inc` -/
def refcntInc (w : BucketWorld) (sv : Nat) : Option BucketWorld :=
  (w.svs.get? sv).map fun body =>
    { w with svs := w.svs.set sv (some { body with refcnt := body.refcnt + 1 }) }

/-- `SvREFCNT_dec` -/
def refcntDec (w : BucketWorld) (sv : Nat) : Option BucketWorld :=
  (w.svs.get? sv).bind fun body =>
    if body.refcnt = 0 then none
    else if body.refcnt = 1 then some { w with svs := w.svs.set sv none }
    else some { w with svs := w.svs.set sv (some { body with refcnt := body.refcnt - 1 }) }

/-- `modperl_bucket_sv_destroy`, with `apr_bucket_shared_destroy` -/
def svDestroy (w : BucketWorld) (data : Nat) : Option BucketWorld :=
  (w.shared.get? data).bind fun svbucket =>
    if svbucket.refcount = 0 then none
    else if svbucket.refcount = 1 then
      refcntDec { w with shared := w.shared.set data none } svbucket.sv
    else
      some { w with
        shared := w.shared.set data (some { svbucket with refcount := svbucket.refcount - 1 }) }

/-- `modperl_bucket_sv_make`: a body of the scalar, for one bucket. -/
def svMake (w : BucketWorld) (sv : Nat) (offset : Int64) (len : UInt64) : BucketWorld :=
  { w with
    shared := w.shared ++ [some ⟨sv, 1⟩]
    buckets := w.buckets ++ [some ⟨.sv w.shared.length, offset, len⟩] }

/-- `modperl_bucket_sv_create`: the string of a scalar that belongs to perl is copied into a
new one. -/
def svCreate (w : BucketWorld) (sv : Nat) (padtmp : Bool) (offset : Int64) (len : UInt64) :
    Option BucketWorld :=
  (w.svs.get? sv).bind fun body =>
    if padtmp then
      some (svMake { w with svs := w.svs ++ [some { body with refcnt := 1 }] } w.svs.length
        offset len)
    else (w.refcntInc sv).map fun w => w.svMake sv offset len

/-- `mpxs_APR__Bucket_new` of a scalar; a call that croaks makes no bucket. -/
def bucketNew (w : BucketWorld) (sv : Nat) (padtmp : Bool) (offset : Int64) (len : UInt64) :
    Option BucketWorld :=
  (w.svs.get? sv).bind fun body =>
    let avail := UInt64.ofNat body.bytes.length - offset.toUInt64
    if len ≠ 0 then if len > avail then some w else w.svCreate sv padtmp offset len
    else w.svCreate sv padtmp offset avail

/-- `mpxs_APR__Bucket_new` without a scalar: a new empty one, to which nobody else has
the first reference. -/
def bucketNewEmpty (w : BucketWorld) (offset : Int64) (len : UInt64) : Option BucketWorld :=
  bucketNew
    { w with
      svs := w.svs ++ [some ⟨[], 1, by decide⟩]
      leaked := w.svs.length :: w.leaked }
    w.svs.length false offset len

/-- `apr_bucket_shared_copy` -/
def bucketCopy (w : BucketWorld) (b : Nat) : Option BucketWorld :=
  (w.buckets.get? b).bind fun bucket =>
    let w' := { w with buckets := w.buckets ++ [some bucket] }
    match bucket.data with
    | .pool _ => some w'
    | .sv data =>
        (w.shared.get? data).map fun svbucket =>
          { w' with
            shared := w.shared.set data (some { svbucket with refcount := svbucket.refcount + 1 }) }

/-- The two parts of a bucket. -/
def halves (bucket : AprBucket) (point : UInt64) : AprBucket × AprBucket :=
  match bucket.data with
  | .pool bytes =>
      (⟨.pool (bytes.take point.toNat), 0, point⟩,
        ⟨.pool (bytes.drop point.toNat), 0, bucket.length - point⟩)
  | .sv data =>
      (⟨.sv data, bucket.start, point⟩,
        ⟨.sv data, (sum bucket.start point).toInt64, bucket.length - point⟩)

/-- `apr_bucket_shared_split`: the first part stays, the second one is a new bucket. -/
def bucketSplit (w : BucketWorld) (b : Nat) (point : UInt64) : Option BucketWorld :=
  (w.buckets.get? b).bind fun bucket =>
    if point > bucket.length then some w
    else
      let parts := halves bucket point
      let w' := { w with buckets := w.buckets.set b (some parts.1) ++ [some parts.2] }
      match bucket.data with
      | .pool _ => some w'
      | .sv data =>
          (w.shared.get? data).map fun svbucket =>
            { w' with
              shared := w.shared.set data
                (some { svbucket with refcount := svbucket.refcount + 1 }) }

/-- `apr_bucket_delete` -/
def bucketDelete (w : BucketWorld) (b : Nat) : Option BucketWorld :=
  (w.buckets.get? b).bind fun bucket =>
    let w' := { w with buckets := w.buckets.set b none }
    match bucket.data with
    | .pool _ => some w'
    | .sv data => w'.svDestroy data

/-- `apr_bucket_setaside`, by `modperl_bucket_sv_setaside` for a bucket of a scalar.  What
a bucket cannot read is not copied. -/
def bucketSetaside (w : BucketWorld) (b : Nat) : Option BucketWorld :=
  (w.buckets.get? b).bind fun bucket =>
    match bucket.data with
    | .pool _ => some w
    | .sv data =>
        (w.read b).bind fun res =>
          match res with
          | .error _ => some w
          | .ok bytes =>
              svDestroy
                { w with buckets := w.buckets.set b (some ⟨.pool bytes, 0, bucket.length⟩) } data

inductive Act
  | newSv (bytes : Bytes)
  | assign (sv : Nat) (bytes : Bytes)
  | hold (sv : Nat)
  | release (sv : Nat)
  | bucketNew (sv : Nat) (padtmp : Bool) (offset : Int64) (len : UInt64)
  | bucketNewEmpty
  | copy (b : Nat)
  | split (b : Nat) (point : UInt64)
  | delete (b : Nat)
  | setaside (b : Nat)
  deriving DecidableEq

def step (w : BucketWorld) : Act → Option BucketWorld
  | .newSv bytes =>
      if h : bytes.length < 2 ^ 63 then
        some { w with svs := w.svs ++ [some ⟨bytes, 1, h⟩], refs := w.svs.length :: w.refs }
      else none
  | .assign sv bytes =>
      if h : bytes.length < 2 ^ 63 then
        (w.svs.get? sv).map fun body =>
          { w with svs := w.svs.set sv (some ⟨bytes, body.refcnt, h⟩) }
      else none
  | .hold sv => (w.refcntInc sv).map fun w => { w with refs := sv :: w.refs }
  | .release sv => refcntDec { w with refs := w.refs.erase sv } sv
  | .bucketNew sv padtmp offset len => w.bucketNew sv padtmp offset len
  | .bucketNewEmpty => w.bucketNewEmpty 0 0
  | .copy b => w.bucketCopy b
  | .split b point => w.bucketSplit b point
  | .delete b => w.bucketDelete b
  | .setaside b => w.bucketSetaside b

/-- The scalars and buckets are there, strings fit into memory, and the offset of a new
bucket is inside its string. -/
def Legal (w : BucketWorld) : Act → Prop
  | .newSv bytes => bytes.length < 2 ^ 63
  | .assign sv bytes => sv ∈ w.refs ∧ bytes.length < 2 ^ 63
  | .hold sv => sv ∈ w.refs
  | .release sv => sv ∈ w.refs
  | .bucketNew sv _ offset _ =>
      sv ∈ w.refs ∧ ∀ body ∈ w.svs.get? sv, 0 ≤ offset.toInt ∧ offset.toInt ≤ body.bytes.length
  | .bucketNewEmpty => True
  | .copy b => (w.buckets.get? b).isSome = true
  | .split b _ => (w.buckets.get? b).isSome = true
  | .delete b => (w.buckets.get? b).isSome = true
  | .setaside b => (w.buckets.get? b).isSome = true

/-- The shared body of a bucket. -/
def dataOf (bucket : AprBucket) : Option Nat :=
  match bucket.data with
  | .sv data => some data
  | .pool _ => none

/-- All references to scalars: these at hand, those of Perl, those that nobody has and those
of the shared bodies. -/
def holders (w : BucketWorld) (hand : List Nat) : List Nat :=
  hand ++ (w.refs ++ (w.leaked ++ w.shared.refs fun svbucket => some svbucket.sv))

/-- The part of a bucket is one of a string. -/
def Inside (bucket : AprBucket) : Prop :=
  0 ≤ bucket.start.toInt ∧ bucket.start.toInt + bucket.length.toNat < 2 ^ 63

/-- While these shares of bodies, and these references to scalars, are at hand: the
reference counts are those of the references, what is referred to is there, and the
parts of the buckets are parts of strings. -/
structure Counted (w : BucketWorld) (shares hand : List Nat) : Prop where
  refcnt : ∀ sv body, w.svs.get? sv = some body →
    body.refcnt = (w.holders hand).count sv ∧ 0 < body.refcnt
  gone : ∀ sv, w.svs.get? sv = none → sv ∉ w.holders hand
  refcount : ∀ data svbucket, w.shared.get? data = some svbucket →
    svbucket.refcount = (shares ++ w.buckets.refs dataOf).count data ∧ 0 < svbucket.refcount
  destroyed : ∀ data, w.shared.get? data = none → data ∉ shares ++ w.buckets.refs dataOf
  inside : ∀ b bucket, w.buckets.get? b = some bucket → Inside bucket

variable {w w' w'' : BucketWorld} {shares hand : List Nat} {sv data b : Nat} {body : StringSv}
  {svbucket : SvBucket} {bucket : AprBucket}

/-- A scalar that is referred to is there. -/
theorem Counted.exists_sv (h : Counted w shares hand) (hsv : sv ∈ w.holders hand) :
    ∃ body, w.svs.get? sv = some body := by
  by_contra hnone
  exact h.gone sv (Option.eq_none_iff_forall_ne_some.mpr fun body hbody => hnone ⟨body, hbody⟩) hsv

/-! ## What stays -/

/-- No scalar that is still there has another string, and no shared body another scalar. -/
structure Stays (w w' : BucketWorld) : Prop where
  svs : w.svs.length ≤ w'.svs.length
  shared : w.shared.length ≤ w'.shared.length
  bytes : ∀ sv < w.svs.length, ∀ body', w'.svs.get? sv = some body' →
    ∃ body, w.svs.get? sv = some body ∧ body'.bytes = body.bytes
  sv : ∀ data < w.shared.length, ∀ svbucket', w'.shared.get? data = some svbucket' →
    ∃ svbucket, w.shared.get? data = some svbucket ∧ svbucket'.sv = svbucket.sv

theorem Stays.refl (w : BucketWorld) : Stays w w :=
  ⟨Nat.le_refl _, Nat.le_refl _, fun _ _ body h => ⟨body, h, rfl⟩,
    fun _ _ svbucket h => ⟨svbucket, h, rfl⟩⟩

theorem Stays.trans (h : Stays w w') (h' : Stays w' w'') : Stays w w'' where
  svs := h.svs.trans h'.svs
  shared := h.shared.trans h'.shared
  bytes sv hlt body'' hbody'' := by
    obtain ⟨body', hbody', heq'⟩ := h'.bytes sv (hlt.trans_le h.svs) body'' hbody''
    obtain ⟨body, hbody, heq⟩ := h.bytes sv hlt body' hbody'
    exact ⟨body, hbody, heq'.trans heq⟩
  sv data hlt svbucket'' hshared'' := by
    obtain ⟨svbucket', hshared', heq'⟩ := h'.sv data (hlt.trans_le h.shared) svbucket'' hshared''
    obtain ⟨svbucket, hshared, heq⟩ := h.sv data hlt svbucket' hshared'
    exact ⟨svbucket, hshared, heq'.trans heq⟩

/-! ## Reference counts -/

/-- A scalar is replaced by one with as many references more or less as there are at hand
and elsewhere, or freed with the last of them. -/
theorem Counted.setSv (h : Counted w shares hand) {hand' : List Nat}
    (hbody : w.svs.get? sv = some body) (o : Option StringSv)
    (hpos : ∀ body' ∈ o, 0 < body'.refcnt)
    (hcount : ∀ a, hand'.count a + (if sv = a then body.refcnt else 0) =
      hand.count a + (if sv = a then (o.map StringSv.refcnt).getD 0 else 0)) :
    Counted { w with svs := w.svs.set sv o } shares hand' := by
  have hget := Arena.get?_set (Arena.lt_length hbody) o
  set w' : BucketWorld := { w with svs := w.svs.set sv o } with hw'
  have hholders : ∀ a, (w'.holders hand').count a + (if sv = a then body.refcnt else 0) =
      (w.holders hand).count a + (if sv = a then (o.map StringSv.refcnt).getD 0 else 0) := by
    intro a
    have hcount' := hcount a
    simp only [hw', holders, List.count_append] at hcount' ⊢
    omega
  refine ⟨fun sv' body' hbody' => ?_, fun sv' hgone => ?_, h.refcount, h.destroyed, h.inside⟩
  · have hsum := hholders sv'
    have hbefore := (h.refcnt sv body hbody).1
    change Arena.get? (w.svs.set sv o) sv' = some body' at hbody'
    rw [hget] at hbody'
    split_ifs at hbody' with heq
    · subst heq
      rw [if_pos rfl, if_pos rfl, hbody'] at hsum
      exact ⟨by simp only [Option.map_some, Option.getD_some] at hsum; omega, hpos body' hbody'⟩
    · rw [if_neg heq, if_neg heq] at hsum
      obtain ⟨hsame, hpos'⟩ := h.refcnt sv' body' hbody'
      exact ⟨by omega, hpos'⟩
  · have hsum := hholders sv'
    have hbefore := (h.refcnt sv body hbody).1
    change Arena.get? (w.svs.set sv o) sv' = none at hgone
    rw [hget] at hgone
    refine List.count_eq_zero.mp ?_
    split_ifs at hgone with heq
    · subst heq
      rw [if_pos rfl, if_pos rfl, hgone] at hsum
      simp only [Option.map_none, Option.getD_none] at hsum
      omega
    · rw [if_neg heq, if_neg heq] at hsum
      have hzero := List.count_eq_zero.mpr (h.gone sv' hgone)
      omega

theorem stays_setSv (hbody : w.svs.get? sv = some body) {o : Option StringSv}
    (hbytes : ∀ body' ∈ o, body'.bytes = body.bytes) :
    Stays w { w with svs := w.svs.set sv o } := by
  refine ⟨by simp, Nat.le_refl _, fun sv' _ body' hbody' => ?_, fun _ _ s hs => ⟨s, hs, rfl⟩⟩
  change Arena.get? (w.svs.set sv o) sv' = some body' at hbody'
  rw [Arena.get?_set (Arena.lt_length hbody)] at hbody'
  split_ifs at hbody' with heq
  · subst heq
    exact ⟨body, hbody, hbytes body' hbody'⟩
  · exact ⟨body', hbody', rfl⟩

theorem Counted.refcntInc (h : Counted w shares hand) (hbody : w.svs.get? sv = some body) :
    ∃ w', w.refcntInc sv = some w' ∧ Counted w' shares (sv :: hand) ∧ Stays w w' ∧
      w'.buckets = w.buckets ∧ w'.shared = w.shared ∧ w'.svs.length = w.svs.length := by
  rw [BucketWorld.refcntInc, hbody, Option.map_some]
  refine ⟨_, rfl, ?_, ?_, rfl, rfl, List.length_set⟩
  · refine h.setSv hbody _ (fun _ hb => ?_) fun a => ?_
    · rw [← Option.some.inj hb]
      exact Nat.succ_pos _
    · simp only [List.count_cons, beq_iff_eq, Option.map_some, Option.getD_some]
      split_ifs <;> omega
  · refine stays_setSv hbody fun _ hb => ?_
    rw [← Option.some.inj hb]

theorem Counted.refcntDec (h : Counted w shares (sv :: hand)) :
    ∃ w', w.refcntDec sv = some w' ∧ Counted w' shares hand ∧ Stays w w' ∧
      w'.buckets = w.buckets ∧ w'.svs.length = w.svs.length := by
  obtain ⟨body, hbody⟩ := h.exists_sv List.mem_cons_self
  have hpos := (h.refcnt sv body hbody).2
  rw [BucketWorld.refcntDec, hbody, Option.bind_some, if_neg hpos.ne']
  split_ifs with hone
  · refine ⟨_, rfl, h.setSv hbody none (fun _ hb => by cases hb) fun a => ?_,
      stays_setSv hbody (fun _ hb => by cases hb), rfl, List.length_set⟩
    simp only [List.count_cons, beq_iff_eq, Option.map_none, Option.getD_none]
    split_ifs <;> omega
  · refine ⟨_, rfl, h.setSv hbody _ (fun _ hb => ?_) fun a => ?_,
      stays_setSv hbody (fun _ hb => ?_), rfl, List.length_set⟩
    · rw [← Option.some.inj hb]
      simp only
      omega
    · simp only [List.count_cons, beq_iff_eq, Option.map_some, Option.getD_some]
      split_ifs <;> omega
    · rw [← Option.some.inj hb]

/-- A shared body is replaced by one with as many shares more or less as there are at hand
and in buckets, or destroyed with the last of them, which leaves its reference. -/
theorem Counted.setShared (h : Counted w shares hand) {shares' hand' : List Nat}
    {buckets' : Arena AprBucket} (hshared : w.shared.get? data = some svbucket)
    (o : Option SvBucket) (hpos : ∀ svbucket' ∈ o, 0 < svbucket'.refcount)
    (hhand : ∀ a, hand'.count a + (o.map SvBucket.sv).toList.count a =
      hand.count a + [svbucket.sv].count a)
    (hcount : ∀ a, (shares' ++ buckets'.refs dataOf).count a +
        (if data = a then svbucket.refcount else 0) =
      (shares ++ w.buckets.refs dataOf).count a +
        (if data = a then (o.map SvBucket.refcount).getD 0 else 0))
    (hinside : ∀ b bucket, buckets'.get? b = some bucket → Inside bucket) :
    Counted { w with shared := w.shared.set data o, buckets := buckets' } shares' hand' := by
  have hget := Arena.get?_set (Arena.lt_length hshared) o
  set w' : BucketWorld := { w with shared := w.shared.set data o, buckets := buckets' } with hw'
  have hholders : ∀ a, (w'.holders hand').count a = (w.holders hand).count a := by
    intro a
    have hset := Arena.count_refs_set (fun s : SvBucket => some s.sv) hshared o a
    have hhand' := hhand a
    rw [show (o.bind fun s : SvBucket => some s.sv) = o.map SvBucket.sv from
      (Option.map_eq_bind).symm ▸ rfl, Option.toList_some] at hset
    simp only [hw', holders, List.count_append] at hset ⊢
    omega
  refine ⟨fun sv body hbody => ?_, fun sv hgone => ?_, fun d s hs => ?_, fun d hgone => ?_, hinside⟩
  · rw [hholders]
    exact h.refcnt sv body hbody
  · rw [← List.count_eq_zero, hholders, List.count_eq_zero]
    exact h.gone sv hgone
  · have hsum := hcount d
    have hbefore := (h.refcount data svbucket hshared).1
    rw [show w'.buckets = buckets' from rfl]
    change Arena.get? (w.shared.set data o) d = some s at hs
    rw [hget] at hs
    split_ifs at hs with heq
    · subst heq
      rw [if_pos rfl, if_pos rfl, hs] at hsum
      exact ⟨by simp only [Option.map_some, Option.getD_some] at hsum; omega, hpos s hs⟩
    · rw [if_neg heq, if_neg heq] at hsum
      obtain ⟨hsame, hpos'⟩ := h.refcount d s hs
      exact ⟨by omega, hpos'⟩
  · have hsum := hcount d
    have hbefore := (h.refcount data svbucket hshared).1
    rw [show w'.buckets = buckets' from rfl]
    change Arena.get? (w.shared.set data o) d = none at hgone
    rw [hget] at hgone
    refine List.count_eq_zero.mp ?_
    split_ifs at hgone with heq
    · subst heq
      rw [if_pos rfl, if_pos rfl, hgone] at hsum
      simp only [Option.map_none, Option.getD_none] at hsum
      omega
    · rw [if_neg heq, if_neg heq] at hsum
      have hzero := List.count_eq_zero.mpr (h.destroyed d hgone)
      omega

theorem stays_setShared (hshared : w.shared.get? data = some svbucket) {o : Option SvBucket}
    (hsv : ∀ svbucket' ∈ o, svbucket'.sv = svbucket.sv) (buckets' : Arena AprBucket) :
    Stays w { w with shared := w.shared.set data o, buckets := buckets' } := by
  refine ⟨Nat.le_refl _, by simp, fun _ _ body hbody => ⟨body, hbody, rfl⟩, fun d _ s hs => ?_⟩
  change Arena.get? (w.shared.set data o) d = some s at hs
  rw [Arena.get?_set (Arena.lt_length hshared)] at hs
  split_ifs at hs with heq
  · subst heq
    exact ⟨svbucket, hshared, hsv s hs⟩
  · exact ⟨s, hs, rfl⟩

/-- A share that is given up: the last one takes the body with it, and a reference to the
scalar. -/
theorem Counted.svDestroy (h : Counted w (data :: shares) hand) :
    ∃ w', w.svDestroy data = some w' ∧ Counted w' shares hand ∧ Stays w w' ∧
      w'.buckets = w.buckets ∧ w'.svs.length = w.svs.length := by
  obtain ⟨svbucket, hshared⟩ : ∃ svbucket, w.shared.get? data = some svbucket := by
    by_contra hnone
    refine h.destroyed data (Option.eq_none_iff_forall_ne_some.mpr fun svbucket hshared =>
      hnone ⟨svbucket, hshared⟩) List.mem_cons_self
  have hpos := (h.refcount data svbucket hshared).2
  rw [BucketWorld.svDestroy, hshared, Option.bind_some, if_neg hpos.ne']
  split_ifs with hone
  · have hlast : Counted { w with shared := w.shared.set data none } shares
        (svbucket.sv :: hand) := by
      refine h.setShared hshared none (fun _ hs => by cases hs) (fun a => ?_) (fun a => ?_) h.inside
      · simp [List.count_cons]
      · simp only [List.cons_append, List.count_cons, beq_iff_eq, Option.map_none, Option.getD_none]
        split_ifs <;> omega
    obtain ⟨w', hdec, hcounted, hstays, hbuckets, hlength⟩ := hlast.refcntDec
    exact ⟨w', hdec, hcounted,
      (stays_setShared hshared (fun _ hs => by cases hs) w.buckets).trans hstays, hbuckets, hlength⟩
  · refine ⟨_, rfl, h.setShared hshared _ (fun _ hs => ?_) (fun a => ?_) (fun a => ?_) h.inside,
      stays_setShared hshared (fun _ hs => ?_) w.buckets, rfl, rfl⟩
    · rw [← Option.some.inj hs]
      simp only
      omega
    · simp
    · simp only [List.cons_append, List.count_cons, beq_iff_eq, Option.map_some, Option.getD_some]
      split_ifs <;> omega
    · rw [← Option.some.inj hs]

/-! ## Buckets -/

/-- The unsigned sum is exact inside a string. -/
theorem Inside.toNat_sum (h : Inside bucket) :
    ((sum bucket.start bucket.length).toNat : Int) =
      bucket.start.toInt + bucket.length.toNat := by
  have hconv := toNat_toUInt64 bucket.start
  unfold Inside at h
  rw [sum, UInt64.toNat_add]
  omega

theorem toInt_toInt64 {x : UInt64} (h : x.toNat < 2 ^ 63) : x.toInt64.toInt = x.toNat := by
  rw [← Int64.toInt_toBitVec]
  change x.toBitVec.toInt = _
  rw [BitVec.toInt_eq_toNat_of_lt (by rw [UInt64.toNat_toBitVec]; omega)]
  rfl

/-- Where the second part of a bucket starts. -/
theorem Inside.toInt_split (h : Inside bucket) {point : UInt64}
    (hpoint : point.toNat ≤ bucket.length.toNat) :
    (sum bucket.start point).toInt64.toInt = bucket.start.toInt + point.toNat := by
  unfold Inside at h
  have hpart : Inside ⟨bucket.data, bucket.start, point⟩ := ⟨h.1, by simp only; omega⟩
  have hsum := hpart.toNat_sum
  simp only at hsum
  rw [toInt_toInt64 (by omega), hsum]

theorem Inside.halves (h : Inside bucket) {point : UInt64} (hpoint : ¬point > bucket.length) :
    Inside (BucketWorld.halves bucket point).1 ∧ Inside (BucketWorld.halves bucket point).2 := by
  have hle : point.toNat ≤ bucket.length.toNat := by
    rw [gt_iff_lt, UInt64.lt_iff_toNat_lt] at hpoint
    omega
  have hsub : (bucket.length - point).toNat = bucket.length.toNat - point.toNat :=
    UInt64.toNat_sub_of_le _ _ (UInt64.le_iff_toNat_le.mpr hle)
  have hsplit := h.toInt_split hle
  unfold Inside at h ⊢
  unfold BucketWorld.halves
  cases hdata : bucket.data with
  | pool bytes =>
      simp only [Int64.toInt_zero, hsub]
      omega
  | sv data =>
      simp only [hsub, hsplit]
      omega

/-- The bytes that a string has at the part of a bucket, if it is long enough. -/
def partOf (bytes : Bytes) (bucket : AprBucket) : Except Status Bytes :=
  if bucket.start.toInt.toNat + bucket.length.toNat ≤ bytes.length then
    .ok ((bytes.drop bucket.start.toInt.toNat).take bucket.length.toNat)
  else .error aprEgeneral

/-- A read of a bucket whose part is one of a string stays inside the string. -/
theorem Inside.read (h : Inside bucket) (body : StringSv) :
    (if UInt64.ofNat body.bytes.length < sum bucket.start bucket.length then
        some (.error aprEgeneral)
      else (slice body.bytes bucket.start bucket.length).map Except.ok) =
    some (partOf body.bytes bucket) := by
  have hsum := h.toNat_sum
  have hlt := body.length_lt
  unfold Inside at h
  have hlength : (UInt64.ofNat body.bytes.length).toNat = body.bytes.length := by
    rw [UInt64.toNat_ofNat']
    omega
  unfold partOf
  by_cases hfits : bucket.start.toInt.toNat + bucket.length.toNat ≤ body.bytes.length
  · have hshort : ¬UInt64.ofNat body.bytes.length < sum bucket.start bucket.length := by
      rw [UInt64.lt_iff_toNat_lt, hlength]
      omega
    rw [if_neg hshort, if_pos hfits, slice, if_pos ⟨h.1, by omega⟩]
    rfl
  · have hshort : UInt64.ofNat body.bytes.length < sum bucket.start bucket.length := by
      rw [UInt64.lt_iff_toNat_lt, hlength]
      omega
    rw [if_pos hshort, if_neg hfits]

/-- The body that a bucket shares is there. -/
theorem Counted.exists_shared (h : Counted w shares hand) (hbucket : w.buckets.get? b = some bucket)
    (hdata : bucket.data = .sv data) : ∃ svbucket, w.shared.get? data = some svbucket := by
  by_contra hnone
  have hmem : data ∈ w.buckets.refs dataOf :=
    Arena.mem_refs.mpr ⟨b, bucket, hbucket, by rw [dataOf, hdata]⟩
  exact h.destroyed data (Option.eq_none_iff_forall_ne_some.mpr fun svbucket hshared =>
    hnone ⟨svbucket, hshared⟩) (List.mem_append_right _ hmem)

/-- A bucket can be read: of a scalar, what it has there now. -/
theorem Counted.read (h : Counted w shares hand) (hbucket : w.buckets.get? b = some bucket) :
    ∃ res, w.read b = some res ∧
      match bucket.data with
      | .pool bytes => res = .ok bytes
      | .sv data => ∃ svbucket body, w.shared.get? data = some svbucket ∧
          w.svs.get? svbucket.sv = some body ∧ res = partOf body.bytes bucket := by
  unfold BucketWorld.read
  rw [hbucket, Option.bind_some]
  cases hdata : bucket.data with
  | pool bytes => exact ⟨_, rfl, rfl⟩
  | sv data =>
      obtain ⟨svbucket, hshared⟩ := h.exists_shared hbucket hdata
      have hheld : svbucket.sv ∈ w.holders hand := by
        refine List.mem_append_right _ (List.mem_append_right _ (List.mem_append_right _ ?_))
        exact Arena.mem_refs.mpr ⟨data, svbucket, hshared, rfl⟩
      obtain ⟨body, hbody⟩ := h.exists_sv hheld
      simp only [hshared, hbody, Option.bind_some]
      exact ⟨_, (h.inside b bucket hbucket).read body, svbucket, body, rfl, hbody, rfl⟩

/-- Two buckets of one body read their parts of one string, also after steps that leave
the strings as they are. -/
theorem Counted.read_sv (h : Counted w shares hand) {shares' hand' : List Nat}
    (h' : Counted w' shares' hand') (hstays : Stays w w') {b' : Nat} {bucket' : AprBucket}
    (hbucket : w.buckets.get? b = some bucket) (hbucket' : w'.buckets.get? b' = some bucket')
    (hdata : bucket.data = .sv data) (hdata' : bucket'.data = .sv data) :
    ∃ bytes, w.read b = some (partOf bytes bucket) ∧ w'.read b' = some (partOf bytes bucket') := by
  obtain ⟨res, hres, hspec⟩ := h.read hbucket
  obtain ⟨res', hres', hspec'⟩ := h'.read hbucket'
  rw [hdata] at hspec
  rw [hdata'] at hspec'
  obtain ⟨svbucket, body, hshared, hbody, rfl⟩ := hspec
  obtain ⟨svbucket', body', hshared', hbody', rfl⟩ := hspec'
  obtain ⟨svbucket₁, hshared₁, hsv⟩ :=
    hstays.sv data (Arena.lt_length hshared) svbucket' hshared'
  obtain rfl : svbucket = svbucket₁ := Option.some.inj (hshared.symm.trans hshared₁)
  rw [hsv] at hbody'
  obtain ⟨body₁, hbody₁, hbytes⟩ := hstays.bytes svbucket.sv (Arena.lt_length hbody) body' hbody'
  obtain rfl : body = body₁ := Option.some.inj (hbody.symm.trans hbody₁)
  exact ⟨body.bytes, hres, by rw [hres', hbytes]⟩

theorem read_pool {bytes : Bytes} (hbucket : w.buckets.get? b = some bucket)
    (hdata : bucket.data = .pool bytes) : w.read b = some (.ok bytes) := by
  rw [BucketWorld.read, hbucket, Option.bind_some, hdata]

/-- What a bucket reads stays, whatever happens to others, while the strings are the same. -/
theorem Counted.read_stays (h : Counted w shares hand) {shares' hand' : List Nat}
    (h' : Counted w' shares' hand') (hstays : Stays w w') {b' : Nat}
    (hbucket : w.buckets.get? b = some bucket) (hbucket' : w'.buckets.get? b' = some bucket) :
    w'.read b' = w.read b := by
  cases hdata : bucket.data with
  | pool bytes => rw [read_pool hbucket hdata, read_pool hbucket' hdata]
  | sv data =>
      obtain ⟨bytes, hread, hread'⟩ := h.read_sv h' hstays hbucket hbucket' hdata hdata
      rw [hread, hread']

/-- The parts of a bucket read the parts of what it reads. -/
theorem Inside.partOf_halves (h : Inside bucket) (hdata : bucket.data = .sv data) {point : UInt64}
    (hpoint : ¬point > bucket.length) {bytes part : Bytes}
    (hpart : partOf bytes bucket = .ok part) :
    partOf bytes (BucketWorld.halves bucket point).1 = .ok (part.take point.toNat) ∧
      partOf bytes (BucketWorld.halves bucket point).2 = .ok (part.drop point.toNat) := by
  have hle : point.toNat ≤ bucket.length.toNat := by
    rw [gt_iff_lt, UInt64.lt_iff_toNat_lt] at hpoint
    omega
  have hsub : (bucket.length - point).toNat = bucket.length.toNat - point.toNat :=
    UInt64.toNat_sub_of_le _ _ (UInt64.le_iff_toNat_le.mpr hle)
  have hsplit := h.toInt_split hle
  have hstart : (bucket.start.toInt + point.toNat).toNat =
      bucket.start.toInt.toNat + point.toNat := by
    have := h.1
    omega
  rw [partOf] at hpart
  split_ifs at hpart with hfits
  obtain rfl := Except.ok.inj hpart
  simp only [BucketWorld.halves, hdata, partOf, hsub, hsplit, hstart]
  rw [if_pos (by omega), if_pos (by omega), List.take_take, List.drop_take, List.drop_drop,
    Nat.min_eq_left hle]
  exact ⟨rfl, rfl⟩

/-! ## Operations -/

/-- References and shares that only change hands. -/
theorem Counted.move (h : Counted w shares hand) {shares' hand' refs' leaked' : List Nat}
    {buckets' : Arena AprBucket}
    (hhand : ∀ a, (hand' ++ (refs' ++ leaked')).count a = (hand ++ (w.refs ++ w.leaked)).count a)
    (hshares : ∀ a, (shares' ++ buckets'.refs dataOf).count a =
      (shares ++ w.buckets.refs dataOf).count a)
    (hinside : ∀ b bucket, buckets'.get? b = some bucket → Inside bucket) :
    Counted { w with refs := refs', leaked := leaked', buckets := buckets' } shares' hand' := by
  set w' : BucketWorld := { w with refs := refs', leaked := leaked', buckets := buckets' } with hw'
  have hholders : ∀ a, (w'.holders hand').count a = (w.holders hand).count a := by
    intro a
    have hcount := hhand a
    simp only [hw', holders, List.count_append] at hcount ⊢
    omega
  refine ⟨fun sv body hbody => ?_, fun sv hgone => ?_, fun d s hs => ?_, fun d hgone => ?_, hinside⟩
  · rw [hholders]
    exact h.refcnt sv body hbody
  · rw [← List.count_eq_zero, hholders, List.count_eq_zero]
    exact h.gone sv hgone
  · rw [hshares]
    exact h.refcount d s hs
  · rw [← List.count_eq_zero, hshares, List.count_eq_zero]
    exact h.destroyed d hgone

theorem stays_buckets (w : BucketWorld) (refs' leaked' : List Nat) (buckets' : Arena AprBucket) :
    Stays w { w with refs := refs', leaked := leaked', buckets := buckets' } :=
  ⟨Nat.le_refl _, Nat.le_refl _, fun _ _ body h => ⟨body, h, rfl⟩,
    fun _ _ svbucket h => ⟨svbucket, h, rfl⟩⟩

/-- A new scalar, the first reference to which is at hand. -/
theorem Counted.appendSv (h : Counted w shares hand) (body : StringSv) (hone : body.refcnt = 1) :
    Counted { w with svs := w.svs ++ [some body] } shares (w.svs.length :: hand) := by
  have hnew : (w.holders hand).count w.svs.length = 0 :=
    List.count_eq_zero.mpr (h.gone _ (Arena.get?_length w.svs))
  have hholders : ∀ a, (holders { w with svs := w.svs ++ [some body] }
      (w.svs.length :: hand)).count a =
        (w.holders hand).count a + if w.svs.length = a then 1 else 0 := by
    intro a
    simp only [holders, List.cons_append, List.count_cons, beq_iff_eq]
  refine ⟨fun sv body' hbody' => ?_, fun sv hgone => ?_, h.refcount, h.destroyed, h.inside⟩
  · rw [hholders]
    by_cases heq : sv = w.svs.length
    · subst heq
      change Arena.get? (w.svs ++ [some body]) w.svs.length = some body' at hbody'
      rw [Arena.get?_concat_length, Option.some_inj] at hbody'
      rw [← hbody', hone, hnew, if_pos rfl]
      exact ⟨rfl, Nat.one_pos⟩
    · change Arena.get? (w.svs ++ [some body]) sv = some body' at hbody'
      rw [Arena.get?_concat_of_ne _ heq] at hbody'
      rw [if_neg (Ne.symm heq)]
      exact h.refcnt sv body' hbody'
  · change Arena.get? (w.svs ++ [some body]) sv = none at hgone
    rw [← List.count_eq_zero, hholders]
    by_cases heq : sv = w.svs.length
    · subst heq
      rw [Arena.get?_concat_length] at hgone
      cases hgone
    · rw [Arena.get?_concat_of_ne _ heq] at hgone
      rw [if_neg (Ne.symm heq), List.count_eq_zero.mpr (h.gone sv hgone)]

theorem stays_appendSv (w : BucketWorld) (body : StringSv) (refs' leaked' : List Nat) :
    Stays w { w with svs := w.svs ++ [some body], refs := refs', leaked := leaked' } := by
  refine ⟨by simp, Nat.le_refl _, fun sv hlt body' hbody' => ?_, fun _ _ s hs => ⟨s, hs, rfl⟩⟩
  change Arena.get? (w.svs ++ [some body]) sv = some body' at hbody'
  rw [Arena.get?_concat_of_ne _ hlt.ne] at hbody'
  exact ⟨body', hbody', rfl⟩

theorem inside_concat {buckets : Arena AprBucket}
    (h : ∀ b bucket, buckets.get? b = some bucket → Inside bucket) (hbucket : Inside bucket) :
    ∀ b bucket', Arena.get? (buckets ++ [some bucket]) b = some bucket' → Inside bucket' := by
  intro b bucket' hb
  by_cases heq : b = buckets.length
  · subst heq
    rw [Arena.get?_concat_length, Option.some_inj] at hb
    exact hb ▸ hbucket
  · rw [Arena.get?_concat_of_ne _ heq] at hb
    exact h b bucket' hb

/-- A new bucket takes over a reference that is at hand. -/
theorem Counted.svMake (h : Counted w shares (sv :: hand)) {offset : Int64} {len : UInt64}
    (hinside : Inside ⟨.sv w.shared.length, offset, len⟩) :
    Counted (w.svMake sv offset len) shares hand := by
  have hnew : (shares ++ w.buckets.refs dataOf).count w.shared.length = 0 :=
    List.count_eq_zero.mpr (h.destroyed _ (Arena.get?_length w.shared))
  have hholders : ∀ a, ((w.svMake sv offset len).holders hand).count a =
      (w.holders (sv :: hand)).count a := by
    intro a
    simp only [BucketWorld.svMake, holders, List.count_append, List.count_cons, Arena.refs_concat,
      Option.bind_some, Option.toList_some, List.count_nil]
    omega
  have hshares : ∀ a, (shares ++ (w.svMake sv offset len).buckets.refs dataOf).count a =
      (shares ++ w.buckets.refs dataOf).count a + if w.shared.length = a then 1 else 0 := by
    intro a
    simp only [BucketWorld.svMake, List.count_append, Arena.refs_concat, Option.bind_some, dataOf,
      Option.toList_some, List.count_cons, List.count_nil, beq_iff_eq]
    omega
  refine ⟨fun sv' body hbody => ?_, fun sv' hgone => ?_, fun d s hs => ?_, fun d hgone => ?_,
    inside_concat h.inside hinside⟩
  · rw [hholders]
    exact h.refcnt sv' body hbody
  · rw [← List.count_eq_zero, hholders, List.count_eq_zero]
    exact h.gone sv' hgone
  · rw [hshares]
    change Arena.get? (w.shared ++ [some ⟨sv, 1⟩]) d = some s at hs
    by_cases heq : d = w.shared.length
    · subst heq
      rw [Arena.get?_concat_length, Option.some_inj] at hs
      rw [← hs, hnew, if_pos rfl]
      exact ⟨rfl, Nat.one_pos⟩
    · rw [Arena.get?_concat_of_ne _ heq] at hs
      rw [if_neg (Ne.symm heq)]
      exact h.refcount d s hs
  · change Arena.get? (w.shared ++ [some ⟨sv, 1⟩]) d = none at hgone
    rw [← List.count_eq_zero, hshares]
    by_cases heq : d = w.shared.length
    · subst heq
      rw [Arena.get?_concat_length] at hgone
      cases hgone
    · rw [Arena.get?_concat_of_ne _ heq] at hgone
      rw [if_neg (Ne.symm heq), List.count_eq_zero.mpr (h.destroyed d hgone)]

theorem stays_svMake (w : BucketWorld) (sv : Nat) (offset : Int64) (len : UInt64) :
    Stays w (w.svMake sv offset len) := by
  refine ⟨Nat.le_refl _, by simp [svMake], fun _ _ body hbody => ⟨body, hbody, rfl⟩,
    fun d hlt s hs => ?_⟩
  change Arena.get? (w.shared ++ [some ⟨sv, 1⟩]) d = some s at hs
  rw [Arena.get?_concat_of_ne _ hlt.ne] at hs
  exact ⟨s, hs, rfl⟩

/-- A new bucket, the scalar whose string it is in, and whether that is a new one. -/
structure Made (w w' : BucketWorld) (copied : Bool) (bytes : Bytes) (offset : Int64)
    (len : UInt64) : Prop where
  stays : Stays w w'
  svs : w'.svs.length = w.svs.length + copied.toNat
  copy : ∀ body ∈ w'.svs.get? w.svs.length, body.bytes = bytes
  bucket : ∃ data svbucket body, w'.buckets = w.buckets ++ [some ⟨.sv data, offset, len⟩] ∧
    w'.shared.get? data = some svbucket ∧ w'.svs.get? svbucket.sv = some body ∧ body.bytes = bytes

theorem Counted.svCreate (h : Counted w shares hand) (hbody : w.svs.get? sv = some body)
    (padtmp : Bool) {offset : Int64} {len : UInt64}
    (hinside : Inside ⟨.sv w.shared.length, offset, len⟩) :
    ∃ w', w.svCreate sv padtmp offset len = some w' ∧ Counted w' shares hand ∧
      Made w w' padtmp body.bytes offset len := by
  rw [BucketWorld.svCreate, hbody, Option.bind_some]
  cases padtmp with
  | true =>
      rw [if_pos rfl]
      refine ⟨_, rfl, (h.appendSv _ rfl).svMake hinside,
        (stays_appendSv w { body with refcnt := 1 } w.refs w.leaked).trans
          (stays_svMake _ _ offset len), by simp [BucketWorld.svMake], fun body' hb => ?_, ?_⟩
      · change Arena.get? (w.svs ++ [some _]) w.svs.length = some body' at hb
        rw [Arena.get?_concat_length, Option.some_inj] at hb
        rw [← hb]
      · exact ⟨w.shared.length, ⟨w.svs.length, 1⟩, { body with refcnt := 1 }, rfl,
          Arena.get?_concat_length _ _, Arena.get?_concat_length _ _, rfl⟩
  | false =>
      obtain ⟨w₁, hw₁, hcounted, hstays, hbuckets, hshared, hlength⟩ := h.refcntInc hbody
      rw [if_neg Bool.false_ne_true, hw₁, Option.map_some]
      refine ⟨_, rfl, hcounted.svMake (hshared ▸ hinside),
        hstays.trans (stays_svMake w₁ sv offset len), hlength, fun body' hb => ?_, ?_⟩
      · change w₁.svs.get? w.svs.length = some body' at hb
        rw [← hlength, Arena.get?_length] at hb
        cases hb
      · obtain ⟨body₁, hbody₁⟩ := hcounted.exists_sv List.mem_cons_self
        obtain ⟨body', hbody', hbytes⟩ := hstays.bytes sv (Arena.lt_length hbody) body₁ hbody₁
        obtain rfl : body = body' := Option.some.inj (hbody.symm.trans hbody')
        exact ⟨w₁.shared.length, ⟨sv, 1⟩, body₁, by rw [← hbuckets]; rfl,
          Arena.get?_concat_length _ _, hbody₁, hbytes⟩

/-- The part of a string that `APR::Bucket->new` is for; none if it croaks. -/
def newPart (bytes : Bytes) (offset len : Nat) : Option Bytes :=
  if len ≠ 0 then
    if bytes.length - offset < len then none else some ((bytes.drop offset).take len)
  else some (bytes.drop offset)

theorem Counted.bucketNew (h : Counted w shares hand) (hbody : w.svs.get? sv = some body)
    (padtmp : Bool) {offset : Int64} (len : UInt64) (hnonneg : 0 ≤ offset.toInt)
    (hle : offset.toInt ≤ body.bytes.length) :
    ∃ w', w.bucketNew sv padtmp offset len = some w' ∧ Counted w' shares hand ∧
      (w' = w ∧ newPart body.bytes offset.toInt.toNat len.toNat = none ∨
        ∃ len', Made w w' padtmp body.bytes offset len' ∧
          offset.toInt + len'.toNat ≤ body.bytes.length ∧
          newPart body.bytes offset.toInt.toNat len.toNat =
            some ((body.bytes.drop offset.toInt.toNat).take len'.toNat)) := by
  have hlt := body.length_lt
  have hconv := toNat_toUInt64 offset
  have hlength : (UInt64.ofNat body.bytes.length).toNat = body.bytes.length := by
    rw [UInt64.toNat_ofNat']
    omega
  have havail : (UInt64.ofNat body.bytes.length - offset.toUInt64).toNat =
      body.bytes.length - offset.toInt.toNat := by
    rw [UInt64.toNat_sub_of_le _ _ (UInt64.le_iff_toNat_le.mpr (by omega)), hlength]
    omega
  have hzero : len ≠ 0 ↔ len.toNat ≠ 0 := by
    rw [Ne, ← UInt64.toNat_inj]
    rfl
  have hcreate : ∀ len' : UInt64, offset.toInt + len'.toNat ≤ body.bytes.length →
      ∃ w', w.svCreate sv padtmp offset len' = some w' ∧ Counted w' shares hand ∧
        Made w w' padtmp body.bytes offset len' := fun len' hfits =>
    h.svCreate hbody padtmp ⟨hnonneg, by simp only; omega⟩
  rw [BucketWorld.bucketNew, hbody, Option.bind_some]
  unfold newPart
  simp only [hzero, gt_iff_lt, UInt64.lt_iff_toNat_lt, havail]
  split_ifs with hpos hlong
  · exact ⟨w, rfl, h, .inl ⟨rfl, rfl⟩⟩
  · obtain ⟨w', hw', hcounted, hmade⟩ := hcreate len (by omega)
    exact ⟨w', hw', hcounted, .inr ⟨len, hmade, by omega, rfl⟩⟩
  · obtain ⟨w', hw', hcounted, hmade⟩ := hcreate _ (by rw [havail]; omega)
    refine ⟨w', hw', hcounted, .inr ⟨_, hmade, by rw [havail]; omega, ?_⟩⟩
    rw [havail, List.take_of_length_le (by rw [List.length_drop])]

theorem Counted.bucketNewEmpty (h : Counted w shares hand) :
    ∃ w', w.bucketNewEmpty 0 0 = some w' ∧ Counted w' shares hand ∧
      Made w w' true [] 0 0 := by
  set w₀ : BucketWorld := { w with
    svs := w.svs ++ [some ⟨[], 1, by decide⟩]
    leaked := w.svs.length :: w.leaked } with hw₀
  have hcounted₀ : Counted w₀ shares hand := by
    refine (h.appendSv ⟨[], 1, by decide⟩ rfl).move (fun a => ?_) (fun _ => rfl) h.inside
    simp only [List.count_append, List.count_cons]
    omega
  have hinside : Inside ⟨.sv w.shared.length, 0, 0⟩ := by simp [Inside]
  obtain ⟨w', hw', hcounted, hmade⟩ :=
    hcounted₀.svCreate (Arena.get?_concat_length w.svs _) false hinside
  refine ⟨w', ?_, hcounted, (stays_appendSv w _ w.refs _).trans hmade.stays, ?_,
    fun body hb => ?_, hmade.bucket⟩
  · rw [BucketWorld.bucketNewEmpty, BucketWorld.bucketNew, ← hw₀, Arena.get?_concat_length,
      Option.bind_some]
    exact hw'
  · rw [hmade.svs, hw₀, List.length_append]
    rfl
  · obtain ⟨body₀, hbody₀, hbytes⟩ := hmade.stays.bytes w.svs.length (by simp [hw₀]) body hb
    rw [hw₀, Arena.get?_concat_length, Option.some_inj] at hbody₀
    rw [hbytes, ← hbody₀]

/-- A bucket more for a body. -/
theorem Counted.shareMore (h : Counted w shares hand) {buckets' : Arena AprBucket}
    (hshared : w.shared.get? data = some svbucket)
    (hcount : ∀ a, (buckets'.refs dataOf).count a =
      (w.buckets.refs dataOf).count a + if data = a then 1 else 0)
    (hinside : ∀ b bucket, buckets'.get? b = some bucket → Inside bucket) :
    Counted { w with
      shared := w.shared.set data (some { svbucket with refcount := svbucket.refcount + 1 })
      buckets := buckets' } shares hand := by
  refine h.setShared hshared _ (fun _ hs => ?_) (fun a => ?_) (fun a => ?_) hinside
  · rw [← Option.some.inj hs]
    exact Nat.succ_pos _
  · simp
  · simp only [List.count_append, hcount, Option.map_some, Option.getD_some]
    split_ifs <;> omega

theorem inside_set {buckets : Arena AprBucket}
    (h : ∀ b bucket, buckets.get? b = some bucket → Inside bucket) (hlt : b < buckets.length)
    {o : Option AprBucket} (ho : ∀ bucket ∈ o, Inside bucket) :
    ∀ b' bucket', Arena.get? (buckets.set b o) b' = some bucket' → Inside bucket' := by
  intro b' bucket' hb
  rw [Arena.get?_set hlt] at hb
  split_ifs at hb with heq
  · exact ho bucket' hb
  · exact h b' bucket' hb

theorem Counted.bucketCopy (h : Counted w shares hand) (hbucket : w.buckets.get? b = some bucket) :
    ∃ w', w.bucketCopy b = some w' ∧ Counted w' shares hand ∧ Stays w w' ∧
      w'.buckets = w.buckets ++ [some bucket] ∧ w'.svs.length = w.svs.length := by
  have hinside := inside_concat h.inside (h.inside b bucket hbucket)
  rw [BucketWorld.bucketCopy, hbucket, Option.bind_some]
  cases hdata : bucket.data with
  | pool bytes =>
      refine ⟨_, rfl, h.move (fun _ => rfl) (fun a => ?_) hinside,
        stays_buckets w w.refs w.leaked _, rfl, rfl⟩
      rw [Arena.refs_concat, Option.bind_some, dataOf, hdata, Option.toList_none, List.append_nil]
  | sv data =>
      obtain ⟨svbucket, hshared⟩ := h.exists_shared hbucket hdata
      simp only [hshared, Option.map_some]
      refine ⟨_, rfl, h.shareMore hshared (fun a => ?_) hinside,
        stays_setShared hshared (fun _ hs => ?_) _, rfl, rfl⟩
      · rw [Arena.refs_concat, Option.bind_some, dataOf, hdata, Option.toList_some,
          List.count_append, List.count_singleton]
        simp only [beq_iff_eq]
      · rw [← Option.some.inj hs]

theorem Counted.bucketSplit (h : Counted w shares hand) (hbucket : w.buckets.get? b = some bucket)
    {point : UInt64} (hpoint : ¬point > bucket.length) :
    ∃ w', w.bucketSplit b point = some w' ∧ Counted w' shares hand ∧ Stays w w' ∧
      w'.buckets = w.buckets.set b (some (halves bucket point).1) ++
        [some (halves bucket point).2] ∧ w'.svs.length = w.svs.length := by
  obtain ⟨hfirst, hsecond⟩ := (h.inside b bucket hbucket).halves hpoint
  have hinside := inside_concat (inside_set h.inside (Arena.lt_length hbucket)
    fun bucket' hb => Option.some.inj hb ▸ hfirst) hsecond
  have hcount := Arena.count_refs_set dataOf hbucket (some (halves bucket point).1)
  rw [BucketWorld.bucketSplit, hbucket, Option.bind_some, if_neg hpoint]
  cases hdata : bucket.data with
  | pool bytes =>
      refine ⟨_, rfl, h.move (fun _ => rfl) (fun a => ?_) hinside,
        stays_buckets w w.refs w.leaked _, rfl, rfl⟩
      have hcount' := hcount a
      simp only [halves, hdata, dataOf, Option.bind_some, Option.toList_none,
        List.count_nil] at hcount'
      simp only [halves, hdata, dataOf, Arena.refs_concat, Option.bind_some, Option.toList_none,
        List.append_nil, List.count_append]
      omega
  | sv data =>
      obtain ⟨svbucket, hshared⟩ := h.exists_shared hbucket hdata
      simp only [hshared, Option.map_some]
      refine ⟨_, rfl, h.shareMore hshared (fun a => ?_) hinside,
        stays_setShared hshared (fun _ hs => ?_) _, rfl, rfl⟩
      · have hcount' := hcount a
        simp only [halves, hdata, dataOf, Option.bind_some, Option.toList_some] at hcount'
        simp only [halves, hdata, dataOf, Arena.refs_concat, Option.bind_some, Option.toList_some,
          List.count_append, List.count_cons, List.count_nil, beq_iff_eq]
        omega
      · rw [← Option.some.inj hs]

theorem Counted.bucketDelete (h : Counted w shares hand)
    (hbucket : w.buckets.get? b = some bucket) :
    ∃ w', w.bucketDelete b = some w' ∧ Counted w' shares hand ∧ Stays w w' ∧
      w'.buckets = w.buckets.set b none ∧ w'.svs.length = w.svs.length := by
  have hinside := inside_set h.inside (Arena.lt_length hbucket) (o := none)
    fun bucket' hb => by cases hb
  have hcount := Arena.count_refs_set dataOf hbucket none
  rw [BucketWorld.bucketDelete, hbucket, Option.bind_some]
  cases hdata : bucket.data with
  | pool bytes =>
      refine ⟨_, rfl, h.move (fun _ => rfl) (fun a => ?_) hinside,
        stays_buckets w w.refs w.leaked _, rfl, rfl⟩
      have hcount' := hcount a
      simp only [hdata, dataOf, Option.bind_none, Option.toList_none, List.count_nil] at hcount'
      simp only [List.count_append]
      omega
  | sv data =>
      have hgiven : Counted { w with buckets := w.buckets.set b none } (data :: shares) hand := by
        refine h.move (fun _ => rfl) (fun a => ?_) hinside
        have hcount' := hcount a
        simp only [hdata, dataOf, Option.bind_none, Option.toList_none, Option.toList_some,
          List.count_nil, List.count_cons] at hcount'
        simp only [List.cons_append, List.count_cons, List.count_append]
        omega
      obtain ⟨w', hw', hcounted, hstays, hbuckets, hlength⟩ := hgiven.svDestroy
      exact ⟨w', hw', hcounted, (stays_buckets w w.refs w.leaked _).trans hstays, hbuckets, hlength⟩

/-- A bucket that is set aside has its own bytes, unless it cannot be read. -/
theorem Counted.bucketSetaside (h : Counted w shares hand)
    (hbucket : w.buckets.get? b = some bucket) :
    ∃ w', w.bucketSetaside b = some w' ∧ Counted w' shares hand ∧ Stays w w' ∧
      (w'.buckets = w.buckets ∨ ∃ bytes, w.read b = some (.ok bytes) ∧
        w'.buckets = w.buckets.set b (some ⟨.pool bytes, 0, bucket.length⟩)) ∧
      w'.svs.length = w.svs.length := by
  rw [BucketWorld.bucketSetaside, hbucket, Option.bind_some]
  cases hdata : bucket.data with
  | pool bytes => exact ⟨w, rfl, h, .refl w, .inl rfl, rfl⟩
  | sv data =>
      obtain ⟨res, hres, -⟩ := h.read hbucket
      simp only [hres, Option.bind_some]
      cases res with
      | error status => exact ⟨w, rfl, h, .refl w, .inl rfl, rfl⟩
      | ok bytes =>
          have hcount := Arena.count_refs_set dataOf hbucket
            (some ⟨.pool bytes, 0, bucket.length⟩)
          have hbound := h.inside b bucket hbucket
          have hgiven : Counted { w with
              buckets := w.buckets.set b (some ⟨.pool bytes, 0, bucket.length⟩) }
              (data :: shares) hand := by
            refine h.move (fun _ => rfl) (fun a => ?_) (inside_set h.inside
              (Arena.lt_length hbucket) fun bucket' hb => Option.some.inj hb ▸ ?_)
            · have hcount' := hcount a
              simp only [hdata, dataOf, Option.bind_some, Option.toList_none, Option.toList_some,
                List.count_nil, List.count_cons] at hcount'
              simp only [List.cons_append, List.count_cons, List.count_append]
              omega
            · unfold Inside at hbound ⊢
              simp only [Int64.toInt_zero]
              omega
          obtain ⟨w', hw', hcounted, hstays, hbuckets, hlength⟩ := hgiven.svDestroy
          exact ⟨w', hw', hcounted, (stays_buckets w w.refs w.leaked _).trans hstays,
            .inr ⟨bytes, rfl, hbuckets⟩, hlength⟩

/-! ## Runs -/

instance : DecidableRel Legal
  | _, .newSv bytes => inferInstanceAs (Decidable (bytes.length < 2 ^ 63))
  | w, .assign sv bytes => inferInstanceAs (Decidable (sv ∈ w.refs ∧ bytes.length < 2 ^ 63))
  | w, .hold sv => inferInstanceAs (Decidable (sv ∈ w.refs))
  | w, .release sv => inferInstanceAs (Decidable (sv ∈ w.refs))
  | w, .bucketNew sv _ offset _ => inferInstanceAs (Decidable (sv ∈ w.refs ∧
      ∀ body ∈ w.svs.get? sv, 0 ≤ offset.toInt ∧ offset.toInt ≤ body.bytes.length))
  | _, .bucketNewEmpty => inferInstanceAs (Decidable True)
  | w, .copy b => inferInstanceAs (Decidable ((w.buckets.get? b).isSome = true))
  | w, .split b _ => inferInstanceAs (Decidable ((w.buckets.get? b).isSome = true))
  | w, .delete b => inferInstanceAs (Decidable ((w.buckets.get? b).isSome = true))
  | w, .setaside b => inferInstanceAs (Decidable ((w.buckets.get? b).isSome = true))

theorem Counted.init : Counted BucketWorld.init [] [] where
  refcnt _ _ h := by cases h
  gone _ _ := List.not_mem_nil
  refcount _ _ h := by cases h
  destroyed _ _ := List.not_mem_nil
  inside _ _ h := by cases h

theorem mem_holders_of_refs (hsv : sv ∈ w.refs) : sv ∈ w.holders hand :=
  List.mem_append_right _ (List.mem_append_left _ hsv)

/-- Another string for a scalar. -/
theorem Counted.assign (h : Counted w shares hand) (hbody : w.svs.get? sv = some body)
    (bytes : Bytes) (hlt : bytes.length < 2 ^ 63) :
    Counted { w with svs := w.svs.set sv (some ⟨bytes, body.refcnt, hlt⟩) } shares hand := by
  refine h.setSv hbody _ (fun _ hb => ?_) fun a => rfl
  rw [← Option.some.inj hb]
  exact (h.refcnt sv body hbody).2

/-- A reference of Perl's is taken in hand. -/
theorem Counted.release (h : Counted w shares hand) (hsv : sv ∈ w.refs) :
    Counted { w with refs := w.refs.erase sv } shares (sv :: hand) := by
  refine h.move (fun a => ?_) (fun _ => rfl) h.inside
  have hcount := (List.perm_cons_erase hsv).count_eq a
  simp only [List.count_append, List.count_cons, List.cons_append] at hcount ⊢
  omega

/-- Each legal step is possible, and the counts are those of the references after it. -/
theorem Counted.step (h : Counted w [] []) {a : Act} (ha : w.Legal a) :
    ∃ w', w.step a = some w' ∧ Counted w' [] [] := by
  cases a with
  | newSv bytes =>
      have hlt : bytes.length < 2 ^ 63 := ha
      rw [BucketWorld.step, dif_pos hlt]
      refine ⟨_, rfl, (h.appendSv ⟨bytes, 1, hlt⟩ rfl).move (fun a => ?_) (fun _ => rfl)
        h.inside⟩
      simp only [List.nil_append, List.count_append, List.count_cons, List.cons_append]
  | assign sv bytes =>
      obtain ⟨body, hbody⟩ := h.exists_sv (mem_holders_of_refs ha.1)
      rw [BucketWorld.step, dif_pos ha.2, hbody]
      exact ⟨_, rfl, h.assign hbody bytes ha.2⟩
  | hold sv =>
      obtain ⟨body, hbody⟩ := h.exists_sv (mem_holders_of_refs ha)
      obtain ⟨w', hw', hcounted, -⟩ := h.refcntInc hbody
      rw [BucketWorld.step, hw', Option.map_some]
      refine ⟨_, rfl, hcounted.move (fun a => ?_) (fun _ => rfl) hcounted.inside⟩
      simp only [List.nil_append, List.count_append, List.count_cons, List.cons_append]
  | release sv =>
      obtain ⟨w', hw', hcounted, -⟩ := (h.release ha).refcntDec
      exact ⟨w', hw', hcounted⟩
  | bucketNew sv padtmp offset len =>
      obtain ⟨body, hbody⟩ := h.exists_sv (mem_holders_of_refs ha.1)
      obtain ⟨hnonneg, hle⟩ := ha.2 body hbody
      obtain ⟨w', hw', hcounted, -⟩ := h.bucketNew hbody padtmp len hnonneg hle
      exact ⟨w', hw', hcounted⟩
  | bucketNewEmpty =>
      obtain ⟨w', hw', hcounted, -⟩ := h.bucketNewEmpty
      exact ⟨w', hw', hcounted⟩
  | copy b =>
      obtain ⟨bucket, hbucket⟩ := Option.isSome_iff_exists.mp ha
      obtain ⟨w', hw', hcounted, -⟩ := h.bucketCopy hbucket
      exact ⟨w', hw', hcounted⟩
  | split b point =>
      obtain ⟨bucket, hbucket⟩ := Option.isSome_iff_exists.mp ha
      by_cases hpoint : point > bucket.length
      · exact ⟨w, by rw [BucketWorld.step, BucketWorld.bucketSplit, hbucket, Option.bind_some,
          if_pos hpoint], h⟩
      · obtain ⟨w', hw', hcounted, -⟩ := h.bucketSplit hbucket hpoint
        exact ⟨w', hw', hcounted⟩
  | delete b =>
      obtain ⟨bucket, hbucket⟩ := Option.isSome_iff_exists.mp ha
      obtain ⟨w', hw', hcounted, -⟩ := h.bucketDelete hbucket
      exact ⟨w', hw', hcounted⟩
  | setaside b =>
      obtain ⟨bucket, hbucket⟩ := Option.isSome_iff_exists.mp ha
      obtain ⟨w', hw', hcounted, -⟩ := h.bucketSetaside hbucket
      exact ⟨w', hw', hcounted⟩

theorem Counted.of_reachable (h : Reachable BucketWorld.step Legal BucketWorld.init w) :
    Counted w [] [] := by
  refine h.invariant (I := fun w => Counted w [] []) .init fun w a w' _ hcounted ha hw => ?_
  obtain ⟨w₁, hw₁, hcounted₁⟩ := hcounted.step ha
  rw [hw, Option.some_inj] at hw₁
  exact hw₁ ▸ hcounted₁

/-! ## Buckets as strings -/

/-- What scalars and buckets are for their users: strings of their own.  The copy of a
scalar that belongs to perl is one more string. -/
structure Strings where
  scalars : List Bytes
  buckets : Arena Bytes
  deriving DecidableEq

/-- The calls, on strings. -/
def Strings.step (s : Strings) : Act → Strings
  | .newSv bytes => { s with scalars := s.scalars ++ [bytes] }
  | .assign sv bytes => { s with scalars := s.scalars.set sv bytes }
  | .hold _ => s
  | .release _ => s
  | .bucketNew sv padtmp offset len =>
      match s.scalars[sv]? with
      | none => s
      | some bytes =>
          match newPart bytes offset.toInt.toNat len.toNat with
          | none => s
          | some part =>
              ⟨if padtmp then s.scalars ++ [bytes] else s.scalars, s.buckets ++ [some part]⟩
  | .bucketNewEmpty => ⟨s.scalars ++ [[]], s.buckets ++ [some []]⟩
  | .copy b => { s with buckets := s.buckets ++ [s.buckets.get? b] }
  | .split b point =>
      match s.buckets.get? b with
      | none => s
      | some bytes =>
          if bytes.length < point.toNat then s
          else
            { s with
              buckets :=
                s.buckets.set b (some (bytes.take point.toNat)) ++ [some (bytes.drop point.toNat)] }
  | .delete b => { s with buckets := s.buckets.set b none }
  | .setaside _ => s

/-- No string is assigned to a scalar that buckets share. -/
def Unshared (w : BucketWorld) : Act → Prop
  | .assign sv _ => sv ∉ w.shared.refs fun svbucket => some svbucket.sv
  | _ => True

instance : DecidableRel Unshared
  | w, .assign sv _ =>
      inferInstanceAs (Decidable (sv ∉ w.shared.refs fun svbucket => some svbucket.sv))
  | _, .newSv _ => inferInstanceAs (Decidable True)
  | _, .hold _ => inferInstanceAs (Decidable True)
  | _, .release _ => inferInstanceAs (Decidable True)
  | _, .bucketNew .. => inferInstanceAs (Decidable True)
  | _, .bucketNewEmpty => inferInstanceAs (Decidable True)
  | _, .copy _ => inferInstanceAs (Decidable True)
  | _, .split .. => inferInstanceAs (Decidable True)
  | _, .delete _ => inferInstanceAs (Decidable True)
  | _, .setaside _ => inferInstanceAs (Decidable True)

/-- The scalars that are there have these strings. -/
structure HasStrings (w : BucketWorld) (scalars : List Bytes) : Prop where
  length : scalars.length = w.svs.length
  bytes : ∀ sv body, w.svs.get? sv = some body → scalars[sv]? = some body.bytes

/-- The buckets that are there read these strings. -/
structure Reads (w : BucketWorld) (contents : Arena Bytes) : Prop where
  length : contents.length = w.buckets.length
  deleted : ∀ b, w.buckets.get? b = none → contents.get? b = none
  read : ∀ b bucket, w.buckets.get? b = some bucket → ∃ bytes, contents.get? b = some bytes ∧
    w.read b = some (.ok bytes) ∧ bytes.length = bucket.length.toNat

theorem HasStrings.stays {scalars : List Bytes} (h : HasStrings w scalars) (hstays : Stays w w')
    (hlength : w'.svs.length = w.svs.length) : HasStrings w' scalars := by
  refine ⟨h.length.trans hlength.symm, fun sv body' hbody' => ?_⟩
  obtain ⟨body, hbody, hbytes⟩ :=
    hstays.bytes sv (hlength ▸ Arena.lt_length hbody') body' hbody'
  rw [hbytes]
  exact h.bytes sv body hbody

/-- A new scalar has the next string. -/
theorem HasStrings.append {scalars : List Bytes} (h : HasStrings w scalars) (hstays : Stays w w')
    {bytes : Bytes} (hlength : w'.svs.length = w.svs.length + 1)
    (hnew : ∀ body ∈ w'.svs.get? w.svs.length, body.bytes = bytes) :
    HasStrings w' (scalars ++ [bytes]) := by
  refine ⟨by rw [List.length_append, h.length, hlength]; rfl, fun sv body' hbody' => ?_⟩
  have hlt := Arena.lt_length hbody'
  rcases Nat.lt_or_eq_of_le (Nat.le_of_lt_succ (hlength ▸ hlt)) with hold | rfl
  · obtain ⟨body, hbody, hbytes⟩ := hstays.bytes sv hold body' hbody'
    rw [List.getElem?_append_left (h.length ▸ hold), hbytes]
    exact h.bytes sv body hbody
  · rw [← h.length, List.getElem?_concat_length, hnew body' hbody']

/-- Each bucket is as it was, or deleted, or reads a string that is said. -/
theorem Reads.update {contents contents' : Arena Bytes} (h : Reads w contents)
    (hcounted : Counted w shares hand) {shares' hand' : List Nat}
    (hcounted' : Counted w' shares' hand') (hstays : Stays w w')
    (hlength : contents'.length = w'.buckets.length)
    (hcell : ∀ b, w'.buckets.get? b = w.buckets.get? b ∧ contents'.get? b = contents.get? b ∨
      w'.buckets.get? b = none ∧ contents'.get? b = none ∨
      ∃ bucket bytes, w'.buckets.get? b = some bucket ∧ contents'.get? b = some bytes ∧
        w'.read b = some (.ok bytes) ∧ bytes.length = bucket.length.toNat) :
    Reads w' contents' := by
  refine ⟨hlength, fun b hdeleted => ?_, fun b bucket hbucket => ?_⟩
  · obtain ⟨hsame, hcontents⟩ | ⟨-, hcontents⟩ | ⟨bucket, bytes, hbucket, -⟩ := hcell b
    · rw [hcontents]
      exact h.deleted b (hsame ▸ hdeleted)
    · exact hcontents
    · rw [hdeleted] at hbucket
      cases hbucket
  · obtain ⟨hsame, hcontents⟩ | ⟨hnone, -⟩ |
      ⟨bucket', bytes, hbucket', hcontents, hread, hlen⟩ := hcell b
    · have hbefore := hsame ▸ hbucket
      obtain ⟨bytes, hbytes, hread, hlen⟩ := h.read b bucket hbefore
      exact ⟨bytes, hcontents ▸ hbytes,
        (hcounted.read_stays hcounted' hstays hbefore hbucket).trans hread, hlen⟩
    · rw [hnone] at hbucket
      cases hbucket
    · obtain rfl : bucket = bucket' := Option.some.inj (hbucket.symm.trans hbucket')
      exact ⟨bytes, hcontents, hread, hlen⟩

theorem Reads.stays {contents : Arena Bytes} (h : Reads w contents)
    (hcounted : Counted w shares hand) {shares' hand' : List Nat}
    (hcounted' : Counted w' shares' hand') (hstays : Stays w w')
    (hbuckets : w'.buckets = w.buckets) :
    Reads w' contents :=
  h.update hcounted hcounted' hstays (by rw [hbuckets, h.length]) fun b =>
    .inl ⟨by rw [hbuckets], rfl⟩

/-- A bucket more. -/
theorem Reads.concat {contents : Arena Bytes} (h : Reads w contents)
    (hcounted : Counted w shares hand) {shares' hand' : List Nat}
    (hcounted' : Counted w' shares' hand') (hstays : Stays w w')
    (hbuckets : w'.buckets = w.buckets ++ [some bucket]) {bytes : Bytes}
    (hread : w'.read w.buckets.length = some (.ok bytes))
    (hlength : bytes.length = bucket.length.toNat) : Reads w' (contents ++ [some bytes]) := by
  refine h.update hcounted hcounted' hstays (by simp [hbuckets, h.length]) fun b => ?_
  by_cases heq : b = w.buckets.length
  · subst heq
    refine .inr (.inr ⟨bucket, bytes, ?_, ?_, hread, hlength⟩)
    · rw [hbuckets, Arena.get?_concat_length]
    · rw [← h.length, Arena.get?_concat_length]
  · refine .inl ⟨?_, ?_⟩
    · rw [hbuckets, Arena.get?_concat_of_ne _ heq]
    · rw [Arena.get?_concat_of_ne _ (h.length ▸ heq)]

/-- The new bucket reads its part of the string. -/
theorem Made.read {copied : Bool} {bytes : Bytes} {offset : Int64} {len : UInt64}
    (h : Made w w' copied bytes offset len) (hcounted : Counted w' shares hand)
    (hnonneg : 0 ≤ offset.toInt) (hfits : offset.toInt + len.toNat ≤ bytes.length) :
    w'.read w.buckets.length = some (.ok ((bytes.drop offset.toInt.toNat).take len.toNat)) := by
  obtain ⟨data, svbucket, body, hbuckets, hshared, hbody, rfl⟩ := h.bucket
  have hbucket : w'.buckets.get? w.buckets.length = some ⟨.sv data, offset, len⟩ := by
    rw [hbuckets, Arena.get?_concat_length]
  obtain ⟨res, hres, svbucket', body', hshared', hbody', rfl⟩ := hcounted.read hbucket
  obtain rfl : svbucket = svbucket' := Option.some.inj (hshared.symm.trans hshared')
  obtain rfl : body = body' := Option.some.inj (hbody.symm.trans hbody')
  rw [hres, partOf, if_pos (by simp only; omega)]

theorem Reads.made {contents : Arena Bytes} (h : Reads w contents)
    (hcounted : Counted w shares hand) (hcounted' : Counted w' shares hand) {copied : Bool}
    {bytes : Bytes} {offset : Int64} {len : UInt64} (hmade : Made w w' copied bytes offset len)
    (hnonneg : 0 ≤ offset.toInt) (hfits : offset.toInt + len.toNat ≤ bytes.length) :
    Reads w' (contents ++ [some ((bytes.drop offset.toInt.toNat).take len.toNat)]) := by
  obtain ⟨data, svbucket, body, hbuckets, -⟩ := hmade.bucket
  refine h.concat hcounted hcounted' hmade.stays hbuckets
    (hmade.read hcounted' hnonneg hfits) ?_
  rw [List.length_take, List.length_drop]
  simp only
  omega

theorem HasStrings.made {scalars : List Bytes} (h : HasStrings w scalars) {copied : Bool}
    {bytes : Bytes} {offset : Int64} {len : UInt64} (hmade : Made w w' copied bytes offset len) :
    HasStrings w' (if copied then scalars ++ [bytes] else scalars) := by
  cases copied with
  | true => exact h.append hmade.stays hmade.svs hmade.copy
  | false => exact h.stays hmade.stays hmade.svs

/-- A string that is assigned to a scalar that no bucket shares is read by none. -/
theorem Reads.assign {contents : Arena Bytes} (h : Reads w contents)
    (hbody : w.svs.get? sv = some body) (bytes : Bytes) (hlt : bytes.length < 2 ^ 63)
    (hunshared : sv ∉ w.shared.refs fun svbucket => some svbucket.sv) :
    Reads { w with svs := w.svs.set sv (some ⟨bytes, body.refcnt, hlt⟩) } contents := by
  refine ⟨h.length, h.deleted, fun b bucket hbucket => ?_⟩
  obtain ⟨part, hpart, hread, hlength⟩ := h.read b bucket hbucket
  refine ⟨part, hpart, ?_, hlength⟩
  rw [← hread]
  unfold BucketWorld.read
  cases hdata : bucket.data with
  | pool bytes' => simp only [hbucket, Option.bind_some, hdata]
  | sv data =>
      cases hshared : w.shared.get? data with
      | none => simp only [hbucket, hshared, hdata, Option.bind_some, Option.bind_none]
      | some svbucket =>
          have hne : sv ≠ svbucket.sv := by
            rintro rfl
            exact hunshared (Arena.mem_refs.mpr ⟨data, svbucket, hshared, rfl⟩)
          simp only [hbucket, hshared, hdata, Option.bind_some,
            Arena.get?_set (Arena.lt_length hbody), if_neg hne]

theorem HasStrings.assign {scalars : List Bytes} (h : HasStrings w scalars)
    (hbody : w.svs.get? sv = some body) (bytes : Bytes) (hlt : bytes.length < 2 ^ 63) :
    HasStrings { w with svs := w.svs.set sv (some ⟨bytes, body.refcnt, hlt⟩) }
      (scalars.set sv bytes) := by
  refine ⟨by simp [h.length], fun sv' body' hbody' => ?_⟩
  change Arena.get? (w.svs.set sv _) sv' = some body' at hbody'
  rw [Arena.get?_set (Arena.lt_length hbody)] at hbody'
  rw [List.getElem?_set]
  split_ifs at hbody' with heq
  · subst heq
    rw [if_pos rfl, if_pos (h.length ▸ Arena.lt_length hbody), ← Option.some.inj hbody']
  · rw [if_neg heq]
    exact h.bytes sv' body' hbody'

theorem Reads.copy {contents : Arena Bytes} (h : Reads w contents)
    (hcounted : Counted w shares hand) (hcounted' : Counted w' shares hand) (hstays : Stays w w')
    (hbucket : w.buckets.get? b = some bucket)
    (hbuckets : w'.buckets = w.buckets ++ [some bucket]) :
    Reads w' (contents ++ [contents.get? b]) := by
  obtain ⟨bytes, hbytes, hread, hlength⟩ := h.read b bucket hbucket
  rw [hbytes]
  refine h.concat hcounted hcounted' hstays hbuckets ?_ hlength
  rw [← hread]
  exact hcounted.read_stays hcounted' hstays hbucket (by rw [hbuckets, Arena.get?_concat_length])

/-- The parts of a bucket that is split read the parts of its string. -/
theorem Reads.split {contents : Arena Bytes} (h : Reads w contents)
    (hcounted : Counted w shares hand) (hcounted' : Counted w' shares hand) (hstays : Stays w w')
    (hbucket : w.buckets.get? b = some bucket) {point : UInt64} (hpoint : ¬point > bucket.length)
    (hbuckets : w'.buckets = w.buckets.set b (some (halves bucket point).1) ++
      [some (halves bucket point).2])
    {bytes : Bytes} (hbytes : contents.get? b = some bytes) :
    Reads w' (contents.set b (some (bytes.take point.toNat)) ++
      [some (bytes.drop point.toNat)]) := by
  obtain ⟨bytes', hbytes', hread, hlength⟩ := h.read b bucket hbucket
  obtain rfl : bytes = bytes' := Option.some.inj (hbytes.symm.trans hbytes')
  have hlt := Arena.lt_length hbucket
  have hlt' : b < contents.length := h.length ▸ hlt
  have hle : point.toNat ≤ bucket.length.toNat := by
    rw [gt_iff_lt, UInt64.lt_iff_toNat_lt] at hpoint
    omega
  have hsub : (bucket.length - point).toNat = bucket.length.toNat - point.toNat :=
    UInt64.toNat_sub_of_le _ _ (UInt64.le_iff_toNat_le.mpr hle)
  have hfirst : w'.buckets.get? b = some (halves bucket point).1 := by
    rw [hbuckets, Arena.get?_concat_of_ne _ (by rw [List.length_set]; omega), Arena.get?_set hlt,
      if_pos rfl]
  have hsecond : w'.buckets.get? w.buckets.length = some (halves bucket point).2 := by
    rw [hbuckets, ← List.length_set, Arena.get?_concat_length]
  have hreads : w'.read b = some (.ok (bytes.take point.toNat)) ∧
      w'.read w.buckets.length = some (.ok (bytes.drop point.toNat)) := by
    cases hdata : bucket.data with
    | pool bytes' =>
        rw [read_pool hbucket hdata, Option.some_inj, Except.ok.injEq] at hread
        subst hread
        exact ⟨read_pool hfirst (by rw [halves, hdata]), read_pool hsecond (by rw [halves, hdata])⟩
    | sv data =>
        obtain ⟨string, hpart, hread₁⟩ := hcounted.read_sv hcounted' hstays hbucket hfirst hdata
          (by rw [halves, hdata])
        obtain ⟨string', hpart', hread₂⟩ := hcounted.read_sv hcounted' hstays hbucket hsecond hdata
          (by rw [halves, hdata])
        rw [hread, Option.some_inj] at hpart hpart'
        have hinside := hcounted.inside b bucket hbucket
        exact ⟨by rw [hread₁, (hinside.partOf_halves hdata hpoint hpart.symm).1],
          by rw [hread₂, (hinside.partOf_halves hdata hpoint hpart'.symm).2]⟩
  have hlengths : (halves bucket point).1.length = point ∧
      (halves bucket point).2.length = bucket.length - point := by
    rw [halves]
    cases bucket.data <;> exact ⟨rfl, rfl⟩
  refine h.update hcounted hcounted' hstays (by simp [hbuckets, h.length]) fun b' => ?_
  by_cases hnew : b' = w.buckets.length
  · subst hnew
    refine .inr (.inr ⟨_, _, hsecond, ?_, hreads.2, ?_⟩)
    · rw [← h.length, ← List.length_set, Arena.get?_concat_length]
    · rw [hlengths.2, List.length_drop, hlength, hsub]
  · by_cases hold : b' = b
    · subst hold
      refine .inr (.inr ⟨_, _, hfirst, ?_, hreads.1, ?_⟩)
      · rw [Arena.get?_concat_of_ne _ (by rw [List.length_set]; omega), Arena.get?_set hlt',
          if_pos rfl]
      · rw [hlengths.1, List.length_take]
        omega
    · refine .inl ⟨?_, ?_⟩
      · rw [hbuckets, Arena.get?_concat_of_ne _ (by rwa [List.length_set]), Arena.get?_set hlt,
          if_neg (Ne.symm hold)]
      · rw [Arena.get?_concat_of_ne _ (by rwa [List.length_set, h.length]), Arena.get?_set hlt',
          if_neg (Ne.symm hold)]

/-- A bucket that is deleted, or replaced by one that reads the same. -/
theorem Reads.set {contents : Arena Bytes} (h : Reads w contents) (hcounted : Counted w shares hand)
    (hcounted' : Counted w' shares hand) (hstays : Stays w w')
    (hbucket : w.buckets.get? b = some bucket) {o : Option AprBucket} {o' : Option Bytes}
    (hbuckets : w'.buckets = w.buckets.set b o)
    (hcell : o = none ∧ o' = none ∨ ∃ bucket' bytes, o = some bucket' ∧ o' = some bytes ∧
      w'.read b = some (.ok bytes) ∧ bytes.length = bucket'.length.toNat) :
    Reads w' (contents.set b o') := by
  have hlt := Arena.lt_length hbucket
  refine h.update hcounted hcounted' hstays (by simp [hbuckets, h.length]) fun b' => ?_
  rw [hbuckets, Arena.get?_set hlt, Arena.get?_set (h.length ▸ hlt)]
  by_cases heq : b = b'
  · subst heq
    rw [if_pos rfl, if_pos rfl]
    exact .inr hcell
  · rw [if_neg heq, if_neg heq]
    exact .inl ⟨rfl, rfl⟩

/-- A step on buckets is the step on their strings. -/
theorem Reads.step {s : Strings} (hcounted : Counted w [] []) (hstrings : HasStrings w s.scalars)
    (hreads : Reads w s.buckets) {a : Act} (ha : w.Legal a) (hunshared : w.Unshared a) :
    ∃ w', w.step a = some w' ∧ HasStrings w' (s.step a).scalars ∧ Reads w' (s.step a).buckets := by
  obtain ⟨w', hw', hcounted'⟩ := hcounted.step ha
  refine ⟨w', hw', ?_⟩
  cases a with
  | newSv bytes =>
      have hlt : bytes.length < 2 ^ 63 := ha
      rw [BucketWorld.step, dif_pos hlt, Option.some_inj] at hw'
      have hstays : Stays w w' := hw' ▸ stays_appendSv w ⟨bytes, 1, hlt⟩ _ _
      refine ⟨hstrings.append hstays (by rw [← hw', List.length_append]; rfl) fun body hb => ?_,
        hreads.stays hcounted hcounted' hstays (by rw [← hw'])⟩
      rw [← hw', Arena.get?_concat_length] at hb
      rw [← Option.some.inj hb]
  | assign sv bytes =>
      obtain ⟨body, hbody⟩ := hcounted.exists_sv (mem_holders_of_refs ha.1)
      rw [BucketWorld.step, dif_pos ha.2, hbody, Option.map_some, Option.some_inj] at hw'
      subst hw'
      exact ⟨hstrings.assign hbody bytes ha.2, hreads.assign hbody bytes ha.2 hunshared⟩
  | hold sv =>
      obtain ⟨body, hbody⟩ := hcounted.exists_sv (mem_holders_of_refs ha)
      obtain ⟨w₁, hw₁, hcounted₁, hstays, hbuckets, -, hlength⟩ := hcounted.refcntInc hbody
      rw [BucketWorld.step, hw₁, Option.map_some, Option.some_inj] at hw'
      have hstays' : Stays w w' := hstays.trans (hw' ▸ stays_buckets w₁ _ w₁.leaked w₁.buckets)
      exact ⟨hstrings.stays hstays' (by rw [← hw', hlength]),
        hreads.stays hcounted hcounted' hstays' (by rw [← hw', hbuckets])⟩
  | release sv =>
      have hgiven : Counted { w with refs := w.refs.erase sv } [] [sv] := hcounted.release ha
      obtain ⟨w₁, hw₁, hcounted₁, hstays, hbuckets, hlength⟩ := hgiven.refcntDec
      obtain rfl : w₁ = w' := Option.some.inj (hw₁.symm.trans hw')
      have hstays' : Stays w w₁ := (stays_buckets w _ w.leaked w.buckets).trans hstays
      exact ⟨hstrings.stays hstays' hlength, hreads.stays hcounted hcounted' hstays' hbuckets⟩
  | bucketNew sv padtmp offset len =>
      obtain ⟨body, hbody⟩ := hcounted.exists_sv (mem_holders_of_refs ha.1)
      obtain ⟨hnonneg, hle⟩ := ha.2 body hbody
      obtain ⟨w₁, hw₁, -, hnew⟩ := hcounted.bucketNew hbody padtmp len hnonneg hle
      obtain rfl : w₁ = w' := Option.some.inj (hw₁.symm.trans hw')
      simp only [Strings.step, hstrings.bytes sv body hbody]
      obtain ⟨rfl, hcroak⟩ | ⟨len', hmade, hfits, hpart⟩ := hnew
      · rw [hcroak]
        exact ⟨hstrings, hreads⟩
      · rw [hpart]
        exact ⟨hstrings.made hmade, hreads.made hcounted hcounted' hmade hnonneg hfits⟩
  | bucketNewEmpty =>
      obtain ⟨w₁, hw₁, -, hmade⟩ := hcounted.bucketNewEmpty
      obtain rfl : w₁ = w' := Option.some.inj (hw₁.symm.trans hw')
      exact ⟨hstrings.made hmade,
        hreads.made hcounted hcounted' hmade (by decide) (by decide)⟩
  | copy b =>
      obtain ⟨bucket, hbucket⟩ := Option.isSome_iff_exists.mp ha
      obtain ⟨w₁, hw₁, -, hstays, hbuckets, hlength⟩ := hcounted.bucketCopy hbucket
      obtain rfl : w₁ = w' := Option.some.inj (hw₁.symm.trans hw')
      exact ⟨hstrings.stays hstays hlength,
        hreads.copy hcounted hcounted' hstays hbucket hbuckets⟩
  | split b point =>
      obtain ⟨bucket, hbucket⟩ := Option.isSome_iff_exists.mp ha
      obtain ⟨bytes, hbytes, -, hlen⟩ := hreads.read b bucket hbucket
      simp only [Strings.step, hbytes, hlen, ← UInt64.lt_iff_toNat_lt]
      by_cases hpoint : point > bucket.length
      · rw [BucketWorld.step, BucketWorld.bucketSplit, hbucket, Option.bind_some, if_pos hpoint,
          Option.some_inj] at hw'
        rw [if_pos hpoint, ← hw']
        exact ⟨hstrings, hreads⟩
      · obtain ⟨w₁, hw₁, -, hstays, hbuckets, hlength⟩ := hcounted.bucketSplit hbucket hpoint
        obtain rfl : w₁ = w' := Option.some.inj (hw₁.symm.trans hw')
        rw [if_neg hpoint]
        exact ⟨hstrings.stays hstays hlength,
          hreads.split hcounted hcounted' hstays hbucket hpoint hbuckets hbytes⟩
  | delete b =>
      obtain ⟨bucket, hbucket⟩ := Option.isSome_iff_exists.mp ha
      obtain ⟨w₁, hw₁, -, hstays, hbuckets, hlength⟩ := hcounted.bucketDelete hbucket
      obtain rfl : w₁ = w' := Option.some.inj (hw₁.symm.trans hw')
      exact ⟨hstrings.stays hstays hlength,
        hreads.set hcounted hcounted' hstays hbucket hbuckets (.inl ⟨rfl, rfl⟩)⟩
  | setaside b =>
      obtain ⟨bucket, hbucket⟩ := Option.isSome_iff_exists.mp ha
      obtain ⟨w₁, hw₁, -, hstays, hbuckets, hlength⟩ := hcounted.bucketSetaside hbucket
      obtain rfl : w₁ = w' := Option.some.inj (hw₁.symm.trans hw')
      refine ⟨hstrings.stays hstays hlength, ?_⟩
      obtain hsame | ⟨bytes, hread, hset⟩ := hbuckets
      · exact hreads.stays hcounted hcounted' hstays hsame
      · obtain ⟨bytes', hbytes', hread', hlen⟩ := hreads.read b bucket hbucket
        obtain rfl : bytes = bytes' := Except.ok.inj (Option.some.inj (hread.symm.trans hread'))
        have hbucket' : w₁.buckets.get? b = some ⟨.pool bytes, 0, bucket.length⟩ := by
          rw [hset, Arena.get?_set (Arena.lt_length hbucket), if_pos rfl]
        have hreads' := hreads.set hcounted hcounted' hstays hbucket hset
          (.inr ⟨_, bytes, rfl, rfl, read_pool hbucket' rfl, hlen⟩)
        rwa [Arena.set_self hbytes'] at hreads'

end BucketWorld

open BucketWorld

/-- In every state that legal steps lead to: each further one is possible, so that nothing is
freed twice; every bucket can be read without an access behind its string; a scalar has as
many references as Perl, the calls without a scalar and the shared bodies have on it, a
shared body as many as there are buckets of it, and both are there just as long. -/
theorem sv_buckets_sound {w : BucketWorld} (h : Reachable BucketWorld.step Legal .init w) :
    (∀ a, w.Legal a → ∃ w', w.step a = some w') ∧
      (∀ b, (w.buckets.get? b).isSome = true → (w.read b).isSome = true) ∧
      (∀ sv body, w.svs.get? sv = some body → body.refcnt = (w.holders []).count sv) ∧
      (∀ sv, (w.svs.get? sv).isSome = true ↔ sv ∈ w.holders []) ∧
      (∀ data svbucket, w.shared.get? data = some svbucket →
        svbucket.refcount = (w.buckets.refs dataOf).count data) ∧
      ∀ data, (w.shared.get? data).isSome = true ↔ data ∈ w.buckets.refs dataOf := by
  have hcounted := Counted.of_reachable h
  refine ⟨fun a ha => ?_, fun b hb => ?_, fun sv body hbody => (hcounted.refcnt sv body hbody).1,
    fun sv => ⟨fun hsome => ?_, fun hmem => ?_⟩,
    fun data svbucket hshared => (hcounted.refcount data svbucket hshared).1,
    fun data => ⟨fun hsome => ?_, fun hmem => ?_⟩⟩
  · obtain ⟨w', hw', -⟩ := hcounted.step ha
    exact ⟨w', hw'⟩
  · obtain ⟨bucket, hbucket⟩ := Option.isSome_iff_exists.mp hb
    obtain ⟨res, hres, -⟩ := hcounted.read hbucket
    exact Option.isSome_iff_exists.mpr ⟨res, hres⟩
  · obtain ⟨body, hbody⟩ := Option.isSome_iff_exists.mp hsome
    obtain ⟨hcount, hpos⟩ := hcounted.refcnt sv body hbody
    exact List.count_pos_iff.mp (hcount ▸ hpos)
  · exact Option.isSome_iff_exists.mpr (hcounted.exists_sv hmem)
  · obtain ⟨svbucket, hshared⟩ := Option.isSome_iff_exists.mp hsome
    obtain ⟨hcount, hpos⟩ := hcounted.refcount data svbucket hshared
    exact List.count_pos_iff.mp (hcount ▸ hpos)
  · obtain ⟨b, bucket, hbucket, hdata⟩ := Arena.mem_refs.mp hmem
    refine Option.isSome_iff_exists.mpr (hcounted.exists_shared hbucket ?_)
    rw [dataOf] at hdata
    split at hdata
    · rename_i data' hbucketdata
      rw [hbucketdata, Option.some.inj hdata]
    · cases hdata

/-- A bucket that is split and copied, its scalar that becomes too short for one of them,
and the end of all references to it but those of the buckets. -/
theorem sv_buckets_sound_three : ∃ w : BucketWorld,
    Reachable BucketWorld.step Legal .init w ∧ w.read 0 = some (.ok [1, 2]) ∧
      w.read 2 = some (.error aprEgeneral) ∧
      ∀ sv, (w.svs.get? sv).isSome = true ↔ sv ∈ w.holders [] := by
  have hlegal : runOk BucketWorld.step Legal .init [.newSv [1, 2, 3, 4], .bucketNew 0 false 0 0,
      .split 0 2, .copy 1, .setaside 1, .assign 0 [1, 2], .release 0] := by decide +kernel
  obtain ⟨w, hw, hread, hread'⟩ : ∃ w : BucketWorld,
      Reachable BucketWorld.step Legal .init w ∧ w.read 0 = some (.ok [1, 2]) ∧
        w.read 2 = some (.error aprEgeneral) :=
    Reachable.exists_of_run hlegal (by decide +kernel)
  exact ⟨w, hw, hread, hread', (sv_buckets_sound hw).2.2.2.1⟩

/-- The check of `APR::Bucket->new` does not see an offset behind the string. -/
example : (run BucketWorld.step .init [.newSv [1, 2], .bucketNew 0 false 3 0]).map (read · 0) =
    some none := by decide +kernel

/-- While no string is assigned to a scalar that buckets share, every bucket reads what it
would if each had a string of its own, whatever was copied, split, set aside and deleted. -/
theorem sv_buckets_are_strings {acts : List Act} {w : BucketWorld}
    (hlegal : runOk BucketWorld.step (fun w a => w.Legal a ∧ w.Unshared a) .init acts)
    (hrun : run BucketWorld.step .init acts = some w) (b : Nat) :
    w.read b = ((acts.foldl Strings.step ⟨[], []⟩).buckets.get? b).map .ok := by
  have hreads : ∀ (acts : List Act) (w₀ : BucketWorld) (s : Strings),
      BucketWorld.Counted w₀ [] [] → BucketWorld.HasStrings w₀ s.scalars →
      BucketWorld.Reads w₀ s.buckets →
      runOk BucketWorld.step (fun w a => w.Legal a ∧ w.Unshared a) w₀ acts →
      run BucketWorld.step w₀ acts = some w →
      BucketWorld.Counted w [] [] ∧ BucketWorld.Reads w (acts.foldl Strings.step s).buckets := by
    intro acts
    induction acts with
    | nil =>
        intro w₀ s hcounted _ hreads _ hrun
        obtain rfl : w₀ = w := Option.some.inj hrun
        exact ⟨hcounted, hreads⟩
    | cons a acts ih =>
        intro w₀ s hcounted hstrings hreads hlegal hrun
        obtain ⟨w₁, hw₁, hstrings₁, hreads₁⟩ :=
          hreads.step hcounted hstrings hlegal.1.1 hlegal.1.2
        obtain ⟨w₂, hw₂, hcounted₂⟩ := hcounted.step hlegal.1.1
        obtain rfl : w₁ = w₂ := Option.some.inj (hw₁.symm.trans hw₂)
        rw [run, hw₁, Option.bind_some] at hrun
        exact ih w₁ (s.step a) hcounted₂ hstrings₁ hreads₁ (hlegal.2 w₁ hw₁) hrun
  obtain ⟨hcounted, hreads⟩ := hreads acts .init ⟨[], []⟩ .init
    ⟨rfl, fun _ _ h => by cases h⟩ ⟨rfl, fun _ _ => rfl, fun _ _ h => by cases h⟩ hlegal hrun
  cases hbucket : w.buckets.get? b with
  | none =>
      rw [hreads.deleted b hbucket, BucketWorld.read, hbucket]
      rfl
  | some bucket =>
      obtain ⟨bytes, hbytes, hread, -⟩ := hreads.read b bucket hbucket
      rw [hread, hbytes]
      rfl

/-- The parts of a bucket of a scalar of perl's, after perl used it for something else. -/
theorem sv_buckets_are_strings_parts : ∃ w : BucketWorld,
    run BucketWorld.step .init [.newSv [1, 2, 3, 4, 5], .bucketNew 0 true 1 3, .split 0 1,
      .assign 0 [6], .setaside 1, .release 0] = some w ∧ w.read 0 = some (.ok [2]) ∧
      w.read 1 = some (.ok [3, 4]) := by
  have hlegal : runOk BucketWorld.step (fun w a => w.Legal a ∧ w.Unshared a) .init
      [.newSv [1, 2, 3, 4, 5], .bucketNew 0 true 1 3, .split 0 1, .assign 0 [6], .setaside 1,
        .release 0] := by decide +kernel
  obtain ⟨w, hrun⟩ : ∃ w, run BucketWorld.step .init [.newSv [1, 2, 3, 4, 5],
      .bucketNew 0 true 1 3, .split 0 1, .assign 0 [6], .setaside 1, .release 0] = some w :=
    Option.isSome_iff_exists.mp (by decide +kernel)
  exact ⟨w, hrun, sv_buckets_are_strings hlegal hrun 0, sv_buckets_are_strings hlegal hrun 1⟩

end ModPerl
