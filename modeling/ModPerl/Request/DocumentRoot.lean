import ModPerl.Httpd
import ModPerl.Request.GlobalRequest

/-!
# The document root of the server

`$r->document_root` sets the document root of the server for the time of a request: a
cleanup in the pool of the request puts back the value that it found.  This is the stack of
the global request once more.  What is saved is a string, and a string that was set by a
request lives in the pool of that request: `Mirrors` takes it to the request.  So the
server's root is safe as long as the request that was set last goes first, and what is left
behind is the value of the configuration.

The functions are those of `Apache2__RequestUtil.h`.
-/

namespace ModPerl

open Machine

/-- A value of `conf->ap_document_root`: a string, and the request whose pool it is in.  The
string of the configuration outlives all requests. -/
@[ext]
structure Docroot where
  path : Bytes
  owner : Option ℕ
  deriving DecidableEq

/-- The server of a process that is not threaded, and the requests. -/
structure DocrootServer where
  /-- `conf->ap_document_root` -/
  docroot : Docroot
  /-- `r->pool` of all requests so far, by their address.  No address is used twice. -/
  requests : List ℕ
  /-- The newest first. -/
  pools : List ReqPool
  /-- `mp_docroot_info` of the cleanups of a pool, the newest first. -/
  cleanups : ℕ → List Docroot
  /-- The pool whose cleanups run. -/
  closing : Option ℕ

namespace DocrootServer

def start (original : Bytes) : DocrootServer where
  docroot := ⟨original, none⟩
  requests := []
  pools := []
  cleanups := fun _ => []
  closing := none

/-- The pool has not been freed. -/
def HasPool (s : DocrootServer) (p : ℕ) : Prop := p ∈ s.pools.map ReqPool.id

instance (s : DocrootServer) (p : ℕ) : Decidable (s.HasPool p) :=
  inferInstanceAs (Decidable (_ ∈ _))

/-- The pool of the request has not been freed. -/
def Alive (s : DocrootServer) (r : ℕ) : Prop := ∃ p, s.requests[r]? = some p ∧ s.HasPool p

instance (s : DocrootServer) (r : ℕ) : Decidable (s.Alive r) :=
  match h : s.requests[r]? with
  | none => isFalse fun ⟨p, hp, _⟩ => by rw [h] at hp; cases hp
  | some p =>
      decidable_of_iff (s.HasPool p)
        ⟨fun hp => ⟨p, h, hp⟩, fun ⟨q, hq, hhas⟩ => by
          rw [h] at hq
          exact Option.some.inj hq ▸ hhas⟩

/-- The string of the document root has not been freed. -/
def DocrootAlive (s : DocrootServer) : Prop := ∀ r, s.docroot.owner = some r → s.Alive r

/-- `restore_docroot` -/
def restoreDocroot (s : DocrootServer) (original : Docroot) : DocrootServer :=
  { s with docroot := original }

/-- `mpxs_Apache2__RequestRec_document_root`: it croaks once threads are started. -/
def documentRoot (threadsStarted : Bool) (s : DocrootServer) (r : ℕ) (newRoot : Option Bytes) :
    Option (Bytes × DocrootServer) :=
  match newRoot with
  | none => some (s.docroot.path, s)
  | some path =>
      if threadsStarted then none
      else s.requests[r]?.map fun p =>
        (s.docroot.path, { s with
          cleanups := Function.update s.cleanups p (s.docroot :: s.cleanups p)
          docroot := ⟨cstr path, some r⟩ })

/-- The next cleanup of the pool that is destroyed. -/
def runCleanup (s : DocrootServer) : Option DocrootServer :=
  s.closing.bind fun p =>
    match s.cleanups p with
    | [] => none
    | di :: rest =>
        some ({ s with cleanups := Function.update s.cleanups p rest }.restoreDocroot di)

/-- The memory is freed once all cleanups have run. -/
def free (s : DocrootServer) : Option DocrootServer :=
  s.closing.bind fun p =>
    if s.cleanups p = [] then
      some { s with pools := s.pools.filter (·.id ≠ p), closing := none }
    else none

end DocrootServer

/-- What happens in the process. -/
inductive DocrootAction
  /-- A request with a pool of its own; a sub-request has a sub-pool of the pool of its
  parent. -/
  | create (parent : Option ℕ)
  /-- An internal redirect: a new request in the pool of the old one. -/
  | redirect (r : ℕ)
  | documentRoot (r : ℕ) (newRoot : Option Bytes)
  /-- The destruction of a pool without sub-pools begins. -/
  | destroy (p : ℕ)
  | runCleanup
  | free

namespace DocrootServer

/-- One step. -/
def step (s : DocrootServer) : DocrootAction → Option DocrootServer
  | .create parent =>
      if s.closing = none ∧ ∀ r, parent = some r → s.Alive r then
        some { s with
          requests := s.requests ++ [s.requests.length]
          pools := ⟨s.requests.length, parent.bind (s.requests[·]?)⟩ :: s.pools }
      else none
  | .redirect r =>
      s.requests[r]?.bind fun p =>
        if s.closing = none ∧ s.HasPool p then
          some { s with requests := s.requests ++ [p] }
        else none
  | .documentRoot r newRoot =>
      if s.Alive r then (s.documentRoot false r newRoot).map Prod.snd else none
  | .destroy p =>
      if s.closing = none ∧ s.HasPool p ∧ ∀ pool ∈ s.pools, pool.parent ≠ some p then
        some { s with closing := some p }
      else none
  | .runCleanup => s.runCleanup
  | .free => s.free

/-- When the memory of a pool is freed, no cleanup of another pool has saved one of its
strings: the requests that found them have ended. -/
def LastSetFirst (s : DocrootServer) : DocrootAction → Prop
  | .free => ∀ pool ∈ s.pools, s.closing ≠ some pool.id →
      ∀ di ∈ s.cleanups pool.id, di.owner.bind (s.requests[·]?) = none ∨
        di.owner.bind (s.requests[·]?) ≠ s.closing
  | _ => True

instance : DecidableRel LastSetFirst := fun s a => by
  cases a <;> unfold LastSetFirst <;> infer_instance

/-! ## The stack of the global request -/

/-- The value of the document root is taken to the request that set it. -/
structure Mirrors (s : DocrootServer) (t : ReqThread) : Prop where
  tls : t.tls = s.docroot.owner
  poolOf : ∀ r, t.poolOf r = s.requests[r]?
  length : t.requests.length = s.requests.length
  pools : t.pools = s.pools
  cleanups : ∀ p, t.cleanups p = (s.cleanups p).map Docroot.owner
  closing : t.closing = s.closing

variable {s s' : DocrootServer} {t t' : ReqThread} {r p : ℕ} {original : Bytes}

/-- Two steps with the same guard. -/
theorem rel_ite {P Q : Prop} [Decidable P] [Decidable Q] (hguard : P ↔ Q)
    (h : P → Mirrors s t) :
    Option.Rel Mirrors (if P then some s else none) (if Q then some t else none) := by
  by_cases hP : P
  · rw [if_pos hP, if_pos (hguard.mp hP)]
    exact .some (h hP)
  · rw [if_neg hP, if_neg fun hQ => hP (hguard.mpr hQ)]
    exact .none

namespace Mirrors

theorem start : Mirrors (start original) ReqThread.start where
  tls := rfl
  poolOf := fun _ => rfl
  length := rfl
  pools := rfl
  cleanups := fun _ => rfl
  closing := rfl

variable (h : Mirrors s t)

include h

theorem hasPool : s.HasPool p ↔ t.HasPool p := by
  rw [ReqThread.HasPool, HasPool, h.pools]

theorem alive : s.Alive r ↔ t.Alive r := by
  simp only [ReqThread.Alive, Alive, h.poolOf, h.hasPool]

theorem docrootAlive : s.DocrootAlive ↔ ∀ r, t.tls = some r → t.Alive r := by
  simp only [DocrootAlive, h.tls, h.alive]

theorem lastSetFirst : LastSetFirst s .free ↔ ReqThread.LastSetFirst t .free := by
  have hpool : t.poolOf = (s.requests[·]?) := funext fun r => h.poolOf r
  simp only [LastSetFirst, ReqThread.LastSetFirst, h.pools, h.closing, h.cleanups, hpool,
    List.mem_map, forall_exists_index, and_imp, forall_apply_eq_imp_iff₂]

/-- A new request, in the same pool. -/
theorem append (req : GlobalReq) (new : List ReqPool) :
    Mirrors { s with requests := s.requests ++ [req.pool], pools := new ++ s.pools }
      { t with requests := t.requests ++ [req], pools := new ++ t.pools } := by
  refine ⟨h.tls, fun r => ?_, ?_, ?_, h.cleanups, h.closing⟩
  · show (t.requests ++ [req])[r]?.map GlobalReq.pool = (s.requests ++ [req.pool])[r]?
    by_cases hlt : r < t.requests.length
    · rw [List.getElem?_append_left hlt, List.getElem?_append_left (h.length ▸ hlt)]
      exact h.poolOf r
    · rw [List.getElem?_append_right (Nat.le_of_not_lt hlt),
        List.getElem?_append_right (h.length ▸ Nat.le_of_not_lt hlt), h.length,
        List.getElem?_singleton, List.getElem?_singleton]
      split_ifs <;> rfl
  · rw [List.length_append, List.length_append, h.length]
    rfl
  · rw [h.pools]

theorem create (parent : Option ℕ) :
    Option.Rel Mirrors (s.step (.create parent)) (t.step (.create parent)) := by
  have hparent : parent.bind t.poolOf = parent.bind (s.requests[·]?) :=
    congrArg _ (funext fun r => h.poolOf r)
  refine rel_ite ?_ fun _ => ?_
  · simp only [h.closing, h.alive]
  · rw [hparent, h.length]
    exact h.append ⟨_, false⟩ [⟨_, _⟩]

theorem redirect (r : ℕ) :
    Option.Rel Mirrors (s.step (.redirect r)) (t.step (.redirect r)) := by
  rw [step, ReqThread.step, h.poolOf]
  cases s.requests[r]? with
  | none => exact .none
  | some p => exact rel_ite (by rw [h.closing, h.hasPool]) fun _ =>
      h.append ⟨p, false⟩ []

/-- A setting is a setting of the global request. -/
theorem documentRoot (r : ℕ) (path : Bytes) :
    Option.Rel Mirrors (s.step (.documentRoot r (some path))) (t.step (.requestSet r)) := by
  rw [step, ReqThread.step]
  by_cases halive : s.Alive r
  · obtain ⟨p, hp, -⟩ := id halive
    obtain ⟨t', ht', htls, hpoolOf, hlength, hpools, hclosing, hcleanups⟩ :=
      ReqThread.requestSet_eq ((h.poolOf r).trans hp)
    rw [if_pos halive, if_pos (h.alive.mp halive), ht', DocrootServer.documentRoot, hp]
    refine .some ⟨htls, fun r => ?_, hlength.trans h.length, hpools.trans h.pools, fun q => ?_,
      hclosing.trans h.closing⟩
    · rw [hpoolOf]
      exact h.poolOf r
    · rw [hcleanups]
      show _ = (Function.update s.cleanups p (s.docroot :: s.cleanups p) q).map Docroot.owner
      by_cases hq : q = p
      · rw [hq, Function.update_self, Function.update_self, List.map_cons, h.tls, h.cleanups]
      · rw [Function.update_of_ne hq, Function.update_of_ne hq, h.cleanups]
  · rw [if_neg halive, if_neg fun ht => halive (h.alive.mpr ht)]
    exact .none

theorem destroy (p : ℕ) : Option.Rel Mirrors (s.step (.destroy p)) (t.step (.destroy p)) := by
  refine rel_ite ?_ fun _ => ⟨h.tls, h.poolOf, h.length, h.pools, h.cleanups, rfl⟩
  rw [h.closing, h.hasPool, h.pools]

theorem runCleanup : Option.Rel Mirrors (s.step .runCleanup) (t.step .runCleanup) := by
  rw [step, ReqThread.step, DocrootServer.runCleanup, ReqThread.runCleanup, h.closing]
  cases s.closing with
  | none => exact .none
  | some p =>
      rw [Option.bind_some, Option.bind_some, h.cleanups p]
      cases s.cleanups p with
      | nil => exact .none
      | cons di rest =>
          refine .some ⟨rfl, h.poolOf, h.length, h.pools, fun q => ?_, rfl⟩
          show Function.update t.cleanups p _ q =
            (Function.update s.cleanups p rest q).map Docroot.owner
          by_cases hq : q = p
          · rw [hq, Function.update_self, Function.update_self]
          · rw [Function.update_of_ne hq, Function.update_of_ne hq, h.cleanups]

theorem free : Option.Rel Mirrors (s.step .free) (t.step .free) := by
  rw [step, ReqThread.step, DocrootServer.free, ReqThread.free, h.closing]
  cases s.closing with
  | none => exact .none
  | some p =>
      refine rel_ite ?_ fun _ => ⟨h.tls, h.poolOf, h.length, ?_, h.cleanups, rfl⟩
      · rw [h.cleanups, List.map_eq_nil_iff]
      · rw [h.pools]

/-- Every step of the server is one of the global request, under the same condition, but for
the reading of the document root. -/
theorem forward {a : DocrootAction} (hs : s.step a = some s') :
    (LastSetFirst s a ∧ Mirrors s' t) ∨ ∃ b t', t.step b = some t' ∧ Mirrors s' t' ∧
      (LastSetFirst s a ↔ ReqThread.LastSetFirst t b) := by
  have hmatch : ∀ b, (LastSetFirst s a ↔ ReqThread.LastSetFirst t b) →
      Option.Rel Mirrors (s.step a) (t.step b) → ∃ b t', t.step b = some t' ∧ Mirrors s' t' ∧
        (LastSetFirst s a ↔ ReqThread.LastSetFirst t b) := by
    intro b hok hrel
    rw [hs] at hrel
    cases hstep : t.step b with
    | none =>
        rw [hstep] at hrel
        cases hrel
    | some t' =>
        rw [hstep] at hrel
        cases hrel with
        | some hrel => exact ⟨b, t', hstep, hrel, hok⟩
  cases a with
  | create parent => exact .inr (hmatch (.create parent) Iff.rfl (h.create parent))
  | redirect r => exact .inr (hmatch (.redirect r) Iff.rfl (h.redirect r))
  | documentRoot r newRoot =>
      cases newRoot with
      | none =>
          obtain ⟨-, hs⟩ := Option.ite_none_right_eq_some.mp hs
          cases hs
          exact .inl ⟨trivial, h⟩
      | some path => exact .inr (hmatch (.requestSet r) Iff.rfl (h.documentRoot r path))
  | destroy p => exact .inr (hmatch (.destroy p) Iff.rfl (h.destroy p))
  | runCleanup => exact .inr (hmatch .runCleanup Iff.rfl h.runCleanup)
  | free => exact .inr (hmatch .free h.lastSetFirst h.free)

/-- Every step of the global request is one of the server. -/
theorem backward {b : ReqAction} (ht : t.step b = some t') :
    ∃ s', Reachable step Always s s' ∧ Mirrors s' t' := by
  have hmatch : ∀ a b, t.step b = some t' → Option.Rel Mirrors (s.step a) (t.step b) →
      ∃ s', Reachable step Always s s' ∧ Mirrors s' t' := by
    intro a b ht hrel
    rw [ht] at hrel
    cases hstep : s.step a with
    | none =>
        rw [hstep] at hrel
        cases hrel
    | some s' =>
        rw [hstep] at hrel
        cases hrel with
        | some hrel => exact ⟨s', .step a .start trivial hstep, hrel⟩
  cases b with
  | create parent => exact hmatch (.create parent) _ ht (h.create parent)
  | redirect r => exact hmatch (.redirect r) _ ht (h.redirect r)
  | requestSet r => exact hmatch (.documentRoot r (some [])) _ ht (h.documentRoot r [])
  | requestCfgSet global r =>
      obtain ⟨halive, ht⟩ := Option.ite_none_right_eq_some.mp ht
      obtain ⟨p, hp, -⟩ := id halive
      rcases @ReqThread.requestCfgSet_eq t r p global hp with heq | heq
      · exact hmatch (.documentRoot r (some [])) (.requestSet r)
          ((if_pos halive).trans (heq ▸ ht)) (h.documentRoot r [])
      · rw [heq] at ht
        cases ht
        exact ⟨s, .start, h⟩
  | destroy p => exact hmatch (.destroy p) _ ht (h.destroy p)
  | runCleanup => exact hmatch .runCleanup _ ht h.runCleanup
  | free => exact hmatch .free _ ht h.free

end Mirrors

/-! ## Runs -/

/-- What the server reaches, the global request reaches, under the same condition or none. -/
theorem mirrors_of_reachable {ok : DocrootServer → DocrootAction → Prop}
    {ok' : ReqThread → ReqAction → Prop}
    (hok : ∀ s a t b, ok s a → (LastSetFirst s a ↔ ReqThread.LastSetFirst t b) → ok' t b)
    (h : Reachable step ok (start original) s) :
    ∃ t, Reachable ReqThread.step ok' ReqThread.start t ∧ Mirrors s t := by
  refine h.simulation .start fun s a s' t _ hmirrors ha hs => ?_
  rcases hmirrors.forward hs with ⟨-, hmirrors'⟩ | ⟨b, t', ht, hmirrors', hiff⟩
  · exact ⟨t, .start, hmirrors'⟩
  · exact ⟨t', .step b .start (hok s a t b ha hiff) ht, hmirrors'⟩

/-- What belongs to no request is the value of the configuration. -/
def Configured (original : Bytes) (s : DocrootServer) : Prop :=
  ∀ di, (di = s.docroot ∨ ∃ p, di ∈ s.cleanups p) → di.owner = none → di.path = original

theorem Configured.step {a : DocrootAction} (h : s.Configured original)
    (hs : s.step a = some s') : s'.Configured original := by
  cases a with
  | create parent =>
      obtain ⟨-, hs⟩ := Option.ite_none_right_eq_some.mp hs
      cases hs
      exact h
  | redirect r =>
      obtain ⟨p, -, hs⟩ := Option.bind_eq_some_iff.mp hs
      obtain ⟨-, hs⟩ := Option.ite_none_right_eq_some.mp hs
      cases hs
      exact h
  | documentRoot r newRoot =>
      obtain ⟨-, hs⟩ := Option.ite_none_right_eq_some.mp hs
      cases newRoot with
      | none =>
          cases hs
          exact h
      | some path =>
          obtain ⟨⟨retval, s₁⟩, hset, rfl⟩ := Option.map_eq_some_iff.mp hs
          obtain ⟨p, -, hset⟩ := Option.map_eq_some_iff.mp hset
          cases hset
          rintro di (rfl | ⟨q, hdi⟩)
          · exact nofun
          · have hdi : di ∈ Function.update s.cleanups p (s.docroot :: s.cleanups p) q := hdi
            by_cases hq : q = p
            · -- the value that is saved now was the current one
              subst hq
              rw [Function.update_self] at hdi
              rcases List.mem_cons.mp hdi with rfl | hdi
              · exact h _ (.inl rfl)
              · exact h di (.inr ⟨q, hdi⟩)
            · rw [Function.update_of_ne hq] at hdi
              exact h di (.inr ⟨q, hdi⟩)
  | destroy p =>
      obtain ⟨-, hs⟩ := Option.ite_none_right_eq_some.mp hs
      cases hs
      exact h
  | runCleanup =>
      obtain ⟨p, -, hs⟩ := Option.bind_eq_some_iff.mp hs
      split at hs
      · cases hs
      · next di' rest hcleanups =>
          cases hs
          rintro di (rfl | ⟨q, hdi⟩)
          · exact h di (.inr ⟨p, hcleanups ▸ List.mem_cons_self⟩)
          · refine h di (.inr ⟨q, ?_⟩)
            have hdi : di ∈ Function.update s.cleanups p rest q := hdi
            by_cases hq : q = p
            · rw [hq, Function.update_self] at hdi
              rw [hq, hcleanups]
              exact List.mem_cons_of_mem di' hdi
            · rwa [Function.update_of_ne hq] at hdi
  | free =>
      obtain ⟨p, -, hs⟩ := Option.bind_eq_some_iff.mp hs
      obtain ⟨-, hs⟩ := Option.ite_none_right_eq_some.mp hs
      cases hs
      exact h

theorem configured_of_reachable {ok : DocrootServer → DocrootAction → Prop}
    (h : Reachable step ok (start original) s) : s.Configured original := by
  refine h.invariant ?_ fun _ _ _ _ hinv _ hs => hinv.step hs
  rintro di (rfl | ⟨p, hdi⟩)
  · exact fun _ => rfl
  · cases hdi

/-- Once the pools are gone nothing is set any more. -/
theorem unowned_of_sound (h : t.Sound) (hpools : t.pools = []) : t.tls = none := by
  cases htls : t.tls with
  | none => rfl
  | some r =>
      obtain ⟨p, -, hhas⟩ := h.alive htls
      rw [ReqThread.HasPool, hpools] at hhas
      cases hhas

/-- Where each pool is freed only after the requests that found one of its strings, the
document root is always a string that is there, and that of the configuration when all
requests have ended.  Whenever a pool is freed before, a state can be reached in which the
document root of the server dangles. -/
theorem docroot_survives_iff (original : Bytes) (s : DocrootServer) :
    (Reachable step LastSetFirst (start original) s →
      s.DocrootAlive ∧ (s.pools = [] → s.docroot = ⟨original, none⟩)) ∧
    ∀ a s', Reachable step Always (start original) s → ¬LastSetFirst s a → s.step a = some s' →
      ∃ s'', Reachable step Always s' s'' ∧ ¬s''.DocrootAlive := by
  constructor
  · intro hreach
    obtain ⟨t, ht, hmirrors⟩ := mirrors_of_reachable (fun _ _ _ _ ha hiff => hiff.mp ha) hreach
    have hsound := ReqThread.sound_of_reachable ht
    refine ⟨hmirrors.docrootAlive.mpr fun r hr => hsound.alive hr, fun hpools => ?_⟩
    have howner : s.docroot.owner = none :=
      hmirrors.tls ▸ unowned_of_sound hsound (hmirrors.pools.trans hpools)
    exact Docroot.ext (configured_of_reachable hreach s.docroot (.inl rfl) howner) howner
  · intro a s' hreach hbad hs
    obtain ⟨t, ht, hmirrors⟩ :=
      mirrors_of_reachable (fun _ _ _ _ _ _ => trivial) hreach
    rcases hmirrors.forward hs with ⟨hok, -⟩ | ⟨b, t', ht', hmirrors', hiff⟩
    · exact absurd hok hbad
    · have hplaced := (ReqThread.placed_start.of_reachable ht).step ht'
      obtain ⟨t'', r, hreach', htls, hdead⟩ :=
        hplaced.dangles_of_free (fun hok => hbad (hiff.mpr hok)) ht'
      obtain ⟨s'', hreach'', hmirrors''⟩ :=
        hreach'.simulation (R := fun t s => Mirrors s t) hmirrors'
          fun _ _ _ _ _ h _ ht => h.backward ht
      exact ⟨s'', hreach'', fun halive => hdead (hmirrors''.docrootAlive.mp halive r htls)⟩

/-- A sub-request sets the document root after its parent, and ends. -/
theorem docroot_survives_nested : ∃ s, Reachable step LastSetFirst (start (ascii "/htdocs")) s ∧
    s.docroot.path = ascii "/a" ∧ s.pools.length = 1 ∧ s.DocrootAlive := by
  obtain ⟨s, hreach, hpath, hlength⟩ : ∃ s,
      Reachable step LastSetFirst (start (ascii "/htdocs")) s ∧
        s.docroot.path = ascii "/a" ∧ s.pools.length = 1 :=
    Reachable.exists_of_run
      (show runOk _ _ _ [.create none, .documentRoot 0 (some (ascii "/a")), .create (some 0),
        .documentRoot 1 (some (ascii "/b")), .destroy 1, .runCleanup, .free] by decide +kernel)
      (by decide +kernel)
  exact ⟨s, hreach, hpath, hlength, ((docroot_survives_iff _ s).1 hreach).1⟩

/-- A sub-request sets the document root before its parent: when both have ended, the document
root of the server is the string of the sub-request, which is gone. -/
theorem docroot_dangles : ∃ s, Reachable step Always (start (ascii "/htdocs")) s ∧
    s.pools = [] ∧ s.docroot.owner = some 1 ∧ ¬s.Alive 1 :=
  Reachable.exists_of_run
    (show runOk _ _ _ [.create none, .create (some 0), .documentRoot 1 (some (ascii "/b")),
      .documentRoot 0 (some (ascii "/a")), .destroy 1, .runCleanup, .free, .destroy 0,
      .runCleanup, .free] by decide +kernel)
    (by decide +kernel)

end DocrootServer

end ModPerl
