import ModPerl.Handler.Lookup
import ModPerl.Library.Machine

/-!
# The handlers of a request

The calls of `push_handlers` and `set_handlers` on requests leave every array of
the configuration as it is: a request gets an array of its own with the first
call for a phase, and no two places hold the address of the same array if one of
them is in a request.  What a request runs in a phase is therefore the fold of
its own calls for this phase, from what is configured.

The directory configuration of a request changes while httpd merges the sections
that the request is for, and the array of the request is not looked at again: it
starts from what was configured at the first call.
-/

namespace ModPerl

open PoolArray PoolArray.Memory

/-- A phase whose handlers can be modified on a request. -/
def Phase.OnRequest (phase : Phase) : Prop := phase.type = .perDir ∨ phase.type = .perSrv

instance : DecidablePred Phase.OnRequest := fun _ => inferInstanceAs (Decidable (_ ∨ _))

/-- The place is in a request. -/
def Slot.OnRequest : Slot → Prop
  | .rcfg _ _ _ => True
  | _ => False

/-- The handlers that are pushed for these values: those before the first that
raises an error. -/
def given : List Sv → List Handler
  | [] => []
  | sv :: svs =>
      match handlerNewFromSv sv with
      | .error _ => []
      | .ok none => given svs
      | .ok (some handler) => { handler with dynamic := true } :: given svs

namespace Handlers

/-- The place is empty, or holds the address of an array with these handlers. -/
def Stack (w : Handlers) (slot : Slot) (xs : List Handler) : Prop :=
  match w.slots slot with
  | none => xs = []
  | some av => w.mem.Holds av xs

/-- Each place that is not empty holds the address of an array, and one in a
request holds that of an array that no other place has. -/
structure Wf (w : Handlers) : Prop where
  separate : w.mem.Separate
  holds : ∀ {slot av}, w.slots slot = some av → ∃ xs, w.mem.Holds av xs
  inj : ∀ {slot slot' av}, slot.OnRequest → w.slots slot = some av → w.slots slot' = some av →
    slot = slot'

/-- The place has an array with these handlers now, and nothing else changed. -/
structure Modified (w w' : Handlers) (slot : Slot) (xs : List Handler) : Prop where
  wf : w'.Wf
  stack : ∃ av, w'.slots slot = some av ∧ w'.mem.Holds av xs
  slots : ∀ {slot'}, slot' ≠ slot → w'.slots slot' = w.slots slot'
  arrays : ∀ {av ys}, w.slots slot ≠ some av → w.mem.Holds av ys →
    w'.mem.Holds av ys ∧ w'.slots slot ≠ some av

variable {w w' w'' : Handlers} {slot slot' : Slot} {xs ys : List Handler} {av : ℕ}

theorem Stack.exists (hwf : w.Wf) (slot : Slot) : ∃ xs, w.Stack slot xs := by
  unfold Stack
  cases hslot : w.slots slot with
  | none => exact ⟨[], rfl⟩
  | some av => exact hwf.holds hslot

theorem Stack.unique (h : w.Stack slot xs) (h' : w.Stack slot ys) : xs = ys := by
  unfold Stack at h h'
  cases hslot : w.slots slot with
  | none =>
      rw [hslot] at h h'
      exact h.trans h'.symm
  | some av =>
      rw [hslot] at h h'
      exact h.unique h'

theorem Stack.of_some (h : w.Stack slot xs) (hslot : w.slots slot = some av) :
    w.mem.Holds av xs := by
  rw [Stack, hslot] at h
  exact h

/-- The other places keep their handlers. -/
theorem Modified.stack_ne (h : w.Modified w' slot xs) (hwf : w.Wf) (hreq : slot.OnRequest)
    (hne : slot' ≠ slot) (hstack : w.Stack slot' ys) : w'.Stack slot' ys := by
  unfold Stack at hstack ⊢
  rw [h.slots hne]
  cases hslot : w.slots slot' with
  | none =>
      rw [hslot] at hstack
      exact hstack
  | some av =>
      rw [hslot] at hstack
      refine (h.arrays (fun hav => ?_) hstack).1
      exact hne (hwf.inj hreq hav hslot).symm

theorem Modified.trans (h : w.Modified w' slot xs) (h' : w'.Modified w'' slot ys) :
    w.Modified w'' slot ys where
  wf := h'.wf
  stack := h'.stack
  slots hne := (h'.slots hne).trans (h.slots hne)
  arrays hne hholds :=
    have ⟨hholds', hne'⟩ := h.arrays hne hholds
    h'.arrays hne' hholds'

/-- A place in a request gets a new array. -/
theorem Modified.of_new (hwf : w.Wf) {mem : Memory Handler}
    (hholds : mem.Holds av xs) (hsep : mem.Separate)
    (hnew : ∀ {b ys}, w.mem.Holds b ys → Stays w.mem mem b ys ∧ b ≠ av) :
    w.Modified (setSlot { w with mem } slot av) slot xs := by
  have hself : (setSlot { w with mem } slot av).slots slot = some av := if_pos rfl
  have hother : ∀ {slot'}, slot' ≠ slot →
      (setSlot { w with mem } slot av).slots slot' = w.slots slot' := fun hne => if_neg hne
  have hfresh : ∀ {slot'}, w.slots slot' ≠ some av := by
    intro slot' hslot'
    obtain ⟨ys, hys⟩ := hwf.holds hslot'
    exact (hnew hys).2 rfl
  refine ⟨⟨hsep, ?_, ?_⟩, ⟨av, hself, hholds⟩, hother, ?_⟩
  · intro slot₁ av₁ h₁
    by_cases hne : slot₁ = slot
    · rw [hne, hself] at h₁
      exact ⟨xs, Option.some.inj h₁ ▸ hholds⟩
    · rw [hother hne] at h₁
      obtain ⟨ys, hys⟩ := hwf.holds h₁
      exact ⟨ys, (hnew hys).1.1⟩
  · -- the new array is in one place: no other place holds it
    intro slot₁ slot₂ av₁ hreq₁ h₁ h₂
    by_cases hne₁ : slot₁ = slot <;> by_cases hne₂ : slot₂ = slot
    · rw [hne₁, hne₂]
    · rw [hne₁, hself] at h₁
      rw [hother hne₂, ← h₁] at h₂
      exact absurd h₂ hfresh
    · rw [hne₂, hself] at h₂
      rw [hother hne₁, ← h₂] at h₁
      exact absurd h₁ hfresh
    · rw [hother hne₁] at h₁
      rw [hother hne₂] at h₂
      exact hwf.inj hreq₁ h₁ h₂
  · intro b ys _ hys
    refine ⟨(hnew hys).1.1, fun h => ?_⟩
    rw [hself] at h
    exact (hnew hys).2 (Option.some.inj h).symm

/-- The array of a place is written. -/
theorem Modified.of_write (hwf : w.Wf) (hslot : w.slots slot = some av) {mem : Memory Handler}
    (hholds : mem.Holds av xs) (hsep : mem.Separate) (hothers : Others w.mem mem av) :
    w.Modified { w with mem } slot xs where
  wf :=
    { separate := hsep
      holds := by
        intro slot₁ av₁ h₁
        obtain ⟨ys, hys⟩ := hwf.holds h₁
        by_cases hav : av₁ = av
        · exact ⟨xs, hav ▸ hholds⟩
        · exact ⟨ys, (hothers hav hys).1⟩
      inj := hwf.inj }
  stack := ⟨av, hslot, hholds⟩
  slots _ := rfl
  arrays hne hys := ⟨(hothers (fun hav => hne (by rw [hav]; exact hslot)) hys).1, hne⟩

/-! ## The functions, for a phase that can be modified -/

/-- What a call leaves of the handlers before it pushes any. -/
def kept (action : HandlerAction) (xs : List Handler) : List Handler :=
  match action with
  | .set => []
  | _ => xs

/-- The place that the calls of an owner for a phase modify. -/
def modifies (owner : HandlerOwner) (phase : Phase) : Slot :=
  (ravp (owner.r.map Prod.fst) phase).getD (avp owner.dcfg owner.scfg phase)

/-- The place that an owner finds for a phase. -/
def found (w : Handlers) (owner : HandlerOwner) (phase : Phase) : Slot :=
  w.effective (avp owner.dcfg owner.scfg phase) (ravp (owner.r.map Prod.fst) phase)

theorem prepare_spec (hwf : w.Wf) {avp : Slot} {ravp : Option Slot}
    (hstack : w.Stack (w.effective avp ravp) xs) (action : HandlerAction)
    (haction : action ≠ .get) :
    ∃ w', w.prepare avp ravp action = some w' ∧
      w.Modified w' (ravp.getD avp) (kept action xs) := by
  cases hslot : w.slots (ravp.getD avp) with
  | some av =>
      -- the request has its own stack, or there is no request
      have heffective : w.effective avp ravp = ravp.getD avp := by
        cases ravp with
        | none => rfl
        | some ravp => exact if_pos (by rw [← Option.getD_some (a := ravp), hslot]; rfl)
      have hholds := (heffective ▸ hstack).of_some hslot
      cases action with
      | get => exact absurd rfl haction
      | push =>
          refine ⟨w, ?_, .of_write hwf hslot hholds hwf.separate fun _ h => ⟨h, rfl⟩⟩
          cases ravp with
          | none => exact if_pos (by rw [← Option.getD_none (a := avp), hslot]; rfl)
          | some ravp => exact if_pos (by rw [← Option.getD_some (a := ravp), hslot]; rfl)
      | set =>
          obtain ⟨mem, htruncate, hempty, hsep, hothers⟩ := hholds.truncate hwf.separate
          refine ⟨{ w with mem }, ?_, .of_write hwf hslot hempty hsep hothers⟩
          simp only [prepare, hslot, htruncate, Option.map_some]
  | none =>
      have hnew : w.Modified (w.newArray (ravp.getD avp)) (ravp.getD avp) [] := by
        obtain ⟨hholds, hsep, hother⟩ := hwf.separate.make 1
        exact .of_new hwf hholds hsep hother
      cases action with
      | get => exact absurd rfl haction
      | set => exact ⟨w.newArray (ravp.getD avp), by simp only [prepare, hslot], hnew⟩
      | push =>
          cases ravp with
          | none =>
              rw [Option.getD_none] at hslot hnew
              rw [effective, Stack, hslot] at hstack
              subst hstack
              refine ⟨w.newArray avp, ?_, hnew⟩
              simp only [prepare, hslot, Option.isSome_none, Bool.false_eq_true, if_false]
          | some ravp =>
              rw [Option.getD_some] at hslot hnew
              have heffective : w.effective avp (some ravp) = avp :=
                if_neg (by rw [hslot]; exact nofun)
              rw [heffective] at hstack
              -- the stack of the config is copied, and the copy is pushed to
              cases havp : w.slots avp with
              | none =>
                  rw [Stack, havp] at hstack
                  subst hstack
                  refine ⟨w.newArray ravp, ?_, hnew⟩
                  simp only [prepare, hslot, havp, Option.isSome_none, Bool.false_eq_true,
                    if_false]
              | some av =>
                  obtain ⟨mem, av', hcopy, hholds, hsep, hother⟩ :=
                    (hstack.of_some havp).copy hwf.separate
                  refine ⟨setSlot { w with mem } ravp av', ?_, .of_new hwf hholds hsep hother⟩
                  simp only [prepare, hslot, havp, Option.isSome_none, Bool.false_eq_true,
                    if_false, copyArray, hcopy, Option.map_some]

/-- Each handler is pushed behind the others. -/
theorem pushHandlers_spec (hwf : w.Wf) (hslot : w.slots slot = some av) (hholds : w.mem.Holds av xs)
    (svs : List Sv) :
    ∃ w' res, w.pushHandlers av svs = some (w', res) ∧ w.Modified w' slot (xs ++ given svs) := by
  induction svs generalizing w xs with
  | nil =>
      refine ⟨w, .ok true, rfl, ?_⟩
      rw [given, List.append_nil]
      exact .of_write hwf hslot hholds hwf.separate fun _ h => ⟨h, rfl⟩
  | cons sv svs ih =>
      rw [pushHandlers, given]
      cases handlerNewFromSv sv with
      | error message =>
          refine ⟨w, .error message, rfl, ?_⟩
          rw [List.append_nil]
          exact .of_write hwf hslot hholds hwf.separate fun _ h => ⟨h, rfl⟩
      | ok handler =>
          cases handler with
          | none => exact ih hwf hslot hholds
          | some handler =>
              obtain ⟨mem, hpush, hholds', hsep, hothers⟩ :=
                hholds.push hwf.separate { handler with dynamic := true }
              have hmodified := Modified.of_write hwf hslot hholds' hsep hothers
              obtain ⟨w', res, hrest, hmodified'⟩ := ih hmodified.wf hslot hholds'
              refine ⟨w', res, ?_, ?_⟩
              · simp only [hpush, Option.bind_some]
                exact hrest
              · rw [List.append_assoc, List.singleton_append] at hmodified'
                exact hmodified.trans hmodified'

/-- The place that was modified is the one that is found. -/
theorem Modified.found_eq {owner : HandlerOwner} {phase : Phase}
    (h : w.Modified w' (modifies owner phase) xs) :
    w'.found owner phase = modifies owner phase := by
  obtain ⟨av, hslot, -⟩ := h.stack
  unfold found modifies at *
  cases hravp : ravp (owner.r.map Prod.fst) phase with
  | none => rfl
  | some ravp =>
      rw [hravp, Option.getD_some] at hslot
      exact if_pos (by rw [hslot]; rfl)

/-- A call that is not refused: its owner has the handlers that the call keeps
and those that it gives. -/
theorem perlAddHandlers_spec (hwf : w.Wf) (owner : HandlerOwner) {name : Bytes} {phase : Phase}
    {action : HandlerAction} (hname : handlerLookup name = some phase) (haction : action ≠ .get)
    (hcheck : checkModify (owner.r.map Prod.fst) phase action = .ok ())
    (hstack : w.Stack (w.found owner phase) xs) (svs : List Sv) :
    ∃ w' res, w.perlAddHandlers owner name svs action = some (w', res) ∧
      w.Modified w' (modifies owner phase) (kept action xs ++ given svs) := by
  obtain ⟨w₁, hprepare, hmodified⟩ := prepare_spec hwf hstack action haction
  obtain ⟨av, hslot, hholds⟩ := hmodified.stack
  obtain ⟨w₂, res, hpush, hmodified'⟩ := pushHandlers_spec hmodified.wf hslot hholds svs
  refine ⟨w₂, res, ?_, hmodified.trans hmodified'⟩
  have hfound : w₁.found owner phase = modifies owner phase := hmodified.found_eq
  have hget : w.getHandlers owner name action =
      some (w₁, .ok (some (modifies owner phase))) := by
    simp only [getHandlers, hname, lookupHandlers, hcheck, hprepare, Option.map_some]
    rw [← hfound]
    rfl
  rw [perlAddHandlers, hget, Option.bind_some]
  simp only [modifies, hslot, hpush]

end Handlers

/-! ## Calls on several requests -/

/-- The requests: the directory configuration that each has now, its server, and
the default directory configuration of each server. -/
structure Requests where
  dcfg : ℕ → ℕ
  scfg : ℕ → ℕ
  defaults : ℕ → ℕ

/-- The request for `modperl_handler_get_handlers`. -/
def Requests.owner (R : Requests) (r : ℕ) : HandlerOwner :=
  ⟨some (r, R.dcfg r), R.defaults (R.scfg r), R.scfg r⟩

/-- `$r->push_handlers(name => svs)` or `$r->set_handlers(name => svs)` -/
structure HandlersCall where
  r : ℕ
  name : Bytes
  svs : List Sv
  set : Bool
  deriving DecidableEq

namespace HandlersCall

def action (c : HandlersCall) : HandlerAction := if c.set then .set else .push

/-- The call, whether it returns or raises an error. -/
def step (R : Requests) (w : Handlers) (c : HandlersCall) : Option Handlers :=
  (w.perlAddHandlers (R.owner c.r) c.name c.svs c.action).map Prod.fst

/-- What the call makes of the handlers that it is about. -/
def apply (xs : List Handler) (c : HandlersCall) : List Handler :=
  if c.set then given c.svs else xs ++ given c.svs

/-- The call is on this request and for this phase, and it is not refused. -/
def Own (r : ℕ) (phase : Phase) (c : HandlersCall) : Prop :=
  c.r = r ∧ phase.Named c.name ∧ phase.OnRequest

instance (r : ℕ) (phase : Phase) : DecidablePred (Own r phase) :=
  fun _ => inferInstanceAs (Decidable (_ ∧ _ ∧ _))

end HandlersCall

namespace Handlers

variable {w w' : Handlers} {xs : List Handler} {R : Requests}

theorem ravp_of_onRequest {phase : Phase} (h : phase.OnRequest) (r : ℕ) :
    ravp (some r) phase = some (.rcfg r phase.type phase.idx) := by
  obtain ⟨type, idx⟩ := phase
  rcases h with h | h <;> cases h <;> rfl

theorem ravp_of_not_onRequest {phase : Phase} (h : ¬phase.OnRequest) (rcfg : Option ℕ) :
    ravp rcfg phase = none := by
  obtain ⟨type, idx⟩ := phase
  cases type with
  | perDir => exact absurd (.inl rfl) h
  | perSrv => exact absurd (.inr rfl) h
  | _ => rfl

theorem avp_not_onRequest (dcfg scfg : ℕ) (phase : Phase) : ¬(avp dcfg scfg phase).OnRequest := by
  obtain ⟨type, idx⟩ := phase
  cases type <;> exact id

/-- A phase of the other types is refused. -/
theorem checkModify_eq (r : ℕ) (phase : Phase) {action : HandlerAction} (haction : action ≠ .get) :
    phase.OnRequest ∧ checkModify (some r) phase action = .ok () ∨
      ¬phase.OnRequest ∧ ∃ message, checkModify (some r) phase action = .error message := by
  obtain ⟨type, idx⟩ := phase
  cases type with
  | perDir => exact .inl ⟨.inl rfl, rfl⟩
  | perSrv => exact .inl ⟨.inr rfl, rfl⟩
  | _ => exact .inr ⟨by simp [Phase.OnRequest], _, if_pos ⟨haction, rfl⟩⟩

/-- The lookup that a phase is run with finds the place, and changes nothing. -/
theorem lookupHandlers_get (w : Handlers) (owner : HandlerOwner) (phase : Phase) :
    w.lookupHandlers owner.dcfg owner.scfg (owner.r.map Prod.fst) phase .get =
      some (w, .ok (w.found owner phase)) := by
  obtain ⟨type, idx⟩ := phase
  cases type <;> rfl

theorem action_ne_get (c : HandlersCall) : c.action ≠ .get := by
  unfold HandlersCall.action
  split_ifs <;> exact nofun

theorem modifies_of_onRequest {phase : Phase} (h : phase.OnRequest) (R : Requests) (r : ℕ) :
    modifies (R.owner r) phase = .rcfg r phase.type phase.idx := by
  rw [modifies, Requests.owner, Option.map_some, ravp_of_onRequest h, Option.getD_some]

/-- A call that is not refused gives its request an array of its own. -/
theorem step_of_onRequest (hwf : w.Wf) (c : HandlersCall) {phase : Phase}
    (hname : handlerLookup c.name = some phase) (hphase : phase.OnRequest)
    (hstack : w.Stack (w.found (R.owner c.r) phase) xs) :
    ∃ w', c.step R w = some w' ∧
      w.Modified w' (.rcfg c.r phase.type phase.idx) (c.apply xs) := by
  rw [← modifies_of_onRequest hphase R]
  obtain ⟨-, hcheck⟩ | ⟨hnot, -⟩ := checkModify_eq c.r phase (action_ne_get c)
  · obtain ⟨w', res, hadd, hmodified⟩ :=
      perlAddHandlers_spec hwf (R.owner c.r) hname (action_ne_get c) hcheck hstack c.svs
    have happly : c.apply xs = kept c.action xs ++ given c.svs := by
      unfold HandlersCall.apply HandlersCall.action
      split_ifs <;> rfl
    refine ⟨w', ?_, happly ▸ hmodified⟩
    rw [HandlersCall.step, hadd]
    rfl
  · exact absurd hphase hnot

/-- A call that is refused, or for a name that no phase has, changes nothing. -/
theorem step_of_not_own (c : HandlersCall)
    (hnot : ∀ phase, handlerLookup c.name = some phase → ¬phase.OnRequest) :
    c.step R w = some w := by
  cases hname : handlerLookup c.name with
  | none => simp [HandlersCall.step, perlAddHandlers, getHandlers, hname]
  | some phase =>
      obtain ⟨hphase, -⟩ | ⟨-, message, hcheck⟩ := checkModify_eq c.r phase (action_ne_get c)
      · exact absurd hphase (hnot phase hname)
      · simp [HandlersCall.step, perlAddHandlers, getHandlers, hname, lookupHandlers,
          Requests.owner, hcheck, Except.map]

/-- The request has a stack of its own for the phase, with these handlers. -/
def Owned (w : Handlers) (r : ℕ) (phase : Phase) (xs : List Handler) : Prop :=
  phase.OnRequest ∧ (w.slots (.rcfg r phase.type phase.idx)).isSome ∧
    w.Stack (.rcfg r phase.type phase.idx) xs

/-- The request has no stack of its own for the phase. -/
def Unowned (w : Handlers) (r : ℕ) (phase : Phase) : Prop :=
  phase.OnRequest → w.slots (.rcfg r phase.type phase.idx) = none

/-- A phase of a request finds the stack of the request, if there is one. -/
theorem Owned.found_eq {r : ℕ} {phase : Phase} (h : w.Owned r phase xs) (R : Requests) :
    w.found (R.owner r) phase = .rcfg r phase.type phase.idx := by
  have hravp : ravp ((R.owner r).r.map Prod.fst) phase = _ := ravp_of_onRequest h.1 r
  rw [found, hravp]
  exact if_pos h.2.1

/-- Else it finds what is configured. -/
theorem Unowned.found_eq {r : ℕ} {phase : Phase} (h : w.Unowned r phase) (R : Requests) :
    w.found (R.owner r) phase = avp (R.dcfg r) (R.scfg r) phase := by
  by_cases hphase : phase.OnRequest
  · have hravp : ravp ((R.owner r).r.map Prod.fst) phase = _ := ravp_of_onRequest hphase r
    rw [found, hravp]
    exact if_neg (by rw [h hphase]; exact nofun)
  · have hravp : ravp ((R.owner r).r.map Prod.fst) phase = _ := ravp_of_not_onRequest hphase _
    rw [found, hravp]
    rfl

/-- Every place of the configuration holds the array that it held, with the same
handlers. -/
def SameConfig (w w' : Handlers) : Prop :=
  ∀ slot, ¬slot.OnRequest → w'.slots slot = w.slots slot ∧ ∀ xs, w.Stack slot xs → w'.Stack slot xs

theorem SameConfig.refl (w : Handlers) : w.SameConfig w := fun _ _ => ⟨rfl, fun _ h => h⟩

theorem SameConfig.trans {w'' : Handlers} (h : w.SameConfig w') (h' : w'.SameConfig w'') :
    w.SameConfig w'' := by
  intro slot hslot
  obtain ⟨hsame, hkeep⟩ := h slot hslot
  obtain ⟨hsame', hkeep'⟩ := h' slot hslot
  exact ⟨hsame'.trans hsame, fun xs hxs => hkeep' xs (hkeep xs hxs)⟩

/-- One call: the configuration is as before; the request has a stack of its own
for the phase that the call is about, with what the call makes of the handlers
found before; and no other place of a request changes. -/
theorem step_spec (hwf : w.Wf) (c : HandlersCall) :
    ∃ w', c.step R w = some w' ∧ w'.Wf ∧ w.SameConfig w' ∧ ∀ r phase,
      (c.Own r phase → ∀ xs, w.Stack (w.found (R.owner r) phase) xs →
        w'.Owned r phase (c.apply xs)) ∧
      (¬c.Own r phase →
        (∀ xs, w.Owned r phase xs → w'.Owned r phase xs) ∧
        (w.Unowned r phase → w'.Unowned r phase)) := by
  by_cases hrefused : ∀ phase, handlerLookup c.name = some phase → ¬phase.OnRequest
  · refine ⟨w, step_of_not_own c hrefused, hwf, .refl w, fun r phase => ⟨?_, ?_⟩⟩
    · intro hown
      exact absurd hown.2.2 (hrefused phase (handlerLookup_eq_some_iff.mpr hown.2.1))
    · exact fun _ => ⟨fun _ h => h, fun h => h⟩
  · obtain ⟨phase, hname, hphase⟩ : ∃ phase, handlerLookup c.name = some phase ∧
        phase.OnRequest := by
      by_contra hnone
      exact hrefused fun phase hname hphase => hnone ⟨phase, hname, hphase⟩
    obtain ⟨xs, hstack⟩ := Stack.exists hwf (w.found (R.owner c.r) phase)
    obtain ⟨w', hstep, hmodified⟩ := step_of_onRequest hwf c hname hphase hstack
    have hother : ∀ {slot ys}, slot ≠ .rcfg c.r phase.type phase.idx → w.Stack slot ys →
        w'.Stack slot ys := fun hne h => hmodified.stack_ne hwf trivial hne h
    refine ⟨w', hstep, hmodified.wf, fun slot hslot => ?_, fun r phase' => ⟨?_, fun hnot => ?_⟩⟩
    · have hne : slot ≠ .rcfg c.r phase.type phase.idx := fun h => hslot (h ▸ trivial)
      exact ⟨hmodified.slots hne, fun _ => hother hne⟩
    · intro hown ys hys
      have hphase' := handlerLookup_eq_some_iff.mpr hown.2.1
      obtain rfl : phase = phase' := Option.some.inj (hname.symm.trans hphase')
      obtain rfl : c.r = r := hown.1
      rw [hys.unique hstack]
      obtain ⟨av, hslot, hholds⟩ := hmodified.stack
      refine ⟨hphase, by rw [hslot]; rfl, ?_⟩
      rw [Stack, hslot]
      exact hholds
    · -- no two phases of requests share a place
      have hne : Slot.rcfg r phase'.type phase'.idx ≠ .rcfg c.r phase.type phase.idx := by
        intro h
        injection h with hr htype hidx
        have hsame : phase' = phase := by
          cases phase
          cases phase'
          simp_all only
        exact hnot ⟨hr.symm, handlerLookup_eq_some_iff.mp (hsame ▸ hname), hsame ▸ hphase⟩
      refine ⟨fun ys hys => ⟨hys.1, ?_, hother hne hys.2.2⟩, fun hys hphase' => ?_⟩
      · rw [hmodified.slots hne]
        exact hys.2.1
      · rw [hmodified.slots hne]
        exact hys hphase'

end Handlers

/-! ## Any number of calls -/

/-- A call on a request, or httpd gives a request another directory configuration
(`r->per_dir_config`), with the sections that it has merged. -/
inductive HandlersEvent
  | call (c : HandlersCall)
  | dirConfig (r dcfg : ℕ)

namespace HandlersEvent

/-- The requests afterwards. -/
def requests (R : Requests) : HandlersEvent → Requests
  | .call _ => R
  | .dirConfig r dcfg => { R with dcfg := Function.update R.dcfg r dcfg }

def step (s : Handlers × Requests) (e : HandlersEvent) : Option (Handlers × Requests) :=
  match e with
  | .call c => (c.step s.2 s.1).map (·, requests s.2 e)
  | .dirConfig _ _ => some (s.1, requests s.2 e)

/-- The calls of a request for a phase, each with the directory configuration that
the request has then; `dcfg` is the one that it has now. -/
def own (r : ℕ) (phase : Phase) (dcfg : ℕ) : List HandlersEvent → List (ℕ × HandlersCall)
  | [] => []
  | .call c :: es => if c.Own r phase then (dcfg, c) :: own r phase dcfg es else own r phase dcfg es
  | .dirConfig r' dcfg' :: es => own r phase (if r' = r then dcfg' else dcfg) es

end HandlersEvent

/-- The requests after all of this. -/
def Requests.after (R : Requests) (es : List HandlersEvent) : Requests :=
  es.foldl HandlersEvent.requests R

/-- What calls make of these handlers, one after the other. -/
def foldCalls (xs : List Handler) (calls : List (ℕ × HandlersCall)) : List Handler :=
  (calls.map Prod.snd).foldl HandlersCall.apply xs

/-- Two stacks are told apart after the calls unless one of them sets the handlers. -/
theorem foldCalls_eq_iff {xs ys : List Handler} (calls : List (ℕ × HandlersCall)) :
    foldCalls xs calls = foldCalls ys calls ↔ (∃ call ∈ calls, call.2.set = true) ∨ xs = ys := by
  induction calls generalizing xs ys with
  | nil => simp [foldCalls]
  | cons call calls ih =>
      have hcons : ∀ zs, foldCalls zs (call :: calls) = foldCalls (call.2.apply zs) calls :=
        fun _ => rfl
      rw [hcons, hcons, ih]
      cases hset : call.2.set with
      | true => simp [HandlersCall.apply, hset]
      | false => simp [HandlersCall.apply, hset]

namespace Handlers

variable {w : Handlers} {R : Requests}

/-- A request that has a stack of its own: its calls modify this one.  One that
has none gets one with its first call, from what is configured then. -/
theorem run_spec (hwf : w.Wf) (es : List HandlersEvent) :
    ∃ w', Machine.run HandlersEvent.step (w, R) es = some (w', R.after es) ∧
      (R.after es).scfg = R.scfg ∧ w.SameConfig w' ∧ ∀ r phase,
        (∀ xs, w.Owned r phase xs →
          w'.Owned r phase (foldCalls xs (HandlersEvent.own r phase (R.dcfg r) es))) ∧
        (w.Unowned r phase → HandlersEvent.own r phase (R.dcfg r) es = [] →
          w'.Unowned r phase) ∧
        (w.Unowned r phase → ∀ first ∈ (HandlersEvent.own r phase (R.dcfg r) es).head?, ∀ xs,
          w.Stack (avp first.1 (R.scfg r) phase) xs →
          w'.Owned r phase (foldCalls xs (HandlersEvent.own r phase (R.dcfg r) es))) := by
  induction es generalizing w R with
  | nil =>
      refine ⟨w, rfl, rfl, .refl w, fun r phase => ⟨fun _ h => h, fun h _ => h, ?_⟩⟩
      exact fun _ _ hfirst => absurd hfirst (Option.not_mem_none _)
  | cons e es ih =>
      cases e with
      | dirConfig r' dcfg' =>
          obtain ⟨w', hrun, hscfg, hconfig, hstack⟩ :=
            ih (R := { R with dcfg := Function.update R.dcfg r' dcfg' }) hwf
          refine ⟨w', hrun, hscfg, hconfig, fun r phase => ?_⟩
          have hown : HandlersEvent.own r phase (R.dcfg r) (.dirConfig r' dcfg' :: es) =
              HandlersEvent.own r phase (Function.update R.dcfg r' dcfg' r) es := by
            rw [HandlersEvent.own, Function.update_apply]
            simp only [eq_comm]
          rw [hown]
          exact hstack r phase
      | call c =>
          obtain ⟨w₁, hstep, hwf₁, hconfig₁, hcall⟩ := step_spec (R := R) hwf c
          obtain ⟨w', hrun, hscfg, hconfig, hstack⟩ := ih (R := R) hwf₁
          refine ⟨w', ?_, hscfg, hconfig₁.trans hconfig, fun r phase => ?_⟩
          · rw [Machine.run, HandlersEvent.step, hstep]
            exact hrun
          · obtain ⟨howned, hunowned, hfirst⟩ := hstack r phase
            obtain ⟨hown, hother⟩ := hcall r phase
            rw [HandlersEvent.own]
            split_ifs with hc
            · refine ⟨fun xs hxs => ?_, fun _ h => h.elim, fun h first hmem xs hxs => ?_⟩
              · apply howned
                exact hown hc xs (hxs.found_eq R ▸ hxs.2.2)
              · obtain rfl := Option.some.inj hmem
                apply howned
                exact hown hc xs (h.found_eq R ▸ hxs)
            · obtain ⟨hkeep, hnone⟩ := hother hc
              refine ⟨fun xs hxs => howned xs (hkeep xs hxs), fun h => hunowned (hnone h), ?_⟩
              intro h first hmem xs hxs
              exact hfirst (hnone h) first hmem xs ((hconfig₁ _ (avp_not_onRequest _ _ _)).2 _ hxs)

end Handlers

/-- Requests call `push_handlers` and `set_handlers` in whatever order, and httpd
gives them other directory configurations between.  Every call comes to an end;
each place of the configuration keeps its array, and each of these arrays keeps
its handlers; and for each request and phase, the lookup that the phase is run
with, and `get_handlers` by each name of the phase, changes nothing and finds a
stack.  It is the fold of the request's own calls for the phase from what is
configured for it now exactly if one of these calls sets the handlers, or what
was configured for the request at the first of them is the same. -/
theorem handlers_fold_iff {R : Requests} {w : Handlers} (es : List HandlersEvent)
    (hseparate : w.mem.Separate)
    (hconfigured : ∀ {slot av}, w.slots slot = some av → ∃ xs, w.mem.Holds av xs)
    (hfresh : ∀ {slot}, slot.OnRequest → w.slots slot = none) :
    ∃ w', Machine.run HandlersEvent.step (w, R) es = some (w', R.after es) ∧ w.SameConfig w' ∧
      ∀ r phase xs, w.Stack (Handlers.avp ((R.after es).dcfg r) (R.scfg r) phase) xs →
        ∃ slot ys,
          w'.lookupHandlers ((R.after es).dcfg r) (R.scfg r) (some r) phase .get =
            some (w', .ok slot) ∧
          (∀ name, phase.Named name →
            w'.getHandlers ((R.after es).owner r) name .get = some (w', .ok (some slot))) ∧
          w'.Stack slot ys ∧
          (ys = foldCalls xs (HandlersEvent.own r phase (R.dcfg r) es) ↔
            (∃ call ∈ HandlersEvent.own r phase (R.dcfg r) es, call.2.set = true) ∨
            ∀ first ∈ (HandlersEvent.own r phase (R.dcfg r) es).head?,
              w.Stack (Handlers.avp first.1 (R.scfg r) phase) xs) := by
  have hwf : w.Wf :=
    { separate := hseparate
      holds := hconfigured
      inj := fun hreq hslot _ => by rw [hfresh hreq] at hslot; cases hslot }
  obtain ⟨w', hrun, hscfg, hconfig, hstack⟩ := Handlers.run_spec (R := R) hwf es
  refine ⟨w', hrun, hconfig, fun r phase xs hxs => ?_⟩
  obtain ⟨-, hnone, hfirst⟩ := hstack r phase
  have hunowned : w.Unowned r phase := fun _ => hfresh trivial
  have hlookup : w'.lookupHandlers ((R.after es).dcfg r) (R.scfg r) (some r) phase .get =
      some (w', .ok (w'.found ((R.after es).owner r) phase)) := by
    rw [← hscfg]
    exact w'.lookupHandlers_get ((R.after es).owner r) phase
  have hget : ∀ name, phase.Named name → w'.getHandlers ((R.after es).owner r) name .get =
      some (w', .ok (some (w'.found ((R.after es).owner r) phase))) := by
    intro name hname
    rw [Handlers.getHandlers, handlerLookup_eq_some_iff.mpr hname]
    simp only [w'.lookupHandlers_get ((R.after es).owner r) phase]
    rfl
  cases hown : HandlersEvent.own r phase (R.dcfg r) es with
  | nil =>
      refine ⟨_, xs, hlookup, hget, ?_, iff_of_true rfl (.inr nofun)⟩
      rw [(hnone hunowned hown).found_eq, hscfg]
      exact (hconfig _ (Handlers.avp_not_onRequest _ _ _)).2 _ hxs
  | cons first rest =>
      obtain ⟨ys, hys⟩ := Handlers.Stack.exists hwf (Handlers.avp first.1 (R.scfg r) phase)
      have howned := hfirst hunowned first (by rw [hown]; rfl) ys hys
      rw [hown] at howned
      refine ⟨_, _, hlookup, hget, howned.found_eq (R.after es) ▸ howned.2.2, ?_⟩
      rw [foldCalls_eq_iff]
      refine or_congr Iff.rfl ⟨fun h _ hmem => ?_, fun h => hys.unique (h first rfl)⟩
      rw [← Option.some.inj hmem, ← h]
      exact hys

/-- Handlers are configured for the fixup phase of a directory, and no others. -/
def Handlers.fixup (handlers : List Handler) : Handlers where
  mem := ⟨[⟨0, handlers.length⟩], [handlers.map some]⟩
  slots slot := if slot = .dcfg 0 5 then some 0 else none

theorem Handlers.fixup_stack (handlers : List Handler) :
    (fixup handlers).Stack (.dcfg 0 5) handlers := by
  refine ⟨⟨0, handlers.length⟩, handlers.map some, rfl, rfl, rfl, ?_⟩
  exact List.take_of_length_le (Nat.le_of_eq (List.length_map some))

theorem Handlers.fixup_wf (handlers : List Handler) : (fixup handlers).Wf := by
  have hheader : ∀ {a : ℕ} {header : Header}, (fixup handlers).mem.headers[a]? = some header →
      a = 0 ∧ header.elts = 0 := by
    intro a header h
    cases a with
    | zero => exact ⟨rfl, (Option.some.inj h).symm ▸ rfl⟩
    | succ a => cases h
  have hslot : ∀ {slot av}, (fixup handlers).slots slot = some av → slot = .dcfg 0 5 ∧ av = 0 := by
    intro slot av h
    simp only [fixup] at h
    split_ifs at h with hdcfg
    exact ⟨hdcfg, (Option.some.inj h).symm⟩
  constructor
  · exact ⟨fun h => (hheader h).2 ▸ Nat.one_pos,
      fun h h' _ => (hheader h).1.trans (hheader h').1.symm⟩
  · intro slot av h
    obtain ⟨-, rfl⟩ := hslot h
    exact ⟨handlers, fixup_stack handlers⟩
  · exact fun _ h h' => (hslot h).1.trans (hslot h').1.symm

/-- Every request has this directory configuration; the second one is the default
of the server. -/
def Requests.two (dcfg : ℕ) : Requests := ⟨fun _ => dcfg, fun _ => 0, fun _ => 1⟩

/-- A request that has the default configuration at first pushes a fixup handler,
and gets the configuration of its directory afterwards.  The fixup phase runs the
pushed handler only: what is configured is not found any more. -/
theorem configured_handlers_hidden :
    ∃ w' slot, Machine.run HandlersEvent.step (.fixup [.new (ascii "A")], .two 1)
        [.call ⟨0, ascii "PerlFixupHandler", [.string (ascii "B")], false⟩, .dirConfig 0 0] =
          some (w', .after (.two 1)
            [.call ⟨0, ascii "PerlFixupHandler", [.string (ascii "B")], false⟩, .dirConfig 0 0]) ∧
      (Handlers.fixup [.new (ascii "A")]).Stack (Handlers.avp 0 0 ⟨.perDir, 5⟩)
        [.new (ascii "A")] ∧
      w'.lookupHandlers 0 0 (some 0) ⟨.perDir, 5⟩ .get = some (w', .ok slot) ∧
      w'.Stack slot [{ Handler.new (ascii "B") with dynamic := true }] ∧
      ¬w'.Stack slot (foldCalls [.new (ascii "A")] (HandlersEvent.own 0 ⟨.perDir, 5⟩ 1
        [.call ⟨0, ascii "PerlFixupHandler", [.string (ascii "B")], false⟩, .dirConfig 0 0])) := by
  obtain ⟨w', hrun, -, -, hstack⟩ := Handlers.run_spec (R := .two 1)
    (Handlers.fixup_wf [.new (ascii "A")])
    [.call ⟨0, ascii "PerlFixupHandler", [.string (ascii "B")], false⟩, .dirConfig 0 0]
  have hown : HandlersEvent.own 0 ⟨.perDir, 5⟩ 1
      [.call ⟨0, ascii "PerlFixupHandler", [.string (ascii "B")], false⟩, .dirConfig 0 0] =
      [(1, ⟨0, ascii "PerlFixupHandler", [.string (ascii "B")], false⟩)] := by
    decide +kernel
  have howned : w'.Owned 0 ⟨.perDir, 5⟩ [{ Handler.new (ascii "B") with dynamic := true }] := by
    have hfirst := (hstack 0 ⟨.perDir, 5⟩).2.2 (fun _ => rfl)
    rw [show (Requests.two 1).dcfg 0 = 1 from rfl, hown] at hfirst
    exact hfirst _ rfl [] rfl
  refine ⟨w', _, hrun, Handlers.fixup_stack _, w'.lookupHandlers_get ((Requests.two 0).owner 0) _,
    ?_, ?_⟩
  · rw [howned.found_eq]
    exact howned.2.2
  · rw [howned.found_eq, hown]
    intro h
    exact absurd (howned.2.2.unique h) (by decide)

/-- Two requests for the directory: one pushes a handler, the other sets its
own.  The configured handler stays where it is. -/
theorem handlers_fold_two :
    ∃ w' slot slot', Machine.run HandlersEvent.step (.fixup [.new (ascii "A")], .two 0)
        [.call ⟨0, ascii "PerlFixupHandler", [.string (ascii "B")], false⟩,
          .call ⟨1, ascii "PerlFixupHandler", [.string (ascii "C")], true⟩] = some (w', .two 0) ∧
      w'.Stack (.dcfg 0 5) [.new (ascii "A")] ∧
      w'.lookupHandlers 0 0 (some 0) ⟨.perDir, 5⟩ .get = some (w', .ok slot) ∧
      w'.Stack slot [.new (ascii "A"), { Handler.new (ascii "B") with dynamic := true }] ∧
      w'.lookupHandlers 0 0 (some 1) ⟨.perDir, 5⟩ .get = some (w', .ok slot') ∧
      w'.Stack slot' [{ Handler.new (ascii "C") with dynamic := true }] := by
  have hwf := Handlers.fixup_wf [.new (ascii "A")]
  have hstack := Handlers.fixup_stack [.new (ascii "A")]
  obtain ⟨w', hrun, hconfig, hlookup⟩ := @handlers_fold_iff (.two 0)
    (.fixup [.new (ascii "A")]) [.call ⟨0, ascii "PerlFixupHandler", [.string (ascii "B")], false⟩,
      .call ⟨1, ascii "PerlFixupHandler", [.string (ascii "C")], true⟩] hwf.separate hwf.holds
    (fun {slot} h => if_neg (by rintro rfl; exact h))
  have hpush : HandlersEvent.own 0 ⟨.perDir, 5⟩ ((Requests.two 0).dcfg 0)
      [.call ⟨0, ascii "PerlFixupHandler", [.string (ascii "B")], false⟩,
        .call ⟨1, ascii "PerlFixupHandler", [.string (ascii "C")], true⟩] =
      [(0, ⟨0, ascii "PerlFixupHandler", [.string (ascii "B")], false⟩)] := by
    decide +kernel
  have hset : HandlersEvent.own 1 ⟨.perDir, 5⟩ ((Requests.two 0).dcfg 1)
      [.call ⟨0, ascii "PerlFixupHandler", [.string (ascii "B")], false⟩,
        .call ⟨1, ascii "PerlFixupHandler", [.string (ascii "C")], true⟩] =
      [(0, ⟨1, ascii "PerlFixupHandler", [.string (ascii "C")], true⟩)] := by
    decide +kernel
  obtain ⟨slot, ys, hslot, -, hys, hfold⟩ := hlookup 0 ⟨.perDir, 5⟩ _ hstack
  obtain ⟨slot', ys', hslot', -, hys', hfold'⟩ := hlookup 1 ⟨.perDir, 5⟩ _ hstack
  rw [hpush] at hfold
  rw [hset] at hfold'
  rw [hfold.mpr (.inr fun first h => Option.some.inj h ▸ hstack)] at hys
  rw [hfold'.mpr (.inl ⟨_, List.mem_singleton_self _, rfl⟩)] at hys'
  exact ⟨w', slot, slot', hrun, (hconfig _ id).2 _ hstack, hslot, hys, hslot', hys'⟩

end ModPerl
