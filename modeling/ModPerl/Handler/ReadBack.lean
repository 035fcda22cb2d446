import ModPerl.Handler.Equality
import ModPerl.Handler.Stack
import Mathlib.Data.List.Forall2

/-!
# Handlers that are read and put back

`get_handlers` resolves the handlers of a phase and returns a code reference for
each that has a symbol, and the name of any other; `set_handlers` makes handlers
of such values.  What a method is called on is not in the code reference, an
anonymous sub has neither a symbol nor a name, and a handler whose symbol is no
longer there is left out.

The functions are those of `modperl_handler.c`.  A result of `none` is a croak, or
a reference to code that is not there.
-/

namespace ModPerl

/-- The name that a sub has from its own glob. -/
def Program.cvName (p : Program) (cv : ℕ) : Bytes :=
  (p.cvGv cv).1 ++ ascii "::" ++ (p.cvGv cv).2

/-- A code reference, as `modperl_handler_new_from_sv` looks at it. -/
def Program.codeSv (p : Program) (cv : ℕ) : Sv :=
  if p.cvAnon cv then .anonymous cv else .code (some (p.cvName cv))

namespace MethodHandler

variable (requireModule : Program → Bytes → Program × Bool)

/-- The part of the loop that resolves a handler.  One that cannot be resolved is gone
on with. -/
def readResolve (p : Program) (handler : MethodHandler) : Option (Program × MethodHandler) :=
  if handler.parsed then some (p, handler)
  else
    match mgvResolve requireModule p handler (handler.name.getD []) true with
    | .resolved p handler => some (p, handler)
    | .failed p handler => some (p, handler)
    | .croaked _ => none

/-- The part that pushes its value.  A string that is made of no name is `undef`. -/
def readPush (p : Program) (handler : MethodHandler) : Option (List Sv) :=
  match handler.mgvCv with
  | some keys =>
      match p.glob keys with
      | some (some cv) => some [p.codeSv cv]
      | some none => none
      | none => some []
  | none =>
      match handler.name with
      | some name => some [.string name]
      | none => some [.other]

/-- The loop of `modperl_handler_perl_get_handlers`. -/
def readLoop (p : Program) : List MethodHandler → Option (Program × List Sv)
  | [] => some (p, [])
  | handler :: rest =>
      (readResolve requireModule p handler).bind fun (p, handler) =>
        (readPush p handler).bind fun svs =>
          (readLoop p rest).map fun (p, rest) => (p, svs ++ rest)

/-- `modperl_handler_perl_get_handlers`: `undef` if there is no array. -/
def perlGetHandlers (p : Program) : Option (List MethodHandler) → Option (Program × List Sv)
  | none => some (p, [.other])
  | some handlers => readLoop requireModule p handlers

/-- A handler that is pushed makes this call. -/
def Makes (p : Program) (invocation : Option Invocation) (handler : Handler) : Prop :=
  (ofHandler handler).invoke requireModule p = invocation

/-- After `set_handlers` with what `get_handlers` returned the request has as many handlers
for the phase, and each makes the call that the one in its place made before. -/
def ReadBack (R : Requests) (w : Handlers) (r : ℕ) (name : Bytes) (phase : Phase) (p : Program)
    (handlers : List MethodHandler) : Prop :=
  ∃ p' svs w' xs,
    perlGetHandlers requireModule p
      ((w.slots (w.found (R.owner r) phase)).map fun _ => handlers) = some (p', svs) ∧
    HandlersCall.step R w ⟨r, name, svs, true⟩ = some w' ∧
    w'.Stack (w'.found (R.owner r) phase) xs ∧
    List.Forall₂ (fun handler x => Makes requireModule p' (handler.invoke requireModule p) x)
      handlers xs

/-- The program once the handlers are resolved. -/
def programAfter (p : Program) : List MethodHandler → Program
  | [] => p
  | handler :: rest =>
      programAfter (((readResolve requireModule p handler).map Prod.fst).getD p) rest

/-- A handler that makes this call can be put back: resolved in `p` it is `resolved`, and
it is put back in `p'`.  It has called an anonymous sub as a function, or made the call that
the name of its sub makes, or it has no symbol, and its own name makes the call. -/
def Kept (p p' : Program) (invocation : Option Invocation) (resolved : MethodHandler) : Prop :=
  match resolved.mgvCv with
  | some keys =>
      match p.glob keys with
      | some (some cv) =>
          if p.cvAnon cv then invocation = some ⟨cv, none⟩
          else Makes requireModule p' invocation { Handler.new (p.cvName cv) with dynamic := true }
      | _ => False
  | none =>
      match resolved.name with
      | some name => Makes requireModule p' invocation { Handler.new name with dynamic := true }
      | none => False

/-- Each handler can be resolved or gone on with, and put back. -/
def AllKept (before after : Program) : Program → List MethodHandler → Prop
  | _, [] => True
  | p, handler :: rest =>
      ∃ p₁ resolved, readResolve requireModule p handler = some (p₁, resolved) ∧
        Kept requireModule p₁ after (handler.invoke requireModule before) resolved ∧
        AllKept before after p₁ rest

/-! ## One handler -/

variable {requireModule} {before p p' p₁ after : Program} {handler resolved : MethodHandler}
  {handlers : List MethodHandler} {svs : List Sv} {invocation : Option Invocation}

/-- An anonymous sub is called as a function. -/
theorem makes_newAnon_iff (cv : ℕ) :
    Makes requireModule p' invocation { Handler.newAnon cv with dynamic := true } ↔
      invocation = some ⟨cv, none⟩ :=
  eq_comm

/-- The value of a handler gives a handler, which makes the right call exactly if the handler
is kept, or it gives none. -/
theorem readPush_spec (h : readPush p resolved = some svs) :
    (∃ x, (∀ rest, given (svs ++ rest) = x :: given rest) ∧ ∀ p' invocation,
        Kept requireModule p p' invocation resolved ↔ Makes requireModule p' invocation x) ∨
      (∀ rest, given (svs ++ rest) = given rest) ∧
        ∀ p' invocation, ¬Kept requireModule p p' invocation resolved := by
  revert h
  unfold readPush Kept
  cases resolved.mgvCv with
  | some keys =>
      dsimp only
      cases p.glob keys with
      | none =>
          intro h
          obtain rfl := Option.some.inj h
          exact .inr ⟨fun _ => rfl, fun _ _ => not_false⟩
      | some code =>
          cases code with
          | none => exact fun h => nomatch h
          | some cv =>
              intro h
              obtain rfl := Option.some.inj h
              unfold Program.codeSv
              dsimp only
              split_ifs with hanon
              · exact .inl ⟨_, fun _ => rfl, fun _ _ => (makes_newAnon_iff cv).symm⟩
              · exact .inl ⟨_, fun _ => rfl, fun _ _ => Iff.rfl⟩
  | none =>
      dsimp only
      cases resolved.name with
      | none =>
          intro h
          obtain rfl := Option.some.inj h
          exact .inr ⟨fun _ => rfl, fun _ _ => not_false⟩
      | some name =>
          intro h
          obtain rfl := Option.some.inj h
          exact .inl ⟨_, fun _ => rfl, fun _ _ => Iff.rfl⟩

/-- What is kept has a value. -/
theorem Kept.exists_readPush (h : Kept requireModule p p' invocation resolved) :
    ∃ svs, readPush p resolved = some svs := by
  unfold Kept at h
  unfold readPush
  split at h
  · split at h
    · next hglob => exact ⟨_, by rw [hglob]⟩
    · exact h.elim
  · split at h
    · exact ⟨_, rfl⟩
    · exact h.elim

/-- A sub that is found by the name of its own glob. -/
structure FoundByName (p p' : Program) (cv : ℕ) : Prop where
  unsigned : (Handler.new (p.cvName cv)).name = some (p.cvName cv)
  sub : ¬ascii "sub " <+: p.cvName cv
  arrow : splitArrow (p.cvName cv) = none
  getCv : p'.getCv (p.cvName cv) = some cv
  glob : p'.glob (symbolAppend (symbolKeys (p'.cvGv cv).1) (p'.cvGv cv).2) = some (some cv)

/-- The name of such a sub calls it as a function. -/
theorem FoundByName.makes_iff {cv : ℕ} (h : FoundByName p p' cv) :
    Makes requireModule p' invocation { Handler.new (p.cvName cv) with dynamic := true } ↔
      invocation = some ⟨cv, none⟩ := by
  obtain ⟨name, hname⟩ := pendingAs_new (p.cvName cv) true
  obtain rfl : p.cvName cv = name := Option.some.inj (h.unsigned.symm.trans hname.name_eq)
  rw [Makes, hname.invoke_eq, mgvResolve_name rfl h.sub h.arrow, h.getCv]
  have hcall : (Resolution.resolved p' { unresolved (p.cvName cv) true true with
      mgvCv := some (symbolAppend (symbolKeys (p'.cvGv cv).1) (p'.cvGv cv).2)
      parsed := true }).call = some ⟨cv, none⟩ := by
    rw [Resolution.call, call, code]
    dsimp only [unresolved, ofHandler]
    rw [Option.bind_some, h.glob]
    rfl
  exact ⟨fun heq => heq.symm.trans hcall, fun heq => hcall.trans heq.symm⟩

/-- A handler of such a sub is kept exactly if it has called it as a function: no method is. -/
theorem kept_iff_function {keys : List Bytes} {cv : ℕ} (hmgvCv : resolved.mgvCv = some keys)
    (hglob : p.glob keys = some (some cv)) (hfound : FoundByName p p' cv) :
    Kept requireModule p p' invocation resolved ↔ invocation = some ⟨cv, none⟩ := by
  unfold Kept
  rw [hmgvCv]
  dsimp only
  rw [hglob]
  dsimp only
  split_ifs
  · exact Iff.rfl
  · exact hfound.makes_iff

/-! ## All handlers -/

/-- What the loop returns gives a handler for each that is kept, and for all only if all
are. -/
theorem readLoop_spec (h : readLoop requireModule p handlers = some (p', svs)) :
    p' = programAfter requireModule p handlers ∧ (given svs).length ≤ handlers.length ∧
      ∀ before after,
        List.Forall₂ (fun handler x => Makes requireModule after
          (handler.invoke requireModule before) x) handlers (given svs) ↔
          AllKept requireModule before after p handlers := by
  induction handlers generalizing p svs with
  | nil =>
      cases h
      exact ⟨rfl, Nat.le_refl _, fun _ _ => iff_of_true .nil trivial⟩
  | cons handler handlers ih =>
      rw [readLoop] at h
      obtain ⟨⟨p₁, resolved⟩, hresolve, h⟩ := Option.bind_eq_some_iff.mp h
      obtain ⟨front, hpush, h⟩ := Option.bind_eq_some_iff.mp h
      obtain ⟨⟨p₂, rest⟩, hloop, heq⟩ := Option.map_eq_some_iff.mp h
      obtain ⟨rfl, rfl⟩ := Prod.mk.inj heq
      obtain ⟨hafter, hlength, hkept⟩ := ih hloop
      refine ⟨?_, ?_⟩
      · rw [programAfter, hresolve, hafter]
        rfl
      obtain ⟨x, hgiven, hx⟩ | ⟨hgiven, hnot⟩ := readPush_spec hpush
      · rw [hgiven]
        refine ⟨Nat.succ_le_succ hlength, fun before after => ?_⟩
        rw [List.forall₂_cons, hkept before after, AllKept]
        constructor
        · rintro ⟨hmakes, hrest⟩
          exact ⟨p₁, resolved, hresolve, (hx _ _).mpr hmakes, hrest⟩
        · rintro ⟨p₁', resolved', hresolve', hfirst, hrest⟩
          obtain ⟨rfl, rfl⟩ := Prod.mk.inj (Option.some.inj (hresolve.symm.trans hresolve'))
          exact ⟨(hx _ _).mp hfirst, hrest⟩
      · rw [hgiven]
        refine ⟨Nat.le_succ_of_le hlength, fun before after => iff_of_false ?_ ?_⟩
        · intro hall
          have heq := hall.length_eq
          rw [List.length_cons] at heq
          omega
        · rintro ⟨p₁', resolved', hresolve', hfirst, hrest⟩
          obtain ⟨rfl, rfl⟩ := Prod.mk.inj (Option.some.inj (hresolve.symm.trans hresolve'))
          exact hnot _ _ hfirst

/-- If all are kept the loop returns. -/
theorem AllKept.readLoop (h : AllKept requireModule before after p handlers) :
    ∃ p' svs, readLoop requireModule p handlers = some (p', svs) := by
  induction handlers generalizing p with
  | nil => exact ⟨p, [], rfl⟩
  | cons handler handlers ih =>
      obtain ⟨p₁, resolved, hresolve, hkept, hrest⟩ := h
      obtain ⟨front, hpush⟩ := hkept.exists_readPush
      obtain ⟨p', svs, hloop⟩ := ih hrest
      refine ⟨p', front ++ svs, ?_⟩
      rw [MethodHandler.readLoop, hresolve, Option.bind_some]
      dsimp only
      rw [hpush, Option.bind_some, hloop]
      rfl

/-- The request has the handlers that are made of what was returned. -/
theorem readBack_iff_given {R : Requests} {w : Handlers} (hwf : w.Wf) {r : ℕ} {name : Bytes}
    {phase : Phase} (hname : handlerLookup name = some phase) (hphase : phase.OnRequest)
    (hstack : w.Stack (w.found (R.owner r) phase) (handlers.map MethodHandler.toHandler)) :
    ReadBack requireModule R w r name phase p handlers ↔
      ∃ p' svs, perlGetHandlers requireModule p
          ((w.slots (w.found (R.owner r) phase)).map fun _ => handlers) = some (p', svs) ∧
        List.Forall₂ (fun handler x => Makes requireModule p'
          (handler.invoke requireModule p) x) handlers (given svs) := by
  have hset : ∀ svs, ∃ w', HandlersCall.step R w ⟨r, name, svs, true⟩ = some w' ∧
      w'.Stack (w'.found (R.owner r) phase) (given svs) := by
    intro svs
    obtain ⟨w', hstep, hmodified⟩ :=
      Handlers.step_of_onRequest hwf ⟨r, name, svs, true⟩ hname hphase hstack
    rw [← Handlers.modifies_of_onRequest hphase R] at hmodified
    obtain ⟨av, hslot, hholds⟩ := hmodified.stack
    refine ⟨w', hstep, ?_⟩
    rw [hmodified.found_eq, Handlers.Stack, hslot]
    exact hholds
  constructor
  · rintro ⟨p', svs, w', xs, hget, hstep, hxs, hall⟩
    obtain ⟨w'', hstep', hgiven⟩ := hset svs
    obtain rfl := Option.some.inj (hstep.symm.trans hstep')
    exact ⟨p', svs, hget, hgiven.unique hxs ▸ hall⟩
  · rintro ⟨p', svs, hget, hall⟩
    obtain ⟨w', hstep, hgiven⟩ := hset svs
    exact ⟨p', svs, w', _, hget, hstep, hgiven, hall⟩

end MethodHandler

open MethodHandler

/-- A request has its handlers for a phase again, each making the call that it made, after
what `get_handlers` returned was given to `set_handlers`, exactly if each can be put back; and
one whose sub is found by the name of its own glob can be put back exactly if it has called it
as a function. -/
theorem readBack_iff (requireModule : Program → Bytes → Program × Bool) (R : Requests)
    (w : Handlers) (hwf : w.Wf) (r : ℕ) (name : Bytes) (phase : Phase)
    (hname : handlerLookup name = some phase) (hphase : phase.OnRequest) (p : Program)
    (handlers : List MethodHandler)
    (hstack : w.Stack (w.found (R.owner r) phase) (handlers.map MethodHandler.toHandler)) :
    (ReadBack requireModule R w r name phase p handlers ↔
        AllKept requireModule p (programAfter requireModule p handlers) p handlers) ∧
      ∀ (p₁ : Program) (resolved : MethodHandler) (invocation : Option Invocation)
        (keys : List Bytes) (cv : ℕ), resolved.mgvCv = some keys →
        p₁.glob keys = some (some cv) →
        FoundByName p₁ (programAfter requireModule p handlers) cv →
        (Kept requireModule p₁ (programAfter requireModule p handlers) invocation resolved ↔
          invocation = some ⟨cv, none⟩) := by
  refine ⟨?_, fun p₁ resolved invocation keys cv hmgvCv hglob hfound =>
    kept_iff_function hmgvCv hglob hfound⟩
  rw [readBack_iff_given hwf hname hphase hstack]
  cases hslot : w.slots (w.found (R.owner r) phase) with
  | none =>
      -- without an array there is no handler, and `undef` gives none
      rw [Handlers.Stack, hslot] at hstack
      obtain rfl := List.map_eq_nil_iff.mp hstack
      exact iff_of_true ⟨p, [.other], rfl, .nil⟩ trivial
  | some av =>
      rw [Option.map_some]
      constructor
      · rintro ⟨p', svs, hget, hall⟩
        obtain ⟨rfl, -, hkept⟩ := readLoop_spec hget
        exact (hkept _ _).mp hall
      · intro hall
        obtain ⟨p', svs, hget⟩ := hall.readLoop
        obtain ⟨rfl, -, hkept⟩ := readLoop_spec hget
        exact ⟨_, svs, hget, (hkept _ _).mpr hall⟩

/-- A package with a function `handler`, and that function by its name. -/
theorem readBack_two :
    ReadBack (fun p _ => (p, false)) ⟨fun _ => 0, fun _ => 0, fun _ => 0⟩
        (.fixup [.new (ascii "A"), .new (ascii "Base::handler")]) 0 (ascii "PerlFixupHandler")
        ⟨.perDir, 5⟩ .inherited
        [ofHandler (.new (ascii "A")), ofHandler (.new (ascii "Base::handler"))] ∧
      Kept (fun p _ => (p, false)) .inherited .inherited (some ⟨1, none⟩)
        (inheritedHandler (ascii "A") none) := by
  obtain ⟨hiff, hfunction⟩ := readBack_iff (fun p _ => (p, false))
    ⟨fun _ => 0, fun _ => 0, fun _ => 0⟩ (.fixup [.new (ascii "A"), .new (ascii "Base::handler")])
    (Handlers.fixup_wf _) 0 (ascii "PerlFixupHandler") ⟨.perDir, 5⟩ (by decide +kernel) (.inl rfl)
    .inherited [ofHandler (.new (ascii "A")), ofHandler (.new (ascii "Base::handler"))]
    (Handlers.fixup_stack _)
  refine ⟨hiff.mpr ⟨_, _, rfl, rfl, _, _, rfl, rfl, trivial⟩, ?_⟩
  have hfound : FoundByName .inherited .inherited 1 :=
    ⟨by decide +kernel, by decide +kernel, by decide +kernel, by decide +kernel,
      by decide +kernel⟩
  exact (hfunction _ (inheritedHandler (ascii "A") none) _ _ _ rfl rfl hfound).mpr rfl

/-- The method `A->handler`. -/
theorem readBack_fails :
    ¬∀ (requireModule : Program → Bytes → Program × Bool) (R : Requests) (w : Handlers), w.Wf →
      ∀ (r : ℕ) (name : Bytes) (phase : Phase), handlerLookup name = some phase →
        phase.OnRequest → ∀ (p : Program) (handlers : List MethodHandler),
          w.Stack (w.found (R.owner r) phase) (handlers.map MethodHandler.toHandler) →
          ReadBack requireModule R w r name phase p handlers := by
  intro hall
  have hwf := Handlers.fixup_wf [.new (ascii "A->handler")]
  have hname : handlerLookup (ascii "PerlFixupHandler") = some ⟨.perDir, 5⟩ := by decide +kernel
  have hback := hall (fun p _ => (p, false)) ⟨fun _ => 0, fun _ => 0, fun _ => 0⟩ _ hwf 0 _ _ hname
    (.inl rfl) .inherited [ofHandler (.new (ascii "A->handler"))] (Handlers.fixup_stack _)
  rw [readBack_iff_given hwf hname (.inl rfl) (Handlers.fixup_stack _)] at hback
  obtain ⟨p', svs, hget, hmakes⟩ := hback
  have hread : some (Program.inherited, [Sv.code (some (ascii "Base::handler"))]) =
      some (p', svs) := hget
  obtain ⟨rfl, rfl⟩ := Prod.mk.inj (Option.some.inj hread)
  cases hmakes with
  | cons hfirst _ =>
      -- as a function, without the class
      rw [Makes] at hfirst
      exact absurd hfirst (by decide +kernel)

end ModPerl
