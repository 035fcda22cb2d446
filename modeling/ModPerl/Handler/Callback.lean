import ModPerl.Handler.Stack
import ModPerl.Library.Worklist

/-!
# Running the handlers of a phase

`modperl_callback` calls one handler and makes a status of what became of it;
`modperl_callback_run_handlers` calls those of a phase, until one of them ends
it.  The handlers may push further ones for the phase that is running: the array
is looked up again after each call.

The functions are those of `modperl_callback.c` and `modperl_util.c`, without
the selection of an interpreter, the arguments of the handlers, the environment
and the log.  What Perl code does is given by `PerlCode`.
-/

namespace ModPerl

open PoolArray

/-- What becomes of the call of a handler: its name cannot be resolved, there is
no such sub, it returns a value or `undef`, it dies, or `ModPerl::Util::exit`
ends it.  Where the server has its own parent interpreter, the module of a
missing sub is required again, with or without success. -/
inductive Outcome
  | unresolved
  | notFound (required : Option Bool)
  | returned (value : Option Status)
  | died
  | exited
  deriving DecidableEq

/-- `$@`: false, the exception of `ModPerl::Util::exit`, or any other. -/
inductive Errsv
  | empty
  | exit
  | error
  deriving DecidableEq

/-- `MP_HOOK_RUN_ALL`, `MP_HOOK_RUN_FIRST` and `MP_HOOK_VOID` -/
inductive RunMode
  | runAll
  | runFirst
  | void
  deriving DecidableEq

/-- `modperl_callback`: the status, and `$@` afterwards.  `call_sv` returns
`undef` if it catches an exception, and clears `$@` if it does not; so does
the `eval` in `modperl_require_module`. -/
def callback (errsv : Errsv) (outcome : Outcome) : Status × Errsv :=
  let (status, errsv) : Status × Errsv :=
    match outcome with
    | .unresolved => (httpInternalServerError, .error)
    | .notFound none => (httpInternalServerError, errsv)
    | .notFound (some true) => (httpInternalServerError, .empty)
    | .notFound (some false) => (httpInternalServerError, .error)
    | .returned none => (ok, .empty)
    | .returned (some value) => (value, .empty)
    | .died => (ok, .error)
    | .exited => (ok, .exit)
  (if errsv = .empty then status else httpInternalServerError, errsv)

/-- `modperl_errsv` -/
def modperlErrsv (errsv : Errsv) (status : Status) : Status :=
  if errsv = .exit then ok else status

/-- The part of the loop between the call and the next lookup: whether the phase
ends, and the status. -/
def afterCallback (mode : RunMode) (type : HandlerType) (errsv : Errsv) (status : Status) :
    Bool × Status :=
  match mode with
  | .runAll =>
      if type = .files ∧ status ≠ ok then
        (true, if errsv ≠ .empty then modperlErrsv errsv status else status)
      else if status ≠ ok ∧ status ≠ declined then (true, modperlErrsv errsv status)
      else (false, status)
  | .runFirst =>
      if status = ok then (true, status)
      else if status ≠ declined then (true, modperlErrsv errsv status)
      else (false, status)
  | .void => (false, status)

/-- What the handlers do: from the state of Perl, the state afterwards, what
becomes of the call, and the values of each call of `push_handlers` for the
phase that is running. -/
structure PerlCode (σ : Type*) where
  call : σ → Handler → σ × Outcome × List (List Sv)

/-- A call of `modperl_callback_run_handlers`: the phases of a request are run
with the request, the others without one.  The name is one that the phase is
looked up by. -/
structure PhaseCall where
  mode : RunMode
  phase : Phase
  owner : HandlerOwner
  name : Bytes
  name_phase : handlerLookup name = some phase
  owner_r : owner.r.isSome ↔ phase.OnRequest

/-- The variables of the loop, with the handlers that were called so far. -/
structure Loop (σ : Type*) where
  w : Handlers
  perl : σ
  errsv : Errsv
  av : ℕ
  handlers : ℕ
  i : ℕ
  status : Status
  calls : List (Handler × Outcome)

namespace PhaseCall

variable {σ : Type*} (code : PerlCode σ) (call : PhaseCall)

/-- `avp = modperl_handler_lookup_handlers(...)`, `av = *avp` and
`handlers = av->elts`.  A lookup that modifies nothing raises no error. -/
def lookup (w : Handlers) : Option (Option (ℕ × ℕ)) :=
  match w.lookupHandlers call.owner.dcfg call.owner.scfg (call.owner.r.map Prod.fst) call.phase
      .get with
  | some (w, .ok slot) =>
      match w.slots slot with
      | none => some none
      | some av => (w.mem.headers[av]?).map fun header => some (av, header.elts)
  | _ => none

/-- The calls of `push_handlers` that a handler makes. -/
def push (w : Handlers) : List (List Sv) → Option Handlers
  | [] => some w
  | svs :: rest => (w.perlAddHandlers call.owner call.name svs .push).bind fun (w, _) => push w rest

/-- The loop of `modperl_callback_run_handlers`, for so many rounds. -/
def runLoop : ℕ → Loop σ → Option (Loop σ)
  | 0, _ => none
  | rounds + 1, l =>
      match l.w.mem.headers[l.av]? with
      | none => none
      | some header =>
          if l.i < header.nelts then
            match l.w.mem.item l.handlers l.i with
            | none => none
            | some handler =>
                let (perl, outcome, pushed) := code.call l.perl handler
                let (status, errsv) := callback l.errsv outcome
                let (stop, status) := afterCallback call.mode call.phase.type errsv status
                match call.push l.w pushed with
                | none => none
                | some w =>
                    let calls := l.calls ++ [(handler, outcome)]
                    let l := { l with w, perl, errsv, status, calls }
                    if stop then some l
                    else
                      match call.lookup w with
                      | some (some (av, handlers)) =>
                          runLoop rounds { l with av, handlers, i := l.i + 1 }
                      | _ => none
          else some l

/-- `modperl_callback_run_handlers`, for so many rounds: the status, and the
handlers that were called. -/
def runHandlers (enabled : Bool) (rounds : ℕ) (w : Handlers) (perl : σ) (errsv : Errsv) :
    Option (Status × List (Handler × Outcome)) :=
  if enabled = false then some (declined, [])
  else
    match call.lookup w with
    | none => none
    | some none => some (declined, [])
    | some (some (av, handlers)) =>
        (call.runLoop code rounds ⟨w, perl, errsv, av, handlers, 0, ok, []⟩).map fun l =>
          (l.status, l.calls)

end PhaseCall

/-! ## What running a stack means -/

/-- The result of a handler.  One that `ModPerl::Util::exit` ends has returned
`OK`. -/
def Outcome.result : Outcome → Status
  | .unresolved => httpInternalServerError
  | .notFound _ => httpInternalServerError
  | .returned value => value.getD ok
  | .died => httpInternalServerError
  | .exited => ok

/-- The results that end a phase. -/
def stopsPhase (mode : RunMode) (type : HandlerType) (result : Status) : Bool :=
  match mode with
  | .runFirst => result ≠ declined
  | .runAll => if type = .files then result ≠ ok else result ≠ ok ∧ result ≠ declined
  | .void => false

namespace PerlCode

variable {σ : Type*} (code : PerlCode σ)

/-- A call, with the handlers that it pushes. -/
def referenceCall (s : σ) (handler : Handler) : σ × Outcome × List Handler :=
  let (s, outcome, pushed) := code.call s handler
  (s, outcome, pushed.flatMap given)

/-- The handlers are called one after the other, those that are pushed behind
all others, until a result ends the phase. -/
def reference (call : PhaseCall) : ℕ → σ → List Handler → Worklist.Run Handler Outcome :=
  Worklist.run code.referenceCall fun outcome =>
    stopsPhase call.mode call.phase.type outcome.result

end PerlCode

/-! ## The loop works off a growing list -/

/-- What the loop makes of a call. -/
structure Judged where
  outcome : Outcome
  status : Status
  stop : Bool

namespace PhaseCall

variable {σ : Type*} {code : PerlCode σ} {call : PhaseCall} {w w' : Handlers} {av : ℕ}
  {xs done queue : List Handler} {l : Loop σ}

/-- A call as the loop makes it. -/
def judgedCall (code : PerlCode σ) (call : PhaseCall) (s : σ × Errsv) (handler : Handler) :
    (σ × Errsv) × Judged × List Handler :=
  let (perl, outcome, pushed) := code.call s.1 handler
  let (status, errsv) := callback s.2 outcome
  let (stop, status) := afterCallback call.mode call.phase.type errsv status
  ((perl, errsv), ⟨outcome, status, stop⟩, pushed.flatMap given)

/-- The calls that the loop makes. -/
def judged (code : PerlCode σ) (call : PhaseCall) (n : ℕ) (perl : σ) (errsv : Errsv)
    (xs : List Handler) : Worklist.Run Handler Judged :=
  Worklist.run (judgedCall code call) Judged.stop n (perl, errsv) xs

/-- The phase has an array, with these handlers. -/
def HasArray (call : PhaseCall) (w : Handlers) (av : ℕ) (xs : List Handler) : Prop :=
  w.Wf ∧ w.slots (w.found call.owner call.phase) = some av ∧ w.mem.Holds av xs

/-- A phase can be modified by those that run it. -/
theorem checkModify_push (call : PhaseCall) :
    Handlers.checkModify (call.owner.r.map Prod.fst) call.phase .push = .ok () := by
  cases hr : call.owner.r with
  | none =>
      obtain ⟨type, idx⟩ := call.phase
      cases type <;> rfl
  | some r =>
      obtain ⟨-, hcheck⟩ | ⟨hnot, -⟩ :=
        Handlers.checkModify_eq r.1 call.phase (show HandlerAction.push ≠ .get by decide)
      · exact hcheck
      · exact absurd (call.owner_r.mp (by rw [hr]; rfl)) hnot

theorem lookup_eq (call : PhaseCall) (w : Handlers) :
    call.lookup w =
      match w.slots (w.found call.owner call.phase) with
      | none => some none
      | some av => (w.mem.headers[av]?).map fun header => some (av, header.elts) := by
  rw [lookup, w.lookupHandlers_get]

theorem HasArray.lookup (h : call.HasArray w av xs) :
    ∃ header, w.mem.headers[av]? = some header ∧ call.lookup w = some (some (av, header.elts)) ∧
      header.nelts = xs.length ∧ ∀ i, i < xs.length → w.mem.item header.elts i = xs[i]? := by
  obtain ⟨-, hslot, hholds⟩ := h
  obtain ⟨header, hheader, hitems⟩ := hholds.item
  refine ⟨header, hheader, ?_, hitems⟩
  rw [lookup_eq, hslot]
  simp only [hheader, Option.map_some]

/-- What a handler pushes is found behind the other handlers. -/
theorem HasArray.push (h : call.HasArray w av xs) (pushed : List (List Sv)) :
    ∃ w' av', call.push w pushed = some w' ∧
      call.HasArray w' av' (xs ++ pushed.flatMap given) := by
  induction pushed generalizing w av xs with
  | nil =>
      rw [List.flatMap_nil, List.append_nil]
      exact ⟨w, av, rfl, h⟩
  | cons svs rest ih =>
      obtain ⟨hwf, hslot, hholds⟩ := h
      have hstack : w.Stack (w.found call.owner call.phase) xs := by
        rw [Handlers.Stack, hslot]
        exact hholds
      have hpush : HandlerAction.push ≠ .get := by decide
      obtain ⟨w₁, res, hadd, hmodified⟩ := Handlers.perlAddHandlers_spec hwf call.owner
        call.name_phase hpush call.checkModify_push hstack svs
      obtain ⟨av₁, hslot₁, hholds₁⟩ := hmodified.stack
      rw [← hmodified.found_eq] at hslot₁
      obtain ⟨w', av', hrest, harray⟩ := ih ⟨hmodified.wf, hslot₁, hholds₁⟩
      refine ⟨w', av', ?_, ?_⟩
      · rw [PhaseCall.push, hadd]
        exact hrest
      · rw [List.flatMap_cons, ← List.append_assoc]
        exact harray

/-- The loop is behind the first handlers of the array, and before the others. -/
structure At (call : PhaseCall) (l : Loop σ) (done queue : List Handler) : Prop where
  array : call.HasArray l.w l.av (done ++ queue)
  handlers : call.lookup l.w = some (some (l.av, l.handlers))
  i : l.i = done.length

/-- One round: the first handler behind those that were called is called, and the
loop ends or is behind it. -/
theorem At.round {handler : Handler} (h : call.At l done (handler :: queue)) {s : σ × Errsv}
    {judgment : Judged} {new : List Handler}
    (hcall : judgedCall code call (l.perl, l.errsv) handler = (s, judgment, new)) :
    ∃ l' : Loop σ, (∀ rounds, call.runLoop code (rounds + 1) l =
        if judgment.stop then some l' else call.runLoop code rounds l') ∧
      (l'.perl, l'.errsv) = s ∧ l'.status = judgment.status ∧
      l'.calls = l.calls ++ [(handler, judgment.outcome)] ∧
      (judgment.stop = false → call.At l' (done ++ [handler]) (queue ++ new)) := by
  rcases hcode : code.call l.perl handler with ⟨perl, outcome, pushed⟩
  rcases hcallback : callback l.errsv outcome with ⟨status, errsv⟩
  rcases hafter : afterCallback call.mode call.phase.type errsv status with ⟨stop, status'⟩
  simp only [judgedCall, hcode, hcallback, hafter, Prod.mk.injEq] at hcall
  obtain ⟨rfl, rfl, rfl⟩ := hcall
  obtain ⟨header, hheader, hlookup, hnelts, hitem⟩ := h.array.lookup
  obtain ⟨w', av', hpush, harray⟩ := h.array.push pushed
  obtain ⟨header', hheader', hlookup', -, -⟩ := harray.lookup
  -- the loop looks at the elements it has fetched, which are those of the array
  have helts : l.handlers = header.elts := by
    have hsame := h.handlers.symm.trans hlookup
    simp only [Option.some_inj, Prod.mk.injEq] at hsame
    exact hsame.2
  have hlt : l.i < header.nelts := by
    rw [hnelts, h.i, List.length_append, List.length_cons]
    omega
  have hhandler : l.w.mem.item l.handlers l.i = some handler := by
    rw [helts, hitem _ (hnelts ▸ hlt), h.i, List.getElem?_append_right (Nat.le_refl _),
      Nat.sub_self]
    rfl
  -- after a push the array may be another one, and the loop fetches its elements again
  cases stop with
  | true =>
      refine ⟨⟨w', perl, errsv, l.av, l.handlers, l.i, status', l.calls ++ [(handler, outcome)]⟩,
        fun rounds => ?_, rfl, rfl, rfl, nofun⟩
      simp only [runLoop, hheader, if_pos hlt, hhandler, hcode, hcallback, hafter, hpush, if_true]
  | false =>
      refine ⟨⟨w', perl, errsv, av', header'.elts, l.i + 1, status',
        l.calls ++ [(handler, outcome)]⟩, fun rounds => ?_, rfl, rfl, rfl,
        fun _ => ⟨?_, hlookup', ?_⟩⟩
      · simp only [runLoop, hheader, if_pos hlt, hhandler, hcode, hcallback, hafter, hpush,
          hlookup', Bool.false_eq_true, if_false]
      · simpa only [List.append_assoc, List.cons_append, List.nil_append] using harray
      · rw [List.length_append, List.length_singleton, ← h.i]

/-- No handlers are left. -/
theorem At.runLoop_of_lt (h : call.At l done []) {n rounds : ℕ} (hrounds : n < rounds) :
    call.runLoop code rounds l = some l := by
  obtain ⟨rounds, rfl⟩ := Nat.exists_eq_add_one_of_ne_zero (Nat.ne_zero_of_lt hrounds)
  obtain ⟨header, hheader, -, hnelts, -⟩ := h.array.lookup
  have hge : ¬l.i < header.nelts := by
    rw [hnelts, h.i, List.append_nil]
    omega
  simp only [runLoop, hheader, if_neg hge]

/-- The rounds of the loop are the calls of the list. -/
theorem At.runLoop {n : ℕ} (h : call.At l done queue)
    (hended : (judged code call n l.perl l.errsv queue).ended = true) :
    ∃ l', (∀ rounds, n < rounds → call.runLoop code rounds l = some l') ∧
      l'.calls = l.calls ++
        (judged code call n l.perl l.errsv queue).calls.map (fun c => (c.1, c.2.outcome)) ∧
      l'.status = (((judged code call n l.perl l.errsv queue).calls.getLast?).map
        fun c => c.2.status).getD l.status := by
  -- the queue is the rest of the list, with what its own handlers push
  induction n generalizing l done queue with
  | zero =>
      cases queue with
      | nil =>
          exact ⟨l, fun rounds hrounds => h.runLoop_of_lt hrounds, (List.append_nil _).symm, rfl⟩
      | cons handler queue => cases hended
  | succ n ih =>
      cases queue with
      | nil =>
          exact ⟨l, fun rounds hrounds => h.runLoop_of_lt hrounds, (List.append_nil _).symm, rfl⟩
      | cons handler queue =>
          rcases hcall : judgedCall code call (l.perl, l.errsv) handler with ⟨s, judgment, new⟩
          obtain ⟨l₁, hround, hs, hstatus, hcalls, hat⟩ := h.round hcall
          have hrun : ∀ rounds, n + 1 < rounds → call.runLoop code rounds l =
              if judgment.stop then some l₁ else call.runLoop code (rounds - 1) l₁ := by
            intro rounds hrounds
            rw [← hround, Nat.sub_add_cancel (by omega)]
          cases hstop : judgment.stop with
          | true =>
              rw [judged, Worklist.run_stop hcall hstop]
              refine ⟨l₁, fun rounds hrounds => ?_, hcalls, hstatus⟩
              rw [hrun rounds hrounds, if_pos hstop]
          | false =>
              rw [judged, Worklist.run_next hcall hstop] at hended ⊢
              rw [← hs] at hended
              obtain ⟨l₂, hrest, hcalls', hstatus'⟩ := ih (hat hstop) hended
              refine ⟨l₂, fun rounds hrounds => ?_, ?_, ?_⟩
              · rw [hrun rounds hrounds, if_neg (by rw [hstop]; exact Bool.false_ne_true)]
                exact hrest _ (by omega)
              · rw [hcalls', hcalls, List.append_assoc, judged, hs]
                rfl
              · rw [hstatus', judged, hs, hstatus, List.getLast?_cons]
                cases ((Worklist.run (judgedCall code call) Judged.stop n s
                  (queue ++ new)).calls.getLast?) <;> rfl

end PhaseCall

/-! ## What the loop makes of the results -/

section

variable {mode : RunMode} {type : HandlerType} {errsv : Errsv} {outcome : Outcome} {status : Status}

/-- A status is taken for what it is, if `$@` is not that of an exit. -/
theorem afterCallback_of_ne_exit (h : errsv ≠ .exit ∨ mode = .void) :
    afterCallback mode type errsv status = (stopsPhase mode type status, status) := by
  have herrsv : mode ≠ .void → modperlErrsv errsv status = status := fun hmode =>
    if_neg (h.resolve_right hmode)
  cases mode with
  | runAll =>
      simp only [afterCallback, stopsPhase, herrsv nofun, ite_self]
      by_cases hok : status = ok
      · simp [hok]
      · by_cases hfiles : type = .files
        · simp [hok, hfiles]
        · by_cases hdeclined : status = declined <;> simp [hok, hfiles, hdeclined]
  | runFirst =>
      have hne : ok ≠ declined := by decide
      simp only [afterCallback, stopsPhase, herrsv nofun]
      by_cases hok : status = ok
      · simp [hok, hne]
      · by_cases hdeclined : status = declined <;> simp [hok, hdeclined, hne.symm]
  | void => rfl

/-- With `$@` that of an exit, an error ends the phase with `OK`. -/
theorem afterCallback_exit (hmode : mode ≠ .void) :
    afterCallback mode type .exit httpInternalServerError = (true, ok) := by
  cases mode with
  | void => exact absurd rfl hmode
  | _ => cases type <;> decide

theorem stopsPhase_error (hmode : mode ≠ .void) :
    stopsPhase mode type httpInternalServerError = true := by
  cases mode with
  | void => exact absurd rfl hmode
  | _ => cases type <;> decide

/-- An exit looks like an error, and nothing else does that is not one. -/
theorem callback_fst (errsv : Errsv) (h : outcome ≠ .exited) :
    (callback errsv outcome).1 = outcome.result := by
  cases outcome with
  | exited => exact absurd rfl h
  | returned value => cases value <;> rfl
  | notFound required =>
      cases required with
      | none => exact ite_self _
      | some required => cases required <;> rfl
  | _ => rfl

theorem callback_snd (errsv : Errsv) (hexited : outcome ≠ .exited)
    (hstale : ¬(errsv = .exit ∧ outcome = .notFound none)) :
    (callback errsv outcome).2 ≠ .exit := by
  cases outcome with
  | exited => exact absurd rfl hexited
  | returned value => cases value <;> exact nofun
  | notFound required =>
      cases required with
      | none => exact fun h => hstale ⟨h, rfl⟩
      | some required => cases required <;> exact nofun
  | _ => exact nofun

/-- A run where an exit counts as what it is: for a phase that the first result
ends, every run; for one that runs all its handlers, every run in which no
handler is called behind an exit; and where the results do not matter, every
run that no exit is the last call of.  In the first two cases `$@` must not be
that of an exit in an earlier phase when the first handler is not found, and its
module not required again. -/
def Unmistaken (mode : RunMode) (errsv : Errsv) (calls : List (Handler × Outcome)) : Prop :=
  let stale := errsv = .exit ∧ ∃ c ∈ calls.head?, c.2 = .notFound none
  match mode with
  | .runFirst => ¬stale
  | .runAll => ¬stale ∧ ∀ c ∈ calls.dropLast, c.2 ≠ .exited
  | .void => ∀ c ∈ calls.getLast?, c.2 ≠ .exited

/-- The loop made the calls, and its status is the result of the last one. -/
structure Agrees (cs : List (Handler × Judged)) (rs : List (Handler × Outcome)) : Prop where
  calls : cs.map (fun c => (c.1, c.2.outcome)) = rs
  status : cs.getLast?.map (fun c => c.2.status) = rs.getLast?.map fun c => c.2.result

variable {handler : Handler} {judgment : Judged} {cs : List (Handler × Judged)}
  {rs : List (Handler × Outcome)}

theorem agrees_nil : Agrees [] [] := ⟨rfl, rfl⟩

theorem agrees_iff (status : Status) :
    cs.map (fun c => (c.1, c.2.outcome)) = rs ∧ (∀ c ∈ rs.getLast?,
      (cs.getLast?.map fun c => c.2.status).getD status = c.2.result) ↔ Agrees cs rs := by
  constructor
  · rintro ⟨rfl, hlast⟩
    refine ⟨rfl, ?_⟩
    rw [List.getLast?_map] at hlast ⊢
    cases hcs : cs.getLast? with
    | none => rfl
    | some c =>
        rw [hcs] at hlast
        exact congrArg some (hlast _ rfl)
  · rintro ⟨hcalls, hstatus⟩
    refine ⟨hcalls, fun c hc => ?_⟩
    rw [hstatus, Option.mem_def.mp hc]
    rfl

/-- A last call. -/
theorem agrees_singleton (houtcome : judgment.outcome = outcome) :
    Agrees [(handler, judgment)] [(handler, outcome)] ↔ judgment.status = outcome.result := by
  constructor
  · exact fun h => Option.some.inj h.status
  · exact fun h => ⟨by rw [← houtcome]; rfl, congrArg some h⟩

/-- A first call that is taken for what it is, or behind which there are others. -/
theorem agrees_cons (houtcome : judgment.outcome = outcome)
    (h : judgment.status = outcome.result ∨ rs ≠ []) :
    Agrees ((handler, judgment) :: cs) ((handler, outcome) :: rs) ↔ Agrees cs rs := by
  constructor
  · rintro ⟨hcalls, hstatus⟩
    rw [List.map_cons, List.cons.injEq] at hcalls
    obtain ⟨-, rfl⟩ := hcalls
    refine ⟨rfl, ?_⟩
    cases cs with
    | nil => rfl
    | cons c cs =>
        rw [List.map_cons, List.getLast?_cons_cons, List.getLast?_cons_cons] at hstatus
        exact hstatus
  · rintro ⟨rfl, hstatus⟩
    refine ⟨by rw [List.map_cons, houtcome], ?_⟩
    cases cs with
    | nil => exact congrArg some (h.resolve_right fun hne => hne rfl)
    | cons c cs =>
        rw [List.map_cons, List.getLast?_cons_cons, List.getLast?_cons_cons]
        exact hstatus

theorem unmistaken_nil (mode : RunMode) (errsv : Errsv) : Unmistaken mode errsv [] := by
  cases mode <;> simp [Unmistaken]

/-- A last call. -/
theorem unmistaken_singleton :
    Unmistaken mode errsv [(handler, outcome)] ↔
      (mode ≠ .void → ¬(errsv = .exit ∧ outcome = .notFound none)) ∧
        (mode = .void → outcome ≠ .exited) := by
  cases mode <;> simp [Unmistaken]

/-- A first call behind which there may be others. -/
theorem unmistaken_cons {errsv' : Errsv} (hexited : outcome ≠ .exited ∨ mode = .void ∧ rs ≠ [])
    (hstale : mode ≠ .void → ¬(errsv = .exit ∧ outcome = .notFound none))
    (herrsv : mode ≠ .void → errsv' ≠ .exit) :
    Unmistaken mode errsv ((handler, outcome) :: rs) ↔ Unmistaken mode errsv' rs := by
  have hstale' : mode ≠ .void → ¬(errsv' = .exit ∧ ∃ c ∈ rs.head?, c.2 = .notFound none) :=
    fun hmode h => herrsv hmode h.1
  cases mode with
  | runFirst => exact iff_of_true (by simpa [Unmistaken] using hstale nofun) (hstale' nofun)
  | runAll =>
      have hne := hexited.resolve_right fun h => nomatch h.1
      have hdrop : (∀ c ∈ ((handler, outcome) :: rs).dropLast, c.2 ≠ .exited) ↔
          ∀ c ∈ rs.dropLast, c.2 ≠ .exited := by
        cases rs with
        | nil => simp
        | cons r rs => simp [hne]
      simp only [Unmistaken, hdrop]
      exact and_congr_left fun _ => iff_of_true (by simpa using hstale nofun) (hstale' nofun)
  | void =>
      cases rs with
      | nil => simpa [Unmistaken] using hexited
      | cons r rs => simp [Unmistaken, List.getLast?_cons_cons]

/-- An exit where results do not matter: the status is wrong if no call follows. -/
theorem agrees_exit_void {errsv' : Errsv} {stop : Bool}
    (hiff : Agrees cs rs ↔ Unmistaken .void errsv' rs) :
    Agrees ((handler, ⟨.exited, httpInternalServerError, stop⟩) :: cs)
      ((handler, .exited) :: rs) ↔ Unmistaken .void errsv ((handler, .exited) :: rs) := by
  cases rs with
  | nil =>
      have hne : httpInternalServerError ≠ ok := by decide
      refine iff_of_false (fun h => ?_) (by simp [Unmistaken])
      have hcalls := h.calls
      rw [List.map_cons, List.cons.injEq, List.map_eq_nil_iff] at hcalls
      rw [hcalls.2, agrees_singleton rfl] at h
      exact hne h
  | cons r rs =>
      rw [agrees_cons rfl (.inr (List.cons_ne_nil r rs)), hiff,
        ← unmistaken_cons (.inr ⟨rfl, List.cons_ne_nil r rs⟩) (fun h => absurd rfl h)
          (fun h => absurd rfl h)]

/-- An exit where all handlers are to be called: no call follows. -/
theorem agrees_exit_runAll {stop : Bool} :
    Agrees [(handler, ⟨.exited, ok, stop⟩)] ((handler, .exited) :: rs) ↔
      Unmistaken .runAll errsv ((handler, .exited) :: rs) := by
  cases rs with
  | nil =>
      rw [agrees_singleton rfl, unmistaken_singleton]
      exact iff_of_true rfl ⟨fun _ h => (nomatch h.2), fun h => (nomatch h)⟩
  | cons r rs =>
      refine iff_of_false (fun h => ?_) (by simp [Unmistaken])
      have hcalls := h.calls
      rw [List.map_singleton, List.cons.injEq] at hcalls
      exact List.cons_ne_nil r rs hcalls.2.symm

end

namespace PhaseCall

variable {σ : Type*} {code : PerlCode σ} {call : PhaseCall}

theorem judgedCall_eq {perl perl' : σ} {handler : Handler} {outcome : Outcome}
    {new : List Handler} {errsv : Errsv} {stop : Bool} {status : Status}
    (hcall : code.referenceCall perl handler = (perl', outcome, new))
    (hafter : afterCallback call.mode call.phase.type (callback errsv outcome).2
      (callback errsv outcome).1 = (stop, status)) :
    judgedCall code call (perl, errsv) handler =
      ((perl', (callback errsv outcome).2), ⟨outcome, status, stop⟩, new) := by
  rcases hcode : code.call perl handler with ⟨perl₁, outcome₁, pushed⟩
  simp only [PerlCode.referenceCall, hcode, Prod.mk.injEq] at hcall
  obtain ⟨rfl, rfl, rfl⟩ := hcall
  simp only [judgedCall, hcode, hafter]

/-- The first call is ended by an exit. -/
theorem judged_agrees_exit {n : ℕ} {perl perl' : σ} {handler : Handler} {xs new : List Handler}
    {errsv : Errsv} (hcall : code.referenceCall perl handler = (perl', .exited, new))
    (hended : (code.reference call (n + 1) perl (handler :: xs)).ended = true)
    (ih : (code.reference call n perl' (xs ++ new)).ended = true →
      (judged code call n perl' .exit (xs ++ new)).ended = true ∧
        (Agrees (judged code call n perl' .exit (xs ++ new)).calls
            (code.reference call n perl' (xs ++ new)).calls ↔
          Unmistaken call.mode .exit (code.reference call n perl' (xs ++ new)).calls)) :
    (judged code call (n + 1) perl errsv (handler :: xs)).ended = true ∧
      (Agrees (judged code call (n + 1) perl errsv (handler :: xs)).calls
          (code.reference call (n + 1) perl (handler :: xs)).calls ↔
        Unmistaken call.mode errsv (code.reference call (n + 1) perl (handler :: xs)).calls) := by
  have hcallback : callback errsv .exited = (httpInternalServerError, .exit) := rfl
  have hmodes : call.mode = .void ∨ call.mode = .runAll ∨ call.mode = .runFirst := by
    cases call.mode <;> simp
  unfold PerlCode.reference judged at *
  -- an exit stops the loop in every mode but `VOID`
  rcases hmodes with hmode | hmode | hmode
  · have hafter : afterCallback call.mode call.phase.type (callback errsv .exited).2
        (callback errsv .exited).1 = (false, httpInternalServerError) := by
      rw [hmode]
      rfl
    have hstops : stopsPhase call.mode call.phase.type Outcome.exited.result = false := by
      rw [hmode]
      rfl
    rw [Worklist.run_next hcall hstops] at hended ⊢
    rw [Worklist.run_next (judgedCall_eq hcall hafter) rfl]
    obtain ⟨hended', hiff⟩ := ih hended
    rw [hmode] at hiff ⊢
    exact ⟨hended', agrees_exit_void hiff⟩
  · have hafter : afterCallback call.mode call.phase.type (callback errsv .exited).2
        (callback errsv .exited).1 = (true, ok) := by
      rw [hcallback]
      exact afterCallback_exit (by rw [hmode]; exact nofun)
    have hstops : stopsPhase call.mode call.phase.type Outcome.exited.result = false := by
      rw [hmode]
      cases call.phase.type <;> decide
    rw [Worklist.run_next hcall hstops, Worklist.run_stop (judgedCall_eq hcall hafter) rfl, hmode]
    exact ⟨rfl, agrees_exit_runAll⟩
  · have hafter : afterCallback call.mode call.phase.type (callback errsv .exited).2
        (callback errsv .exited).1 = (true, ok) := by
      rw [hcallback]
      exact afterCallback_exit (by rw [hmode]; exact nofun)
    have hstops : stopsPhase call.mode call.phase.type Outcome.exited.result = true := by
      rw [hmode]
      rfl
    rw [Worklist.run_stop hcall hstops, Worklist.run_stop (judgedCall_eq hcall hafter) rfl,
      agrees_singleton rfl, unmistaken_singleton, hmode]
    exact ⟨rfl, iff_of_true rfl ⟨fun _ h => (nomatch h.2), fun h => (nomatch h)⟩⟩

/-- The loop makes the calls of the reference with the results of the reference
exactly if no exit and no missing sub is mistaken. -/
theorem judged_agrees_iff {n : ℕ} {perl : σ} {xs : List Handler}
    (hended : (code.reference call n perl xs).ended = true) (errsv : Errsv) :
    (judged code call n perl errsv xs).ended = true ∧
      (Agrees (judged code call n perl errsv xs).calls (code.reference call n perl xs).calls ↔
        Unmistaken call.mode errsv (code.reference call n perl xs).calls) := by
  induction n generalizing perl errsv xs with
  | zero =>
      cases xs with
      | nil => exact ⟨rfl, iff_of_true agrees_nil (unmistaken_nil _ _)⟩
      | cons handler xs => cases hended
  | succ n ih =>
      cases xs with
      | nil => exact ⟨rfl, iff_of_true agrees_nil (unmistaken_nil _ _)⟩
      | cons handler xs =>
          rcases hcall : code.referenceCall perl handler with ⟨perl', outcome, new⟩
          by_cases hexited : outcome = .exited
          · subst hexited
            exact judged_agrees_exit hcall hended fun hended => ih hended .exit
          · by_cases hstale : call.mode ≠ .void ∧ errsv = .exit ∧ outcome = .notFound none
            · obtain ⟨hmode, rfl, rfl⟩ := hstale
              have hstops : stopsPhase call.mode call.phase.type
                  (Outcome.notFound none).result = true := stopsPhase_error hmode
              rw [PerlCode.reference, Worklist.run_stop hcall hstops, judged,
                Worklist.run_stop (judgedCall_eq hcall (afterCallback_exit hmode)) rfl,
                agrees_singleton rfl, unmistaken_singleton]
              exact ⟨rfl, iff_of_false (by decide) fun h => h.1 hmode ⟨rfl, rfl⟩⟩
            · -- otherwise `$@` says what the reference says, and so does the loop
              have hstale' : call.mode ≠ .void → ¬(errsv = .exit ∧ outcome = .notFound none) :=
                fun hmode h => hstale ⟨hmode, h⟩
              have herrsv : call.mode ≠ .void → (callback errsv outcome).2 ≠ .exit :=
                fun hmode => callback_snd errsv hexited (hstale' hmode)
              have hafter : afterCallback call.mode call.phase.type (callback errsv outcome).2
                  (callback errsv outcome).1 =
                  (stopsPhase call.mode call.phase.type outcome.result, outcome.result) := by
                rw [callback_fst errsv hexited]
                by_cases hvoid : call.mode = .void
                · exact afterCallback_of_ne_exit (.inr hvoid)
                · exact afterCallback_of_ne_exit (.inl (herrsv hvoid))
              have hjudged := judgedCall_eq hcall hafter
              unfold PerlCode.reference judged at *
              cases hstops : stopsPhase call.mode call.phase.type outcome.result with
              | true =>
                  rw [Worklist.run_stop hcall hstops, Worklist.run_stop hjudged hstops,
                    agrees_singleton rfl, unmistaken_singleton]
                  exact ⟨rfl, iff_of_true rfl ⟨hstale', fun _ => hexited⟩⟩
              | false =>
                  rw [Worklist.run_next hcall hstops] at hended ⊢
                  rw [Worklist.run_next hjudged hstops]
                  obtain ⟨hended', hiff⟩ := ih hended (callback errsv outcome).2
                  refine ⟨hended', ?_⟩
                  rw [agrees_cons rfl (.inl rfl), hiff,
                    ← unmistaken_cons (.inl hexited) hstale' herrsv]

end PhaseCall

/-- Handlers by their names: `Exit` is ended by an exit, `Push` pushes `Exit` and
returns `OK`, and any other returns `OK`. -/
def PerlCode.named : PerlCode Unit where
  call _ handler :=
    if handler.name = some (ascii "Exit") then ((), .exited, [])
    else if handler.name = some (ascii "Push") then
      ((), .returned (some ok), [[.string (ascii "Exit")]])
    else ((), .returned (some ok), [])

/-- The fixup phase of a request, which runs all its handlers. -/
def PhaseCall.fixup : PhaseCall where
  mode := .runAll
  phase := ⟨.perDir, 5⟩
  owner := ⟨some (0, 0), 0, 0⟩
  name := ascii "PerlFixupHandler"
  name_phase := by decide +kernel
  owner_r := by decide

theorem PerlCode.named_reference (n : ℕ) :
    PerlCode.named.reference .fixup (n + 2) () [.new (ascii "Push")] =
      ⟨[(.new (ascii "Push"), .returned (some ok)),
          ({ Handler.new (ascii "Exit") with dynamic := true }, .exited)],
        [{ Handler.new (ascii "Exit") with dynamic := true }], true⟩ := by
  have hpush : PerlCode.named.referenceCall () (.new (ascii "Push")) = ((), .returned (some ok),
      [{ Handler.new (ascii "Exit") with dynamic := true }]) := by decide +kernel
  have hexit : PerlCode.named.referenceCall ()
      { Handler.new (ascii "Exit") with dynamic := true } = ((), .exited, []) := by decide +kernel
  rw [PerlCode.reference, Worklist.run_next hpush rfl, List.nil_append,
    Worklist.run_next hexit rfl, List.nil_append, Worklist.run_nil]
  rfl

end ModPerl
