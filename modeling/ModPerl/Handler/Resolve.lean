import ModPerl.Handler.Merge
import ModPerl.Handler.Mgv

/-!
# Handlers that are resolved

A handler is configured as a name.  Resolving it finds the sub, by the symbol
that is looked up again for each call, and for a method what it is called on: a
class, or the object in a scalar.  Two handlers are compared by their symbols if
both are resolved, and by their names otherwise.  That overlooks what a method is
called on, and an anonymous sub has neither.

The functions are those of `modperl_handler.c`, `modperl_mgv.c` and
`modperl_callback.c`, for a Perl without threads.  What Perl finds in its symbol
tables is given by `Program`, what `require` makes of it by `requireModule`.
-/

namespace ModPerl

/-- The loop of `modperl_mgv_compile`, the keys of the symbol alone: of colons in a
row two or more separate, and `sep` says that the last one did. -/
def symbolKeysLoop (segment : Bytes) (sep : Bool) : Bytes → List Bytes
  | [] => [segment]
  | c :: rest =>
      if c = 58 then
        if sep then symbolKeysLoop [] true rest
        else if rest.head? = some 58 then
          if segment = [] then symbolKeysLoop [] true rest
          else (segment ++ ascii "::") :: symbolKeysLoop [] true rest
        else symbolKeysLoop (segment ++ [58]) false rest
      else symbolKeysLoop (segment ++ [c]) false rest

/-- `modperl_mgv_compile` -/
def symbolKeys (name : Bytes) : List Bytes := symbolKeysLoop [] false name

/-- `modperl_mgv_append` -/
def symbolAppend (keys : List Bytes) (name : Bytes) : List Bytes :=
  keys.dropLast ++ ((keys.getLast?.getD []) ++ ascii "::") :: symbolKeys name

/-- What a method is called on: `mgv_obj` holds the name of a class, or the symbol
of a scalar. -/
inductive MgvObj
  | classname (name : Bytes)
  | scalar (keys : List Bytes)
  deriving DecidableEq

/-- `modperl_handler_t` with what it has for a method. -/
structure MethodHandler extends Handler where
  method : Bool
  mgvObj : Option MgvObj
  deriving DecidableEq

/-- The value of a scalar: whether Perl takes it for true, and the class if it is an
object. -/
structure Object where
  id : ℕ
  truth : Bool
  stash : Option Bytes
  deriving DecidableEq

/-- What there is in the symbol tables, with the code values as numbers and each stash
by its name.  `glob` and `scalar` are `modperl_mgv_lookup`, a glob having code or not;
`fetchMethod` finds the stash of the glob after the lookup in `@ISA`, and its code;
`inc` are the packages that are in `%INC`. -/
structure Program where
  getCv : Bytes → Option ℕ
  cvGv : ℕ → Bytes × Bytes
  cvMethod : ℕ → Bool
  cvAnon : ℕ → Bool
  glob : List Bytes → Option (Option ℕ)
  scalar : List Bytes → Option Object
  findStash : Bytes → Option Bytes
  fetchMethod : Bytes → Bytes → Option (Bytes × ℕ)
  inc : Bytes → Bool
  evalSub : Bytes → Option ℕ

/-- `modperl_mgv_resolve` returns 1 or 0, or it croaks. -/
inductive Resolution
  | resolved (p : Program) (handler : MethodHandler)
  | failed (p : Program) (handler : MethodHandler)
  | croaked (p : Program)

/-- A name at the first `->` in it. -/
def splitArrow : Bytes → Option (Bytes × Bytes)
  | [] => none
  | c :: rest =>
      if c = 45 ∧ rest.head? = some 62 then some ([], rest.tail)
      else (splitArrow rest).map fun (package, method) => (c :: package, method)

namespace MethodHandler

/-- A handler as `modperl_handler_new` or `modperl_handler_new_anon` makes it. -/
def ofHandler (handler : Handler) : MethodHandler := ⟨handler, false, none⟩

/-- The last part of `modperl_mgv_resolve`, from the second lookup of the stash. -/
def resolveMethod (p : Program) (handler : MethodHandler) (stash : Option Bytes)
    (name handlerName : Bytes) : Resolution :=
  match stash <|> p.findStash name with
  | none => .failed p handler
  | some stash =>
      match p.fetchMethod stash handlerName with
      | some (gvStash, cv) =>
          let method := handler.method || p.cvMethod cv
          .resolved p { handler with
            method
            mgvObj := if method ∧ handler.mgvObj = none then some (.classname stash)
              else handler.mgvObj
            mgvCv := some (symbolAppend (symbolKeys gvStash) handlerName)
            parsed := true }
      | none => if handler.autoload then .croaked p else .failed p handler

variable (requireModule : Program → Bytes → Program × Bool)

/-- The part before: a package without a stash is loaded, if it is to be. -/
def autoloadMethod (p : Program) (handler : MethodHandler) (stash : Option Bytes)
    (name handlerName : Bytes) (logfailure : Bool) : Resolution :=
  if stash = none ∧ handler.autoload ∧ !p.inc name then
    match requireModule p name with
    | (p, true) => resolveMethod p handler stash name handlerName
    | (p, false) => if logfailure then .croaked p else .failed p handler
  else resolveMethod p handler stash name handlerName

/-- `modperl_mgv_resolve` -/
def mgvResolve (p : Program) (handler : MethodHandler) (name : Bytes) (logfailure : Bool) :
    Resolution :=
  if handler.anon.isSome then .resolved p handler
  else if ascii "sub " <+: name then
    match p.evalSub name with
    | none => .croaked p
    | some cv => .resolved p { handler with name := none, anon := some cv, parsed := true }
  else
    match splitArrow name with
    | some (package, handlerName) =>
        let handler := { handler with method := true }
        if package.head? = some 36 then
          let keys := symbolKeys package.tail
          let handler := { handler with mgvObj := some (.scalar keys) }
          match p.scalar keys with
          | some ⟨_, true, some stash⟩ =>
              autoloadMethod requireModule p handler (some stash) package handlerName logfailure
          | _ => .failed p handler
        else
          autoloadMethod requireModule p handler (p.findStash package) package handlerName
            logfailure
    | none =>
        match p.getCv name with
        | some cv =>
            let (stash, gvName) := p.cvGv cv
            .resolved p { handler with
              mgvCv := some (symbolAppend (symbolKeys stash) gvName), parsed := true }
        | none =>
            autoloadMethod requireModule p handler none name (ascii "handler") logfailure

end MethodHandler

/-- The first argument of a method. -/
inductive Invocant
  | classname (name : Bytes)
  | object (id : ℕ)
  deriving DecidableEq

/-- The call of a sub, of a method with what it is called on. -/
structure Invocation where
  cv : ℕ
  invocant : Option Invocant
  deriving DecidableEq

namespace MethodHandler

/-- What `modperl_callback` puts on the stack first: nothing for a function.  A result
of `none` is a method without an object, or whose scalar is not found. -/
def invocant (p : Program) (handler : MethodHandler) : Option (Option Invocant) :=
  if handler.method then
    match handler.mgvObj with
    | none => none
    | some (.classname name) => some (some (.classname name))
    | some (.scalar keys) => (p.scalar keys).map fun object => some (.object object.id)
  else some none

/-- The sub that `modperl_callback` calls. -/
def code (p : Program) (handler : MethodHandler) : Option ℕ :=
  match handler.anon with
  | some cv => some cv
  | none => (handler.mgvCv.bind p.glob).join

/-- `modperl_callback`, for a handler that is resolved: the call that it makes. -/
def call (p : Program) (handler : MethodHandler) : Option Invocation :=
  (handler.invocant p).bind fun invocant => (handler.code p).map fun cv => ⟨cv, invocant⟩

/-- `modperl_callback`, which resolves the handler first by `modperl_handler_resolve`. -/
def invoke (requireModule : Program → Bytes → Program × Bool) (p : Program)
    (handler : MethodHandler) : Option Invocation :=
  if handler.parsed then handler.call p
  else
    match mgvResolve requireModule p { handler with autoload := true } (handler.name.getD [])
        false with
    | .resolved p handler => handler.call p
    | _ => none

end MethodHandler

/-! ## Symbols -/

/-- Only the last key of a symbol is not followed by the separator. -/
def IsSymbol : List Bytes → Prop
  | [] => False
  | [last] => ¬ascii "::" <:+ last
  | key :: keys => ascii "::" <:+ key ∧ IsSymbol keys

theorem separator_suffix_iff (segment : Bytes) (c : UInt8) :
    ascii "::" <:+ segment ++ [c] ↔ c = 58 ∧ [58] <:+ segment := by
  have hsep : ascii "::" = [58] ++ [58] := rfl
  constructor
  · intro h
    obtain ⟨front, hfront⟩ := h
    rw [hsep, ← List.append_assoc] at hfront
    obtain ⟨hsegment, hc⟩ := List.append_inj' hfront rfl
    exact ⟨(List.singleton_inj.mp hc).symm, front, hsegment⟩
  · rintro ⟨rfl, front, rfl⟩
    exact ⟨front, by rw [hsep, List.append_assoc]⟩

theorem isSymbol_cons {key : Bytes} {keys : List Bytes} (hkey : ascii "::" <:+ key)
    (hkeys : IsSymbol keys) : IsSymbol (key :: keys) := by
  cases keys with
  | nil => exact hkeys.elim
  | cons next keys => exact ⟨hkey, hkeys⟩

/-- The segment that is read never ends with the separator. -/
theorem isSymbol_symbolKeysLoop {segment : Bytes} {sep : Bool} {text : Bytes}
    (hends : ¬ascii "::" <:+ segment)
    (hcolon : [58] <:+ segment → text.head? ≠ some 58) :
    IsSymbol (symbolKeysLoop segment sep text) := by
  have hnil : ¬ascii "::" <:+ ([] : Bytes) := by decide
  have hnil' : ∀ rest : Bytes, [58] <:+ ([] : Bytes) → rest.head? ≠ some 58 :=
    fun rest h => absurd h (by decide)
  induction text generalizing segment sep with
  | nil => exact hends
  | cons c rest ih =>
      rw [symbolKeysLoop]
      split_ifs with hc hsep hnext hempty
      · exact ih hnil (hnil' _)
      · exact ih hnil (hnil' _)
      · exact isSymbol_cons ⟨segment, rfl⟩ (ih hnil (hnil' _))
      · refine ih ?_ fun _ => hnext
        rw [separator_suffix_iff]
        rintro ⟨-, hlast⟩
        exact hcolon hlast (congrArg some hc)
      · refine ih ?_ ?_
        · rw [separator_suffix_iff]
          exact fun h => hc h.1
        · rintro ⟨front, hfront⟩
          exact absurd (List.singleton_inj.mp (List.append_inj' hfront rfl).2).symm hc

theorem isSymbol_symbolKeys (name : Bytes) : IsSymbol (symbolKeys name) :=
  isSymbol_symbolKeysLoop (by decide) fun h => absurd h (by decide)

theorem isSymbol_symbolAppend {keys : List Bytes} (h : IsSymbol keys) (name : Bytes) :
    IsSymbol (symbolAppend keys name) := by
  induction keys using IsSymbol.induct with
  | case1 => exact h.elim
  | case2 last => exact isSymbol_cons ⟨last, rfl⟩ (isSymbol_symbolKeys name)
  | case3 key keys hne ih =>
      obtain ⟨next, keys, rfl⟩ := List.exists_cons_of_ne_nil hne
      have hcons : symbolAppend (key :: next :: keys) name =
          key :: symbolAppend (next :: keys) name := rfl
      rw [hcons]
      exact isSymbol_cons h.1 (ih h.2)

/-- Symbols that agree as far as both have keys are the same. -/
theorem mgvEqual_iff {keys₁ keys₂ : List Bytes} (h₁ : IsSymbol keys₁) (h₂ : IsSymbol keys₂) :
    mgvEqual keys₁ keys₂ = true ↔ keys₁ = keys₂ := by
  induction keys₁ using IsSymbol.induct generalizing keys₂ with
  | case1 => exact h₁.elim
  | case2 last =>
      match keys₂, h₂ with
      | [last'], _ => simp [mgvEqual]
      | key :: next :: keys, h₂ =>
          have hne : last ≠ key := fun heq => h₁ (heq ▸ h₂.1)
          simp [mgvEqual, hne]
  | case3 key keys hne ih =>
      obtain ⟨next, keys, rfl⟩ := List.exists_cons_of_ne_nil hne
      match keys₂, h₂ with
      | [last], h₂ =>
          have hne : key ≠ last := fun heq => h₂ (heq ▸ h₁.1)
          simp [mgvEqual, hne]
      | key' :: next' :: keys', h₂ =>
          have hih := ih h₁.2 h₂.2
          rw [mgvEqual, Bool.and_eq_true, decide_eq_true_iff, hih]
          exact List.cons_eq_cons.symm

/-- In the loop of the source `rest` is what is behind `namend`, and `name` is where the
segment begins, or behind the second colon of a separator that is still to be passed. -/
structure Reading (text : Bytes) (name namend : ℕ) (segment : Bytes) (sep : Bool)
    (rest : Bytes) : Prop where
  behind : text.drop namend = rest
  inside : namend ≤ text.length
  start : if sep ∧ rest.head? = some 58 then segment = [] ∧ name = namend + 1
    else text.drop name = segment ++ rest ∧ name + segment.length = namend

namespace Reading

variable {text segment rest : Bytes} {name namend : ℕ} {sep : Bool} {c : UInt8}

theorem behind_cons (h : Reading text name namend segment sep (c :: rest)) :
    text.drop (namend + 1) = rest ∧ namend + 1 ≤ text.length := by
  have hlength := congrArg List.length h.behind
  rw [List.length_drop, List.length_cons] at hlength
  exact ⟨by rw [← List.drop_drop, h.behind]; rfl, by omega⟩

/-- The second colon of a separator is next. -/
theorem pass (h : Reading text name namend segment sep (c :: rest)) (hhead : rest.head? = some 58) :
    Reading text (namend + 2) (namend + 1) [] true rest :=
  ⟨h.behind_cons.1, h.behind_cons.2, by rw [if_pos ⟨rfl, hhead⟩]; exact ⟨rfl, rfl⟩⟩

/-- A byte that is of the segment. -/
theorem read (h : Reading text name namend segment sep (c :: rest))
    (hc : ¬(sep ∧ (c :: rest).head? = some 58)) :
    Reading text name (namend + 1) (segment ++ [c]) false rest := by
  obtain ⟨hname, hsegment⟩ := (if_neg hc ▸ h.start :)
  refine ⟨h.behind_cons.1, h.behind_cons.2, ?_⟩
  rw [if_neg (fun h => Bool.noConfusion h.1), List.append_assoc, List.length_append,
    List.length_singleton]
  exact ⟨hname, by omega⟩

end Reading

/-- The loop of the source makes a node of each key, but of the last one. -/
theorem compileLoop_eq_symbolKeysLoop (perlHash : Bytes → UInt64) {text : Bytes}
    (hshort : text.length + 3 < 2 ^ 31) {name namend : ℕ} {segment rest : Bytes} {sep : Bool}
    (mgv : List Mgv) (h : Reading text name namend segment sep rest) :
    ∃ name', Mgv.compileLoop perlHash text name namend rest mgv =
        some (name', mgv ++ (symbolKeysLoop segment sep rest).dropLast.map (Mgv.node perlHash)) ∧
      (symbolKeysLoop segment sep rest).getLast? = some (text.drop name') ∧
      name' ≤ text.length := by
  induction rest generalizing name namend segment sep mgv with
  | nil =>
      obtain ⟨hname, hsegment⟩ :
          text.drop name = segment ++ [] ∧ name + segment.length = namend := by
        simpa using h.start
      rw [List.append_nil] at hname
      have hinside := h.inside
      refine ⟨name, by rw [Mgv.compileLoop, symbolKeysLoop]; simp, ?_, by omega⟩
      rw [symbolKeysLoop, hname]
      rfl
  | cons c rest ih =>
      have hinside := h.behind_cons.2
      rw [Mgv.compileLoop, symbolKeysLoop]
      by_cases hc : c = 58
      · subst hc
        cases sep with
        | true =>
            obtain ⟨rfl, rfl⟩ : segment = [] ∧ name = namend + 1 := by
              have hstart := h.start
              rwa [if_pos ⟨rfl, rfl⟩] at hstart
            simp only [if_true]
            split_ifs with hhead hlen
            · have hneg : i32 ((namend : Int) - (namend + 1 : ℕ)) = -1 := by
                rw [i32_of_lt] <;> omega
              omega
            · exact ih mgv (h.pass hhead.2)
            · have hnot : rest.head? ≠ some 58 := fun heq => hhead ⟨trivial, heq⟩
              refine ih mgv ⟨h.behind_cons.1, h.behind_cons.2, ?_⟩
              rw [if_neg (fun heq => hnot heq.2)]
              exact ⟨h.behind_cons.1, rfl⟩
        | false =>
            have hfirst : ¬(false = true ∧ (58 :: rest).head? = some 58) :=
              fun heq => Bool.noConfusion heq.1
            obtain ⟨hname, hsegment⟩ := (if_neg hfirst ▸ h.start :)
            have hi32 : i32 ((namend : Int) - name) = segment.length := by
              rw [i32_of_lt] <;> omega
            simp only [if_true, true_and, Bool.false_eq_true, if_false, hi32]
            by_cases hhead : rest.head? = some 58
            · rw [if_pos hhead, if_pos hhead]
              by_cases hempty : segment = []
              · subst hempty
                rw [if_neg (by simp), if_pos rfl]
                exact ih mgv (h.pass hhead)
              · have hpos := List.length_pos_iff.mpr hempty
                obtain ⟨name', hloop, hlast, hle⟩ := ih
                  (mgv ++ [Mgv.node perlHash (segment ++ ascii "::")]) (h.pass hhead)
                have hne : symbolKeysLoop [] true rest ≠ [] := by
                  intro heq
                  rw [heq] at hlast
                  cases hlast
                refine ⟨name', ?_, ?_, hle⟩
                · rw [if_pos (by omega), if_neg hempty, Mgv.separated_eq hname (by omega),
                    Option.bind_some, hloop, List.append_assoc, List.dropLast_cons_of_ne_nil hne]
                  rfl
                · rw [if_neg hempty, List.getLast?_cons, hlast]
                  rfl
            · rw [if_neg hhead, if_neg hhead]
              exact ih mgv (h.read hfirst)
      · rw [if_neg (fun heq => hc heq.1), if_neg hc]
        refine ih mgv (h.read fun heq => hc ?_)
        simpa using heq.2

/-- The keys are those of the symbol that the source compiles. -/
theorem compile_eq_symbolKeys (perlHash : Bytes → UInt64) {name : Bytes}
    (hshort : name.length + 3 < 2 ^ 31) :
    Mgv.compile perlHash name = some ((symbolKeys name).map (Mgv.node perlHash)) := by
  have hstart : Reading name 0 0 [] false name :=
    ⟨rfl, Nat.zero_le _, by rw [if_neg (fun h => Bool.noConfusion h.1)]; exact ⟨rfl, rfl⟩⟩
  obtain ⟨place, hloop, hlast, hle⟩ := compileLoop_eq_symbolKeysLoop perlHash hshort [] hstart
  have hi32 : i32 ((name.length : Int) - place) = (name.drop place).length := by
    rw [List.length_drop, i32_of_lt] <;> omega
  have hnodes := congrArg (List.map (Mgv.node perlHash)) (List.dropLast_append_getLast? _ hlast)
  rw [List.map_append] at hnodes
  have hhashed : Mgv.hashed perlHash (if i32 ((name.length : Int) - place) < 0 then name.drop place
      else (name.drop place).take (i32 ((name.length : Int) - place)).toNat)
      (i32 ((name.length : Int) - place)) = some (Mgv.node perlHash (name.drop place)) := by
    rw [hi32, if_neg (by omega), Int.toNat_natCast, List.take_length, Mgv.hashed_length]
  calc Mgv.compile perlHash name
      = some ((symbolKeysLoop [] false name).dropLast.map (Mgv.node perlHash) ++
          [Mgv.node perlHash (name.drop place)]) := by
        rw [Mgv.compile, hloop, Option.bind_some]
        simp only [hhashed, Option.map_some, List.nil_append]
    _ = some ((symbolKeys name).map (Mgv.node perlHash)) := congrArg some hnodes

theorem append_eq_symbolAppend (perlHash : Bytes → UInt64) {keys : List Bytes} {name : Bytes}
    (hne : keys ≠ []) (hkeys : ∀ key ∈ keys, key.length + 3 < 2 ^ 31)
    (hshort : name.length + 3 < 2 ^ 31) :
    Mgv.append perlHash (keys.map (Mgv.node perlHash)) name =
      some ((symbolAppend keys name).map (Mgv.node perlHash)) := by
  obtain ⟨front, last, rfl⟩ : ∃ front last, keys = front ++ [last] :=
    ⟨_, _, (List.dropLast_append_getLast hne).symm⟩
  have hlen := hkeys last (List.mem_append_right _ List.mem_cons_self)
  have hsum : i32 ((Mgv.node perlHash last).len + 2) = (last ++ ascii "::").length := by
    have hnode : (Mgv.node perlHash last).len = last.length := rfl
    rw [List.length_append, length_separator, hnode, i32_of_lt] <;> omega
  have hname : (Mgv.node perlHash last).name = last := rfl
  rw [List.map_append, List.map_cons, List.map_nil, Mgv.append, List.getLast?_concat]
  simp only [hsum, hname]
  have hkeys' : symbolAppend (front ++ [last]) name =
      front ++ (last ++ ascii "::") :: symbolKeys name := by
    rw [symbolAppend, List.dropLast_concat, List.getLast?_concat]
    rfl
  rw [Mgv.hashed_length, Option.bind_some, compile_eq_symbolKeys perlHash hshort, Option.map_some,
    List.dropLast_concat, hkeys', List.map_append, List.map_cons]

/-- The nodes are compared as the keys are. -/
theorem equal_eq_mgvEqual (perlHash : Bytes → UInt64) (keys₁ keys₂ : List Bytes) :
    Mgv.equal (keys₁.map (Mgv.node perlHash)) (keys₂.map (Mgv.node perlHash)) =
      mgvEqual keys₁ keys₂ := by
  induction keys₁, keys₂ using mgvEqual.induct with
  | case1 key₁ keys₁ key₂ keys₂ ih =>
      rw [List.map_cons, List.map_cons, mgvEqual, Mgv.equal, ih]
      by_cases hkey : key₁ = key₂
      · simp [hkey]
      · rw [decide_eq_false hkey, Bool.false_and]
        -- with the same length the bytes differ, whatever the hashes are
        split_ifs with hhash hlen hfront
        · rfl
        · rfl
        · rfl
        · have hlength : (key₁.length : Int) = key₂.length := not_not.mp hlen
          have hfronts : Mgv.front key₁ key₁.length = Mgv.front key₂ key₁.length :=
            not_not.mp hfront
          rw [Mgv.front_length, hlength, Mgv.front_length, Option.some_inj] at hfronts
          exact absurd hfronts hkey
  | case2 keys₁ keys₂ hnot =>
      cases keys₁ with
      | nil => rfl
      | cons key₁ keys₁ =>
          cases keys₂ with
          | nil => rfl
          | cons key₂ keys₂ => exact (hnot _ _ _ _ rfl rfl).elim

end ModPerl
