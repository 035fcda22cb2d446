import ModPerl.Httpd
import ModPerl.Library.PoolArray

/-!
# Where handlers are kept

Each phase has its handlers in an array, if it has any: in the configuration of
a directory or of a server, and, once `push_handlers` or `set_handlers` was
called on a request, in a place of the request itself.  The arrays are in pool
memory; a place holds the address of one.  One function finds the place for
every purpose, and gives a request its own array where it is to be modified.

The functions are those of `modperl_handler.c`.  A result of `none` is an
access to an array that is not there.
-/

namespace ModPerl

open PoolArray

/-- `MP_HANDLER_TYPE_PER_DIR` and so on. -/
inductive HandlerType
  | perDir
  | perSrv
  | preConnection
  | connection
  | files
  | process
  deriving DecidableEq

/-- The phases of each type, in the order of their index. -/
def HandlerType.handlers : HandlerType → List String
  | .perDir => ["HeaderParser", "Access", "Authen", "Authz", "Type", "Fixup", "Response", "Log",
      "Cleanup", "InputFilter", "OutputFilter"]
  | .perSrv => ["PostReadRequest", "Trans", "MapToStorage"]
  | .preConnection => ["PreConnection"]
  | .connection => ["ProcessConnection"]
  | .files => ["OpenLogs", "PostConfig"]
  | .process => ["ChildInit", "ChildExit"]

/-- A phase: its type, and its index among those of the type. -/
structure Phase where
  type : HandlerType
  idx : ℕ
  deriving DecidableEq

/-- The word of a phase. -/
def Phase.word (phase : Phase) : Bytes := ascii (phase.type.handlers.getD phase.idx "")

/-- `modperl_handler_desc_*` -/
def Phase.desc (phase : Phase) : Bytes := ascii "Perl" ++ phase.word ++ ascii "Handler"

/-- The phases with the names that they are looked up by. -/
def handlerNames : List (Bytes × Phase) :=
  (ascii "Handler", ⟨.perDir, 6⟩) ::
    [.perDir, .perSrv, .preConnection, .connection, .files, .process].flatMap
      fun (type : HandlerType) =>
        type.handlers.zipIdx.map fun (name, idx) => (ascii name, ⟨type, idx⟩)

/-- `if (*name == 'P' && strnEQ(name, "Perl", 4)) name += 4;` -/
def withoutPerl (name : Bytes) : Bytes := if ascii "Perl" <+: name then name.drop 4 else name

/-- `Handler` is compared whole, and of the others as much as the phase has
letters. -/
def startsName (known name : Bytes) : Bool :=
  if known = ascii "Handler" then name = known else known <+: name

/-- `modperl_handler_lookup` -/
def handlerLookup (name : Bytes) : Option Phase :=
  (handlerNames.find? fun entry => startsName entry.1 (withoutPerl name)).map Prod.snd

/-! ## The names of a phase -/

/-- There is a phase of this index. -/
def Phase.Valid (phase : Phase) : Prop := phase.idx < phase.type.handlers.length

instance : DecidablePred Phase.Valid := fun _ => inferInstanceAs (Decidable (_ < _))

/-- The name is one of the phase: after `Perl`, if it starts with that, comes the
word of the phase and anything, or `Handler` alone for the response phase. -/
def Phase.Named (phase : Phase) (name : Bytes) : Prop :=
  ∃ rest, (if ascii "Perl" <+: name then name = ascii "Perl" ++ rest else name = rest) ∧
    (phase.Valid ∧ phase.word <+: rest ∨ phase = ⟨.perDir, 6⟩ ∧ rest = ascii "Handler")

/-- The entries of the table. -/
theorem mem_handlerNames {known : Bytes} {phase : Phase} :
    (known, phase) ∈ handlerNames ↔
      known = ascii "Handler" ∧ phase = ⟨.perDir, 6⟩ ∨ phase.Valid ∧ known = phase.word := by
  constructor
  · intro h
    obtain h | h := List.mem_cons.mp h
    · exact .inl (Prod.mk.inj h)
    · obtain ⟨type, -, h⟩ := List.mem_flatMap.mp h
      obtain ⟨⟨word, idx⟩, hword, h⟩ := List.mem_map.mp h
      obtain ⟨rfl, rfl⟩ := Prod.mk.inj h
      have hget := List.mem_zipIdx_iff_getElem?.mp hword
      refine .inr ⟨(List.getElem?_eq_some_iff.mp hget).1, ?_⟩
      rw [Phase.word, List.getD_eq_getElem?_getD, hget]
      rfl
  · rintro (⟨rfl, rfl⟩ | ⟨hvalid, rfl⟩)
    · exact List.mem_cons_self
    · obtain ⟨type, idx⟩ := phase
      refine List.mem_cons_of_mem _ (List.mem_flatMap.mpr ⟨type, ?_, ?_⟩)
      · cases type <;> decide
      · refine List.mem_map.mpr ⟨(type.handlers.getD idx "", idx), ?_, rfl⟩
        have hget : type.handlers[idx]? = some type.handlers[idx] := List.getElem?_eq_getElem hvalid
        simp only [List.mem_zipIdx_iff_getElem?, List.getD_eq_getElem?_getD, hget,
          Option.getD_some]

/-- No name of the table starts with another. -/
theorem handlerNames_comparable : ∀ entry ∈ handlerNames, ∀ entry' ∈ handlerNames,
    entry.1 <+: entry'.1 → entry = entry' := by
  decide +kernel

theorem prefix_of_startsName {known name : Bytes} (h : startsName known name) : known <+: name := by
  unfold startsName at h
  split_ifs at h with hhandler
  · obtain rfl := of_decide_eq_true h
    exact List.prefix_rfl
  · exact of_decide_eq_true h

/-- At most one entry of the table is found. -/
theorem startsName_unique {entry entry' : Bytes × Phase} {name : Bytes}
    (hentry : entry ∈ handlerNames) (hentry' : entry' ∈ handlerNames)
    (h : startsName entry.1 name) (h' : startsName entry'.1 name) : entry = entry' := by
  obtain hprefix | hprefix :=
    List.prefix_or_prefix_of_prefix (prefix_of_startsName h) (prefix_of_startsName h')
  · exact handlerNames_comparable _ hentry _ hentry' hprefix
  · exact (handlerNames_comparable _ hentry' _ hentry hprefix).symm

theorem handlerLookup_eq_some_iff_mem {name : Bytes} {phase : Phase} :
    handlerLookup name = some phase ↔
      ∃ known, (known, phase) ∈ handlerNames ∧ startsName known (withoutPerl name) := by
  rw [handlerLookup, Option.map_eq_some_iff]
  constructor
  · rintro ⟨⟨known, phase⟩, hfind, rfl⟩
    have hfound := List.find?_some hfind
    exact ⟨known, List.mem_of_find?_eq_some hfind, hfound⟩
  · rintro ⟨known, hmem, hstarts⟩
    cases hfind : handlerNames.find? fun entry => startsName entry.1 (withoutPerl name) with
    | none => exact absurd hstarts (List.find?_eq_none.mp hfind _ hmem)
    | some entry =>
        have hfound := List.find?_some hfind
        refine ⟨entry, rfl, ?_⟩
        rw [startsName_unique (List.mem_of_find?_eq_some hfind) hmem hfound hstarts]

theorem withoutPerl_eq_iff {name rest : Bytes} :
    withoutPerl name = rest ↔
      if ascii "Perl" <+: name then name = ascii "Perl" ++ rest else name = rest := by
  unfold withoutPerl
  split_ifs with hperl
  · obtain ⟨rest', rfl⟩ := hperl
    have hdrop : (ascii "Perl" ++ rest').drop 4 = rest' := rfl
    rw [hdrop, List.append_cancel_left_eq]
  · exact Iff.rfl

/-- The lookup finds the phase that the name is one of. -/
theorem handlerLookup_eq_some_iff {name : Bytes} {phase : Phase} :
    handlerLookup name = some phase ↔ phase.Named name := by
  have hword : ∀ {rest}, phase.Valid → (startsName phase.word rest ↔ phase.word <+: rest) := by
    intro rest hvalid
    have hne : phase.word ≠ ascii "Handler" := by
      intro h
      have hentry := handlerNames_comparable (phase.word, phase)
        (mem_handlerNames.mpr (.inr ⟨hvalid, rfl⟩)) (ascii "Handler", ⟨.perDir, 6⟩)
        List.mem_cons_self (h ▸ List.prefix_rfl)
      rw [(Prod.mk.inj hentry).2] at h
      exact absurd h (by decide)
    rw [startsName, if_neg hne, decide_eq_true_iff]
  rw [handlerLookup_eq_some_iff_mem]
  constructor
  · rintro ⟨known, hmem, hstarts⟩
    refine ⟨withoutPerl name, withoutPerl_eq_iff.mp rfl, ?_⟩
    obtain ⟨rfl, rfl⟩ | ⟨hvalid, rfl⟩ := mem_handlerNames.mp hmem
    · exact .inr ⟨rfl, of_decide_eq_true hstarts⟩
    · exact .inl ⟨hvalid, (hword hvalid).mp hstarts⟩
  · rintro ⟨rest, hname, h⟩
    rw [withoutPerl_eq_iff.mpr hname]
    obtain ⟨hvalid, hprefix⟩ | ⟨rfl, rfl⟩ := h
    · exact ⟨phase.word, mem_handlerNames.mpr (.inr ⟨hvalid, rfl⟩), (hword hvalid).mpr hprefix⟩
    · exact ⟨ascii "Handler", mem_handlerNames.mpr (.inl ⟨rfl, rfl⟩), rfl⟩

/-- Each phase is found by its own name. -/
theorem handlerLookup_desc {phase : Phase} (hvalid : phase.Valid) :
    handlerLookup phase.desc = some phase := by
  refine handlerLookup_eq_some_iff.mpr ⟨phase.word ++ ascii "Handler", ?_, .inl ⟨hvalid, ?_⟩⟩
  · rw [Phase.desc, List.append_assoc, if_pos (List.prefix_append _ _)]
  · exact List.prefix_append _ _

instance (phase : Phase) : DecidablePred phase.Named :=
  fun _ => decidable_of_iff _ handlerLookup_eq_some_iff

/-- `modperl_handler_t`: a name or an anonymous sub.  `mgvCv` is what the name
was resolved to, its parts from the outermost package to the sub. -/
structure Handler where
  name : Option Bytes
  anon : Option ℕ
  mgvCv : Option (List Bytes)
  parsed : Bool
  autoload : Bool
  dynamic : Bool
  deriving DecidableEq

namespace Handler

/-- `modperl_handler_new` -/
def new (name : Bytes) : Handler :=
  match name with
  | 43 :: name => ⟨some name, none, none, false, true, false⟩
  | 45 :: name => ⟨some name, none, none, false, false, false⟩
  | name => ⟨some name, none, none, false, false, false⟩

/-- `modperl_handler_new_anon` -/
def newAnon (cv : ℕ) : Handler := ⟨none, some cv, none, true, false, false⟩

end Handler

/-- What Perl code passes for a handler: a string; a code reference, to an
anonymous sub, a named one or one without a name to find it by; or a value that
is neither. -/
inductive Sv
  | string (name : Bytes)
  | anonymous (cv : ℕ)
  | code (name : Option Bytes)
  | other
  deriving DecidableEq

/-- `modperl_handler_new_from_sv`.  The error is the message of `Perl_croak`. -/
def handlerNewFromSv : Sv → Except Bytes (Option Handler)
  | .string name => .ok (some (.new name))
  | .anonymous cv => .ok (some (.newAnon cv))
  | .code none => .error (ascii "can't resolve the code reference")
  | .code (some name) => .ok (some (.new name))
  | .other => .ok none

/-- `MP_HANDLER_ACTION_GET`, `_PUSH` and `_SET` -/
inductive HandlerAction
  | get
  | push
  | set
  deriving DecidableEq

/-- A place for the address of an array: `handlers_per_dir[idx]` of a directory
configuration, `handlers_per_srv[idx]` and so on of a server configuration, and
the two of a request configuration. -/
inductive Slot
  | dcfg (dcfg idx : ℕ)
  | scfg (scfg : ℕ) (type : HandlerType) (idx : ℕ)
  | rcfg (rcfg : ℕ) (type : HandlerType) (idx : ℕ)
  deriving DecidableEq

/-- The arrays, and the places that hold them. -/
structure Handlers where
  mem : Memory Handler
  slots : Slot → Option ℕ

namespace Handlers

/-- `*avp = av` -/
def setSlot (w : Handlers) (slot : Slot) (av : ℕ) : Handlers :=
  { w with slots := fun slot' => if slot' = slot then some av else w.slots slot' }

/-- `*avp = modperl_handler_array_new(p)` -/
def newArray (w : Handlers) (slot : Slot) : Handlers :=
  setSlot { w with mem := (w.mem.make 1).1 } slot (w.mem.make 1).2

/-- `*ravp = apr_array_copy(p, *avp)` -/
def copyArray (w : Handlers) (av : ℕ) (slot : Slot) : Option Handlers :=
  (w.mem.copy av).map fun (mem, av) => setSlot { w with mem } slot av

/-- The place in the configuration. -/
def avp (dcfg scfg : ℕ) (phase : Phase) : Slot :=
  match phase.type with
  | .perDir => .dcfg dcfg phase.idx
  | type => .scfg scfg type phase.idx

/-- The place in the request, for the two types that have one. -/
def ravp (rcfg : Option ℕ) (phase : Phase) : Option Slot :=
  match phase.type with
  | .perDir => rcfg.map (.rcfg · .perDir phase.idx)
  | .perSrv => rcfg.map (.rcfg · .perSrv phase.idx)
  | _ => none

/-- `check_modify`: the phases of the other types cannot be modified on a
request.  The error names the phase, but for a phase of a process that of the
same index among the phases with files. -/
def checkModify (rcfg : Option ℕ) (phase : Phase) (action : HandlerAction) : Except Bytes Unit :=
  let tooLate (desc : Bytes) : Except Bytes Unit :=
    if action ≠ .get ∧ rcfg.isSome then
      .error (ascii "too late to modify " ++ desc ++ ascii " handlers")
    else .ok ()
  match phase.type with
  | .perDir => .ok ()
  | .perSrv => .ok ()
  | .process => tooLate (Phase.desc { phase with type := .files })
  | _ => tooLate phase.desc

/-- The last part of `modperl_handler_lookup_handlers`: the arrays as the action
needs them. -/
def prepare (w : Handlers) (avp : Slot) (ravp : Option Slot) : HandlerAction → Option Handlers
  | .get => some w
  | .push =>
      match ravp with
      | some ravp =>
          if (w.slots ravp).isSome then some w
          else
            match w.slots avp with
            | some av => w.copyArray av ravp
            | none => some (w.newArray ravp)
      | none => if (w.slots avp).isSome then some w else some (w.newArray avp)
  | .set =>
      let slot := ravp.getD avp
      match w.slots slot with
      | some av => (w.mem.truncate av).map fun mem => { w with mem }
      | none => some (w.newArray slot)

/-- `return (ravp && *ravp) ? ravp : avp;` -/
def effective (w : Handlers) (avp : Slot) (ravp : Option Slot) : Slot :=
  match ravp with
  | some ravp => if (w.slots ravp).isSome then ravp else avp
  | none => avp

/-- `modperl_handler_lookup_handlers` -/
def lookupHandlers (w : Handlers) (dcfg scfg : ℕ) (rcfg : Option ℕ) (phase : Phase)
    (action : HandlerAction) : Option (Handlers × Except Bytes Slot) :=
  match checkModify rcfg phase action with
  | .error message => some (w, .error message)
  | .ok () =>
      (w.prepare (avp dcfg scfg phase) (ravp rcfg phase) action).map fun w =>
        (w, .ok (w.effective (avp dcfg scfg phase) (ravp rcfg phase)))

/-- The loop of `modperl_handler_perl_add_handlers`, into the array with this
address: what is not a handler is skipped, and the handlers before an error
stay. -/
def pushHandlers (w : Handlers) (av : ℕ) : List Sv → Option (Handlers × Except Bytes Bool)
  | [] => some (w, .ok true)
  | sv :: svs =>
      match handlerNewFromSv sv with
      | .error message => some (w, .error message)
      | .ok none => w.pushHandlers av svs
      | .ok (some handler) =>
          (w.mem.push av { handler with dynamic := true }).bind fun mem =>
            { w with mem }.pushHandlers av svs

end Handlers

/-- What `modperl_handler_get_handlers` is told: the request, if there is one,
with its directory configuration, and the server, with its default one. -/
structure HandlerOwner where
  r : Option (ℕ × ℕ)
  defaults : ℕ
  scfg : ℕ

/-- The directory configuration that is used. -/
def HandlerOwner.dcfg (owner : HandlerOwner) : ℕ := (owner.r.map Prod.snd).getD owner.defaults

namespace Handlers

/-- `modperl_handler_get_handlers`: no place for a name that no phase has. -/
def getHandlers (w : Handlers) (owner : HandlerOwner) (name : Bytes) (action : HandlerAction) :
    Option (Handlers × Except Bytes (Option Slot)) :=
  match handlerLookup name with
  | none => some (w, .ok none)
  | some phase =>
      (w.lookupHandlers owner.dcfg owner.scfg (owner.r.map Prod.fst) phase action).map
        fun (w, slot) => (w, slot.map some)

/-- `modperl_handler_perl_add_handlers`, for `push_handlers` and `set_handlers`
with the elements of an array or a single value. -/
def perlAddHandlers (w : Handlers) (owner : HandlerOwner) (name : Bytes) (svs : List Sv)
    (action : HandlerAction) : Option (Handlers × Except Bytes Bool) :=
  (w.getHandlers owner name action).bind fun (w, slot) =>
    match slot with
    | .error message => some (w, .error message)
    | .ok none => some (w, .ok false)
    | .ok (some slot) =>
        match w.slots slot with
        | none => some (w, .ok false)
        | some av => w.pushHandlers av svs

end Handlers

end ModPerl
