import ModPerl.Handler.Lookup
import ModPerl.Library.Grouping

/-!
# `PerlOptions`

The options of a configuration are bits: those that are on, those that were
turned on and those that were turned off with a sign, and among the first also a
marker that says that nothing was set without a sign.  A setting without a sign
ought to remove the marker, and does not: so it is recorded in the options that
are on, but in nothing that a merge would take over.

A merge is described one option at a time.  After it only the signs count: the
option is as the last sign says, and without any sign as the outermost level left
it.

The functions are those of `modperl_options.c` and the flags those that
`ModPerl::Code` generates for a threaded server.
-/

namespace ModPerl

/-- `modperl_opts_t` -/
abbrev Opts := BitVec 32

/-- `MpDirType` and `MpSrvType` -/
inductive OptionsType
  | dir
  | srv
  deriving DecidableEq

/-- The phases, which are options of a server too. -/
def hookFlags : List Bytes :=
  [.process, .files, .perSrv, .perDir, .connection, .preConnection].flatMap
    fun (type : HandlerType) => type.handlers.map ascii

/-- The phases in the order in which the flags of a server were generated: it is that
of the keys of a hash. -/
structure HookOrder where
  hooks : List Bytes
  perm : hooks.Perm hookFlags

namespace HookOrder

variable (f : HookOrder)

/-- The names of the flags, in the order of their values. -/
def flags : OptionsType → List Bytes
  | .dir => [ascii "None", ascii "ParseHeaders", ascii "SetupEnv", ascii "MergeHandlers",
      ascii "GlobalRequest", ascii "Unset"]
  | .srv => [ascii "None", ascii "Clone", ascii "Parent", ascii "Enable", ascii "Autoload",
      ascii "MergeHandlers"] ++ f.hooks ++ [ascii "Unset", ascii "InheritSwitches"]

/-- `MpDir_f_*` and `MpSrv_f_*`: the first flag is no bit, the others are one each. -/
def flag (type : OptionsType) (name : Bytes) : Opts :=
  match (f.flags type).idxOf name with
  | 0 => 0
  | i + 1 => BitVec.twoPow 32 i

/-- `modperl_flags_lookup_dir` and `modperl_flags_lookup_srv` -/
def lookup (type : OptionsType) (str : Bytes) : Option Opts :=
  if str ∈ f.flags type then some (f.flag type str) else none

/-- `MpDir_f_UNSET` and `MpSrv_f_UNSET` -/
def unset (type : OptionsType) : Opts := f.flag type (ascii "Unset")

end HookOrder

/-- `modperl_options_t` -/
@[ext]
structure Options where
  opts : Opts
  optsAdd : Opts
  optsRemove : Opts
  optsSeen : Opts
  unset : Opts
  deriving DecidableEq

/-- The first character of a setting, if it is a sign. -/
inductive OptAction
  | add
  | remove
  | plain
  deriving DecidableEq

/-- The sign of a setting and its name. -/
def splitAction : Bytes → OptAction × Bytes
  | 43 :: str => (.add, str)
  | 45 :: str => (.remove, str)
  | str => (.plain, str)

/-- `type_lookup` -/
def typeLookup : Option OptionsType → Bytes
  | some .srv => ascii "server"
  | some .dir => ascii "directory"
  | none => ascii "unknown"

/-- What `modperl_options_set` does with the bit of an option. -/
def optionsAct (o : Options) (opt : Opts) : OptAction → Options
  | .remove =>
      { o with
        optsSeen := o.optsSeen ||| opt
        optsRemove := o.optsRemove ||| opt
        optsAdd := o.optsAdd &&& ~~~opt
        opts := o.opts &&& ~~~opt }
  | .add =>
      { o with
        optsSeen := o.optsSeen ||| opt
        optsAdd := o.optsAdd ||| opt
        optsRemove := o.optsRemove &&& ~~~opt
        opts := o.opts ||| opt }
  | .plain => { o with optsSeen := o.optsSeen ||| opt, opts := o.opts ||| opt }

namespace HookOrder

variable (f : HookOrder)

/-- `modperl_options_new` -/
def optionsNew (type : OptionsType) : Options := ⟨f.unset type, 0, 0, 0, f.unset type⟩

/-- `MpOptionsType`: the type is recognised by the marker. -/
def optionsType (o : Options) : Option OptionsType :=
  if o.unset = f.unset .srv then some .srv
  else if o.unset = f.unset .dir then some .dir
  else none

/-- `flags_lookup` -/
def flagsLookup (type : Option OptionsType) (str : Bytes) : Option Opts :=
  match type with
  | some type => f.lookup type str
  | none => some 0

/-- `modperl_options_set`.  The hint at the end of the message is there if the name is
not known for servers either. -/
def optionsSet (o : Options) (str : Bytes) : Except Bytes Options :=
  let (action, str) := splitAction str
  match f.flagsLookup (f.optionsType o) str with
  | none =>
      let error :=
        ascii "Invalid per-" ++ typeLookup (f.optionsType o) ++ ascii " PerlOption: " ++ str
      if f.optionsType o = some .dir ∧ f.flagsLookup (some .srv) str = none then
        .error (error ++ ascii " (only allowed per-server)")
      else .error error
  | some opt => .ok (optionsAct o opt action)

/-- The options of a configuration before any setting: `modperl_config_dir_new`, and
`modperl_config_srv_new`, where `MpSrvENABLE_On` and `MpSrvHOOKS_ALL_On` follow. -/
def optionsStart (type : OptionsType) : Options :=
  let o := f.optionsNew type
  match type with
  | .dir => o
  | .srv =>
      { o with
        opts := (o.opts ||| f.flag .srv (ascii "Enable")) |||
          f.hooks.foldl (fun opts hook => opts ||| f.flag .srv hook) 0 }

/-- A level of the configuration, with its settings. -/
def level (type : OptionsType) (settings : List Bytes) : Except Bytes Options :=
  settings.foldlM f.optionsSet (f.optionsStart type)

end HookOrder

/-- `modperl_options_merge` -/
def optionsMerge (base add : Options) : Options :=
  let conf := base
  let conf :=
    if add.opts &&& add.unset ≠ 0 then
      let optsAdd := (conf.optsAdd &&& ~~~add.optsRemove) ||| add.optsAdd
      let optsRemove := (conf.optsRemove &&& ~~~add.optsAdd) ||| add.optsRemove
      { conf with optsAdd, optsRemove, opts := (conf.opts &&& ~~~optsRemove) ||| optsAdd }
    else
      { conf with opts := add.opts, optsAdd := add.optsAdd, optsRemove := add.optsRemove }
  { conf with optsSeen := conf.optsSeen ||| add.optsSeen }

namespace HookOrder

variable (f : HookOrder)

/-- The outermost level, and the others merged onto it one after the other. -/
def optionsChain (type : OptionsType) (outer : List Bytes) (inner : List (List Bytes)) :
    Except Bytes Options :=
  f.level type outer >>= inner.foldlM fun conf settings =>
    (f.level type settings).map (optionsMerge conf)

end HookOrder

/-- The options that are on, without the marker. -/
def Options.inForce (o : Options) : Opts := o.opts &&& ~~~o.unset

/-! ## One option -/

/-- What is recorded of one option. -/
@[ext]
structure OptBit where
  on : Bool
  add : Bool
  remove : Bool

namespace OptBit

/-- A setting. -/
def act (b : OptBit) : OptAction → OptBit
  | .remove => ⟨false, false, true⟩
  | .add => ⟨true, true, false⟩
  | .plain => { b with on := true }

/-- A merge with a level where the marker is there. -/
def merge (b b' : OptBit) : OptBit :=
  let add := (b.add && !b'.remove) || b'.add
  let remove := (b.remove && !b'.add) || b'.remove
  ⟨(b.on && !remove) || add, add, remove⟩

/-- The settings of a level. -/
def level (start : Bool) (actions : List OptAction) : OptBit :=
  actions.foldl act ⟨start, false, false⟩

/-- The outermost level, and the others merged onto it. -/
def chain (start : Bool) (outer : List OptAction) (inner : List (List OptAction)) : OptBit :=
  inner.foldl (fun b actions => b.merge (level start actions)) (level start outer)

end OptBit

/-- The last setting with a sign. -/
def lastSigned (actions : List OptAction) : Option OptAction :=
  (actions.filter (· ≠ .plain)).getLast?

/-- Whether the option is on after the settings. -/
def replayed (start : Bool) (actions : List OptAction) : Bool :=
  actions.foldl (fun _ action => action ≠ .remove) start

/-- Whether the option is on after a merge. -/
def kept (start : Bool) (outer all : List OptAction) : Bool :=
  match lastSigned all with
  | some action => action = .add
  | none => start || outer ≠ []

/-- A last setting without a sign is not lost: the last sign was `+`, or there was none
and the option was on at the outermost level. -/
def PlainHolds (start : Bool) (outer all : List OptAction) : Prop :=
  all.getLast? = some .plain →
    lastSigned all = some .add ∨ lastSigned all = none ∧ (start = true ∨ outer ≠ [])

section

variable {start : Bool} {outer all actions : List OptAction} {b : OptBit}

theorem replayed_snoc (action : OptAction) :
    replayed start (actions ++ [action]) = decide (action ≠ .remove) :=
  List.foldl_append

theorem lastSigned_snoc (action : OptAction) :
    lastSigned (actions ++ [action]) =
      if action = .plain then lastSigned actions else some action := by
  rw [lastSigned, List.filter_append]
  cases action <;> simp [lastSigned]

theorem lastSigned_append :
    lastSigned (all ++ actions) = (lastSigned actions).or (lastSigned all) := by
  rw [lastSigned, List.filter_append, List.getLast?_append, lastSigned, lastSigned]

/-- After a merge the option is as replayed exactly if no last plain setting is lost. -/
theorem kept_eq_replayed_iff (hinitial : outer <+: all) :
    kept start outer all = replayed start all ↔ PlainHolds start outer all := by
  induction all using List.reverseRecOn with
  | nil =>
      obtain rfl := List.prefix_nil.mp hinitial
      simp [kept, replayed, PlainHolds, lastSigned]
  | append_singleton all action _ =>
      rw [replayed_snoc, kept, PlainHolds, List.getLast?_append, lastSigned_snoc]
      cases action with
      | add => simp
      | remove => simp
      | plain => cases hlast : lastSigned all <;> simp

/-- What is recorded after the outermost level, or after merges: the last sign, and
without any sign what the outermost level left. -/
structure Follows (start : Bool) (outer all : List OptAction) (b : OptBit) : Prop where
  add : b.add = decide (lastSigned all = some .add)
  remove : b.remove = decide (lastSigned all = some .remove)
  on : lastSigned all = none → b.on = (start || decide (outer ≠ []))

theorem level_snoc (action : OptAction) :
    OptBit.level start (actions ++ [action]) = (OptBit.level start actions).act action :=
  List.foldl_append

theorem level_follows (start : Bool) (actions : List OptAction) :
    Follows start actions actions (OptBit.level start actions) ∧
      (OptBit.level start actions).on = replayed start actions := by
  induction actions using List.reverseRecOn with
  | nil => exact ⟨⟨rfl, rfl, fun _ => (Bool.or_false start).symm⟩, rfl⟩
  | append_singleton actions action ih =>
      rw [level_snoc, replayed_snoc]
      cases action with
      | add => exact ⟨⟨by simp [lastSigned_snoc, OptBit.act], by simp [lastSigned_snoc, OptBit.act],
          by simp [lastSigned_snoc]⟩, rfl⟩
      | remove =>
          exact ⟨⟨by simp [lastSigned_snoc, OptBit.act], by simp [lastSigned_snoc, OptBit.act],
            by simp [lastSigned_snoc]⟩, rfl⟩
      | plain =>
          refine ⟨⟨?_, ?_, ?_⟩, rfl⟩
          · rw [lastSigned_snoc]; exact ih.1.add
          · rw [lastSigned_snoc]; exact ih.1.remove
          · simp [OptBit.act]

theorem lastSigned_ne_plain : lastSigned all ≠ some .plain := by
  intro h
  have hmem := List.mem_of_getLast? h
  simp at hmem

/-- A merge: the option is on if it is to be kept, and what is recorded follows. -/
theorem Follows.merge (h : Follows start outer all b) (actions : List OptAction) :
    Follows start outer (all ++ actions) (b.merge (OptBit.level start actions)) ∧
      (b.merge (OptBit.level start actions)).on = kept start outer (all ++ actions) := by
  obtain ⟨hadd, hremove, -⟩ := (level_follows start actions).1
  have hlast : lastSigned (all ++ actions) = (lastSigned actions).or (lastSigned all) :=
    lastSigned_append
  have hnew : lastSigned actions ≠ some .plain := lastSigned_ne_plain
  have hold : lastSigned all ≠ some .plain := lastSigned_ne_plain
  unfold OptBit.merge
  rw [hadd, hremove, h.add, h.remove]
  cases hactions : lastSigned actions with
  | some action =>
      -- the inner level has the last word
      rw [hactions] at hlast hnew
      cases action with
      | add => exact ⟨⟨by simp [hlast], by simp [hlast], by simp [hlast]⟩, by simp [kept, hlast]⟩
      | remove =>
          exact ⟨⟨by simp [hlast], by simp [hlast], by simp [hlast]⟩, by simp [kept, hlast]⟩
      | plain => exact absurd rfl hnew
  | none =>
      rw [hactions, Option.none_or] at hlast
      cases hall : lastSigned all with
      | some action =>
          rw [hall] at hlast hold
          cases action with
          | add =>
              exact ⟨⟨by simp [hlast], by simp [hlast], by simp [hlast]⟩, by simp [kept, hlast]⟩
          | remove =>
              exact ⟨⟨by simp [hlast], by simp [hlast], by simp [hlast]⟩, by simp [kept, hlast]⟩
          | plain => exact absurd rfl hold
      | none =>
          rw [hall] at hlast
          have hon := h.on hall
          exact ⟨⟨by simp [hlast], by simp [hlast], by simp [hon]⟩, by simp [kept, hlast, hon]⟩

/-- The levels of a chain, merged one after the other. -/
theorem chain_follows (start : Bool) (outer : List OptAction) (inner : List (List OptAction)) :
    Follows start outer (outer ++ inner.flatten) (.chain start outer inner) := by
  induction inner using List.reverseRecOn with
  | nil =>
      rw [List.flatten_nil, List.append_nil]
      exact (level_follows start outer).1
  | append_singleton inner actions ih =>
      rw [List.flatten_append, List.flatten_singleton, ← List.append_assoc, OptBit.chain,
        List.foldl_append]
      exact (ih.merge actions).1

/-- The option is on after the chain as replayed, and after a merge with a level without
settings too, exactly if no last plain setting is lost. -/
theorem chain_on_iff (start : Bool) (outer : List OptAction) (inner : List (List OptAction)) :
    (OptBit.chain start outer inner).on = replayed start (outer ++ inner.flatten) ∧
      ((OptBit.chain start outer inner).merge (.level start [])).on =
        (OptBit.chain start outer inner).on ↔
      PlainHolds start outer (outer ++ inner.flatten) := by
  rw [← kept_eq_replayed_iff (List.prefix_append outer _)]
  have hempty := ((chain_follows start outer inner).merge []).2
  rw [List.append_nil] at hempty
  rw [hempty]
  cases inner using List.reverseRecOn with
  | nil =>
      have hon : (OptBit.chain start outer []).on =
          replayed start (outer ++ ([] : List (List OptAction)).flatten) := by
        rw [List.flatten_nil, List.append_nil]
        exact (level_follows start outer).2
      rw [hon]
      exact ⟨And.right, fun h => ⟨rfl, h⟩⟩
  | append_singleton inner actions =>
      have hon : (OptBit.chain start outer (inner ++ [actions])).on =
          kept start outer (outer ++ (inner ++ [actions]).flatten) := by
        rw [List.flatten_append, List.flatten_singleton, ← List.append_assoc,
          ← ((chain_follows start outer inner).merge actions).2, OptBit.chain, List.foldl_append]
        rfl
      rw [hon]
      exact ⟨And.left, fun h => ⟨h, rfl⟩⟩

end

/-! ## The marker -/

/-- The bit of the marker. -/
def OptionsType.marker : OptionsType → ℕ
  | .dir => 4
  | .srv => 25

namespace HookOrder

variable {f : HookOrder} {type : OptionsType} {name name' : Bytes} {i : ℕ}

theorem idxOf_unset : (f.flags type).idxOf (ascii "Unset") = type.marker + 1 := by
  cases type with
  | dir =>
      rw [flags]
      decide +kernel
  | srv =>
      have hhooks : ascii "Unset" ∉ f.hooks := by
        rw [f.perm.mem_iff]
        decide +kernel
      have hlength : f.hooks.length = 20 := f.perm.length_eq
      rw [flags, List.append_assoc, List.idxOf_append_of_notMem (by decide +kernel),
        List.idxOf_append_of_notMem hhooks, hlength]
      rfl

theorem unset_eq : f.unset type = BitVec.twoPow 32 type.marker := by
  rw [unset, flag, idxOf_unset]

theorem getLsbD_unset : (f.unset type).getLsbD i = decide (i = type.marker) := by
  rw [unset_eq, BitVec.getLsbD_twoPow, ← Bool.decide_and, decide_eq_decide]
  cases type <;> simp [OptionsType.marker, eq_comm]

/-- The type of a record is recognised. -/
theorem optionsType_eq {o : Options} (h : o.unset = f.unset type) :
    f.optionsType o = some type := by
  cases type with
  | dir =>
      have hne : f.unset .dir ≠ f.unset .srv := by
        rw [unset_eq, unset_eq]
        decide
      rw [optionsType, h, if_neg hne, if_pos rfl]
  | srv => rw [optionsType, h, if_pos rfl]

theorem getLsbD_flag :
    (f.flag type name).getLsbD i = decide (i < 32 ∧ (f.flags type).idxOf name = i + 1) := by
  unfold flag
  cases (f.flags type).idxOf name with
  | zero => simp
  | succ k =>
      rw [BitVec.getLsbD_twoPow, ← Bool.decide_and, decide_eq_decide]
      omega

/-- The setting is one of an option: its name is that of a flag, and not that of the
marker. -/
def IsOption (f : HookOrder) (type : OptionsType) (str : Bytes) : Prop :=
  (splitAction str).2 ∈ f.flags type ∧ (splitAction str).2 ≠ ascii "Unset"

/-- The bit of the option that the setting is about, if it has one. -/
def opt (f : HookOrder) (type : OptionsType) (str : Bytes) : Opts :=
  f.flag type (splitAction str).2

/-- No option has the bit of the marker. -/
theorem IsOption.marker {str : Bytes} (h : f.IsOption type str) :
    (f.opt type str).getLsbD type.marker = false := by
  rw [opt, getLsbD_flag, decide_eq_false_iff_not]
  rintro ⟨-, hidx⟩
  exact h.2 ((List.idxOf_inj h.1).mp (hidx.trans idxOf_unset.symm))

/-- A setting that is accepted does something with one flag. -/
theorem optionsSet_ok {str : Bytes} {o o' : Options} (h : f.optionsSet o str = .ok o') :
    ∃ opt, o' = optionsAct o opt (splitAction str).1 := by
  rw [optionsSet] at h
  cases hlookup : f.flagsLookup (f.optionsType o) (splitAction str).2 with
  | none =>
      simp only [hlookup] at h
      split_ifs at h
  | some opt =>
      simp only [hlookup] at h
      exact ⟨opt, (Except.ok.inj h).symm⟩

theorem IsOption.set {str : Bytes} {o : Options} (h : f.IsOption type str)
    (ho : o.unset = f.unset type) :
    f.optionsSet o str = .ok (optionsAct o (f.opt type str) (splitAction str).1) := by
  have hlookup : f.flagsLookup (f.optionsType o) (splitAction str).2 = some (f.opt type str) := by
    rw [optionsType_eq ho, flagsLookup, lookup, if_pos h.1]
    rfl
  simp only [optionsSet, hlookup]

end HookOrder

/-! ## The bits of a record -/

/-- What is recorded of the option at a bit. -/
def Options.bit (o : Options) (i : ℕ) : OptBit :=
  ⟨o.opts.getLsbD i, o.optsAdd.getLsbD i, o.optsRemove.getLsbD i⟩

variable {f : HookOrder} {type : OptionsType} {o base add conf : Options} {opt : Opts} {i : ℕ}

theorem bit_act (hi : i < 32) (action : OptAction) :
    (optionsAct o opt action).bit i =
      if opt.getLsbD i then (o.bit i).act action else o.bit i := by
  cases hbit : opt.getLsbD i <;> cases action <;>
    simp [Options.bit, optionsAct, OptBit.act, hbit, hi, -BitVec.getLsbD_eq_getElem]

/-- A merge with a level where the marker is there. -/
theorem bit_merge_of_marker (h : add.opts &&& add.unset ≠ 0) (hi : i < 32) :
    (optionsMerge base add).bit i = (base.bit i).merge (add.bit i) := by
  rw [optionsMerge, if_pos h]
  simp [Options.bit, OptBit.merge, hi, -BitVec.getLsbD_eq_getElem]

/-- A merge with a level where it is not: everything is taken from there. -/
theorem bit_merge_of_no_marker (h : add.opts &&& add.unset = 0) :
    (optionsMerge base add).bit i = add.bit i := by
  rw [optionsMerge, if_neg (not_not_intro h)]
  rfl

theorem add_and_remove_iff :
    o.optsAdd &&& o.optsRemove = 0 ↔ ∀ i < 32, ((o.bit i).add && (o.bit i).remove) = false := by
  rw [BitVec.eq_of_getLsbD_eq_iff]
  refine forall₂_congr fun i _ => ?_
  rw [BitVec.getLsbD_and]
  exact Iff.of_eq (congrArg _ BitVec.getLsbD_zero)

/-- The marker of the type is there, and it was neither turned on nor off. -/
structure Options.Marked (f : HookOrder) (type : OptionsType) (o : Options) : Prop where
  unset : o.unset = f.unset type
  bit : o.bit type.marker = ⟨true, false, false⟩

theorem OptionsType.marker_lt (type : OptionsType) : type.marker < 32 := by
  cases type <;> decide

namespace Options.Marked

theorem start : (f.optionsStart type).Marked f type := by
  have hmarker : (f.unset type).getLsbD type.marker = true := by
    rw [HookOrder.getLsbD_unset, decide_eq_true rfl]
  cases type with
  | dir => exact ⟨rfl, by simp [Options.bit, HookOrder.optionsStart, HookOrder.optionsNew, hmarker]⟩
  | srv => exact ⟨rfl, by simp [Options.bit, HookOrder.optionsStart, HookOrder.optionsNew, hmarker]⟩

theorem act (h : o.Marked f type) (hopt : opt.getLsbD type.marker = false) (action : OptAction) :
    (optionsAct o opt action).Marked f type := by
  constructor
  · cases action <;> exact h.unset
  · rw [bit_act type.marker_lt, hopt, if_neg Bool.false_ne_true, h.bit]

/-- The marker is found. -/
theorem opts_and_unset (h : o.Marked f type) : o.opts &&& o.unset ≠ 0 := by
  intro hzero
  have hbit := congrArg (BitVec.getLsbD · type.marker) hzero
  have hon : o.opts.getLsbD type.marker = true := congrArg OptBit.on h.bit
  rw [h.unset] at hbit
  simp [hon, HookOrder.getLsbD_unset] at hbit

theorem bit_merge (h : add.Marked f type) (hi : i < 32) :
    (optionsMerge base add).bit i = (base.bit i).merge (add.bit i) :=
  bit_merge_of_marker h.opts_and_unset hi

theorem merge (hbase : base.Marked f type) (hadd : add.Marked f type) :
    (optionsMerge base add).Marked f type := by
  constructor
  · rw [optionsMerge, if_pos hadd.opts_and_unset]
    exact hbase.unset
  · rw [hadd.bit_merge type.marker_lt, hbase.bit, hadd.bit]
    rfl

end Options.Marked

/-! ## The bits of a chain -/

namespace HookOrder

/-- The settings of the option at a bit. -/
def actionsAt (f : HookOrder) (type : OptionsType) (i : ℕ) (settings : List Bytes) :
    List OptAction :=
  settings.filterMap fun str =>
    if (f.opt type str).getLsbD i then some (splitAction str).1 else none

/-- Whether the option at a bit is on before any setting. -/
def startsOn (f : HookOrder) (type : OptionsType) (i : ℕ) : Bool :=
  (f.optionsStart type).opts.getLsbD i

/-- All settings applied to the options that are on at first: `+` and no sign turn an
option on, `-` turns it off. -/
def optionsReplay (f : HookOrder) (type : OptionsType) (settings : List Bytes) : Opts :=
  settings.foldl
    (fun inForce str =>
      if (splitAction str).1 = .remove then inForce &&& ~~~f.opt type str
      else inForce ||| f.opt type str)
    (f.optionsStart type).inForce

variable {str : Bytes} {settings outer : List Bytes} {inner : List (List Bytes)}

theorem actionsAt_cons : f.actionsAt type i (str :: settings) =
    (if (f.opt type str).getLsbD i then [(splitAction str).1] else []) ++
      f.actionsAt type i settings := by
  unfold actionsAt
  cases hbit : (f.opt type str).getLsbD i <;> simp [hbit]

theorem actionsAt_append (settings' : List Bytes) :
    f.actionsAt type i (settings ++ settings') =
      f.actionsAt type i settings ++ f.actionsAt type i settings' :=
  List.filterMap_append

theorem actionsAt_flatten :
    f.actionsAt type i inner.flatten = (inner.map (f.actionsAt type i)).flatten := by
  induction inner with
  | nil => rfl
  | cons settings inner ih =>
      rw [List.flatten_cons, actionsAt_append, ih, List.map_cons, List.flatten_cons]

theorem bit_start : (f.optionsStart type).bit i = ⟨f.startsOn type i, false, false⟩ := by
  cases type <;> simp [Options.bit, startsOn, optionsStart, optionsNew]

/-- The settings of a level are taken one after the other. -/
theorem foldlM_optionsSet (hoptions : ∀ str ∈ settings, f.IsOption type str)
    (ho : o.Marked f type) :
    ∃ o', settings.foldlM f.optionsSet o = .ok o' ∧ o'.Marked f type ∧
      ∀ i < 32, o'.bit i = (f.actionsAt type i settings).foldl OptBit.act (o.bit i) := by
  induction settings generalizing o with
  | nil => exact ⟨o, rfl, ho, fun _ _ => rfl⟩
  | cons str settings ih =>
      obtain ⟨hoption, hrest⟩ := List.forall_mem_cons.mp hoptions
      obtain ⟨o', hset, hmarked, hbits⟩ := ih hrest (ho.act hoption.marker (splitAction str).1)
      refine ⟨o', ?_, hmarked, fun i hi => ?_⟩
      · rw [List.foldlM_cons, hoption.set ho.unset]
        exact hset
      · rw [hbits i hi, bit_act hi, actionsAt_cons, List.foldl_append]
        split_ifs <;> rfl

theorem level_spec (hoptions : ∀ str ∈ settings, f.IsOption type str) :
    ∃ o, f.level type settings = .ok o ∧ o.Marked f type ∧
      ∀ i < 32, o.bit i = .level (f.startsOn type i) (f.actionsAt type i settings) := by
  obtain ⟨o, hset, hmarked, hbits⟩ := foldlM_optionsSet hoptions Options.Marked.start
  refine ⟨o, hset, hmarked, fun i hi => ?_⟩
  rw [hbits i hi, bit_start, OptBit.level]

/-- The inner levels are merged one after the other. -/
theorem foldlM_merge (hoptions : ∀ settings ∈ inner, ∀ str ∈ settings, f.IsOption type str)
    (hconf : conf.Marked f type) :
    ∃ conf', (inner.foldlM (fun conf settings =>
        (f.level type settings).map (optionsMerge conf)) conf) = .ok conf' ∧
      conf'.Marked f type ∧ ∀ i < 32, conf'.bit i = (inner.map (f.actionsAt type i)).foldl
        (fun b actions => b.merge (.level (f.startsOn type i) actions)) (conf.bit i) := by
  induction inner generalizing conf with
  | nil => exact ⟨conf, rfl, hconf, fun _ _ => rfl⟩
  | cons settings inner ih =>
      obtain ⟨hoption, hrest⟩ := List.forall_mem_cons.mp hoptions
      obtain ⟨o, hlevel, ho, hbits⟩ := level_spec hoption
      obtain ⟨conf', hmerge, hmarked, hbits'⟩ := ih hrest (hconf.merge ho)
      refine ⟨conf', ?_, hmarked, fun i hi => ?_⟩
      · rw [List.foldlM_cons, hlevel]
        exact hmerge
      · rw [hbits' i hi, ho.bit_merge hi, hbits i hi, List.map_cons, List.foldl_cons]

theorem optionsChain_spec (houter : ∀ str ∈ outer, f.IsOption type str)
    (hinner : ∀ settings ∈ inner, ∀ str ∈ settings, f.IsOption type str) :
    ∃ conf, f.optionsChain type outer inner = .ok conf ∧ conf.Marked f type ∧
      ∀ i < 32, conf.bit i = .chain (f.startsOn type i) (f.actionsAt type i outer)
        (inner.map (f.actionsAt type i)) := by
  obtain ⟨base, hlevel, hbase, hbits⟩ := level_spec houter
  obtain ⟨conf, hmerge, hconf, hbits'⟩ := foldlM_merge hinner hbase
  refine ⟨conf, ?_, hconf, fun i hi => ?_⟩
  · rw [optionsChain, hlevel]
    exact hmerge
  · rw [hbits' i hi, hbits i hi, OptBit.chain]

/-- The bits of the replay. -/
theorem getLsbD_optionsReplay (hi : i < 32) :
    (f.optionsReplay type settings).getLsbD i =
      replayed ((f.optionsStart type).inForce.getLsbD i) (f.actionsAt type i settings) := by
  unfold optionsReplay
  generalize (f.optionsStart type).inForce = inForce
  induction settings generalizing inForce with
  | nil => rfl
  | cons str settings ih =>
      -- one setting, at the bit
      have hset : (if (splitAction str).1 = .remove then inForce &&& ~~~f.opt type str
          else inForce ||| f.opt type str).getLsbD i =
          replayed (inForce.getLsbD i)
            (if (f.opt type str).getLsbD i then [(splitAction str).1] else []) := by
        by_cases hremove : (splitAction str).1 = .remove
        · rw [if_pos hremove, BitVec.getLsbD_and, BitVec.getLsbD_not, decide_eq_true hi, hremove]
          cases (f.opt type str).getLsbD i <;> simp [replayed]
        · rw [if_neg hremove, BitVec.getLsbD_or]
          cases (f.opt type str).getLsbD i <;> simp [replayed, hremove]
      rw [List.foldl_cons, ih, actionsAt_cons, hset, replayed, replayed, replayed,
        List.foldl_append]

end HookOrder

/-! ## Associativity and disjointness -/

theorem OptBit.merge_assoc (a b c : OptBit) : (a.merge b).merge c = a.merge (b.merge c) := by
  obtain ⟨on, add, remove⟩ := a
  obtain ⟨on', add', remove'⟩ := b
  obtain ⟨on'', add'', remove''⟩ := c
  revert on add remove add' remove' add'' remove''
  simp only [OptBit.merge, OptBit.mk.injEq]
  decide

theorem OptBit.add_and_remove_act {b : OptBit} (h : (b.add && b.remove) = false)
    (action : OptAction) : ((b.act action).add && (b.act action).remove) = false := by
  cases action with
  | add => rfl
  | remove => rfl
  | plain => exact h

theorem OptBit.add_and_remove_merge {b b' : OptBit} (h : (b.add && b.remove) = false)
    (h' : (b'.add && b'.remove) = false) : ((b.merge b').add && (b.merge b').remove) = false := by
  obtain ⟨on, add, remove⟩ := b
  obtain ⟨on', add', remove'⟩ := b'
  revert on add remove on' add' remove'
  decide

/-- The options that settings with this property and merges lead to. -/
inductive Options.Reachable (f : HookOrder) (type : OptionsType) (p : Bytes → Prop) : Options → Prop
  | start : Reachable f type p (f.optionsStart type)
  | set {o o' : Options} {str : Bytes} : Reachable f type p o → p str →
      f.optionsSet o str = .ok o' → Reachable f type p o'
  | merge {base add : Options} : Reachable f type p base → Reachable f type p add →
      Reachable f type p (optionsMerge base add)

/-- Records with the same bits and the same other fields are the same. -/
theorem Options.ext_bit {o o' : Options} (hbit : ∀ i < 32, o.bit i = o'.bit i)
    (hseen : o.optsSeen = o'.optsSeen) (hunset : o.unset = o'.unset) : o = o' := by
  refine Options.ext ?_ ?_ ?_ hseen hunset
  · exact BitVec.eq_of_getLsbD_eq fun i hi => congrArg OptBit.on (hbit i hi)
  · exact BitVec.eq_of_getLsbD_eq fun i hi => congrArg OptBit.add (hbit i hi)
  · exact BitVec.eq_of_getLsbD_eq fun i hi => congrArg OptBit.remove (hbit i hi)

theorem optionsMerge_rest : (optionsMerge base add).optsSeen = base.optsSeen ||| add.optsSeen ∧
    (optionsMerge base add).unset = base.unset := by
  unfold optionsMerge
  split_ifs <;> exact ⟨rfl, rfl⟩

theorem optionsMerge_assoc (a : Options) {b c : Options} (hb : b.Marked f type)
    (hc : c.Marked f type) :
    optionsMerge (optionsMerge a b) c = optionsMerge a (optionsMerge b c) := by
  apply Options.ext_bit
  · intro i hi
    rw [hc.bit_merge hi, hb.bit_merge hi, (hb.merge hc).bit_merge hi, hc.bit_merge hi,
      OptBit.merge_assoc]
  · rw [optionsMerge_rest.1, optionsMerge_rest.1, optionsMerge_rest.1, optionsMerge_rest.1,
      BitVec.or_assoc]
  · rw [optionsMerge_rest.2, optionsMerge_rest.2, optionsMerge_rest.2]

namespace Options.Reachable

/-- If only options are set, the marker stays. -/
theorem marked (h : Reachable f type (f.IsOption type) o) : o.Marked f type := by
  induction h with
  | start => exact .start
  | set _ hoption hset ih =>
      rw [hoption.set ih.unset] at hset
      obtain rfl := Except.ok.inj hset
      exact ih.act hoption.marker _
  | merge _ _ hbase hadd => exact hbase.merge hadd

/-- No option is recorded as turned on and as turned off. -/
theorem add_and_remove {p : Bytes → Prop} (h : Reachable f type p o) :
    o.optsAdd &&& o.optsRemove = 0 := by
  rw [add_and_remove_iff]
  induction h with
  | start =>
      intro i _
      rw [HookOrder.bit_start]
      rfl
  | @set o o' str _ _ hset ih =>
      obtain ⟨opt, rfl⟩ := HookOrder.optionsSet_ok hset
      intro i hi
      rw [bit_act hi]
      split_ifs with hopt
      · exact OptBit.add_and_remove_act (ih i hi) _
      · exact ih i hi
  | @merge base add _ _ hbase hadd =>
      intro i hi
      by_cases hmarker : add.opts &&& add.unset = 0
      · rw [bit_merge_of_no_marker hmarker]
        exact hadd i hi
      · rw [bit_merge_of_marker hmarker hi]
        exact OptBit.add_and_remove_merge (hbase i hi) (hadd i hi)

end Options.Reachable

/-! ## When merging is replaying -/

theorem getLsbD_inForce (ho : o.Marked f type) (hi : i < 32) :
    o.inForce.getLsbD i = ((o.bit i).on && decide (i ≠ type.marker)) := by
  rw [Options.inForce, BitVec.getLsbD_and, BitVec.getLsbD_not, ho.unset, HookOrder.getLsbD_unset,
    decide_eq_true hi, Bool.true_and, decide_not]
  rfl

/-- The options in force are these, if the bits are, but for the marker. -/
theorem inForce_eq_iff {opts : Opts} (ho : o.Marked f type)
    (hmarker : opts.getLsbD type.marker = false) :
    o.inForce = opts ↔ ∀ i < 32, i ≠ type.marker → (o.bit i).on = opts.getLsbD i := by
  rw [BitVec.eq_of_getLsbD_eq_iff]
  refine forall₂_congr fun i hi => ?_
  rw [getLsbD_inForce ho hi]
  by_cases heq : i = type.marker
  · simp [heq, hmarker]
  · simp [heq]

namespace HookOrder

variable {settings outer : List Bytes} {inner : List (List Bytes)}

/-- No settings are about the marker, or about a bit that is not there. -/
theorem actionsAt_eq_nil (hoptions : ∀ str ∈ settings, f.IsOption type str)
    (hi : 32 ≤ i ∨ i = type.marker) : f.actionsAt type i settings = [] := by
  rw [actionsAt, List.filterMap_eq_nil_iff]
  intro str hstr
  have hbit : (f.opt type str).getLsbD i = false := by
    rcases hi with hlarge | rfl
    · exact BitVec.getLsbD_of_ge _ _ hlarge
    · exact (hoptions str hstr).marker
  rw [hbit, if_neg Bool.false_ne_true]

/-- The options in force, for records that have the bits of a chain. -/
theorem inForce_iff (hoptions : ∀ str ∈ outer ++ inner.flatten, f.IsOption type str)
    (hconf : conf.Marked f type)
    (hbits : ∀ i < 32, conf.bit i = .chain (f.startsOn type i) (f.actionsAt type i outer)
      (inner.map (f.actionsAt type i))) :
    conf.inForce = f.optionsReplay type (outer ++ inner.flatten) ∧
        (optionsMerge conf (f.optionsStart type)).inForce = conf.inForce ↔
      ∀ i, PlainHolds (f.startsOn type i) (f.actionsAt type i outer)
        (f.actionsAt type i (outer ++ inner.flatten)) := by
  have hforce : ∀ {o : Options}, o.Marked f type → o.inForce.getLsbD type.marker = false := by
    intro o ho
    simp [getLsbD_inForce ho type.marker_lt]
  have hreplay : (f.optionsReplay type (outer ++ inner.flatten)).getLsbD type.marker = false := by
    rw [getLsbD_optionsReplay type.marker_lt, actionsAt_eq_nil hoptions (.inr rfl)]
    exact hforce .start
  have hreplayed : ∀ i < 32, i ≠ type.marker →
      (f.optionsReplay type (outer ++ inner.flatten)).getLsbD i =
        replayed (f.startsOn type i)
          (f.actionsAt type i outer ++ (inner.map (f.actionsAt type i)).flatten) := by
    intro i hi hne
    rw [getLsbD_optionsReplay hi, getLsbD_inForce .start hi, decide_eq_true hne, Bool.and_true,
      bit_start, actionsAt_append, actionsAt_flatten]
  have hempty : ∀ i < 32, (optionsMerge conf (f.optionsStart type)).bit i =
      (conf.bit i).merge (.level (f.startsOn type i) []) := by
    intro i hi
    rw [Options.Marked.start.bit_merge hi, bit_start]
    rfl
  rw [inForce_eq_iff hconf hreplay, inForce_eq_iff (hconf.merge .start) (hforce hconf)]
  constructor
  · rintro ⟨hon, hkept⟩ i
    by_cases hi : i < 32 ∧ i ≠ type.marker
    · obtain ⟨hlt, hne⟩ := hi
      rw [actionsAt_append, actionsAt_flatten, ← chain_on_iff, ← hbits i hlt]
      refine ⟨(hon i hlt hne).trans (hreplayed i hlt hne), ?_⟩
      rw [← hempty i hlt, hkept i hlt hne, getLsbD_inForce hconf hlt, decide_eq_true hne,
        Bool.and_true]
    · -- no option is about the marker, or beyond the 32 bits
      have hnone : f.actionsAt type i (outer ++ inner.flatten) = [] := by
        apply actionsAt_eq_nil hoptions
        by_cases hlt : i < 32
        · exact .inr (not_not.mp fun hne => hi ⟨hlt, hne⟩)
        · exact .inl (Nat.le_of_not_lt hlt)
      rw [hnone]
      intro hlast
      cases hlast
  · intro hplain
    have hchain : ∀ i < 32, (conf.bit i).on = replayed (f.startsOn type i)
          (f.actionsAt type i outer ++ (inner.map (f.actionsAt type i)).flatten) ∧
        ((conf.bit i).merge (.level (f.startsOn type i) [])).on = (conf.bit i).on := by
      intro i hi
      have h := hplain i
      rw [actionsAt_append, actionsAt_flatten, ← chain_on_iff, ← hbits i hi] at h
      exact h
    refine ⟨fun i hi hne => ?_, fun i hi hne => ?_⟩
    · rw [(hchain i hi).1, hreplayed i hi hne]
    · rw [hempty i hi, (hchain i hi).2, getLsbD_inForce hconf hi, decide_eq_true hne,
        Bool.and_true]

/-- For a chain of levels with settings of options: the options in force are those that
all settings in order give, and stay so in a merge with a level without settings, and
merges are associative and no option is recorded as turned on and off, exactly if no
last setting without a sign is lost, of any option. -/
theorem options_replay_iff (houter : ∀ str ∈ outer, f.IsOption type str)
    (hinner : ∀ settings ∈ inner, ∀ str ∈ settings, f.IsOption type str) :
    ∃ conf, f.optionsChain type outer inner = .ok conf ∧
      ((conf.inForce = f.optionsReplay type (outer ++ inner.flatten) ∧
          (optionsMerge conf (f.optionsStart type)).inForce = conf.inForce) ∧
        (∀ a b c : Options, a.Reachable f type (f.IsOption type) →
          b.Reachable f type (f.IsOption type) → c.Reachable f type (f.IsOption type) →
          optionsMerge (optionsMerge a b) c = optionsMerge a (optionsMerge b c)) ∧
        (∀ o : Options, o.Reachable f type (fun _ => True) → o.optsAdd &&& o.optsRemove = 0) ↔
      ∀ i, PlainHolds (f.startsOn type i) (f.actionsAt type i outer)
        (f.actionsAt type i (outer ++ inner.flatten))) := by
  obtain ⟨conf, hchain, hconf, hbits⟩ := optionsChain_spec houter hinner
  refine ⟨conf, hchain, ?_⟩
  have hoptions : ∀ str ∈ outer ++ inner.flatten, f.IsOption type str := by
    intro str hstr
    rcases List.mem_append.mp hstr with hmem | hmem
    · exact houter str hmem
    · obtain ⟨settings, hsettings, hmem⟩ := List.mem_flatten.mp hmem
      exact hinner settings hsettings str hmem
  rw [← inForce_iff hoptions hconf hbits]
  refine and_iff_left ⟨fun a b c _ hb hc => ?_, fun o ho => ho.add_and_remove⟩
  exact optionsMerge_assoc a hb.marked hc.marked

/-- With signs on all settings nothing is lost. -/
theorem plainHolds_of_signed (start : Bool) (before : List OptAction)
    (hsigned : ∀ str ∈ settings, (splitAction str).1 ≠ .plain) :
    PlainHolds start before (f.actionsAt type i settings) := by
  intro hlast
  obtain ⟨str, hstr, hsome⟩ := List.mem_filterMap.mp (List.mem_of_getLast? hlast)
  split_ifs at hsome
  exact absurd (Option.some.inj hsome) (hsigned str hstr)

/-- A section in a section: the outer one turns an option on, the inner one turns it
off and another one on. -/
theorem options_replay_two :
    ∃ conf, optionsChain ⟨hookFlags, .refl _⟩ .dir [ascii "+SetupEnv"]
        [[ascii "-SetupEnv", ascii "+ParseHeaders"]] = .ok conf ∧
      conf.inForce = optionsReplay ⟨hookFlags, .refl _⟩ .dir
        [ascii "+SetupEnv", ascii "-SetupEnv", ascii "+ParseHeaders"] := by
  obtain ⟨conf, hchain, hiff⟩ := @options_replay_iff ⟨hookFlags, .refl _⟩ .dir [ascii "+SetupEnv"]
    [[ascii "-SetupEnv", ascii "+ParseHeaders"]]
    (List.forall_mem_singleton.mpr (by unfold IsOption; decide +kernel))
    (List.forall_mem_singleton.mpr (by unfold IsOption; decide +kernel))
  refine ⟨conf, hchain, ((hiff.mpr fun i => ?_).1).1⟩
  exact plainHolds_of_signed _ _ (by decide +kernel)

/-- An option that a section sets without a sign is not on. -/
theorem options_plain_lost :
    ∃ conf, optionsChain ⟨hookFlags, .refl _⟩ .dir [] [[ascii "SetupEnv"]] = .ok conf ∧
      conf.inForce = 0 ∧
      optionsReplay ⟨hookFlags, .refl _⟩ .dir [ascii "SetupEnv"] =
        flag ⟨hookFlags, .refl _⟩ .dir (ascii "SetupEnv") ∧
      flag ⟨hookFlags, .refl _⟩ .dir (ascii "SetupEnv") ≠ 0 := by
  refine ⟨⟨16, 0, 0, 2, 16⟩, ?_, ?_, ?_, ?_⟩ <;> decide +kernel

end HookOrder

end ModPerl
