import ModPerl.Httpd
import ModPerl.Library.Grouping

/-!
# `PerlSetVar` and `PerlAddVar`

Each level of the configuration has two tables for the variables: `configvars`
with the values, and `setvars` with the keys that were set at that level.  On a
merge the keys of the inner `setvars` lose their outer values.  The tables say
less than the directives did, but enough: what a level does to the values that
come from outside can be read from them, and a merge does what its two levels do
one after the other.

The functions are those of `modperl_config.c` and `modperl_cmd.c`.  The tables
of a directory and of a server configuration are merged by the same lines.
-/

namespace ModPerl

open Table

/-- `setvars` and `configvars` of a configuration. -/
@[ext]
structure ConfigVars where
  setvars : AprTable
  configvars : AprTable

namespace ConfigVars

/-- `apr_table_make`, for both. -/
def new : ConfigVars := ⟨[], []⟩

/-- `modperl_table_overlap` -/
def tableOverlap (base add : AprTable) : AprTable := compress caseless (overlay base add)

/-- `merge_config_add_vars` -/
def mergeConfigAddVars (base unset add : AprTable) : AprTable :=
  overlay ((unset.map Prod.fst).foldl (Table.unset caseless) base) add

/-- `modperl_config_dir_merge` and `modperl_config_srv_merge` -/
def merge (base add : ConfigVars) : ConfigVars where
  configvars := mergeConfigAddVars base.configvars add.setvars add.configvars
  setvars := tableOverlap base.setvars add.setvars

/-- `modperl_cmd_addvar_func` -/
def addvarFunc (vars : ConfigVars) (key val : Bytes) : ConfigVars :=
  { vars with configvars := Table.add vars.configvars key val }

/-- `modperl_cmd_setvar_func` -/
def setvarFunc (vars : ConfigVars) (key val : Bytes) : ConfigVars where
  setvars := Table.set caseless vars.setvars key val
  configvars := Table.set caseless vars.configvars key val

end ConfigVars

/-- A directive for a variable. -/
inductive VarDirective
  | perlSetVar (key val : Bytes)
  | perlAddVar (key val : Bytes)
  deriving DecidableEq

/-- `modperl_var_modify_t` of the directive. -/
def VarDirective.varfunc (vars : ConfigVars) : VarDirective → ConfigVars
  | perlSetVar key val => vars.setvarFunc key val
  | perlAddVar key val => vars.addvarFunc key val

/-- `modperl_cmd_modvar`: outside of all sections also the configuration of the
server is changed. -/
def cmdModvar (path : Option Bytes) (vars : ConfigVars × ConfigVars) (directive : VarDirective) :
    ConfigVars × ConfigVars :=
  let (dcfg, scfg) := vars
  (directive.varfunc dcfg, if path.isNone then directive.varfunc scfg else scfg)

/-- A level of the configuration: a section with its path, or all of a server
outside of its sections. -/
structure VarLevel where
  path : Option Bytes
  directives : List VarDirective

namespace VarLevel

/-- The directory and the server configuration, with the directives of the level. -/
def config (level : VarLevel) : ConfigVars × ConfigVars :=
  level.directives.foldl (cmdModvar level.path) (.new, .new)

/-- The directives that the server configuration gets. -/
def srvDirectives (level : VarLevel) : List VarDirective :=
  if level.path.isNone then level.directives else []

end VarLevel

/-- What a directive means for the values of a key. -/
def VarDirective.apply (k : Bytes) (vals : List Bytes) : VarDirective → List Bytes
  | perlSetVar key val => if caseless key = caseless k then [val] else vals
  | perlAddVar key val => if caseless key = caseless k then vals ++ [val] else vals

/-- The values of a key after these directives. -/
def replay (k : Bytes) (vals : List Bytes) (directives : List VarDirective) : List Bytes :=
  directives.foldl (VarDirective.apply k) vals

/-- The tables do to the values of every key what the directives do. -/
def Encodes (directives : List VarDirective) (vars : ConfigVars) : Prop :=
  ∀ k vals, replay k vals directives =
    (if Has caseless vars.setvars k then [] else vals) ++ values caseless vars.configvars k

section

open ConfigVars

variable {ds ds' : List VarDirective} {vars vars' : ConfigVars} {k : Bytes} {vals : List Bytes}

theorem replay_append :
    replay k vals (ds ++ ds') = replay k (replay k vals ds) ds' := List.foldl_append

theorem encodes_new : Encodes [] .new := fun k vals => by
  exact (List.append_nil vals).symm

/-- One directive. -/
theorem Encodes.varfunc (h : Encodes ds vars) (d : VarDirective) :
    Encodes (ds ++ [d]) (d.varfunc vars) := by
  intro k vals
  have hlast : replay k vals (ds ++ [d]) = d.apply k (replay k vals ds) := replay_append
  rw [hlast, h k vals]
  cases d with
  | perlSetVar key val =>
      simp only [VarDirective.apply, VarDirective.varfunc, setvarFunc, has_set, values_set]
      by_cases hkey : caseless key = caseless k <;> simp [hkey]
  | perlAddVar key val =>
      have hvalues : values caseless (vars.addvarFunc key val).configvars k =
          values caseless vars.configvars k ++ if caseless key = caseless k then [val] else [] :=
        values_add
      rw [VarDirective.varfunc, hvalues, ← List.append_assoc, VarDirective.apply]
      by_cases hkey : caseless key = caseless k
      · rw [if_pos hkey, if_pos hkey]
        rfl
      · rw [if_neg hkey, if_neg hkey, List.append_nil]
        rfl

/-- A merge does what its levels do, the outer one first. -/
theorem Encodes.merge (h : Encodes ds vars) (h' : Encodes ds' vars') :
    Encodes (ds ++ ds') (vars.merge vars') := by
  intro k vals
  rw [replay_append, h k vals, h' k]
  simp only [ConfigVars.merge, mergeConfigAddVars, tableOverlap, has_compress, has_overlay,
    values_overlay, values_foldl_unset_keys]
  by_cases hinner : Has caseless vars'.setvars k <;> simp [hinner]

/-- Merges are associative, down to the order of the entries and the spelling of the
keys. -/
theorem ConfigVars.merge_assoc (a b c : ConfigVars) :
    (a.merge b).merge c = a.merge (b.merge c) := by
  have hsetvars : ((a.merge b).merge c).setvars = (a.merge (b.merge c)).setvars :=
    compress_overlay_assoc c.setvars
  have hconfigvars : ((a.merge b).merge c).configvars = (a.merge (b.merge c)).configvars := by
    simp only [ConfigVars.merge, mergeConfigAddVars, tableOverlap, foldl_unset_keys, overlay,
      List.filter_append, List.append_assoc, List.filter_filter]
    refine congrArg (· ++ _) (List.filter_congr fun e _ => ?_)
    have hhas : Has caseless (compress caseless (b.setvars ++ c.setvars)) e.1 ↔
        Has caseless b.setvars e.1 ∨ Has caseless c.setvars e.1 :=
      has_compress.trans has_overlay
    simp [hhas, Bool.and_comm]
  exact ConfigVars.ext hsetvars hconfigvars

end

/-! ## Levels -/

theorem encodes_config (level : VarLevel) :
    Encodes level.directives level.config.1 ∧ Encodes level.srvDirectives level.config.2 := by
  unfold VarLevel.config VarLevel.srvDirectives
  induction level.directives using List.reverseRecOn with
  | nil => cases level.path <;> exact ⟨encodes_new, encodes_new⟩
  | append_singleton ds d ih =>
      rw [List.foldl_append]
      obtain ⟨hdir, hsrv⟩ := ih
      refine ⟨hdir.varfunc d, ?_⟩
      cases hpath : level.path with
      | none =>
          rw [hpath] at hsrv
          exact hsrv.varfunc d
      | some path =>
          rw [hpath] at hsrv
          exact hsrv

/-- The merged configuration of a chain, however it is grouped, does what the directives
of the levels do. -/
theorem encodes_eval {config : VarLevel → ConfigVars} {directives : VarLevel → List VarDirective}
    (h : ∀ level, Encodes (directives level) (config level)) (g : Grouping VarLevel) :
    Encodes (g.elements.flatMap directives) (g.eval ConfigVars.merge config) := by
  apply Grouping.eval_rel (R := fun levels vars => Encodes (levels.flatMap directives) vars)
  · intro level
    rw [List.flatMap_cons, List.flatMap_nil, List.append_nil]
    exact h level
  · intro outer inner vars vars' houter hinner
    rw [List.flatMap_append]
    exact houter.merge hinner

/-- In the merged configuration of a directory and in that of a server, the values of
every key are those that all directives of the chain give, replayed from the outermost
level to the innermost.  Merges are associative, and chains with the same levels have
the same configuration. -/
theorem vars_replay (g : Grouping VarLevel) :
    (∀ k, values caseless (g.eval ConfigVars.merge (·.config.1)).configvars k =
      replay k [] (g.elements.flatMap VarLevel.directives)) ∧
    (∀ k, values caseless (g.eval ConfigVars.merge (·.config.2)).configvars k =
      replay k [] (g.elements.flatMap VarLevel.srvDirectives)) ∧
    (∀ a b c : ConfigVars, (a.merge b).merge c = a.merge (b.merge c)) ∧
    ∀ g' : Grouping VarLevel, g'.elements = g.elements →
      g'.eval ConfigVars.merge (·.config.1) = g.eval ConfigVars.merge (·.config.1) ∧
      g'.eval ConfigVars.merge (·.config.2) = g.eval ConfigVars.merge (·.config.2) := by
  refine ⟨fun k => ?_, fun k => ?_, ConfigVars.merge_assoc, fun g' hlevels => ⟨?_, ?_⟩⟩
  · rw [encodes_eval (fun level => (encodes_config level).1) g, ite_self, List.nil_append]
  · rw [encodes_eval (fun level => (encodes_config level).2) g, ite_self, List.nil_append]
  · exact Grouping.eval_congr ConfigVars.merge_assoc hlevels
  · exact Grouping.eval_congr ConfigVars.merge_assoc hlevels

/-- Of a server, of a section, and of a section in it: the second sets a variable of the
first in another spelling and adds to it, the third adds to both. -/
def serverLevel : VarLevel :=
  ⟨none, [.perlSetVar (ascii "A") (ascii "1"), .perlAddVar (ascii "B") (ascii "1")]⟩

@[inherit_doc serverLevel]
def outerSection : VarLevel :=
  ⟨some (ascii "/x"), [.perlSetVar (ascii "a") (ascii "2"), .perlAddVar (ascii "A") (ascii "3")]⟩

@[inherit_doc serverLevel]
def innerSection : VarLevel :=
  ⟨some (ascii "/x/y"), [.perlAddVar (ascii "a") (ascii "4"), .perlAddVar (ascii "b") (ascii "2")]⟩

theorem vars_replay_three :
    values caseless ((Grouping.combine (.single serverLevel)
        (.combine (.single outerSection) (.single innerSection))).eval
          ConfigVars.merge (·.config.1)).configvars (ascii "A") =
      [ascii "2", ascii "3", ascii "4"] ∧
    (Grouping.combine (.combine (.single serverLevel) (.single outerSection))
        (.single innerSection)).eval ConfigVars.merge (·.config.1) =
      (Grouping.combine (.single serverLevel)
        (.combine (.single outerSection) (.single innerSection))).eval
          ConfigVars.merge (·.config.1) := by
  obtain ⟨hdir, -, -, hgrouping⟩ := vars_replay (.combine (.single serverLevel)
    (.combine (.single outerSection) (.single innerSection)))
  exact ⟨(hdir (ascii "A")).trans (by decide +kernel), (hgrouping _ rfl).1⟩

end ModPerl
