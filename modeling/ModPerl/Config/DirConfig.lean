import ModPerl.Httpd

/-!
# `dir_config`

`$r->dir_config` reads, sets and unsets the variables of a request with one
function.  It goes to the table of the directory, and once more to the table of
the server if the first result is not defined.  For a reading this is the wanted
fallback.  But setting and unsetting never give a defined result: they are done
to both tables, and the one of the server stays changed for all other requests.

The functions are those of `modperl_util.c`.
-/

namespace ModPerl

open Table

/-- A value that is passed to an accessor of a table: `undef` or a string. -/
inductive SvVal
  | undef
  | pv (bytes : Bytes)
  deriving DecidableEq

/-- What an accessor of a table returns: `undef`, a string, or an `APR::Table`
object tied to the table of the name. -/
inductive TableSv (ρ : Type*)
  | undef (tainted : Bool)
  | pv (val : Bytes) (tainted : Bool)
  | tied (table : ρ)
  deriving DecidableEq

/-- `SvOK` -/
def TableSv.ok {ρ : Type*} : TableSv ρ → Bool
  | undef _ => false
  | pv _ _ | tied _ => true

/-- `modperl_table_get_set` -/
def tableGetSet {ρ : Type*} (name : ρ) (table : Option AprTable) (key : Option Bytes)
    (svVal : Option SvVal) (doTaint : Bool) : TableSv ρ × Option AprTable :=
  match table, key, svVal with
  | none, _, _ => (.undef false, none)
  | some t, none, _ => (.tied name, some t)
  | some t, some k, none =>
      match get caseless t k with
      | some val => (.pv val doTaint, some t)
      | none => (.undef doTaint, some t)
  | some t, some k, some .undef => (.undef false, some (unset caseless t k))
  | some t, some k, some (.pv val) => (.undef false, some (Table.set caseless t k (cstr val)))

/-- The two configurations with variables that a call of `dir_config` sees. -/
inductive VarScope
  | dir
  | srv
  deriving DecidableEq

/-- `configvars` of the configuration of the directory, if there is a request, and of
the server. -/
structure VarTables where
  dir : Option AprTable
  srv : Option AprTable
  deriving DecidableEq

/-- `modperl_dir_config` -/
def dirConfig (key : Option Bytes) (svVal : Option SvVal) (tables : VarTables) :
    TableSv VarScope × VarTables :=
  let (retval, dir) := tableGetSet .dir tables.dir key svVal false
  if retval.ok then (retval, { tables with dir := dir })
  else
    -- also after the value was set or unset
    let (retval, srv) := tableGetSet .srv tables.srv key svVal false
    (retval, ⟨dir, srv⟩)

/-- `$r->dir_config($key)`, with a value or without, has the effect that is documented: the
table of the server is left alone, so is all of the directory's table but the key, and
a reading falls back on the server. -/
structure DocumentedDirConfig (dir srv : AprTable) (key : Bytes) (svVal : Option SvVal)
    (retval : TableSv VarScope) (dir' srv' : AprTable) : Prop where
  server : srv' = srv
  others : unset caseless dir' key = unset caseless dir key
  named : values caseless dir' key = match svVal with
    | none => values caseless dir key
    | some .undef => []
    | some (.pv val) => [cstr val]
  reads : svVal = none → dir' = dir ∧ retval =
    match (get caseless dir key).or (get caseless srv key) with
    | some val => .pv val false
    | none => .undef false

/-- What the call would set or unset is so already in the table of the server. -/
def ServerAgrees (srv : AprTable) (key : Bytes) : Option SvVal → Prop
  | none => True
  | some .undef => values caseless srv key = []
  | some (.pv val) => values caseless srv key = [cstr val]

section

variable {dir srv : AprTable} {key val : Bytes}

theorem dirConfig_none :
    dirConfig (some key) none ⟨some dir, some srv⟩ =
      (match (get caseless dir key).or (get caseless srv key) with
        | some val => .pv val false
        | none => .undef false, ⟨some dir, some srv⟩) := by
  unfold dirConfig tableGetSet
  cases hdir : get caseless dir key with
  | some val => simp [hdir, TableSv.ok]
  | none => cases hsrv : get caseless srv key <;> simp [hdir, hsrv, TableSv.ok]

theorem dirConfig_undef :
    dirConfig (some key) (some .undef) ⟨some dir, some srv⟩ =
      (.undef false, ⟨some (unset caseless dir key), some (unset caseless srv key)⟩) := rfl

theorem dirConfig_pv :
    dirConfig (some key) (some (.pv val)) ⟨some dir, some srv⟩ =
      (.undef false, ⟨some (Table.set caseless dir key (cstr val)),
        some (Table.set caseless srv key (cstr val))⟩) := rfl

end

/-- A reading does what is documented, setting and unsetting do it exactly if the
table of the server says so already. -/
theorem dirConfig_documented_iff (dir srv : AprTable) (key : Bytes) (svVal : Option SvVal) :
    (∃ retval dir' srv',
      dirConfig (some key) svVal ⟨some dir, some srv⟩ = (retval, ⟨some dir', some srv'⟩) ∧
      DocumentedDirConfig dir srv key svVal retval dir' srv') ↔
    ServerAgrees srv key svVal := by
  match svVal with
  | none => exact iff_of_true ⟨_, _, _, dirConfig_none, rfl, rfl, rfl, fun _ => ⟨rfl, rfl⟩⟩ trivial
  | some .undef =>
      rw [dirConfig_undef, ServerAgrees, ← unset_eq_self_iff]
      constructor
      · rintro ⟨retval, dir', srv', heq, h⟩
        cases heq
        exact h.server
      · intro hsrv
        exact ⟨_, _, _, rfl, hsrv, unset_unset_self, by rw [values_unset, if_pos rfl], nofun⟩
  | some (.pv val) =>
      rw [dirConfig_pv, ServerAgrees, ← set_eq_self_iff]
      constructor
      · rintro ⟨retval, dir', srv', heq, h⟩
        cases heq
        exact h.server
      · intro hsrv
        exact ⟨_, _, _, rfl, hsrv, unset_set_self, by rw [values_set, if_pos rfl], nofun⟩

/-- A value that is set in one directory is read in every directory whose table does not
have the key. -/
theorem dirConfig_leaks (dir dir' srv : AprTable) (key val : Bytes)
    (hother : get caseless dir' key = none) :
    (dirConfig (some key) none ⟨some dir',
      (dirConfig (some key) (some (.pv val)) ⟨some dir, some srv⟩).2.srv⟩).1 =
        .pv (cstr val) false := by
  have hset : Table.get caseless (Table.set caseless srv key (cstr val)) key =
      some (cstr val) := by
    rw [Table.get, values_set, if_pos rfl, List.head?_cons]
  rw [dirConfig_pv, dirConfig_none, hother, hset, Option.none_or]

/-- The variable is set for the request in a directory, and with it for the server. -/
theorem dirConfig_documented_fails :
    ¬∀ (dir srv : AprTable) (key : Bytes) (svVal : Option SvVal),
      ∃ retval dir' srv',
        dirConfig (some key) svVal ⟨some dir, some srv⟩ = (retval, ⟨some dir', some srv'⟩) ∧
        DocumentedDirConfig dir srv key svVal retval dir' srv' := by
  intro hall
  obtain ⟨retval, dir', srv', heq, h⟩ := hall [] [] (ascii "Key") (some (.pv (ascii "1")))
  rw [dirConfig_pv] at heq
  cases heq
  exact absurd h.server (by decide)

end ModPerl
