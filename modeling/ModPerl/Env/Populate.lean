import ModPerl.Httpd

/-!
# `%ENV` and `r->subprocess_env`

The variables of `PerlSetEnv` and `PerlPassEnv` go to two stores: to `%ENV` of
the interpreter, a hash whose keys are compared byte by byte and which keeps the
last value that is stored, and to `r->subprocess_env`, a table whose keys are
compared without regard to case and which may hold several values for a key.
`apr_table_get` returns the first of these.  The tables of a server are put
behind what is there, the table of a directory replaces what is there: the two
stores agree on a key exactly if the value they are made to keep happens to be
the same one.

The functions are those of `modperl_env.c`.
-/

namespace ModPerl

open Table

/-- `%ENV`: the keys are compared byte by byte. -/
abbrev EnvHash := Table Bytes Bytes

/-- The tables of `PerlSetEnv` and `PerlPassEnv` that a request is configured with. -/
structure EnvTables where
  /-- `scfg->SetEnv` -/
  srvSetEnv : AprTable
  /-- `scfg->PassEnv` -/
  srvPassEnv : AprTable
  /-- `dcfg->SetEnv` -/
  dirSetEnv : AprTable
  deriving DecidableEq

/-- All that the tables give, in the order in which they are applied. -/
def EnvTables.given (tables : EnvTables) : AprTable :=
  tables.srvSetEnv ++ tables.srvPassEnv ++ tables.dirSetEnv

/-- `%ENV` of the interpreter, `subprocess_env` of the request and the flags of
`modperl_config_req_t` that are about them. -/
structure EnvReq where
  env : EnvHash
  subprocessEnv : AprTable
  perlSetEnvSrv : Bool
  perlSetEnvDir : Bool
  setupEnv : Bool
  deriving DecidableEq

/-- What the server does to tables. -/
structure EnvHttpd where
  /-- `apr_table_overlap` is described as setting the entries of the second table in
  the first one.  It may do so by compressing the two together: then of the other
  keys of the first table, too, only the last value is kept. -/
  overlapCompresses : Bool
  /-- `ap_add_common_vars`, and then `ap_add_cgi_vars`. -/
  addVars : AprTable → AprTable

namespace Env

/-- `$ENV{key}` -/
def fetch (hv : EnvHash) (key : Bytes) : Option Bytes := Table.get id hv key

/-- `MP_ENV_HV_STORE` -/
def hvStore (hv : EnvHash) (key val : Bytes) : EnvHash := Table.set id hv key val

/-- `modperl_env_hv_delete` -/
def hvDelete (hv : EnvHash) (key : Bytes) : EnvHash := Table.unset id hv key

/-- `modperl_env_table_populate` -/
def tablePopulate (hv : EnvHash) (table : AprTable) : EnvHash :=
  table.foldl (fun hv elt => hvStore hv elt.1 elt.2) hv

/-- `modperl_env_table_unpopulate` -/
def tableUnpopulate (hv : EnvHash) (table : AprTable) : EnvHash :=
  (table.map Prod.fst).foldl hvDelete hv

/-- `apr_table_overlap`, with `APR_OVERLAP_TABLES_SET`. -/
def overlapTables (httpd : EnvHttpd) (a b : AprTable) : AprTable :=
  if httpd.overlapCompresses then compress caseless (overlay a b) else setAll caseless a b

/-- The lines of `modperl_env_configure_request_srv` for one of its tables. -/
def configureSrvTable (table : AprTable) (st : EnvReq) : EnvReq :=
  if table.isEmpty then st
  else
    { st with
      env := tablePopulate st.env table
      subprocessEnv := overlay st.subprocessEnv table }

/-- `modperl_env_configure_request_srv` -/
def configureRequestSrv (tables : EnvTables) (st : EnvReq) : EnvReq :=
  { configureSrvTable tables.srvPassEnv (configureSrvTable tables.srvSetEnv st) with
    perlSetEnvSrv := true }

/-- `modperl_env_configure_request_dir` -/
def configureRequestDir (httpd : EnvHttpd) (tables : EnvTables) (st : EnvReq) : EnvReq :=
  let st :=
    if tables.dirSetEnv.isEmpty then st
    else
      { st with
        env := tablePopulate st.env tables.dirSetEnv
        subprocessEnv := overlapTables httpd st.subprocessEnv tables.dirSetEnv }
  { st with perlSetEnvDir := true }

/-- `modperl_env_request_populate` -/
def requestPopulate (httpd : EnvHttpd) (st : EnvReq) : EnvReq :=
  let table := if st.setupEnv then st.subprocessEnv else httpd.addVars st.subprocessEnv
  { st with env := tablePopulate st.env table, subprocessEnv := table, setupEnv := true }

/-- `modperl_env_request_unpopulate` -/
def requestUnpopulate (st : EnvReq) : EnvReq :=
  if ¬st.setupEnv then st
  else { st with env := tableUnpopulate st.env st.subprocessEnv, setupEnv := false }

/-! ## What the two stores keep -/

/-- The last value of a key in this spelling. -/
def lastSpelled (t : AprTable) (k : Bytes) : Option Bytes := (values id t k).getLast?

/-- The last value of a key in any spelling. -/
def lastValue (t : AprTable) (k : Bytes) : Option Bytes := (values caseless t k).getLast?

variable {httpd : EnvHttpd} {tables : EnvTables} {st : EnvReq} {hv : EnvHash}
  {t u : AprTable} {k : Bytes}

theorem tablePopulate_append : tablePopulate hv (t ++ u) = tablePopulate (tablePopulate hv t) u :=
  List.foldl_append

theorem fetch_tablePopulate :
    fetch (tablePopulate hv t) k = (lastSpelled t k).or (fetch hv k) :=
  get_setAll

theorem fetch_tableUnpopulate :
    fetch (tableUnpopulate hv t) k = if Has id t k then none else fetch hv k := by
  have hvalues : values id (tableUnpopulate hv t) k = if Has id t k then [] else values id hv k :=
    values_foldl_unset_keys
  rw [fetch, Table.get, hvalues]
  split_ifs
  · rfl
  · rfl

/-- A key with this spelling is there. -/
theorem has_id_iff : Has id t k ↔ k ∈ t.map Prod.fst := by
  simp [Has]

theorem has_caseless_of_mem (h : k ∈ t.map Prod.fst) : Has caseless t k := by
  obtain ⟨e, he, rfl⟩ := List.mem_map.mp h
  exact ⟨e, he, rfl⟩

/-- A spelling is among the entries of its key. -/
theorem values_id_eq_entries : values id t k = values id (entries caseless t k) k := by
  unfold values entries
  rw [List.filter_filter]
  congr 1
  refine List.filter_congr fun e _ => ?_
  by_cases he : e.1 = k
  · simp [he]
  · simp [he]

theorem exists_lastSpelled (h : k ∈ t.map Prod.fst) : ∃ v, lastSpelled t k = some v := by
  have hne : values id t k ≠ [] := has_iff.mp (has_id_iff.mpr h)
  exact Option.ne_none_iff_exists'.mp (List.getLast?_eq_none_iff.not.mpr hne)

theorem lastValue_overlay (h : Has caseless u k) : lastValue (t ++ u) k = lastValue u k := by
  have hsplit : values caseless (t ++ u) k = values caseless t k ++ values caseless u k :=
    values_overlay
  rw [lastValue, hsplit, List.getLast?_append_of_ne_nil _ (has_iff.mp h)]
  rfl

theorem lastValue_append_of_not (h : ¬Has caseless u k) :
    lastValue (t ++ u) k = lastValue t k := by
  have hsplit : values caseless (t ++ u) k = values caseless t k ++ values caseless u k :=
    values_overlay
  rw [lastValue, hsplit, not_not.mp (has_iff.not.mp h), List.append_nil, lastValue]

theorem lastSpelled_overlay (h : k ∈ u.map Prod.fst) :
    lastSpelled (t ++ u) k = lastSpelled u k := by
  have hsplit : values id (t ++ u) k = values id t k ++ values id u k := values_overlay
  rw [lastSpelled, hsplit, List.getLast?_append_of_ne_nil _ (has_iff.mp (has_id_iff.mpr h))]
  rfl

/-! ## The configured request -/

theorem configureSrvTable_env :
    (configureSrvTable t st).env = tablePopulate st.env t := by
  unfold configureSrvTable
  cases t with
  | nil => rfl
  | cons e t => rfl

theorem configureSrvTable_subprocessEnv :
    (configureSrvTable t st).subprocessEnv = st.subprocessEnv ++ t := by
  unfold configureSrvTable
  cases t with
  | nil => exact (List.append_nil _).symm
  | cons e t => rfl

theorem configureRequestSrv_env :
    (configureRequestSrv tables st).env =
      tablePopulate st.env (tables.srvSetEnv ++ tables.srvPassEnv) := by
  rw [tablePopulate_append, ← configureSrvTable_env, ← configureSrvTable_env]
  rfl

theorem configureRequestSrv_subprocessEnv :
    (configureRequestSrv tables st).subprocessEnv =
      st.subprocessEnv ++ (tables.srvSetEnv ++ tables.srvPassEnv) := by
  rw [← List.append_assoc, ← configureSrvTable_subprocessEnv, ← configureSrvTable_subprocessEnv]
  rfl

theorem configureRequestDir_env :
    (configureRequestDir httpd tables st).env = tablePopulate st.env tables.dirSetEnv := by
  unfold configureRequestDir
  cases tables.dirSetEnv with
  | nil => rfl
  | cons e t => rfl

/-- What becomes of `r->subprocess_env`. -/
def configuredTable (httpd : EnvHttpd) (tables : EnvTables) (t : AprTable) : AprTable :=
  let table := t ++ (tables.srvSetEnv ++ tables.srvPassEnv)
  if tables.dirSetEnv.isEmpty then table else overlapTables httpd table tables.dirSetEnv

/-- The request after `modperl_env_configure_request_srv` and then
`modperl_env_configure_request_dir`. -/
def configure (httpd : EnvHttpd) (tables : EnvTables) (st : EnvReq) : EnvReq :=
  configureRequestDir httpd tables (configureRequestSrv tables st)

theorem configure_env : (configure httpd tables st).env = tablePopulate st.env tables.given := by
  rw [configure, configureRequestDir_env, configureRequestSrv_env, ← tablePopulate_append]
  rfl

theorem configure_subprocessEnv :
    (configure httpd tables st).subprocessEnv = configuredTable httpd tables st.subprocessEnv := by
  unfold configure configureRequestDir configuredTable
  rw [← configureRequestSrv_subprocessEnv]
  cases tables.dirSetEnv with
  | nil => rfl
  | cons e t => rfl

theorem configure_setupEnv : (configure httpd tables st).setupEnv = st.setupEnv := by
  unfold configure configureRequestDir configureRequestSrv configureSrvTable
  split_ifs <;> rfl

/-- The value of a key that the configured table gives: that of the directory, or what
was there first. -/
theorem get_configuredTable (hk : Has caseless tables.given k) :
    Table.get caseless (configuredTable httpd tables t) k =
      if Has caseless tables.dirSetEnv k ∨
          httpd.overlapCompresses = true ∧ tables.dirSetEnv ≠ [] then
        lastValue tables.given k
      else Table.get caseless (t ++ tables.given) k := by
  have hlast : lastValue (t ++ tables.given) k = lastValue tables.given k := lastValue_overlay hk
  have hassoc : t ++ (tables.srvSetEnv ++ tables.srvPassEnv) ++ tables.dirSetEnv =
      t ++ tables.given := List.append_assoc ..
  -- nothing of the directory: `apr_table_overlap` is not called
  by_cases hempty : tables.dirSetEnv = []
  · rw [if_neg (by simp [hempty]), configuredTable, if_pos (by simp [hempty]), ← hassoc,
      hempty, List.append_nil]
  rw [configuredTable, if_neg (by simp [hempty]), overlapTables]
  by_cases hcompress : httpd.overlapCompresses = true
  · have hvalues : values caseless (compress caseless (overlay
          (t ++ (tables.srvSetEnv ++ tables.srvPassEnv)) tables.dirSetEnv)) k =
        (lastValue (t ++ tables.given) k).toList := by
      rw [values_compress, overlay, hassoc, lastValue]
    rw [if_pos hcompress, if_pos (.inr ⟨hcompress, hempty⟩), Table.get, hvalues, hlast]
    cases lastValue tables.given k <;> rfl
  · -- the later values of a key replace the first one, and leave it where it is
    rw [if_neg hcompress, get_setAll]
    by_cases hdir : Has caseless tables.dirSetEnv k
    · have hgiven : lastValue tables.given k = lastValue tables.dirSetEnv k :=
        lastValue_overlay hdir
      have hne : values caseless tables.dirSetEnv k ≠ [] := has_iff.mp hdir
      obtain ⟨v, hv⟩ := Option.ne_none_iff_exists'.mp (List.getLast?_eq_none_iff.not.mpr hne)
      rw [if_pos (.inl hdir), hgiven, lastValue, hv]
      rfl
    · have hnil : values caseless tables.dirSetEnv k = [] := not_not.mp (has_iff.not.mp hdir)
      have hsplit : values caseless (t ++ (tables.srvSetEnv ++ tables.srvPassEnv) ++
          tables.dirSetEnv) k =
            values caseless (t ++ (tables.srvSetEnv ++ tables.srvPassEnv)) k ++ [] := by
        rw [← hnil]
        exact values_overlay
      rw [if_neg (by simp [hdir, hcompress]), hnil, ← hassoc, Table.get, Table.get, hsplit,
        List.append_nil]
      rfl

/-- A key keeps its entries, or has one entry afterwards. -/
theorem entries_configuredTable :
    entries caseless (configuredTable httpd tables t) k = entries caseless (t ++ tables.given) k ∨
      ∃ e, entries caseless (configuredTable httpd tables t) k = [e] := by
  have hassoc : t ++ (tables.srvSetEnv ++ tables.srvPassEnv) ++ tables.dirSetEnv =
      t ++ tables.given := List.append_assoc ..
  unfold configuredTable overlapTables
  split_ifs with hempty hcompress
  · left
    rw [← hassoc, List.isEmpty_iff.mp hempty, List.append_nil]
  · by_cases hk : Has caseless (t ++ tables.given) k
    · right
      rw [compress_eq_setAll, overlay, hassoc]
      exact entries_setAll_of_has hk
    · left
      rw [entries_eq_nil hk]
      refine entries_eq_nil (has_compress.not.mpr ?_)
      rwa [overlay, hassoc]
  · by_cases hdir : Has caseless tables.dirSetEnv k
    · exact .inr (entries_setAll_of_has hdir)
    · left
      have hsplit : entries caseless (t ++ (tables.srvSetEnv ++ tables.srvPassEnv) ++
          tables.dirSetEnv) k =
            entries caseless (t ++ (tables.srvSetEnv ++ tables.srvPassEnv)) k ++ [] := by
        rw [← entries_eq_nil hdir]
        exact entries_overlay
      rw [entries_setAll_of_not_has hdir, ← hassoc, hsplit, List.append_nil]

/-! ## The spelling of a key -/

theorem spelled_overlapTables :
    spelled caseless (overlapTables httpd t u) k = spelled caseless (t ++ u) k := by
  unfold overlapTables
  split_ifs with hcompress
  · rw [compress_eq_setAll, spelled_setAll]
    rfl
  · rw [spelled_setAll, overlay]

theorem spelled_append_of_has (h : Has caseless t k) :
    spelled caseless (t ++ u) k = spelled caseless t k := by
  have hsplit : entries caseless (t ++ u) k = entries caseless t k ++ entries caseless u k :=
    entries_overlay
  rw [spelled, hsplit, spelled]
  cases hentries : entries caseless t k with
  | nil =>
      rw [has_iff, values_eq_entries, hentries] at h
      exact absurd rfl h
  | cons e t => rfl

theorem spelled_configuredTable :
    spelled caseless (configuredTable httpd tables t) k =
      spelled caseless (t ++ tables.given) k := by
  have hassoc : t ++ (tables.srvSetEnv ++ tables.srvPassEnv) ++ tables.dirSetEnv =
      t ++ tables.given := List.append_assoc ..
  unfold configuredTable
  split_ifs with hempty
  · rw [← hassoc, List.isEmpty_iff.mp hempty, List.append_nil]
  · rw [spelled_overlapTables, hassoc]

/-- Of a key that is set, or if the table is compressed, one entry is left. -/
theorem entries_overlapTables (hk : Has caseless (t ++ u) k)
    (h : Has caseless u k ∨ httpd.overlapCompresses = true) :
    ∃ v, lastValue (t ++ u) k = some v ∧
      entries caseless (overlapTables httpd t u) k = [(spelled caseless (t ++ u) k, v)] := by
  unfold overlapTables
  by_cases hcompress : httpd.overlapCompresses = true
  · obtain ⟨v, hv, hentries⟩ := entries_setAll (t := []) hk
    rw [if_pos hcompress, compress_eq_setAll]
    refine ⟨v, hv, hentries.trans ?_⟩
    rw [← spelled_overlay, overlay, List.nil_append]
  · have hu := h.resolve_right hcompress
    obtain ⟨v, hv, hentries⟩ := entries_setAll (t := t) hu
    rw [if_neg hcompress]
    refine ⟨v, (lastValue_overlay hu).trans hv, hentries.trans ?_⟩
    rw [← spelled_overlay, overlay]

/-- The other keys keep theirs. -/
theorem entries_overlapTables_of_not (h : ¬(Has caseless u k ∨ httpd.overlapCompresses = true)) :
    entries caseless (overlapTables httpd t u) k = entries caseless t k := by
  obtain ⟨hu, hcompress⟩ := not_or.mp h
  rw [overlapTables, if_neg hcompress, entries_setAll_of_not_has hu]

/-- What the configured table says last of a key, if the tables of the directory and of the
server are compressed with what was there. -/
theorem lastValue_configuredTable (hcompress : httpd.overlapCompresses = true)
    (hk : Has caseless tables.given k) :
    lastValue (configuredTable httpd tables t) k = lastValue tables.given k := by
  have hassoc : t ++ (tables.srvSetEnv ++ tables.srvPassEnv) ++ tables.dirSetEnv =
      t ++ tables.given := List.append_assoc ..
  have hlast : lastValue (t ++ tables.given) k = lastValue tables.given k := lastValue_overlay hk
  unfold configuredTable
  split_ifs with hempty
  · rw [← hlast, ← hassoc, List.isEmpty_iff.mp hempty, List.append_nil]
  · have hvalues : values caseless (compress caseless (overlay
          (t ++ (tables.srvSetEnv ++ tables.srvPassEnv)) tables.dirSetEnv)) k =
        (lastValue (t ++ tables.given) k).toList := by
      rw [values_compress, overlay, hassoc, lastValue]
    rw [overlapTables, if_pos hcompress, lastValue, hvalues, hlast]
    cases lastValue tables.given k <;> rfl

/-! ## Agreement -/

/-- `%ENV` and `r->subprocess_env` say the same of every key of the tables. -/
def Agree (tables : EnvTables) (st : EnvReq) : Prop :=
  ∀ k ∈ tables.given.map Prod.fst, fetch st.env k = Table.get caseless st.subprocessEnv k

instance : Decidable (Agree tables st) := inferInstanceAs (Decidable (∀ k ∈ _, _))

/-- A function of the server leaves a key of the table its entries, or one entry. -/
def KeepsOrSets (f : AprTable → AprTable) : Prop :=
  ∀ t k, Has caseless t k →
    entries caseless (f t) k = entries caseless t k ∨ ∃ e, entries caseless (f t) k = [e]

/-- The two stores are made to keep the same value of a key of the tables: of one that the
table of the directory replaces, the last value has its spelling; otherwise the first value of
all, also of what was there before, is the last one that the tables give in its spelling. -/
def Settles (httpd : EnvHttpd) (tables : EnvTables) (t : AprTable) : Prop :=
  ∀ k ∈ tables.given.map Prod.fst,
    (if Has caseless tables.dirSetEnv k ∨
        httpd.overlapCompresses = true ∧ tables.dirSetEnv ≠ [] then
      lastValue tables.given k
    else Table.get caseless (t ++ tables.given) k) = lastSpelled tables.given k

instance : Decidable (Settles httpd tables t) := inferInstanceAs (Decidable (∀ k ∈ _, _))

/-- The value that each store is made to keep is the same one. -/
structure Settled (httpd : EnvHttpd) (tables : EnvTables) (st : EnvReq) : Prop where
  configured : Settles httpd tables st.subprocessEnv
  /-- The variables that the server adds to a fresh request leave this value to a key that
  stands there in another spelling. -/
  added : st.setupEnv = false → ∀ k ∈ tables.given.map Prod.fst,
    k ∉ (httpd.addVars (configuredTable httpd tables st.subprocessEnv)).map Prod.fst →
    Table.get caseless (httpd.addVars (configuredTable httpd tables st.subprocessEnv)) k =
      lastSpelled tables.given k

/-- The server adds its variables by `apr_table_overlap` and `apr_table_setn`. -/
def AddsVars (httpd : EnvHttpd) (vars : AprTable) : Prop :=
  ∀ t, t ≠ [] → httpd.addVars t = overlapTables httpd t vars

/-- The same, by what the server adds.  A key whose first spelling of all is another one is
left with the last value in any spelling, if the server has a variable of this name or
compresses the table. -/
structure SettledBy (httpd : EnvHttpd) (tables : EnvTables) (vars : AprTable) (st : EnvReq) :
    Prop where
  configured : Settles httpd tables st.subprocessEnv
  added : st.setupEnv = false → ∀ k ∈ tables.given.map Prod.fst,
    spelled caseless (st.subprocessEnv ++ tables.given) k ≠ k →
    Has caseless vars k ∨ httpd.overlapCompresses = true →
    lastValue (tables.given ++ vars) k = lastSpelled tables.given k

section Single

variable {e : Bytes × Bytes} (h : entries caseless t k = [e])

include h

theorem get_of_single : Table.get caseless t k = some e.2 := by
  rw [Table.get, values_eq_entries, h]
  rfl

theorem lastSpelled_of_single : lastSpelled t k = if e.1 = k then some e.2 else none := by
  rw [lastSpelled, values_id_eq_entries, h]
  by_cases he : e.1 = k
  · simp [values, he]
  · simp [values, he]

theorem mem_keys_of_single : k ∈ t.map Prod.fst ↔ e.1 = k := by
  rw [← has_id_iff, has_iff, values_id_eq_entries, h]
  by_cases he : e.1 = k
  · simp [values, he]
  · simp [values, he]

end Single

/-- A table in which the key has one entry, or as many as in a table that agrees with
`%ENV` already, is stored in `%ENV`. -/
theorem populate_agrees_iff {v : Bytes} (hlast : (lastSpelled u k).or (some v) = some v)
    (hget : Table.get caseless u k = some v)
    (h : entries caseless t k = entries caseless u k ∨ ∃ e, entries caseless t k = [e]) :
    (lastSpelled t k).or (some v) = Table.get caseless t k ↔
      (k ∉ t.map Prod.fst → Table.get caseless t k = some v) := by
  rcases h with hsame | ⟨e, he⟩
  · have hlast' : lastSpelled t k = lastSpelled u k := by
      rw [lastSpelled, values_id_eq_entries, hsame, ← values_id_eq_entries, lastSpelled]
    have hget' : Table.get caseless t k = some v := by
      rw [Table.get, values_eq_entries, hsame, ← values_eq_entries]
      exact hget
    simp only [hlast', hlast, hget', implies_true]
  · rw [lastSpelled_of_single he, get_of_single he, mem_keys_of_single he]
    by_cases hkey : e.1 = k
    · simp [hkey]
    · simp [hkey, eq_comm]

theorem fetch_configure_env (hk : k ∈ tables.given.map Prod.fst) :
    fetch (configure httpd tables st).env k = lastSpelled tables.given k := by
  obtain ⟨v, hv⟩ := exists_lastSpelled hk
  rw [configure_env, fetch_tablePopulate, hv]
  rfl

theorem agree_configure_iff :
    Agree tables (configure httpd tables st) ↔
      ∀ k ∈ tables.given.map Prod.fst,
        Table.get caseless (configuredTable httpd tables st.subprocessEnv) k =
          lastSpelled tables.given k := by
  refine forall₂_congr fun k hk => ?_
  rw [fetch_configure_env hk, configure_subprocessEnv, eq_comm]

/-- Storing the configured table changes nothing for a key on which the stores agree. -/
theorem lastSpelled_configuredTable {v : Bytes} (hk : k ∈ tables.given.map Prod.fst)
    (hv : lastSpelled tables.given k = some v)
    (hget : Table.get caseless (configuredTable httpd tables t) k = some v) :
    (lastSpelled (configuredTable httpd tables t) k).or (some v) = some v := by
  have hentries : entries caseless (configuredTable httpd tables t) k =
      entries caseless (t ++ tables.given) k ∨
        ∃ e, entries caseless (configuredTable httpd tables t) k = [e] := entries_configuredTable
  rcases hentries with hsame | ⟨e, he⟩
  · have hlast : lastSpelled (configuredTable httpd tables t) k = some v := by
      rw [lastSpelled, values_id_eq_entries, hsame, ← values_id_eq_entries, ← hv,
        ← lastSpelled_overlay hk]
      rfl
    rw [hlast]
    rfl
  · rw [get_of_single he] at hget
    rw [lastSpelled_of_single he, hget]
    split_ifs <;> rfl

/-- The two forms of the condition agree, if the server adds these variables. -/
theorem settled_iff {vars : AprTable} (hadds : AddsVars httpd vars) :
    Settled httpd tables st ↔ SettledBy httpd tables vars st := by
  have hadded : Settles httpd tables st.subprocessEnv → ∀ k ∈ tables.given.map Prod.fst,
      ((k ∉ (httpd.addVars (configuredTable httpd tables st.subprocessEnv)).map Prod.fst →
          Table.get caseless (httpd.addVars (configuredTable httpd tables st.subprocessEnv)) k =
            lastSpelled tables.given k) ↔
        (spelled caseless (st.subprocessEnv ++ tables.given) k ≠ k →
          Has caseless vars k ∨ httpd.overlapCompresses = true →
          lastValue (tables.given ++ vars) k = lastSpelled tables.given k)) := by
    intro hsettles k hk
    have hgiven := has_caseless_of_mem hk
    have hget : Table.get caseless (configuredTable httpd tables st.subprocessEnv) k =
        lastSpelled tables.given k := (get_configuredTable hgiven).trans (hsettles k hk)
    have hhas : Has caseless (configuredTable httpd tables st.subprocessEnv) k := by
      rw [has_iff]
      intro hnil
      obtain ⟨v, hv⟩ := exists_lastSpelled hk
      rw [Table.get, hnil, hv] at hget
      cases hget
    have hne : configuredTable httpd tables st.subprocessEnv ≠ [] := by
      obtain ⟨e, he, -⟩ := hhas
      exact List.ne_nil_of_mem he
    have hfirst : spelled caseless (configuredTable httpd tables st.subprocessEnv ++ vars) k =
        spelled caseless (st.subprocessEnv ++ tables.given) k := by
      rw [← spelled_configuredTable]
      exact spelled_append_of_has hhas
    rw [hadds _ hne]
    by_cases hset : Has caseless vars k ∨ httpd.overlapCompresses = true
    · -- one entry is left, with the last value
      have hlast : lastValue (configuredTable httpd tables st.subprocessEnv ++ vars) k =
          lastValue (tables.given ++ vars) k := by
        by_cases hvars : Has caseless vars k
        · exact (lastValue_overlay hvars).trans (lastValue_overlay hvars).symm
        · rw [lastValue_append_of_not hvars, lastValue_append_of_not hvars]
          exact lastValue_configuredTable (hset.resolve_left hvars) hgiven
      obtain ⟨v, hv, hentries⟩ := entries_overlapTables (has_overlay.mpr (.inl hhas)) hset
      rw [hfirst] at hentries
      rw [mem_keys_of_single hentries, get_of_single hentries, ← hv, hlast]
      exact ⟨fun h hspelled _ => h hspelled, fun h hspelled => h hspelled hset⟩
    · -- the key has the entries that it had
      refine iff_of_true (fun _ => ?_) fun _ h => absurd h hset
      rw [Table.get, values_eq_entries, entries_overlapTables_of_not hset, ← values_eq_entries]
      exact hget
  constructor
  · exact fun h => ⟨h.configured, fun hflag k hk =>
      (hadded h.configured k hk).mp (h.added hflag k hk)⟩
  · exact fun h => ⟨h.configured, fun hflag k hk =>
      (hadded h.configured k hk).mpr (h.added hflag k hk)⟩

/-- After the tables of the server and then that of the directory were applied, and still
after `modperl_env_request_populate`, every key of the tables has in `%ENV` the value
that `apr_table_get` finds in `r->subprocess_env`: exactly if the two collision rules
select the same value.  Where the server sets or overlaps its variables, this is a
condition on the tables, on them and on what was in `r->subprocess_env`. -/
theorem env_agrees_iff (httpd : EnvHttpd) (hvars : KeepsOrSets httpd.addVars)
    (tables : EnvTables) (st : EnvReq) :
    ((Agree tables (configure httpd tables st) ∧
        Agree tables (requestPopulate httpd (configure httpd tables st))) ↔
      Settled httpd tables st) ∧
    ∀ vars, AddsVars httpd vars →
      (Settled httpd tables st ↔ SettledBy httpd tables vars st) := by
  refine ⟨?_, fun vars hadds => settled_iff hadds⟩
  have hconfigured : Agree tables (configure httpd tables st) ↔
      Settles httpd tables st.subprocessEnv := by
    rw [agree_configure_iff]
    refine forall₂_congr fun k hk => ?_
    rw [get_configuredTable (has_caseless_of_mem hk)]
  -- the entries of a key of the tables once the server has added its variables
  have hadded : ∀ k ∈ tables.given.map Prod.fst, ∀ v, lastSpelled tables.given k = some v →
      Table.get caseless (configuredTable httpd tables st.subprocessEnv) k = some v →
      (fetch (requestPopulate httpd (configure httpd tables st)).env k =
          Table.get caseless (requestPopulate httpd (configure httpd tables st)).subprocessEnv k ↔
        (st.setupEnv = false →
          k ∉ (httpd.addVars (configuredTable httpd tables st.subprocessEnv)).map Prod.fst →
          Table.get caseless (httpd.addVars (configuredTable httpd tables st.subprocessEnv)) k =
            some v)) := by
    intro k hk v hv hget
    have hlast := lastSpelled_configuredTable hk hv hget
    have henv : fetch (configure httpd tables st).env k = some v := by
      rw [fetch_configure_env hk, hv]
    simp only [requestPopulate, fetch_tablePopulate, henv, configure_setupEnv,
      configure_subprocessEnv]
    cases hflag : st.setupEnv with
    | true =>
        simp only [if_pos, hlast, hget, reduceCtorEq, false_implies]
    | false =>
        have hhas : Has caseless (configuredTable httpd tables st.subprocessEnv) k := by
          rw [has_iff]
          intro hnil
          rw [Table.get, hnil] at hget
          cases hget
        have hiff := populate_agrees_iff hlast hget (hvars _ k hhas)
        simpa using hiff
  rw [hconfigured]
  constructor
  · rintro ⟨hagree, hpopulate⟩
    refine ⟨hagree, fun hflag k hk => ?_⟩
    obtain ⟨v, hv⟩ := exists_lastSpelled hk
    have hget := agree_configure_iff.mp (hconfigured.mpr hagree) k hk
    rw [hv] at hget ⊢
    exact (hadded k hk v hv hget).mp (hpopulate k hk) hflag
  · intro hsettled
    refine ⟨hsettled.configured, fun k hk => ?_⟩
    obtain ⟨v, hv⟩ := exists_lastSpelled hk
    have hget := agree_configure_iff.mp (hconfigured.mpr hsettled.configured) k hk
    rw [hv] at hget
    refine (hadded k hk v hv hget).mpr fun hflag hspelled => ?_
    rw [← hv]
    exact hsettled.added hflag k hk hspelled

/-- A server whose tables are compressed, and that adds one variable of its own. -/
def gatewayHttpd : EnvHttpd where
  overlapCompresses := true
  addVars t := compress caseless (overlay t [(ascii "GATEWAY_INTERFACE", ascii "CGI/1.1")])

theorem gatewayHttpd_keepsOrSets : KeepsOrSets gatewayHttpd.addVars := fun t _ hk => by
  have hhas : Has caseless
      (overlay t [(ascii "GATEWAY_INTERFACE", ascii "CGI/1.1")]) _ := has_overlay.mpr (.inl hk)
  exact .inr (entries_setAll_of_has hhas)

/-- A request to which nothing was done yet. -/
def freshReq (t : AprTable) : EnvReq := ⟨[], t, false, false, false⟩

/-- The variable of a directory replaces that of the server. -/
def replacedTables : EnvTables :=
  ⟨[(ascii "FOO", ascii "1")], [(ascii "PATH", ascii "/bin")], [(ascii "FOO", ascii "2")]⟩

theorem env_agrees_of_replaced :
    let st := configure gatewayHttpd replacedTables (freshReq [(ascii "UNIQUE_ID", ascii "x")])
    Agree replacedTables st ∧ Agree replacedTables (requestPopulate gatewayHttpd st) := by
  obtain ⟨hagree, hsettled⟩ := env_agrees_iff gatewayHttpd gatewayHttpd_keepsOrSets
    replacedTables (freshReq [(ascii "UNIQUE_ID", ascii "x")])
  have hadds : AddsVars gatewayHttpd [(ascii "GATEWAY_INTERFACE", ascii "CGI/1.1")] :=
    fun _ _ => rfl
  exact hagree.mpr ((hsettled _ hadds).mpr ⟨by decide +kernel, by decide +kernel⟩)

/-- `PerlSetEnv` and `PerlPassEnv` of the server are about one variable. -/
def passedTables : EnvTables :=
  ⟨[(ascii "PATH", ascii "/opt/bin")], [(ascii "PATH", ascii "/bin")], []⟩

/-- `%ENV` has the value that was passed, `r->subprocess_env` gives the one that was set. -/
theorem env_disagrees_of_passed :
    KeepsOrSets gatewayHttpd.addVars ∧
      ¬Agree passedTables (configure gatewayHttpd passedTables (freshReq [])) :=
  ⟨gatewayHttpd_keepsOrSets, by decide +kernel⟩

end Env

end ModPerl
