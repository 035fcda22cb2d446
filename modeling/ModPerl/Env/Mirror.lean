import ModPerl.Env.Populate
import ModPerl.Library.Machine
import Mathlib.Data.List.TakeWhile

/-!
# The tied `%ENV`

While `%ENV` is tied to a request, its magic passes every change on to
`r->subprocess_env`.  A store sets the key there and a delete unsets it, in any
spelling, where `%ENV` knows this spelling only.  What `local` puts in the place
of `%ENV` and what the end of its scope puts back is stored entry by entry,
without removing first what the table held of the hash that was there before.

The functions are those of `modperl_env.c`; when they are called is described
with the operations of Perl.
-/

namespace ModPerl

open Table Machine

/-- `%ENV`, `r->subprocess_env`, and what the scopes of `local` have put aside. -/
structure EnvMirror where
  env : EnvHash
  subprocessEnv : AprTable
  /-- `EnvMgObj` is the request. -/
  tied : Bool
  /-- The hashes that `%ENV` was before each `local` whose scope has not ended, the last
  one first. -/
  saved : List EnvHash
  deriving DecidableEq

/-- What a handler does to `%ENV`.  A value is the string that `SvPV` reads. -/
inductive EnvOp
  /-- `$ENV{key} = val` -/
  | store (key val : Bytes)
  /-- `delete $ENV{key}` -/
  | delete (key : Bytes)
  /-- `%ENV = ()` -/
  | clear
  /-- `local %ENV` -/
  | localize
  /-- `local %ENV = list` -/
  | localAssign (list : List (Bytes × Bytes))
  /-- The end of the scope of the last `local %ENV`. -/
  | leave
  deriving DecidableEq

namespace EnvMirror

/-! ## The magic -/

/-- `apr_table_set`, of what a C function sees of two strings. -/
def aprTableSet (t : AprTable) (key val : Bytes) : AprTable :=
  Table.set caseless t (cstr key) (cstr val)

/-- `apr_table_unset` -/
def aprTableUnset (t : AprTable) (key : Bytes) : AprTable := unset caseless t (cstr key)

/-- `modperl_env_request_tie` -/
def requestTie (s : EnvMirror) : EnvMirror := { s with tied := true }

/-- `modperl_env_request_untie` -/
def requestUntie (s : EnvMirror) : EnvMirror := { s with tied := false }

/-- `modperl_env_magic_set_all`, with `PL_localizing`.  Without a request the environment of
the process is meant, here and in the other callbacks. -/
def magicSetAll (iter : EnvHash → EnvHash) (localizing : Bool) (s : EnvMirror) : EnvMirror :=
  if s.tied && localizing then
    { s with
      subprocessEnv := (iter s.env).foldl (fun t e => aprTableSet t e.1 e.2) s.subprocessEnv }
  else s

/-- `modperl_env_magic_clear_all` -/
def magicClearAll (s : EnvMirror) : EnvMirror :=
  if s.tied then { s with subprocessEnv := [] } else s

/-- `modperl_env_magic_set` -/
def magicSet (s : EnvMirror) (key val : Bytes) : EnvMirror :=
  if s.tied then { s with subprocessEnv := aprTableSet s.subprocessEnv key val } else s

/-- `modperl_env_magic_clear` -/
def magicClear (s : EnvMirror) (key : Bytes) : EnvMirror :=
  if s.tied then { s with subprocessEnv := aprTableUnset s.subprocessEnv key } else s

/-! ## The operations -/

/-- A store into the hash, and then the magic of the element. -/
def store (s : EnvMirror) (key val : Bytes) : EnvMirror :=
  magicSet { s with env := Env.hvStore s.env key val } key val

/-- The magic of the element is called for a key that is not there, too. -/
def delete (s : EnvMirror) (key : Bytes) : EnvMirror :=
  magicClear { s with env := Env.hvDelete s.env key } key

def clear (s : EnvMirror) : EnvMirror := magicClearAll { s with env := [] }

/-- A new hash with the magic of the old one, whose `set` is then called. -/
def localize (iter : EnvHash → EnvHash) (s : EnvMirror) : EnvMirror :=
  magicSetAll iter true { s with env := [], saved := s.env :: s.saved }

/-- The assignment clears the new hash and stores the entries of the list. -/
def localAssign (iter : EnvHash → EnvHash) (s : EnvMirror) (list : List (Bytes × Bytes)) :
    EnvMirror :=
  list.foldl (fun s e => s.store e.1 e.2) (s.localize iter).clear

/-- The old hash is put back, and its `set` is called. -/
def leave (iter : EnvHash → EnvHash) (s : EnvMirror) : Option EnvMirror :=
  match s.saved with
  | [] => none
  | hv :: saved => some (magicSetAll iter true { s with env := hv, saved := saved })

/-- One operation, where `hv_iternext` returns the entries of a hash as `iter` orders them. -/
def step (iter : EnvHash → EnvHash) (s : EnvMirror) : EnvOp → Option EnvMirror
  | .store key val => some (s.store key val)
  | .delete key => some (s.delete key)
  | .clear => some s.clear
  | .localize => some (s.localize iter)
  | .localAssign list => some (s.localAssign iter list)
  | .leave => s.leave iter

/-- A request whose `%ENV` has just been tied. -/
def start (hv : EnvHash) (t : AprTable) : EnvMirror :=
  requestTie { env := hv, subprocessEnv := t, tied := false, saved := [] }

/-! ## Agreement -/

/-- The table holds exactly the keys and values of `%ENV`. -/
def Agree (s : EnvMirror) : Prop := s.subprocessEnv.Perm s.env

instance (s : EnvMirror) : Decidable s.Agree :=
  inferInstanceAs (Decidable (s.subprocessEnv.Perm s.env))

/-- `r->subprocess_env` holds the keys and values of `%ENV` after each of the operations. -/
def AgreesThroughout (iter : EnvHash → EnvHash) (s : EnvMirror) (ops : List EnvOp) : Prop :=
  ∀ n, ∀ s' ∈ run (step iter) s (ops.take n), s'.Agree

/-- The strings of a table end at their first NUL. -/
def CStrings (t : AprTable) : Prop := ∀ e ∈ t, cstr e.1 = e.1 ∧ cstr e.2 = e.2

instance (t : AprTable) : Decidable (CStrings t) := inferInstanceAs (Decidable (∀ e ∈ t, _))

/-- The hash has the key that a table takes this one for in no other spelling. -/
def Alone (hv : EnvHash) (key : Bytes) : Prop :=
  ∀ e ∈ hv, caseless e.1 = caseless (cstr key) → e.1 = key

instance (hv : EnvHash) (key : Bytes) : Decidable (Alone hv key) :=
  inferInstanceAs (Decidable (∀ e ∈ hv, _))

/-- A hash that a table can hold. -/
def Tabular (hv : EnvHash) : Prop := CStrings hv ∧ Single caseless hv

instance (hv : EnvHash) : Decidable (Tabular hv) := inferInstanceAs (Decidable (_ ∧ _))

/-- When an operation does the same to `%ENV` and to the table that agrees with it. -/
def Mirrored (s : EnvMirror) : EnvOp → Prop
  | .store key val => cstr key = key ∧ cstr val = val ∧ Alone s.env key
  | .delete key => Alone s.env key
  | .clear => True
  | .localize => s.env = []
  -- a later value of the list replaces an earlier one
  | .localAssign list => Tabular (compress id list)
  -- every key that the table has now is put back, in the spelling that the table has first
  | .leave => ∀ hv ∈ s.saved.head?, Tabular hv ∧
      (∀ e ∈ s.subprocessEnv, Has caseless hv e.1) ∧
      ∀ e ∈ hv, spelled caseless s.subprocessEnv e.1 = e.1

instance : DecidableRel Mirrored := fun _ op =>
  match op with
  | .store _ _ => inferInstanceAs (Decidable (_ ∧ _))
  | .delete _ => inferInstanceAs (Decidable (Alone _ _))
  | .clear => inferInstanceAs (Decidable True)
  | .localize => inferInstanceAs (Decidable (_ = _))
  | .localAssign _ => inferInstanceAs (Decidable (Tabular _))
  | .leave => inferInstanceAs (Decidable (∀ hv ∈ _, _))

/-! ## What the operations do while `%ENV` is tied -/

variable {iter : EnvHash → EnvHash} {s s' : EnvMirror} {t u : AprTable} {hv : EnvHash}
  {k v : Bytes}

theorem foldl_aprTableSet :
    u.foldl (fun t e => aprTableSet t e.1 e.2) t =
      setAll caseless t (u.map (Prod.map cstr cstr)) := by
  rw [setAll, List.foldl_map]
  rfl

theorem CStrings.map_cstr (h : CStrings t) : t.map (Prod.map cstr cstr) = t := by
  have hid : t.map (Prod.map cstr cstr) = t.map id :=
    List.map_congr_left fun e he => Prod.ext (h e he).1 (h e he).2
  rw [hid, List.map_id]

theorem cStrings_map_cstr : CStrings (t.map (Prod.map cstr cstr)) := by
  intro e he
  obtain ⟨e, -, rfl⟩ := List.mem_map.mp he
  exact ⟨cstr_cstr _, cstr_cstr _⟩

theorem CStrings.set (h : CStrings t) (hk : cstr k = k) (hv : cstr v = v) :
    CStrings (Table.set caseless t k v) := by
  intro e he
  obtain ⟨hkey, hval⟩ := mem_of_mem_set he
  refine ⟨?_, ?_⟩
  · rcases hkey with heq | hkey
    · rw [heq, hk]
    · obtain ⟨e', he', heq⟩ := List.mem_map.mp hkey
      rw [← heq, (h e' he').1]
  · rcases hval with heq | hval
    · rw [heq, hv]
    · obtain ⟨e', he', heq⟩ := List.mem_map.mp hval
      rw [← heq, (h e' he').2]

theorem CStrings.setAll (h : CStrings t) (hu : CStrings u) : CStrings (setAll caseless t u) := by
  induction u generalizing t with
  | nil => exact h
  | cons e u ih =>
      have he := hu e List.mem_cons_self
      exact ih (h.set he.1 he.2) fun e' he' => hu e' (List.mem_cons_of_mem e he')

theorem CStrings.perm (h : CStrings t) (hperm : t.Perm u) : CStrings u := fun e he =>
  h e (hperm.mem_iff.mpr he)

theorem foldl_store (h : s.tied = true) (list : List (Bytes × Bytes)) :
    list.foldl (fun s e => s.store e.1 e.2) s =
      { s with
        env := setAll id s.env list
        subprocessEnv := setAll caseless s.subprocessEnv (list.map (Prod.map cstr cstr)) } := by
  induction list generalizing s with
  | nil => rfl
  | cons e list ih =>
      have hstore : s.store e.1 e.2 =
          { s with
            env := Table.set id s.env e.1 e.2
            subprocessEnv := aprTableSet s.subprocessEnv e.1 e.2 } := if_pos h
      rw [List.foldl_cons, hstore]
      exact ih (s := { s with env := _, subprocessEnv := _ }) h

theorem localAssign_eq (h : s.tied = true) (list : List (Bytes × Bytes)) :
    s.localAssign iter list =
      { s with
        env := compress id list
        subprocessEnv := setAll caseless [] (list.map (Prod.map cstr cstr))
        saved := s.env :: s.saved } := by
  have hclear : (s.localize iter).clear =
      { s with env := [], subprocessEnv := [], saved := s.env :: s.saved } := by
    unfold localize magicSetAll clear magicClearAll
    simp [h]
  rw [localAssign, hclear]
  exact foldl_store
    (s := { s with env := [], subprocessEnv := [], saved := s.env :: s.saved }) h list

/-! ## Each operation under agreement -/

section

variable (htied : s.tied = true) (hc : CStrings s.subprocessEnv) (hs : s.Agree)

include htied hc hs

theorem agree_store_iff : (s.store k v).Agree ↔ Mirrored s (.store k v) := by
  have hstore : (s.store k v).Agree ↔
      (aprTableSet s.subprocessEnv k v).Perm (Table.set id s.env k v) := by
    rw [store, magicSet, if_pos htied]
    rfl
  rw [hstore]
  constructor
  · intro hperm
    have hkv : (k, v) ∈ Table.set id s.env k v := set_perm.mem_iff.mpr List.mem_cons_self
    obtain ⟨hk, hv⟩ := (hc.set (cstr_cstr k) (cstr_cstr v)).perm hperm (k, v) hkv
    refine ⟨hk, hv, fun e he hcase => ?_⟩
    by_contra hne
    have he' : e ∈ Table.set id s.env k v :=
      set_perm.mem_iff.mpr (List.mem_cons_of_mem _ (List.mem_filter.mpr ⟨he, by simpa using hne⟩))
    -- the table has one entry of the key, and `%ENV` has this one and `e`
    have hone := Table.Perm.entries caseless (cstr k) hperm
    rw [aprTableSet, entries_set_self rfl, List.singleton_perm] at hone
    have hfirst : (k, v) ∈ entries caseless (Table.set id s.env k v) (cstr k) :=
      mem_entries.mpr ⟨hkv, by rw [hk]⟩
    have hsecond : e ∈ entries caseless (Table.set id s.env k v) (cstr k) :=
      mem_entries.mpr ⟨he', hcase⟩
    rw [← hone, List.mem_singleton] at hfirst hsecond
    exact hne (by rw [hsecond, ← hfirst])
  · rintro ⟨hk, hv, halone⟩
    have hfold : aprTableSet s.subprocessEnv k v = Table.set id s.subprocessEnv k v := by
      rw [aprTableSet, hk, hv]
      refine set_fold_congr fun e he => ⟨fun hcase => ?_, fun heq => congrArg caseless heq⟩
      exact halone e (hs.mem_iff.mp he) (hk.symm ▸ hcase)
    calc aprTableSet s.subprocessEnv k v
        = Table.set id s.subprocessEnv k v := hfold
      List.Perm _ ((k, v) :: unset id s.subprocessEnv k) := set_perm
      List.Perm _ ((k, v) :: unset id s.env k) := (hs.filter _).cons _
      List.Perm _ (Table.set id s.env k v) := set_perm.symm

theorem agree_delete_iff : (s.delete k).Agree ↔ Mirrored s (.delete k) := by
  have hdelete : (s.delete k).Agree ↔
      (aprTableUnset s.subprocessEnv k).Perm (unset id s.env k) := by
    rw [delete, magicClear, if_pos htied]
    rfl
  rw [hdelete]
  constructor
  · intro hperm e he hcase
    by_contra hne
    have he' : e ∈ unset id s.env k := List.mem_filter.mpr ⟨he, by simpa using hne⟩
    have hgone := (List.mem_filter.mp (hperm.mem_iff.mpr he')).2
    exact of_decide_eq_true hgone hcase
  · intro halone
    have hfold : aprTableUnset s.subprocessEnv k = unset id s.subprocessEnv k := by
      refine unset_fold_congr fun e he => ⟨halone e (hs.mem_iff.mp he), fun heq => ?_⟩
      have hk : cstr k = k := (show e.1 = k from heq) ▸ (hc e he).1
      rw [hk]
      exact congrArg caseless heq
    rw [hfold]
    exact hs.filter _

omit hc in
theorem agree_localize_iff (hiter : ∀ hv, (iter hv).Perm hv) :
    (s.localize iter).Agree ↔ Mirrored s .localize := by
  have hnil : iter [] = [] := (hiter []).eq_nil
  have hlocalize : (s.localize iter).Agree ↔ s.subprocessEnv.Perm [] := by
    rw [localize, magicSetAll, htied]
    simp only [hnil]
    rfl
  have hs : s.subprocessEnv.Perm s.env := hs
  rw [hlocalize, List.perm_nil]
  refine ⟨fun h => ?_, fun h : s.env = [] => ?_⟩
  · rw [h] at hs
    exact List.nil_perm.mp hs
  · rw [h] at hs
    exact List.perm_nil.mp hs

omit hc hs in
theorem agree_localAssign_iff (list : List (Bytes × Bytes)) :
    (s.localAssign iter list).Agree ↔ Mirrored s (.localAssign list) := by
  rw [localAssign_eq htied]
  show (setAll caseless [] (list.map (Prod.map cstr cstr))).Perm (compress id list) ↔
    Tabular (compress id list)
  constructor
  · intro hperm
    have hc : CStrings (setAll caseless [] (list.map (Prod.map cstr cstr))) :=
      CStrings.setAll (by simp [CStrings]) cStrings_map_cstr
    refine ⟨hc.perm hperm, fun e he => ?_⟩
    have hentries := Table.Perm.entries caseless e.1 hperm
    have hself : e ∈ entries caseless (compress id list) e.1 := mem_entries.mpr ⟨he, rfl⟩
    have hhas : Has caseless (list.map (Prod.map cstr cstr)) e.1 := by
      by_contra hhas
      rw [entries_setAll_of_not_has hhas] at hentries
      rw [List.nil_perm.mp hentries] at hself
      exact List.not_mem_nil hself
    obtain ⟨x, hx⟩ := entries_setAll_of_has (t := []) hhas
    rw [hx, List.singleton_perm] at hentries
    rw [← hentries, List.mem_singleton] at hself
    rw [← hentries, hself]
  · rintro ⟨hc, hsingle⟩
    have hkeys : ∀ k ∈ list.map Prod.fst, ∃ v, (k, v) ∈ compress id list := by
      intro k hk
      obtain ⟨⟨_, v⟩, he, rfl⟩ := has_compress.mpr (Env.has_id_iff.mpr hk)
      exact ⟨v, he⟩
    have hmap : list.map (Prod.map cstr cstr) = list.map (Prod.map id cstr) := by
      refine List.map_congr_left fun e he => Prod.ext ?_ rfl
      obtain ⟨v, hv⟩ := hkeys e.1 (List.mem_map_of_mem he)
      exact (hc _ hv).1
    have hfold : setAll caseless [] (list.map (Prod.map id cstr)) =
        setAll id [] (list.map (Prod.map id cstr)) := by
      have hmem : ∀ k ∈ ([] ++ list.map (Prod.map id cstr)).map Prod.fst,
          ∃ v, (k, v) ∈ compress id list := by
        rw [List.nil_append, List.map_map]
        exact hkeys
      refine setAll_fold_congr fun k hk k' hk' =>
        ⟨fun hcase => ?_, fun heq => congrArg caseless heq⟩
      obtain ⟨v, hv⟩ := hmem k hk
      obtain ⟨v', hv'⟩ := hmem k' hk'
      have hboth : (k, v) ∈ entries caseless (compress id list) k' :=
        mem_entries.mpr ⟨hv, hcase⟩
      rw [hsingle _ hv', List.mem_singleton] at hboth
      exact congrArg Prod.fst hboth
    have hvalues : (compress id list).map (Prod.map id cstr) = compress id list := by
      have hid : (compress id list).map (Prod.map id cstr) = (compress id list).map id :=
        List.map_congr_left fun e he => Prod.ext rfl (hc e he).2
      rw [hid, List.map_id]
    rw [hmap, hfold]
    exact .of_eq ((map_setAll cstr).symm.trans hvalues)

omit hs in
theorem agree_leave_iff (hiter : ∀ hv, (iter hv).Perm hv) (hleave : s.leave iter = some s') :
    s'.Agree ↔ Mirrored s .leave := by
  unfold leave at hleave
  cases hsaved : s.saved with
  | nil => simp [hsaved] at hleave
  | cons hv saved =>
      rw [hsaved] at hleave
      have hs' : s'.Agree ↔
          (setAll caseless s.subprocessEnv ((iter hv).map (Prod.map cstr cstr))).Perm hv := by
        rw [← Option.some.inj hleave, magicSetAll]
        simp only [htied, foldl_aprTableSet]
        rfl
      have hmirrored : Mirrored s .leave ↔ Tabular hv ∧
          (∀ e ∈ s.subprocessEnv, Has caseless hv e.1) ∧
          ∀ e ∈ hv, spelled caseless s.subprocessEnv e.1 = e.1 := by
        simp [Mirrored, hsaved]
      have hmap : CStrings hv → (iter hv).map (Prod.map cstr cstr) = iter hv := fun hc' =>
        (hc'.perm (hiter hv).symm).map_cstr
      rw [hs', hmirrored]
      constructor
      · intro hperm
        have hc' : CStrings hv := (hc.setAll cStrings_map_cstr).perm hperm
        rw [hmap hc', perm_setAll_iff (hiter hv)] at hperm
        exact ⟨⟨hc', hperm.1⟩, hperm.2⟩
      · rintro ⟨⟨hc', hsingle⟩, hrest⟩
        rw [hmap hc', perm_setAll_iff (hiter hv)]
        exact ⟨hsingle, hrest⟩

end

/-! ## Runs -/

/-- What every operation preserves: `%ENV` is tied, and the table holds C strings. -/
def TiedTo (s : EnvMirror) : Prop := s.tied = true ∧ CStrings s.subprocessEnv

theorem tiedTo_magicSetAll {b : Bool} (h : s.TiedTo) : (magicSetAll iter b s).TiedTo := by
  unfold magicSetAll
  split_ifs
  · rw [foldl_aprTableSet]
    exact ⟨h.1, h.2.setAll cStrings_map_cstr⟩
  · exact h

theorem step_tiedTo (a : EnvOp) (h : s.TiedTo) (hstep : step iter s a = some s') : s'.TiedTo := by
  obtain ⟨htied, hc⟩ := h
  cases a with
  | store key val =>
      cases hstep
      rw [store, magicSet, if_pos htied]
      exact ⟨htied, hc.set (cstr_cstr key) (cstr_cstr val)⟩
  | delete key =>
      cases hstep
      rw [delete, magicClear, if_pos htied]
      exact ⟨htied, fun e he => hc e (List.mem_of_mem_filter he)⟩
  | clear =>
      cases hstep
      rw [clear, magicClearAll, if_pos htied]
      exact ⟨htied, fun e he => (by cases he)⟩
  | localize =>
      cases hstep
      exact tiedTo_magicSetAll ⟨htied, hc⟩
  | localAssign list =>
      cases hstep
      rw [localAssign_eq htied]
      exact ⟨htied, CStrings.setAll (by simp [CStrings]) cStrings_map_cstr⟩
  | leave =>
      rw [step, leave] at hstep
      cases hsaved : s.saved with
      | nil => simp [hsaved] at hstep
      | cons hv saved =>
          rw [hsaved] at hstep
          cases hstep
          exact tiedTo_magicSetAll ⟨htied, hc⟩

theorem agree_step_iff (hiter : ∀ hv, (iter hv).Perm hv) (a : EnvOp) (h : s.TiedTo)
    (hs : s.Agree) (hstep : step iter s a = some s') : s'.Agree ↔ Mirrored s a := by
  obtain ⟨htied, hc⟩ := h
  cases a with
  | store key val =>
      cases hstep
      exact agree_store_iff htied hc hs
  | delete key =>
      cases hstep
      exact agree_delete_iff htied hc hs
  | clear =>
      cases hstep
      rw [clear, magicClearAll, if_pos htied]
      exact iff_of_true (.refl _) trivial
  | localize =>
      cases hstep
      exact agree_localize_iff htied hs hiter
  | localAssign list =>
      cases hstep
      exact agree_localAssign_iff htied list
  | leave => exact agree_leave_iff htied hc hiter hstep

theorem mirrored_of_step_none (a : EnvOp) (h : step iter s a = none) : Mirrored s a := by
  cases a with
  | leave =>
      cases hsaved : s.saved with
      | nil => simp [Mirrored, hsaved]
      | cons hv saved => simp [step, leave, hsaved] at h
  | _ => cases h

end EnvMirror

end ModPerl
