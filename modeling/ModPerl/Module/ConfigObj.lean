import ModPerl.Module.SvptrTable

/-!
# Perl directive config objects

The config structs of a Perl module hold nothing but the server and the methods
of the module; the Perl object of a struct is found in a table of the
interpreter, under the address of the struct.  Structs live in pools: those of
the startup configuration in `pconf`, those of `.htaccess` and `add_config` in
the pool of a request.  When the pool goes, so does the struct, and its address
may be given to another one.  What was put in the table on behalf of a request
pool is taken out by a cleanup of this pool.

What an object was made for is recorded beside the table: `made` knows nothing
of cleanups and of the table.
-/

namespace ModPerl

open Machine

/-- `s->process->pconf` -/
def pconf : ℕ := 0

/-- `modperl_module_cfg_t`, with the pool that it is allocated in. -/
structure ModuleCfg where
  pool : ℕ
  /-- `server` is not `NULL`: the struct has met a directive of the module. -/
  server : Bool
  deriving DecidableEq

/-- `modperl_module_info_t`: the methods that the module has. -/
structure ModuleInfo where
  dirCreate : Bool
  dirMerge : Bool
  srvCreate : Bool
  srvMerge : Bool
  deriving DecidableEq

/-- What was made for a struct, on behalf of which pool. -/
structure Made where
  obj : SvPtr
  pool : ℕ
  deriving DecidableEq

/-- The structs of a module and the objects of one interpreter. -/
structure ConfigObjs where
  /-- The request pools. -/
  pools : List ℕ
  /-- The structs, by their address. -/
  cfgs : ℕ → Option ModuleCfg
  table : PtrTbl
  /-- `config_obj_cleanup_t` of the pools, the newest first. -/
  cleanups : List (ℕ × ℕ)
  /-- What was made for each struct that is there, by a creation or merge whose pool is
  there. -/
  made : ℕ → Option Made
  /-- The references that were taken for the table, and not dropped. -/
  refs : ℕ → ℕ
  /-- A reference was dropped that had not been taken. -/
  overdropped : Bool

namespace ConfigObjs

/-- No struct yet. -/
def start : ConfigObjs where
  pools := []
  cfgs := fun _ => none
  table := .new
  cleanups := []
  made := fun _ => none
  refs := fun _ => 0
  overdropped := false

/-- A pool that can be allocated from. -/
def HasPool (s : ConfigObjs) (p : ℕ) : Prop := p = pconf ∨ p ∈ s.pools

instance (s : ConfigObjs) (p : ℕ) : Decidable (s.HasPool p) :=
  inferInstanceAs (Decidable (_ ∨ _))

/-- Memory that is not in use; the null pointer is none. -/
def Free (s : ConfigObjs) (a : ℕ) : Prop := a ≠ 0 ∧ s.cfgs a = none

instance (s : ConfigObjs) (a : ℕ) : Decidable (s.Free a) := inferInstanceAs (Decidable (_ ∧ _))

/-- `SvREFCNT_inc` -/
def refcntInc (sv : SvPtr) (s : ConfigObjs) : ConfigObjs :=
  match sv with
  | none => s
  | some sv => { s with refs := Function.update s.refs sv (s.refs sv + 1) }

/-- `SvREFCNT_dec` -/
def refcntDec (sv : SvPtr) (s : ConfigObjs) : ConfigObjs :=
  match sv with
  | none => s
  | some sv =>
      if s.refs sv = 0 then { s with overdropped := true }
      else { s with refs := Function.update s.refs sv (s.refs sv - 1) }

/-- `modperl_module_cfg_new` -/
def cfgNew (p a : ℕ) (s : ConfigObjs) : ConfigObjs :=
  { s with
    cfgs := Function.update s.cfgs a (some ⟨p, false⟩)
    made := Function.update s.made a none }

/-- `modperl_module_config_obj_cleanup_register`, unless this is the startup. -/
def cleanupRegister (p a : ℕ) (s : ConfigObjs) : ConfigObjs :=
  if p = pconf then s else { s with cleanups := (p, a) :: s.cleanups }

/-- `modperl_module_config_obj_cleanup` -/
def objCleanup (s : ConfigObjs) (a : ℕ) : Option ConfigObjs :=
  (s.table.delete a).map fun (table, sv) => { s with table := table }.refcntDec sv

/-- An object for a struct is put in the table. -/
def storeObj (p a : ℕ) (obj : SvPtr) (s : ConfigObjs) : Option ConfigObjs :=
  (s.table.store a obj).map fun table =>
    { s with table := table, made := Function.update s.made a (some ⟨obj, p⟩) }

/-- `modperl_module_config_create_obj`: `ret` is what the constructor returns, unless it
dies, and `blessed` the new object where there is no constructor. -/
def createObj (method : Bool) (p a : ℕ) (cfg : ModuleCfg) (ret : Option ℕ) (blessed : ℕ)
    (s : ConfigObjs) : Option ConfigObjs :=
  (s.table.fetch a).bind fun obj =>
    if obj.isSome then some s
    else
      let s := { s with cfgs := Function.update s.cfgs a (some { cfg with server := true }) }
      match if method then ret else some blessed with
      | none => some s
      | some obj => ((s.refcntInc (some obj)).cleanupRegister p a).storeObj p a (some obj)

/-- The struct has met a directive. -/
def hasServer (s : ConfigObjs) (a : ℕ) : Bool := (s.cfgs a).any ModuleCfg.server

/-- `modperl_module_config_merge`, and what it returns: `mrg` is the address of the new
struct, `call` what the merge method returns. -/
def configMerge (method : Bool) (p : ℕ) (base : Option ℕ) (add mrg : ℕ)
    (call : ℕ → SvPtr → ℕ) (s : ConfigObjs) : Option (ConfigObjs × Option ℕ) :=
  let tmp := if base.any s.hasServer then base.getD 0 else add
  if ¬s.hasServer tmp then some (s, base)
  else
    (s.table.fetch (base.getD 0)).bind fun baseObj =>
      (s.table.fetch add).bind fun addObj =>
        match baseObj with
        | none => some (s, some add)
        | some obj =>
            if some obj = addObj then some (s, some add)
            else
              let s := { s with cfgs := Function.update s.cfgs mrg (some ⟨p, true⟩) }
              let mrgObj := if method then some (call obj addObj) else addObj
              ((s.refcntInc mrgObj).storeObj p mrg mrgObj).map fun s =>
                (s.cleanupRegister p mrg, some mrg)

/-- `apr_pool_destroy`: the cleanups of the pool, the newest first, and then its memory. -/
def poolDestroy (p : ℕ) (s : ConfigObjs) : Option ConfigObjs :=
  (((s.cleanups.filter fun c => c.1 = p).map Prod.snd).foldlM objCleanup s).map fun s =>
    { s with
      pools := s.pools.filter (· ≠ p)
      cleanups := s.cleanups.filter fun c => c.1 ≠ p
      cfgs := fun a => (s.cfgs a).filter fun cfg => cfg.pool ≠ p
      made := fun a =>
        if (s.cfgs a).any fun cfg => cfg.pool = p then none
        else (s.made a).filter fun x => x.pool ≠ p }

end ConfigObjs

/-- What happens to structs and pools. -/
inductive ConfigAction
  /-- A request, or a sub-request. -/
  | poolCreate (p : ℕ)
  /-- `modperl_module_config_dir_create` or `modperl_module_config_srv_create`. -/
  | cfgNew (p a : ℕ)
  /-- A directive, in a section that is parsed with the pool: for its own struct, or for
  that of the server. -/
  | createObj (dir : Bool) (p a : ℕ) (ret : Option ℕ) (blessed : ℕ)
  /-- `modperl_module_config_dir_merge` or `modperl_module_config_srv_merge`. -/
  | merge (dir : Bool) (p : ℕ) (base : Option ℕ) (add mrg : ℕ) (call : ℕ → SvPtr → ℕ)
  /-- The end of a request, or of a sub-request. -/
  | poolDestroy (p : ℕ)

namespace ConfigObjs

/-- A merge, where the pool and the structs are there and the memory for the new struct is
free. -/
def merge (minfo : ModuleInfo) (dir : Bool) (p : ℕ) (base : Option ℕ) (add mrg : ℕ)
    (call : ℕ → SvPtr → ℕ) (s : ConfigObjs) : Option (ConfigObjs × Option ℕ) :=
  if s.HasPool p ∧ s.Free mrg ∧ (s.cfgs add).isSome ∧ base.all fun a => (s.cfgs a).isSome then
    s.configMerge (if dir then minfo.dirMerge else minfo.srvMerge) p base add mrg call
  else none

/-- One step.  Structs of a section are allocated from the pool that it is parsed with, those
of servers from `pconf`. -/
def step (minfo : ModuleInfo) (s : ConfigObjs) : ConfigAction → Option ConfigObjs
  | .poolCreate p => if s.HasPool p then none else some { s with pools := p :: s.pools }
  | .cfgNew p a => if s.HasPool p ∧ s.Free a then some (s.cfgNew p a) else none
  | .createObj dir p a ret blessed =>
      (s.cfgs a).bind fun cfg =>
        if s.HasPool p ∧ (cfg.pool = p ∨ cfg.pool = pconf) then
          s.createObj (if dir then minfo.dirCreate else minfo.srvCreate) p a cfg ret blessed
        else none
  | .merge dir p base add mrg call => (s.merge minfo dir p base add mrg call).map Prod.fst
  | .poolDestroy p => if p ∈ s.pools then s.poolDestroy p else none

/-- What the table should say of an address. -/
def objs (s : ConfigObjs) (a : ℕ) : Option SvPtr := (s.made a).map Made.obj

/-- The table represents the map, and a reference is held for each of its values. -/
structure Backed (s : ConfigObjs) (m : ℕ → Option SvPtr) : Prop where
  layout : ∃ chains, s.table.Layout chains m
  held : ∀ sv, ∃ holders : List ℕ, holders.Nodup ∧
    (∀ a, a ∈ holders ↔ m a = some (some sv)) ∧ holders.length ≤ s.refs sv
  dropped : s.overdropped = false

/-- Everything in the table was made for a struct that is there, and will be taken out with
its pool. -/
structure Sound (s : ConfigObjs) : Prop where
  backed : s.Backed s.objs
  live : ∀ a x, s.made a = some x → ∃ cfg, s.cfgs a = some cfg ∧ cfg.server = true ∧
    (cfg.pool = x.pool ∨ cfg.pool = pconf) ∧ (x.obj = none → cfg.pool = x.pool)
  alive : ∀ a x, s.made a = some x → s.HasPool x.pool
  taken : ∀ a x, s.made a = some x → x.pool ≠ pconf → (x.pool, a) ∈ s.cleanups
  registered : ∀ p a, (p, a) ∈ s.cleanups → p ≠ pconf ∧ ∃ x, s.made a = some x ∧ x.pool = p
  cfgs : ∀ a cfg, s.cfgs a = some cfg → a ≠ 0 ∧ s.HasPool cfg.pool
  pools : pconf ∉ s.pools

theorem sound_start : start.Sound where
  backed :=
    { layout := ⟨_, PtrTbl.layout_new⟩
      held := fun _ => ⟨[], List.nodup_nil, by simp [objs, start], Nat.le_refl _⟩
      dropped := rfl }
  live := fun _ _ h => nomatch h
  alive := fun _ _ h => nomatch h
  taken := fun _ _ h => nomatch h
  registered := fun _ _ h => nomatch h
  cfgs := fun _ _ h => nomatch h
  pools := List.not_mem_nil

variable {s s' : ConfigObjs} {m : ℕ → Option SvPtr} {a p : ℕ}

/-! ## References -/

namespace Backed

variable (h : s.Backed m)

include h

theorem fetch_eq : s.table.fetch a = some (m a).join := by
  obtain ⟨chains, hlayout⟩ := h.layout
  exact hlayout.fetch_eq

/-- A reference is taken, and then the object is stored for an address that had none. -/
theorem store (obj : SvPtr) (hnull : (m a).join = none) :
    ∃ table, s.table.store a obj = some table ∧
      Backed { s.refcntInc obj with table := table } (Function.update m a (some obj)) := by
  obtain ⟨chains, hlayout⟩ := h.layout
  obtain ⟨table, chains', hstore, hlayout'⟩ := hlayout.store (k := a) (v := obj)
  have hno : ∀ sv, m a ≠ some (some sv) := by
    intro sv heq
    rw [heq] at hnull
    cases hnull
  refine ⟨table, hstore, ⟨chains', hlayout'⟩, fun sv => ?_, ?_⟩
  · obtain ⟨holders, hnodup, hmem, hle⟩ := h.held sv
    have ha : a ∉ holders := fun hmem' => hno sv ((hmem a).mp hmem')
    have hother : ∀ b, b ≠ a →
        (Function.update m a (some obj) b = some (some sv) ↔ b ∈ holders) := by
      intro b hb
      rw [Function.update_of_ne hb, hmem]
    -- the address is a new holder of its object, and of no other one
    by_cases hobj : obj = some sv
    · subst hobj
      refine ⟨a :: holders, List.nodup_cons.mpr ⟨ha, hnodup⟩, fun b => ?_, ?_⟩
      · by_cases hb : b = a
        · simp [hb]
        · rw [List.mem_cons, hother b hb, or_iff_right hb]
      · simp only [refcntInc, Function.update_self, List.length_cons]
        exact Nat.succ_le_succ hle
    · refine ⟨holders, hnodup, fun b => ?_, ?_⟩
      · by_cases hb : b = a
        · subst hb
          rw [Function.update_self]
          exact ⟨fun hmem' => absurd hmem' ha, fun heq => absurd (Option.some.inj heq) hobj⟩
        · rw [hother b hb]
      · cases obj with
        | none => exact hle
        | some sv' =>
            have hne : sv ≠ sv' := fun heq => hobj (heq ▸ rfl)
            simp only [refcntInc, Function.update_of_ne hne]
            exact hle
  · cases obj <;> exact h.dropped

/-- A cleanup takes out what there is for its address, and drops the one reference on it. -/
theorem objCleanup : ∃ s', s.objCleanup a = some s' ∧ s'.Backed (Function.update m a none) ∧
    s'.cfgs = s.cfgs ∧ s'.made = s.made ∧ s'.cleanups = s.cleanups ∧ s'.pools = s.pools := by
  obtain ⟨chains, hlayout⟩ := h.layout
  obtain ⟨table, chains', hdelete, hlayout'⟩ := hlayout.delete (k := a)
  have hres : s.objCleanup a = some (refcntDec (m a).join { s with table := table }) := by
    rw [ConfigObjs.objCleanup, hdelete]
    rfl
  refine ⟨_, hres, ?_⟩
  cases hobj : (m a).join with
  | none =>
      -- an entry without a value gives up no reference
      have hno : ∀ sv, m a ≠ some (some sv) := by
        intro sv heq
        rw [heq] at hobj
        cases hobj
      refine ⟨⟨⟨chains', hlayout'⟩, fun sv => ?_, h.dropped⟩, rfl, rfl, rfl, rfl⟩
      obtain ⟨holders, hnodup, hmem, hle⟩ := h.held sv
      refine ⟨holders, hnodup, fun b => ?_, hle⟩
      by_cases hb : b = a
      · subst hb
        rw [Function.update_self, hmem]
        exact ⟨fun heq => absurd heq (hno sv), fun heq => nomatch heq⟩
      · rw [Function.update_of_ne hb, hmem]
  | some obj =>
      have hma : m a = some (some obj) := Option.join_eq_some_iff.mp hobj
      obtain ⟨holders, hnodup, hmem, hle⟩ := h.held obj
      have ha : a ∈ holders := (hmem a).mpr hma
      -- the reference that is dropped is the one that was taken for the entry
      have hpos : 0 < s.refs obj := lt_of_lt_of_le (List.length_pos_of_mem ha) hle
      have hdec : refcntDec (some obj) { s with table := table } =
          { s with table := table, refs := Function.update s.refs obj (s.refs obj - 1) } :=
        if_neg hpos.ne'
      rw [hdec]
      refine ⟨⟨⟨chains', hlayout'⟩, fun sv => ?_, h.dropped⟩, rfl, rfl, rfl, rfl⟩
      by_cases hsv : sv = obj
      · subst hsv
        refine ⟨holders.erase a, hnodup.erase a, fun b => ?_, ?_⟩
        · by_cases hb : b = a
          · subst hb
            simp [hnodup.not_mem_erase]
          · rw [List.mem_erase_of_ne hb, hmem, Function.update_of_ne hb]
        · simp only [Function.update_self, List.length_erase_of_mem ha]
          exact Nat.sub_le_sub_right hle 1
      · obtain ⟨holders', hnodup', hmem', hle'⟩ := h.held sv
        refine ⟨holders', hnodup', fun b => ?_, ?_⟩
        · by_cases hb : b = a
          · subst hb
            rw [Function.update_self, hmem', hma]
            refine ⟨fun heq => absurd ?_ hsv, fun heq => nomatch heq⟩
            exact (Option.some.inj (Option.some.inj heq)).symm
          · rw [Function.update_of_ne hb, hmem']
        · simp only [Function.update_of_ne hsv]
          exact hle'

/-- All cleanups of a pool. -/
theorem foldlM_objCleanup (ptrs : List ℕ) : ∃ s', ptrs.foldlM ConfigObjs.objCleanup s = some s' ∧
    s'.Backed (fun a => if a ∈ ptrs then none else m a) ∧
    s'.cfgs = s.cfgs ∧ s'.made = s.made ∧ s'.cleanups = s.cleanups ∧ s'.pools = s.pools := by
  induction ptrs generalizing s m with
  | nil => exact ⟨s, rfl, by simpa using h, rfl, rfl, rfl, rfl⟩
  | cons a ptrs ih =>
      obtain ⟨s₁, hcleanup, hbacked, hcfgs, hmade, hcleanups, hpools⟩ := h.objCleanup (a := a)
      obtain ⟨s', hrun, hbacked', hcfgs', hmade', hcleanups', hpools'⟩ := ih hbacked
      refine ⟨s', ?_, ?_, hcfgs'.trans hcfgs, hmade'.trans hmade, hcleanups'.trans hcleanups,
        hpools'.trans hpools⟩
      · rw [List.foldlM_cons, hcleanup]
        exact hrun
      · convert hbacked' using 2 with b
        by_cases hb : b = a
        · simp [hb]
        · simp [hb]

end Backed

/-! ## Steps -/

section Fields

variable {sv : SvPtr}

@[simp] theorem refcntInc_table : (s.refcntInc sv).table = s.table := by cases sv <;> rfl

@[simp] theorem refcntInc_cfgs : (s.refcntInc sv).cfgs = s.cfgs := by cases sv <;> rfl

@[simp] theorem refcntInc_made : (s.refcntInc sv).made = s.made := by cases sv <;> rfl

@[simp] theorem refcntInc_cleanups : (s.refcntInc sv).cleanups = s.cleanups := by
  cases sv <;> rfl

@[simp] theorem refcntInc_pools : (s.refcntInc sv).pools = s.pools := by cases sv <;> rfl

/-- A cleanup is registered, and nothing else happens. -/
theorem cleanupRegister_eq :
    s.cleanupRegister p a =
      { s with cleanups := if p = pconf then s.cleanups else (p, a) :: s.cleanups } := by
  unfold cleanupRegister
  split_ifs <;> rfl

end Fields

theorem objs_eq_some_iff {o : SvPtr} :
    s.objs a = some o ↔ ∃ x, s.made a = some x ∧ x.obj = o := Option.map_eq_some_iff

/-- Where no struct is, nothing was made. -/
theorem Sound.made_of_free (h : s.Sound) (hfree : s.cfgs a = none) : s.made a = none := by
  cases hmade : s.made a with
  | none => rfl
  | some x =>
      obtain ⟨cfg, hcfg, -⟩ := h.live a x hmade
      rw [hfree] at hcfg
      cases hcfg

/-- A struct is written, in a way that suits what was made for it. -/
theorem Sound.setCfg (h : s.Sound) (cfg : ModuleCfg) (ha : a ≠ 0) (hp : s.HasPool cfg.pool)
    (hlive : ∀ x, s.made a = some x → cfg.server = true ∧
      (cfg.pool = x.pool ∨ cfg.pool = pconf) ∧ (x.obj = none → cfg.pool = x.pool)) :
    Sound { s with cfgs := Function.update s.cfgs a (some cfg) } := by
  refine ⟨⟨h.backed.layout, h.backed.held, h.backed.dropped⟩, ?_, h.alive, h.taken, h.registered,
    ?_, h.pools⟩
  · intro b x hb
    by_cases hba : b = a
    · subst hba
      exact ⟨cfg, Function.update_self .., hlive x hb⟩
    · obtain ⟨cfg', hcfg', hrest⟩ := h.live b x hb
      exact ⟨cfg', (Function.update_of_ne hba ..).trans hcfg', hrest⟩
  · intro b cfg' hb
    have hb' : Function.update s.cfgs a (some cfg) b = some cfg' := hb
    by_cases hba : b = a
    · subst hba
      rw [Function.update_self] at hb'
      exact ⟨ha, Option.some.inj hb' ▸ hp⟩
    · rw [Function.update_of_ne hba] at hb'
      exact h.cfgs b cfg' hb'

/-- Memory that is free gets a struct. -/
theorem Sound.addCfg (h : s.Sound) (cfg : ModuleCfg) (hfree : s.Free a)
    (hp : s.HasPool cfg.pool) :
    Sound { s with cfgs := Function.update s.cfgs a (some cfg) } := by
  refine h.setCfg cfg hfree.1 hp fun x hx => ?_
  rw [h.made_of_free hfree.2] at hx
  cases hx

/-- A new struct. -/
theorem Sound.cfgNew (h : s.Sound) (hp : s.HasPool p) (hfree : s.Free a) :
    (s.cfgNew p a).Sound := by
  have hmade : Function.update s.made a none = s.made :=
    Function.update_eq_self_iff.mpr (h.made_of_free hfree.2).symm
  rw [ConfigObjs.cfgNew, hmade]
  exact h.addCfg ⟨p, false⟩ hfree hp

/-- An object is made for a struct that has none. -/
theorem Sound.put (h : s.Sound) (obj : SvPtr) {cfg : ModuleCfg} (hcfg : s.cfgs a = some cfg)
    (hserver : cfg.server = true) (hp : s.HasPool p)
    (hpool : cfg.pool = p ∨ cfg.pool = pconf ∧ obj ≠ none) (hnull : (s.objs a).join = none) :
    ∃ s', ((s.refcntInc obj).cleanupRegister p a).storeObj p a obj = some s' ∧ s'.Sound ∧
      s'.cfgs = s.cfgs ∧ s'.pools = s.pools ∧
      s'.made = Function.update s.made a (some ⟨obj, p⟩) := by
  obtain ⟨table, hstore, hbacked⟩ := h.backed.store obj hnull
  -- an entry that is there holds `NULL`, and belongs to the same pool
  have hold : ∀ x, s.made a = some x → cfg.pool = x.pool := by
    intro x hx
    obtain ⟨cfg', hcfg', -, -, hpool'⟩ := h.live a x hx
    have hobj : x.obj = none := by
      rw [objs, hx] at hnull
      exact hnull
    obtain rfl := Option.some.inj (hcfg.symm.trans hcfg')
    exact hpool' hobj
  let s' : ConfigObjs :=
    { s.refcntInc obj with
      table := table
      cleanups := if p = pconf then s.cleanups else (p, a) :: s.cleanups
      made := Function.update s.made a (some ⟨obj, p⟩) }
  have hcfgs : s'.cfgs = s.cfgs := refcntInc_cfgs
  have hpools : s'.pools = s.pools := refcntInc_pools
  have hself : s'.made a = some ⟨obj, p⟩ := Function.update_self ..
  have hother : ∀ b, b ≠ a → s'.made b = s.made b := fun b hb => Function.update_of_ne hb ..
  have hregistered : ∀ q b, (q, b) ∈ s'.cleanups ↔
      p ≠ pconf ∧ q = p ∧ b = a ∨ (q, b) ∈ s.cleanups := by
    intro q b
    show (q, b) ∈ (if p = pconf then s.cleanups else (p, a) :: s.cleanups) ↔ _
    by_cases hstartup : p = pconf
    · simp [hstartup]
    · simp [hstartup, Prod.ext_iff]
  refine ⟨s', ?_, ?_, hcfgs, hpools, rfl⟩
  · rw [cleanupRegister_eq, storeObj]
    simp only [refcntInc_table, hstore, refcntInc_cleanups, refcntInc_made]
    rfl
  have hhas : ∀ q, s'.HasPool q ↔ s.HasPool q := fun q => by rw [HasPool, HasPool, hpools]
  refine ⟨?backed, ?live, ?alive, ?taken, ?registered, ?cfgs, hpools ▸ h.pools⟩
  case backed =>
    have hobjs : s'.objs = Function.update s.objs a (some obj) := by
      funext b
      by_cases hb : b = a
      · rw [hb, objs, hself, Function.update_self]
        rfl
      · rw [objs, hother b hb, Function.update_of_ne hb, objs]
    rw [hobjs]
    exact ⟨hbacked.layout, hbacked.held, hbacked.dropped⟩
  case live =>
    intro b x hb
    rw [hcfgs]
    by_cases hba : b = a
    · subst hba
      obtain rfl := Option.some.inj (hself.symm.trans hb)
      refine ⟨cfg, hcfg, hserver, hpool.imp_right And.left, fun hobj => ?_⟩
      exact hpool.resolve_right fun hsrv => hsrv.2 hobj
    · rw [hother b hba] at hb
      exact h.live b x hb
  case alive =>
    intro b x hb
    rw [hhas]
    by_cases hba : b = a
    · subst hba
      obtain rfl := Option.some.inj (hself.symm.trans hb)
      exact hp
    · rw [hother b hba] at hb
      exact h.alive b x hb
  case taken =>
    intro b x hb hstartup
    rw [hregistered]
    by_cases hba : b = a
    · subst hba
      obtain rfl := Option.some.inj (hself.symm.trans hb)
      exact .inl ⟨hstartup, rfl, rfl⟩
    · rw [hother b hba] at hb
      exact .inr (h.taken b x hb hstartup)
  case registered =>
    intro q b hqb
    rcases (hregistered q b).mp hqb with ⟨hstartup, rfl, rfl⟩ | hqb
    · exact ⟨hstartup, _, hself, rfl⟩
    · obtain ⟨hq, x, hx, hxq⟩ := h.registered q b hqb
      by_cases hba : b = a
      · subst hba
        have hcfgq : cfg.pool = q := (hold x hx).trans hxq
        refine ⟨hq, _, hself, ?_⟩
        rcases hpool with hpool | ⟨hsrv, -⟩
        · exact hpool.symm.trans hcfgq
        · exact absurd (hcfgq.symm.trans hsrv) hq
      · exact ⟨hq, x, (hother b hba).trans hx, hxq⟩
  case cfgs =>
    intro b cfg' hb
    rw [hcfgs] at hb
    exact (h.cfgs b cfg' hb).imp_right (hhas _).mpr

theorem Sound.fetch_eq (h : s.Sound) : s.table.fetch a = some (s.objs a).join :=
  h.backed.fetch_eq

/-- A creation makes an object, or finds one, or dies. -/
theorem Sound.createObj (h : s.Sound) {cfg : ModuleCfg} {method : Bool} {ret : Option ℕ}
    {blessed : ℕ} (hcfg : s.cfgs a = some cfg) (hp : s.HasPool p)
    (hpool : cfg.pool = p ∨ cfg.pool = pconf) :
    ∃ s', s.createObj method p a cfg ret blessed = some s' ∧ s'.Sound := by
  rw [ConfigObjs.createObj, h.fetch_eq, Option.bind_some]
  by_cases hobj : (s.objs a).join.isSome
  · exact ⟨s, if_pos hobj, h⟩
  rw [if_neg hobj]
  have hnull : (s.objs a).join = none := by simpa using hobj
  obtain ⟨hnz, hhas⟩ := h.cfgs a cfg hcfg
  have hserver := h.setCfg { cfg with server := true } hnz hhas fun x hx => by
    obtain ⟨cfg', hcfg', -, hrest⟩ := h.live a x hx
    obtain rfl := Option.some.inj (hcfg.symm.trans hcfg')
    exact ⟨rfl, hrest⟩
  cases hret : (if method then ret else some blessed) with
  | none => exact ⟨_, rfl, hserver⟩
  | some obj =>
      obtain ⟨s', hput, hsound, -⟩ := hserver.put (some obj) (p := p)
        (Function.update_self ..) rfl hp (hpool.imp_right fun hsrv => ⟨hsrv, by simp⟩) hnull
      exact ⟨s', hput, hsound⟩

/-- The cleanup may as well be registered before the object is stored. -/
theorem storeObj_cleanupRegister {obj : SvPtr} :
    (s.storeObj p a obj).map (cleanupRegister p a) = (s.cleanupRegister p a).storeObj p a obj := by
  rw [cleanupRegister_eq, storeObj, storeObj, Option.map_map]
  congr 1
  funext table
  exact cleanupRegister_eq

/-- The object of a merge. -/
theorem Sound.putMerged (h : s.Sound) (obj : SvPtr) (hp : s.HasPool p) (hfree : s.Free a) :
    ∃ s', (({ s with cfgs := Function.update s.cfgs a (some ⟨p, true⟩) } : ConfigObjs).refcntInc
        obj).storeObj p a obj = some s' ∧ (s'.cleanupRegister p a).Sound ∧
      s'.cfgs = Function.update s.cfgs a (some ⟨p, true⟩) ∧ s'.pools = s.pools ∧
      s'.made = Function.update s.made a (some ⟨obj, p⟩) := by
  have hadd := h.addCfg ⟨p, true⟩ hfree hp
  have hnull : (s.objs a).join = none := by
    rw [objs, h.made_of_free hfree.2]
    rfl
  obtain ⟨s', hput, hsound, hcfgs, hpools, hmade⟩ :=
    hadd.put obj (Function.update_self ..) rfl hp (.inl rfl) hnull
  rw [← storeObj_cleanupRegister, Option.map_eq_some_iff] at hput
  obtain ⟨s₁, hstore, rfl⟩ := hput
  rw [cleanupRegister_eq] at hcfgs hpools hmade
  exact ⟨s₁, hstore, hsound, hcfgs, hpools, hmade⟩

/-- What a merge makes of two objects. -/
def mergedObj (method : Bool) (call : ℕ → SvPtr → ℕ) (obj : ℕ) (add : SvPtr) : SvPtr :=
  if method then some (call obj add) else add

/-- A merge returns one of its structs and changes nothing, or makes a new one with the merged
object. -/
theorem Sound.configMerge (h : s.Sound) (method : Bool) (base : Option ℕ) (add : ℕ)
    (call : ℕ → SvPtr → ℕ) {mrg : ℕ} (hp : s.HasPool p) (hfree : s.Free mrg) :
    ∃ s' ret, s.configMerge method p base add mrg call = some (s', ret) ∧ s'.Sound ∧
      (s' = s ∧ ret = base ∧ (∀ b, base = some b → ¬s.hasServer b) ∨
        s' = s ∧ ret = some add ∧ ((s.objs (base.getD 0)).join = none ∨
          (s.objs (base.getD 0)).join = (s.objs add).join) ∨
        ∃ obj, (s.objs (base.getD 0)).join = some obj ∧ some obj ≠ (s.objs add).join ∧
          ret = some mrg ∧ s'.pools = s.pools ∧
          s'.cfgs = Function.update s.cfgs mrg (some ⟨p, true⟩) ∧
          s'.objs = Function.update s.objs mrg
            (some (mergedObj method call obj (s.objs add).join))) := by
  unfold ConfigObjs.configMerge
  by_cases hserver : ¬s.hasServer (if base.any s.hasServer then base.getD 0 else add)
  · refine ⟨s, base, if_pos hserver, h, .inl ⟨rfl, rfl, ?_⟩⟩
    rintro b rfl hb
    simp [hb] at hserver
  simp only [if_neg hserver, h.fetch_eq, Option.bind_some]
  cases hbase : (s.objs (base.getD 0)).join with
  | none => exact ⟨s, some add, rfl, h, .inr (.inl ⟨rfl, rfl, .inl rfl⟩)⟩
  | some obj =>
      by_cases hsame : some obj = (s.objs add).join
      · exact ⟨s, some add, if_pos hsame, h, .inr (.inl ⟨rfl, rfl, .inr hsame⟩)⟩
      -- the two objects differ: a new struct gets the merged one
      obtain ⟨s', hstore, hsound, hcfgs, hpools, hmade⟩ :=
        h.putMerged (mergedObj method call obj (s.objs add).join) hp hfree
      refine ⟨s'.cleanupRegister p mrg, some mrg, ?_, hsound,
        .inr (.inr ⟨obj, rfl, hsame, rfl, ?_, ?_, ?_⟩)⟩
      · refine (if_neg hsame).trans ?_
        unfold mergedObj at hstore
        rw [hstore]
        rfl
      · rw [cleanupRegister_eq]
        exact hpools
      · rw [cleanupRegister_eq]
        exact hcfgs
      · funext b
        rw [cleanupRegister_eq, objs, hmade]
        by_cases hb : b = mrg
        · rw [hb, Function.update_self, Function.update_self]
          rfl
        · rw [Function.update_of_ne hb, Function.update_of_ne hb, objs]

/-- What was made for structs of the pool, or on behalf of it, is what its cleanups are
about. -/
theorem Sound.objs_poolDestroy (h : s.Sound) (hp : p ∈ s.pools) :
    (fun a => ((if (s.cfgs a).any fun cfg => cfg.pool = p then none
        else (s.made a).filter fun x => x.pool ≠ p).map Made.obj)) =
      fun a => if a ∈ (s.cleanups.filter fun c => c.1 = p).map Prod.snd then none
        else s.objs a := by
  have hpconf : p ≠ pconf := fun heq => h.pools (heq ▸ hp)
  funext a
  have hmem : a ∈ (s.cleanups.filter fun c => c.1 = p).map Prod.snd ↔ (p, a) ∈ s.cleanups := by
    simp
  simp only [hmem]
  by_cases hcleanup : (p, a) ∈ s.cleanups
  · obtain ⟨-, x, hx, hxp⟩ := h.registered p a hcleanup
    rw [if_pos hcleanup, hx]
    split_ifs
    · rfl
    · simp [hxp]
  · rw [if_neg hcleanup, objs]
    cases hmade : s.made a with
    | none => split_ifs <;> rfl
    | some x =>
        obtain ⟨cfg, hcfg, -, hpool, -⟩ := h.live a x hmade
        have hxp : x.pool ≠ p := fun heq =>
          hcleanup (heq ▸ h.taken a x hmade (heq ▸ hpconf))
        have hcfgp : cfg.pool ≠ p := by
          rcases hpool with hpool | hpool
          · exact hpool ▸ hxp
          · exact hpool ▸ hpconf.symm
        rw [hcfg]
        simp [hcfgp, hxp]

/-- The cleanups of a pool leave nothing behind that was made for its structs. -/
theorem Sound.poolDestroy (h : s.Sound) (hp : p ∈ s.pools) :
    ∃ s', s.poolDestroy p = some s' ∧ s'.Sound := by
  have hpconf : p ≠ pconf := fun heq => h.pools (heq ▸ hp)
  obtain ⟨s₁, hrun, hbacked, hcfgs, hmade, hcleanups, hpools⟩ :=
    h.backed.foldlM_objCleanup ((s.cleanups.filter fun c => c.1 = p).map Prod.snd)
  have hres : s.poolDestroy p = some
      { s₁ with
        pools := s.pools.filter (· ≠ p)
        cleanups := s.cleanups.filter fun c => c.1 ≠ p
        cfgs := fun a => (s.cfgs a).filter fun cfg => cfg.pool ≠ p
        made := fun a =>
          if (s.cfgs a).any fun cfg => cfg.pool = p then none
          else (s.made a).filter fun x => x.pool ≠ p } := by
    rw [ConfigObjs.poolDestroy, hrun, Option.map_some, hcfgs, hmade, hcleanups, hpools]
  rw [← h.objs_poolDestroy hp] at hbacked
  -- what is left was made in another pool, for a struct of another pool
  have hmade_iff : ∀ a x, (if (s.cfgs a).any fun cfg => cfg.pool = p then none
      else (s.made a).filter fun x => x.pool ≠ p) = some x →
      s.made a = some x ∧ x.pool ≠ p ∧ ¬(s.cfgs a).any (fun cfg => cfg.pool = p) := by
    intro a x hx
    split_ifs at hx with hany
    obtain ⟨hx, hxp⟩ := Option.filter_eq_some_iff.mp hx
    exact ⟨hx, of_decide_eq_true hxp, hany⟩
  have hhas : ∀ q, q ≠ p → s.HasPool q → q = pconf ∨ q ∈ s.pools.filter (· ≠ p) := by
    intro q hq hhas
    exact hhas.imp_right fun hmem => List.mem_filter.mpr ⟨hmem, decide_eq_true hq⟩
  refine ⟨_, hres, ⟨hbacked.layout, hbacked.held, hbacked.dropped⟩, ?live, ?alive, ?taken,
    ?registered, ?cfgs, ?pools⟩
  case live =>
    intro a x hx
    obtain ⟨hx, -, hany⟩ := hmade_iff a x hx
    obtain ⟨cfg, hcfg, hrest⟩ := h.live a x hx
    have hcfgp : cfg.pool ≠ p := by
      rw [hcfg] at hany
      simpa using hany
    exact ⟨cfg, Option.filter_eq_some_iff.mpr ⟨hcfg, decide_eq_true hcfgp⟩, hrest⟩
  case alive =>
    intro a x hx
    obtain ⟨hx, hxp, -⟩ := hmade_iff a x hx
    exact hhas x.pool hxp (h.alive a x hx)
  case taken =>
    intro a x hx hstartup
    obtain ⟨hx, hxp, -⟩ := hmade_iff a x hx
    exact List.mem_filter.mpr ⟨h.taken a x hx hstartup, decide_eq_true hxp⟩
  case registered =>
    intro q a hqa
    obtain ⟨hqa, hqp⟩ := List.mem_filter.mp hqa
    obtain ⟨hq, x, hx, rfl⟩ := h.registered q a hqa
    have hxp : x.pool ≠ p := of_decide_eq_true hqp
    refine ⟨hq, x, ?_, rfl⟩
    obtain ⟨cfg, hcfg, -, hpool, -⟩ := h.live a x hx
    have hcfgp : cfg.pool ≠ p := by
      rcases hpool with hpool | hpool
      · exact hpool ▸ hxp
      · exact hpool ▸ hpconf.symm
    simp [hcfg, hcfgp, hx, hxp]
  case cfgs =>
    intro a cfg hcfg
    obtain ⟨hcfg, hcfgp⟩ := Option.filter_eq_some_iff.mp hcfg
    obtain ⟨hnz, hcfghas⟩ := h.cfgs a cfg hcfg
    exact ⟨hnz, hhas cfg.pool (of_decide_eq_true hcfgp) hcfghas⟩
  case pools =>
    intro hmem
    exact h.pools (List.mem_of_mem_filter hmem)

/-! ## Runs -/

section Runs

variable {minfo : ModuleInfo}

theorem merge_eq_some_iff {dir : Bool} {base : Option ℕ} {add mrg : ℕ}
    {call : ℕ → SvPtr → ℕ} {r : ConfigObjs × Option ℕ} :
    s.merge minfo dir p base add mrg call = some r ↔
      (s.HasPool p ∧ s.Free mrg ∧ (s.cfgs add).isSome ∧ base.all fun a => (s.cfgs a).isSome) ∧
        s.configMerge (if dir then minfo.dirMerge else minfo.srvMerge) p base add mrg call =
          some r :=
  Option.ite_none_right_eq_some

theorem Sound.step (h : s.Sound) {act : ConfigAction} (hs : s.step minfo act = some s') :
    s'.Sound := by
  cases act with
  | poolCreate p =>
      simp only [ConfigObjs.step] at hs
      split_ifs at hs with hhas
      obtain rfl := Option.some.inj hs
      have hmono : ∀ q, s.HasPool q → q = pconf ∨ q ∈ p :: s.pools := fun q hq =>
        hq.imp_right (List.mem_cons_of_mem p)
      refine ⟨⟨h.backed.layout, h.backed.held, h.backed.dropped⟩, h.live, ?_, h.taken,
        h.registered, ?_, ?_⟩
      · intro a x hx
        exact hmono _ (h.alive a x hx)
      · intro a cfg hcfg
        exact (h.cfgs a cfg hcfg).imp_right (hmono _)
      · intro hmem
        rcases List.mem_cons.mp hmem with heq | hmem
        · exact hhas (.inl heq.symm)
        · exact h.pools hmem
  | cfgNew p a =>
      simp only [ConfigObjs.step] at hs
      split_ifs at hs with hguard
      obtain rfl := Option.some.inj hs
      exact h.cfgNew hguard.1 hguard.2
  | createObj dir p a ret blessed =>
      obtain ⟨cfg, hcfg, hs⟩ := Option.bind_eq_some_iff.mp hs
      obtain ⟨⟨hp, hpool⟩, hs⟩ := Option.ite_none_right_eq_some.mp hs
      obtain ⟨s₁, hres, hsound⟩ := h.createObj hcfg hp hpool
      rw [hres] at hs
      exact Option.some.inj hs ▸ hsound
  | merge dir p base add mrg call =>
      obtain ⟨r, hmerge, rfl⟩ := Option.map_eq_some_iff.mp hs
      obtain ⟨⟨hp, hfree, -⟩, hmerge⟩ := merge_eq_some_iff.mp hmerge
      obtain ⟨s₁, ret, hres, hsound, -⟩ := h.configMerge _ base add call hp hfree
      rw [hres] at hmerge
      exact Option.some.inj hmerge ▸ hsound
  | poolDestroy p =>
      simp only [ConfigObjs.step] at hs
      split_ifs at hs with hp
      obtain ⟨s₁, hres, hsound⟩ := h.poolDestroy hp
      rw [hres] at hs
      exact Option.some.inj hs ▸ hsound

theorem sound_of_reachable (h : Reachable (step minfo) Always start s) : s.Sound :=
  h.invariant sound_start fun _ _ _ _ hsound _ hs => hsound.step hs

end Runs

/-! ## Chains of sections -/

/-- A section of a chain: its struct, the object there, memory for the merged struct, and what
the merge method returns. -/
structure ChainSection where
  add : ℕ
  obj : ℕ
  mrg : ℕ
  call : ℕ → SvPtr → ℕ

/-- The sections are merged one after the other, as the server does for a request. -/
def mergeChain (minfo : ModuleInfo) (dir : Bool) (p : ℕ) (sections : List ChainSection)
    (s : ConfigObjs) (base : ℕ) : Option (ConfigObjs × Option ℕ) :=
  sections.foldlM (fun r x => r.1.merge minfo dir p r.2 x.add x.mrg x.call) (s, some base)

/-- The left fold of the merge method over the objects, where an object that is merged with
itself is kept; the last object, where there is no method. -/
def mergedObjs (method : Bool) (obj : ℕ) (sections : List ChainSection) : ℕ :=
  if method then
    sections.foldl (fun acc x => if acc = x.obj then acc else x.call acc (some x.obj)) obj
  else (sections.map ChainSection.obj).getLastD obj

theorem mergedObjs_cons {method : Bool} {obj : ℕ} {x : ChainSection}
    {sections : List ChainSection} :
    mergedObjs method obj (x :: sections) =
      mergedObjs method
        (if obj = x.obj then obj else if method then x.call obj (some x.obj) else x.obj)
        sections := by
  cases method with
  | true => rfl
  | false =>
      have hlast : (if obj = x.obj then obj else x.obj) = x.obj := by
        split_ifs with h
        · exact h
        · rfl
      simp only [mergedObjs, Bool.false_eq_true, if_false, hlast, List.map_cons]
      cases sections.map ChainSection.obj <;> rfl

section Chains

variable {minfo : ModuleInfo} {obj : ℕ}

/-- A struct with an object is there, and has met a directive. -/
theorem Sound.hasServer_of_fetch (h : s.Sound) (hobj : s.table.fetch a = some (some obj)) :
    s.hasServer a = true ∧ ∃ cfg, s.cfgs a = some cfg := by
  rw [h.fetch_eq, Option.some.injEq, Option.join_eq_some_iff] at hobj
  obtain ⟨x, hx, -⟩ := objs_eq_some_iff.mp hobj
  obtain ⟨cfg, hcfg, hserver, -⟩ := h.live a x hx
  exact ⟨by simp [hasServer, hcfg, hserver], cfg, hcfg⟩

/-- One merge of a chain. -/
theorem Sound.merge_section (h : s.Sound) (dir : Bool) {base : ℕ} {x : ChainSection}
    (hp : s.HasPool p) (hbase : s.table.fetch base = some (some obj))
    (hadd : s.table.fetch x.add = some (some x.obj)) (hfree : s.Free x.mrg) :
    ∃ s' ret, s.merge minfo dir p (some base) x.add x.mrg x.call = some (s', some ret) ∧
      s'.HasPool p ∧
      s'.table.fetch ret = some (some
        (if obj = x.obj then obj
          else if (if dir then minfo.dirMerge else minfo.srvMerge) then x.call obj (some x.obj)
          else x.obj)) ∧
      (∀ a o, s.table.fetch a = some (some o) → s'.table.fetch a = some (some o)) ∧
      ∀ a, a ≠ x.mrg → s.Free a → s'.Free a := by
  obtain ⟨hserver, cfg, hcfg⟩ := h.hasServer_of_fetch hbase
  obtain ⟨-, cfg', hcfg'⟩ := h.hasServer_of_fetch hadd
  have hbase' : (s.objs base).join = some obj := by
    rwa [h.fetch_eq, Option.some.injEq] at hbase
  have hadd' : (s.objs x.add).join = some x.obj := by
    rwa [h.fetch_eq, Option.some.injEq] at hadd
  obtain ⟨s', ret, hres, hsound, hcases⟩ :=
    h.configMerge (if dir then minfo.dirMerge else minfo.srvMerge) (some base) x.add x.call
      hp hfree
  have hguard : s.HasPool p ∧ s.Free x.mrg ∧ (s.cfgs x.add).isSome ∧
      (some base).all fun a => (s.cfgs a).isSome := by
    simp [hp, hfree, hcfg, hcfg']
  have hmerge := merge_eq_some_iff.mpr ⟨hguard, hres⟩
  have hkeep : ∀ a o, s.table.fetch a = some (some o) → a ≠ x.mrg := by
    rintro a o ho rfl
    obtain ⟨-, cfg, hcfg⟩ := h.hasServer_of_fetch ho
    exact nomatch hfree.2.symm.trans hcfg
  -- nothing to merge with; the same object; a new object
  rcases hcases with ⟨-, -, hno⟩ | ⟨rfl, rfl, hsame⟩ | ⟨o, ho, hne, rfl, hpools, hcfgs, hobjs⟩
  · exact absurd hserver (hno base rfl)
  · rw [Option.getD_some, hbase', hadd'] at hsame
    obtain rfl : obj = x.obj := by
      rcases hsame with hsame | hsame
      · cases hsame
      · exact Option.some.inj hsame
    refine ⟨s', x.add, hmerge, hp, ?_, fun _ _ ho => ho, fun _ _ hfree => hfree⟩
    rw [if_pos rfl]
    exact hadd
  · rw [Option.getD_some, hbase'] at ho
    obtain rfl := Option.some.inj ho
    rw [hadd'] at hne hobjs
    have hne' : obj ≠ x.obj := fun heq => hne (congrArg some heq)
    refine ⟨s', x.mrg, hmerge, ?pool, ?value, ?kept, ?free⟩
    case pool =>
      rwa [HasPool, hpools]
    case value =>
      rw [hsound.fetch_eq, hobjs, Function.update_self, if_neg hne', mergedObj]
      split_ifs <;> rfl
    case kept =>
      intro a o ho
      rw [hsound.fetch_eq, hobjs, Function.update_of_ne (hkeep a o ho), ← h.fetch_eq]
      exact ho
    case free =>
      intro a ha hfree
      rw [Free, hcfgs, Function.update_of_ne ha]
      exact hfree

/-- A merge is a step. -/
theorem reachable_merge {dir : Bool} {base : Option ℕ} {add mrg : ℕ} {call : ℕ → SvPtr → ℕ}
    {ret : Option ℕ} (h : Reachable (step minfo) Always start s)
    (hmerge : s.merge minfo dir p base add mrg call = some (s', ret)) :
    Reachable (step minfo) Always start s' := by
  refine .step (.merge dir p base add mrg call) h trivial ?_
  rw [step, hmerge]
  rfl

/-- A whole chain: the induction is on the sections, the struct that has been merged so far
takes the place of the base. -/
theorem mergeChain_fetch (h : Reachable (step minfo) Always start s) {dir : Bool} {base : ℕ}
    {sections : List ChainSection} (hp : s.HasPool p)
    (hbase : s.table.fetch base = some (some obj))
    (hadd : ∀ x ∈ sections, s.table.fetch x.add = some (some x.obj))
    (hfree : ∀ x ∈ sections, s.Free x.mrg)
    (hnodup : (sections.map ChainSection.mrg).Nodup) :
    ∃ s' ret, s.mergeChain minfo dir p sections base = some (s', some ret) ∧
      Reachable (step minfo) Always start s' ∧
      s'.table.fetch ret = some (some
        (mergedObjs (if dir then minfo.dirMerge else minfo.srvMerge) obj sections)) := by
  induction sections generalizing s base obj with
  | nil =>
      refine ⟨s, base, rfl, h, hbase.trans ?_⟩
      unfold mergedObjs
      split_ifs <;> rfl
  | cons x sections ih =>
      rw [List.map_cons, List.nodup_cons] at hnodup
      obtain ⟨s₁, ret₁, hmerge, hp₁, hfetch, hobjs, hstill⟩ :=
        (sound_of_reachable h).merge_section dir hp hbase
          (hadd x List.mem_cons_self) (hfree x List.mem_cons_self)
      obtain ⟨s', ret, hchain, hreach, hres⟩ := ih (reachable_merge h hmerge) hp₁ hfetch
        (fun y hy => hobjs _ _ (hadd y (List.mem_cons_of_mem x hy)))
        (fun y hy => hstill _ (fun heq => hnodup.1 (heq ▸ List.mem_map_of_mem hy))
          (hfree y (List.mem_cons_of_mem x hy)))
        hnodup.2
      refine ⟨s', ret, ?_, hreach, ?_⟩
      · rw [mergeChain, List.foldlM_cons]
        show (s.merge minfo dir p (some base) x.add x.mrg x.call).bind _ = _
        rw [hmerge]
        exact hchain
      · rw [mergedObjs_cons]
        exact hres

end Chains

/-- What is found for a struct is what was made for it, by a creation or merge whose pool is
there; no reference is dropped that the table does not hold, and each of its values is held.
A chain of sections with objects gives the left fold of the merge method, except that the
method is not called for an object and itself. -/
theorem config_objs_never_stale {minfo : ModuleInfo} {s : ConfigObjs}
    (h : Reachable (step minfo) Always start s) :
    (∀ a, s.table.fetch a = some ((s.made a).bind Made.obj)) ∧
    (∀ a x, s.made a = some x → (s.cfgs a).isSome ∧ s.HasPool x.pool) ∧
    s.overdropped = false ∧
    (∀ sv (ptrs : List ℕ), ptrs.Nodup → (∀ a ∈ ptrs, s.table.fetch a = some (some sv)) →
      ptrs.length ≤ s.refs sv) ∧
    ∀ dir p base obj (sections : List ChainSection), s.HasPool p →
      s.table.fetch base = some (some obj) →
      (∀ x ∈ sections, s.table.fetch x.add = some (some x.obj)) →
      (∀ x ∈ sections, s.Free x.mrg) → (sections.map ChainSection.mrg).Nodup →
      ∃ s' ret, s.mergeChain minfo dir p sections base = some (s', some ret) ∧
        Reachable (step minfo) Always start s' ∧
        s'.table.fetch ret = some (some
          (mergedObjs (if dir then minfo.dirMerge else minfo.srvMerge) obj sections)) := by
  have hsound := sound_of_reachable h
  refine ⟨fun a => ?_, fun a x hx => ?_, hsound.backed.dropped, fun sv ptrs hnodup hptrs => ?_, ?_⟩
  · rw [hsound.fetch_eq, objs]
    cases s.made a <;> rfl
  · obtain ⟨cfg, hcfg, -⟩ := hsound.live a x hx
    exact ⟨Option.isSome_of_mem hcfg, hsound.alive a x hx⟩
  · obtain ⟨holders, -, hmem, hle⟩ := hsound.backed.held sv
    have hsub : ptrs ⊆ holders := by
      intro a ha
      have hfetch := hptrs a ha
      rw [hsound.fetch_eq, Option.some.injEq, Option.join_eq_some_iff] at hfetch
      exact (hmem a).mpr hfetch
    exact (List.subperm_of_subset hnodup hsub).length_le.trans hle
  · intro dir p base obj sections hp hbase hadd hfree hnodup
    exact mergeChain_fetch h hp hbase hadd hfree hnodup

/-- Two sections of the startup, and one of an `.htaccess` file: after the request, the address
of its struct is given to another one. -/
theorem config_objs_never_stale_reused : ∃ s, Reachable (step ⟨true, true, true, true⟩) Always
    start s ∧ s.hasServer 3 = false ∧ s.table.fetch 3 = some none ∧
    ∃ s' ret, s.mergeChain ⟨true, true, true, true⟩ true pconf [⟨2, 6, 4, fun _ _ => 9⟩] 1 =
      some (s', some ret) ∧ s'.table.fetch ret = some (some 9) := by
  obtain ⟨s, hreach, hserver, hmade, h₁, h₂, hfree⟩ : ∃ s,
      Reachable (step ⟨true, true, true, true⟩) Always start s ∧
        s.hasServer 3 = false ∧ s.made 3 = none ∧ s.made 1 = some ⟨some 5, pconf⟩ ∧
        s.made 2 = some ⟨some 6, pconf⟩ ∧ s.Free 4 :=
    Reachable.exists_of_run
      (show runOk _ _ _ [ConfigAction.cfgNew pconf 1, .createObj true pconf 1 (some 5) 0,
        .cfgNew pconf 2, .createObj true pconf 2 (some 6) 0, .poolCreate 7, .cfgNew 7 3,
        .createObj true 7 3 (some 8) 0, .poolDestroy 7, .poolCreate 7, .cfgNew 7 3] by
          decide +kernel)
      (by decide +kernel)
  obtain ⟨hfetch, -, -, -, hchain⟩ := config_objs_never_stale hreach
  refine ⟨s, hreach, hserver, ?_, ?_⟩
  · rw [hfetch, hmade]
    rfl
  · obtain ⟨s', ret, hres, -, hret⟩ := hchain true pconf 1 5 [⟨2, 6, 4, fun _ _ => 9⟩] (.inl rfl)
      (by rw [hfetch, h₁]; rfl)
      (by simp only [List.mem_singleton, forall_eq]; rw [hfetch, h₂]; rfl)
      (by simpa using hfree) (by simp)
    exact ⟨s', ret, hres, hret⟩

/-- Two sections whose constructors return the same SV, as a constant sub does: the merge
method, which would return another one, is not called. -/
theorem merge_keeps_same_obj : ∃ s, Reachable (step ⟨true, true, true, true⟩) Always start s ∧
    s.table.fetch 1 = some (some 5) ∧ s.table.fetch 2 = some (some 5) ∧
    (s.mergeChain ⟨true, true, true, true⟩ true pconf [⟨2, 5, 3, fun _ _ => 9⟩] 1).any
      (fun r => decide (r.1.table.fetch (r.2.getD 0) ≠ some (some 9))) = true :=
  Reachable.exists_of_run
    (show runOk _ _ _ [ConfigAction.cfgNew pconf 1, .createObj true pconf 1 (some 5) 0,
      .cfgNew pconf 2, .createObj true pconf 2 (some 5) 0] by decide +kernel)
    (by decide +kernel)

end ConfigObjs

end ModPerl
