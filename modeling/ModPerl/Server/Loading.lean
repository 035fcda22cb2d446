import ModPerl.Config.Options
import ModPerl.Library.Machine

/-!
# What the servers load

`PerlRequire` and `PerlModule` are put aside for their server until `mod_perl` starts.  That
is once the configuration is read, unless a directive needs Perl before: then the base server
starts at once, and the hosts that there are so far with it, and what comes later is loaded
where it stands.  A host is opened by its first directive that loads something after that, or
else when its configuration is merged with that of the base server.  It then loads what was
put aside for it, in a parent interpreter of its own or that of the base server.

All of this goes by the pool that the config of a server points to, and a host that has
`mod_perl` disabled has none.
-/

namespace ModPerl

/-- The two lists of a server. -/
inductive LoadKind
  | perlRequire
  | perlModule
  deriving DecidableEq

/-- A file or a module that an interpreter requires for a server; the base server is `none`. -/
structure Load where
  perl : ℕ
  server : Option ℕ
  kind : LoadKind
  name : Bytes
  deriving DecidableEq

/-- `modperl_config_srv_t` -/
structure SrvLoads where
  flags : Options
  perlRequire : List Bytes
  perlModule : List Bytes
  /-- The address of `mip`. -/
  mip : Option ℕ
  deriving DecidableEq

namespace SrvLoads

/-- One of the lists. -/
def queue (c : SrvLoads) : LoadKind → List Bytes
  | .perlRequire => c.perlRequire
  | .perlModule => c.perlModule

/-- `apr_array_push` -/
def push (c : SrvLoads) (name : Bytes) : LoadKind → SrvLoads
  | .perlRequire => { c with perlRequire := c.perlRequire ++ [name] }
  | .perlModule => { c with perlModule := c.perlModule ++ [name] }

end SrvLoads

/-- How far the server is: it reads the configuration, has merged that of the hosts, or runs. -/
inductive ConfigPhase
  | reading
  | fixed
  | started
  deriving DecidableEq

/-- The server.  A host that has no directive of `mod_perl` has no config of its own. -/
structure Loading where
  /-- `MP_IS_RUNNING` -/
  running : Bool
  base : SrvLoads
  vhosts : List (Option SrvLoads)
  /-- The interpreters that `perl_alloc` has returned. -/
  perls : ℕ
  /-- `mip->parent->perl`, of the pools. -/
  mips : List ℕ
  loads : List Load
  phase : ConfigPhase
  deriving DecidableEq

/-- The process exits, or uses a pool that is not there. -/
inductive Stop
  | exit
  | noPool
  deriving DecidableEq

/-- A directive, of the main server or a host. -/
inductive LoadDirective
  | perlModule (name : Bytes)
  | perlRequire (name : Bytes)
  | perlConfigRequire (name : Bytes)
  | perlLoadModule (name : Bytes)
  /-- `<Perl>` -/
  | perl
  | perlOptions (arg : Bytes)
  | other

/-- What the server does: it comes to a new host or a directive, merges the configs, and ends
its startup. -/
inductive ServerEvent
  | virtualHost
  | directive (s : Option ℕ) (d : LoadDirective)
  | fixup
  | hookInit

namespace Loading

/-- `modperl_config_srv_create` -/
def srvCreate (f : HookOrder) : SrvLoads := ⟨f.optionsStart .srv, [], [], none⟩

def start (f : HookOrder) : Loading where
  running := false
  base := srvCreate f
  vhosts := []
  perls := 0
  mips := []
  loads := []
  phase := .reading

/-- The config that the server has itself. -/
def own (st : Loading) : Option ℕ → Option SrvLoads
  | none => some st.base
  | some i => st.vhosts[i]?.join

def setOwn (st : Loading) (s : Option ℕ) (c : SrvLoads) : Loading :=
  match s with
  | none => { st with base := c }
  | some i => { st with vhosts := st.vhosts.set i (some c) }

/-- `scfg->mip`: a host without a config of its own has that of the base server. -/
def mipOf (st : Loading) (s : Option ℕ) : Option ℕ := ((st.own s).getD st.base).mip

/-- `scfg->mip->parent->perl` -/
def perlOf (st : Loading) (s : Option ℕ) : Option ℕ := (st.mipOf s).bind fun m => st.mips[m]?

/-- A flag of a server. -/
def flagOn (f : HookOrder) (name : String) (c : SrvLoads) : Bool :=
  c.flags.opts &&& f.flag .srv (ascii name) ≠ 0

/-- `MpSrvENABLE` -/
def enabled (f : HookOrder) (c : SrvLoads) : Bool := flagOn f "Enable" c

variable (f : HookOrder) (good : List Load → Load → Bool)

/-- `modperl_require_file` and `modperl_require_module`: whether that went well depends on the
interpreter. -/
def requires (l : Load) (st : Loading) : Bool × Loading :=
  (good st.loads l, { st with loads := st.loads ++ [l] })

/-- `modperl_config_apply_PerlRequire` and `modperl_config_apply_PerlModule`, and the exit. -/
def applyPerl (perl : ℕ) (s : Option ℕ) (kind : LoadKind) :
    List Bytes → Loading → Except Stop Loading
  | [], st => .ok st
  | name :: names, st =>
      let (ok, st) := st.requires good ⟨perl, s, kind, name⟩
      if ok then applyPerl perl s kind names st else .error .exit

/-- Both lists of a server. -/
def applyAll (perl : ℕ) (s : Option ℕ) (c : SrvLoads) (st : Loading) : Except Stop Loading :=
  (applyPerl good perl s .perlRequire c.perlRequire st).bind fun st =>
    applyPerl good perl s .perlModule c.perlModule st

/-- `modperl_interp_init` -/
def interpInit (s : Option ℕ) (c : SrvLoads) (perl : ℕ) (st : Loading) : Loading :=
  { st with mips := st.mips ++ [perl] }.setOwn s { c with mip := some st.mips.length }

/-- `modperl_startup`, once the base server runs. -/
def startupPerl (s : Option ℕ) (c : SrvLoads) (st : Loading) : Except Stop Loading :=
  applyAll good st.perls s c (interpInit s c st.perls { st with perls := st.perls + 1 })

/-- `modperl_startup`: the base server is started before a virtual host. -/
def startup (s : Option ℕ) (c : SrvLoads) (st : Loading) : Except Stop Loading :=
  if st.running then startupPerl good s c st
  else
    (startupPerl good none st.base { st with running := true }).bind fun st =>
      if s = none then .ok st else startupPerl good s c st

/-- The end of `modperl_init_vhost` -/
def inheritMip (i : ℕ) (st : Loading) : Loading :=
  match st.own (some i) with
  | none => st
  | some c => if c.mip.isNone then st.setOwn (some i) { c with mip := st.base.mip } else st

/-- `modperl_init_vhost` -/
def initVhost (s : Option ℕ) (st : Loading) : Except Stop Loading :=
  match s with
  | none => .ok st
  | some i =>
      match st.own (some i) with
      | none => .ok st
      | some c =>
          match st.perlOf none with
          | none => .error .noPool
          | some perl =>
              if c.mip.isSome then .ok st
              else if !enabled f c then .ok st
              else
                (if flagOn f "Parent" c then startup good (some i) c st
                  else
                    applyAll good perl (some i) c
                      (if flagOn f "Clone" c then interpInit (some i) c perl st else st)).map
                  (inheritMip i)

/-- `modperl_init_vhost` for each of the servers. -/
def initVhosts : List ℕ → Loading → Except Stop Loading
  | [], st => .ok st
  | i :: chain, st => (initVhost f good (some i) st).bind (initVhosts chain)

/-- The servers behind the base server; a new one is put in front. -/
def chain (st : Loading) : List ℕ := (List.range st.vhosts.length).reverse

/-- `modperl_init` -/
def init (st : Loading) : Except Stop Loading :=
  (startup good none st.base st).bind fun st => initVhosts f good st.chain st

/-- `modperl_run` and `modperl_hook_init` -/
def run (st : Loading) : Except Stop Loading := if st.running then .ok st else init f good st

/-- `ap_set_config_vectors`: the config of a server is made when it is needed. -/
def srvConfig (s : Option ℕ) (st : Loading) : Loading :=
  if st.phase = .reading ∧ st.own s = none then st.setOwn s (srvCreate f) else st

/-- `modperl_cmd_modules` and `modperl_cmd_requires`.  A directive in a `.htaccess` file that
fails ends the request. -/
def cmdLoad (s : Option ℕ) (kind : LoadKind) (name : Bytes) (st : Loading) :
    Except Stop Loading :=
  if st.running then
    (initVhost f good s st).bind fun st =>
      match st.perlOf s with
      | none => .error .noPool
      | some perl =>
          let (ok, st) := st.requires good ⟨perl, s, kind, name⟩
          if ok || st.phase = .started then .ok st else .error .exit
  else
    match st.own s with
    | none => .ok st
    | some c => .ok (st.setOwn s (c.push name kind))

/-- `modperl_cmd_options` -/
def cmdOptions (s : Option ℕ) (arg : Bytes) (st : Loading) : Except Stop Loading :=
  match st.own s with
  | none => .ok st
  | some c =>
      match f.optionsSet c.flags arg with
      | .ok flags => .ok (st.setOwn s { c with flags := flags })
      | .error _ =>
          -- a per-directory option outside of a container
          match f.optionsSet (f.optionsStart .dir) arg with
          | .ok _ => .ok st
          | .error _ => .error .exit

/-- `modperl_cmd_perldo`, up to the code. -/
def cmdPerl (s : Option ℕ) (st : Loading) : Except Stop Loading :=
  (initVhost f good s st).bind fun st => if (st.perlOf s).isSome then .ok st else .error .noPool

/-- The handler of a directive. -/
def cmd (s : Option ℕ) (st : Loading) : LoadDirective → Except Stop Loading
  | .perlModule name => st.cmdLoad f good s .perlModule name
  | .perlRequire name => st.cmdLoad f good s .perlRequire name
  | .perlConfigRequire name => (st.run f good).bind (cmdLoad f good s .perlRequire name)
  | .perlLoadModule name => (st.run f good).bind (cmdLoad f good s .perlModule name)
  | .perl => (st.run f good).bind (cmdPerl f good s)
  | .perlOptions arg => st.cmdOptions f s arg
  | .other => .ok st

/-- `modperl_config_srv_merge` for a host -/
def srvMerge (i : ℕ) (st : Loading) : Except Stop Loading :=
  (if st.running && (st.own (some i)).isSome then initVhost f good (some i) st else .ok st).map
    fun st =>
      match st.own (some i) with
      | none => st
      | some add =>
          st.setOwn (some i)
            { add with
              flags := optionsMerge st.base.flags add.flags
              mip := add.mip <|> st.base.mip }

/-- `modperl_config_srv_merge` for each of the hosts. -/
def srvMerges : List ℕ → Loading → Except Stop Loading
  | [], st => .ok st
  | i :: chain, st => (srvMerge f good i st).bind (srvMerges chain)

def step (st : Loading) : ServerEvent → Except Stop Loading
  | .virtualHost => .ok { st with vhosts := st.vhosts ++ [none] }
  | .directive s d => (st.srvConfig f s).cmd f good s d
  | .fixup => srvMerges f good st.chain { st with phase := .fixed }
  | .hookInit => (st.run f good).map fun st => { st with phase := .started }

/-- The order of events, as the server has it.  Later directives are those of `.htaccess`
files. -/
def Legal (st : Loading) : ServerEvent → Prop
  | .virtualHost => st.phase = .reading
  | .directive s d =>
      (∀ i ∈ s, i < st.vhosts.length) ∧
        match d with
        | .perlModule _ | .perlRequire _ | .perl => st.phase ≠ .fixed
        | _ => st.phase = .reading
  | .fixup => st.phase = .reading
  | .hookInit => st.phase = .fixed

instance : DecidableRel Legal
  | st, .virtualHost => inferInstanceAs (Decidable (st.phase = .reading))
  | st, .directive s (.perlModule _) =>
      inferInstanceAs (Decidable ((∀ i ∈ s, i < st.vhosts.length) ∧ st.phase ≠ .fixed))
  | st, .directive s (.perlRequire _) =>
      inferInstanceAs (Decidable ((∀ i ∈ s, i < st.vhosts.length) ∧ st.phase ≠ .fixed))
  | st, .directive s .perl =>
      inferInstanceAs (Decidable ((∀ i ∈ s, i < st.vhosts.length) ∧ st.phase ≠ .fixed))
  | st, .directive s (.perlConfigRequire _) =>
      inferInstanceAs (Decidable ((∀ i ∈ s, i < st.vhosts.length) ∧ st.phase = .reading))
  | st, .directive s (.perlLoadModule _) =>
      inferInstanceAs (Decidable ((∀ i ∈ s, i < st.vhosts.length) ∧ st.phase = .reading))
  | st, .directive s (.perlOptions _) =>
      inferInstanceAs (Decidable ((∀ i ∈ s, i < st.vhosts.length) ∧ st.phase = .reading))
  | st, .directive s .other =>
      inferInstanceAs (Decidable ((∀ i ∈ s, i < st.vhosts.length) ∧ st.phase = .reading))
  | st, .fixup => inferInstanceAs (Decidable (st.phase = .reading))
  | st, .hookInit => inferInstanceAs (Decidable (st.phase = .fixed))

/-! ## What the parts do -/

variable {f good} {st st' : Loading} {s s' : Option ℕ} {i : ℕ} {c : SrvLoads} {perl : ℕ}
  {kind : LoadKind} {names : List Bytes}

theorem map_eq_ok {α β : Type} {x : Except Stop α} {g : α → β} {b : β} (h : x.map g = .ok b) :
    ∃ a, x = .ok a ∧ g a = b := by
  cases x with
  | error e => cases h
  | ok a => exact ⟨a, rfl, Except.ok.inj h⟩

theorem bind_eq_ok {α β : Type} {x : Except Stop α} {g : α → Except Stop β} {b : β}
    (h : x.bind g = .ok b) : ∃ a, x = .ok a ∧ g a = .ok b := by
  cases x with
  | error e => cases h
  | ok a => exact ⟨a, rfl, h⟩

theorem map_eq_error {α β : Type} {x : Except Stop α} {g : α → β} {e : Stop}
    (h : x.map g = .error e) : x = .error e := by
  cases x with
  | error e' => exact congrArg _ (Except.error.inj h)
  | ok a => cases h

theorem bind_eq_error {α β : Type} {x : Except Stop α} {g : α → Except Stop β} {e : Stop}
    (h : x.bind g = .error e) : x = .error e ∨ ∃ a, x = .ok a ∧ g a = .error e := by
  cases x with
  | error e' => exact .inl (congrArg _ (Except.error.inj h))
  | ok a => exact .inr ⟨a, rfl, h⟩

theorem ite_eq_ok {α : Type} {p : Prop} [Decidable p] {a b : α} {e : Stop}
    (h : (if p then .ok a else .error e) = Except.ok b) : a = b := by
  split_ifs at h
  exact Except.ok.inj h

theorem ite_eq_error {α : Type} {p : Prop} [Decidable p] {a : α} {e e' : Stop}
    (h : (if p then .ok a else .error e) = (Except.error e' : Except Stop α)) : e' = e := by
  split_ifs at h
  exact (Except.error.inj h).symm

/-- What is put aside for a server, as it is loaded. -/
def pending (c : SrvLoads) (perl : ℕ) (s : Option ℕ) : List Load :=
  c.perlRequire.map (⟨perl, s, .perlRequire, ·⟩) ++ c.perlModule.map (⟨perl, s, .perlModule, ·⟩)

@[simp] theorem setOwn_running : (st.setOwn s c).running = st.running := by cases s <;> rfl
@[simp] theorem setOwn_perls : (st.setOwn s c).perls = st.perls := by cases s <;> rfl
@[simp] theorem setOwn_mips : (st.setOwn s c).mips = st.mips := by cases s <;> rfl
@[simp] theorem setOwn_loads : (st.setOwn s c).loads = st.loads := by cases s <;> rfl
@[simp] theorem setOwn_phase : (st.setOwn s c).phase = st.phase := by cases s <;> rfl

@[simp] theorem setOwn_length : (st.setOwn s c).vhosts.length = st.vhosts.length := by
  cases s <;> simp [setOwn]

theorem own_setOwn (hs : ∀ i ∈ s, i < st.vhosts.length) :
    (st.setOwn s c).own s' = if s = s' then some c else st.own s' := by
  cases s with
  | none => cases s' <;> simp [setOwn, own]
  | some i =>
      cases s' with
      | none => simp [setOwn, own]
      | some j =>
          simp only [setOwn, own, List.getElem?_set, Option.some.injEq]
          by_cases hij : i = j
          · subst hij
            simp [hs i rfl]
          · simp [hij]

theorem lt_length_of_own (h : st.own s = some c) : ∀ i ∈ s, i < st.vhosts.length := by
  rintro i rfl
  exact (List.getElem?_eq_some_iff.mp (Option.join_eq_some_iff.mp h)).1

theorem applyPerl_ok (h : applyPerl good perl s kind names st = .ok st') :
    st' = { st with loads := st.loads ++ names.map (⟨perl, s, kind, ·⟩) } := by
  induction names generalizing st with
  | nil =>
      obtain rfl := Except.ok.inj h
      simp
  | cons name names ih =>
      rw [applyPerl, requires] at h
      dsimp only at h
      split_ifs at h
      rw [ih h]
      simp

theorem applyAll_ok (h : applyAll good perl s c st = .ok st') :
    st' = { st with loads := st.loads ++ pending c perl s } := by
  obtain ⟨st₁, hrequire, hmodule⟩ := bind_eq_ok h
  rw [applyPerl_ok hmodule, applyPerl_ok hrequire]
  simp [pending]

theorem applyPerl_error {e : Stop} (h : applyPerl good perl s kind names st = .error e) :
    e = .exit := by
  induction names generalizing st with
  | nil => cases h
  | cons name names ih =>
      rw [applyPerl, requires] at h
      dsimp only at h
      split_ifs at h
      · exact ih h
      · exact (Except.error.inj h).symm

theorem applyAll_error {e : Stop} (h : applyAll good perl s c st = .error e) : e = .exit := by
  obtain h | ⟨st₁, -, h⟩ := bind_eq_error h
  · exact applyPerl_error h
  · exact applyPerl_error h

/-- A host is opened: it gets a pool, and what was put aside for it is loaded in the parent
interpreter of that, which is new or that of the base server. -/
structure Opens (st st' : Loading) (basePerl i : ℕ) (c : SrvLoads) (m perl : ℕ)
    (pools : List ℕ) : Prop where
  running : st'.running = st.running
  base : st'.base = st.base
  vhosts : st'.vhosts = st.vhosts.set i (some { c with mip := some m })
  mips : st'.mips = st.mips ++ pools
  loads : st'.loads = st.loads ++ pending c perl (some i)
  phase : st'.phase = st.phase
  pool : st'.mips[m]? = some perl
  parent : perl = basePerl ∧ st'.perls = st.perls ∧ (∀ p ∈ pools, p = basePerl) ∨
    perl = st.perls ∧ st'.perls = st.perls + 1 ∧ pools = [perl]

theorem inheritMip_of_some {m : ℕ} (h : st.own (some i) = some c) (hmip : c.mip = some m) :
    inheritMip i st = st := by
  simp [inheritMip, h, hmip]

theorem inheritMip_of_none (h : st.own (some i) = some c) (hmip : c.mip = none) :
    inheritMip i st = st.setOwn (some i) { c with mip := st.base.mip } := by
  simp [inheritMip, h, hmip]

theorem initVhost_cases (hrunning : st.running = true) {basePerl : ℕ}
    (hbase : st.perlOf none = some basePerl) (h : initVhost f good (some i) st = .ok st') :
    (st' = st ∧ ∀ c, st.own (some i) = some c → c.mip.isSome ∨ enabled f c = false) ∨
      ∃ c, st.own (some i) = some c ∧ c.mip = none ∧ enabled f c = true ∧
        ∃ m perl pools, Opens st st' basePerl i c m perl pools := by
  unfold initVhost at h
  cases hown : st.own (some i) with
  | none =>
      simp only [hown] at h
      exact .inl ⟨(Except.ok.inj h).symm, fun c hc => by cases hc⟩
  | some c =>
      have hlt := lt_length_of_own hown
      simp only [hown, hbase] at h
      by_cases hmip : c.mip.isSome = true
      · rw [if_pos hmip] at h
        exact .inl ⟨(Except.ok.inj h).symm, fun c' hc' => .inl (Option.some.inj hc' ▸ hmip)⟩
      rw [if_neg hmip] at h
      by_cases henabled : enabled f c = true
      swap
      · rw [Bool.not_eq_true] at henabled
        rw [henabled, Bool.not_false, if_pos rfl] at h
        exact .inl ⟨(Except.ok.inj h).symm, fun c' hc' => .inr (Option.some.inj hc' ▸ henabled)⟩
      rw [henabled, Bool.not_true, if_neg Bool.false_ne_true] at h
      have hmip := Option.not_isSome_iff_eq_none.mp hmip
      refine .inr ⟨c, rfl, hmip, henabled, ?_⟩
      obtain ⟨st₁, hst₁, rfl⟩ := map_eq_ok h
      have hnew : ∀ m, (st.setOwn (some i) { c with mip := some m }).own (some i) =
          some { c with mip := some m } := fun m => by rw [own_setOwn hlt, if_pos rfl]
      split_ifs at hst₁ with hparent hclone
      · rw [startup, if_pos hrunning] at hst₁
        have hst₁ := applyAll_ok hst₁
        have hown₁ : st₁.own (some i) = some { c with mip := some st.mips.length } := by
          rw [hst₁]
          exact hnew _
        rw [inheritMip_of_some hown₁ rfl, hst₁]
        exact ⟨_, _, [st.perls], rfl, rfl, rfl, rfl, rfl, rfl, by simp [interpInit],
          .inr ⟨rfl, rfl, rfl⟩⟩
      · have hst₁ := applyAll_ok hst₁
        have hown₁ : st₁.own (some i) = some { c with mip := some st.mips.length } := by
          rw [hst₁]
          exact hnew _
        rw [inheritMip_of_some hown₁ rfl, hst₁]
        exact ⟨_, basePerl, [basePerl], rfl, rfl, rfl, rfl, rfl, rfl, by simp [interpInit],
          .inl ⟨rfl, rfl, by simp⟩⟩
      · have hst₁ := applyAll_ok hst₁
        have hown₁ : st₁.own (some i) = some c := by
          rw [hst₁]
          exact hown
        obtain ⟨m, hm, hperl⟩ := Option.bind_eq_some_iff.mp hbase
        rw [inheritMip_of_none hown₁ hmip, hst₁]
        have hm : st.base.mip = some m := hm
        exact ⟨m, basePerl, [], rfl, rfl, by simp [setOwn, hm], by simp, rfl, rfl, hperl,
          .inl ⟨rfl, rfl, by simp⟩⟩

/-! ## The flag of a server -/

/-- `-Enable` is what disables a server, and a merge keeps that. -/
def Removed (c : SrvLoads) : Prop :=
  (c.flags.bit 2).on = false → (c.flags.bit 2).remove = true ∧ (c.flags.bit 2).add = false

theorem enabled_eq : enabled f c = (c.flags.bit 2).on := by
  have hflag : f.flag .srv (ascii "Enable") = BitVec.twoPow 32 2 := rfl
  rw [enabled, flagOn, hflag, BitVec.and_twoPow, Options.bit]
  split_ifs with hbit
  · rw [hbit]
    rfl
  · rw [Bool.not_eq_true] at hbit
    rw [hbit]
    rfl

theorem enabled_srvCreate : enabled f (srvCreate f) = true := by
  have hflag : f.flag .srv (ascii "Enable") = BitVec.twoPow 32 2 := rfl
  rw [enabled_eq]
  simp [srvCreate, HookOrder.optionsStart, hflag, Options.bit]

theorem removed_srvCreate : Removed (srvCreate f) := by
  intro hoff
  have hon := enabled_srvCreate (f := f)
  rw [enabled_eq, hoff] at hon
  cases hon

theorem Removed.set {arg : Bytes} {flags : Options} (h : Removed c)
    (hset : f.optionsSet c.flags arg = .ok flags) : Removed { c with flags := flags } := by
  obtain ⟨opt, rfl⟩ := HookOrder.optionsSet_ok hset
  have hbit : (optionsAct c.flags opt (splitAction arg).1).bit 2 =
      if opt.getLsbD 2 then (c.flags.bit 2).act (splitAction arg).1 else c.flags.bit 2 :=
    bit_act (by decide) _
  unfold Removed
  rw [hbit]
  split_ifs
  · cases (splitAction arg).1 <;> simp [OptBit.act]
  · exact h

theorem Removed.merge {base add : SrvLoads} (hbase : Removed base) (hadd : Removed add)
    (mip : Option ℕ) :
    Removed { add with flags := optionsMerge base.flags add.flags, mip := mip } := by
  unfold Removed at hbase hadd ⊢
  dsimp only
  by_cases h : add.flags.opts &&& add.flags.unset = 0
  · rw [bit_merge_of_no_marker h]
    exact hadd
  · rw [bit_merge_of_marker h (by decide)]
    generalize base.flags.bit 2 = b, add.flags.bit 2 = b' at hbase hadd ⊢
    obtain ⟨on, add, remove⟩ := b
    obtain ⟨on', add', remove'⟩ := b'
    revert on add remove on' add' remove'
    decide

/-- A host that is disabled stays so. -/
theorem Removed.disabled_merge {base add : SrvLoads} (hadd : Removed add)
    (h : enabled f add = false) (mip : Option ℕ) :
    enabled f { add with flags := optionsMerge base.flags add.flags, mip := mip } = false := by
  rw [enabled_eq] at h ⊢
  dsimp only
  by_cases hmarker : add.flags.opts &&& add.flags.unset = 0
  · rw [bit_merge_of_no_marker hmarker, h]
  · rw [bit_merge_of_marker hmarker (by decide), OptBit.merge]
    obtain ⟨hremove, hadd⟩ := hadd h
    simp [hremove, hadd]

/-! ## What is asked for and what is loaded -/

/-- What was loaded for a server, of one of the lists. -/
def loadedIn (loads : List Load) (s : Option ℕ) (kind : LoadKind) : List Bytes :=
  (loads.filter fun l => l.server = s ∧ l.kind = kind).map Load.name

def loadedFor (st : Loading) : Option ℕ → LoadKind → List Bytes := loadedIn st.loads

/-- The configs of the servers, their pools and what was loaded, where `asked` is what the
directives asked for.  A host without a pool has all of it put aside.  One that has a pool has
all of it loaded, except for one that was disabled when its config was merged. -/
structure Accounted (f : HookOrder) (asked : Option ℕ → LoadKind → List Bytes) (st : Loading) :
    Prop where
  based : st.running = true → st.base.mip = some 0 ∧ st.mips[0]? = some 0 ∧ 0 < st.perls
  idle : st.running = false → st.mips = [] ∧ st.perls = 0 ∧ st.loads = [] ∧
    ∀ s c, st.own s = some c → c.mip = none
  below : ∀ p ∈ st.mips, p < st.perls
  pools : ∀ s c m, st.own s = some c → c.mip = some m → m < st.mips.length
  single : ∀ i j c d m n p, st.own (some i) = some c → c.mip = some m →
    st.own (some j) = some d → d.mip = some n → st.mips[m]? = some p → st.mips[n]? = some p →
      p = 0 ∨ i = j
  perl : ∀ l ∈ st.loads, st.perlOf l.server = some l.perl
  waiting : ∀ s c, st.own s = some c → c.mip = none → ∀ kind, asked s kind = c.queue kind ∧
    st.loadedFor s kind = []
  loaded : ∀ s c m, st.own s = some c → c.mip = some m →
    (∀ kind, st.loadedFor s kind = asked s kind) ∨
      st.phase ≠ .reading ∧ s ≠ none ∧ enabled f c = false
  shared : ∀ s, st.own s = none → (∀ kind, st.loadedFor s kind = asked s kind) ∧
    (st.phase = .reading → ∀ kind, asked s kind = [])
  ready : st.phase = .started → st.running = true ∧
    ∀ i c, st.own (some i) = some c → enabled f c = true → c.mip.isSome
  removed : ∀ s c, st.own s = some c → Removed c

variable {asked : Option ℕ → LoadKind → List Bytes}

@[simp] theorem loadedIn_append (loads loads' : List Load) :
    loadedIn (loads ++ loads') s kind = loadedIn loads s kind ++ loadedIn loads' s kind := by
  simp [loadedIn]

theorem loadedIn_eq_nil {loads : List Load} (h : ∀ l ∈ loads, l.server ≠ s) :
    loadedIn loads s kind = [] := by
  rw [loadedIn, List.filter_eq_nil_iff.mpr, List.map_nil]
  intro l hl hserver
  exact h l hl (of_decide_eq_true hserver).1

theorem server_pending {l : Load} (hl : l ∈ pending c perl s) : l.server = s ∧ l.perl = perl := by
  obtain hl | hl := List.mem_append.mp hl
  all_goals
    obtain ⟨name, -, rfl⟩ := List.mem_map.mp hl
    exact ⟨rfl, rfl⟩

theorem loadedIn_pending : loadedIn (pending c perl s) s kind = c.queue kind := by
  have hsame : ∀ (k : LoadKind) (names : List Bytes),
      loadedIn (names.map (⟨perl, s, k, ·⟩)) s kind = if k = kind then names else [] := by
    intro k names
    induction names with
    | nil => simp [loadedIn]
    | cons name names ih =>
        rw [List.map_cons, ← List.singleton_append, loadedIn_append, ih]
        by_cases hk : k = kind <;> simp [loadedIn, hk]
  rw [pending, loadedIn_append, hsame, hsame]
  cases kind <;> simp [SrvLoads.queue]

theorem not_server_of_loadedFor {l : Load} (h : ∀ kind, st.loadedFor s kind = [])
    (hl : l ∈ st.loads) : l.server ≠ s := by
  rintro rfl
  have hmem : l.name ∈ st.loadedFor l.server l.kind :=
    List.mem_map_of_mem (List.mem_filter.mpr ⟨hl, by simp⟩)
  rw [h] at hmem
  cases hmem

namespace Opens

variable {basePerl m : ℕ} {pools : List ℕ}

theorem own (h : Opens st st' basePerl i c m perl pools) (hi : i < st.vhosts.length)
    (s : Option ℕ) :
    st'.own s = if some i = s then some { c with mip := some m } else st.own s := by
  have hset : (st.setOwn (some i) { c with mip := some m }).own s =
      if some i = s then some { c with mip := some m } else st.own s :=
    own_setOwn (by rintro j ⟨⟩; exact hi)
  rw [← hset]
  cases s with
  | none => exact congrArg some h.base
  | some j =>
      rw [Loading.own, Loading.own, h.vhosts]
      rfl

theorem perlOf (h : Opens st st' basePerl i c m perl pools) (hi : i < st.vhosts.length) {p : ℕ}
    (hs : s ≠ some i) (hp : st.perlOf s = some p) : st'.perlOf s = some p := by
  obtain ⟨n, hn, hperl⟩ := Option.bind_eq_some_iff.mp hp
  have hmip : st'.mipOf s = some n := by
    rw [mipOf, h.own hi, if_neg (Ne.symm hs), h.base]
    exact hn
  rw [Loading.perlOf, hmip, Option.bind_some, h.mips]
  exact (List.getElem?_append_left (List.getElem?_eq_some_iff.mp hperl).1).trans hperl

theorem perlOf_self (h : Opens st st' basePerl i c m perl pools) (hi : i < st.vhosts.length) :
    st'.perlOf (some i) = some perl := by
  rw [Loading.perlOf, mipOf, h.own hi, if_pos rfl]
  exact h.pool

end Opens

theorem Accounted.opens (h : Accounted f asked st) (hrunning : st.running = true)
    (hown : st.own (some i) = some c) (hmip : c.mip = none) {m : ℕ} {pools : List ℕ}
    (ho : Opens st st' 0 i c m perl pools) : Accounted f asked st' := by
  have hi := lt_length_of_own hown i rfl
  obtain ⟨hbase, hzero, hpos⟩ := h.based hrunning
  have hwaiting := h.waiting (some i) c hown hmip
  have hloaded : ∀ s kind, st'.loadedFor s kind =
      st.loadedFor s kind ++ if some i = s then c.queue kind else [] := by
    intro s kind
    rw [loadedFor, ho.loads, loadedIn_append, ← loadedFor]
    congr 1
    split_ifs with hs
    · rw [← hs, loadedIn_pending]
    · exact loadedIn_eq_nil fun l hl hserver => hs ((server_pending hl).1.symm.trans hserver)
  have hperls : st.perls ≤ st'.perls := by
    obtain ⟨-, hperls, -⟩ | ⟨-, hperls, -⟩ := ho.parent <;> omega
  have hold : ∀ {n p : ℕ}, n < st.mips.length → st'.mips[n]? = some p → p < st.perls := by
    intro n p hn hp
    rw [ho.mips, List.getElem?_append_left hn] at hp
    exact h.below p (List.mem_of_getElem? hp)
  refine ⟨?_, ?_, ?_, ?_, ?_, ?_, ?_, ?_, ?_, ?_, ?_⟩
  · intro _
    rw [ho.base, ho.mips]
    exact ⟨hbase, (List.getElem?_append_left (List.getElem?_eq_some_iff.mp hzero).1).trans hzero,
      hpos.trans_le hperls⟩
  · intro hidle
    rw [ho.running, hrunning] at hidle
    cases hidle
  · intro p hp
    rw [ho.mips, List.mem_append] at hp
    obtain hp | hp := hp
    · exact (h.below p hp).trans_le hperls
    · obtain ⟨-, -, hpools⟩ | ⟨rfl, hsucc, rfl⟩ := ho.parent
      · rw [hpools p hp]
        exact hpos.trans_le hperls
      · rw [List.mem_singleton.mp hp, hsucc]
        exact Nat.lt_succ_self _
  · intro s d n hd hn
    rw [ho.own hi] at hd
    split_ifs at hd with hs
    · obtain rfl := Option.some.inj hd
      obtain rfl := Option.some.inj hn
      exact (List.getElem?_eq_some_iff.mp ho.pool).1
    · rw [ho.mips, List.length_append]
      exact Nat.lt_add_right _ (h.pools s d n hd hn)
  · have hself : ∀ {j : ℕ} {d : SrvLoads} {n p : ℕ}, st.own (some j) = some d → d.mip = some n →
        st'.mips[m]? = some p → st'.mips[n]? = some p → p = 0 := by
      intro j d n p hd hn hm hp
      rw [ho.pool] at hm
      obtain rfl := Option.some.inj hm
      -- an interpreter that is new was not in a pool
      obtain ⟨hperl, -⟩ | ⟨hperl, -⟩ := ho.parent
      · exact hperl
      · exact absurd (hold (h.pools _ d n hd hn) hp) (by omega)
    intro j k d e n n' p hd hn he hn' hp hp'
    rw [ho.own hi] at hd he
    split_ifs at hd he with hj hk hk
    · exact .inr ((Option.some.inj hj).symm.trans (Option.some.inj hk))
    · obtain rfl := Option.some.inj hd
      obtain rfl := Option.some.inj hn
      exact .inl (hself he hn' hp hp')
    · obtain rfl := Option.some.inj he
      obtain rfl := Option.some.inj hn'
      exact .inl (hself hd hn hp' hp)
    · rw [ho.mips, List.getElem?_append_left (h.pools _ d n hd hn)] at hp
      rw [ho.mips, List.getElem?_append_left (h.pools _ e n' he hn')] at hp'
      exact h.single j k d e n n' p hd hn he hn' hp hp'
  · intro l hl
    rw [ho.loads, List.mem_append] at hl
    obtain hl | hl := hl
    · exact ho.perlOf hi (not_server_of_loadedFor (fun kind => (hwaiting kind).2) hl) (h.perl l hl)
    · obtain ⟨hserver, hperl⟩ := server_pending hl
      rw [hserver, hperl]
      exact ho.perlOf_self hi
  · intro s d hd hnone kind
    rw [ho.own hi] at hd
    split_ifs at hd with hs
    · obtain rfl := Option.some.inj hd
      cases hnone
    · rw [hloaded, if_neg hs, List.append_nil]
      exact h.waiting s d hd hnone kind
  · intro s d n hd hn
    rw [ho.own hi] at hd
    split_ifs at hd with hs
    · subst hs
      refine .inl fun kind => ?_
      rw [hloaded, if_pos rfl, (hwaiting kind).2, (hwaiting kind).1, List.nil_append]
    · simp only [hloaded, if_neg hs, List.append_nil, ho.phase]
      exact h.loaded s d n hd hn
  · intro s hs
    rw [ho.own hi] at hs
    split_ifs at hs with hne
    simp only [hloaded, if_neg hne, List.append_nil, ho.phase]
    exact h.shared s hs
  · intro hstarted
    rw [ho.phase] at hstarted
    refine ⟨ho.running.trans hrunning, fun j d hd henabled => ?_⟩
    rw [ho.own hi] at hd
    split_ifs at hd with hj
    · obtain rfl := Option.some.inj hd
      rfl
    · exact (h.ready hstarted).2 j d hd henabled
  · intro s d hd
    rw [ho.own hi] at hd
    split_ifs at hd with hs
    · obtain rfl := Option.some.inj hd
      exact h.removed (some i) c hown
    · exact h.removed s d hd

/-- The configs are as they were, up to pools for those that had none. -/
structure Kept (st st' : Loading) : Prop where
  running : st'.running = st.running
  phase : st'.phase = st.phase
  length : st'.vhosts.length = st.vhosts.length
  none : ∀ s, st.own s = none → st'.own s = none
  own : ∀ s c, st.own s = some c → ∃ mip, st'.own s = some { c with mip := mip } ∧
    (c.mip.isSome → mip = c.mip)

theorem Kept.refl (st : Loading) : Kept st st :=
  ⟨rfl, rfl, rfl, fun _ h => h, fun _ c h => ⟨c.mip, h, fun _ => rfl⟩⟩

theorem Kept.trans {st'' : Loading} (h : Kept st st') (h' : Kept st' st'') : Kept st st'' where
  running := h'.running.trans h.running
  phase := h'.phase.trans h.phase
  length := h'.length.trans h.length
  none s hs := h'.none s (h.none s hs)
  own s c hc := by
    obtain ⟨mip, hmip, hsame⟩ := h.own s c hc
    obtain ⟨mip', hmip', hsame'⟩ := h'.own s _ hmip
    refine ⟨mip', hmip', fun hsome => ?_⟩
    rw [hsame' (by rw [hsame hsome]; exact hsome), hsame hsome]

theorem Kept.flags (h : Kept st st') (s : Option ℕ) :
    (st'.own s).map SrvLoads.flags = (st.own s).map SrvLoads.flags := by
  cases hown : st.own s with
  | none => rw [h.none s hown]
  | some c =>
      obtain ⟨mip, hmip, -⟩ := h.own s c hown
      rw [hmip]
      rfl

theorem Opens.kept {basePerl m : ℕ} {pools : List ℕ} (h : Opens st st' basePerl i c m perl pools)
    (hown : st.own (some i) = some c) (hmip : c.mip = none) : Kept st st' := by
  have hi := lt_length_of_own hown i rfl
  refine ⟨h.running, h.phase, by rw [h.vhosts, List.length_set], fun s hs => ?_, fun s d hd => ?_⟩
  · rw [h.own hi, if_neg]
    · exact hs
    · rintro rfl
      rw [hown] at hs
      cases hs
  · rw [h.own hi]
    split_ifs with hs
    · subst hs
      obtain rfl := Option.some.inj (hown.symm.trans hd)
      refine ⟨some m, rfl, fun hsome => ?_⟩
      rw [hmip] at hsome
      cases hsome
    · exact ⟨d.mip, hd, fun _ => rfl⟩

/-- A host that is enabled has a pool. -/
def Ready (f : HookOrder) (st : Loading) (i : ℕ) : Prop :=
  ∀ c, st.own (some i) = some c → enabled f c = true → c.mip.isSome

theorem Ready.kept (h : Ready f st i) (hkept : Kept st st') : Ready f st' i := by
  intro c' hc' henabled
  cases hown : st.own (some i) with
  | none =>
      rw [hkept.none _ hown] at hc'
      cases hc'
  | some c =>
      obtain ⟨mip, hmip, hsame⟩ := hkept.own _ c hown
      obtain rfl := Option.some.inj (hmip.symm.trans hc')
      have hsome := h c hown henabled
      exact hsame hsome ▸ hsome

theorem Accounted.perlOf_none (h : Accounted f asked st) (hrunning : st.running = true) :
    st.perlOf none = some 0 := by
  obtain ⟨hbase, hzero, -⟩ := h.based hrunning
  have hmip : st.mipOf none = some 0 := hbase
  rw [perlOf, hmip]
  exact hzero

theorem Accounted.initVhost (h : Accounted f asked st) (hrunning : st.running = true)
    (hinit : initVhost f good (some i) st = .ok st') :
    Accounted f asked st' ∧ Kept st st' ∧ Ready f st' i := by
  obtain ⟨rfl, hskip⟩ | ⟨c, hown, hmip, henabled, m, perl, pools, hopens⟩ :=
    initVhost_cases hrunning (h.perlOf_none hrunning) hinit
  · exact ⟨h, .refl _, fun c hown henabled => (hskip c hown).resolve_right (by simp [henabled])⟩
  · refine ⟨h.opens hrunning hown hmip hopens, hopens.kept hown hmip, fun c' hc' _ => ?_⟩
    rw [hopens.own (lt_length_of_own hown i rfl), if_pos rfl] at hc'
    exact Option.some.inj hc' ▸ rfl

theorem Accounted.initVhosts {chain : List ℕ} (h : Accounted f asked st)
    (hrunning : st.running = true) (hinit : initVhosts f good chain st = .ok st') :
    Accounted f asked st' ∧ Kept st st' ∧ ∀ i ∈ chain, Ready f st' i := by
  induction chain generalizing st with
  | nil =>
      obtain rfl := Except.ok.inj hinit
      exact ⟨h, .refl _, by simp⟩
  | cons i chain ih =>
      obtain ⟨st₁, hst₁, hrest⟩ := bind_eq_ok hinit
      obtain ⟨h₁, hkept₁, hready₁⟩ := h.initVhost hrunning hst₁
      obtain ⟨h', hkept, hready⟩ := ih h₁ (hkept₁.running.trans hrunning) hrest
      refine ⟨h', hkept₁.trans hkept, fun j hj => ?_⟩
      obtain rfl | hj := List.mem_cons.mp hj
      · exact hready₁.kept hkept
      · exact hready j hj

/-- The base server starts, with what was put aside for it. -/
theorem Accounted.startup (h : Accounted f asked st) (hidle : st.running = false)
    (hphase : st.phase ≠ .started) (hstart : Loading.startup good none st.base st = .ok st') :
    Accounted f asked st' ∧ st'.running = true ∧ st'.phase = st.phase ∧
      st'.vhosts = st.vhosts ∧
      ∀ s, (st'.own s).map SrvLoads.flags = (st.own s).map SrvLoads.flags := by
  obtain ⟨hmips, hperls, hloads, hpools⟩ := h.idle hidle
  rw [Loading.startup, if_neg (by rw [hidle]; exact Bool.false_ne_true)] at hstart
  obtain ⟨st₁, hst₁, hst'⟩ := bind_eq_ok hstart
  rw [if_pos rfl] at hst'
  obtain rfl := Except.ok.inj hst'
  have heq := applyAll_ok hst₁
  have hrunning : st₁.running = true := by rw [heq]; rfl
  have hphase' : st₁.phase = st.phase := by rw [heq]; rfl
  have hvhosts : st₁.vhosts = st.vhosts := by rw [heq]; rfl
  have hmips' : st₁.mips = [0] := by rw [heq]; simp [interpInit, hmips, hperls]
  have hperls' : st₁.perls = 1 := by rw [heq]; simp [interpInit, hperls]
  have hloads' : st₁.loads = pending st.base 0 none := by
    rw [heq]
    simp [interpInit, hloads, hperls]
  have hown : ∀ s, st₁.own s =
      if none = s then some { st.base with mip := some 0 } else st.own s := by
    intro s
    rw [heq]
    cases s <;> simp [interpInit, own, setOwn, hmips]
  have hvhost : ∀ i c, st₁.own (some i) = some c → st.own (some i) = some c := by
    intro i c hc
    rwa [hown, if_neg (by rintro ⟨⟩)] at hc
  have hbase := h.waiting none st.base rfl (hpools none st.base rfl)
  have hloaded : ∀ s kind, st₁.loadedFor s kind =
      if none = s then st.base.queue kind else [] := by
    intro s kind
    rw [loadedFor, hloads']
    split_ifs with hs
    · rw [← hs, loadedIn_pending]
    · exact loadedIn_eq_nil fun l hl hserver => hs ((server_pending hl).1.symm.trans hserver)
  have hnothing : ∀ s kind, st.loadedFor s kind = [] := by
    intro s kind
    rw [loadedFor, hloads]
    rfl
  refine ⟨⟨?_, ?_, ?_, ?_, ?_, ?_, ?_, ?_, ?_, ?_, ?_⟩, hrunning, hphase', hvhosts, fun s => ?_⟩
  · intro _
    rw [hmips', hperls']
    have hmip := hown none
    rw [if_pos rfl] at hmip
    exact ⟨congrArg SrvLoads.mip (Option.some.inj hmip), rfl, Nat.one_pos⟩
  · intro hidle'
    rw [hrunning] at hidle'
    cases hidle'
  · intro p hp
    rw [hmips', List.mem_singleton] at hp
    rw [hp, hperls']
    exact Nat.one_pos
  · intro s c m hc hm
    rw [hown] at hc
    split_ifs at hc with hs
    · obtain rfl := Option.some.inj hc
      obtain rfl := Option.some.inj hm
      rw [hmips']
      exact Nat.one_pos
    · rw [hpools s c hc] at hm
      cases hm
  · intro i j c d m n p hc hm
    rw [hpools _ c (hvhost i c hc)] at hm
    cases hm
  · intro l hl
    rw [hloads'] at hl
    obtain ⟨hserver, hperl⟩ := server_pending hl
    rw [hserver, hperl, perlOf, mipOf, hown, if_pos rfl, hmips']
    rfl
  · intro s c hc hmip kind
    rw [hown] at hc
    split_ifs at hc with hs
    · obtain rfl := Option.some.inj hc
      cases hmip
    · rw [hloaded, if_neg hs]
      exact ⟨(h.waiting s c hc hmip kind).1, rfl⟩
  · intro s c m hc hm
    rw [hown] at hc
    split_ifs at hc with hs
    · subst hs
      refine .inl fun kind => ?_
      rw [hloaded, if_pos rfl, (hbase kind).1]
    · rw [hpools s c hc] at hm
      cases hm
  · intro s hs
    rw [hown] at hs
    split_ifs at hs with hne
    have hshared := h.shared s hs
    simp only [hnothing] at hshared
    simpa only [hloaded, if_neg hne, hphase'] using hshared
  · intro hstarted
    exact absurd (hphase'.symm.trans hstarted) hphase
  · intro s c hc
    rw [hown] at hc
    split_ifs at hc with hs
    · obtain rfl := Option.some.inj hc
      exact h.removed none st.base rfl
    · exact h.removed s c hc
  · rw [hown]
    split_ifs with hs
    · rw [← hs]
      rfl
    · rfl

theorem mem_chain : i ∈ st.chain ↔ i < st.vhosts.length := by
  simp [chain]

/-- `mod_perl` starts, with all the servers that there are. -/
theorem Accounted.run (h : Accounted f asked st) (hphase : st.phase ≠ .started)
    (hrun : st.run f good = .ok st') :
    Accounted f asked st' ∧ st'.running = true ∧ st'.phase = st.phase ∧
      st'.vhosts.length = st.vhosts.length ∧
      (∀ s, (st'.own s).map SrvLoads.flags = (st.own s).map SrvLoads.flags) ∧
      ((st.running = true → ∀ i, Ready f st i) → ∀ i, Ready f st' i) := by
  rw [Loading.run] at hrun
  cases hrunning : st.running with
  | true =>
      rw [hrunning, if_pos rfl] at hrun
      obtain rfl := Except.ok.inj hrun
      exact ⟨h, hrunning, rfl, rfl, fun _ => rfl, fun hready => hready rfl⟩
  | false =>
      rw [hrunning, if_neg Bool.false_ne_true] at hrun
      obtain ⟨st₁, hst₁, hrest⟩ := bind_eq_ok hrun
      obtain ⟨h₁, hrunning₁, hphase₁, hvhosts₁, hflags₁⟩ := h.startup hrunning hphase hst₁
      obtain ⟨h', hkept, hready⟩ := h₁.initVhosts hrunning₁ hrest
      refine ⟨h', hkept.running.trans hrunning₁, hkept.phase.trans hphase₁,
        hkept.length.trans (by rw [hvhosts₁]), fun s => ?_, fun _ i => ?_⟩
      · rw [hkept.flags, hflags₁]
      · by_cases hi : i < st₁.vhosts.length
        · exact hready i (mem_chain.mpr hi)
        · intro c hc
          exact absurd (hkept.length ▸ lt_length_of_own hc i rfl) hi

/-- A config is replaced. -/
theorem Accounted.update {asked' : Option ℕ → LoadKind → List Bytes} {c' : SrvLoads}
    (h : Accounted f asked st) (hs : ∀ i ∈ s, i < st.vhosts.length)
    (hbase : s = none → c'.mip = st.base.mip)
    (hother : ∀ s', s ≠ s' → ∀ kind, asked' s' kind = asked s' kind)
    (hpool : ∀ m, c'.mip = some m → st.running = true ∧ m < st.mips.length)
    (hsingle : ∀ m, c'.mip = some m → ∀ j d n p, s ≠ some j → st.own (some j) = some d →
      d.mip = some n → st.mips[m]? = some p → st.mips[n]? = some p → p = 0)
    (hperl : ∀ l ∈ st.loads, l.server = s → (c'.mip.bind fun m => st.mips[m]?) = some l.perl)
    (hwaiting : c'.mip = none → ∀ kind, asked' s kind = c'.queue kind ∧ st.loadedFor s kind = [])
    (hloaded : ∀ m, c'.mip = some m → (∀ kind, st.loadedFor s kind = asked' s kind) ∨
      st.phase ≠ .reading ∧ s ≠ none ∧ enabled f c' = false)
    (hready : st.phase = .started → enabled f c' = true → c'.mip.isSome)
    (hremoved : Removed c') : Accounted f asked' (st.setOwn s c') := by
  have hown : ∀ s', (st.setOwn s c').own s' = if s = s' then some c' else st.own s' :=
    fun s' => own_setOwn hs
  have hmip : (st.setOwn s c').base.mip = st.base.mip := by
    cases s with
    | none => exact hbase rfl
    | some i => rfl
  have hmipOf : ∀ s', s ≠ s' → (st.setOwn s c').mipOf s' = st.mipOf s' := by
    intro s' hs'
    rw [mipOf, mipOf, hown, if_neg hs']
    cases st.own s' with
    | none => exact hmip
    | some d => rfl
  have hfor : ∀ s', (st.setOwn s c').loadedFor s' = st.loadedFor s' := fun s' => by
    rw [loadedFor, loadedFor, setOwn_loads]
  refine ⟨?_, ?_, ?_, ?_, ?_, ?_, ?_, ?_, ?_, ?_, ?_⟩
  · rw [setOwn_running, setOwn_mips, setOwn_perls, hmip]
    exact h.based
  · rw [setOwn_running, setOwn_mips, setOwn_perls, setOwn_loads]
    intro hidle
    obtain ⟨hmips, hperls, hloads, hpools⟩ := h.idle hidle
    refine ⟨hmips, hperls, hloads, fun s' d hd => ?_⟩
    rw [hown] at hd
    split_ifs at hd
    · obtain rfl := Option.some.inj hd
      rw [Option.eq_none_iff_forall_ne_some]
      intro m hm
      rw [hidle] at hpool
      cases (hpool m hm).1
    · exact hpools s' d hd
  · rw [setOwn_mips, setOwn_perls]
    exact h.below
  · intro s' d m hd hm
    rw [hown] at hd
    rw [setOwn_mips]
    split_ifs at hd
    · obtain rfl := Option.some.inj hd
      exact (hpool m hm).2
    · exact h.pools s' d m hd hm
  · intro i j d e m n p hd hm he hn hp hp'
    rw [setOwn_mips] at hp hp'
    rw [hown] at hd he
    split_ifs at hd he with hi hj hj
    · exact .inr (Option.some.inj (hi.symm.trans hj))
    · obtain rfl := Option.some.inj hd
      exact .inl (hsingle m hm j e n p hj he hn hp hp')
    · obtain rfl := Option.some.inj he
      exact .inl (hsingle n hn i d m p hi hd hm hp' hp)
    · exact h.single i j d e m n p hd hm he hn hp hp'
  · intro l hl
    rw [setOwn_loads] at hl
    by_cases hserver : s = l.server
    · rw [perlOf, mipOf, hown, if_pos hserver, setOwn_mips]
      exact hperl l hl hserver.symm
    · rw [perlOf, hmipOf _ hserver, setOwn_mips]
      exact h.perl l hl
  · intro s' d hd hnone kind
    rw [hown] at hd
    rw [hfor]
    split_ifs at hd with hs'
    · obtain rfl := Option.some.inj hd
      subst hs'
      exact hwaiting hnone kind
    · rw [hother s' hs']
      exact h.waiting s' d hd hnone kind
  · intro s' d m hd hm
    rw [hown] at hd
    rw [hfor, setOwn_phase]
    split_ifs at hd with hs'
    · obtain rfl := Option.some.inj hd
      subst hs'
      exact hloaded m hm
    · simp only [hother s' hs']
      exact h.loaded s' d m hd hm
  · intro s' hnone
    rw [hown] at hnone
    split_ifs at hnone with hs'
    simp only [hfor, setOwn_phase, hother s' hs']
    exact h.shared s' hnone
  · rw [setOwn_phase, setOwn_running]
    intro hstarted
    refine ⟨(h.ready hstarted).1, fun i d hd henabled => ?_⟩
    rw [hown] at hd
    split_ifs at hd
    · obtain rfl := Option.some.inj hd
      exact hready hstarted henabled
    · exact (h.ready hstarted).2 i d hd henabled
  · intro s' d hd
    rw [hown] at hd
    split_ifs at hd
    · obtain rfl := Option.some.inj hd
      exact hremoved
    · exact h.removed s' d hd

/-- A directive more. -/
def addAsked (asked : Option ℕ → LoadKind → List Bytes) (s : Option ℕ) (kind : LoadKind)
    (name : Bytes) : Option ℕ → LoadKind → List Bytes :=
  fun s' kind' => asked s' kind' ++ if s = s' ∧ kind = kind' then [name] else []

theorem addAsked_of_ne {name : Bytes} (hs : s ≠ s') {kind' : LoadKind} :
    addAsked asked s kind name s' kind' = asked s' kind' := by
  rw [addAsked, if_neg fun h => hs h.1, List.append_nil]

theorem Accounted.running_of_mip {m : ℕ} (h : Accounted f asked st) (hown : st.own s = some c)
    (hm : c.mip = some m) : st.running = true := by
  by_contra hidle
  rw [(h.idle (Bool.not_eq_true _ ▸ hidle)).2.2.2 s c hown] at hm
  cases hm

/-- Two pools of one parent interpreter, unless they are of one server. -/
theorem Accounted.parent_eq_zero {m n p : ℕ} {c' : SrvLoads} (h : Accounted f asked st)
    (hown : st.own s = some c) (hm : c.mip = some m) (hown' : st.own s' = some c')
    (hn : c'.mip = some n) (hp : st.mips[m]? = some p) (hp' : st.mips[n]? = some p)
    (hne : s ≠ s') : p = 0 := by
  obtain ⟨hmip, hzero, -⟩ := h.based (h.running_of_mip hown hm)
  cases s with
  | none =>
      obtain rfl := Option.some.inj hown
      obtain rfl := Option.some.inj (hmip.symm.trans hm)
      exact Option.some.inj (hp.symm.trans hzero)
  | some i =>
      cases s' with
      | none =>
          obtain rfl := Option.some.inj hown'
          obtain rfl := Option.some.inj (hmip.symm.trans hn)
          exact Option.some.inj (hp'.symm.trans hzero)
      | some j =>
          exact (h.single i j c c' m n p hown hm hown' hn hp hp').resolve_right
            fun hij => hne (congrArg some hij)

/-- While the configuration is read, the config of a server changes in its lists and flags. -/
theorem Accounted.edit {asked' : Option ℕ → LoadKind → List Bytes} {c' : SrvLoads}
    (h : Accounted f asked st) (hphase : st.phase = .reading) (hown : st.own s = some c)
    (hmip : c'.mip = c.mip) (hother : ∀ s', s ≠ s' → ∀ kind, asked' s' kind = asked s' kind)
    (hself : c.mip = none → ∀ kind, asked' s kind = c'.queue kind)
    (hsame : c.mip ≠ none → ∀ kind, asked' s kind = asked s kind) (hremoved : Removed c') :
    Accounted f asked' (st.setOwn s c') := by
  refine h.update (lt_length_of_own hown) ?_ hother ?_ ?_ ?_ ?_ ?_ ?_ hremoved
  · rintro rfl
    rw [hmip, ← Option.some.inj hown]
  · intro m hm
    rw [hmip] at hm
    exact ⟨h.running_of_mip hown hm, h.pools s c m hown hm⟩
  · intro m hm j d n p hj hd hn hp hp'
    rw [hmip] at hm
    exact h.parent_eq_zero hown hm hd hn hp hp' hj
  · rintro l hl rfl
    have hperl := h.perl l hl
    rwa [perlOf, mipOf, hown, Option.getD_some, ← hmip] at hperl
  · intro hnone kind
    rw [hmip] at hnone
    exact ⟨hself hnone kind, (h.waiting s c hown hnone kind).2⟩
  · intro m hm
    rw [hmip] at hm
    simp only [hsame (by rw [hm]; exact Option.some_ne_none m)]
    exact (h.loaded s c m hown hm).imp_right fun hphase' => absurd hphase hphase'.1
  · intro hstarted
    rw [hphase] at hstarted
    cases hstarted

/-- The first directive for a host makes a config. -/
theorem Accounted.srvConfig (h : Accounted f asked st) (hs : ∀ i ∈ s, i < st.vhosts.length) :
    Accounted f asked (st.srvConfig f s) := by
  rw [Loading.srvConfig]
  split_ifs with hnew
  · obtain ⟨hphase, hnone⟩ := hnew
    obtain ⟨hloaded, hasked⟩ := h.shared s hnone
    have hasked := hasked hphase
    have hnothing : ∀ kind, st.loadedFor s kind = [] := fun kind => by rw [hloaded, hasked]
    refine h.update hs ?_ (fun _ _ _ => rfl) ?_ ?_ ?_ ?_ ?_ ?_ removed_srvCreate
    · rintro rfl
      cases hnone
    · rintro m ⟨⟩
    · rintro m ⟨⟩
    · intro l hl hserver
      exact absurd hserver (not_server_of_loadedFor hnothing hl)
    · intro _ kind
      refine ⟨?_, hnothing kind⟩
      rw [hasked]
      cases kind <;> rfl
    · rintro m ⟨⟩
    · intro hstarted
      rw [hphase] at hstarted
      cases hstarted
  · exact h

/-- A merge with the config of the base server. -/
theorem Accounted.merge {add : SrvLoads} (h : Accounted f asked st) (hphase : st.phase = .fixed)
    (hown : st.own (some i) = some add) (hready : st.running = true → Ready f st i) :
    Accounted f asked (st.setOwn (some i) { add with
      flags := optionsMerge st.base.flags add.flags
      mip := add.mip <|> st.base.mip }) := by
  have hremoved := h.removed (some i) add hown
  have hmerged := (h.removed none st.base rfl).merge hremoved (add.mip <|> st.base.mip)
  have hlt := lt_length_of_own hown
  have hnotStarted : st.phase ≠ .started := by simp [hphase]
  cases hmip : add.mip with
  | some m₀ =>
      have heq : (some m₀ <|> st.base.mip) = some m₀ := rfl
      rw [hmip, heq] at hmerged
      rw [heq]
      refine h.update hlt (by rintro ⟨⟩) (fun _ _ _ => rfl) ?_ ?_ ?_ (by rintro ⟨⟩) ?_
        (fun hstarted => absurd hstarted hnotStarted) hmerged
      · rintro m ⟨⟩
        exact ⟨h.running_of_mip hown hmip, h.pools _ add m₀ hown hmip⟩
      · rintro m ⟨⟩ j d n p hj hd hn hp hp'
        exact h.parent_eq_zero hown hmip hd hn hp hp' hj
      · intro l hl hserver
        have hperl := h.perl l hl
        rwa [hserver, perlOf, mipOf, hown, Option.getD_some, hmip] at hperl
      · rintro m ⟨⟩
        exact (h.loaded _ add m₀ hown hmip).imp_right fun ⟨hread, hne, hdisabled⟩ =>
          ⟨hread, hne, hremoved.disabled_merge hdisabled _⟩
  | none =>
      have hwaiting := h.waiting _ add hown hmip
      have hnothing : ∀ kind, st.loadedFor (some i) kind = [] := fun kind => (hwaiting kind).2
      cases hrunning : st.running with
      | false =>
          have heq : (none <|> st.base.mip) = none := (h.idle hrunning).2.2.2 none st.base rfl
          rw [hmip, heq] at hmerged
          rw [heq]
          refine h.update hlt (by rintro ⟨⟩) (fun _ _ _ => rfl) (by rintro m ⟨⟩) (by rintro m ⟨⟩)
            (fun l hl hserver => absurd hserver (not_server_of_loadedFor hnothing hl)) ?_
            (by rintro m ⟨⟩) (fun hstarted => absurd hstarted hnotStarted) hmerged
          rintro - kind
          exact ⟨(hwaiting kind).1.trans (by cases kind <;> rfl), hnothing kind⟩
      | true =>
          -- the host is disabled, and gets the pool of the base server all the same
          obtain ⟨hbase, hzero, -⟩ := h.based hrunning
          have heq : (none <|> st.base.mip) = some 0 := hbase
          have hdisabled : enabled f add = false := by
            rw [← Bool.not_eq_true]
            intro henabled
            have hsome := hready hrunning add hown henabled
            rw [hmip] at hsome
            cases hsome
          rw [hmip, heq] at hmerged
          rw [heq]
          refine h.update hlt (by rintro ⟨⟩) (fun _ _ _ => rfl) ?_ ?_
            (fun l hl hserver => absurd hserver (not_server_of_loadedFor hnothing hl))
            (by rintro ⟨⟩) ?_ (fun hstarted => absurd hstarted hnotStarted) hmerged
          · rintro m ⟨⟩
            exact ⟨hrunning, (List.getElem?_eq_some_iff.mp hzero).1⟩
          · rintro m ⟨⟩ j d n p - - - hp -
            exact Option.some.inj (hp.symm.trans hzero)
          · rintro m -
            refine .inr ⟨by simp [hphase], by simp, hremoved.disabled_merge hdisabled _⟩

/-- Something is loaded at once. -/
theorem Accounted.requires {name : Bytes} (h : Accounted f asked st)
    (hperl : st.perlOf s = some perl) (hnone : st.own s = none → st.phase ≠ .reading) :
    Accounted f (addAsked asked s kind name)
      { st with loads := st.loads ++ [⟨perl, s, kind, name⟩] } := by
  obtain ⟨m, hm, hparent⟩ := Option.bind_eq_some_iff.mp hperl
  have hloaded : ∀ s' kind', ({ st with loads := st.loads ++ [⟨perl, s, kind, name⟩] } :
      Loading).loadedFor s' kind' =
        st.loadedFor s' kind' ++ if s = s' ∧ kind = kind' then [name] else [] := by
    intro s' kind'
    rw [loadedFor, loadedIn_append, ← loadedFor]
    by_cases hkey : s = s' ∧ kind = kind' <;> simp [loadedIn, hkey]
  refine ⟨h.based, ?_, h.below, h.pools, h.single, ?_, ?_, ?_, ?_, h.ready, h.removed⟩
  · intro hidle
    rw [(h.idle hidle).1] at hparent
    cases hparent
  · intro l hl
    obtain hl | hl := List.mem_append.mp hl
    · exact h.perl l hl
    · rw [List.mem_singleton.mp hl]
      exact hperl
  · intro s' c hc hmip kind'
    have hs : s ≠ s' := by
      rintro rfl
      have hc : st.own s = some c := hc
      rw [mipOf, hc, Option.getD_some, hmip] at hm
      cases hm
    rw [hloaded, addAsked_of_ne hs, if_neg fun hkey => hs hkey.1, List.append_nil]
    exact h.waiting s' c hc hmip kind'
  · intro s' c n hc hn
    refine (h.loaded s' c n hc hn).imp_left fun hall kind' => ?_
    rw [hloaded, hall, addAsked]
  · intro s' hs'
    have hs' : st.own s' = none := hs'
    obtain ⟨hall, hasked⟩ := h.shared s' hs'
    refine ⟨fun kind' => by rw [hloaded, hall, addAsked], fun hreading kind' => ?_⟩
    have hs : s ≠ s' := by
      rintro rfl
      exact hnone hs' hreading
    rw [addAsked_of_ne hs]
    exact hasked hreading kind'

theorem Accounted.cmdLoad {name : Bytes} (h : Accounted f asked st) (hphase : st.phase ≠ .fixed)
    (hnone : st.own s = none → st.phase = .started)
    (hcmd : st.cmdLoad f good s kind name = .ok st') :
    Accounted f (addAsked asked s kind name) st' ∧ st'.phase = st.phase := by
  rw [Loading.cmdLoad] at hcmd
  cases hrunning : st.running with
  | true =>
      rw [hrunning, if_pos rfl] at hcmd
      obtain ⟨st₁, hst₁, hrest⟩ := bind_eq_ok hcmd
      obtain ⟨h₁, hkept⟩ : Accounted f asked st₁ ∧ Kept st st₁ := by
        cases s with
        | none =>
            obtain rfl := Except.ok.inj hst₁
            exact ⟨h, .refl _⟩
        | some i =>
            obtain ⟨h₁, hkept, -⟩ := h.initVhost hrunning hst₁
            exact ⟨h₁, hkept⟩
      cases hperl : st₁.perlOf s with
      | none =>
          simp only [hperl] at hrest
          cases hrest
      | some perl =>
          simp only [hperl, Loading.requires] at hrest
          obtain rfl := ite_eq_ok hrest
          refine ⟨h₁.requires hperl fun hs => ?_, hkept.phase⟩
          have hs' : st.own s = none := by
            by_contra hne
            obtain ⟨c, hc⟩ := Option.ne_none_iff_exists'.mp hne
            obtain ⟨mip, hmip, -⟩ := hkept.own s c hc
            rw [hs] at hmip
            cases hmip
          rw [hkept.phase, hnone hs']
          simp
  | false =>
      rw [hrunning, if_neg Bool.false_ne_true] at hcmd
      have hreading : st.phase = .reading := by
        cases hread : st.phase with
        | reading => rfl
        | fixed => exact absurd hread hphase
        | started =>
            have hrun := (h.ready hread).1
            rw [hrunning] at hrun
            cases hrun
      cases hown : st.own s with
      | none =>
          have hstarted := hnone hown
          rw [hreading] at hstarted
          cases hstarted
      | some c =>
          simp only [hown] at hcmd
          obtain rfl := Except.ok.inj hcmd
          have hmip := (h.idle hrunning).2.2.2 s c hown
          refine ⟨h.edit hreading hown (by cases kind <;> rfl)
            (fun s' hs kind' => addAsked_of_ne hs) (fun _ kind' => ?_)
            (fun hne => absurd hmip hne) ?_, setOwn_phase⟩
          · rw [addAsked, (h.waiting s c hown hmip kind').1]
            cases kind <;> cases kind' <;> simp [SrvLoads.push, SrvLoads.queue]
          · cases kind <;> exact h.removed s c hown

theorem Accounted.cmdOptions {arg : Bytes} (h : Accounted f asked st)
    (hphase : st.phase = .reading) (hcmd : st.cmdOptions f s arg = .ok st') :
    Accounted f asked st' ∧ st'.phase = st.phase := by
  rw [Loading.cmdOptions] at hcmd
  cases hown : st.own s with
  | none =>
      simp only [hown] at hcmd
      obtain rfl := Except.ok.inj hcmd
      exact ⟨h, rfl⟩
  | some c =>
      simp only [hown] at hcmd
      cases hset : f.optionsSet c.flags arg with
      | ok flags =>
          simp only [hset] at hcmd
          obtain rfl := Except.ok.inj hcmd
          refine ⟨h.edit hphase hown rfl (fun _ _ _ => rfl) (fun hmip kind => ?_)
            (fun _ _ => rfl) ((h.removed s c hown).set hset), setOwn_phase⟩
          rw [(h.waiting s c hown hmip kind).1]
          cases kind <;> rfl
      | error e =>
          simp only [hset] at hcmd
          cases hdir : f.optionsSet (f.optionsStart .dir) arg with
          | ok flags =>
              simp only [hdir] at hcmd
              obtain rfl := Except.ok.inj hcmd
              exact ⟨h, rfl⟩
          | error e' =>
              simp only [hdir] at hcmd
              cases hcmd

theorem Accounted.cmdPerl (h : Accounted f asked st) (hrunning : st.running = true)
    (hcmd : st.cmdPerl f good s = .ok st') : Accounted f asked st' ∧ st'.phase = st.phase := by
  obtain ⟨st₁, hst₁, hrest⟩ := bind_eq_ok hcmd
  split_ifs at hrest
  obtain rfl := Except.ok.inj hrest
  cases s with
  | none =>
      obtain rfl := Except.ok.inj hst₁
      exact ⟨h, rfl⟩
  | some i =>
      obtain ⟨h₁, hkept, -⟩ := h.initVhost hrunning hst₁
      exact ⟨h₁, hkept.phase⟩

theorem Accounted.srvMerge (h : Accounted f asked st) (hphase : st.phase = .fixed)
    (hmerge : st.srvMerge f good i = .ok st') :
    Accounted f asked st' ∧ st'.phase = .fixed ∧ st'.running = st.running ∧
      st'.vhosts.length = st.vhosts.length ∧ (st.running = true → Ready f st' i) ∧
      ∀ j, Ready f st j → Ready f st' j := by
  obtain ⟨st₁, hst₁, rfl⟩ := map_eq_ok hmerge
  obtain ⟨h₁, hkept, hready⟩ : Accounted f asked st₁ ∧ Kept st st₁ ∧
      (st.running = true → Ready f st₁ i) := by
    split_ifs at hst₁ with hinit
    · obtain ⟨h₁, hkept, hready⟩ := h.initVhost (Bool.and_eq_true_iff.mp hinit).1 hst₁
      exact ⟨h₁, hkept, fun _ => hready⟩
    · obtain rfl := Except.ok.inj hst₁
      refine ⟨h, .refl _, fun hrunning c hc _ => ?_⟩
      rw [hrunning, hc] at hinit
      exact absurd rfl hinit
  have hphase₁ := hkept.phase.trans hphase
  cases hown : st₁.own (some i) with
  | none =>
      exact ⟨h₁, hphase₁, hkept.running, hkept.length, hready, fun j hj => hj.kept hkept⟩
  | some add =>
      have hmerged := h₁.merge hphase₁ hown fun hrunning => hready (hkept.running ▸ hrunning)
      refine ⟨hmerged, setOwn_phase.trans hphase₁, setOwn_running.trans hkept.running,
        setOwn_length.trans hkept.length, fun hrunning c hc _ => ?_, fun j hj c hc henabled => ?_⟩
      · rw [own_setOwn (lt_length_of_own hown), if_pos rfl] at hc
        rw [← Option.some.inj hc]
        obtain ⟨hbase, -⟩ := h₁.based (hkept.running.trans hrunning)
        cases add.mip <;> simp [hbase]
      · rw [own_setOwn (lt_length_of_own hown)] at hc
        split_ifs at hc with hij
        · obtain rfl := Option.some.inj hij
          obtain rfl := Option.some.inj hc
          -- it is enabled now, so it was before
          have hbefore : enabled f add = true := by
            by_contra hdisabled
            rw [(h₁.removed _ add hown).disabled_merge (Bool.not_eq_true _ ▸ hdisabled)] at henabled
            cases henabled
          have hsome := hj.kept hkept add hown hbefore
          obtain ⟨m, hm⟩ := Option.isSome_iff_exists.mp hsome
          simp [hm]
        · exact hj.kept hkept c hc henabled

theorem Accounted.srvMerges {chain : List ℕ} (h : Accounted f asked st)
    (hphase : st.phase = .fixed) (hmerge : srvMerges f good chain st = .ok st') :
    Accounted f asked st' ∧ st'.phase = .fixed ∧ st'.running = st.running ∧
      st'.vhosts.length = st.vhosts.length ∧
      (st.running = true → ∀ i ∈ chain, Ready f st' i) ∧ ∀ j, Ready f st j → Ready f st' j := by
  induction chain generalizing st with
  | nil =>
      obtain rfl := Except.ok.inj hmerge
      exact ⟨h, hphase, rfl, rfl, by simp, fun _ hj => hj⟩
  | cons i chain ih =>
      obtain ⟨st₁, hst₁, hrest⟩ := bind_eq_ok hmerge
      obtain ⟨h₁, hphase₁, hrunning₁, hlength₁, hready₁, hkeep₁⟩ := h.srvMerge hphase hst₁
      obtain ⟨h', hphase', hrunning', hlength', hready', hkeep'⟩ := ih h₁ hphase₁ hrest
      refine ⟨h', hphase', hrunning'.trans hrunning₁, hlength'.trans hlength₁, ?_,
        fun j hj => hkeep' j (hkeep₁ j hj)⟩
      intro hrunning j hj
      obtain rfl | hj := List.mem_cons.mp hj
      · exact hkeep' _ (hready₁ hrunning)
      · exact hready' (hrunning₁.trans hrunning) j hj

/-! ## Runs -/

/-- What a directive asks for. -/
def askOf : LoadDirective → Option (LoadKind × Bytes)
  | .perlModule name | .perlLoadModule name => some (.perlModule, name)
  | .perlRequire name | .perlConfigRequire name => some (.perlRequire, name)
  | .perl | .perlOptions _ | .other => none

/-- What the directives for a server ask for, of one of the lists. -/
def asks (events : List ServerEvent) (s : Option ℕ) (kind : LoadKind) : List Bytes :=
  events.flatMap fun
    | .directive s' d => ((askOf d).filter fun ask => s' = s ∧ ask.1 = kind).toList.map Prod.snd
    | _ => []

theorem asks_singleton {e : ServerEvent} : asks [e] = fun s kind =>
    match e with
    | .directive s' d => ((askOf d).filter fun ask => s' = s ∧ ask.1 = kind).toList.map Prod.snd
    | _ => [] := by
  funext s kind
  simp [asks]

/-- Between the merge of the configs and the end of the startup, the hosts that are enabled
have their pools if `mod_perl` runs. -/
structure Sound (f : HookOrder) (asked : Option ℕ → LoadKind → List Bytes) (st : Loading) :
    Prop where
  accounted : Accounted f asked st
  fixed : st.phase = .fixed → st.running = true → ∀ i, Ready f st i

theorem Sound.start : Sound f (fun _ _ => []) (start f) := by
  have hown : ∀ s c, (Loading.start f).own s = some c → c = srvCreate f := by
    intro s c hc
    cases s with
    | none => exact (Option.some.inj hc).symm
    | some i => cases hc
  refine ⟨⟨?_, ?_, ?_, ?_, ?_, ?_, ?_, ?_, ?_, ?_, ?_⟩, fun hfixed => by cases hfixed⟩
  · rintro ⟨⟩
  · exact fun _ => ⟨rfl, rfl, rfl, fun s c hc => hown s c hc ▸ rfl⟩
  · rintro p ⟨⟩
  · intro s c m hc hm
    rw [hown s c hc] at hm
    cases hm
  · intro i j c d m n p hc hm
    rw [hown _ c hc] at hm
    cases hm
  · rintro l ⟨⟩
  · intro s c hc _ kind
    rw [hown s c hc]
    exact ⟨by cases kind <;> rfl, rfl⟩
  · intro s c m hc hm
    rw [hown s c hc] at hm
    cases hm
  · exact fun _ _ => ⟨fun _ => rfl, fun _ _ => rfl⟩
  · rintro ⟨⟩
  · intro s c hc
    rw [hown s c hc]
    exact removed_srvCreate

theorem phase_srvConfig : (st.srvConfig f s).phase = st.phase := by
  rw [srvConfig]
  split_ifs
  · exact setOwn_phase
  · rfl

theorem own_srvConfig (hs : ∀ i ∈ s, i < st.vhosts.length)
    (hnone : (st.srvConfig f s).own s = none) : st.phase ≠ .reading := by
  rw [srvConfig] at hnone
  split_ifs at hnone with hnew
  · rw [own_setOwn hs, if_pos rfl] at hnone
    cases hnone
  · exact fun hreading => hnew ⟨hreading, hnone⟩

theorem addAsked_eq {name : Bytes} : addAsked asked s kind name = fun s' kind' =>
    asked s' kind' ++
      ((some (kind, name)).filter fun ask => s = s' ∧ ask.1 = kind').toList.map Prod.snd := by
  funext s' kind'
  rw [addAsked]
  by_cases hkey : s = s' ∧ kind = kind' <;> simp [Option.filter, hkey]

theorem Sound.cmd {d : LoadDirective} (h : Sound f asked st)
    (hlegal : Legal st (.directive s d)) (hcmd : (st.srvConfig f s).cmd f good s d = .ok st') :
    Accounted f (fun s' kind' => asked s' kind' ++
      ((askOf d).filter fun ask => s = s' ∧ ask.1 = kind').toList.map Prod.snd) st' ∧
      st'.phase = st.phase := by
  obtain ⟨hs, hphase⟩ := hlegal
  have hconfig := h.accounted.srvConfig hs
  have hnothing : (fun s' kind' => asked s' kind' ++ ((none : Option (LoadKind × Bytes)).filter
      fun ask => s = s' ∧ ask.1 = kind').toList.map Prod.snd) = asked := by
    funext s' kind'
    simp
  have hstarted : st.phase ≠ .fixed → (st.srvConfig f s).own s = none →
      (st.srvConfig f s).phase = .started := by
    intro hfixed hnone
    have hreading := own_srvConfig hs hnone
    rw [phase_srvConfig]
    cases hread : st.phase with
    | reading => exact absurd hread hreading
    | fixed => exact absurd hread hfixed
    | started => rfl
  -- a directive that needs Perl is run in a server that reads its configuration
  have hload : ∀ {st₁ : Loading} {kind : LoadKind} {name : Bytes}, st.phase = .reading →
      (st.srvConfig f s).run f good = .ok st₁ → st₁.cmdLoad f good s kind name = .ok st' →
      Accounted f (addAsked asked s kind name) st' ∧ st'.phase = st.phase := by
    intro st₁ kind name hreading hrun hcmd
    have hphase₀ : (st.srvConfig f s).phase = .reading := phase_srvConfig.trans hreading
    obtain ⟨h₁, -, hphase₁, -, hflags, -⟩ := hconfig.run (by simp [hphase₀]) hrun
    have hown : st₁.own s = none → (st.srvConfig f s).own s = none := by
      intro hnone
      have hflags := hflags s
      rw [hnone] at hflags
      exact Option.map_eq_none_iff.mp hflags.symm
    obtain ⟨h', hphase'⟩ := h₁.cmdLoad (by simp [hphase₁, hphase₀])
      (fun hnone => absurd hreading (own_srvConfig hs (hown hnone))) hcmd
    exact ⟨h', hphase'.trans (hphase₁.trans phase_srvConfig)⟩
  cases d with
  | perlModule name =>
      obtain ⟨h', hphase'⟩ := hconfig.cmdLoad (by rw [phase_srvConfig]; exact hphase)
        (hstarted hphase) hcmd
      exact ⟨addAsked_eq ▸ h', hphase'.trans phase_srvConfig⟩
  | perlRequire name =>
      obtain ⟨h', hphase'⟩ := hconfig.cmdLoad (by rw [phase_srvConfig]; exact hphase)
        (hstarted hphase) hcmd
      exact ⟨addAsked_eq ▸ h', hphase'.trans phase_srvConfig⟩
  | perlConfigRequire name =>
      obtain ⟨st₁, hrun, hcmd⟩ := bind_eq_ok hcmd
      obtain ⟨h', hphase'⟩ := hload hphase hrun hcmd
      exact ⟨addAsked_eq ▸ h', hphase'⟩
  | perlLoadModule name =>
      obtain ⟨st₁, hrun, hcmd⟩ := bind_eq_ok hcmd
      obtain ⟨h', hphase'⟩ := hload hphase hrun hcmd
      exact ⟨addAsked_eq ▸ h', hphase'⟩
  | perl =>
      rw [askOf, hnothing]
      obtain ⟨st₁, hrun, hcmd⟩ := bind_eq_ok hcmd
      obtain ⟨h₁, hrunning₁, hphase₁⟩ : Accounted f asked st₁ ∧ st₁.running = true ∧
          st₁.phase = st.phase := by
        cases hread : st.phase with
        | reading =>
            have hphase₀ : (st.srvConfig f s).phase = .reading := phase_srvConfig.trans hread
            obtain ⟨h₁, hrunning₁, hphase₁, -⟩ := hconfig.run (by simp [hphase₀]) hrun
            exact ⟨h₁, hrunning₁, hphase₁.trans hphase₀⟩
        | fixed => exact absurd hread hphase
        | started =>
            have hrunning := (hconfig.ready (phase_srvConfig.trans hread)).1
            rw [Loading.run, if_pos hrunning] at hrun
            obtain rfl := Except.ok.inj hrun
            exact ⟨hconfig, hrunning, phase_srvConfig.trans hread⟩
      obtain ⟨h', hphase'⟩ := h₁.cmdPerl hrunning₁ hcmd
      exact ⟨h', hphase'.trans hphase₁⟩
  | perlOptions arg =>
      rw [askOf, hnothing]
      obtain ⟨h', hphase'⟩ := hconfig.cmdOptions (phase_srvConfig.trans hphase) hcmd
      exact ⟨h', hphase'.trans phase_srvConfig⟩
  | other =>
      rw [askOf, hnothing]
      obtain rfl := Except.ok.inj hcmd
      exact ⟨hconfig, phase_srvConfig⟩

theorem Accounted.setPhase {phase : ConfigPhase} (h : Accounted f asked st)
    (hphase : phase ≠ .reading)
    (hready : phase = .started → st.running = true ∧ ∀ i, Ready f st i) :
    Accounted f asked { st with phase := phase } where
  based := h.based
  idle := h.idle
  below := h.below
  pools := h.pools
  single := h.single
  perl := h.perl
  waiting := h.waiting
  loaded s c m hc hm := (h.loaded s c m hc hm).imp_right fun hdisabled => ⟨hphase, hdisabled.2⟩
  shared s hs := ⟨(h.shared s hs).1, fun hreading => absurd hreading hphase⟩
  ready := hready
  removed := h.removed

theorem Sound.step {e : ServerEvent} (h : Sound f asked st) (hlegal : Legal st e)
    (hstep : st.step f good e = .ok st') :
    Sound f (fun s kind => asked s kind ++ asks [e] s kind) st' := by
  rw [asks_singleton]
  cases e with
  | virtualHost =>
      obtain rfl := Except.ok.inj hstep
      have hown : ∀ s, ({ st with vhosts := st.vhosts ++ [none] } : Loading).own s = st.own s := by
        intro s
        cases s with
        | none => rfl
        | some i =>
            rw [own, own, List.getElem?_append]
            split_ifs with hi
            · rfl
            · rw [List.getElem?_eq_none (not_lt.mp hi)]
              cases i - st.vhosts.length <;> rfl
      simp only [List.append_nil]
      have hacc := h.accounted
      refine ⟨⟨hacc.based, ?_, hacc.below, ?_, ?_, ?_, ?_, ?_, ?_, ?_, ?_⟩, ?_⟩
      · simpa only [hown] using hacc.idle
      · simpa only [hown] using hacc.pools
      · simpa only [hown] using hacc.single
      · simpa only [perlOf, mipOf, hown] using hacc.perl
      · simpa only [hown, loadedFor] using hacc.waiting
      · simpa only [hown, loadedFor] using hacc.loaded
      · simpa only [hown, loadedFor] using hacc.shared
      · simpa only [hown] using hacc.ready
      · simpa only [hown] using hacc.removed
      · simpa only [Ready, hown] using h.fixed
  | directive s d =>
      obtain ⟨h', hphase'⟩ := h.cmd hlegal hstep
      refine ⟨h', fun hfixed => ?_⟩
      rw [hphase'] at hfixed
      have hphase := hlegal.2
      cases d <;> simp [hfixed] at hphase
  | fixup =>
      have hfixed : Accounted f asked { st with phase := .fixed } :=
        h.accounted.setPhase (by simp) (by rintro ⟨⟩)
      obtain ⟨h', hphase', hrunning', hlength', hready', -⟩ := hfixed.srvMerges rfl hstep
      simp only [List.append_nil]
      refine ⟨h', fun _ hrunning i c hc => ?_⟩
      have hi : i < st.vhosts.length := hlength' ▸ lt_length_of_own hc i rfl
      exact hready' (hrunning'.symm.trans hrunning) i (mem_chain.mpr hi) c hc
  | hookInit =>
      obtain ⟨st₁, hrun, rfl⟩ := map_eq_ok hstep
      have hphase : st.phase = .fixed := hlegal
      obtain ⟨h₁, hrunning₁, hphase₁, -, -, hready⟩ := h.accounted.run (by simp [hphase]) hrun
      simp only [List.append_nil]
      exact ⟨h₁.setPhase (by simp) fun _ => ⟨hrunning₁, hready (h.fixed hphase)⟩, by rintro ⟨⟩⟩

/-- A step of the server, if it does not stop. -/
def next (f : HookOrder) (good : List Load → Load → Bool) (st : Loading) (e : ServerEvent) :
    Option Loading := (st.step f good e).toOption

theorem Sound.run {events : List ServerEvent} (h : Sound f asked st)
    (hlegal : Machine.runOk (next f good) Legal st events)
    (hrun : Machine.run (next f good) st events = some st') :
    Sound f (fun s kind => asked s kind ++ asks events s kind) st' := by
  induction events generalizing st asked with
  | nil =>
      obtain rfl := Option.some.inj hrun
      simpa only [asks, List.flatMap_nil, List.append_nil] using h
  | cons e events ih =>
      obtain ⟨st₁, hst₁, hrest⟩ := Option.bind_eq_some_iff.mp hrun
      have hstep : st.step f good e = .ok st₁ := by
        rw [next] at hst₁
        cases hres : st.step f good e with
        | error stop => rw [hres] at hst₁; cases hst₁
        | ok st₂ => rw [hres] at hst₁; exact congrArg _ (Option.some.inj hst₁)
      have h' := ih (h.step hlegal.1 hstep) (hlegal.2 st₁ hst₁) hrest
      have hasks : ∀ s kind, asks (e :: events) s kind = asks [e] s kind ++ asks events s kind := by
        intro s kind
        simp [asks]
      simpa only [hasks, List.append_assoc] using h'

/-! ## Pools that are not there -/

/-- Nothing in the options of the server disables `mod_perl`. -/
def Enabled (f : HookOrder) (st : Loading) (s : Option ℕ) : Prop :=
  ∀ i c, s = some i → st.own s = some c → enabled f c = true

theorem Enabled.of_flags (h : Enabled f st s)
    (hflags : (st'.own s).map SrvLoads.flags = (st.own s).map SrvLoads.flags) :
    Enabled f st' s := by
  rintro i c rfl hc
  rw [hc, Option.map_some] at hflags
  obtain ⟨c', hc', hsame⟩ := Option.map_eq_some_iff.mp hflags.symm
  have henabled := h i c' rfl hc'
  rwa [enabled_eq, hsame, ← enabled_eq] at henabled

theorem initVhost_error {e : Stop} (hrunning : st.running = true)
    (hbase : (st.perlOf none).isSome) (h : initVhost f good s st = .error e) : e = .exit := by
  obtain ⟨basePerl, hbase⟩ := Option.isSome_iff_exists.mp hbase
  cases s with
  | none => cases h
  | some i =>
      unfold initVhost at h
      cases hown : st.own (some i) with
      | none =>
          simp only [hown] at h
          cases h
      | some c =>
          simp only [hown, hbase] at h
          split_ifs at h
          all_goals have h := map_eq_error h
          · rw [startup, if_pos hrunning] at h
            exact applyAll_error h
          · exact applyAll_error h
          · exact applyAll_error h

theorem Accounted.initVhosts_error {e : Stop} {chain : List ℕ} (h : Accounted f asked st)
    (hrunning : st.running = true) (hinit : Loading.initVhosts f good chain st = .error e) :
    e = .exit := by
  induction chain generalizing st with
  | nil => cases hinit
  | cons i chain ih =>
      obtain hinit | ⟨st₁, hst₁, hrest⟩ := bind_eq_error hinit
      · exact initVhost_error hrunning (by rw [h.perlOf_none hrunning]; rfl) hinit
      · obtain ⟨h₁, hkept, -⟩ := h.initVhost hrunning hst₁
        exact ih h₁ (hkept.running.trans hrunning) hrest

theorem Accounted.run_error {e : Stop} (h : Accounted f asked st) (hphase : st.phase ≠ .started)
    (hrun : st.run f good = .error e) : e = .exit := by
  rw [Loading.run] at hrun
  split_ifs at hrun with hrunning
  have hidle := Bool.not_eq_true _ ▸ hrunning
  obtain hstart | ⟨st₁, hst₁, hrest⟩ := bind_eq_error hrun
  · rw [Loading.startup, if_neg hrunning] at hstart
    obtain hstart | ⟨st₁, -, hrest⟩ := bind_eq_error hstart
    · exact applyAll_error hstart
    · rw [if_pos rfl] at hrest
      cases hrest
  · obtain ⟨h₁, hrunning₁, -⟩ := h.startup hidle hphase hst₁
    exact h₁.initVhosts_error hrunning₁ hrest

/-- A server that is enabled has its pool, if `mod_perl` runs, once its host is initialized. -/
theorem Accounted.perlOf_isSome (h : Accounted f asked st) (hrunning : st.running = true)
    (hready : ∀ i, s = some i → Ready f st i) (henabled : Enabled f st s) :
    (st.perlOf s).isSome := by
  have hbase := h.perlOf_none hrunning
  cases hown : st.own s with
  | none =>
      have hsame : st.perlOf s = st.perlOf none := by
        rw [perlOf, mipOf, hown]
        rfl
      rw [hsame, hbase]
      rfl
  | some c =>
      cases s with
      | none =>
          rw [hbase]
          rfl
      | some i =>
          obtain ⟨m, hm⟩ := Option.isSome_iff_exists.mp
            (hready i rfl c hown (henabled i c rfl hown))
          have hlt := h.pools _ c m hown hm
          rw [perlOf, mipOf, hown, Option.getD_some, hm, Option.bind_some,
            List.getElem?_eq_getElem hlt]
          rfl

/-- After the initialization of its host, a server that is enabled has a pool. -/
theorem Accounted.initVhost_perlOf (h : Accounted f asked st) (hrunning : st.running = true)
    (henabled : Enabled f st s) (hinit : Loading.initVhost f good s st = .ok st') :
    (st'.perlOf s).isSome := by
  cases s with
  | none =>
      obtain rfl := Except.ok.inj hinit
      rw [h.perlOf_none hrunning]
      rfl
  | some i =>
      obtain ⟨h', hkept, hready⟩ := h.initVhost hrunning hinit
      refine h'.perlOf_isSome (hkept.running.trans hrunning) ?_
        (henabled.of_flags (hkept.flags _))
      rintro j ⟨⟩
      exact hready

theorem Accounted.cmdLoad_error {e : Stop} {name : Bytes} (h : Accounted f asked st)
    (henabled : Enabled f st s) (hcmd : st.cmdLoad f good s kind name = .error e) : e = .exit := by
  rw [Loading.cmdLoad] at hcmd
  split_ifs at hcmd with hrunning
  · obtain hinit | ⟨st₁, hst₁, hrest⟩ := bind_eq_error hcmd
    · exact initVhost_error hrunning (by rw [h.perlOf_none hrunning]; rfl) hinit
    · obtain ⟨perl, hperl⟩ := Option.isSome_iff_exists.mp
        (h.initVhost_perlOf hrunning henabled hst₁)
      simp only [hperl, Loading.requires] at hrest
      exact ite_eq_error hrest
  · cases hown : st.own s with
    | none =>
        simp only [hown] at hcmd
        cases hcmd
    | some c =>
        simp only [hown] at hcmd
        cases hcmd

/-- A directive for a server that is enabled always finds a pool. -/
theorem Sound.directive_error {d : LoadDirective} (h : Sound f asked st)
    (hlegal : Legal st (.directive s d)) (henabled : Enabled f st s) :
    st.step f good (.directive s d) ≠ .error .noPool := by
  intro hstep
  obtain ⟨hs, hphase⟩ := hlegal
  have hconfig := h.accounted.srvConfig (f := f) hs
  have henabled : Enabled f (st.srvConfig f s) s := by
    rw [srvConfig]
    split_ifs with hnew
    · rintro i c rfl hc
      rw [own_setOwn hs, if_pos rfl] at hc
      rw [← Option.some.inj hc]
      exact enabled_srvCreate
    · exact henabled
  have hnoPool : Stop.noPool ≠ .exit := by decide
  have hrun : ∀ {g : Loading → Except Stop Loading}, st.phase ≠ .started →
      (∀ st₁, Accounted f asked st₁ → st₁.running = true → Enabled f st₁ s →
        g st₁ ≠ .error .noPool) → ((st.srvConfig f s).run f good).bind g ≠ .error .noPool := by
    intro g hstarted hg hbind
    have hphase₀ : (st.srvConfig f s).phase ≠ .started := by
      rw [phase_srvConfig]
      exact hstarted
    obtain herror | ⟨st₁, hst₁, hrest⟩ := bind_eq_error hbind
    · exact hnoPool (hconfig.run_error hphase₀ herror)
    · obtain ⟨h₁, hrunning₁, -, -, hflags, -⟩ := hconfig.run hphase₀ hst₁
      exact hg st₁ h₁ hrunning₁ (henabled.of_flags (hflags s)) hrest
  have hperl : ∀ st₁, Accounted f asked st₁ → st₁.running = true → Enabled f st₁ s →
      st₁.cmdPerl f good s ≠ .error .noPool := by
    intro st₁ h₁ hrunning₁ henabled₁ hcmd
    obtain herror | ⟨st₂, hst₂, hrest⟩ := bind_eq_error hcmd
    · exact hnoPool
        (initVhost_error hrunning₁ (by rw [h₁.perlOf_none hrunning₁]; rfl) herror)
    · rw [if_pos (h₁.initVhost_perlOf hrunning₁ henabled₁ hst₂)] at hrest
      cases hrest
  cases d with
  | perlModule name => exact hnoPool (hconfig.cmdLoad_error henabled hstep)
  | perlRequire name => exact hnoPool (hconfig.cmdLoad_error henabled hstep)
  | perlConfigRequire name =>
      have hphase : st.phase = .reading := hphase
      exact hrun (by simp [hphase])
        (fun _ h₁ _ henabled₁ herror => hnoPool (h₁.cmdLoad_error henabled₁ herror)) hstep
  | perlLoadModule name =>
      have hphase : st.phase = .reading := hphase
      exact hrun (by simp [hphase])
        (fun _ h₁ _ henabled₁ herror => hnoPool (h₁.cmdLoad_error henabled₁ herror)) hstep
  | perl =>
      by_cases hstarted : st.phase = .started
      · have hrunning := (hconfig.ready (phase_srvConfig.trans hstarted)).1
        have hstep : ((st.srvConfig f s).run f good).bind (Loading.cmdPerl f good s) =
            .error .noPool := hstep
        rw [Loading.run, if_pos hrunning] at hstep
        exact hperl _ hconfig hrunning henabled hstep
      · exact hrun hstarted hperl hstep
  | perlOptions arg =>
      have hstep : (st.srvConfig f s).cmdOptions f s arg = .error .noPool := hstep
      rw [Loading.cmdOptions] at hstep
      split at hstep
      · cases hstep
      · split at hstep
        · cases hstep
        · split at hstep <;> cases hstep
  | other => cases hstep

/-- Two servers only share the interpreter of the base server. -/
theorem Accounted.perl_eq (h : Accounted f asked st) {l l' : Load} (hl : l ∈ st.loads)
    (hl' : l' ∈ st.loads) (hperl : l.perl = l'.perl) (hne : l.server ≠ l'.server) :
    st.perlOf none = some l.perl := by
  have hpool : ∀ {s p}, st.perlOf s = some p → st.perlOf none = some p ∨
      ∃ c m, st.own s = some c ∧ c.mip = some m ∧ st.mips[m]? = some p := by
    intro s p hp
    cases hown : st.own s with
    | none =>
        rw [perlOf, mipOf, hown] at hp
        exact .inl hp
    | some c =>
        obtain ⟨m, hm, hparent⟩ := Option.bind_eq_some_iff.mp hp
        rw [mipOf, hown] at hm
        exact .inr ⟨c, m, rfl, hm, hparent⟩
  obtain hbase | ⟨c, m, hown, hm, hp⟩ := hpool (h.perl l hl)
  · exact hbase
  obtain hbase | ⟨c', n, hown', hn, hp'⟩ := hpool (h.perl l' hl')
  · rw [hperl]
    exact hbase
  rw [h.parent_eq_zero hown hm hown' hn hp (hperl ▸ hp') hne]
  exact h.perlOf_none (h.running_of_mip hown hm)

end Loading

open Loading

/-- However directives are mixed, and whenever `mod_perl` starts: what is loaded for a server
is loaded in the parent interpreter of its pool, and no server shares that with another one
unless it is the interpreter of the base server.  Once the server runs, what was loaded for
each server that is enabled is all that its directives asked for, once and in the order of the
directives of each kind, and none of its directives finds a pool missing. -/
theorem servers_load_what_they_ask (f : HookOrder) (good : List Load → Load → Bool)
    {events : List ServerEvent} {st : Loading}
    (hlegal : Machine.runOk (next f good) Legal (start f) events)
    (hrun : Machine.run (next f good) (start f) events = some st) :
    (∀ l ∈ st.loads, st.perlOf l.server = some l.perl) ∧
      (∀ l ∈ st.loads, ∀ l' ∈ st.loads, l.perl = l'.perl →
        l.server = l'.server ∨ st.perlOf none = some l.perl) ∧
      (st.phase = .started → ∀ s, Enabled f st s → ∀ kind,
        st.loadedFor s kind = asks events s kind) ∧
      ∀ s d, Legal st (.directive s d) → Enabled f st s →
        st.step f good (.directive s d) ≠ .error .noPool := by
  have hsound := Sound.start.run hlegal hrun
  simp only [List.nil_append] at hsound
  have h := hsound.accounted
  refine ⟨h.perl, fun l hl l' hl' hperl => ?_, fun hstarted s henabled kind => ?_,
    fun s d hd henabled => hsound.directive_error hd henabled⟩
  · by_cases hserver : l.server = l'.server
    · exact .inl hserver
    · exact .inr (h.perl_eq hl hl' hperl hserver)
  · cases hown : st.own s with
    | none => exact (h.shared s hown).1 kind
    | some c =>
        have hmip : c.mip.isSome := by
          cases s with
          | none =>
              obtain rfl := Option.some.inj hown
              rw [(h.based (h.ready hstarted).1).1]
              rfl
          | some i => exact (h.ready hstarted).2 i c hown (henabled i c rfl hown)
        obtain ⟨m, hm⟩ := Option.isSome_iff_exists.mp hmip
        obtain hall | ⟨-, hvhost, hdisabled⟩ := h.loaded s c m hown hm
        · exact hall kind
        · obtain ⟨i, rfl⟩ := Option.ne_none_iff_exists'.mp hvhost
          rw [henabled i c rfl hown] at hdisabled
          cases hdisabled

/-- The flags in the order of the phases. -/
def plainOrder : HookOrder := ⟨hookFlags, .refl _⟩

/-- A host with an interpreter of its own, that has something put aside when a `<Perl>` section
starts the server, and loads something after it. -/
def earlyStart : List ServerEvent :=
  [.virtualHost, .directive (some 0) (.perlOptions (ascii "+Parent")),
    .directive (some 0) (.perlModule [1]), .directive none (.perlRequire [2]),
    .directive none .perl, .directive (some 0) (.perlModule [3]), .fixup, .hookInit]

theorem servers_load_what_they_ask_two : ∃ st : Loading,
    Machine.run (next plainOrder fun _ _ => true) (start plainOrder) earlyStart = some st ∧
      st.loadedFor (some 0) .perlModule = [[1], [3]] ∧ st.perlOf (some 0) = some 1 := by
  have hlegal : Machine.runOk (next plainOrder fun _ _ => true) Legal (start plainOrder)
      earlyStart := by decide +kernel
  have hend : (Machine.run (next plainOrder fun _ _ => true) (start plainOrder) earlyStart).any
      (fun st => decide (st.phase = .started ∧
        (∀ c ∈ st.own (some 0), enabled plainOrder c = true) ∧ st.perlOf (some 0) = some 1)) =
      true := by decide +kernel
  obtain ⟨st, hrun, hst⟩ := (Option.any_eq_true _ _).mp hend
  obtain ⟨hstarted, henabled, hperl⟩ := of_decide_eq_true hst
  obtain ⟨-, -, hloaded, -⟩ := servers_load_what_they_ask plainOrder (fun _ _ => true) hlegal hrun
  refine ⟨st, hrun, (hloaded hstarted (some 0) ?_ .perlModule).trans (by decide), hperl⟩
  rintro i c ⟨⟩ hc
  exact henabled c hc

/-- With a host that is disabled, what is put aside for it stays there, and a directive that
loads something once `mod_perl` runs uses the pool that it has not. -/
example : Machine.run (next plainOrder fun _ _ => true) (start plainOrder)
    [.virtualHost, .directive (some 0) (.perlOptions (ascii "-Enable")), .directive none .perl,
      .directive (some 0) (.perlModule [1])] = none := by decide +kernel

end ModPerl
