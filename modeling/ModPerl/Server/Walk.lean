import Mathlib.Data.List.Basic
import Mathlib.Data.List.Perm.Basic
import Mathlib.Data.List.Nodup
import Mathlib.Logic.Function.Basic

/-!
# Startup of the servers and the walk over all interpreters

The base server starts a parent interpreter with a pool.  A virtual host then has
one of four kinds of config: that of the base server itself, where it has no
`mod_perl` directive; one with `PerlOptions +Parent`, which gets a parent and a pool
of its own; one with `PerlOptions +Clone`, which gets a pool of its own for the parent
of the base server; or one that points to the pool of the base server.  Where
`mod_perl` is disabled for the host, its config has no pool at all.

The walk over the servers compares with the base server only.  That is enough, since
no two hosts share anything else.  It does not expect a config without a pool.
-/

namespace ModPerl

/-- `modperl_config_srv_t`: the options, and whether the modules of the server load. -/
structure SrvConfig where
  /-- `MpSrvENABLE` -/
  enable : Bool
  /-- `MpSrvPARENT` -/
  parent : Bool
  /-- `MpSrvCLONE` -/
  clone : Bool
  /-- `modperl_config_apply_PerlRequire` and `modperl_config_apply_PerlModule` succeed. -/
  applies : Bool
  deriving DecidableEq

/-- `server_rec`: whether it is a virtual host, and the address of its config. -/
structure ServerRec where
  isVirtual : Bool
  scfg : Option ℕ
  deriving DecidableEq

/-- The base server and the list behind it, with the configs.  A host may have the config of
the base server; no other config belongs to two servers. -/
structure Servers where
  scfgs : ℕ → SrvConfig
  /-- The config of the base server. -/
  base : ℕ
  vhosts : List ServerRec
  distinct : ((vhosts.filterMap ServerRec.scfg).filter (· ≠ base)).Nodup

/-- `modperl_interp_pool_t` -/
structure Mip where
  /-- `parent->perl` -/
  parent : ℕ
  /-- There is a `tipool`. -/
  tipool : Bool
  deriving DecidableEq

/-- What the startup allocates. -/
structure Startup where
  /-- `MP_IS_RUNNING` -/
  running : Bool
  /-- The interpreters that `perl_alloc` has returned. -/
  perls : ℕ
  /-- The pools, by their address. -/
  mips : List Mip
  /-- `scfg->mip` -/
  mip : ℕ → Option ℕ

namespace Startup

/-- Before `modperl_hook_init`.  An earlier start, by a directive that needs Perl, is not
covered: after it `modperl_config_srv_merge` makes new configs for the virtual hosts. -/
def starting : Startup where
  running := false
  perls := 0
  mips := []
  mip := fun _ => none

/-- `modperl_interp_init` -/
def interpInit (threaded : Bool) (scfg perl : ℕ) (st : Startup) : Startup :=
  { st with
    mips := st.mips ++ [⟨perl, threaded⟩]
    mip := Function.update st.mip scfg (some st.mips.length) }

variable (threaded : Bool) (servers : Servers)

/-- `modperl_startup`, once the base server runs. -/
def startupPerl (scfg : ℕ) (st : Startup) : Option Startup :=
  let st := interpInit threaded scfg st.perls { st with perls := st.perls + 1 }
  if (servers.scfgs scfg).applies then some st else none

/-- `modperl_startup`: the base server is started before a virtual host. -/
def startup (scfg : ℕ) (st : Startup) : Option Startup :=
  if st.running then startupPerl threaded servers scfg st
  else
    (startupPerl threaded servers servers.base { st with running := true }).bind fun st =>
      if servers.base = scfg then some st else startupPerl threaded servers scfg st

/-- `mip->parent->perl` -/
def parentOf (st : Startup) (m : ℕ) : Option ℕ := st.mips[m]?.map Mip.parent

/-- `base_scfg->mip->parent->perl` -/
def basePerl (st : Startup) : Option ℕ := (st.mip servers.base).bind st.parentOf

/-- `modperl_init_vhost`, or the exit of the server. -/
def initVhost (st : Startup) (s : ServerRec) : Option Startup :=
  match s.scfg with
  | none => some st
  | some scfg =>
      (st.basePerl servers).bind fun perl =>
        let cfg := servers.scfgs scfg
        if (st.mip scfg).isSome then some st
        else if !cfg.enable && s.isVirtual then
          some { st with mip := Function.update st.mip scfg none }
        else
          (if cfg.parent then startup threaded servers scfg st
            else
              let st := if cfg.clone then st.interpInit threaded scfg perl else st
              if cfg.applies then some st else none).map fun st =>
            if (st.mip scfg).isNone then
              { st with mip := Function.update st.mip scfg (st.mip servers.base) }
            else st

/-- `modperl_init` -/
def init : Option Startup :=
  (startup threaded servers servers.base starting).bind fun st =>
    servers.vhosts.foldlM (initVhost threaded servers) st

end Startup

/-! ## The walk -/

/-- The interpreter of the context, and the calls of the walker so far. -/
structure Walk where
  context : ℕ
  /-- The interpreter and the pool of each call. -/
  calls : List (ℕ × ℕ)

namespace Walk

/-- `PERL_SET_CONTEXT(perl); walker(perl, mip, data)` -/
def call (m : ℕ) (w : Walk) (perl : ℕ) : Walk :=
  { context := perl, calls := w.calls ++ [(perl, m)] }

variable (servers : Servers) (st : Startup) (idle : ℕ → List ℕ) (current : Option ℕ)

/-- The idle interpreters of a pool. -/
def idleOf (m : ℕ) : List ℕ :=
  if st.mips[m]?.any Mip.tipool then idle m else []

/-- `modperl_interp_mip_walk`: `none` if it follows a null pointer. -/
def interpMipWalk (parent mip : Option ℕ) (w : Walk) : Option Walk :=
  mip.bind fun m => st.mips[m]?.map fun pool =>
    let head := if pool.tipool then idle m else []
    let current := current.getD w.context
    let w := parent.elim w (w.call m)
    { head.foldl (call m) w with context := current }

/-- The body of the loop of `modperl_interp_mip_walk_servers`. -/
def walkServer (basePerl : ℕ) (w : Walk) (s : ServerRec) : Option Walk :=
  s.scfg.bind fun scfg => (st.mip scfg).bind fun m => st.mips[m]?.bind fun pool =>
    -- skip vhosts who share parent perl
    let perl := if pool.parent = basePerl then none else some pool.parent
    -- skip vhosts who share parent mip
    let mip := if st.mip scfg = st.mip servers.base then none else some m
    if perl.isSome || mip.isSome then interpMipWalk st idle current perl mip w else some w

/-- `modperl_interp_mip_walk_servers` -/
def walkServers (w : Walk) : Option Walk :=
  (st.basePerl servers).bind fun basePerl =>
    (interpMipWalk st idle current (some basePerl) (st.mip servers.base) w).bind fun w =>
      servers.vhosts.foldlM (walkServer servers st idle current basePerl) w

end Walk

namespace Startup

/-! ## What the startup leaves behind -/

/-- The base server runs, in the first pool; every other pool belongs to one config, and every
other parent to one pool. -/
structure Started (servers : Servers) (st : Startup) : Prop where
  running : st.running = true
  base : st.mip servers.base = some 0
  first : st.parentOf 0 = some 0
  valid : ∀ a m, st.mip a = some m → m < st.mips.length
  fresh : ∀ m perl, st.parentOf m = some perl → perl < st.perls
  own : ∀ a b m, st.mip a = some m → st.mip b = some m → m ≠ 0 → a = b
  parents : ∀ m m' perl, st.parentOf m = some perl →
    st.parentOf m' = some perl → perl ≠ 0 → m = m'

variable {threaded : Bool} {servers : Servers} {st st' : Startup}

theorem parentOf_interpInit {scfg perl m : ℕ} :
    (st.interpInit threaded scfg perl).parentOf m =
      if m = st.mips.length then some perl else st.parentOf m := by
  rw [parentOf, parentOf, interpInit, List.getElem?_append]
  split_ifs with hlt heq heq
  · omega
  · rfl
  · rw [heq, Nat.sub_self]
    rfl
  · rw [List.getElem?_eq_none (Nat.le_of_not_lt hlt)]
    rw [List.getElem?_eq_none (by simp; omega)]

theorem mip_interpInit {scfg perl a : ℕ} :
    (st.interpInit threaded scfg perl).mip a =
      if a = scfg then some st.mips.length else st.mip a :=
  Function.update_apply ..

namespace Started

/-- A new pool, for the parent of the base server or for a new one. -/
theorem interpInit (h : st.Started servers) {scfg perl : ℕ} (hbase : scfg ≠ servers.base)
    (hlt : perl < st.perls)
    (hperl : perl = 0 ∨ ∀ m, st.parentOf m ≠ some perl) :
    (st.interpInit threaded scfg perl).Started servers := by
  have hpos : st.mips.length ≠ 0 := Nat.ne_of_gt (h.valid _ _ h.base)
  refine ⟨h.running, ?base, ?first, ?valid, ?fresh, ?own, ?parents⟩
  case base =>
    rw [mip_interpInit, if_neg hbase.symm]
    exact h.base
  case first =>
    rw [parentOf_interpInit, if_neg hpos.symm]
    exact h.first
  case valid =>
    intro a m ha
    have hlen : (st.interpInit threaded scfg perl).mips.length = st.mips.length + 1 :=
      List.length_append
    rw [mip_interpInit] at ha
    split_ifs at ha with has
    · obtain rfl := Option.some.inj ha
      omega
    · have hm := h.valid a m ha
      omega
  case fresh =>
    intro m perl' hm
    rw [parentOf_interpInit] at hm
    split_ifs at hm with hmlen
    · exact Option.some.inj hm ▸ hlt
    · exact h.fresh m perl' hm
  case own =>
    intro a b m ha hb hm
    rw [mip_interpInit] at ha hb
    split_ifs at ha with has <;> split_ifs at hb with hbs
    · exact has.trans hbs.symm
    · obtain rfl := Option.some.inj ha
      exact absurd (h.valid b _ hb) (Nat.lt_irrefl _)
    · obtain rfl := Option.some.inj hb
      exact absurd (h.valid a _ ha) (Nat.lt_irrefl _)
    · exact h.own a b m ha hb hm
  case parents =>
    intro m m' perl' hm hm' hne
    rw [parentOf_interpInit] at hm hm'
    split_ifs at hm with hmlen <;> split_ifs at hm' with hmlen'
    · exact hmlen.trans hmlen'.symm
    · obtain rfl := Option.some.inj hm
      exact absurd hm' (hperl.resolve_left hne m')
    · obtain rfl := Option.some.inj hm'
      exact absurd hm (hperl.resolve_left hne m)
    · exact h.parents m m' perl' hm hm' hne

/-- A config is pointed to the pool of the base server. -/
theorem share (h : st.Started servers) {scfg : ℕ} :
    Started servers { st with mip := Function.update st.mip scfg (st.mip servers.base) } := by
  have hcases : ∀ a m, Function.update st.mip scfg (st.mip servers.base) a = some m →
      m = 0 ∨ st.mip a = some m := by
    intro a m ha
    by_cases has : a = scfg
    · rw [has, Function.update_self, h.base] at ha
      exact .inl (Option.some.inj ha).symm
    · rw [Function.update_of_ne has] at ha
      exact .inr ha
  refine ⟨h.running, ?base, h.first, ?valid, h.fresh, ?own, h.parents⟩
  case base =>
    show Function.update st.mip scfg (st.mip servers.base) servers.base = some 0
    by_cases hbase : servers.base = scfg
    · rw [hbase, Function.update_self, ← hbase, h.base]
    · rw [Function.update_of_ne hbase, h.base]
  case valid =>
    intro a m ha
    rcases hcases a m ha with rfl | ha
    · exact h.valid _ _ h.base
    · exact h.valid a m ha
  case own =>
    intro a b m ha hb hm
    exact h.own a b m ((hcases a m ha).resolve_left hm) ((hcases b m hb).resolve_left hm) hm

/-- A config without a pool is pointed to the one of the base server. -/
theorem fill (h : st.Started servers) {scfg : ℕ}
    (hs : (if (st.mip scfg).isNone then
      { st with mip := Function.update st.mip scfg (st.mip servers.base) } else st) = st') :
    st'.Started servers ∧ (st'.mip scfg).isSome ∧ ∀ b, b ≠ scfg → st'.mip b = st.mip b := by
  split_ifs at hs with hnone
  · subst hs
    refine ⟨h.share, ?_, fun b hb => Function.update_of_ne hb ..⟩
    show (Function.update st.mip scfg (st.mip servers.base) scfg).isSome
    rw [Function.update_self, h.base]
    rfl
  · subst hs
    refine ⟨h, ?_, fun _ _ => rfl⟩
    simpa [Option.isSome_iff_ne_none] using hnone

theorem basePerl (h : st.Started servers) : st.basePerl servers = some 0 := by
  rw [Startup.basePerl, h.base]
  exact h.first

/-- A parent for a virtual host. -/
theorem startup (h : st.Started servers) {scfg : ℕ} (hbase : scfg ≠ servers.base)
    (hs : Startup.startup threaded servers scfg st = some st') :
    st'.Started servers ∧ st'.mip = Function.update st.mip scfg (some st.mips.length) := by
  rw [Startup.startup, if_pos h.running] at hs
  obtain ⟨-, hs⟩ := Option.ite_none_right_eq_some.mp hs
  obtain rfl := Option.some.inj hs
  have hstarted : Started servers { st with perls := st.perls + 1 } :=
    ⟨h.running, h.base, h.first, h.valid,
      fun m perl hm => Nat.lt_succ_of_lt (h.fresh m perl hm), h.own, h.parents⟩
  exact ⟨interpInit hstarted hbase (Nat.lt_succ_self _)
    (.inr fun m hm => Nat.lt_irrefl _ (h.fresh m _ hm)), rfl⟩

end Started

/-- A host whose config gets a pool. -/
def HasMip (servers : Servers) (s : ServerRec) (scfg : ℕ) : Prop :=
  scfg = servers.base ∨ (servers.scfgs scfg).enable = true ∨ s.isVirtual = false

/-- One round of the startup: only the config of the host is changed. -/
theorem Started.initVhost (h : st.Started servers) {s : ServerRec}
    (hnew : ∀ a, s.scfg = some a → a ≠ servers.base → st.mip a = none)
    (hs : initVhost threaded servers st s = some st') :
    st'.Started servers ∧ (∀ b, s.scfg ≠ some b → st'.mip b = st.mip b) ∧
      ∀ a, s.scfg = some a → ((st'.mip a).isSome ↔ HasMip servers s a) := by
  unfold Startup.initVhost at hs
  cases hscfg : s.scfg with
  | none =>
      rw [hscfg] at hs
      obtain rfl := Option.some.inj hs
      exact ⟨h, fun _ _ => rfl, fun _ ha => nomatch ha⟩
  | some scfg =>
      simp only [hscfg, h.basePerl, Option.bind_some] at hs
      by_cases hsome : (st.mip scfg).isSome
      · rw [if_pos hsome] at hs
        obtain rfl := Option.some.inj hs
        have hbase : scfg = servers.base := by
          by_contra hne
          rw [hnew scfg hscfg hne] at hsome
          cases hsome
        refine ⟨h, fun _ _ => rfl, ?_⟩
        rintro a ⟨⟩
        exact ⟨fun _ => .inl hbase, fun _ => hsome⟩
      rw [if_neg hsome] at hs
      have hbase : scfg ≠ servers.base := by
        rintro rfl
        rw [h.base] at hsome
        exact hsome rfl
      -- with `mod_perl` off, a virtual host gets no pool
      by_cases hoff : (!(servers.scfgs scfg).enable && s.isVirtual) = true
      · rw [if_pos hoff, ← hnew scfg hscfg hbase, Function.update_eq_self] at hs
        obtain rfl := Option.some.inj hs
        refine ⟨h, fun _ _ => rfl, ?_⟩
        rintro a ⟨⟩
        refine ⟨fun hs => absurd hs hsome, fun hhas => ?_⟩
        simp only [Bool.and_eq_true, Bool.not_eq_true'] at hoff
        rcases hhas with hb | hon | hvirt
        · exact absurd hb hbase
        · exact absurd (hoff.1.symm.trans hon) Bool.false_ne_true
        · exact absurd (hvirt.symm.trans hoff.2) Bool.false_ne_true
      rw [if_neg hoff] at hs
      have hhas : HasMip servers s scfg := by
        simp only [Bool.and_eq_true, Bool.not_eq_true', not_and, Bool.not_eq_true] at hoff
        cases hon : (servers.scfgs scfg).enable with
        | true => exact .inr (.inl hon)
        | false => exact .inr (.inr (hoff hon))
      obtain ⟨st₁, hst₁, hfill⟩ := Option.map_eq_some_iff.mp hs
      -- a parent of its own, a pool on the parent of the base server, or none yet
      have h₁ : st₁.Started servers ∧ ∀ b, b ≠ scfg → st₁.mip b = st.mip b := by
        split_ifs at hst₁ with hparent hclone happlies
        · obtain ⟨h₁, hmip⟩ := h.startup hbase hst₁
          exact ⟨h₁, fun b hb => by rw [hmip, Function.update_of_ne hb]⟩
        · obtain rfl := Option.some.inj hst₁
          have hpos : 0 < st.perls := h.fresh 0 0 h.first
          exact ⟨h.interpInit hbase hpos (.inl rfl), fun b hb => Function.update_of_ne hb ..⟩
        · obtain rfl := Option.some.inj hst₁
          exact ⟨h, fun _ _ => rfl⟩
      obtain ⟨h', hfilled, hframe⟩ := h₁.1.fill hfill
      refine ⟨h', fun b hb => ?_, ?_⟩
      · have hbs : b ≠ scfg := fun heq => hb (heq ▸ rfl)
        exact (hframe b hbs).trans (h₁.2 b hbs)
      · rintro a ⟨⟩
        exact ⟨fun _ => hhas, fun _ => hfilled⟩

/-- The own configs of a list of hosts. -/
def ownConfigs (servers : Servers) (vhosts : List ServerRec) : List ℕ :=
  (vhosts.filterMap ServerRec.scfg).filter (· ≠ servers.base)

theorem ownConfigs_cons {s : ServerRec} {vhosts : List ServerRec} :
    ownConfigs servers (s :: vhosts) =
      (s.scfg.filter (· ≠ servers.base)).toList ++ ownConfigs servers vhosts := by
  cases hscfg : s.scfg with
  | none => simp [ownConfigs, hscfg]
  | some a =>
      by_cases ha : a = servers.base
      · simp [ownConfigs, hscfg, ha, Option.filter]
      · simp [ownConfigs, hscfg, ha, Option.filter]

/-- All rounds: a host is behind the hosts before it, whose configs are other ones. -/
theorem Started.foldlM_initVhost (h : st.Started servers) {vhosts : List ServerRec}
    (hnodup : (ownConfigs servers vhosts).Nodup)
    (hnew : ∀ a ∈ ownConfigs servers vhosts, st.mip a = none)
    (hs : vhosts.foldlM (Startup.initVhost threaded servers) st = some st') :
    st'.Started servers ∧ (∀ b ∉ ownConfigs servers vhosts, st'.mip b = st.mip b) ∧
      ∀ s ∈ vhosts, ∀ a, s.scfg = some a → ((st'.mip a).isSome ↔ HasMip servers s a) := by
  induction vhosts generalizing st with
  | nil =>
      obtain rfl := Option.some.inj hs
      exact ⟨h, fun _ _ => rfl, fun _ hs => nomatch hs⟩
  | cons s vhosts ih =>
      rw [List.foldlM_cons] at hs
      obtain ⟨st₁, hst₁, hs⟩ := Option.bind_eq_some_iff.mp hs
      rw [ownConfigs_cons] at hnodup hnew
      obtain ⟨-, hnodup', hdisjoint⟩ := List.nodup_append'.mp hnodup
      have hhead : ∀ a, s.scfg = some a → a ≠ servers.base →
          a ∈ (s.scfg.filter (· ≠ servers.base)).toList := by
        intro a ha hb
        simp [ha, hb, Option.filter]
      obtain ⟨h₁, hframe, hhas⟩ := h.initVhost
        (fun a ha hb => hnew a (List.mem_append_left _ (hhead a ha hb))) hst₁
      -- the config of the first host is none of the others', unless it is that of the base server
      have hscfg : ∀ a ∈ ownConfigs servers vhosts, s.scfg ≠ some a := by
        intro a ha heq
        have hb : a ≠ servers.base := of_decide_eq_true (List.mem_filter.mp ha).2
        exact hdisjoint (hhead a heq hb) ha
      obtain ⟨h', hframe', hhas'⟩ := ih h₁ hnodup' (fun a ha => by
        rw [hframe a (hscfg a ha)]
        exact hnew a (List.mem_append_right _ ha)) hs
      refine ⟨h', fun b hb => ?_, fun s' hs' a ha => ?_⟩
      · rw [ownConfigs_cons, List.mem_append, not_or] at hb
        by_cases hbb : b = servers.base
        · rw [hbb, h'.base, h.base]
        · rw [hframe' b hb.2]
          exact hframe b fun heq => hb.1 (hhead b heq hbb)
      · rcases List.mem_cons.mp hs' with rfl | hs'
        · rw [← hhas a ha]
          by_cases hb : a = servers.base
          · rw [hb, h'.base, h₁.base]
          · rw [hframe' a fun hmem => hscfg a hmem ha]
        · exact hhas' s' hs' a ha

/-- After the startup. -/
theorem started_of_init (hinit : init threaded servers = some st) :
    st.Started servers ∧
      ∀ s ∈ servers.vhosts, ∀ a, s.scfg = some a → ((st.mip a).isSome ↔ HasMip servers s a) := by
  obtain ⟨st₀, hst₀, hs⟩ := Option.bind_eq_some_iff.mp hinit
  obtain ⟨st₁, hst₁, hst₀⟩ := Option.bind_eq_some_iff.mp hst₀
  rw [if_pos rfl, Option.some.injEq] at hst₀
  obtain ⟨-, hst₁⟩ := Option.ite_none_right_eq_some.mp hst₁
  rw [← Option.some.inj hst₁] at hst₀
  -- before the hosts there are the pool of the base server and its parent
  have hmip : ∀ a, st₀.mip a = if a = servers.base then some 0 else none := by
    intro a
    rw [← hst₀]
    exact mip_interpInit
  have hparent : ∀ m, st₀.parentOf m = if m = 0 then some 0 else none := by
    intro m
    rw [← hst₀]
    exact parentOf_interpInit
  have h₀ : st₀.Started servers := by
    refine ⟨?running, ?base, ?first, ?valid, ?fresh, ?own, ?parents⟩
    case running =>
      rw [← hst₀]
      rfl
    case base =>
      rw [hmip, if_pos rfl]
    case first =>
      rw [hparent, if_pos rfl]
    case valid =>
      intro a m ha
      rw [hmip] at ha
      split_ifs at ha
      obtain rfl := Option.some.inj ha
      rw [← hst₀]
      exact Nat.one_pos
    case fresh =>
      intro m perl hm
      rw [hparent] at hm
      split_ifs at hm
      obtain rfl := Option.some.inj hm
      rw [← hst₀]
      exact Nat.one_pos
    case own =>
      intro a b m ha hb _
      rw [hmip] at ha hb
      split_ifs at ha hb with ha' hb'
      exact ha'.trans hb'.symm
    case parents =>
      intro m m' perl hm hm' _
      rw [hparent] at hm hm'
      split_ifs at hm hm' with hm₀ hm₀'
      exact hm₀.trans hm₀'.symm
  obtain ⟨h, -, hhas⟩ := h₀.foldlM_initVhost servers.distinct (fun a ha => by
    rw [hmip, if_neg (of_decide_eq_true (List.mem_filter.mp ha).2)]) hs
  exact ⟨h, hhas⟩

end Startup

namespace Walk

open Startup

/-! ## What the walk calls -/

/-- The pools of the servers, the base server included. -/
def serverMips (servers : Servers) (st : Startup) : List ℕ :=
  (some servers.base :: servers.vhosts.map ServerRec.scfg).filterMap fun scfg => scfg.bind st.mip

/-- Each parent interpreter of the servers once, and each idle interpreter of each pool once. -/
def CallsOnce (servers : Servers) (st : Startup) (idle : ℕ → List ℕ) (calls : List (ℕ × ℕ)) :
    Prop :=
  ∃ (parents : List (ℕ × ℕ)) (mips : List ℕ),
    calls.Perm (parents ++ mips.flatMap fun m => (idleOf st idle m).map (·, m)) ∧
    (parents.map Prod.fst).Nodup ∧
    (∀ perl, perl ∈ parents.map Prod.fst ↔
      ∃ m ∈ serverMips servers st, st.parentOf m = some perl) ∧
    (∀ c ∈ parents, st.parentOf c.2 = some c.1) ∧
    mips.Nodup ∧ ∀ m, m ∈ mips ↔ m ∈ serverMips servers st

variable {servers : Servers} {st : Startup} {idle : ℕ → List ℕ} {current : Option ℕ} {w w' : Walk}

theorem calls_foldl_call {m : ℕ} {perls : List ℕ} :
    (perls.foldl (call m) w).calls = w.calls ++ perls.map (·, m) := by
  induction perls generalizing w with
  | nil => exact (List.append_nil _).symm
  | cons perl perls ih =>
      rw [List.foldl_cons, ih, call, List.map_cons, List.append_assoc, List.singleton_append]

/-- The walk of one pool puts the context back. -/
theorem interpMipWalk_eq {parent : Option ℕ} {m : ℕ} (hm : m < st.mips.length) :
    interpMipWalk st idle current parent (some m) w =
      some ⟨current.getD w.context,
        w.calls ++ (parent.toList ++ idleOf st idle m).map (·, m)⟩ := by
  simp only [interpMipWalk, Option.bind_some, List.getElem?_eq_getElem hm, Option.map_some,
    calls_foldl_call, idleOf, List.map_append, Option.any_some]
  cases parent with
  | none => rfl
  | some perl =>
      rw [← List.append_assoc]
      rfl

/-- The parent of a pool, unless it is the one of the base server. -/
def ownParent (st : Startup) (m : ℕ) : Option ℕ := (st.parentOf m).filter (· ≠ 0)

/-- The calls for a pool that is not the one of the base server. -/
def mipCalls (st : Startup) (idle : ℕ → List ℕ) (m : ℕ) : List (ℕ × ℕ) :=
  ((ownParent st m).toList ++ idleOf st idle m).map (·, m)

/-- The own pool of a config. -/
def ownMip (st : Startup) (scfg : ℕ) : Option ℕ := (st.mip scfg).filter (· ≠ 0)

/-- One round: a config with the pool of the base server is skipped. -/
theorem walkServer_eq (h : st.Started servers) {s : ServerRec} {scfg m : ℕ}
    (hscfg : s.scfg = some scfg) (hm : st.mip scfg = some m)
    (hcontext : current.getD w.context = w.context) :
    walkServer servers st idle current 0 w s =
      some ⟨w.context, w.calls ++ (ownMip st scfg).toList.flatMap (mipCalls st idle)⟩ := by
  have hlt := h.valid scfg m hm
  have hpool : st.mips[m]? = some st.mips[m] := List.getElem?_eq_getElem hlt
  have hparent : st.parentOf m = some st.mips[m].parent := by rw [parentOf, hpool]; rfl
  simp only [walkServer, hscfg, hm, hpool, Option.bind_some, h.base]
  by_cases hzero : m = 0
  · subst hzero
    have hfirst : st.mips[0].parent = 0 := by
      rw [h.first] at hparent
      exact (Option.some.inj hparent).symm
    simp [hfirst, ownMip, hm, Option.filter]
  · have hne : some m ≠ some 0 := fun heq => hzero (Option.some.inj heq)
    rw [if_neg hne, if_pos (by simp), interpMipWalk_eq hlt, hcontext]
    have hown : ownMip st scfg = some m := by simp [ownMip, hm, hzero, Option.filter]
    have hperl : (if st.mips[m].parent = 0 then none else some st.mips[m].parent) =
        ownParent st m := by
      rw [ownParent, hparent]
      by_cases hp : st.mips[m].parent = 0 <;> simp [hp, Option.filter]
    rw [hown, hperl, Option.toList_some, List.flatMap_singleton, mipCalls]

/-- A null pointer is followed for a host without a config or without a pool. -/
theorem walkServer_eq_none {s : ServerRec} (hs : s.scfg.bind st.mip = none) :
    walkServer servers st idle current 0 w s = none := by
  rw [walkServer]
  cases hscfg : s.scfg with
  | none => rfl
  | some scfg =>
      rw [hscfg, Option.bind_some] at hs
      rw [Option.bind_some, hs]
      rfl

/-- The loop over the hosts: it ends unless it meets a host without a pool. -/
theorem foldlM_walkServer (h : st.Started servers) {vhosts : List ServerRec}
    (hall : ∀ s ∈ vhosts, (s.scfg.bind st.mip).isSome)
    (hcontext : current.getD w.context = w.context) :
    vhosts.foldlM (walkServer servers st idle current 0) w =
      some ⟨w.context, w.calls ++
        ((ownConfigs servers vhosts).filterMap (ownMip st)).flatMap (mipCalls st idle)⟩ := by
  induction vhosts generalizing w with
  | nil => simp [ownConfigs]
  | cons s vhosts ih =>
      obtain ⟨m, hm⟩ := Option.isSome_iff_exists.mp (hall s List.mem_cons_self)
      obtain ⟨scfg, hscfg, hm⟩ := Option.bind_eq_some_iff.mp hm
      have hown : ((s.scfg.filter (· ≠ servers.base)).toList.filterMap (ownMip st)) =
          (ownMip st scfg).toList := by
        rw [hscfg]
        by_cases hb : scfg = servers.base
        · simp [hb, Option.filter, ownMip, h.base]
        · cases hmip : ownMip st scfg <;> simp [hb, Option.filter, hmip]
      rw [List.foldlM_cons, walkServer_eq h hscfg hm hcontext]
      have hrest := @ih ⟨w.context, w.calls ++ (ownMip st scfg).toList.flatMap (mipCalls st idle)⟩
        (fun s' hs' => hall s' (List.mem_cons_of_mem s hs')) hcontext
      refine hrest.trans ?_
      rw [ownConfigs_cons, List.filterMap_append, List.flatMap_append, hown, List.append_assoc]

theorem foldlM_walkServer_eq_none {vhosts : List ServerRec} {s : ServerRec} (hs : s ∈ vhosts)
    (hnone : s.scfg.bind st.mip = none) :
    vhosts.foldlM (walkServer servers st idle current 0) w = none := by
  induction vhosts generalizing w with
  | nil => cases hs
  | cons s' vhosts ih =>
      rw [List.foldlM_cons]
      rcases List.mem_cons.mp hs with rfl | hs
      · rw [walkServer_eq_none hnone]
        rfl
      · cases walkServer servers st idle current 0 w s' with
        | none => rfl
        | some w' => exact ih hs

/-- The pools that are not the one of the base server. -/
def ownMips (servers : Servers) (st : Startup) : List ℕ :=
  (ownConfigs servers servers.vhosts).filterMap (ownMip st)

theorem ownMip_eq_some_iff {scfg m : ℕ} :
    ownMip st scfg = some m ↔ st.mip scfg = some m ∧ m ≠ 0 := by
  rw [ownMip, Option.filter_eq_some_iff, decide_eq_true_iff]

theorem ownParent_eq_some_iff {m perl : ℕ} :
    ownParent st m = some perl ↔ st.parentOf m = some perl ∧ perl ≠ 0 := by
  rw [ownParent, Option.filter_eq_some_iff, decide_eq_true_iff]

theorem nodup_ownMips (h : st.Started servers) : (ownMips servers st).Nodup := by
  refine servers.distinct.filterMap fun a b m ha hb => ?_
  obtain ⟨ha, hm⟩ := ownMip_eq_some_iff.mp ha
  exact h.own a b m ha (ownMip_eq_some_iff.mp hb).1 hm

theorem mem_serverMips_iff (h : st.Started servers) {m : ℕ} :
    m ∈ serverMips servers st ↔ m ∈ 0 :: ownMips servers st := by
  have hcons : serverMips servers st = 0 ::
      (servers.vhosts.map ServerRec.scfg).filterMap fun scfg => scfg.bind st.mip := by
    simp [serverMips, h.base]
  rw [hcons, List.mem_cons, List.mem_cons]
  refine or_congr_right' fun hm => ?_
  simp only [List.mem_filterMap, List.mem_map, ownMips, ownConfigs, List.mem_filter]
  constructor
  · rintro ⟨_, ⟨s, hs, rfl⟩, hbind⟩
    obtain ⟨scfg, hscfg, hmip⟩ := Option.bind_eq_some_iff.mp hbind
    refine ⟨scfg, ⟨⟨s, hs, hscfg⟩, decide_eq_true ?_⟩, ownMip_eq_some_iff.mpr ⟨hmip, hm⟩⟩
    rintro rfl
    rw [h.base] at hmip
    exact hm (Option.some.inj hmip).symm
  · rintro ⟨scfg, ⟨⟨s, hs, hscfg⟩, -⟩, hown⟩
    refine ⟨s.scfg, ⟨s, hs, rfl⟩, ?_⟩
    rw [hscfg]
    exact (ownMip_eq_some_iff.mp hown).1

/-- The calls for the base server and then for the other pools are one for each parent and one
for each idle interpreter. -/
theorem callsOnce (h : st.Started servers) :
    CallsOnce servers st idle
      (((some 0).toList ++ idleOf st idle 0).map (·, 0) ++
        (ownMips servers st).flatMap (mipCalls st idle)) := by
  have hown : ∀ m ∈ ownMips servers st, m ≠ 0 := by
    intro m hm
    obtain ⟨a, -, ha⟩ := List.mem_filterMap.mp hm
    exact (ownMip_eq_some_iff.mp ha).2
  have hfst : ((0, 0) :: (ownMips servers st).flatMap fun m =>
      (ownParent st m).toList.map (·, m)).map Prod.fst =
      0 :: (ownMips servers st).filterMap (ownParent st) := by
    rw [List.map_cons, List.map_flatMap, List.filterMap_eq_flatMap_toList]
    simp [Function.comp_def]
  refine ⟨(0, 0) :: (ownMips servers st).flatMap fun m => (ownParent st m).toList.map (·, m),
    0 :: ownMips servers st, ?perm, ?nodupParents, ?parents, ?parentOf, ?nodupMips, ?mips⟩
  case perm =>
    -- pool by pool, the parent comes before the idle interpreters
    have hsplit := List.flatMap_append_perm (ownMips servers st)
      (fun m => (ownParent st m).toList.map (·, m)) (fun m => (idleOf st idle m).map (·, m))
    have hcalls : mipCalls st idle = fun m =>
        (ownParent st m).toList.map (·, m) ++ (idleOf st idle m).map (·, m) :=
      funext fun m => List.map_append ..
    rw [hcalls, List.flatMap_cons, List.cons_append]
    refine List.Perm.cons _ ?_
    refine (hsplit.symm.append_left _).trans ?_
    rw [← List.append_assoc, ← List.append_assoc]
    exact List.perm_append_comm.append_right _
  case nodupParents =>
    rw [hfst]
    refine List.nodup_cons.mpr ⟨fun hmem => ?_, ?_⟩
    · obtain ⟨m, -, hm⟩ := List.mem_filterMap.mp hmem
      exact (ownParent_eq_some_iff.mp hm).2 rfl
    · refine (nodup_ownMips h).filterMap fun m m' perl hm hm' => ?_
      obtain ⟨hm, hperl⟩ := ownParent_eq_some_iff.mp hm
      exact h.parents m m' perl hm (ownParent_eq_some_iff.mp hm').1 hperl
  case parents =>
    intro perl
    rw [hfst, List.mem_cons, List.mem_filterMap]
    constructor
    · rintro (rfl | ⟨m, hm, hperl⟩)
      · exact ⟨0, (mem_serverMips_iff h).mpr List.mem_cons_self, h.first⟩
      · exact ⟨m, (mem_serverMips_iff h).mpr (List.mem_cons_of_mem 0 hm),
          (ownParent_eq_some_iff.mp hperl).1⟩
    · rintro ⟨m, hm, hperl⟩
      by_cases hzero : perl = 0
      · exact .inl hzero
      rcases List.mem_cons.mp ((mem_serverMips_iff h).mp hm) with rfl | hm
      · rw [h.first] at hperl
        exact .inl (Option.some.inj hperl).symm
      · exact .inr ⟨m, hm, ownParent_eq_some_iff.mpr ⟨hperl, hzero⟩⟩
  case parentOf =>
    intro c hc
    rcases List.mem_cons.mp hc with rfl | hc
    · exact h.first
    · obtain ⟨m, -, hc⟩ := List.mem_flatMap.mp hc
      obtain ⟨perl, hperl, rfl⟩ := List.mem_map.mp hc
      exact (ownParent_eq_some_iff.mp (Option.mem_toList.mp hperl)).1
  case nodupMips =>
    exact List.nodup_cons.mpr ⟨fun hmem => hown 0 hmem rfl, nodup_ownMips h⟩
  case mips =>
    exact fun m => (mem_serverMips_iff h).symm

/-- The walk ends, with one call for each parent interpreter and for each idle interpreter of
the servers, and puts the context back, if and only if every host has a config, and none with
its own config has `mod_perl` disabled. -/
theorem walk_servers_once_iff {threaded : Bool} {servers : Servers} {st : Startup}
    (hinit : init threaded servers = some st) (idle : ℕ → List ℕ) (current : Option ℕ)
    (w : Walk) :
    (∃ w' calls, walkServers servers st idle current w = some w' ∧
      w'.calls = w.calls ++ calls ∧ CallsOnce servers st idle calls ∧
      w'.context = current.getD w.context) ↔
    ∀ s ∈ servers.vhosts, ∃ scfg, s.scfg = some scfg ∧ HasMip servers s scfg := by
  obtain ⟨h, hhas⟩ := started_of_init hinit
  have hbase := @interpMipWalk_eq st idle current w (some 0) 0 (h.valid _ _ h.base)
  have hwalk : walkServers servers st idle current w =
      servers.vhosts.foldlM (walkServer servers st idle current 0)
        ⟨current.getD w.context, w.calls ++ ((some 0).toList ++ idleOf st idle 0).map (·, 0)⟩ := by
    rw [walkServers, h.basePerl, h.base, Option.bind_some, hbase, Option.bind_some]
  rw [hwalk]
  constructor
  · -- a host without a pool stops the walk, wherever it is in the list
    rintro ⟨w', calls, hres, -⟩ s hs
    cases hbind : s.scfg.bind st.mip with
    | none =>
        rw [foldlM_walkServer_eq_none hs hbind] at hres
        cases hres
    | some m =>
        obtain ⟨scfg, hscfg, hmip⟩ := Option.bind_eq_some_iff.mp hbind
        exact ⟨scfg, hscfg, (hhas s hs scfg hscfg).mp (Option.isSome_of_mem hmip)⟩
  · intro hall
    have hsome : ∀ s ∈ servers.vhosts, (s.scfg.bind st.mip).isSome := by
      intro s hs
      obtain ⟨scfg, hscfg, hmip⟩ := hall s hs
      rw [hscfg]
      exact (hhas s hs scfg hscfg).mpr hmip
    have hcontext : current.getD (current.getD w.context) = current.getD w.context := by
      cases current <;> rfl
    refine ⟨_, _, foldlM_walkServer h hsome hcontext, List.append_assoc .., callsOnce h, rfl⟩

/-- A host for each kind of config: an own parent, an own pool, the pool of the base server, and
no config of its own. -/
def fourHosts : Servers where
  scfgs := fun a => ⟨true, a = 1, a = 2, true⟩
  base := 0
  vhosts := [⟨true, some 1⟩, ⟨true, some 2⟩, ⟨true, some 3⟩, ⟨true, some 0⟩]
  distinct := by decide

theorem walk_servers_once_fourHosts : ∃ st w', init true fourHosts = some st ∧
    walkServers fourHosts st (fun m => [m + 10]) none ⟨0, []⟩ = some w' ∧
    CallsOnce fourHosts st (fun m => [m + 10]) w'.calls := by
  obtain ⟨st, hst⟩ : ∃ st, init true fourHosts = some st :=
    Option.isSome_iff_exists.mp (by decide +kernel)
  obtain ⟨w', calls, hw, hcalls, honce, -⟩ :=
    (walk_servers_once_iff hst (fun m => [m + 10]) none ⟨0, []⟩).mpr (by
      intro s hs
      simp only [fourHosts, List.mem_cons, List.not_mem_nil, or_false] at hs
      rcases hs with rfl | rfl | rfl | rfl <;> exact ⟨_, rfl, .inr (.inl rfl)⟩)
  exact ⟨st, w', hst, hw, hcalls ▸ honce⟩

/-- One host, with `PerlOptions -Enable`. -/
def disabledHost : Servers where
  scfgs := fun a => ⟨a = 0, false, false, true⟩
  base := 0
  vhosts := [⟨true, some 1⟩]
  distinct := by decide

/-- The walk follows the null pool of the host. -/
theorem walk_faults_disabledHost : (init true disabledHost).any
    (fun st => (walkServers disabledHost st (fun _ => []) none ⟨0, []⟩).isNone) = true := by
  decide +kernel

end Walk

end ModPerl
