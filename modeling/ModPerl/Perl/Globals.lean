import ModPerl.Env.Populate
import Mathlib.Data.List.Basic
import Mathlib.Logic.Function.Basic
import Mathlib.Data.Nat.Basic

/-!
# Saving and restoring the globals of Perl

Before a `perl-script` handler runs, five globals of the interpreter are saved, and
afterwards restored, each in its own way.  For `%ENV` the handler gets a copy of the hash;
for `@INC`, a new array with the same elements, so that the scalars in it are shared; the
flags of the output handle and the separator `PL_rs` are copied into the request, the latter
into a buffer of fixed size.  The magic of the `END` blocks is not saved at all: it is
turned on for the handler, and off afterwards.

Of the separator there are two scalars: that of `$/`, and `PL_rs`, which is what a read goes
by.  An assignment to `$/` makes `PL_rs` a new copy of it; the restore writes to that copy.

A handler may run sub-requests, which save and restore in turn.  Hashes and arrays are found
under their address, as are scalars: that a sub-request leaves alone what its parent has
put aside is a matter of the addresses that it can reach.

The functions are those of `modperl_perl_global.c`.
-/

namespace ModPerl

/-- A separator: the scalar of `$/`, or `PL_rs`. -/
inductive Rs
  | undef
  /-- A reference to the size of a record. -/
  | record (size : ℕ)
  /-- A string, and its flag `SvUTF8`. -/
  | str (pv : Bytes) (utf8 : Bool)
  deriving DecidableEq

namespace Rs

/-- A byte of the string is not ASCII. -/
def wide : Rs → Bool
  | .str pv _ => pv.any (128 ≤ ·)
  | _ => false

/-- The separator as Perl code sees it: the flag counts only where a byte is not ASCII. -/
def value : Rs → Rs
  | .str pv utf8 => .str pv (utf8 && pv.any (128 ≤ ·))
  | rs => rs

/-- `SvPVX` and `SvCUR`, where there is a string to read. -/
def pvx : Rs → Option Bytes
  | .str pv _ => some pv
  | _ => none

/-- `SvUTF8` -/
def utf8 : Rs → Bool
  | .str _ utf8 => utf8
  | _ => false

/-- `sv_setpvn`, which leaves the flag of the scalar as it is. -/
def setpvn (rs : Rs) (pv : Bytes) : Rs := .str pv rs.utf8

end Rs

/-- `PL_endav`: whether it has magic, and whether the magic is on. -/
structure EndAv where
  magic : Bool
  smagical : Bool
  deriving DecidableEq

/-- The interpreter, as far as the five globals go. -/
structure Perl where
  /-- `PL_endav`, which may be null. -/
  endav : Option EndAv
  /-- `GvHV(PL_envgv)` -/
  envHv : ℕ
  /-- `GvAV(PL_incgv)` -/
  incAv : ℕ
  /-- `PL_defoutgv`, the handle that is selected. -/
  defoutgv : ℕ
  /-- The scalar of `$/`. -/
  slash : Rs
  /-- `PL_rs` -/
  rs : Rs
  hvs : ℕ → EnvHash
  /-- The scalars in an array. -/
  avs : ℕ → List ℕ
  svs : ℕ → Bytes
  /-- `IoFLAGS` of a handle, with `$|` among them. -/
  ioFlags : ℕ → UInt8
  /-- Memory for hashes and arrays from here on is not in use. -/
  next : ℕ

/-- What Perl code sees of the globals. -/
structure Globals where
  /-- The magic of the `END` blocks is on. -/
  endMagic : Bool
  env : EnvHash
  inc : List Bytes
  /-- What `$/` reads as. -/
  slash : Rs
  /-- What a read goes by. -/
  rs : Rs
  /-- The flags of the selected handle. -/
  flags : UInt8
  deriving DecidableEq

namespace Perl

def endMagic (s : Perl) : Bool := s.endav.any EndAv.smagical

def globals (s : Perl) : Globals where
  endMagic := s.endMagic
  env := s.hvs s.envHv
  inc := (s.avs s.incAv).map s.svs
  slash := s.slash.value
  rs := s.rs.value
  flags := s.ioFlags s.defoutgv

/-- `%ENV` and `@INC` are in memory that is in use. -/
def Allocated (s : Perl) : Prop := s.envHv < s.next ∧ s.incAv < s.next

end Perl

/-- `modperl_perl_globals_t` -/
structure PerlGlobals where
  orighv : ℕ
  origav : ℕ
  gv : ℕ
  flags : UInt8
  /-- `svpv->pv`, all 256 bytes. -/
  pv : Bytes
  cur : ℕ
  deriving DecidableEq

/-- `modperl_perl_global_types_e` -/
inductive GlobalType
  | avcv | gvhv | gvav | gvio | svpv
  deriving DecidableEq

/-- `strncpy` from a string that ends with a null byte of its own. -/
def strncpy (n : ℕ) (src : Bytes) : Bytes :=
  let copied := ((src ++ [0]).takeWhile (· ≠ 0)).take n
  copied ++ List.replicate (n - copied.length) 0

namespace Perl

/-- `modperl_perl_global_avcv_tie` -/
def avcvTie (av : EndAv) : EndAv :=
  let av := if av.magic then av else { av with magic := true }
  { av with smagical := true }

/-- `modperl_perl_global_avcv_untie` -/
def avcvUntie (av : EndAv) : EndAv := { av with smagical := false }

/-- `modperl_perl_global_avcv_save` -/
def avcvSave (s : Perl) : Perl :=
  { s with endav := some (avcvTie (s.endav.getD ⟨false, false⟩)) }

/-- `modperl_perl_global_avcv_restore` -/
def avcvRestore (s : Perl) : Option Perl :=
  s.endav.map fun av => { s with endav := some (avcvUntie av) }

/-- `modperl_perl_global_gvhv_save`: `copyENV` is a new hash with the same entries. -/
def gvhvSave (g : PerlGlobals) (s : Perl) : PerlGlobals × Perl :=
  ({ g with orighv := s.envHv },
   { s with
     hvs := Function.update s.hvs s.next (s.hvs s.envHv)
     envHv := s.next
     next := s.next + 1 })

/-- `modperl_perl_global_gvhv_restore` -/
def gvhvRestore (g : PerlGlobals) (s : Perl) : Perl := { s with envHv := g.orighv }

/-- `modperl_perl_global_gvav_save`: `modperl_perl_av_push_elts_ref` pushes the same scalars. -/
def gvavSave (g : PerlGlobals) (s : Perl) : PerlGlobals × Perl :=
  ({ g with origav := s.incAv },
   { s with
     avs := Function.update s.avs s.next (s.avs s.incAv)
     incAv := s.next
     next := s.next + 1 })

/-- `modperl_perl_global_gvav_restore` -/
def gvavRestore (g : PerlGlobals) (s : Perl) : Perl := { s with incAv := g.origav }

/-- `modperl_perl_global_gvio_save` -/
def gvioSave (g : PerlGlobals) (s : Perl) : PerlGlobals :=
  { g with gv := s.defoutgv, flags := s.ioFlags s.defoutgv }

/-- `modperl_perl_global_gvio_restore` -/
def gvioRestore (g : PerlGlobals) (s : Perl) : Perl :=
  { s with ioFlags := Function.update s.ioFlags g.gv g.flags }

/-- `modperl_perl_global_svpv_save`: `none` if there is no string to read. -/
def svpvSave (g : PerlGlobals) (s : Perl) : Option PerlGlobals :=
  s.rs.pvx.map fun pv => { g with cur := pv.length, pv := strncpy 256 pv }

/-- `modperl_perl_global_svpv_restore`: `none` if it reads beyond the buffer. -/
def svpvRestore (g : PerlGlobals) (s : Perl) : Option Perl :=
  if g.cur ≤ g.pv.length then some { s with rs := s.rs.setpvn (g.pv.take g.cur) } else none

/-- `MP_perl_global_entries` -/
def entries : List GlobalType := [.avcv, .gvhv, .gvav, .gvio, .svpv]

def saveEntry (x : PerlGlobals × Perl) : GlobalType → Option (PerlGlobals × Perl)
  | .avcv => some (x.1, x.2.avcvSave)
  | .gvhv => some (gvhvSave x.1 x.2)
  | .gvav => some (gvavSave x.1 x.2)
  | .gvio => some (gvioSave x.1 x.2, x.2)
  | .svpv => (svpvSave x.1 x.2).map fun g => (g, x.2)

def restoreEntry (g : PerlGlobals) (s : Perl) : GlobalType → Option Perl
  | .avcv => avcvRestore s
  | .gvhv => some (gvhvRestore g s)
  | .gvav => some (gvavRestore g s)
  | .gvio => some (gvioRestore g s)
  | .svpv => svpvRestore g s

/-- `modperl_perl_global_request_save` -/
def requestSave (s : Perl) : Option (PerlGlobals × Perl) :=
  entries.foldlM saveEntry (⟨0, 0, 0, 0, [], 0⟩, s)

/-- `modperl_perl_global_request_restore` -/
def requestRestore (g : PerlGlobals) (s : Perl) : Option Perl := entries.foldlM (restoreEntry g) s

end Perl

/-- What a handler does to the globals. -/
inductive Change
  /-- The magic of the `END` blocks is turned on or off. -/
  | endMagic (on : Bool)
  /-- `%ENV = …`, or stores and deletions of keys. -/
  | env (entries : EnvHash)
  /-- Elements are pushed, shifted or spliced: the scalars that are in `@INC` afterwards. -/
  | inc (elems : List ℕ)
  /-- An assignment to a scalar, as by `$INC[0] = …`. -/
  | elem (sv : ℕ) (value : Bytes)
  /-- `$/ = …` -/
  | slash (rs : Rs)
  /-- `select` of another handle. -/
  | select (gv : ℕ)
  /-- `$| = …` and other flags of a handle. -/
  | flags (gv : ℕ) (flags : UInt8)

/-- A handler: changes and sub-requests, each with its own handler. -/
inductive CgiHandler
  | done
  | change (c : Change) (rest : CgiHandler)
  | request (body rest : CgiHandler)

namespace Perl

def change (s : Perl) : Change → Perl
  | .endMagic on => { s with endav := s.endav.map fun av => { av with smagical := on } }
  | .env entries => { s with hvs := Function.update s.hvs s.envHv entries }
  | .inc elems => { s with avs := Function.update s.avs s.incAv elems }
  | .elem sv value => { s with svs := Function.update s.svs sv value }
  -- the magic of `$/` makes `PL_rs` a copy
  | .slash rs => { s with slash := rs, rs := rs }
  | .select gv => { s with defoutgv := gv }
  | .flags gv flags => { s with ioFlags := Function.update s.ioFlags gv flags }

/-- A handler runs; each sub-request is bracketed by a save and a restore. -/
def run : CgiHandler → Perl → Option Perl
  | .done, s => some s
  | .change c rest, s => run rest (s.change c)
  | .request body rest, s =>
      s.requestSave.bind fun x => (run body x.2).bind fun s =>
        (s.requestRestore x.1).bind fun s => run rest s

/-- The handler of a request has run, and its globals are about to be restored. -/
def handled (body : CgiHandler) (s : Perl) : Option (PerlGlobals × Perl) :=
  s.requestSave.bind fun x => (run body x.2).map fun s => (x.1, s)

/-- One request: it is restored after its handler. -/
def request (body : CgiHandler) (s : Perl) : Option Perl :=
  (s.handled body).bind fun x => x.2.requestRestore x.1

/-- The requests in the run of a handler, at any depth: the state before the save, and the handler
of the request. -/
inductive Requests : CgiHandler → Perl → Perl → CgiHandler → Prop
  | here {body rest : CgiHandler} {s : Perl} : Requests (.request body rest) s s body
  | inside {body rest b : CgiHandler} {s s₁ t : Perl} {g : PerlGlobals}
      (hsave : s.requestSave = some (g, s₁)) (h : Requests body s₁ t b) :
      Requests (.request body rest) s t b
  | after {body rest b : CgiHandler} {s s' t : Perl} (hs : s.request body = some s')
      (h : Requests rest s' t b) : Requests (.request body rest) s t b
  | change {c : Change} {rest b : CgiHandler} {s t : Perl} (h : Requests rest (s.change c) t b) :
      Requests (.change c rest) s t b

variable {s s' s'' : Perl} {g : PerlGlobals} {body rest : CgiHandler}

theorem run_request : run (.request body rest) s = (s.request body).bind (run rest) := by
  rw [run, request, handled]
  cases s.requestSave with
  | none => rfl
  | some x => cases hrun : run body x.2 <;> simp [hrun]

/-! ## What is put aside -/

/-- The interpreter in the handler of a request. -/
def inRequest (s : Perl) : Perl :=
  { s with
    endav := some ⟨true, true⟩
    hvs := Function.update s.hvs s.next (s.hvs s.envHv)
    envHv := s.next
    avs := Function.update s.avs (s.next + 1) (s.avs s.incAv)
    incAv := s.next + 1
    next := s.next + 2 }

/-- What the request remembers. -/
def remembered (s : Perl) (pv : Bytes) : PerlGlobals where
  orighv := s.envHv
  origav := s.incAv
  gv := s.defoutgv
  flags := s.ioFlags s.defoutgv
  pv := strncpy 256 pv
  cur := pv.length

theorem requestSave_eq : s.requestSave = s.rs.pvx.map fun pv => (s.remembered pv, s.inRequest) := by
  have hend : avcvTie (s.endav.getD ⟨false, false⟩) = ⟨true, true⟩ := by
    unfold avcvTie
    cases h : (s.endav.getD ⟨false, false⟩).magic <;> simp [h]
  simp only [requestSave, entries, List.foldlM_cons, List.foldlM_nil, saveEntry, avcvSave, hend]
  cases hpv : s.rs.pvx with
  | none => simp [svpvSave, gvioSave, gvavSave, gvhvSave, hpv]
  | some pv => simp [svpvSave, gvioSave, gvavSave, gvhvSave, hpv, remembered, inRequest]

/-- The interpreter after the restore. -/
def restored (g : PerlGlobals) (av : EndAv) (s : Perl) : Perl :=
  { s with
    endav := some (avcvUntie av)
    envHv := g.orighv
    incAv := g.origav
    ioFlags := Function.update s.ioFlags g.gv g.flags
    rs := s.rs.setpvn (g.pv.take g.cur) }

theorem requestRestore_eq : s.requestRestore g = s.endav.bind fun av =>
    if g.cur ≤ g.pv.length then some (s.restored g av) else none := by
  simp only [requestRestore, entries, List.foldlM_cons, List.foldlM_nil, restoreEntry, avcvRestore]
  cases s.endav with
  | none => rfl
  | some av =>
      by_cases hle : g.cur ≤ g.pv.length <;>
        simp [svpvRestore, gvioRestore, gvavRestore, gvhvRestore, hle, restored]

/-- What a handler leaves alone: the memory that is in use, other than that of the current
`%ENV` and `@INC`. -/
structure Frame (s s' : Perl) : Prop where
  envHv : s'.envHv = s.envHv
  incAv : s'.incAv = s.incAv
  next : s.next ≤ s'.next
  endav : s.endav.isSome → s'.endav.isSome
  hvs : ∀ a < s.next, a ≠ s.envHv → s'.hvs a = s.hvs a
  avs : ∀ a < s.next, a ≠ s.incAv → s'.avs a = s.avs a

theorem Frame.refl (s : Perl) : Frame s s :=
  ⟨rfl, rfl, le_rfl, id, fun _ _ _ => rfl, fun _ _ _ => rfl⟩

theorem Frame.trans (h : Frame s s') (h' : Frame s' s'') : Frame s s'' where
  envHv := h'.envHv.trans h.envHv
  incAv := h'.incAv.trans h.incAv
  next := Nat.le_trans h.next h'.next
  endav := fun hs => h'.endav (h.endav hs)
  hvs := fun a ha hne =>
    (h'.hvs a (Nat.lt_of_lt_of_le ha h.next) (h.envHv ▸ hne)).trans (h.hvs a ha hne)
  avs := fun a ha hne =>
    (h'.avs a (Nat.lt_of_lt_of_le ha h.next) (h.incAv ▸ hne)).trans (h.avs a ha hne)

theorem Frame.allocated (h : Frame s s') (hs : s.Allocated) : s'.Allocated :=
  ⟨h.envHv ▸ Nat.lt_of_lt_of_le hs.1 h.next, h.incAv ▸ Nat.lt_of_lt_of_le hs.2 h.next⟩

theorem allocated_inRequest : s.inRequest.Allocated :=
  ⟨Nat.lt_succ_of_lt (Nat.lt_succ_self _), Nat.lt_succ_self _⟩

theorem frame_change {c : Change} : Frame s (s.change c) := by
  cases c with
  | endMagic on =>
      refine ⟨rfl, rfl, le_rfl, fun hs => ?_, fun _ _ _ => rfl, fun _ _ _ => rfl⟩
      simpa [Perl.change] using hs
  | env entries =>
      exact ⟨rfl, rfl, le_rfl, id, fun a _ hne => Function.update_of_ne hne .., fun _ _ _ => rfl⟩
  | inc elems =>
      exact ⟨rfl, rfl, le_rfl, id, fun _ _ _ => rfl, fun a _ hne => Function.update_of_ne hne ..⟩
  | elem sv value => exact ⟨rfl, rfl, le_rfl, id, fun _ _ _ => rfl, fun _ _ _ => rfl⟩
  | slash rs => exact ⟨rfl, rfl, le_rfl, id, fun _ _ _ => rfl, fun _ _ _ => rfl⟩
  | select gv => exact ⟨rfl, rfl, le_rfl, id, fun _ _ _ => rfl, fun _ _ _ => rfl⟩
  | flags gv flags => exact ⟨rfl, rfl, le_rfl, id, fun _ _ _ => rfl, fun _ _ _ => rfl⟩

theorem handled_eq_some_iff {s₂ : Perl} : s.handled body = some (g, s₂) ↔
    ∃ pv, s.rs.pvx = some pv ∧ g = s.remembered pv ∧ run body s.inRequest = some s₂ := by
  rw [handled, requestSave_eq]
  constructor
  · intro hs
    obtain ⟨x, hx, hs⟩ := Option.bind_eq_some_iff.mp hs
    obtain ⟨pv, hpv, rfl⟩ := Option.map_eq_some_iff.mp hx
    obtain ⟨s₁, hrun, heq⟩ := Option.map_eq_some_iff.mp hs
    obtain ⟨rfl, rfl⟩ := Prod.ext_iff.mp heq
    exact ⟨pv, hpv, rfl, hrun⟩
  · rintro ⟨pv, hpv, rfl, hrun⟩
    rw [hpv, Option.map_some, Option.bind_some, hrun]
    rfl

theorem request_eq_some_iff : s.request body = some s' ↔ ∃ g s₂ av, s.handled body = some (g, s₂) ∧
    s₂.endav = some av ∧ g.cur ≤ g.pv.length ∧ s₂.restored g av = s' := by
  rw [request, Option.bind_eq_some_iff]
  constructor
  · rintro ⟨⟨g, s₂⟩, hhandled, hs⟩
    rw [requestRestore_eq] at hs
    obtain ⟨av, hav, hs⟩ := Option.bind_eq_some_iff.mp hs
    obtain ⟨hle, hs⟩ := Option.ite_none_right_eq_some.mp hs
    exact ⟨g, s₂, av, hhandled, hav, hle, Option.some.inj hs⟩
  · rintro ⟨g, s₂, av, hhandled, hav, hle, rfl⟩
    refine ⟨(g, s₂), hhandled, ?_⟩
    rw [requestRestore_eq, hav, Option.bind_some, if_pos hle]

/-- A request reaches less than a handler: not even the hash and the array of its parent. -/
theorem memory_of_handled {s₂ : Perl} (hbody : Frame s.inRequest s₂) :
    s.next ≤ s₂.next ∧ (∀ a < s.next, s₂.hvs a = s.hvs a) ∧ ∀ a < s.next, s₂.avs a = s.avs a := by
  have hnext : s.next + 2 ≤ s₂.next := hbody.next
  refine ⟨by omega, fun a ha => ?_, fun a ha => ?_⟩
  · have hne : a ≠ s.next := Nat.ne_of_lt ha
    exact (hbody.hvs a (Nat.lt_add_right 2 ha) hne).trans (Function.update_of_ne hne ..)
  · have hne : a ≠ s.next + 1 := Nat.ne_of_lt (Nat.lt_succ_of_lt ha)
    exact (hbody.avs a (Nat.lt_add_right 2 ha) hne).trans (Function.update_of_ne hne ..)

/-- The induction is on the handler: what a sub-request has put aside is in memory that was not
in use before. -/
theorem frame_run {handler : CgiHandler} (hrun : run handler s = some s') : Frame s s' := by
  induction handler generalizing s s' with
  | done =>
      obtain rfl := Option.some.inj hrun
      exact Frame.refl s
  | change c rest ih => exact frame_change.trans (ih hrun)
  | request body rest ihbody ihrest =>
      rw [run_request] at hrun
      obtain ⟨s₁, hs₁, hrun⟩ := Option.bind_eq_some_iff.mp hrun
      refine Frame.trans ?_ (ihrest hrun)
      obtain ⟨g, s₂, av, hhandled, -, -, rfl⟩ := request_eq_some_iff.mp hs₁
      obtain ⟨pv, -, rfl, hbody⟩ := handled_eq_some_iff.mp hhandled
      obtain ⟨hnext, hhvs, havs⟩ := memory_of_handled (ihbody hbody)
      exact ⟨rfl, rfl, hnext, fun _ => rfl, fun a ha _ => hhvs a ha, fun a ha _ => havs a ha⟩

theorem frame_request (hs : s.request body = some s') : Frame s s' := by
  have hrun : run (.request body .done) s = some s' := by
    rw [run_request, hs]
    rfl
  exact frame_run hrun

theorem Requests.allocated {handler : CgiHandler} {t : Perl} (h : Requests handler s t body)
    (hs : s.Allocated) : t.Allocated := by
  induction h with
  | here => exact hs
  | inside hsave _ ih =>
      rw [requestSave_eq] at hsave
      obtain ⟨pv, -, heq⟩ := Option.map_eq_some_iff.mp hsave
      obtain ⟨-, rfl⟩ := Prod.ext_iff.mp heq
      exact ih allocated_inRequest
  | after hs' _ ih => exact ih ((frame_request hs').allocated hs)
  | change _ ih => exact ih (frame_change.allocated hs)

/-! ## The buffer of `PL_rs` -/

/-- What survives the copy: a string of at most 256 bytes in which nothing but null bytes follows
a null byte. -/
def Storable : Rs → Prop
  | .str pv _ => pv.length ≤ 256 ∧ ∀ b ∈ pv.dropWhile (· ≠ 0), b = 0
  | _ => False

instance : DecidablePred Storable
  | .undef | .record _ => inferInstanceAs (Decidable False)
  | .str pv _ =>
      letI : Decidable (∀ b ∈ pv.dropWhile (· ≠ 0), b = 0) := List.decidableBAll _ _
      inferInstanceAs (Decidable (_ ∧ _))

theorem length_strncpy {n : ℕ} {src : Bytes} : (strncpy n src).length = n := by
  have hle := List.length_take_le n ((src ++ [0]).takeWhile (· ≠ 0))
  simp only [strncpy, List.length_append, List.length_replicate]
  omega

theorem takeWhile_terminated {pv : Bytes} :
    (pv ++ [0]).takeWhile (· ≠ 0) = pv.takeWhile (· ≠ 0) := by
  induction pv with
  | nil => simp
  | cons b pv ih =>
      by_cases hb : b = 0
      · simp [hb]
      · simpa [hb] using ih

/-- The copy gives back the string, up to the null byte and with null bytes behind it. -/
theorem take_strncpy {n : ℕ} {pv : Bytes} (hle : pv.length ≤ n) :
    (strncpy n pv).take pv.length =
      pv.takeWhile (· ≠ 0) ++ List.replicate (pv.dropWhile (· ≠ 0)).length 0 := by
  have hsplit : pv.takeWhile (· ≠ 0) ++ pv.dropWhile (· ≠ 0) = pv :=
    List.takeWhile_append_dropWhile
  have hlen := congrArg List.length hsplit
  rw [List.length_append] at hlen
  have htake : (pv.takeWhile (· ≠ 0)).take n = pv.takeWhile (· ≠ 0) :=
    List.take_of_length_le (by omega)
  rw [strncpy, takeWhile_terminated]
  simp only [htake]
  rw [List.take_append, List.take_of_length_le (by omega), List.take_replicate]
  congr 2
  omega

theorem take_strncpy_eq_iff {n : ℕ} {pv : Bytes} (hle : pv.length ≤ n) :
    (strncpy n pv).take pv.length = pv ↔ ∀ b ∈ pv.dropWhile (· ≠ 0), b = 0 := by
  rw [take_strncpy hle]
  conv_lhs => rhs; rw [← List.takeWhile_append_dropWhile (p := (· ≠ 0)) (l := pv)]
  rw [List.append_cancel_left_eq, eq_comm, List.eq_replicate_iff]
  exact and_iff_right rfl

/-! ## Every request of a run -/

/-- The handler gives back the scalars that were in `@INC` as they were, `$/` with the value that
it had, `PL_rs` with its flag where that counts, and the handle that was selected, or one with
the same flags. -/
structure Untouched (s s₂ : Perl) : Prop where
  elems : ∀ sv ∈ s.avs s.incAv, s₂.svs sv = s.svs sv
  slash : s₂.slash.value = s.slash.value
  utf8 : s₂.rs.utf8 = s.rs.utf8 ∨ s.rs.wide = false
  flags : s₂.defoutgv = s.defoutgv ∨ s₂.ioFlags s₂.defoutgv = s.ioFlags s.defoutgv

instance (s s₂ : Perl) : Decidable (Untouched s s₂) :=
  decidable_of_iff
    ((∀ sv ∈ s.avs s.incAv, s₂.svs sv = s.svs sv) ∧ s₂.slash.value = s.slash.value ∧
      (s₂.rs.utf8 = s.rs.utf8 ∨ s.rs.wide = false) ∧
      (s₂.defoutgv = s.defoutgv ∨ s₂.ioFlags s₂.defoutgv = s.ioFlags s.defoutgv))
    ⟨fun ⟨helems, hslash, hutf8, hflags⟩ => ⟨helems, hslash, hutf8, hflags⟩,
      fun h => ⟨h.elems, h.slash, h.utf8, h.flags⟩⟩

/-- The restore gives back `PL_rs` if and only if its string survives the copy and its flag is
what it was, where the flag counts. -/
theorem value_setpvn_iff {rs rs₂ : Rs} {pv : Bytes} (hpv : rs.pvx = some pv) :
    (rs₂.setpvn ((strncpy 256 pv).take pv.length)).value = rs.value ↔
      (strncpy 256 pv).take pv.length = pv ∧ (rs₂.utf8 = rs.utf8 ∨ rs.wide = false) := by
  cases rs with
  | undef => cases hpv
  | record size => cases hpv
  | str pv' utf8 =>
      obtain rfl := Option.some.inj hpv
      rw [Rs.setpvn, Rs.value, Rs.value, Rs.str.injEq]
      refine and_congr_right fun hcopy => ?_
      rw [hcopy, Rs.wide]
      cases hwide : pv'.any (128 ≤ ·) with
      | false => simp
      | true => simp [Rs.utf8]

/-- One request. -/
theorem request_restores_iff (hs : s.Allocated) :
    (∃ s', s.request body = some s' ∧ s'.globals = s.globals) ↔
      s.endMagic = false ∧ Storable s.rs ∧
        ∃ g s₂, s.handled body = some (g, s₂) ∧ Untouched s s₂ := by
  have hglobals : ∀ pv s₂ av, s.rs.pvx = some pv → run body s.inRequest = some s₂ →
      ((s₂.restored (s.remembered pv) av).globals = s.globals ↔ s.endMagic = false ∧
        (strncpy 256 pv).take pv.length = pv ∧ Untouched s s₂) := by
    intro pv s₂ av hpv hbody
    obtain ⟨-, hhvs, havs⟩ := memory_of_handled (frame_run hbody)
    -- the restore turns the magic off, whatever it was
    have hend : (s₂.restored (s.remembered pv) av).endMagic = false := rfl
    -- `$|` belongs to the handle that is selected at the end
    have hflags : (Function.update s₂.ioFlags s.defoutgv (s.ioFlags s.defoutgv) s₂.defoutgv =
        s.ioFlags s.defoutgv) ↔ s₂.defoutgv = s.defoutgv ∨
          s₂.ioFlags s₂.defoutgv = s.ioFlags s.defoutgv := by
      rw [Function.update_apply]
      split_ifs with hgv
      · simp [hgv]
      · simp [hgv]
    simp only [globals, Globals.mk.injEq, hend]
    simp only [restored, remembered, hhvs s.envHv hs.1, havs s.incAv hs.2, hflags,
      List.map_inj_left, value_setpvn_iff hpv, true_and]
    exact ⟨fun ⟨hmagic, helems, hslash, ⟨hcopy, hutf8⟩, hflags⟩ =>
        ⟨hmagic.symm, hcopy, helems, hslash, hutf8, hflags⟩,
      fun ⟨hmagic, hcopy, huntouched⟩ => ⟨hmagic.symm, huntouched.elems, huntouched.slash,
        ⟨hcopy, huntouched.utf8⟩, huntouched.flags⟩⟩
  -- the restore reads `cur` bytes of the buffer
  have hstorable : ∀ pv, s.rs.pvx = some pv → (Storable s.rs ↔
      (s.remembered pv).cur ≤ (s.remembered pv).pv.length ∧
        (strncpy 256 pv).take pv.length = pv) := by
    intro pv hpv
    cases hstr : s.rs with
    | undef => simp [hstr, Rs.pvx] at hpv
    | record size => simp [hstr, Rs.pvx] at hpv
    | str pv' utf8 =>
        rw [hstr] at hpv
        obtain rfl := Option.some.inj hpv
        rw [remembered, length_strncpy]
        exact and_congr_right fun hle => (take_strncpy_eq_iff hle).symm
  constructor
  · rintro ⟨s', hs', heq⟩
    obtain ⟨g, s₂, av, hhandled, -, hle, rfl⟩ := request_eq_some_iff.mp hs'
    obtain ⟨pv, hpv, rfl, hbody⟩ := handled_eq_some_iff.mp hhandled
    obtain ⟨hend, hcopy, huntouched⟩ := (hglobals pv s₂ av hpv hbody).mp heq
    exact ⟨hend, (hstorable pv hpv).mpr ⟨hle, hcopy⟩, _, s₂, hhandled, huntouched⟩
  · rintro ⟨hend, hrs, g, s₂, hhandled, huntouched⟩
    obtain ⟨pv, hpv, rfl, hbody⟩ := handled_eq_some_iff.mp hhandled
    obtain ⟨av, hav⟩ := Option.isSome_iff_exists.mp ((frame_run hbody).endav rfl)
    obtain ⟨hle, hcopy⟩ := (hstorable pv hpv).mp hrs
    exact ⟨_, request_eq_some_iff.mpr ⟨_, s₂, av, hhandled, hav, hle, rfl⟩,
      (hglobals pv s₂ av hpv hbody).mpr ⟨hend, hcopy, huntouched⟩⟩

/-- A request of a run, at any depth, finds the five globals as they were, if and only if the
magic of the `END` blocks was off, `PL_rs` fits the buffer, and its handler returns with the
shared scalars, `$/` and the selected handle untouched. -/
theorem globals_restored_iff {handler : CgiHandler} {s₀ : Perl} (hs : s₀.Allocated)
    (h : Requests handler s₀ s body) :
    (∃ s', s.request body = some s' ∧ s'.globals = s.globals) ↔
      s.endMagic = false ∧ Storable s.rs ∧
        ∃ g s₂, s.handled body = some (g, s₂) ∧ Untouched s s₂ :=
  request_restores_iff (h.allocated hs)

/-- An interpreter between two requests. -/
def idle : Perl where
  endav := none
  envHv := 0
  incAv := 1
  defoutgv := 0
  slash := .str (ascii "\n") false
  rs := .str (ascii "\n") false
  hvs := fun _ => [(ascii "PATH", ascii "/bin")]
  avs := fun _ => [0, 1]
  svs := fun _ => ascii "lib"
  ioFlags := fun _ => 0
  next := 2

/-- A handler that changes the globals and runs a sub-request.  It puts `$/` back itself. -/
def nested : CgiHandler :=
  .change (.env []) (.change (.inc [2, 0, 1]) (.change (.slash (.str (ascii "abc") false))
    (.request (.change (.flags 0 4) .done)
      (.change (.flags 0 4) (.change (.slash (.str (ascii "\n") false)) .done)))))

theorem globals_restored_nested :
    ∃ s', idle.request nested = some s' ∧ s'.globals = idle.globals := by
  have hres : (idle.handled nested).any (fun x => decide (Untouched idle x.2)) = true := by
    decide +kernel
  obtain ⟨⟨g, s₂⟩, hhandled, huntouched⟩ := (Option.any_eq_true ..).mp hres
  exact (@globals_restored_iff idle nested (.request nested .done) idle
    ⟨Nat.two_pos, Nat.one_lt_two⟩ .here).mpr
      ⟨rfl, by decide +kernel, g, s₂, hhandled, of_decide_eq_true huntouched⟩

/-- The restore of a sub-request that does nothing turns the magic of its parent off. -/
theorem endMagic_lost_in_nested :
    ∃ s, Requests (.request (.request .done .done) .done) idle s .done ∧
      s.globals.endMagic = true ∧
      (s.request .done).any (fun s' => !s'.globals.endMagic) = true := by
  have hsave : idle.requestSave = some (idle.remembered (ascii "\n"), idle.inRequest) :=
    requestSave_eq
  exact ⟨idle.inRequest, .inside hsave .here, rfl, by decide +kernel⟩

end Perl

end ModPerl
