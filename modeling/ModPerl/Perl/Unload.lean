import Mathlib.Data.List.InsertIdx
import ModPerl.Httpd

/-!
# Unloading a package

`modperl_package_unload` deletes the symbols of a package and its entry in
`%INC`; if the package has a shared library, this is closed, and taken off the
two lists that `DynaLoader` keeps of the libraries that it has loaded, one of
handles and one of names.  The removal works for the first entry of a list only,
and for the last one: any other takes the entry behind it along.  The search for
the package stops in front of the last entry.

`ModPerl::Util::unload_package` does not go there, but to `unload_package_pp`, unless
it is told to.  This one keeps the symbols, and knows of no libraries.

The functions are those of `modperl_util.c`.  A result of `none` is an access to
an array or to an element that is not there.
-/

namespace ModPerl

/-- An entry of a stash: its key, whether it belongs to the package of this stash
(`GvSTASH(val) == stash`), and the sub that it has. -/
structure Symbol where
  key : Bytes
  own : Bool
  code : Option ℕ
  deriving DecidableEq

/-- The packages of an interpreter: the stash under each name, `%INC`, the two arrays
of `DynaLoader`, whose elements may be missing, and the handles that were closed. -/
structure Packages where
  stash : Bytes → List Symbol
  inc : Table Bytes (Option Bytes)
  dlModules : List (Option Bytes)
  dlLibrefs : List (Option Int)
  closed : List Int

/-- The name of the stash that `gv_stashpv` finds: `::` and `main::` in front of a name
are the same package as none. -/
def stashName (package : Bytes) : Bytes := strip package.length package
where
  strip : ℕ → Bytes → Bytes
    | 0, name => name
    | n + 1, name =>
        if ascii "::" <+: name then strip n (name.drop 2)
        else if ascii "main::" <+: name then strip n (name.drop 6)
        else name

/-- `package2filename` without the `.pm` -/
def slashed : Bytes → Bytes
  | 58 :: 58 :: rest => 47 :: slashed rest
  | c :: rest => c :: slashed rest
  | [] => []

/-- `package2filename` -/
def package2filename (package : Bytes) : Bytes := slashed package ++ ascii ".pm"

/-- `MP_SAFE_STASH`: neither the stash of a package inside this one, nor an entry of the
debugger. -/
def safeStash (key : Bytes) : Bool := !(ascii "::" <:+ key || ascii "_<" <+: key)

/-! ## Arrays -/

/-- `av_store`: an array that is too short is filled up. -/
def avStore {α : Type*} (av : List (Option α)) (i : ℕ) (sv : Option α) : List (Option α) :=
  if i < av.length then av.set i sv else av ++ List.replicate (i - av.length) none ++ [sv]

/-- `av_unshift`: so many missing elements in front, none for a number that is not
positive. -/
def avUnshift {α : Type*} (av : List (Option α)) (num : Int) : List (Option α) :=
  List.replicate num.toNat none ++ av

/-- The first loop of `modperl_av_remove_entry`: the elements up to and with the one to
be deleted are moved over to `tmpav`. -/
def avStash {α : Type*} (av : List (Option α)) (n : ℕ) : List (Option α) × List (Option α) :=
  (List.range n).foldl (fun (tmpav, av) i => (avStore tmpav i (av.headD none), av.tail)) ([], av)

/-- `modperl_av_remove_entry` -/
def avRemoveEntry {α : Type*} (av : List (Option α)) (index : ℕ) : List (Option α) :=
  let (tmpav, av) := avStash av (index + 1)
  (List.range index).foldl (fun av i => avStore av i (tmpav.getD i none))
    (avUnshift av ((index : Int) - 1))

namespace Packages

/-- `get_av` without the flag that would make the array: it is there if its symbol is. -/
def getAv {α : Type*} (p : Packages) (name : String) (av : List (Option α)) :
    Option (List (Option α)) :=
  if ∃ symbol ∈ p.stash (ascii "DynaLoader"), symbol.key = ascii name then some av else none

/-- `modperl_package_clear_stash` -/
def clearStash (p : Packages) (package : Bytes) : Packages :=
  { p with
    stash := fun name =>
      if name = stashName package then
        (p.stash name).filter fun symbol => !(safeStash symbol.key && symbol.own)
      else p.stash name }

/-- `modperl_package_delete_from_inc` -/
def deleteFromInc (p : Packages) (package : Bytes) : Packages :=
  { p with inc := Table.unset id p.inc (package2filename package) }

/-- The loop of `modperl_package_is_dynamic`, with `i` for the index of the first element. -/
def scanModules (package : Bytes) : List (Option Bytes) → ℕ → Option (Option ℕ)
  | [], _ => some none
  | none :: _, _ => none
  | some module :: rest, i =>
      if package = module then some (some i) else scanModules package rest (i + 1)

/-- `modperl_package_is_dynamic`: the index, if there is one.  `av_len` is the index of
the last element, and the loop stops in front of it. -/
def packageIsDynamic (p : Packages) (package : Bytes) : Option (Option ℕ) :=
  (p.getAv "dl_modules" p.dlModules).bind fun modules => scanModules package modules.dropLast 0

/-- `modperl_package_unload_dynamic` -/
def packageUnloadDynamic (p : Packages) (dlIndex : ℕ) : Option Packages :=
  (p.getAv "dl_librefs" p.dlLibrefs).bind fun librefs =>
    (librefs[dlIndex]?.join).bind fun libref =>
      (p.getAv "dl_modules" p.dlModules).map fun modules =>
        { p with
          closed := p.closed ++ [libref]
          dlLibrefs := avRemoveEntry librefs dlIndex
          dlModules := avRemoveEntry modules dlIndex }

/-- `modperl_package_unload` -/
def packageUnload (p : Packages) (package : Bytes) : Option Packages :=
  let p := (p.clearStash package).deleteFromInc package
  (p.packageIsDynamic package).bind fun
    | some dlIndex => p.packageUnloadDynamic dlIndex
    | none => some p

/-- `unload_package_pp`, for a package other than `main`: each symbol gets an empty sub
for the one that it has, and this is undefined then, so that other names of the sub keep
it.  The arrays go the same way, and so the two lists with `DynaLoader`.  The entries that
are left out of this, `/::$/`, are the stashes of packages inside this one. -/
def unloadPackagePp (p : Packages) (package : Bytes) : Packages :=
  { p with
    stash := fun name =>
      if name = stashName package then
        (p.stash name).map fun symbol =>
          if ascii "::" <:+ symbol.key ∨ ascii "::\n" <:+ symbol.key then symbol
          else { symbol with code := none }
      else p.stash name
    inc := Table.unset id p.inc (package2filename package)
    dlModules := if stashName package = ascii "DynaLoader" then [] else p.dlModules
    dlLibrefs := if stashName package = ascii "DynaLoader" then [] else p.dlLibrefs }

/-- The lists of `DynaLoader` are as it has filled them, the handle of each library at
the place of its name. -/
structure Parallel (p : Packages) (modules : List Bytes) (librefs : List Int) : Prop where
  dlModules : p.dlModules = modules.map some
  dlLibrefs : p.dlLibrefs = librefs.map some
  length_eq : librefs.length = modules.length
  modulesSymbol : ∃ symbol ∈ p.stash (ascii "DynaLoader"), symbol.key = ascii "dl_modules"
  librefsSymbol : ∃ symbol ∈ p.stash (ascii "DynaLoader"), symbol.key = ascii "dl_librefs"
  own : ∀ symbol ∈ p.stash (ascii "DynaLoader"),
    symbol.key = ascii "dl_modules" ∨ symbol.key = ascii "dl_librefs" → symbol.own = true

/-- The unloading takes from both lists the entry of the package and closes its handle;
of a package that is not in the lists nothing is taken, and nothing is closed. -/
def UnloadsOwn (p : Packages) (package : Bytes) (modules : List Bytes) (librefs : List Int) :
    Prop :=
  ∃ p', p.packageUnload package = some p' ∧
    match modules.idxOf? package with
    | some i => p'.dlModules = (modules.eraseIdx i).map some ∧
        p'.dlLibrefs = (librefs.eraseIdx i).map some ∧
        ∃ libref, librefs[i]? = some libref ∧ p'.closed = p.closed ++ [libref]
    | none => p'.dlModules = p.dlModules ∧ p'.dlLibrefs = p.dlLibrefs ∧ p'.closed = p.closed

end Packages

variable {α : Type*} {av : List (Option α)} {p : Packages} {package : Bytes}
  {modules : List Bytes} {librefs : List Int} {i n : ℕ}

/-! ## The removal from an array -/

theorem avStore_append (av : List (Option α)) (sv : Option α) :
    avStore av av.length sv = av ++ [sv] := by
  rw [avStore, if_neg (Nat.lt_irrefl _), Nat.sub_self, List.replicate_zero, List.append_nil]

theorem avStash_eq (h : n ≤ av.length) : avStash av n = (av.take n, av.drop n) := by
  induction n with
  | zero => rfl
  | succ n ih =>
      have hn : n < av.length := h
      have hlength : (av.take n).length = n := List.length_take_of_le (Nat.le_of_lt hn)
      have hstore := avStore_append (av.take n) ((av.drop n).headD none)
      rw [hlength] at hstore
      have hstash := ih (Nat.le_of_lt hn)
      unfold avStash at hstash ⊢
      rw [List.range_succ, List.foldl_append, hstash, List.foldl_cons, List.foldl_nil]
      simp only [hstore, List.tail_drop]
      rw [List.take_add_one, List.headD_eq_head?_getD, List.head?_drop, List.getElem?_eq_getElem hn]
      rfl

/-- Storing the first elements of one array in another that lacks at most one of them. -/
theorem foldl_avStore (tmpav av : List (Option α)) (htmp : n ≤ tmpav.length)
    (hav : n ≤ av.length + 1) :
    (List.range n).foldl (fun av i => avStore av i (tmpav.getD i none)) av =
      tmpav.take n ++ av.drop n := by
  induction n with
  | zero => rfl
  | succ n ih =>
      have hn : n < tmpav.length := htmp
      have hlength : (tmpav.take n).length = n := List.length_take_of_le (Nat.le_of_lt hn)
      have htake : tmpav.take (n + 1) = tmpav.take n ++ [tmpav.getD n none] := by
        rw [List.take_add_one, List.getD_eq_getElem?_getD, List.getElem?_eq_getElem hn]
        rfl
      rw [List.range_succ, List.foldl_append, ih (Nat.le_of_lt hn) (by omega), List.foldl_cons,
        List.foldl_nil, htake]
      cases hdrop : av.drop n with
      | nil =>
          have hshort : av.length ≤ n := List.drop_eq_nil_iff.mp hdrop
          have hstore := avStore_append (tmpav.take n) (tmpav.getD n none)
          rw [hlength] at hstore
          rw [List.append_nil, hstore, List.drop_of_length_le (by omega), List.append_nil]
      | cons sv rest =>
          have hrest : av.drop (n + 1) = rest := by
            rw [← List.drop_drop, hdrop]
            rfl
          have hstored : n < (tmpav.take n ++ sv :: rest).length := by
            rw [List.length_append, List.length_cons]
            omega
          calc avStore (tmpav.take n ++ sv :: rest) n (tmpav.getD n none)
              = (tmpav.take n ++ sv :: rest).set n (tmpav.getD n none) := by
                rw [avStore, if_pos hstored]
            _ = tmpav.take n ++ tmpav.getD n none :: rest := by
                rw [List.set_append_right _ _ (by omega), hlength, Nat.sub_self,
                  List.set_cons_zero]
            _ = tmpav.take n ++ [tmpav.getD n none] ++ av.drop (n + 1) := by
                rw [hrest, List.append_assoc, List.singleton_append]

/-- The first entry is removed. -/
theorem avRemoveEntry_zero (av : List (Option α)) (h : 0 < av.length) :
    avRemoveEntry av 0 = av.tail := by
  unfold avRemoveEntry
  rw [avStash_eq h]
  exact List.drop_one

/-- With any other entry the one behind it goes. -/
theorem avRemoveEntry_succ (h : i + 1 < av.length) :
    avRemoveEntry av (i + 1) = av.take (i + 1) ++ av.drop (i + 3) := by
  have hnum : (((i + 1 : ℕ) : Int) - 1).toNat = i := by omega
  have hlength : (av.take (i + 1 + 1)).length = i + 1 + 1 := List.length_take_of_le h
  have hplace : i + 1 + 1 + (i + 1 - i) = i + 3 := by omega
  have htake : (av.take (i + 1 + 1)).take (i + 1) = av.take (i + 1) := by
    rw [List.take_take, Nat.min_eq_left (Nat.le_succ _)]
  have hdrop : (List.replicate i none ++ av.drop (i + 1 + 1)).drop (i + 1) =
      av.drop (i + 3) := by
    rw [List.drop_append, List.length_replicate, List.drop_drop, hplace,
      List.drop_of_length_le (by rw [List.length_replicate]; omega), List.nil_append]
  unfold avRemoveEntry
  rw [avStash_eq h]
  simp only [avUnshift, hnum]
  rw [foldl_avStore _ _ (by rw [hlength]; omega)
    (by rw [List.length_append, List.length_replicate]; omega), htake, hdrop]

namespace Packages

/-! ## The search -/

/-- The search finds the first entry of that name. -/
theorem scanModules_eq (package : Bytes) (modules : List Bytes) (i : ℕ) :
    scanModules package (modules.map some) i =
      some ((modules.idxOf? package).map (i + ·)) := by
  induction modules generalizing i with
  | nil => rfl
  | cons module modules ih =>
      rw [List.map_cons, scanModules, List.idxOf?_cons]
      by_cases heq : package = module
      · rw [if_pos heq, if_pos (by simpa using heq.symm)]
        rfl
      · rw [if_neg heq, if_neg (by simpa using fun h => heq h.symm), ih, Option.map_map]
        congr 2
        funext j
        simp only [Function.comp_apply]
        omega

theorem idxOf?_dropLast (modules : List Bytes) (package : Bytes) :
    modules.dropLast.idxOf? package =
      (modules.idxOf? package).filter fun i => i + 1 < modules.length := by
  induction modules with
  | nil => rfl
  | cons module modules ih =>
      cases modules with
      | nil =>
          rw [List.idxOf?_cons]
          split_ifs <;> rfl
      | cons next modules =>
          rw [List.dropLast_cons_cons, List.idxOf?_cons, List.idxOf?_cons, ih]
          split_ifs
          · rfl
          · cases hfound : (next :: modules).idxOf? package with
            | none => rfl
            | some i => simp [Option.filter]

/-- Clearing a package leaves the lists of libraries. -/
theorem dlModules_cleared :
    ((p.clearStash package).deleteFromInc package).dlModules = p.dlModules := rfl

theorem dlLibrefs_cleared :
    ((p.clearStash package).deleteFromInc package).dlLibrefs = p.dlLibrefs := rfl

/-- What is left of the symbols of `DynaLoader`. -/
theorem getAv_clearStash {av : List (Option α)} (name : String)
    (hsafe : safeStash (ascii name) = true)
    (hsymbol : ∃ symbol ∈ p.stash (ascii "DynaLoader"), symbol.key = ascii name)
    (hown : ∀ symbol ∈ p.stash (ascii "DynaLoader"), symbol.key = ascii name → symbol.own = true) :
    ((p.clearStash package).deleteFromInc package).getAv name av =
      if stashName package = ascii "DynaLoader" then none else some av := by
  obtain ⟨symbol, hmem, hkey⟩ := hsymbol
  unfold getAv clearStash deleteFromInc
  by_cases hname : stashName package = ascii "DynaLoader"
  · rw [if_pos hname, if_neg]
    rintro ⟨symbol', hmem', hkey'⟩
    simp only [hname, if_true, List.mem_filter] at hmem'
    simp [hown symbol' hmem'.1 hkey', hkey', hsafe] at hmem'
  · rw [if_neg hname, if_pos]
    exact ⟨symbol, by simp only [if_neg (Ne.symm hname)]; exact hmem, hkey⟩

theorem Parallel.getAv_modules (h : p.Parallel modules librefs) (package : Bytes) :
    ((p.clearStash package).deleteFromInc package).getAv "dl_modules" p.dlModules =
      if stashName package = ascii "DynaLoader" then none else some (modules.map some) := by
  rw [getAv_clearStash _ (by decide) h.modulesSymbol fun s hs hkey => h.own s hs (.inl hkey),
    h.dlModules]

theorem Parallel.getAv_librefs (h : p.Parallel modules librefs) (package : Bytes) :
    ((p.clearStash package).deleteFromInc package).getAv "dl_librefs" p.dlLibrefs =
      if stashName package = ascii "DynaLoader" then none else some (librefs.map some) := by
  rw [getAv_clearStash _ (by decide) h.librefsSymbol fun s hs hkey => h.own s hs (.inr hkey),
    h.dlLibrefs]

/-- What becomes of the two lists: the place of the package is found unless it is the
last one, and its entry is removed from both. -/
theorem Parallel.packageUnload_eq (h : p.Parallel modules librefs)
    (hname : stashName package ≠ ascii "DynaLoader") :
    (((modules.idxOf? package).filter fun i => i + 1 < modules.length) = none ∧
      p.packageUnload package = some ((p.clearStash package).deleteFromInc package)) ∨
    ∃ i libref, modules.idxOf? package = some i ∧ i + 1 < modules.length ∧
      librefs[i]? = some libref ∧
      p.packageUnload package =
        some { (p.clearStash package).deleteFromInc package with
          closed := p.closed ++ [libref]
          dlLibrefs := avRemoveEntry (librefs.map some) i
          dlModules := avRemoveEntry (modules.map some) i } := by
  have hdynamic : ((p.clearStash package).deleteFromInc package).packageIsDynamic package =
      some (((modules.idxOf? package).filter fun i => i + 1 < modules.length)) := by
    have hav := h.getAv_modules package
    rw [if_neg hname] at hav
    have hscan := scanModules_eq package modules.dropLast 0
    rw [idxOf?_dropLast] at hscan
    unfold packageIsDynamic
    rw [dlModules_cleared, hav, Option.bind_some, ← List.map_dropLast, hscan]
    congr 1
    cases ((modules.idxOf? package).filter fun i => i + 1 < modules.length) <;> simp
  unfold packageUnload
  simp only [hdynamic, Option.bind_some]
  cases hfound : (modules.idxOf? package).filter fun i => i + 1 < modules.length with
  | none => exact .inl ⟨rfl, rfl⟩
  | some i =>
      obtain ⟨hidx, hlt⟩ := Option.filter_eq_some_iff.mp hfound
      have hlt' : i + 1 < modules.length := by simpa using hlt
      have hlibref : i < librefs.length := by
        have hlength := h.length_eq
        omega
      refine .inr ⟨i, librefs[i], hidx, hlt', List.getElem?_eq_getElem hlibref, ?_⟩
      have hmodules := h.getAv_modules package
      have hlibrefs := h.getAv_librefs package
      rw [if_neg hname] at hmodules hlibrefs
      have helem : ((librefs.map some)[i]?).join = some librefs[i] := by
        rw [List.getElem?_map, List.getElem?_eq_getElem hlibref]
        rfl
      unfold packageUnloadDynamic
      rw [dlModules_cleared, dlLibrefs_cleared, hmodules, hlibrefs]
      simp only [Option.bind_some, helem, Option.map_some]
      rfl

theorem packageUnload_dynaLoader (h : p.Parallel modules librefs)
    (hname : stashName package = ascii "DynaLoader") : p.packageUnload package = none := by
  have hav := h.getAv_modules package
  rw [if_pos hname] at hav
  unfold packageUnload packageIsDynamic
  simp only
  rw [dlModules_cleared, hav]
  rfl

/-- The removal of an entry leaves the others as they are only if it is the first. -/
theorem avRemoveEntry_eq_eraseIdx (h : i + 1 < av.length) :
    avRemoveEntry av i = av.eraseIdx i ↔ i = 0 := by
  cases i with
  | zero =>
      rw [avRemoveEntry_zero av (by omega), List.eraseIdx_zero]
      exact ⟨fun _ => rfl, fun _ => rfl⟩
  | succ i =>
      refine ⟨fun heq => ?_, fun heq => by cases heq⟩
      have hlength := congrArg List.length heq
      rw [avRemoveEntry_succ (by omega), List.length_append, List.length_take, List.length_drop,
        List.length_eraseIdx_of_lt (by omega)] at hlength
      omega

/-- Exactly the library of the package is taken off the lists and closed, if and only
if the package is not `DynaLoader` itself, and is not in the list, or comes first in
a list of at least two. -/
theorem unloadsOwn_iff (h : p.Parallel modules librefs) :
    p.UnloadsOwn package modules librefs ↔
      stashName package ≠ ascii "DynaLoader" ∧
        (package ∉ modules ∨ modules.head? = some package ∧ 2 ≤ modules.length) := by
  by_cases hname : stashName package = ascii "DynaLoader"
  · refine ⟨?_, fun hcond => absurd hname hcond.1⟩
    rintro ⟨p', hunload, -⟩
    rw [packageUnload_dynaLoader h hname] at hunload
    cases hunload
  · have hmem : package ∈ modules ↔ modules.idxOf? package ≠ none := by
      rw [ne_eq, List.idxOf?_eq_none_iff, not_not]
    have hfirst : modules.head? = some package ↔ modules.idxOf? package = some 0 := by
      cases modules with
      | nil => simp
      | cons module modules =>
          rw [List.idxOf?_cons, List.head?_cons, Option.some_inj]
          by_cases heq : module = package
          · simp [heq]
          · simp [heq]
    rw [hmem, hfirst]
    simp only [hname, ne_eq, not_false_eq_true, true_and, not_not]
    unfold UnloadsOwn
    obtain ⟨hnone, hunload⟩ | ⟨i, libref, hidx, hlt, hlibref, hunload⟩ := h.packageUnload_eq hname
    · cases hidx : modules.idxOf? package with
      | none =>
          exact ⟨fun _ => .inl rfl, fun _ => ⟨_, hunload, rfl, rfl, rfl⟩⟩
      | some i =>
          -- The package is the last of the list.
          obtain ⟨hi, -⟩ := List.idxOf?_eq_some_iff.mp hidx
          have hlast : ¬i + 1 < modules.length := by
            intro hlt
            rw [hidx, Option.filter_some, if_pos (by simpa using hlt)] at hnone
            cases hnone
          constructor
          · rintro ⟨p', hunload', hmodules, -⟩
            rw [hunload, Option.some_inj] at hunload'
            subst hunload'
            have hlength := congrArg List.length hmodules
            have hsame : ((p.clearStash package).deleteFromInc package).dlModules =
                modules.map some := h.dlModules
            rw [hsame, List.length_map, List.length_map, List.length_eraseIdx_of_lt hi] at hlength
            omega
          · rintro (habsent | ⟨hzero, htwo⟩)
            · cases habsent
            · obtain rfl := Option.some.inj hzero
              omega
    · rw [hidx]
      have hmodules : avRemoveEntry (modules.map some) i = (modules.map some).eraseIdx i ↔ i = 0 :=
        avRemoveEntry_eq_eraseIdx (by rw [List.length_map]; exact hlt)
      have hlibrefs : avRemoveEntry (librefs.map some) i = (librefs.map some).eraseIdx i ↔ i = 0 :=
        avRemoveEntry_eq_eraseIdx (by rw [List.length_map, h.length_eq]; exact hlt)
      constructor
      · rintro ⟨p', hunload', hremoved, -⟩
        rw [hunload, Option.some_inj] at hunload'
        subst hunload'
        rw [← List.eraseIdx_map] at hremoved
        exact .inr ⟨congrArg some (hmodules.mp hremoved), by omega⟩
      · rintro (habsent | ⟨hzero, -⟩)
        · cases habsent
        · have hi := Option.some.inj hzero
          refine ⟨_, hunload, ?_, ?_, libref, hlibref, rfl⟩
          · rw [← List.eraseIdx_map]
            exact hmodules.mpr hi
          · rw [← List.eraseIdx_map]
            exact hlibrefs.mpr hi

/-- An interpreter that has loaded these libraries, and nothing but `DynaLoader`. -/
def loaded (modules : List Bytes) (librefs : List Int) : Packages where
  stash name :=
    if name = ascii "DynaLoader" then
      [⟨ascii "dl_modules", true, none⟩, ⟨ascii "dl_librefs", true, none⟩]
    else []
  inc := []
  dlModules := modules.map some
  dlLibrefs := librefs.map some
  closed := []

theorem loaded_parallel (h : librefs.length = modules.length) :
    (loaded modules librefs).Parallel modules librefs where
  dlModules := rfl
  dlLibrefs := rfl
  length_eq := h
  modulesSymbol := ⟨_, List.mem_cons_self, rfl⟩
  librefsSymbol := ⟨_, List.mem_cons_of_mem _ List.mem_cons_self, rfl⟩
  own := by
    intro symbol hsymbol _
    have hmem : symbol ∈ [⟨ascii "dl_modules", true, none⟩, ⟨ascii "dl_librefs", true, none⟩] :=
      hsymbol
    rcases List.mem_cons.mp hmem with rfl | hmem
    · rfl
    · rw [List.mem_singleton.mp hmem]

/-- The first of three libraries. -/
theorem unloadsOwn_first :
    (loaded [ascii "A", ascii "B::C", ascii "D"] [10, 20, 30]).UnloadsOwn (ascii "A")
      [ascii "A", ascii "B::C", ascii "D"] [10, 20, 30] :=
  (unloadsOwn_iff (loaded_parallel rfl)).mpr ⟨by decide, .inr ⟨rfl, by decide⟩⟩

/-- The second of four libraries takes the third along, and the last is not found. -/
theorem unloadsOwn_fails :
    ((loaded [ascii "A", ascii "B", ascii "C", ascii "D"] [10, 20, 30, 40]).packageUnload
        (ascii "B")).map (fun p => (p.dlModules, p.dlLibrefs, p.closed)) =
      some ([some (ascii "A"), some (ascii "D")], [some 10, some 40], [20]) ∧
    ((loaded [ascii "A", ascii "B"] [10, 20]).packageUnload (ascii "B")).map
        (fun p => (p.dlModules, p.dlLibrefs, p.closed)) =
      some ([some (ascii "A"), some (ascii "B")], [some 10, some 20], []) ∧
    ¬∀ (p : Packages) (package : Bytes) (modules : List Bytes) (librefs : List Int),
      p.Parallel modules librefs → p.UnloadsOwn package modules librefs := by
  refine ⟨by decide, by decide, fun hall => ?_⟩
  obtain ⟨p', hunload, hmodules, -⟩ :=
    hall _ (ascii "B") [ascii "A", ascii "B"] [10, 20] (loaded_parallel rfl)
  have hkept : ((loaded [ascii "A", ascii "B"] [10, 20]).packageUnload (ascii "B")).map
      Packages.dlModules = some [some (ascii "A"), some (ascii "B")] := by decide
  rw [hunload, Option.map_some, hmodules] at hkept
  exact absurd hkept (by decide)

end Packages

end ModPerl
