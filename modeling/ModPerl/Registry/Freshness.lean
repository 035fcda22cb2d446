import ModPerl.Registry.Held

/-!
# The code cache of `ModPerl::Registry`

Whether to compile is decided from the modification time alone.  A version that does not
compile leaves its `END` blocks in the list, and its `handler` if the error comes after it,
beside the time of the version before it.  If that version is put back, with its time, it
is not compiled again.

Nor is a version that was compiled without the magic of `PL_endav`, which has left its `END`
blocks there: at startup, or for a request that is not a `perl-script` request.
-/

namespace ModPerl

namespace Registry

/-! ## Runs -/

/-- The file is replaced, or put back, or the loader compiles the script, or it is requested. -/
inductive Action
  | replace (m : Mtime)
  | preload (regular readable : Bool)
  | request (visit : Visit)

/-- The file, and the interpreter that keeps the script. -/
structure State where
  /-- Which version is present. -/
  mtime : Mtime
  view : View

section

variable (script : Source → Script) (filename : Bytes)

def step (s : State) : Action → State
  | .replace m => { s with mtime := m }
  | .preload regular readable =>
      { s with
        view :=
          (RegistryClass.registry.preload script regular readable ⟨filename, s.mtime⟩ s.view).2 }
  | .request visit =>
      { s with view := (RegistryClass.registry.handler script visit ⟨filename, s.mtime⟩ s.view).2 }

/-- Nothing has been compiled. -/
def start (first : Mtime) (inc : List Bytes) : State where
  mtime := first
  view := ⟨⟨none, none, none⟩, inc, []⟩

/-- After the file was there and these actions were taken. -/
def after (first : Mtime) (inc : List Bytes) (acts : List Action) : State :=
  acts.foldl (step script filename) (start first inc)

/-- The answer to a request. -/
def State.answer (s : State) (visit : Visit) : Answer :=
  (RegistryClass.registry.handler script visit ⟨filename, s.mtime⟩ s.view).1

/-- The script that was run is the version that is present: its sub, and its `END` blocks, as
far as the queue was not aborted. -/
def Fresh (m : Mtime) (visit : Visit) : Answer → Prop
  | .returned _ | .died => True
  | .ran sub ends _ => (script ⟨filename, m⟩).compiles ∧ sub = some ⟨filename, m⟩ ∧
      ends = (callList visit.req.endDies (blocks script ⟨filename, m⟩)).1

/-! ## What the history says -/

/-- The version that is present after the actions. -/
def present (first : Mtime) : List Action → Mtime
  | [] => first
  | .replace m :: acts => present m acts
  | .preload .. :: acts | .request _ :: acts => present first acts

/-- A version that was found compiles. -/
def compiles (f : Found) : Bool := (script ⟨filename, f.mtime⟩).compiles

/-- The script is run: its version was compiled last, or is compiled now. -/
def runs (history : List Found) (m : Mtime) (visit : Visit) : Bool :=
  (history.filter (compiles script filename)).getLast?.any (·.mtime = m) ||
    ((admitted visit.req).isOk && compiles script filename ⟨m, visit.magic⟩)

/-- What is found by a request, if nothing but the code of the script can keep it from being
compiled. -/
def foundBy (m : Mtime) (visit : Visit) : List Found :=
  if (admitted visit.req).isOk then [⟨m, visit.magic⟩] else []

/-- What was found of the script since it uncached itself. -/
def found (m : Mtime) (history : List Found) : List Action → List Found
  | [] => history
  | .replace m' :: acts => found m' history acts
  | .preload regular readable :: acts =>
      found m (history ++ if regular && readable then [⟨m, false⟩] else []) acts
  | .request visit :: acts =>
      found m
        (if visit.uncaches && runs script filename history m visit then []
        else history ++ foundBy m visit)
        acts

/-- After another version had been compiled, or none, this one was compiled, and since then only
this same version and versions that do not compile were found. -/
structure Since (before : List Found) (k : Found) (mid : List Found) : Prop where
  compiles : compiles script filename k = true
  other : ∀ f ∈ (before.filter (Registry.compiles script filename)).getLast?, f.mtime ≠ k.mtime
  mid : ∀ f ∈ mid, f.mtime = k.mtime ∨ Registry.compiles script filename f = false

/-- The versions that failed left a sub, or a list that does not have the `END` blocks of the
version that compiled; or this was compiled without the magic, and has `END` blocks. -/
def Leftover (k : Found) (failed : List Found) : Prop :=
  (∃ f ∈ failed, (script ⟨filename, f.mtime⟩).definesHandler = true) ∨
    match failed.getLast? with
    | none => k.magic = false ∧ (script ⟨filename, k.mtime⟩).endBlocks ≠ 0
    | some f => (f.magic = true ∧ (script ⟨filename, f.mtime⟩).endBlocks ≠ 0) ∨
        (script ⟨filename, k.mtime⟩).endBlocks ≠ 0

/-- The version has been compiled and spoiled since. -/
def Spoiled (history : List Found) (m : Mtime) : Prop :=
  ∃ before k mid, history = before ++ k :: mid ∧ k.mtime = m ∧
    Since script filename before k mid ∧
    Leftover script filename k (mid.filter (!compiles script filename ·))

end

variable {script : Source → Script} {filename : Bytes} {visit : Visit} {m : Mtime}
  {known : Option Held} {f k : Found} {history before mid failed : List Found} {s : State}
  {acts : List Action}

/-! ## What is held of a history -/

/-- A version that is found again changes nothing. -/
theorem sinceStep_none : sinceStep script .registry filename none f =
    if compiles script filename f then some (f, []) else none := rfl

theorem sinceStep_same (h : k.mtime = f.mtime) :
    sinceStep script .registry filename (some (k, failed)) f = some (k, failed) := by
  simp [sinceStep, RegistryClass.current, RegistryClass.outdated, Option.filter, h]

theorem sinceStep_other (h : k.mtime ≠ f.mtime) :
    sinceStep script .registry filename (some (k, failed)) f =
      if compiles script filename f then some (f, []) else some (k, failed ++ [f]) := by
  simp only [sinceStep, RegistryClass.current, RegistryClass.outdated, Option.filter, ne_eq, h,
    not_false_eq_true, decide_true, Bool.not_true, Bool.false_eq_true, if_false]
  rfl

theorem held_concat : held script .registry filename (history ++ [f]) =
    sinceStep script .registry filename (held script .registry filename history) f := by
  rw [held, List.foldl_append]
  rfl

/-- The time that is recorded is that of the version that was compiled last. -/
theorem mtime_held (script : Source → Script) (filename : Bytes) (history : List Found) :
    (held script .registry filename history).map (·.1.mtime) =
      (history.filter (compiles script filename)).getLast?.map Found.mtime := by
  induction history using List.reverseRecOn with
  | nil => rfl
  | append_singleton history f ih =>
      rw [held_concat, List.filter_append, List.filter_singleton]
      cases hknown : held script .registry filename history with
      | none =>
          rw [hknown] at ih
          cases hf : compiles script filename f with
          | true => simp [sinceStep_none, hf]
          | false => simpa [sinceStep_none, hf] using ih
      | some known =>
          obtain ⟨k, failed⟩ := known
          rw [hknown] at ih
          by_cases hsame : k.mtime = f.mtime
          · rw [sinceStep_same hsame]
            cases hf : compiles script filename f with
            | true => simp [hsame]
            | false => simpa using ih
          · rw [sinceStep_other hsame]
            cases hf : compiles script filename f with
            | true => simp
            | false => simpa using ih

/-- From a version on, while it is only found again or others fail. -/
theorem foldl_sinceStep
    (hmid : ∀ f ∈ mid, f.mtime = k.mtime ∨ compiles script filename f = false)
    (hk : compiles script filename k = true) :
    mid.foldl (sinceStep script .registry filename) (some (k, failed)) =
      some (k, failed ++ mid.filter (!compiles script filename ·)) := by
  induction mid generalizing failed with
  | nil => rw [List.foldl_nil, List.filter_nil, List.append_nil]
  | cons f mid ih =>
      have hrest : ∀ f ∈ mid, f.mtime = k.mtime ∨ compiles script filename f = false :=
        fun f' hf' => hmid f' (List.mem_cons_of_mem f hf')
      rw [List.foldl_cons]
      by_cases hsame : f.mtime = k.mtime
      · have hf : compiles script filename f = true := by rwa [compiles, hsame]
        rw [sinceStep_same hsame.symm, ih hrest, List.filter_cons, hf]
        rfl
      · have hf := (hmid f List.mem_cons_self).resolve_left hsame
        rw [sinceStep_other (Ne.symm hsame), hf, if_neg Bool.false_ne_true, ih hrest,
          List.filter_cons, hf, List.append_assoc]
        rfl

theorem held_of_since (h : Since script filename before k mid) :
    held script .registry filename (before ++ k :: mid) =
      some (k, mid.filter (!compiles script filename ·)) := by
  have hcompiled : held script .registry filename (before ++ [k]) = some (k, []) := by
    rw [held_concat]
    cases hknown : held script .registry filename before with
    | none => rw [sinceStep_none, h.compiles, if_pos rfl]
    | some known =>
        obtain ⟨k', failed⟩ := known
        have hlast := mtime_held script filename before
        rw [hknown, Option.map_some] at hlast
        obtain ⟨f, hf, hmtime⟩ := Option.map_eq_some_iff.mp hlast.symm
        have hother : k'.mtime ≠ k.mtime := hmtime ▸ h.other f hf
        rw [sinceStep_other hother, h.compiles, if_pos rfl]
  rw [List.append_cons, held, List.foldl_append]
  rw [held] at hcompiled
  rw [hcompiled, foldl_sinceStep h.mid h.compiles, List.nil_append]

/-- The last that was found decides: the same version again, a new one, or one that fails. -/
theorem exists_of_held (h : held script .registry filename history = some (k, failed)) :
    ∃ before mid, history = before ++ k :: mid ∧ Since script filename before k mid ∧
      failed = mid.filter (!compiles script filename ·) := by
  induction history using List.reverseRecOn generalizing k failed with
  | nil => cases h
  | append_singleton history f ih =>
      have hlast := mtime_held script filename history
      rw [held_concat] at h
      cases hknown : held script .registry filename history with
      | none =>
          rw [hknown, sinceStep_none] at h
          split_ifs at h with hf
          cases h
          rw [hknown] at hlast
          refine ⟨history, [], rfl, ⟨hf, ?_, nofun⟩, rfl⟩
          intro f' hf'
          rw [Option.mem_def.mp hf'] at hlast
          cases hlast
      | some known =>
          obtain ⟨k', failed'⟩ := known
          obtain ⟨before, mid, rfl, hsince, rfl⟩ := ih hknown
          rw [hknown] at h hlast
          by_cases hsame : k'.mtime = f.mtime
          · rw [sinceStep_same hsame] at h
            cases h
            have hf : compiles script filename f = true := by
              have hk := hsince.compiles
              rwa [compiles, ← hsame]
            refine ⟨before, mid ++ [f], by simp, ⟨hsince.compiles, hsince.other, ?_⟩,
              by simp [hf]⟩
            intro f' hf'
            rcases List.mem_append.mp hf' with hf' | hf'
            · exact hsince.mid f' hf'
            · exact .inl (List.mem_singleton.mp hf' ▸ hsame.symm)
          · rw [sinceStep_other hsame] at h
            split_ifs at h with hf
            · cases h
              refine ⟨before ++ k' :: mid, [], rfl, ⟨hf, ?_, nofun⟩, rfl⟩
              intro f' hf'
              rw [Option.mem_def.mp hf'] at hlast
              exact fun heq => hsame ((Option.some.inj hlast).trans heq)
            · cases h
              have hfails : compiles script filename f = false := Bool.eq_false_iff.mpr hf
              refine ⟨before, mid ++ [f], by simp, ⟨hsince.compiles, hsince.other, ?_⟩,
                by simp [hfails]⟩
              intro f' hf'
              rcases List.mem_append.mp hf' with hf' | hf'
              · exact hsince.mid f' hf'
              · exact .inr (List.mem_singleton.mp hf' ▸ hfails)

theorem spoiled_iff : Spoiled script filename history m ↔
    ∃ k failed, held script .registry filename history = some (k, failed) ∧ k.mtime = m ∧
      Leftover script filename k failed := by
  constructor
  · rintro ⟨before, k, mid, rfl, hm, hsince, hleft⟩
    exact ⟨k, _, held_of_since hsince, hm, hleft⟩
  · rintro ⟨k, failed, hheld, hm, hleft⟩
    obtain ⟨before, mid, rfl, hsince, rfl⟩ := exists_of_held hheld
    exact ⟨before, k, mid, rfl, hm, hsince, hleft⟩

/-! ## What is run -/

theorem head?_callList {dies : EndBlock → Bool} {list : List EndBlock} :
    (callList dies list).1.head? = list.head? := by
  cases list with
  | nil => rfl
  | cons cv list =>
      rw [callList]
      split <;> rfl

theorem head?_blocks {src : Source} : (blocks script src).head? =
    if (script src).endBlocks = 0 then none else some ⟨src.mtime, 0⟩ := by
  rw [blocks]
  cases (script src).endBlocks with
  | zero => rfl
  | succ n =>
      rw [List.range_succ_eq_map]
      rfl

/-- No block is called if and only if there is none. -/
theorem callList_blocks_eq_nil_iff {dies : EndBlock → Bool} {src : Source} :
    (callList dies []).1 = (callList dies (blocks script src)).1 ↔ (script src).endBlocks = 0 := by
  constructor
  · intro h
    have hhead := congrArg List.head? h
    rw [head?_callList, head?_callList, head?_blocks] at hhead
    split_ifs at hhead with hnone
    · exact hnone
    · cases hhead
  · intro h
    rw [blocks_eq_nil_iff.mpr h]

/-- The blocks of two versions are never the same blocks: the calls agree if there are none. -/
theorem callList_blocks_eq_iff {dies : EndBlock → Bool} {src src' : Source}
    (hne : src.mtime ≠ src'.mtime) :
    (callList dies (blocks script src)).1 = (callList dies (blocks script src')).1 ↔
      (script src).endBlocks = 0 ∧ (script src').endBlocks = 0 := by
  constructor
  · intro h
    have hhead := congrArg List.head? h
    rw [head?_callList, head?_callList, head?_blocks, head?_blocks] at hhead
    split_ifs at hhead with hsrc hsrc' hsrc'
    · exact ⟨hsrc, hsrc'⟩
    · exact absurd (congrArg EndBlock.version (Option.some.inj hhead)) hne
  · rintro ⟨hsrc, hsrc'⟩
    rw [blocks_eq_nil_iff.mpr hsrc, blocks_eq_nil_iff.mpr hsrc']

/-- The sub that is held is that of the version, if none of those that failed has left its own. -/
theorem subOf_eq_iff (hfailed : ∀ f ∈ failed, f.mtime ≠ k.mtime) :
    subOf script filename (k, failed) = ⟨filename, k.mtime⟩ ↔
      ∀ f ∈ failed, (script ⟨filename, f.mtime⟩).definesHandler = false := by
  rw [subOf, Source.mk.injEq, and_iff_right rfl]
  cases hlast : (failed.filter fun f =>
      (script ⟨filename, f.mtime⟩).definesHandler).getLast? with
  | none =>
      rw [List.getLast?_eq_none_iff, List.filter_eq_nil_iff] at hlast
      exact iff_of_true rfl fun f hf => Bool.eq_false_iff.mpr (hlast f hf)
  | some f =>
      have hf := List.mem_filter.mp (List.mem_of_getLast? hlast)
      exact iff_of_false (hfailed f hf.1) fun hnone =>
        Bool.false_ne_true ((hnone f hf.1).symm.trans hf.2)

/-- The blocks that are held are those of the version. -/
theorem endsOf_eq_iff {dies : EndBlock → Bool} (hfailed : ∀ f ∈ failed, f.mtime ≠ k.mtime) :
    (callList dies (endsOf script filename (k, failed))).1 =
        (callList dies (blocks script ⟨filename, k.mtime⟩)).1 ↔
      ¬match failed.getLast? with
        | none => k.magic = false ∧ (script ⟨filename, k.mtime⟩).endBlocks ≠ 0
        | some f => (f.magic = true ∧ (script ⟨filename, f.mtime⟩).endBlocks ≠ 0) ∨
            (script ⟨filename, k.mtime⟩).endBlocks ≠ 0 := by
  rw [endsOf]
  cases hlast : failed.getLast? with
  | none =>
      cases hmagic : k.magic with
      | true => simp [hmagic]
      | false =>
          rw [Option.getD_none, hmagic, if_neg Bool.false_ne_true, callList_blocks_eq_nil_iff]
          simp
  | some f =>
      have hne : f.mtime ≠ k.mtime := hfailed f (List.mem_of_getLast? hlast)
      cases hmagic : f.magic with
      | true =>
          rw [Option.getD_some, hmagic, if_pos rfl, callList_blocks_eq_iff hne]
          simp [hmagic]
      | false =>
          rw [Option.getD_some, hmagic, if_neg Bool.false_ne_true, callList_blocks_eq_nil_iff]
          simp [hmagic]

/-- What is run is what is held with this request, if it is of the version that is present. -/
theorem serving_eq_ok_iff {k : Held} :
    serving script .registry filename (held script .registry filename history) m visit = .ok k ↔
      held script .registry filename (history ++ foundBy m visit) = some k ∧ k.1.mtime = m := by
  set known := held script .registry filename history with hknown
  cases hcurrent : RegistryClass.registry.current known m with
  | some k' =>
      have hmtime : k'.1.mtime = m := by
        rw [RegistryClass.current, Option.filter_eq_some_iff] at hcurrent
        simpa [RegistryClass.outdated] using hcurrent.2
      have hsome := mem_of_current hcurrent
      have hafter : held script .registry filename (history ++ foundBy m visit) = some k' := by
        rw [foundBy]
        split_ifs
        · rw [held_concat, ← hknown, hsome]
          exact sinceStep_same hmtime
        · rw [List.append_nil, ← hknown, hsome]
      rw [serving_of_current hcurrent, hafter]
      constructor
      · rintro ⟨⟩
        exact ⟨rfl, hmtime⟩
      · rintro ⟨⟨⟩, -⟩
        rfl
  | none =>
      have hother : ∀ k', known = some k' → k'.1.mtime ≠ m := by
        intro k' hk' hmtime
        rw [hk'] at hcurrent
        simp [RegistryClass.current, RegistryClass.outdated, Option.filter, hmtime] at hcurrent
      cases hadmitted : admitted visit.req with
      | error rc =>
          have hnothing : foundBy m visit = [] := by rw [foundBy, hadmitted]; rfl
          rw [serving_of_refused hcurrent hadmitted, hnothing, List.append_nil, ← hknown]
          exact iff_of_false (by simp) fun h => hother k h.1 h.2
      | ok =>
          have hfound : foundBy m visit = [⟨m, visit.magic⟩] := by rw [foundBy, hadmitted]; rfl
          rw [serving_of_admitted hcurrent hadmitted, hfound, held_concat, ← hknown]
          have hstep : sinceStep script .registry filename known ⟨m, visit.magic⟩ =
              if (script ⟨filename, m⟩).compiles then some (⟨m, visit.magic⟩, [])
              else known.map fun k => (k.1, k.2 ++ [⟨m, visit.magic⟩]) := by
            rw [sinceStep, hcurrent]
            rfl
          rw [hstep]
          split_ifs with hcompiles
          · constructor
            · rintro ⟨⟩
              exact ⟨rfl, rfl⟩
            · rintro ⟨⟨⟩, -⟩
              rfl
          · refine iff_of_false (by simp) ?_
            rintro ⟨hk, hmtime⟩
            obtain ⟨k', hk', rfl⟩ := Option.map_eq_some_iff.mp hk
            exact hother k' hk' hmtime

/-- The version that was compiled last is still good if it is the one that is present. -/
theorem isSome_current : (RegistryClass.registry.current
      (held script .registry filename history) m).isSome =
    (history.filter (compiles script filename)).getLast?.any (·.mtime = m) := by
  have hlast := congrArg (Option.any fun m' => decide (m' = m))
    (mtime_held script filename history)
  rw [Option.any_map, Option.any_map] at hlast
  rw [RegistryClass.current, Option.isSome_filter]
  simpa [RegistryClass.outdated, Function.comp_def] using hlast

/-- The script is run in the sense of the history. -/
theorem isOk_serving :
    (serving script .registry filename (held script .registry filename history) m visit).isOk =
      runs script filename history m visit := by
  rw [runs, ← isSome_current]
  cases hcurrent : RegistryClass.registry.current (held script .registry filename history) m with
  | some k =>
      rw [serving_of_current hcurrent]
      rfl
  | none =>
      cases hadmitted : admitted visit.req with
      | error rc =>
          rw [serving_of_refused hcurrent hadmitted]
          rfl
      | ok =>
          rw [serving_of_admitted hcurrent hadmitted, compiles]
          cases (script ⟨filename, m⟩).compiles <;> rfl

/-- What is run is fresh, if nothing was left since the version was compiled. -/
theorem fresh_answer_iff {k : Held} (hmtime : k.1.mtime = m)
    (hk : compiles script filename k.1 = true)
    (hfailed : ∀ f ∈ k.2, compiles script filename f = false)
    (h : serving script .registry filename known m visit = .ok k) :
    Fresh script filename m visit (answer script .registry filename known m visit) ↔
      ¬Leftover script filename k.1 k.2 := by
  obtain ⟨k, failed⟩ := k
  subst hmtime
  have hother : ∀ f ∈ failed, f.mtime ≠ k.mtime := by
    intro f hf heq
    have hfails := hfailed f hf
    rw [compiles, heq] at hfails
    exact Bool.false_ne_true (hfails.symm.trans hk)
  have hfresh : Fresh script filename k.mtime visit
      (answer script .registry filename known k.mtime visit) ↔
      subOf script filename (k, failed) = ⟨filename, k.mtime⟩ ∧
        (callList visit.req.endDies (endsOf script filename (k, failed))).1 =
          (callList visit.req.endDies (blocks script ⟨filename, k.mtime⟩)).1 := by
    rw [answer, h]
    simp only
    cases (callList visit.req.endDies (endsOf script filename (k, failed))).2 with
    | true => exact (and_iff_right hk).trans (and_congr_left' Option.some_inj)
    | false => exact (and_iff_right hk).trans (and_congr_left' Option.some_inj)
  have hnone : (∀ f ∈ failed, (script ⟨filename, f.mtime⟩).definesHandler = false) ↔
      ¬∃ f ∈ failed, (script ⟨filename, f.mtime⟩).definesHandler = true := by
    simp
  rw [hfresh, subOf_eq_iff hother, endsOf_eq_iff hother, hnone, ← not_or]
  rfl

/-- One request, to an interpreter that has what is held of the history. -/
theorem fresh_handler_iff {v : View}
    (h : Holds script .registry filename (held script .registry filename history) v.package) :
    Fresh script filename m visit
        (RegistryClass.registry.handler script visit ⟨filename, m⟩ v).1 ↔
      ¬Spoiled script filename (history ++ foundBy m visit) m := by
  rw [handler_answers h, spoiled_iff]
  cases hserves : serving script .registry filename
      (held script .registry filename history) m visit with
  | error rc =>
      refine iff_of_true (by rw [answer, hserves]; trivial) ?_
      rintro ⟨k, failed, hheld, hm, -⟩
      cases hserves.symm.trans (serving_eq_ok_iff.mpr ⟨hheld, hm⟩)
  | ok k =>
      obtain ⟨hheld, hm⟩ := serving_eq_ok_iff.mp hserves
      obtain ⟨before, mid, -, hsince, hfailed⟩ := exists_of_held hheld
      have hfails : ∀ f ∈ k.2, compiles script filename f = false := by
        intro f hf
        rw [hfailed] at hf
        simpa using (List.mem_filter.mp hf).2
      rw [fresh_answer_iff hm hsince.compiles hfails hserves, hheld]
      constructor
      · rintro hleft ⟨k', failed, heq, -, hleft'⟩
        cases heq
        exact hleft hleft'
      · exact fun hnot hleft => hnot ⟨k.1, k.2, rfl, hm, hleft⟩

/-! ## The run -/

/-- The interpreter has what is held of the history, and the file is the version that is
present. -/
theorem holds_acts (acts : List Action)
    (h : Holds script .registry filename (held script .registry filename history) s.view.package) :
    Holds script .registry filename
        (held script .registry filename (found script filename s.mtime history acts))
        (acts.foldl (step script filename) s).view.package ∧
      (acts.foldl (step script filename) s).mtime = present s.mtime acts := by
  induction acts generalizing s history with
  | nil => exact ⟨h, rfl⟩
  | cons a acts ih =>
      rw [List.foldl_cons]
      cases a with
      | replace m => exact ih (s := { s with mtime := m }) h
      | preload regular readable =>
          refine ih (s := step script filename s (.preload regular readable)) ?_
          have hloaded := preload_holds s.mtime regular readable h
          rw [step]
          split_ifs at hloaded with hread
          · rw [if_pos hread, held_concat]
            exact hloaded
          · rw [if_neg hread, List.append_nil]
            exact hloaded
      | request visit =>
          refine ih (s := step script filename s (.request visit)) ?_
          have hafter := handler_holds visit s.mtime h
          rw [heldAfter, isOk_serving] at hafter
          rw [step]
          split_ifs at hafter with huncached hadmitted
          · rw [if_pos huncached]
            exact hafter
          · rw [if_neg huncached, foundBy, if_pos hadmitted, held_concat]
            exact hafter
          · rw [if_neg huncached, foundBy, if_neg hadmitted, List.append_nil]
            exact hafter

/-- Every request runs what was compiled from the version that is present, and runs nothing if
this version does not compile, exactly if what was found of the script, this request included,
has not spoiled the version: it was not compiled without the magic of `PL_endav` while it has
`END` blocks, and it was not put back after versions that do not compile, one of which left its
sub, or the last of which, or the version itself, has `END` blocks. -/
theorem scripts_fresh_iff (script : Source → Script) (filename : Bytes) (first : Mtime)
    (inc : List Bytes) (acts : List Action) (visit : Visit) :
    Fresh script filename (present first acts) visit
        ((after script filename first inc acts).answer script filename visit) ↔
      ¬Spoiled script filename
        (found script filename first [] acts ++ foundBy (present first acts) visit)
        (present first acts) := by
  have hstart : Holds script .registry filename (held script .registry filename [])
      (start first inc).view.package := ⟨fun h => absurd h Bool.false_ne_true, rfl, nofun⟩
  obtain ⟨hholds, hmtime⟩ := holds_acts acts hstart
  rw [State.answer, after, hmtime]
  exact fresh_handler_iff hholds

/-- The versions of an edit that went wrong: both have an `END` block, the second does not
compile. -/
def editedScript (src : Source) : Script where
  compiles := src.mtime = 1
  definesHandler := src.mtime = 1
  endBlocks := 1
  uses := []
  defines_of_compiles := id

/-- A request under `SetHandler perl-script`. -/
def plainVisit : Visit where
  req := plainReq
  magic := true
  required := []
  uncaches := false

/-- The first version is put back and run with the `END` block of the one that failed. -/
theorem restored_script_stale :
    ¬∀ (script : Source → Script) (filename : Bytes) (first : Mtime) (inc : List Bytes)
      (acts : List Action) (visit : Visit), Fresh script filename (present first acts) visit
        ((after script filename first inc acts).answer script filename visit) := by
  intro h
  have hstale := h editedScript (ascii "/guest.pl") 1 []
    [.request plainVisit, .replace 2, .request plainVisit, .replace 1] plainVisit
  have hends : [EndBlock.mk 2 0] = [EndBlock.mk 1 0] := hstale.2.2
  exact absurd hends (by decide)

end Registry

end ModPerl
