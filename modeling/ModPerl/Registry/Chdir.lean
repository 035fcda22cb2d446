import ModPerl.Registry.Held

/-!
# The working directory of the Registry

The classes for a prefork server compile and run a script in its own directory, as a CGI
server does: `chdir_file` goes there and comes back to the server root.  Going and coming
back are separate calls, in the method that compiles and again in the one that runs.  The
sub is called in an `eval`, and the way back is behind it.  A script that does not compile
is reported by a `return` between the two calls.
-/

namespace ModPerl

namespace Registry

variable {Dir : Type*}

/-- The script is compiled in its directory, does not compile, and does not leave the process
in the server root. -/
def Stranded (script : Source → Script) (a : Aliases) (w : Workdir Dir) (visit : Visit)
    (src : Source) (v : View) : Prop :=
  a.shouldCompile v.package src.mtime = true ∧ admitted visit.req = .ok () ∧
    w.chdirs .beforeCompile = true ∧ (script src).compiles = false ∧
    w.compileDir w.dirname ≠ w.serverRoot

variable {script : Source → Script} {a : Aliases} {w : Workdir Dir} {visit : Visit} {src : Source}
  {v : View} {p p' : Process Dir} {chdirFile : ChdirFile Dir} {res : Except (Option ℤ) Unit}
  {c : RegistryClass}

/-! ## The way back -/

theorem cwd_of_chdirFileNormal {call : ChdirCall} {dir cwd cwd' : Dir}
    (h : chdirFileNormal w call (some dir) cwd = some cwd') : cwd' = dir := by
  unfold chdirFileNormal at h
  split_ifs at h
  exact (Option.some.inj h).symm

@[simp] theorem returns_withStatus {r : ScriptReq} {answer : Answer} :
    (withStatus r answer).returns = answer.returns := by
  cases answer with
  | returned rc => rfl
  | died => rfl
  | ran sub ends rc => cases rc <;> rfl

theorem admitted_eq_ok_iff {r : ScriptReq} :
    admitted r = .ok () ↔ canCompile r = .ok () ∧ readScript r = .ok () := by
  cases hcan : canCompile r with
  | error rc =>
      rw [admitted_of_refused hcan]
      exact iff_of_false nofun fun h => nomatch h.1
  | ok =>
      rw [admitted_of_can hcan]
      exact (and_iff_right rfl).symm

theorem runScript_ran (a : Aliases) (visit : Visit) (v : View) :
    ∃ sub ends rc, (runScript a visit v).1 = .ran sub ends rc := by
  simp only [runScript]
  split <;> exact ⟨_, _, _, rfl⟩

/-- What a `run` that returns has done: the code of the script is run between the two calls. -/
theorem run_of_returns (h : (run a chdirFile w visit p).1.returns = true) :
    ((run a chdirFile w visit p).1, (run a chdirFile w visit p).2.view) =
        runScript a visit p.view ∧
      ∃ cwd, chdirFile w .afterRun (some w.serverRoot) cwd =
        some (run a chdirFile w visit p).2.cwd := by
  rw [run] at h ⊢
  cases hgo : chdirFile w .beforeRun none p.cwd with
  | none =>
      rw [hgo] at h
      cases h
  | some cwd =>
      rw [hgo] at h
      obtain ⟨sub, ends, rc, hran⟩ := runScript_ran a visit p.view
      cases hrun : runScript a visit p.view with
      | mk answer v =>
          rw [hrun] at h hran
          obtain rfl : answer = .ran sub ends rc := hran
          cases rc with
          | none => cases h
          | some rc =>
              cases hback : chdirFile w .afterRun (some w.serverRoot) (w.endDir (w.runDir cwd)) with
              | none =>
                  simp only [hback] at h
                  cases h
              | some cwd' =>
                  simp only [hback]
                  exact ⟨trivial, _, hback⟩

/-- It always ends in the server root. -/
theorem run_cwd (h : (run a chdirFileNormal w visit p).1.returns = true) :
    (run a chdirFileNormal w visit p).2.cwd = w.serverRoot := by
  obtain ⟨-, cwd, hback⟩ := run_of_returns h
  exact cwd_of_chdirFileNormal hback

/-- A script that is compiled brings the process back to the server root. -/
theorem convertScript_cwd
    (h : convertScript script a chdirFileNormal some w visit src p = (res, p')) :
    (res = .ok () ∧ p'.cwd = w.serverRoot) ∨ res = .error none ∨
    ∃ rc, res = .error (some rc) ∧ ((readScript visit.req ≠ .ok () ∧ p' = p) ∨
      (readScript visit.req = .ok () ∧ (script src).compiles = false ∧
        w.chdirs .beforeCompile = true ∧ p'.cwd = w.compileDir w.dirname)) := by
  unfold convertScript at h
  cases hread : readScript visit.req with
  | error rc =>
      rw [hread] at h
      cases h
      exact .inr (.inr ⟨rc, rfl, .inl ⟨nofun, rfl⟩⟩)
  | ok =>
      rw [hread] at h
      cases hgo : chdirFileNormal w .beforeCompile none p.cwd with
      | none =>
          rw [hgo] at h
          cases h
          exact .inr (.inl rfl)
      | some cwd =>
          rw [hgo] at h
          unfold chdirFileNormal at hgo
          split_ifs at hgo with hchdirs
          cases hgo
          cases hcompiles : (script src).compiles with
          | false =>
              simp only [compile, hcompiles, Bool.false_eq_true, if_false] at h
              cases h
              exact .inr (.inr ⟨_, rfl, .inr ⟨rfl, rfl, hchdirs, rfl⟩⟩)
          | true =>
              simp only [compile, hcompiles, if_true] at h
              split at h
              · cases h
                exact .inr (.inl rfl)
              · next hback =>
                  cases h
                  exact .inl ⟨rfl, cwd_of_chdirFileNormal hback⟩

/-- The handler that failed to compile a script returns from where that has left it. -/
theorem handler_of_stranded (h : Stranded script a w visit src p.view) :
    handler script a chdirFileNormal w visit src p =
      (.returned rcServerError,
        ⟨(compile script visit.magic src p.view).2, w.compileDir w.dirname⟩) := by
  obtain ⟨hshould, hadmitted, hchdirs, hcompiles, -⟩ := h
  obtain ⟨hcan, hread⟩ := admitted_eq_ok_iff.mp hadmitted
  have hgo : chdirFileNormal w .beforeCompile none p.cwd = some w.dirname := by
    rw [chdirFileNormal, if_pos hchdirs, Option.getD_none]
  rw [handler, defaultHandler, if_pos hshould, hcan, convertScript, hread]
  simp only [hgo, compile, hcompiles, Bool.false_eq_true, if_false]

/-- Whatever `chdir_file` is, a handler that returns has done to the script what it does where
every directory can be entered. -/
theorem handler_of_returns
    (h : (handler script c.aliases chdirFile w visit src p).1.returns = true) :
    c.handler script visit src p.view =
      ((handler script c.aliases chdirFile w visit src p).1,
        (handler script c.aliases chdirFile w visit src p).2.view) := by
  have hanswered : ∀ p₁ : Process Dir,
      (answered (run c.aliases chdirFile w visit) visit p₁).1.returns = true →
      c.runAnswered visit p₁.view =
        ((answered (run c.aliases chdirFile w visit) visit p₁).1,
          (answered (run c.aliases chdirFile w visit) visit p₁).2.view) := by
    intro p₁ hreturns
    obtain ⟨hrun, -⟩ := run_of_returns (returns_withStatus.symm.trans hreturns)
    rw [answered, RegistryClass.runAnswered, ← hrun]
  rw [handler_eq]
  rw [handler, defaultHandler] at h ⊢
  cases hshould : c.aliases.shouldCompile p.view.package src.mtime with
  | false =>
      rw [hshould] at h
      exact hanswered p h
  | true =>
      rw [hshould] at h
      simp only [if_true] at h ⊢
      cases hcan : canCompile visit.req with
      | error rc => rw [admitted_of_refused hcan]
      | ok =>
          rw [hcan] at h
          rw [admitted_of_can hcan]
          unfold convertScript at h ⊢
          cases hread : readScript visit.req with
          | error rc => rfl
          | ok =>
              rw [hread] at h
              cases hgo : chdirFile w .beforeCompile none p.cwd with
              | none =>
                  rw [hgo] at h
                  cases h
              | some cwd =>
                  rw [hgo] at h
                  simp only [compile] at h ⊢
                  cases hcompiles : (script src).compiles with
                  | false => rfl
                  | true =>
                      rw [hcompiles] at h
                      cases hback : chdirFile w .afterCompile (some w.serverRoot)
                          (w.compileDir cwd) with
                      | none =>
                          simp only [if_true, hback] at h
                          cases h
                      | some cwd' =>
                          simp only [if_true, hback] at h ⊢
                          exact hanswered _ h

/-- The handler that is called in the server root returns there, exactly if it was not left in
another directory by a script that it could not compile. -/
theorem defaultHandler_restores_cwd_iff (script : Source → Script) (a : Aliases) (w : Workdir Dir)
    (visit : Visit) (src : Source) (v : View) :
    ((handler script a chdirFileNormal w visit src ⟨v, w.serverRoot⟩).1.returns = true →
      (handler script a chdirFileNormal w visit src ⟨v, w.serverRoot⟩).2.cwd = w.serverRoot) ↔
      ¬Stranded script a w visit src v := by
  constructor
  · intro hall hstranded
    rw [handler_of_stranded (p := ⟨v, w.serverRoot⟩) hstranded] at hall
    exact hstranded.2.2.2.2 (hall rfl)
  · intro hnot hreturns
    rw [handler, defaultHandler] at hreturns ⊢
    split_ifs at hreturns ⊢ with hshould
    · cases hcan : canCompile visit.req with
      | error rc => rfl
      | ok =>
          rw [hcan] at hreturns
          cases hconvert : convertScript script a chdirFileNormal some w visit src
              ⟨v, w.serverRoot⟩ with
          | mk res p₁ =>
              rw [hconvert] at hreturns
              -- the ways in which `convert_script_to_compiled_handler` ends
              obtain ⟨rfl, -⟩ | rfl | ⟨rc, rfl, hback⟩ := convertScript_cwd hconvert
              · exact run_cwd (returns_withStatus.symm.trans hreturns)
              · cases hreturns
              · rcases hback with ⟨-, rfl⟩ | ⟨hread, hcompiles, hchdirs, hcwd⟩
                · rfl
                · by_contra hne
                  exact hnot ⟨hshould, admitted_eq_ok_iff.mpr ⟨hcan, hread⟩, hchdirs, hcompiles,
                    hcwd ▸ hne⟩
    · exact run_cwd (returns_withStatus.symm.trans hreturns)

/-- A script with a syntax error, in a directory below the server root. -/
def syntaxError : Script where
  compiles := false
  definesHandler := false
  endBlocks := 0
  uses := []
  defines_of_compiles := nofun

@[inherit_doc syntaxError]
def cgiBin : Workdir Bytes where
  serverRoot := ascii "/srv"
  dirname := ascii "/srv/cgi-bin"
  chdirs := fun _ => true
  compileDir := id
  runDir := id
  endDir := id

theorem defaultHandler_restores_cwd_fails :
    ¬∀ (script : Source → Script) (a : Aliases) (w : Workdir Bytes) (visit : Visit) (src : Source)
      (v : View),
      (handler script a chdirFileNormal w visit src ⟨v, w.serverRoot⟩).1.returns = true →
      (handler script a chdirFileNormal w visit src ⟨v, w.serverRoot⟩).2.cwd = w.serverRoot := by
  intro hall
  have hcwd : ascii "/srv/cgi-bin" = ascii "/srv" :=
    hall (fun _ => syntaxError) RegistryClass.registryPrefork.aliases cgiBin
      (loaderVisit true true) ⟨ascii "/srv/cgi-bin/x.pl", 1⟩ ⟨⟨none, none, none⟩, [], []⟩ rfl
  exact absurd hcwd (by decide)

end Registry

end ModPerl
