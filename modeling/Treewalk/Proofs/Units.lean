import Treewalk.Proofs.Grammar.Relabel
import Treewalk.Proofs.Scan
import Treewalk.Proofs.Scoping.Relabel
import Treewalk.Proofs.Watch
import Treewalk.Session

/-!
# Units of source

A unit runs only if scanning, reading and resolving it found nothing to report
(`Accepts`). A machine runs units one after the other, each to its end or to the
fault that stops it (`Reached`); between units the host may add native functions.
-/

namespace Treewalk

/-- No static phase has anything to report about a unit: `read` is the program as
it was read and `resolved` the program that runs. -/
structure Accepts (source : String) (read resolved : Program) : Prop where
  lexical : (scan source).2 = []
  syntactic : Program.ofTokens (scan source).1 = (read, [])
  scoping : read.resolve = (resolved, [])

/-- A unit is accepted exactly if it has no lexical fault and its tokens are read as a
program that keeps the scoping rules. -/
theorem accepts_iff {source : String} {read resolved : Program} :
    Accepts source read resolved ↔ (scan source).2 = [] ∧
      Parser.Reads (.declarations read) (tokensIn source) ∧ read.Scoped resolved := by
  have hread : Program.ofTokens (tokensIn source ++ [.endOfFile (linesOf source)]) = (read, []) ↔
      Parser.Reads (.declarations read) (tokensIn source) :=
    Program.ofTokens_append_iff (fun _ => kind_ne_of_mem_tokensIn) rfl
  rw [← hread, ← scan_fst, ← Program.resolve_eq_iff]
  exact ⟨fun ⟨hl, hs, hr⟩ => ⟨hl, hs, hr⟩, fun ⟨hl, hs, hr⟩ => ⟨hl, hs, hr⟩⟩

/-- What a unit is read and resolved as, if no phase has a fault. -/
theorem accepts_of_faults {source : String} (h : (scan source).2 = [] ∧
    (Program.ofTokens (scan source).1).2 = [] ∧
    (Program.ofTokens (scan source).1).1.resolve.2 = []) :
    Accepts source (Program.ofTokens (scan source).1).1
      (Program.ofTokens (scan source).1).1.resolve.1 :=
  ⟨h.1, Prod.ext rfl h.2.1, Prod.ext rfl h.2.2⟩

theorem Accepts.of_tokens {source : String} {tokens : List Token} {read resolved : Program}
    (hscan : scan source = (tokens, [])) (hread : Program.ofTokens tokens = (read, []))
    (hresolve : read.resolve = (resolved, [])) : Accepts source read resolved := by
  refine ⟨?_, ?_, hresolve⟩
  · rw [hscan]
  · rw [hscan, hread]

/-- All tokens of an accepted program are written in its unit. -/
theorem Accepts.mem_tokensIn {source : String} {read resolved : Program}
    (h : Accepts source read resolved) : ∀ t ∈ Stmt.tokensAll resolved, t ∈ tokensIn source := by
  obtain ⟨_, hr, hs⟩ := accepts_iff.mp h
  intro t ht
  rw [Stmt.ScopedAll.tokens_eq hs] at ht
  exact hr.tokens_subperm.subset ht

/-- The machines that accepted units lead to, with the units as they were read,
the latest first. -/
inductive Reached (out : Sink) (clock : Nat → Float) : List Program → Machine → Prop
  | start : Reached out clock [] (.start out clock)
  | run {units : List Program} {m : Machine} {source : String} {read resolved : Program}
    (fuel : Nat) : Reached out clock units m → Accepts source read resolved →
    Reached out clock (read :: units) (Eval.after (Eval.interpret fuel resolved m))
  | native {units : List Program} {m : Machine} (name : String) (f : Native) :
    Reached out clock units m → Reached out clock units (m.defineNative name f)

/-! ## Units in sessions -/

theorem scan_lexical (source : String) : ∀ d ∈ (scan source).2, ∃ line f, d = .lexical line f := by
  have hpieces : ∀ pieces line found, (∀ i ∈ found, ∀ d ∈ i.fault?, ∃ line f, d = .lexical line f) →
      ∀ i ∈ Item.ofPieces line found pieces, ∀ d ∈ i.fault?, ∃ line f, d = .lexical line f := by
    intro pieces
    induction pieces with
    | nil =>
      intro line found hfound i hi
      rcases List.mem_cons.mp (List.mem_reverse.mp hi) with rfl | hi
      · exact fun d hd => by cases hd
      · exact hfound i hi
    | cons p rest ih =>
      intro line found hfound
      rw [Item.ofPieces]
      split
      · exact ih _ _ hfound
      · rename_i item hitem
        refine ih _ _ (List.forall_mem_cons.mpr ⟨?_, hfound⟩)
        unfold Piece.item? at hitem
        split at hitem <;> cases hitem <;> intro d hd <;> cases hd <;> exact ⟨_, _, rfl⟩
  intro d hd
  obtain ⟨i, hi, hd⟩ := List.mem_filterMap.mp hd
  have h := hpieces (Piece.split source.toList) 1 [] (List.forall_mem_nil _)
  exact h i hi d hd

theorem scan_static (source : String) : ∀ d ∈ (scan source).2, d.isStatic = true := by
  intro d hd
  obtain ⟨line, f, rfl⟩ := scan_lexical source d hd
  rfl

namespace Session

/-- The session after a run that ended in this way. -/
def conclude (s : Session) : EStateM.Result Stop Machine Unit → Outcome × Session
  | .ok _ m => (.completed, { s with machine := m })
  | .error (.fault d) m => (.failed, report { s with machine := m } d)
  | .error .exhausted m => (.exhausted, { s with machine := m })

theorem execute_eq (s : Session) (fuel : Nat) (p : Program) :
    s.execute fuel p = s.conclude (Eval.interpret fuel p s.machine) := by
  obtain ⟨machine, diagnostics, hadError, hadRuntimeError⟩ := s
  unfold execute
  simp only
  split <;> rename_i hrun <;> rw [hrun] <;> rfl

theorem reportAll_nil (s : Session) : s.reportAll [] = s := rfl

/-- A static diagnostic sets one flag, any other diagnostic the other. -/
theorem flags_reportAll (s : Session) (ds : List Diagnostic) :
    (s.reportAll ds).hadError = (s.hadError || ds.any Diagnostic.isStatic) ∧
      (s.reportAll ds).hadRuntimeError = (s.hadRuntimeError || ds.any (!·.isStatic)) := by
  induction ds generalizing s with
  | nil => simp [reportAll]
  | cons d ds ih =>
    obtain ⟨herror, hruntime⟩ := ih (s.report d)
    rw [show s.reportAll (d :: ds) = (s.report d).reportAll ds from rfl, herror, hruntime]
    simp [report, Bool.or_assoc]

theorem hadError_reportAll (s : Session) (ds : List Diagnostic) :
    (s.reportAll ds).hadError = (s.hadError || ds.any Diagnostic.isStatic) :=
  (s.flags_reportAll ds).1

/-- Static diagnostics that leave no flag are none. -/
theorem eq_nil_of_reportAll {s : Session} {ds : List Diagnostic}
    (hds : ∀ d ∈ ds, d.isStatic = true) (h : (s.reportAll ds).hadError = false) :
    s.hadError = false ∧ ds = [] := by
  rw [hadError_reportAll, Bool.or_eq_false_iff, List.any_eq_false] at h
  refine ⟨h.1, List.eq_nil_iff_forall_not_mem.mpr fun d hd => ?_⟩
  exact h.2 d hd (hds d hd)

/-- A unit that is accepted runs, if no flag is set. -/
theorem run_of_accepts {s : Session} (hs : s.hadError = false) {source : String}
    {read resolved : Program} (h : Accepts source read resolved) (fuel : Nat) :
    s.run fuel source = s.execute fuel resolved := by
  unfold run
  simp [h.lexical, h.syntactic, h.scoping, reportAll_nil, hs]

/-- A unit does not run while the flag is set. -/
theorem run_of_hadError {s : Session} (hs : s.hadError = true) {source : String}
    {read resolved : Program} (h : Accepts source read resolved) (fuel : Nat) :
    s.run fuel source = (.rejected, s) := by
  unfold run
  simp [h.lexical, h.syntactic, reportAll_nil, hs]

theorem machine_reportAll (s : Session) (ds : List Diagnostic) :
    (s.reportAll ds).machine = s.machine := by
  induction ds generalizing s with
  | nil => rfl
  | cons d ds ih => exact ih (s.report d)

/-- A unit is rejected and leaves the machine as it was, or it is accepted, no flag was set,
and it runs. -/
theorem run_cases (s : Session) (fuel : Nat) (source : String) :
    ((s.run fuel source).1 = .rejected ∧ (s.run fuel source).2.machine = s.machine) ∨
      s.hadError = false ∧ ∃ read resolved, Accepts source read resolved ∧
        s.run fuel source = s.execute fuel resolved := by
  by_cases h₁ : ((s.reportAll (scan source).2).reportAll
      (Program.ofTokens (scan source).1).2).hadError = true
  · left
    simp [run, h₁, machine_reportAll]
  by_cases h₂ : (((s.reportAll (scan source).2).reportAll (Program.ofTokens (scan source).1).2).reportAll
      (Program.ofTokens (scan source).1).1.resolve.2).hadError = true
  · left
    simp [run, h₁, h₂, machine_reportAll]
  right
  simp only [Bool.not_eq_true] at h₁ h₂
  obtain ⟨h₁', hsyntax⟩ := eq_nil_of_reportAll (Program.ofTokens_static _) h₁
  obtain ⟨hs, hlexical⟩ := eq_nil_of_reportAll (scan_static source) h₁'
  obtain ⟨_, hscoping⟩ := eq_nil_of_reportAll (Program.resolve_static _) h₂
  have ha := accepts_of_faults ⟨hlexical, hsyntax, hscoping⟩
  exact ⟨hs, _, _, ha, run_of_accepts hs ha fuel⟩

/-- A unit that is not rejected is accepted, and no flag was set. -/
theorem accepts_of_run {s : Session} {fuel : Nat} {source : String}
    (h : (s.run fuel source).1 ≠ .rejected) :
    s.hadError = false ∧ ∃ read resolved, Accepts source read resolved := by
  rcases s.run_cases fuel source with hrejected | ⟨hs, read, resolved, ha, _⟩
  · exact absurd hrejected.1 h
  · exact ⟨hs, read, resolved, ha⟩

theorem machine_conclude (s : Session) (r : EStateM.Result Stop Machine Unit) :
    (s.conclude r).2.machine = Eval.after r := by
  cases r with
  | ok _ m => rfl
  | error e m => cases e <;> rfl

/-- The sessions that units lead to, whatever became of them. -/
inductive Opened (out diagnostics : Sink) (clock : Nat → Float) : Session → Prop
  | start : Opened out diagnostics clock (.start out diagnostics clock)
  | run {s : Session} (fuel : Nat) (source : String) : Opened out diagnostics clock s →
    Opened out diagnostics clock (s.run fuel source).2
  | reset {s : Session} : Opened out diagnostics clock s → Opened out diagnostics clock s.reset

/-- Only accepted units have run on the machine of a session. -/
theorem Opened.reached {out diagnostics : Sink} {clock : Nat → Float} {s : Session}
    (h : Opened out diagnostics clock s) : ∃ units, Reached out clock units s.machine := by
  induction h with
  | start => exact ⟨[], .start⟩
  | @run s fuel source _ ih =>
    obtain ⟨units, hm⟩ := ih
    rcases s.run_cases fuel source with ⟨_, hrejected⟩ | ⟨_, read, resolved, ha, hrun⟩
    · exact ⟨units, by rw [hrejected]; exact hm⟩
    · refine ⟨read :: units, ?_⟩
      rw [hrun, execute_eq, machine_conclude]
      exact .run fuel hm ha
  | reset _ ih => exact ih

end Session

end Treewalk
