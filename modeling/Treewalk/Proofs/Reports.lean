import Treewalk.Proofs.Sinks
import Treewalk.Proofs.Units

/-!
# What a unit reports

`Session.reports` lists the diagnostics of a unit: what the static phases find, or what stops
the unit while it runs. Running it reports these, in this order, and nothing else
(`Session.run_reports`), and what reaches a sink without a limit is their text
(`Session.diagnostics_run`).
-/

namespace Treewalk

/-- What the static phases find in a unit. Names are resolved only if nothing was found before,
be it in this unit or, if `blocked`, in an earlier one. -/
def staticFaults (blocked : Bool) (source : String) : List Diagnostic :=
  let found := (scan source).2 ++ (Program.ofTokens (scan source).1).2
  if blocked || !found.isEmpty then found else (Program.ofTokens (scan source).1).1.resolve.2

/-- The program that a unit runs as. -/
def programOf (source : String) : Program :=
  (Program.ofTokens (scan source).1).1.resolve.1

/-- The unit is rejected: something was found in it, or in an earlier one. -/
def rejects (blocked : Bool) (source : String) : Bool :=
  blocked || !(staticFaults blocked source).isEmpty

/-- What stops a run. -/
def Eval.faults : EStateM.Result Stop Machine Unit → List Diagnostic
  | .error (.fault d) _ => [d]
  | .error .exhausted _ | .ok _ _ => []

/-- What becomes of a unit that ran. -/
def Eval.outcome : EStateM.Result Stop Machine Unit → Outcome
  | .ok _ _ => .completed
  | .error (.fault _) _ => .failed
  | .error .exhausted _ => .exhausted

/-- What stops a program stopped its statements, or it is a fault of the flush. -/
theorem Eval.mem_faults_flushed {x : Eval Flow} {m : Machine} {d : Diagnostic}
    (h : d ∈ faults (flushed x m)) : (∃ m', x m = .error (.fault d) m') ∨
      ∃ f, (after (x m)).out.flush = .error f ∧ d = .channel f := by
  unfold flushed at h
  split at h
  · cases h
  · next d' m' hrun =>
    split at h
    · obtain rfl := List.mem_singleton.mp h
      exact .inl ⟨m', hrun⟩
    · next f hflush => exact .inr ⟨f, hrun ▸ hflush, List.mem_singleton.mp h⟩
  · next flow m' hrun =>
    split at h
    · cases h
    · next f hflush => exact .inr ⟨f, hrun ▸ hflush, List.mem_singleton.mp h⟩

theorem staticFaults_static (blocked : Bool) (source : String) :
    ∀ d ∈ staticFaults blocked source, d.isStatic = true := by
  unfold staticFaults
  dsimp only
  split
  · exact List.forall_mem_append.mpr ⟨scan_static source, Program.ofTokens_static _⟩
  · exact Program.resolve_static _

/-- Static diagnostics set the flag, if there are any. -/
theorem any_isStatic {ds : List Diagnostic} (h : ∀ d ∈ ds, d.isStatic = true) :
    ds.any Diagnostic.isStatic = !ds.isEmpty := by
  cases ds with
  | nil => rfl
  | cons d ds => simp [h d List.mem_cons_self]

theorem accepts_programOf {source : String} (h : staticFaults false source = []) :
    Accepts source (Program.ofTokens (scan source).1).1 (programOf source) := by
  unfold staticFaults at h
  dsimp only at h
  split at h
  · next hfound => simp [h] at hfound
  · next hfound =>
    obtain ⟨hlexical, hsyntax⟩ : (scan source).2 = [] ∧ (Program.ofTokens (scan source).1).2 = [] := by
      simpa using hfound
    exact accepts_of_faults ⟨hlexical, hsyntax, h⟩

namespace Session

/-- What running a unit reports, in order. -/
def reports (fuel : Nat) (s : Session) (source : String) : List Diagnostic :=
  if rejects s.hadError source then staticFaults s.hadError source
  else Eval.faults (Eval.interpret fuel (programOf source) s.machine)

theorem reportAll_append (s : Session) (ds es : List Diagnostic) :
    s.reportAll (ds ++ es) = (s.reportAll ds).reportAll es :=
  List.foldl_append

/-- A unit is rejected with what the static phases find, or it runs. -/
theorem run_eq (s : Session) (fuel : Nat) (source : String) :
    s.run fuel source =
      if rejects s.hadError source then (.rejected, s.reportAll (staticFaults s.hadError source))
      else s.execute fuel (programOf source) := by
  have hflag : ∀ ds, (∀ d ∈ ds, d.isStatic = true) →
      (s.reportAll ds).hadError = (s.hadError || !ds.isEmpty) := fun ds hds => by
    rw [hadError_reportAll, any_isStatic hds]
  have hfound := hflag ((scan source).2 ++ (Program.ofTokens (scan source).1).2)
    (List.forall_mem_append.mpr ⟨scan_static source, Program.ofTokens_static _⟩)
  unfold run rejects staticFaults
  simp only [← reportAll_append, hfound]
  by_cases h : (s.hadError || !((scan source).2 ++ (Program.ofTokens (scan source).1).2).isEmpty) = true
  · simp only [h, ↓reduceIte]
  · -- nothing was found so far, so nothing was reported and no flag is set
    simp only [h, ↓reduceIte, Bool.false_eq_true]
    obtain ⟨hs, hnil⟩ : s.hadError = false ∧
        (scan source).2 ++ (Program.ofTokens (scan source).1).2 = [] := by
      simpa [Bool.or_eq_true, not_or] using h
    rw [hnil, List.nil_append, hflag _ (Program.resolve_static _), hs, Bool.false_or]
    split
    · rfl
    · next hscoping =>
      rw [Bool.not_eq_true, Bool.not_eq_false'] at hscoping
      rw [List.isEmpty_iff.mp hscoping, reportAll_nil]
      rfl

/-- What a unit does to the machine, if anything. -/
theorem machine_run (s : Session) (fuel : Nat) (source : String) :
    (s.run fuel source).2.machine = if rejects s.hadError source then s.machine
      else Eval.after (Eval.interpret fuel (programOf source) s.machine) := by
  rw [run_eq]
  split
  · exact machine_reportAll _ _
  · rw [execute_eq, machine_conclude]

theorem conclude_fst (s : Session) (r : EStateM.Result Stop Machine Unit) :
    (s.conclude r).1 = Eval.outcome r := by
  cases r with
  | ok _ m => rfl
  | error e m => cases e <;> rfl

/-- What becomes of a unit depends on the flag and on the machine. -/
theorem outcome_run (s : Session) (fuel : Nat) (source : String) :
    (s.run fuel source).1 = if rejects s.hadError source then .rejected
      else Eval.outcome (Eval.interpret fuel (programOf source) s.machine) := by
  rw [run_eq]
  split
  · rfl
  · rw [execute_eq, conclude_fst]

theorem conclude_reports (s : Session) (r : EStateM.Result Stop Machine Unit) :
    (s.conclude r).2 = { s with machine := Eval.after r }.reportAll (Eval.faults r) := by
  cases r with
  | ok _ m => rfl
  | error e m => cases e <;> rfl

/-- Besides what a unit does to the machine, it reports its diagnostics. -/
theorem run_reports (s : Session) (fuel : Nat) (source : String) :
    (s.run fuel source).2 =
      { s with machine := (s.run fuel source).2.machine }.reportAll (s.reports fuel source) := by
  rw [run_eq, reports]
  split
  · rw [machine_reportAll]
  · rw [execute_eq, machine_conclude, conclude_reports]

end Session

/-- Diagnostics as they are written, one after the other. -/
def Diagnostic.listing : List Diagnostic → String
  | [] => ""
  | d :: ds => d.text ++ "\n" ++ listing ds

theorem Session.diagnostics_reportAll {s : Session} (h : s.diagnostics.limit = none)
    (ds : List Diagnostic) :
    (s.reportAll ds).diagnostics = s.diagnostics.append (Diagnostic.listing ds).toUTF8 := by
  induction ds generalizing s with
  | nil => simp [reportAll, Diagnostic.listing, Sink.append]
  | cons d ds ih =>
    have hd : (s.report d).diagnostics = s.diagnostics.append (d.text ++ "\n").toUTF8 := by
      rw [show (s.report d).diagnostics = (s.diagnostics.write (d.text ++ "\n")).2 from rfl,
        Sink.write_of_unlimited h]
    rw [show s.reportAll (d :: ds) = (s.report d).reportAll ds from rfl, ih (by rw [hd]; exact h), hd]
    simp [Sink.append, Diagnostic.listing, ByteArray.append_assoc]

theorem Session.bounds_reportAll (s : Session) (ds : List Diagnostic) :
    (s.reportAll ds).diagnostics.bounds = s.diagnostics.bounds := by
  induction ds generalizing s with
  | nil => rfl
  | cons d ds ih => exact (ih (s.report d)).trans (Sink.bounds_write _ _)

/-- What a unit adds to a sink without a limit. -/
theorem Session.diagnostics_run {s : Session} (h : s.diagnostics.limit = none) (fuel : Nat)
    (source : String) : (s.run fuel source).2.diagnostics =
      s.diagnostics.append (Diagnostic.listing (s.reports fuel source)).toUTF8 := by
  rw [run_reports]
  exact diagnostics_reportAll (s := { s with machine := (s.run fuel source).2.machine }) h _

end Treewalk
