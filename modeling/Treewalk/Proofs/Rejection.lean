import Treewalk.CommandLine
import Treewalk.Proofs.Provenance

/-!
# Rejected units leave no trace

A unit is rejected exactly if the flag for static diagnostics is set after it, and then the
machine, with all that was printed, is the one before it. So a unit that comes later cannot
tell whether a rejected one came before, once the flag is reset
(`rejected_units_leave_no_trace`).
-/

namespace Treewalk

/-- What was written since the sink was `old`. -/
def Sink.since (s old : Sink) : ByteArray :=
  s.written.extract old.written.size s.written.size

theorem Sink.since_append (s : Sink) (bytes : ByteArray) : (s.append bytes).since s = bytes := by
  rw [since, append, ByteArray.size_append]
  exact ByteArray.extract_append_eq_right rfl rfl

namespace Session

variable {out diagnostics : Sink} {clock : Nat → Float} {s : Session}

/-! ## The flag -/

theorem Opened.history (h : Opened out diagnostics clock s) :
    ∃ units, History out diagnostics clock units s := by
  induction h with
  | start => exact ⟨[], .start⟩
  | run fuel source _ ih =>
    obtain ⟨units, h⟩ := ih
    exact ⟨source :: units, .run fuel source h⟩
  | reset _ ih =>
    obtain ⟨units, h⟩ := ih
    exact ⟨units, .reset h⟩

/-- What stops a unit while it runs is no static diagnostic. -/
theorem Opened.faults_not_static (h : Opened out diagnostics clock s) (fuel : Nat) (source : String) :
    ∀ d ∈ Eval.faults (Eval.interpret fuel (programOf source) s.machine), d.isStatic = false := by
  obtain ⟨units, hs⟩ := h.history
  obtain ⟨hm, _⟩ := hs.sound (source :: units) fun _ => List.mem_cons_of_mem _
  have hends := Eval.ends_exec hm (programOf_scanned List.mem_cons_self) fuel
  intro d hd
  rw [Eval.interpret_eq] at hd
  rcases Eval.mem_faults_flushed hd with ⟨m', hrun⟩ | ⟨f, _, rfl⟩
  · rw [hrun] at hends
    cases hends with
    | error _ hstop =>
      cases hstop with
      | watch h => cases h
      | token | this | channel => rfl
  · rfl

/-- The flag is set after a unit exactly if the unit was rejected. -/
theorem Opened.hadError_run (h : Opened out diagnostics clock s) (fuel : Nat) (source : String) :
    (s.run fuel source).2.hadError = rejects s.hadError source := by
  rw [run_reports, hadError_reportAll, reports]
  split
  · next hrejects =>
    rw [any_isStatic (staticFaults_static _ _)]
    rfl
  · next hrejects =>
    have hnone : (Eval.faults (Eval.interpret fuel (programOf source) s.machine)).any
        Diagnostic.isStatic = false :=
      List.any_eq_false.mpr fun d hd => by simp [h.faults_not_static fuel source d hd]
    rw [Bool.not_eq_true] at hrejects
    rw [hnone, Bool.or_false, hrejects]
    exact (Bool.or_eq_false_iff.mp hrejects).1

theorem outcome_eq_rejected_iff (s : Session) (fuel : Nat) (source : String) :
    (s.run fuel source).1 = .rejected ↔ rejects s.hadError source = true := by
  rw [outcome_run]
  split
  · simp [*]
  · next h =>
    refine ⟨fun hrun => ?_, fun hrejects => absurd hrejects h⟩
    generalize Eval.interpret fuel (programOf source) s.machine = r at hrun
    cases r with
    | ok => cases hrun
    | error e => cases e <;> cases hrun

theorem machine_of_rejected {fuel : Nat} {source : String}
    (h : (s.run fuel source).1 = .rejected) : (s.run fuel source).2.machine = s.machine :=
  (machine_run s fuel source).trans (if_pos ((outcome_eq_rejected_iff s fuel source).mp h))

/-- What becomes of units that are run one after the other without a reset. -/
def outcomes : List (Nat × String) → Session → List Outcome
  | [], _ => []
  | (fuel, source) :: units, s => (s.run fuel source).1 :: outcomes units (s.run fuel source).2

theorem Opened.outcomes_of_hadError (h : Opened out diagnostics clock s) (hs : s.hadError = true)
    (units : List (Nat × String)) : ∀ o ∈ s.outcomes units, o = .rejected := by
  induction units generalizing s with
  | nil => exact List.forall_mem_nil _
  | cons unit units ih =>
    have hrejects : rejects s.hadError unit.2 = true := by simp [rejects, hs]
    exact List.forall_mem_cons.mpr ⟨(outcome_eq_rejected_iff s unit.1 unit.2).mpr hrejects,
      ih (h.run unit.1 unit.2) ((h.hadError_run unit.1 unit.2).trans hrejects)⟩

/-! ## What is seen of units -/

/-- A unit and what is seen of it: what became of it, what it printed and what it reported. -/
structure Entry where
  unit : Nat × String
  outcome : Outcome
  printed : ByteArray
  reported : ByteArray

def entry (s : Session) (unit : Nat × String) : Entry :=
  let (outcome, s') := s.run unit.1 unit.2
  ⟨unit, outcome, s'.machine.out.since s.machine.out, s'.diagnostics.since s.diagnostics⟩

/-- What is seen of units that are run one after the other, with a reset after each. -/
def transcript : List (Nat × String) → Session → List Entry
  | [], _ => []
  | unit :: units, s => s.entry unit :: transcript units (s.run unit.1 unit.2).2.reset

/-- Two sessions that differ only in what they reported so far. -/
structure Alike (s s' : Session) : Prop where
  machine : s.machine = s'.machine
  clear : s.hadError = false ∧ s'.hadError = false
  limit : s.diagnostics.limit = none ∧ s'.diagnostics.limit = none

variable {s' : Session} (h : Alike s s')
include h

theorem Alike.reports (fuel : Nat) (source : String) :
    s.reports fuel source = s'.reports fuel source := by
  simp only [Session.reports, h.clear.1, h.clear.2, h.machine]

theorem Alike.machine_run (fuel : Nat) (source : String) :
    (s.run fuel source).2.machine = (s'.run fuel source).2.machine := by
  simp only [Session.machine_run, h.clear.1, h.clear.2, h.machine]

theorem Alike.entry (unit : Nat × String) : s.entry unit = s'.entry unit := by
  have houtcome : (s.run unit.1 unit.2).1 = (s'.run unit.1 unit.2).1 := by
    simp only [outcome_run, h.clear.1, h.clear.2, h.machine]
  simp only [Session.entry, houtcome, h.machine_run, h.machine, diagnostics_run h.limit.1,
    diagnostics_run h.limit.2, Sink.since_append, h.reports]

omit h in
theorem limit_run (hs : s.diagnostics.limit = none) (fuel : Nat) (source : String) :
    (s.run fuel source).2.diagnostics.limit = none := by
  rw [run_reports]
  exact (congrArg Prod.fst (bounds_reportAll { s with machine := (s.run fuel source).2.machine }
    (s.reports fuel source))).trans hs

omit h in
/-- A reset clears the flag. -/
theorem Alike.of_reset (hm : s.machine = s'.machine) (hclear : s'.hadError = false)
    (hlimit : s.diagnostics.limit = none) (hlimit' : s'.diagnostics.limit = none) :
    Alike s.reset s' :=
  ⟨hm, ⟨rfl, hclear⟩, hlimit, hlimit'⟩

theorem Alike.run (fuel : Nat) (source : String) :
    Alike (s.run fuel source).2.reset (s'.run fuel source).2.reset := by
  have hm := h.machine_run fuel source
  have hlimit := limit_run h.limit.1 fuel source
  have hlimit' := limit_run h.limit.2 fuel source
  generalize (s.run fuel source).2 = t at hm hlimit ⊢
  generalize (s'.run fuel source).2 = t' at hm hlimit' ⊢
  exact .of_reset hm rfl hlimit hlimit'

/-- A rejected unit leads to a session that only differs in what was reported. -/
theorem Alike.reject {fuel : Nat} {source : String} (hrun : (s.run fuel source).1 = .rejected) :
    Alike (s.run fuel source).2.reset s' := by
  have hlimit := limit_run h.limit.1 fuel source
  exact .of_reset ((machine_of_rejected hrun).trans h.machine) h.clear.2 hlimit h.limit.2

/-- What is seen of the units that are not rejected is seen if only these are run. -/
theorem Alike.transcript_accepted (units : List (Nat × String)) :
    s'.transcript (((s.transcript units).filter (·.outcome ≠ .rejected)).map Entry.unit) =
      (s.transcript units).filter (·.outcome ≠ .rejected) := by
  induction units generalizing s s' with
  | nil => rfl
  | cons unit units ih =>
    rw [transcript, List.filter_cons]
    split
    · have hrest := ih (h.run unit.1 unit.2)
      rw [List.map_cons, transcript, show (s.entry unit).unit = unit from rfl, hrest, h.entry]
    · next hrejected =>
      have hrun : (s.run unit.1 unit.2).1 = .rejected :=
        Classical.byContradiction fun hne => hrejected (decide_eq_true hne)
      exact ih (h.reject hrun)

end Session

/-- The flags after the one unit of a new session stand for what became of it. -/
theorem Report.statusOfFlags_run (out diagnostics : Sink) (clock : Nat → Float) (fuel : Nat)
    (source : String)
    (h : ((Session.start out diagnostics clock).run fuel source).1 ≠ .exhausted) :
    Report.statusOfFlags ((Session.start out diagnostics clock).run fuel source).2 =
      ((Session.start out diagnostics clock).run fuel source).1.exitCode := by
  have hopened : Session.Opened out diagnostics clock (.start out diagnostics clock) := .start
  have hflag := hopened.hadError_run fuel source
  have hstatic := hopened.faults_not_static fuel source
  have hruntime : ((Session.start out diagnostics clock).run fuel source).2.hadRuntimeError =
      ((Session.start out diagnostics clock).reports fuel source).any (!·.isStatic) := by
    rw [Session.run_reports, (Session.flags_reportAll _ _).2]
    exact Bool.false_or _
  unfold Report.statusOfFlags
  rw [hflag, hruntime, Session.reports]
  rw [Session.outcome_run] at h ⊢
  split
  · rfl
  · next hrejects =>
    rw [if_neg hrejects] at h
    generalize Eval.interpret fuel (programOf source) (Session.start out diagnostics clock).machine = r
      at h hstatic ⊢
    cases r with
    | ok => rfl
    | error e =>
      cases e with
      | exhausted => exact absurd rfl h
      | fault d =>
        have hd := hstatic d (List.mem_singleton_self d)
        simp [Eval.faults, hd, Eval.outcome]

/-- In every session a unit is rejected exactly if the flag is set after it, and then leaves
the machine as it was. Once the flag is set, every unit is rejected. With a reset after each
unit, nothing that is seen of the others changes if the rejected ones are left out. And a
script exits with the status of its outcome, since that is what the flags stand for. -/
theorem rejected_units_leave_no_trace {out diagnostics : Sink} {clock : Nat → Float} {s : Session}
    (hs : Session.Opened out diagnostics clock s) (hdiagnostics : diagnostics.Infallible) :
    (∀ fuel source,
      ((s.run fuel source).1 = .rejected ↔ (s.run fuel source).2.hadError = true) ∧
      ((s.run fuel source).1 = .rejected → (s.run fuel source).2.machine = s.machine)) ∧
    (s.hadError = true → ∀ units, ∀ o ∈ s.outcomes units, o = .rejected) ∧
    (s.hadError = false → ∀ units,
      let accepted := (s.transcript units).filter (·.outcome ≠ .rejected)
      s.transcript (accepted.map Session.Entry.unit) = accepted) ∧
    ∀ fuel source,
      let run := (Session.start .unlimited .unlimited clock).run fuel source
      (run.1 ≠ .exhausted → Report.statusOfFlags run.2 = run.1.exitCode) ∧
      (Report.script fuel clock source).exit = run.1.exitCode := by
  obtain ⟨units, hhistory⟩ := hs.history
  have hlimit := Sink.Infallible.limit (hhistory.bounds.trans hdiagnostics)
  refine ⟨fun fuel source => ⟨?_, fun hrun => ?_⟩, hs.outcomes_of_hadError,
    fun hclear => Session.Alike.transcript_accepted ⟨rfl, ⟨hclear, hclear⟩, hlimit, hlimit⟩,
    fun fuel source => ⟨Report.statusOfFlags_run _ _ clock fuel source, ?_⟩⟩
  · rw [Session.outcome_eq_rejected_iff, hs.hadError_run]
  · exact Session.machine_of_rejected hrun
  · simp only [Report.script]
    split
    · rfl
    · next hexhausted => exact Report.statusOfFlags_run _ _ clock fuel source hexhausted

/-- Two units that are rejected in different phases, between two that run. -/
theorem rejected_units_leave_no_trace_between :
    let s := Session.start .unlimited .unlimited fun _ => 0
    let units := [(9, "var a = 1; print a;"), (9, "a = 2; print ;"), (9, "\x7b var b = b; \x7d"),
      (9, "print a;")]
    let accepted := (s.transcript units).filter (·.outcome ≠ .rejected)
    (s.transcript units).map (·.outcome) = [.completed, .rejected, .rejected, .completed] ∧
    accepted.map (·.printed.data) = ["1\n".toUTF8.data, "1\n".toUTF8.data] ∧
    s.transcript (accepted.map Session.Entry.unit) = accepted := by
  intro s units accepted
  exact ⟨by decide +kernel, by decide +kernel,
    (rejected_units_leave_no_trace .start (by decide)).2.2.1 rfl units⟩

end Treewalk
