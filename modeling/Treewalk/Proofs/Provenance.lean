import Treewalk.Proofs.Evolution.Runs
import Treewalk.Proofs.Grammar.Vocabulary
import Treewalk.Proofs.InternalFaults
import Treewalk.Proofs.Reports

/-!
# Where diagnostics come from

Every diagnostic of a session stands at a token that was scanned: a static one at a token of
the unit that it is reported for, a runtime one at a token of that unit or of an earlier one,
since functions outlive the unit that declares them (`diagnostics_from_source`).

The argument runs through the vocabulary of all tokens scanned so far. Trees, closures and
faults are over it, and the one token that the evaluator makes itself, a `this` that is not
written, is always found.
-/

namespace Treewalk

open Resolver

/-- The tokens of some units. -/
def Vocabulary.scanned (units : List String) : Vocabulary where
  token t := ∃ unit ∈ units, t ∈ (scan unit).1
  name _ := True

theorem Cursor.last_start_scan (source : String) :
    (Cursor.start (scan source).1).last = .endOfFile (linesOf source) := by
  have hnone : (tokensIn source).find? Token.isEnd = none := by
    refine List.find?_eq_none.mpr fun t ht hend => ?_
    have hkind := kind_ne_of_mem_tokensIn ht
    unfold Token.isEnd at hend
    split at hend
    · next heq => exact hkind heq
    · cases hend
  rw [scan_fst]
  simp [Cursor.start, List.find?_append, hnone, Token.isEnd, Token.endOfFile]

section

variable {units : List String} {source : String} (h : source ∈ units)
include h

/-- What is read from a unit is over its tokens, and so is what is reported about it. -/
theorem Program.ofTokens_scanned :
    (Program.ofTokens (scan source).1).1.Over (.scanned units) ∧
      ∀ d ∈ (Program.ofTokens (scan source).1).2, d.SyntacticOver (.scanned units) := by
  refine Program.ofTokens_over (fun t ht => ⟨⟨source, h, ht⟩, fun _ => trivial⟩) ⟨source, h, ?_⟩
  rw [Cursor.last_start_scan, scan_fst]
  exact List.mem_append_right _ (List.mem_singleton_self _)

theorem programOf_scanned : (programOf source).Over (.scanned units) :=
  (Program.resolve_over (Program.ofTokens_scanned h).1).1

end

namespace Session

/-- The sessions that units lead to, with the units, the latest first. Between units the
flags may be reset. -/
inductive History (out diagnostics : Sink) (clock : Nat → Float) : List String → Session → Prop
  | start : History out diagnostics clock [] (.start out diagnostics clock)
  | run {units : List String} {s : Session} (fuel : Nat) (source : String) :
    History out diagnostics clock units s →
    History out diagnostics clock (source :: units) (s.run fuel source).2
  | reset {units : List String} {s : Session} : History out diagnostics clock units s →
    History out diagnostics clock units s.reset

variable {out diagnostics : Sink} {clock : Nat → Float} {units : List String} {s : Session}

theorem History.opened (h : History out diagnostics clock units s) :
    Opened out diagnostics clock s := by
  induction h with
  | start => exact .start
  | run fuel source _ ih => exact .run fuel source ih
  | reset _ ih => exact .reset ih

/-- The machine of a session is sound over the units so far, and writes where it did. -/
theorem History.sound (h : History out diagnostics clock units s) (all : List String)
    (hall : ∀ unit ∈ units, unit ∈ all) :
    s.machine.Sound (.scanned all) ∧ s.machine.out.bounds = out.bounds := by
  induction h with
  | start => exact ⟨Machine.sound_start out clock, rfl⟩
  | run fuel source _ ih =>
    obtain ⟨hsource, hunits⟩ := List.forall_mem_cons.mp hall
    obtain ⟨hm, hout⟩ := ih hunits
    rw [machine_run]
    split
    · exact ⟨hm, hout⟩
    · have hl := (Eval.ends_exec hm (programOf_scanned hsource) fuel).leads
      rw [Eval.interpret_eq, Eval.after_flushed]
      exact ⟨hl.sound hm, hl.out.trans hout⟩
  | reset _ ih => exact ih hall

theorem History.bounds (h : History out diagnostics clock units s) :
    s.diagnostics.bounds = diagnostics.bounds := by
  induction h with
  | start => rfl
  | @run _ s fuel source _ ih =>
    rw [run_reports]
    exact (bounds_reportAll { s with machine := (s.run fuel source).2.machine } _).trans ih
  | reset _ ih => exact ih

end Session

/-- What a unit stops with, if the output takes everything: a fault at a scanned token. -/
theorem Session.History.runtime {out diagnostics : Sink} {clock : Nat → Float} {units : List String}
    {s : Session} (hs : History out diagnostics clock units s) (hout : out.Infallible) {fuel : Nat}
    {source : String} (h : rejects s.hadError source = false) {d : Diagnostic}
    (hd : d ∈ Eval.faults (Eval.interpret fuel (programOf source) s.machine)) :
    ∃ t f, (Vocabulary.scanned (source :: units)).token t ∧ d = .runtime t f := by
  obtain ⟨hm, hbounds⟩ := hs.sound (source :: units) fun _ => List.mem_cons_of_mem _
  have hends := Eval.ends_exec hm (programOf_scanned List.mem_cons_self) fuel
  obtain ⟨hclear, hfaults⟩ : s.hadError = false ∧ staticFaults s.hadError source = [] := by
    simpa [rejects] using h
  rw [hclear] at hfaults
  obtain ⟨programs, hreached⟩ := hs.opened.reached
  -- a fault of the run is not one of `this`, and the flush adds none
  have hrun : ∀ d m', Eval.runAll (Eval.exec fuel) (programOf source) s.machine = .error (.fault d) m' →
      ∃ t f, (Vocabulary.scanned (source :: units)).token t ∧ d = .runtime t f := by
    intro d m' hrun
    have hinternal := hreached.not_internal (accepts_programOf hfaults) hrun
    rw [hrun] at hends
    cases hends with
    | error _ hstop =>
      cases hstop with
      | watch h => cases h
      | token f ht => exact ⟨_, f, ht, rfl⟩
      | this line => exact absurd (.undefined _ (.inl rfl)) hinternal
      | channel f hlimit =>
        exact absurd (Sink.Infallible.limit (hbounds.trans hout)) hlimit
  have hflush : (Eval.after (Eval.runAll (Eval.exec fuel) (programOf source) s.machine)).out.flush =
      .ok () := Sink.Infallible.flush ((hends.leads.out.trans hbounds).trans hout)
  rw [Eval.interpret_eq] at hd
  rcases Eval.mem_faults_flushed hd with ⟨m', h⟩ | ⟨f, hfails, _⟩
  · exact hrun d m' h
  · cases hflush.symm.trans hfails

/-- What the static phases find in a unit stands at its tokens, lexical faults apart. -/
theorem mem_staticFaults {blocked : Bool} {source : String} {d : Diagnostic}
    (h : d ∈ staticFaults blocked source) : (∃ line f, d = .lexical line f) ∨
      ∃ t ∈ (scan source).1, (∃ f, d = .syntactic t f) ∨ ∃ f, d = .scoping t f := by
  have hread := Program.ofTokens_scanned (List.mem_singleton_self source)
  have hscanned : ∀ {t}, (Vocabulary.scanned [source]).token t → t ∈ (scan source).1 := by
    rintro t ⟨unit, hunit, ht⟩
    rwa [List.mem_singleton.mp hunit] at ht
  unfold staticFaults at h
  dsimp only at h
  split at h
  · rcases List.mem_append.mp h with h | h
    · exact .inl (scan_lexical source d h)
    · obtain ⟨t, f, ht, rfl⟩ := hread.2 d h
      exact .inr ⟨t, hscanned ht, .inl ⟨f, rfl⟩⟩
  · obtain ⟨t, f, ht, rfl⟩ := (Program.resolve_over hread.1).2 d h
    exact .inr ⟨t, hscanned ht, .inr ⟨f, rfl⟩⟩

/-- The end of file is the one token without a text of its own. -/
theorem isEnd_iff_of_mem_scan {source : String} {t : Token} (h : t ∈ (scan source).1) :
    t.isEnd = true ↔ t = .endOfFile (linesOf source) := by
  rw [scan_fst] at h
  rcases List.mem_append.mp h with h | h
  · have hkind := kind_ne_of_mem_tokensIn h
    refine ⟨fun hend => ?_, fun heq => absurd (congrArg Token.kind heq) hkind⟩
    unfold Token.isEnd at hend
    split at hend
    · next heq => exact absurd heq hkind
    · cases hend
  · simp [List.mem_singleton.mp h, Token.isEnd, Token.endOfFile]

/-- Where a static diagnostic says that it stands: at the end exactly if it is at the end of
file, and else at the token as it is written. -/
theorem text_of_mem_scan {source : String} {t : Token} (h : t ∈ (scan source).1) {d : Diagnostic}
    (hd : (∃ f, d = .syntactic t f) ∨ ∃ f, d = .scoping t f) :
    d.text = "[line " ++ toString t.line ++ "] Error" ++
      (if t = .endOfFile (linesOf source) then " at end" else " at '" ++ t.lexeme ++ "'") ++
      ": " ++ d.message := by
  have hplace : Diagnostic.place t =
      if t = .endOfFile (linesOf source) then " at end" else " at '" ++ t.lexeme ++ "'" := by
    simp only [Diagnostic.place, isEnd_iff_of_mem_scan h]
  rw [← hplace]
  rcases hd with ⟨f, rfl⟩ | ⟨f, rfl⟩ <;> rfl

/-- The diagnostic of a unit that comes after the `earlier` ones is lexical, or it carries the
line and the lexeme of a scanned token: a static one those of a token of the unit, where the
end of file has no lexeme to show, a runtime one those of a token of this unit or an earlier
one. -/
def Diagnostic.From (source : String) (earlier : List String) (d : Diagnostic) : Prop :=
  (∃ line f, d = .lexical line f) ∨
  (∃ t ∈ (scan source).1, ((∃ f, d = .syntactic t f) ∨ ∃ f, d = .scoping t f) ∧
    d.text = "[line " ++ toString t.line ++ "] Error" ++
      (if t = .endOfFile (linesOf source) then " at end" else " at '" ++ t.lexeme ++ "'") ++
      ": " ++ d.message) ∨
  ∃ unit ∈ source :: earlier, ∃ t ∈ (scan unit).1, (∃ f, d = .runtime t f) ∧
    d.text = d.message ++ "\n[line " ++ toString t.line ++ "] at '" ++ t.lexeme ++ "'"

/-- In every session whose sinks do not fail, a unit writes its diagnostics, and each of them
comes from a token that was scanned for it or for an earlier unit. -/
theorem diagnostics_from_source {out diagnostics : Sink} {clock : Nat → Float}
    {units : List String} {s : Session} (hs : Session.History out diagnostics clock units s)
    (hout : out.Infallible) (hdiagnostics : diagnostics.Infallible) (fuel : Nat) (source : String) :
    (s.run fuel source).2.diagnostics =
      s.diagnostics.append (Diagnostic.listing (s.reports fuel source)).toUTF8 ∧
    ∀ d ∈ s.reports fuel source, d.From source units := by
  have hlimit := Sink.Infallible.limit (hs.bounds.trans hdiagnostics)
  refine ⟨Session.diagnostics_run hlimit fuel source, fun d hd => ?_⟩
  rw [Session.reports] at hd
  split at hd
  · rcases mem_staticFaults hd with hlexical | ⟨t, ht, hat⟩
    · exact .inl hlexical
    · exact .inr (.inl ⟨t, ht, hat, text_of_mem_scan ht hat⟩)
  · next h =>
    obtain ⟨t, f, ⟨unit, hunit, ht⟩, rfl⟩ := hs.runtime hout (Bool.not_eq_true _ ▸ h) hd
    exact .inr (.inr ⟨unit, hunit, t, ht, ⟨f, rfl⟩, rfl⟩)

/-- A method that an earlier unit declares fails in a later one, and a unit that breaks off. -/
theorem diagnostics_from_source_later_unit :
    let first := "class A \x7b init() \x7b\n this.a = nope; \x7d \x7d"
    let start := Session.start .unlimited .unlimited fun _ => 0
    let s := (start.run 20 first).2
    (s.reports 20 "\n\n\nA();").map Diagnostic.text =
      ["Undefined variable 'nope'.\n[line 2] at 'nope'"] ∧
    (∀ d ∈ s.reports 20 "\n\n\nA();", d.From "\n\n\nA();" [first]) ∧
    (s.reports 20 "print A").map Diagnostic.text =
      ["[line 1] Error at end: Expect ';' after value."] ∧
    ∀ d ∈ s.reports 20 "print A", d.From "print A" [first] := by
  intro first start s
  have hs : Session.History .unlimited .unlimited (fun _ => 0) [first] s := .run 20 first .start
  exact ⟨by decide +kernel, (diagnostics_from_source hs (by decide) (by decide) 20 _).2,
    by decide +kernel, (diagnostics_from_source hs (by decide) (by decide) 20 _).2⟩

end Treewalk
