import Treewalk.Evaluation
import Treewalk.Grammar.Statement
import Treewalk.Resolution
import Treewalk.Token.Scan

/-!
# Sessions

A session runs one unit of source after another on the same machine. Each phase
reports what it finds, and a unit runs only if no static diagnostic was reported
since the last `reset`, be it for this unit or for an earlier one.
-/

namespace Treewalk

/-- What became of a unit. -/
inductive Outcome where
  | completed
  /-- A static diagnostic kept the unit from running. -/
  | rejected
  /-- The unit stopped with a diagnostic while it ran. -/
  | failed
  /-- The fuel was used up. -/
  | exhausted
  deriving DecidableEq, Repr

/-- The exit status of a program that ends with this outcome. -/
def Outcome.exitCode : Outcome → Nat
  | completed => 0
  | rejected => 65
  | failed | exhausted => 70

structure Session where
  machine : Machine
  /-- Where diagnostics are written. -/
  diagnostics : Sink
  /-- A static diagnostic was reported since the last reset. -/
  hadError : Bool
  /-- A diagnostic of a running unit was reported since the last reset. -/
  hadRuntimeError : Bool

namespace Session

def start (out diagnostics : Sink) (clock : Nat → Float) : Session :=
  ⟨.start out clock, diagnostics, false, false⟩

/-- Clears both flags. What the units defined stays. -/
def reset (s : Session) : Session :=
  { s with hadError := false, hadRuntimeError := false }

/-- Writes a diagnostic and sets its flag. That the sink may be full is ignored. -/
def report : Session → Diagnostic → Session
  | ⟨machine, diagnostics, hadError, hadRuntimeError⟩, d =>
    ⟨machine, (diagnostics.write (d.text ++ "\n")).2,
      hadError || d.isStatic, hadRuntimeError || !d.isStatic⟩

def reportAll (s : Session) (ds : List Diagnostic) : Session :=
  ds.foldl report s

/-- Runs a program that passed all checks. -/
def execute (fuel : Nat) (program : Program) : Session → Outcome × Session
  | ⟨machine, diagnostics, hadError, hadRuntimeError⟩ =>
    match Eval.interpret fuel program machine with
    | .ok _ machine => (.completed, ⟨machine, diagnostics, hadError, hadRuntimeError⟩)
    | .error (.fault d) machine =>
      (.failed, report ⟨machine, diagnostics, hadError, hadRuntimeError⟩ d)
    | .error .exhausted machine => (.exhausted, ⟨machine, diagnostics, hadError, hadRuntimeError⟩)

/-- Runs a unit. Names are resolved only if the text could be read. -/
def run (fuel : Nat) (s : Session) (source : String) : Outcome × Session :=
  let (tokens, lexical) := scan source
  let (program, syntactic) := Program.ofTokens tokens
  let s := (s.reportAll lexical).reportAll syntactic
  if s.hadError then (.rejected, s)
  else
    let (resolved, scoping) := program.resolve
    let s := s.reportAll scoping
    if s.hadError then (.rejected, s) else s.execute fuel resolved

end Session

end Treewalk
