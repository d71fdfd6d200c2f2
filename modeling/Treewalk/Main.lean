import Std.Time.DateTime.Timestamp
import Treewalk.CommandLine

/-!
# The program

Reads arguments, files and lines, and writes what the library answers. A prompt
writes after every line; everything else writes at the end.
-/

namespace Treewalk

/-- How deeply evaluation may nest and how often one loop may run. -/
def runFuel : Nat := Nat.pow 2 60

/-- The cause of a failure of the system. -/
def faultOf : IO.Error → FileFault
  | .noFileOrDirectory .. => .notFound
  | .inappropriateType _ code _ => if code = 20 ∨ code = -20 then .notFolder else .isFolder
  | .permissionDenied .. => .refused "Permission denied" 13
  | e => .refused (toString e) 0

def attempt {α : Type} (action : IO α) : IO (Except FileFault α) := do
  match ← action.toBaseIO with
  | .ok a => pure (.ok a)
  | .error e => pure (.error (faultOf e))

/-- The text of a file. -/
def readText (path : String) : IO (Except FileFault String) := do
  match ← attempt (IO.FS.readBinFile path) with
  | .error f => pure (.error f)
  | .ok bytes =>
    match String.fromUTF8? bytes with
    | some text => pure (.ok text)
    | none => pure (.error .invalidText)

/-- Readings that start now; each is a little later than the one before. -/
def clockFromNow : IO (Nat → Float) := do
  let now ← Std.Time.Timestamp.now
  let start := Float.ofInt now.toNanosecondsSinceUnixEpoch.val / 1e9
  pure fun n => start + n.toFloat * 1e-6

def writeReport (r : Report) : IO UInt32 := do
  let out ← IO.getStdout
  let err ← IO.getStderr
  out.write r.out
  out.flush
  err.write r.err
  err.flush
  pure r.exit.toUInt32

/-- The bytes of the next line with its end, the last one first. -/
partial def readLine (input : IO.FS.Stream) (line : List UInt8) : IO (List UInt8) := do
  let bytes ← input.read 1
  match bytes.toList with
  | [] => pure line
  | b :: _ => if b = 10 then pure (b :: line) else readLine input (b :: line)

/-- Writes what a dialogue has to show, and forgets it. -/
def showProgress (c : Console) : IO Console := do
  let _ ← writeReport (.ofDialogue (.ok () c))
  pure { c with
    session.machine.out.written := .empty
    session.diagnostics.written := .empty }

/-- Asks for lines and runs them, up to the end of the input. -/
partial def converse (input : IO.FS.Stream) (c : Console) : IO UInt32 := do
  match Dialogue.ask c with
  | .error e c => writeReport (.ofDialogue (.error e c))
  | .ok _ c =>
    let c ← showProgress c
    match Line.split (← readLine input []).reverse with
    | [] => writeReport (.ofDialogue (Dialogue.write "\n" c))
    | line :: _ =>
      match Dialogue.runLine runFuel line c with
      | .ok _ c => converse input c
      | .error e c => writeReport (.ofDialogue (.error e c))

def perform (clock : Nat → Float) : Request → IO UInt32
  | .prompt => do converse (← IO.getStdin) (Report.console clock)
  | .file task path => do
    writeReport (.ofFile runFuel clock task path (← readText path))
  | request => writeReport (.ofRequest runFuel clock (fun _ => .error .notFound) [] request)

end Treewalk

open Treewalk

def main (args : List String) : IO UInt32 := do
  let clock ← clockFromNow
  match Invocation.ofArguments args with
  | none => writeReport (.ofText Report.usageStatus "" helpText)
  | some ⟨request, log⟩ =>
    let created ← if log then attempt (IO.FS.writeFile logName "") else pure (.ok ())
    match created with
    | .error f => writeReport (.ofText Report.channelStatus "" (logFailure f))
    | .ok () => perform clock request
