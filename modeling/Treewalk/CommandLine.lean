import Treewalk.Directory
import Treewalk.Prompt
import Treewalk.Quoted
import Treewalk.Token.Json
import Treewalk.Tree.Text

/-!
# The command line

Arguments are read from left to right into an `Invocation`; the first that does
not fit makes the whole a usage error. An invocation lists the tokens of a file,
prints its tree, runs it, or opens a prompt on the input, and ends with an exit
status.
-/

namespace Treewalk

/-! ## Arguments -/

/-- An argument by its spelling. -/
inductive Argument where
  /-- `--`: everything after it is a path. -/
  | escape
  | log
  | json
  | version
  | help
  | unknown
  | plain (text : String)
  deriving DecidableEq, Repr

def Argument.ofString (arg : String) : Argument :=
  match arg with
  | "--" => escape
  | "--log" => log
  | "--json" => json
  | "--version" => version
  | "--help" => help
  | _ =>
    match arg.toList with
    | '-' :: 'V' :: _ => version
    | '-' :: 'h' :: _ => help
    | '-' :: _ :: _ => unknown
    | _ => plain arg

/-- What to do with a file. -/
inductive FileTask where
  | run
  | parse
  /-- Lists the tokens, one per line or as JSON. -/
  | tokenize (json : Bool)
  deriving DecidableEq, Repr

/-- What a command line asks for. -/
inductive Request where
  | version
  | help
  | prompt
  | file (task : FileTask) (path : String)
  deriving DecidableEq, Repr

structure Invocation where
  request : Request
  /-- A log file is made first. -/
  log : Bool
  deriving DecidableEq, Repr

/-- The arguments read so far. -/
structure Reading where
  task : FileTask
  /-- The task was named, which makes the file necessary. -/
  named : Bool
  path : Option String
  log : Bool
  /-- An argument was read, so that the next one names no task. -/
  started : Bool

namespace Reading

def start : Reading := ⟨.run, false, none, false, false⟩

/-- The invocation, once all arguments are read. -/
def finish (r : Reading) : Option Invocation :=
  match r.path with
  | some path => some ⟨.file r.task path, r.log⟩
  | none => if r.named then none else some ⟨.prompt, r.log⟩

/-- A path; there is one, and it is not empty. -/
def addPath (r : Reading) (path : String) : Option Reading :=
  if path = "" ∨ r.path.isSome then none
  else some { r with path := some path, started := true }

def addLog (r : Reading) : Option Reading :=
  if r.log then none else some { r with log := true, started := true }

/-- Only a token listing can be JSON, and only once. -/
def addJson (r : Reading) : Option Reading :=
  match r.task with
  | .tokenize false => some { r with task := .tokenize true }
  | _ => none

/-- A word: the name of a task, if it is the first argument, or else a path. -/
def addWord (r : Reading) (word : String) : Option Reading :=
  if r.started then r.addPath word
  else
    match word with
    | "tokenize" => some { r with task := .tokenize false, named := true, started := true }
    | "parse" => some { r with task := .parse, named := true, started := true }
    | _ => r.addPath word

/-- Help may be asked for on one topic. -/
def helpOn : List String → Option Invocation
  | [] | ["tokenize"] | ["parse"] | ["help"] => some ⟨.help, false⟩
  | _ => none

def read (r : Reading) : List String → Option Invocation
  | [] => r.finish
  | arg :: rest =>
    match Argument.ofString arg with
    | .escape => do (← rest.foldlM addPath r).finish
    | .log => do (← r.addLog).read rest
    | .json => do (← r.addJson).read rest
    | .version => if r.named then none else some ⟨.version, false⟩
    | .help => some ⟨.help, false⟩
    | .unknown => none
    | .plain word =>
      if word = "help" ∧ ¬ r.started then helpOn rest
      else do (← r.addWord word).read rest

end Reading

/-- What the arguments ask for, unless they are a usage error. -/
def Invocation.ofArguments (args : List String) : Option Invocation :=
  Reading.start.read args

/-! ## Texts -/

def versionText : String := "turtle 0.1.0\n"

def helpText : String :=
  "Usage: turtle [--log] [SCRIPT]\n" ++
  "       turtle tokenize FILE [--json] [--log]\n" ++
  "       turtle parse FILE [--log]\n" ++
  "       turtle --version\n"

def logName : String := "turtle.log"

/-- The message for a file that cannot be had. -/
def FileFault.report (f : FileFault) (path : String) : String :=
  "Failed to " ++ f.activity ++ " file " ++ quoted path ++ ": " ++ f.message ++ "\n"

def logFailure (f : FileFault) : String :=
  "Failed to create " ++ logName ++ ": " ++ f.message ++ "\n"

def promptFailure (d : Diagnostic) : String :=
  "Interactive prompt failed: " ++ d.text ++ "\n"

/-! ## Running -/

/-- What a run leaves: an exit status and what was written. -/
structure Report where
  exit : Nat
  out : ByteArray
  err : ByteArray

namespace Report

/-- The exit statuses for a usage error and for a channel or file that fails. -/
def usageStatus : Nat := 64

def channelStatus : Nat := 74

def ofText (exit : Nat) (out err : String) : Report :=
  ⟨exit, out.toUTF8, err.toUTF8⟩

def unlines (lines : List String) : String :=
  String.join (lines.map fun line => line ++ "\n")

def diagnosed (ds : List Diagnostic) : String :=
  unlines (ds.map Diagnostic.text)

def statusOf (ds : List Diagnostic) : Nat :=
  if ds.isEmpty then Outcome.completed.exitCode else Outcome.rejected.exitCode

/-- Lists tokens, also those of a text with faults. -/
def tokens (json : Bool) (source : String) : Report :=
  let (tokens, lexical) := scan source
  let listing :=
    if json then unlines [(Json.array (tokens.map Token.toJson)).pretty 0]
    else unlines (tokens.map Token.text)
  ofText (statusOf lexical) listing (diagnosed lexical)

/-- Prints the tree of a text without faults. -/
def tree (source : String) : Report :=
  let (tokens, lexical) := scan source
  let (program, syntactic) := Program.ofTokens tokens
  let faults := lexical ++ syntactic
  ofText (statusOf faults) (if faults.isEmpty then program.text ++ "\n" else "") (diagnosed faults)

/-- The exit status that the flags of a session stand for. -/
def statusOfFlags (s : Session) : Nat :=
  if s.hadError then Outcome.rejected.exitCode
  else if s.hadRuntimeError then Outcome.failed.exitCode
  else Outcome.completed.exitCode

/-- Runs a script. The flags tell its exit status, unless the fuel was used up, which no flag
records. -/
def script (fuel : Nat) (clock : Nat → Float) (source : String) : Report :=
  let (outcome, s) := (Session.start .unlimited .unlimited clock).run fuel source
  let exit := if outcome = .exhausted then outcome.exitCode else statusOfFlags s
  ⟨exit, s.machine.out.written, s.diagnostics.written⟩

/-- What is left of a dialogue that ended. -/
def ofDialogue : EStateM.Result Stop Console Unit → Report
  | .ok _ c => ⟨Outcome.completed.exitCode, c.session.machine.out.written,
      c.session.diagnostics.written⟩
  | .error (.fault d) c => ⟨channelStatus, c.session.machine.out.written,
      c.session.diagnostics.written ++ (promptFailure d).toUTF8⟩
  | .error .exhausted c => ⟨Outcome.exhausted.exitCode, c.session.machine.out.written,
      c.session.diagnostics.written⟩

/-- A prompt that shares the output of the program. -/
def console (clock : Nat → Float) : Console :=
  ⟨.start .unlimited .unlimited clock, none⟩

/-- Does a task on a file. -/
def ofFile (fuel : Nat) (clock : Nat → Float) (task : FileTask) (path : String) :
    Except FileFault String → Report
  | .error f => ofText channelStatus "" (f.report path)
  | .ok source =>
    match task with
    | .run => script fuel clock source
    | .parse => tree source
    | .tokenize json => tokens json source

def ofRequest (fuel : Nat) (clock : Nat → Float) (read : String → Except FileFault String)
    (input : List UInt8) : Request → Report
  | .version => ofText 0 versionText ""
  | .help => ofText 0 helpText ""
  | .prompt => ofDialogue (Dialogue.converse fuel (Line.split input) (console clock))
  | .file task path => ofFile fuel clock task path (read path)

/-- Runs a command line in a directory. -/
def ofArguments (fuel : Nat) (clock : Nat → Float) (args : List String) (input : List UInt8)
    (d : Directory) : Report × Directory :=
  match Invocation.ofArguments args with
  | none => (ofText usageStatus "" helpText, d)
  | some ⟨request, false⟩ => (ofRequest fuel clock (d.read ⟨input.toArray⟩) input request, d)
  | some ⟨request, true⟩ =>
    match d.create logName with
    | .error f => (ofText channelStatus "" (logFailure f), d)
    | .ok d => (ofRequest fuel clock (d.read ⟨input.toArray⟩) input request, d)

end Report

end Treewalk
