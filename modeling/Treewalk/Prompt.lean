import Treewalk.Session

/-!
# The prompt

A dialogue asks for a line, runs it as a unit of its own, and forgets its errors
before it asks for the next. It ends with the input, or when a prompt cannot be
written or a line cannot be read.
-/

namespace Treewalk

namespace Line

/-- A finished line without its end, from its bytes, the last one first: a
carriage return in front of the newline belongs to the end. -/
def finish : List UInt8 → List UInt8
  | 13 :: line => line.reverse
  | line => line.reverse

/-- The lines of a stream. `found` holds those before the current one, the latest
first, and `line` the bytes of the current one, the last one first. -/
def splitFrom (found : List (List UInt8)) (line : List UInt8) : List UInt8 → List (List UInt8)
  | [] => (if line.isEmpty then found else line.reverse :: found).reverse
  | b :: rest =>
    if b = 10 then splitFrom (finish line :: found) [] rest else splitFrom found (b :: line) rest

/-- The lines of a stream. The last one may lack its end. -/
def split (bytes : List UInt8) : List (List UInt8) :=
  splitFrom [] [] bytes

/-- The text of a line, if its bytes are UTF-8. -/
def text? (line : List UInt8) : Option String :=
  String.fromUTF8? ⟨line.toArray⟩

end Line

/-- A session with someone at the other end. -/
structure Console where
  session : Session
  /-- Where prompts are written; without a sink of their own they go where the
  program's output goes. -/
  prompts : Option Sink

/-- A step of a dialogue. -/
abbrev Dialogue := EStateM Stop Console

namespace Dialogue

def lift : Except ChannelFault Unit → Dialogue Unit
  | .ok () => pure ()
  | .error f => fun c => .error (.fault (.channel f)) c

def write (text : String) : Dialogue Unit := fun c =>
  match c.prompts with
  | some sink =>
    let (result, sink) := sink.write text
    lift result { c with prompts := some sink }
  | none =>
    let (result, out) := c.session.machine.out.write text
    lift result { c with session.machine.out := out }

def flush : Dialogue Unit := fun c =>
  lift (c.prompts.getD c.session.machine.out).flush c

/-- Asks for a line. -/
def ask : Dialogue Unit := do
  write "> "
  flush

/-- Runs a unit and clears the flags. -/
def runUnit (fuel : Nat) (source : String) : Dialogue Unit := fun c =>
  match c.session.run fuel source with
  | (.exhausted, session) => .error .exhausted { c with session }
  | (_, session) => .ok () { c with session := session.reset }

/-- Runs a line, if it is a text. -/
def runLine (fuel : Nat) (line : List UInt8) : Dialogue Unit :=
  match Line.text? line with
  | some source => runUnit fuel source
  | none => lift (.error .invalidText)

/-- Asks for lines and runs them, up to the end of the input. -/
def converse (fuel : Nat) : List (List UInt8) → Dialogue Unit
  | [] => do
    ask
    write "\n"
  | line :: rest => do
    ask
    runLine fuel line
    converse fuel rest

end Dialogue

end Treewalk
