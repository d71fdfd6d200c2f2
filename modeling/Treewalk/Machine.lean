import Treewalk.Descent
import Treewalk.Sink
import Treewalk.Store

/-!
# The machine

The state of a running program, and the actions evaluation is made of. An action
ends with a result or stops with a diagnostic, and the machine goes on from there
either way. `within` and `nested` enter a scope and a call, and leave them however
the action ends.
-/

namespace Treewalk

structure Machine where
  store : Store
  /-- The current scope. -/
  scope : ScopeId
  /-- How many calls are active. -/
  depth : Nat
  /-- Where `print` writes. -/
  out : Sink
  /-- The readings of the clock, in seconds. -/
  clock : Nat → Float
  /-- How many readings were taken. -/
  ticks : Nat

/-- The most calls that may be active at once. -/
def maxDepth : Nat := 4096

/-- Why an action stops early. -/
inductive Stop where
  | fault (d : Diagnostic)
  /-- The fuel is used up. -/
  | exhausted

abbrev Eval := EStateM Stop Machine

/-- What executing a statement leads to. -/
inductive Flow where
  | normal
  /-- A `return` is leaving the enclosing function. -/
  | returned (v : Value)
  deriving DecidableEq, Repr

namespace Machine

/-- The global scope is the first one. -/
def globals : ScopeId := 0

/-- A machine with nothing defined but the clock. -/
def start (out : Sink) (clock : Nat → Float) : Machine where
  store := ((Store.empty.pushScope none).pushNative .clock).define globals "clock" (.native 0)
  scope := globals
  depth := 0
  out := out
  clock := clock
  ticks := 0

/-- Defines a global native function. -/
def defineNative (m : Machine) (name : String) (f : Native) : Machine :=
  let id := m.store.natives.size
  { m with store := (m.store.pushNative f).define globals name (.native id) }

/-- The value of a global. -/
def global (m : Machine) (name : Token) : Except Diagnostic Value :=
  m.store.scopes.get globals name

end Machine

namespace Eval

variable {α : Type}

def exhausted : Eval α := fun m =>
  .error .exhausted m

def fail (t : Token) (f : RuntimeFault) : Eval α := fun m =>
  .error (.fault (.runtime t f)) m

/-- A result that may be a diagnostic. -/
def lift : Except Diagnostic α → Eval α
  | .ok a => pure a
  | .error d => fun m => .error (.fault d) m

/-- A result that may be a fault at `t`. -/
def liftAt (t : Token) : Except RuntimeFault α → Eval α
  | .ok a => pure a
  | .error f => fail t f

/-- Reads from the store. -/
def inspect (f : Store → α) : Eval α := fun m =>
  .ok (f m.store) m

def modifyStore (f : Store → Store) : Eval Unit := fun m =>
  .ok () { m with store := f m.store }

def newScope (parent : ScopeId) : Eval ScopeId := fun m =>
  let id := m.store.scopes.next
  .ok id { m with store := m.store.pushScope (some parent) }

def newFunction (f : Closure) : Eval Value := fun m =>
  let id := m.store.functions.size
  .ok (.function id) { m with store := m.store.pushFunction f }

def newClass (c : ClassInfo) : Eval Value := fun m =>
  let id := m.store.classes.size
  .ok (.cls id) { m with store := m.store.pushClass c }

def newInstance (cls : ClassId) : Eval InstanceId := fun m =>
  let id := m.store.instances.size
  .ok id { m with store := m.store.pushInstance cls }

def currentScope : Eval ScopeId := fun m =>
  .ok m.scope m

/-- Binds a name in the current scope. -/
def define (name : String) (v : Value) : Eval Unit := fun m =>
  let scope := m.scope
  .ok () { m with store := m.store.define scope name v }

/-- Runs an action in another scope, and returns to the current one. -/
def within (scope : ScopeId) (action : Eval α) : Eval α := fun m =>
  let outer := m.scope
  match action { m with scope } with
  | .ok a m => .ok a { m with scope := outer }
  | .error e m => .error e { m with scope := outer }

/-- Runs an action as a call, which may not be nested too deeply. -/
def nested (paren : Token) (action : Eval α) : Eval α := fun m =>
  if maxDepth ≤ m.depth then .error (.fault (.runtime paren .stackOverflow)) m
  else
    match action { m with depth := m.depth + 1 } with
    | .ok a m => .ok a { m with depth := m.depth - 1 }
    | .error e m => .error e { m with depth := m.depth - 1 }

/-- The value of a variable: at its recorded distance, or among the globals. -/
def lookUp (ref : Reference) : Eval Value := fun m =>
  let found := match ref.depth with
    | some distance => m.store.scopes.getAt m.scope distance ref.name
    | none => m.store.scopes.get Machine.globals ref.name
  lift found m

/-- Rebinds a variable, which has to be bound there already. -/
def assign (ref : Reference) (v : Value) : Eval Unit := fun m =>
  let owner := match ref.depth with
    | some distance => m.store.scopes.ownerAt? m.scope distance ref.name.lexeme
    | none => m.store.scopes.owner? Machine.globals ref.name.lexeme
  match owner with
  | some id => .ok () { m with store := m.store.define id ref.name.lexeme v }
  | none => .error (.fault (Scopes.undefined ref.name)) m

/-- Prints a line. -/
def printLine (text : String) : Eval Unit := fun ⟨store, scope, depth, out, clock, ticks⟩ =>
  match out.write (text ++ "\n") with
  | (.ok (), out) => .ok () ⟨store, scope, depth, out, clock, ticks⟩
  | (.error f, out) => .error (.fault (.channel f)) ⟨store, scope, depth, out, clock, ticks⟩

/-- The next reading of the clock. Every reading is a number here: the fault of a clock that
stands before its origin (`Clock error: …`) is left out. -/
def readClock : Eval Value := fun m =>
  .ok (.number (m.clock m.ticks)) { m with ticks := m.ticks + 1 }

end Eval

end Treewalk
