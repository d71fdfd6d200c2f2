import Treewalk.Scopes

/-!
# The store

The objects of a running program: scopes, functions, natives, classes and
instances. Objects are added and never removed. Only scopes and instances
change; a function and a class stay as they were made. A class holds its methods
unbound, and a method becomes a function value by being bound to an instance.
-/

namespace Treewalk

/-- What a routine is called as. -/
inductive Role where
  | plain
  | method
  /-- A method named `init`: it is run when a class is called, and its result is
  always the instance. -/
  | initializer
  deriving DecidableEq, Repr

/-- A routine and the scope it was made in. -/
structure Closure where
  routine : Routine Stmt
  scope : ScopeId
  role : Role

/-- A function that is not written in the language. -/
inductive Native where
  /-- The time in seconds. -/
  | clock
  /-- A function of the host. It sees each argument with its printed text, and
  may refuse them with a message. -/
  | host (arity : Nat) (run : List (Value × String) → Except String Value)

structure ClassInfo where
  name : String
  superclass : Option ClassId
  methods : Bindings Closure

structure Instance where
  cls : ClassId
  fields : Bindings Value

structure Store where
  scopes : Scopes
  functions : Array Closure
  natives : Array Native
  classes : Array ClassInfo
  instances : Array Instance

def Native.arity : Native → Nat
  | clock => 0
  | host arity _ => arity

def Closure.arity (f : Closure) : Nat :=
  f.routine.params.length

/-- The name of the method that a class runs on a new instance. -/
def initializerName : String := "init"

namespace Store

def empty : Store := ⟨.empty, #[], #[], #[], #[]⟩

def define (s : Store) (scope : ScopeId) (name : String) (v : Value) : Store :=
  { s with scopes := s.scopes.define scope name v }

def pushScope (s : Store) (parent : Option ScopeId) : Store :=
  { s with scopes := s.scopes.push parent }

def pushFunction (s : Store) (f : Closure) : Store :=
  { s with functions := s.functions.push f }

def pushNative (s : Store) (f : Native) : Store :=
  { s with natives := s.natives.push f }

def pushClass (s : Store) (c : ClassInfo) : Store :=
  { s with classes := s.classes.push c }

def pushInstance (s : Store) (cls : ClassId) : Store :=
  { s with instances := s.instances.push ⟨cls, .empty⟩ }

def setField (s : Store) (id : InstanceId) (name : String) (v : Value) : Store :=
  { s with instances := s.instances.modify id fun o => { o with fields := o.fields.insert name v } }

def field? (s : Store) (id : InstanceId) (name : String) : Option Value :=
  s.instances[id]?.bind fun o => o.fields.get? name

/-- A method of a class or of its superclasses, at most `steps` classes up. -/
def methodWithin (s : Store) (name : String) : Nat → ClassId → Option Closure
  | 0, _ => none
  | steps + 1, id =>
    match s.classes[id]? with
    | none => none
    | some c =>
      match c.methods.get? name with
      | some m => some m
      | none => c.superclass.bind (s.methodWithin name steps)

/-- The method that a class has under a name: its own, or else the nearest
inherited one. -/
def method? (s : Store) (id : ClassId) (name : String) : Option Closure :=
  s.methodWithin name s.classes.size id

def className (s : Store) (id : ClassId) : String :=
  (s.classes[id]?.map ClassInfo.name).getD ""

def functionName (s : Store) (id : FunctionId) : String :=
  (s.functions[id]?.map fun f => f.routine.name.lexeme).getD ""

/-- How many arguments a value takes, if it can be called. A class takes what its
initializer takes. -/
def arity? (s : Store) : Value → Option Nat
  | .function id => s.functions[id]?.map Closure.arity
  | .native id => s.natives[id]?.map Native.arity
  | .cls id => some (((s.method? id initializerName).map Closure.arity).getD 0)
  | _ => none

/-- A value as it is printed. -/
def text (s : Store) : Value → String
  | .nil => "nil"
  | .bool true => "true"
  | .bool false => "false"
  | .number x => Value.numberText x
  | .string t => t
  | .function id => "<fn " ++ s.functionName id ++ ">"
  | .native _ => "<native fn>"
  | .cls id => s.className id
  | .object id => ((s.instances[id]?.map fun o => s.className o.cls).getD "") ++ " instance"

end Store

end Treewalk
