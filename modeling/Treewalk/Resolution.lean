import Treewalk.Bindings
import Treewalk.Descent
import Treewalk.Diagnostic
import Treewalk.Tree

/-!
# Resolving names

A pass over a program before it runs. It keeps the open local scopes, checks the
scoping rules, and records at each variable occurrence how many scopes out the
name is declared. Blocks, routine bodies together with their parameters, the
`super` of a class with a superclass and the `this` of a class are the local
scopes; the global level is none. Faults are collected and never stop the pass.

The `level` of a function counts how deep in the tree it is called, for
`descend`.
-/

namespace Treewalk

/-- The class body that a node stands in. -/
inductive ClassBody where
  | none
  | base
  | derived
  deriving DecidableEq, Repr

/-- What surrounds a node. -/
structure Place where
  inRoutine : Bool
  classBody : ClassBody
  deriving DecidableEq, Repr

structure Scoping where
  /-- The names of the open local scopes, the innermost first. A name is marked
  once its declaration is complete. -/
  scopes : List (Bindings Bool)
  /-- The faults found so far, the latest first. -/
  faults : List Diagnostic

abbrev Resolver := StateM Scoping

namespace Resolver

/-- Runs an action that stands `level` levels deep in the tree. -/
@[inline] def deeper {α : Type} (level : Nat) (action : Unit → Resolver α) : Resolver α := fun s =>
  descend level fun _ => action () s

@[simp] theorem deeper_eq {α : Type} (level : Nat) (action : Unit → Resolver α) :
    deeper level action = action () := by
  funext s
  simp only [deeper, descend_eq]

def fault (t : Token) (f : ScopeFault) : Resolver Unit :=
  modify fun s => { s with faults := .scoping t f :: s.faults }

def openScope (names : Bindings Bool) : Resolver Unit :=
  modify fun s => { s with scopes := names :: s.scopes }

def closeScope : Resolver Unit :=
  modify fun s => { s with scopes := s.scopes.tail }

/-- Declares a name in the innermost scope, where it may be declared only once.
At the global level there is nothing to check. -/
def declare (name : Token) : Resolver Unit := do
  match (← get).scopes with
  | [] => pure ()
  | scope :: rest =>
    if scope.contains name.lexeme then fault name .redeclared
    else modify fun s => { s with scopes := scope.insert name.lexeme false :: rest }

/-- Marks the declaration of a name as complete. -/
def define (name : Token) : Resolver Unit :=
  modify fun s => match s.scopes with
    | [] => s
    | scope :: rest => { s with scopes := scope.insert name.lexeme true :: rest }

/-- How many scopes out a name is declared. -/
def distance? (scopes : List (Bindings Bool)) (name : String) : Option Nat :=
  scopes.findIdx? fun scope => scope.contains name

/-- Records the distance of an occurrence. One that no local scope declares is
left as it is. -/
def locate (ref : Reference) : Resolver Reference := do
  match distance? (← get).scopes ref.name.lexeme with
  | some d => pure { ref with depth := some d }
  | none => pure ref

/-- A variable may not be read while the innermost scope is still initializing
it. -/
def checkRead (ref : Reference) : Resolver Unit := do
  match (← get).scopes with
  | [] => pure ()
  | scope :: _ =>
    if scope.get? ref.name.lexeme = some false then fault ref.name .readInInitializer

def checkSuper (body : ClassBody) (keyword : Token) : Resolver Unit :=
  match body with
  | .none => fault keyword .superOutsideClass
  | .base => fault keyword .superWithoutSuperclass
  | .derived => pure ()

/-- Declares parameters one after the other. -/
def parameters : List Token → Resolver Unit
  | [] => pure ()
  | p :: rest => do
    declare p
    define p
    parameters rest

end Resolver

open Resolver

mutual

def Expr.resolve (body : ClassBody) (level : Nat) : Expr → Resolver Expr
  | .literal value => pure (.literal value)
  | .group inner => do
    pure (.group (← deeper level fun _ => inner.resolve body (level + 1)))
  | .unary op operand => do
    pure (.unary op (← deeper level fun _ => operand.resolve body (level + 1)))
  | .binary op left right => do
    let left ← deeper level fun _ => left.resolve body (level + 1)
    let right ← deeper level fun _ => right.resolve body (level + 1)
    pure (.binary op left right)
  | .logical op left right => do
    let left ← deeper level fun _ => left.resolve body (level + 1)
    let right ← deeper level fun _ => right.resolve body (level + 1)
    pure (.logical op left right)
  | .var ref => do
    checkRead ref
    pure (.var (← locate ref))
  | .assign target value => do
    let value ← deeper level fun _ => value.resolve body (level + 1)
    pure (.assign (← locate target) value)
  | .call callee paren args => do
    let callee ← deeper level fun _ => callee.resolve body (level + 1)
    pure (.call callee paren (← Expr.resolveAll body (level + 1) args))
  | .get object name => do
    pure (.get (← deeper level fun _ => object.resolve body (level + 1)) name)
  | .set object name value => do
    let value ← deeper level fun _ => value.resolve body (level + 1)
    let object ← deeper level fun _ => object.resolve body (level + 1)
    pure (.set object name value)
  | .receiver keyword => do
    if body = .none then
      fault keyword.name .thisOutsideClass
      pure (.receiver keyword)
    else pure (.receiver (← locate keyword))
  | .inherited keyword method => do
    checkSuper body keyword.name
    pure (.inherited (← locate keyword) method)

def Expr.resolveAll (body : ClassBody) (level : Nat) : List Expr → Resolver (List Expr)
  | [] => pure []
  | e :: rest => do
    let e ← deeper level fun _ => e.resolve body (level + 1)
    pure (e :: (← Expr.resolveAll body level rest))

end

def Expr.resolve? (body : ClassBody) : Option Expr → Resolver (Option Expr)
  | none => pure none
  | some e => do pure (some (← e.resolve body 1))

/-- The superclass of a class, and the scope of `super` around its methods. -/
def Resolver.superclass (name : Token) : Option Reference → Resolver (Option Reference)
  | none => pure none
  | some ref => do
    if ref.name.lexeme = name.lexeme then fault ref.name .inheritsFromItself
    let ref ← locate ref
    openScope (Bindings.empty.insert "super" true)
    pure (some ref)

mutual

def Stmt.resolve (place : Place) (level : Nat) : Stmt → Resolver Stmt
  | .expression e => do pure (.expression (← e.resolve place.classBody 1))
  | .print e => do pure (.print (← e.resolve place.classBody 1))
  | .declare name init => do
    Resolver.declare name
    let init ← Expr.resolve? place.classBody init
    Resolver.define name
    pure (.declare name init)
  | .block body => do
    openScope .empty
    let body ← Stmt.resolveAll place (level + 1) body
    closeScope
    pure (.block body)
  | .branch condition consequent none => do
    let condition ← condition.resolve place.classBody 1
    let consequent ← deeper level fun _ => consequent.resolve place (level + 1)
    pure (.branch condition consequent none)
  | .branch condition consequent (some alternative) => do
    let condition ← condition.resolve place.classBody 1
    let consequent ← deeper level fun _ => consequent.resolve place (level + 1)
    let alternative ← deeper level fun _ => alternative.resolve place (level + 1)
    pure (.branch condition consequent (some alternative))
  | .loop condition body => do
    let condition ← condition.resolve place.classBody 1
    let body ← deeper level fun _ => body.resolve place (level + 1)
    pure (.loop condition body)
  | .function ⟨name, params, body⟩ => do
    Resolver.declare name
    Resolver.define name
    openScope .empty
    parameters params
    let body ← Stmt.resolveAll ⟨true, place.classBody⟩ (level + 1) body
    closeScope
    pure (.function ⟨name, params, body⟩)
  | .leave keyword value => do
    unless place.inRoutine do fault keyword .returnAtTopLevel
    pure (.leave keyword (← Expr.resolve? place.classBody value))
  | .classDecl name superclass methods => do
    Resolver.declare name
    Resolver.define name
    let parent ← Resolver.superclass name superclass
    openScope (Bindings.empty.insert "this" true)
    let body := if superclass.isSome then ClassBody.derived else ClassBody.base
    let methods ← Stmt.resolveMethods body (level + 1) methods
    closeScope
    if superclass.isSome then closeScope
    pure (.classDecl name parent methods)

def Stmt.resolveAll (place : Place) (level : Nat) : List Stmt → Resolver (List Stmt)
  | [] => pure []
  | s :: rest => do
    let s ← deeper level fun _ => s.resolve place (level + 1)
    pure (s :: (← Stmt.resolveAll place level rest))

def Stmt.resolveMethods (body : ClassBody) (level : Nat) :
    List (Routine Stmt) → Resolver (List (Routine Stmt))
  | [] => pure []
  | ⟨name, params, statements⟩ :: rest => do
    openScope .empty
    parameters params
    let statements ← Stmt.resolveAll ⟨true, body⟩ level statements
    closeScope
    pure (⟨name, params, statements⟩ :: (← Stmt.resolveMethods body level rest))

end

/-- The program with its distances recorded, and its faults in order. -/
def Program.resolve (program : Program) : Program × List Diagnostic :=
  let (program, s) := (Stmt.resolveAll ⟨false, .none⟩ 1 program).run ⟨[], []⟩
  (program, s.faults.reverse)

end Treewalk
