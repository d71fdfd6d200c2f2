import Treewalk.Token

/-!
# Syntax trees

Expressions, statements and programs. Operators, names and the tokens at which a
run can fail are kept as tokens, so that a diagnostic can say where. A `for`
statement has no node of its own: it is read as a loop inside blocks.
-/

namespace Treewalk

/-- An occurrence of a variable. Once names are resolved, `depth` counts the
scopes between the occurrence and the one that declares the name; a name that no
local scope declares has no depth and is looked up among the globals. -/
structure Reference where
  name : Token
  depth : Option Nat
  deriving DecidableEq, Repr

inductive Literal where
  | nil
  | bool (value : Bool)
  | number (value : Float)
  | string (value : String)
  deriving DecidableEq, Repr

inductive Expr where
  | literal (value : Literal)
  | unary (operator : Token) (operand : Expr)
  | binary (operator : Token) (left right : Expr)
  /-- `and` or `or`: the right operand is evaluated only if it decides. -/
  | logical (operator : Token) (left right : Expr)
  | group (inner : Expr)
  | var (ref : Reference)
  | assign (target : Reference) (value : Expr)
  | call (callee : Expr) (paren : Token) (args : List Expr)
  | get (object : Expr) (name : Token)
  | set (object : Expr) (name : Token) (value : Expr)
  /-- The instance a method is bound to, `this`. -/
  | receiver (keyword : Reference)
  /-- A method of the superclass, `super.name`. -/
  | inherited (keyword : Reference) (method : Token)

/-- A function or method: name, parameters and a body of statements `σ`. -/
structure Routine (σ : Type) where
  name : Token
  params : List Token
  body : List σ

inductive Stmt where
  | expression (e : Expr)
  | print (e : Expr)
  | declare (name : Token) (init : Option Expr)
  | block (body : List Stmt)
  | branch (condition : Expr) (consequent : Stmt) (alternative : Option Stmt)
  | loop (condition : Expr) (body : Stmt)
  | function (routine : Routine Stmt)
  /-- Leaves the enclosing function, `return`. -/
  | leave (keyword : Token) (value : Option Expr)
  | classDecl (name : Token) (superclass : Option Reference) (methods : List (Routine Stmt))

abbrev Program := List Stmt

/-- A `for` statement: the initializer in a block around the loop, the increment
in a block with the body, and a condition that always holds if there is none. -/
def Stmt.forLoop (init : Option Stmt) (condition increment : Option Expr) (body : Stmt) : Stmt :=
  let body := match increment with
    | none => body
    | some e => .block [body, .expression e]
  let loop := Stmt.loop (condition.getD (.literal (.bool true))) body
  match init with
  | none => loop
  | some s => .block [s, loop]

end Treewalk
