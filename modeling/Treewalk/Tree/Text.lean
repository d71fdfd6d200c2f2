import Treewalk.Descent
import Treewalk.Tree

/-!
# Trees in prefix form

A node is written as its operator or form name and its children, in parentheses:
`(+ 1.0 (group 2.0))`. A program is written with one statement a line. The
`level` of a function counts how deep in the tree it is called, for `descend`.
-/

namespace Treewalk

/-- An integral number has all its digits and one place, any other its shortest
digits; a string stands as it is. -/
def Literal.text : Literal → String
  | .nil => "nil"
  | .bool true => "true"
  | .bool false => "false"
  | .number x => match Decimal.integral? x with
    | some digits => digits ++ ".0"
    | none => Decimal.plain x
  | .string s => s

mutual

def Expr.textAt (level : Nat) : Expr → String
  | .literal value => value.text
  | .group inner => "(group " ++ (descend level fun _ => inner.textAt (level + 1)) ++ ")"
  | .unary op operand =>
    "(" ++ op.lexeme ++ " " ++ (descend level fun _ => operand.textAt (level + 1)) ++ ")"
  | .binary op left right | .logical op left right =>
    "(" ++ op.lexeme ++ " " ++ (descend level fun _ => left.textAt (level + 1)) ++ " " ++
      (descend level fun _ => right.textAt (level + 1)) ++ ")"
  | .var ref => ref.name.lexeme
  | .assign target value =>
    "(= " ++ target.name.lexeme ++ " " ++ (descend level fun _ => value.textAt (level + 1)) ++ ")"
  | .receiver _ => "this"
  | .inherited _ method => "(super " ++ method.lexeme ++ ")"
  | .call callee _ args =>
    "(call " ++ (descend level fun _ => callee.textAt (level + 1)) ++
      Expr.textsAt (level + 1) args ++ ")"
  | .get object name =>
    "(. " ++ (descend level fun _ => object.textAt (level + 1)) ++ " " ++ name.lexeme ++ ")"
  | .set object name value =>
    "(= (. " ++ (descend level fun _ => object.textAt (level + 1)) ++ " " ++ name.lexeme ++ ") " ++
      (descend level fun _ => value.textAt (level + 1)) ++ ")"

/-- Each expression after a blank. -/
def Expr.textsAt (level : Nat) : List Expr → String
  | [] => ""
  | e :: rest =>
    " " ++ (descend level fun _ => e.textAt (level + 1)) ++ Expr.textsAt level rest

end

def Expr.text (e : Expr) : String :=
  e.textAt 1

/-- The head of a function or method: form name, name and parameters. -/
def Routine.head (form : String) (name : Token) (params : List Token) : String :=
  "(" ++ form ++ " " ++ name.lexeme ++ "(" ++ " ".intercalate (params.map Token.lexeme) ++ ")"

mutual

def Stmt.textAt (level : Nat) : Stmt → String
  | .expression e => "(; " ++ e.text ++ ")"
  | .print e => "(print " ++ e.text ++ ")"
  | .declare name none => "(var " ++ name.lexeme ++ ")"
  | .declare name (some init) => "(var " ++ name.lexeme ++ " " ++ init.text ++ ")"
  | .block body => "(block" ++ Stmt.textsAt (level + 1) body ++ ")"
  | .branch condition consequent none =>
    "(if " ++ condition.text ++ " " ++
      (descend level fun _ => consequent.textAt (level + 1)) ++ ")"
  | .branch condition consequent (some alternative) =>
    "(if " ++ condition.text ++ " " ++
      (descend level fun _ => consequent.textAt (level + 1)) ++ " " ++
      (descend level fun _ => alternative.textAt (level + 1)) ++ ")"
  | .loop condition body =>
    "(while " ++ condition.text ++ " " ++ (descend level fun _ => body.textAt (level + 1)) ++ ")"
  | .function routine => Stmt.routineAt (level + 1) "fun" routine
  | .leave _ none => "(return)"
  | .leave _ (some value) => "(return " ++ value.text ++ ")"
  | .classDecl name none methods =>
    "(class " ++ name.lexeme ++ Stmt.methodsAt (level + 1) methods ++ ")"
  | .classDecl name (some superclass) methods =>
    "(class " ++ name.lexeme ++ " < " ++ superclass.name.lexeme ++
      Stmt.methodsAt (level + 1) methods ++ ")"

/-- Each statement after a blank. -/
def Stmt.textsAt (level : Nat) : List Stmt → String
  | [] => ""
  | s :: rest =>
    " " ++ (descend level fun _ => s.textAt (level + 1)) ++ Stmt.textsAt level rest

def Stmt.routineAt (level : Nat) (form : String) : Routine Stmt → String
  | ⟨name, params, body⟩ => Routine.head form name params ++ Stmt.textsAt level body ++ ")"

/-- Each method after a blank. -/
def Stmt.methodsAt (level : Nat) : List (Routine Stmt) → String
  | [] => ""
  | m :: rest => " " ++ Stmt.routineAt level "method" m ++ Stmt.methodsAt level rest

end

def Stmt.text (s : Stmt) : String :=
  s.textAt 1

/-- A program, one statement a line. -/
def Program.text (program : Program) : String :=
  "\n".intercalate (program.map Stmt.text)

end Treewalk
