import Treewalk.Tree

/-!
# Variable occurrences

All places of a tree that name a variable, from left to right in the order of a
walk that visits a node before its children: variables, targets of assignments,
`this`, the keyword of `super.name` and the superclass of a class. The walk
carries what it `found` so far, the latest first.
-/

namespace Treewalk

mutual

def Expr.collect (found : List Reference) : Expr → List Reference
  | .literal _ => found
  | .unary _ operand => operand.collect found
  | .binary _ left right | .logical _ left right => right.collect (left.collect found)
  | .group inner => inner.collect found
  | .var ref => ref :: found
  | .assign target value => value.collect (target :: found)
  | .call callee _ args => Expr.collectAll (callee.collect found) args
  | .get object _ => object.collect found
  | .set object _ value => value.collect (object.collect found)
  | .receiver keyword => keyword :: found
  | .inherited keyword _ => keyword :: found

def Expr.collectAll (found : List Reference) : List Expr → List Reference
  | [] => found
  | e :: rest => Expr.collectAll (e.collect found) rest

end

mutual

def Stmt.collect (found : List Reference) : Stmt → List Reference
  | .expression e | .print e => e.collect found
  | .declare _ none | .leave _ none => found
  | .declare _ (some e) | .leave _ (some e) => e.collect found
  | .block body => Stmt.collectAll found body
  | .branch condition consequent none => consequent.collect (condition.collect found)
  | .branch condition consequent (some alternative) =>
    alternative.collect (consequent.collect (condition.collect found))
  | .loop condition body => body.collect (condition.collect found)
  | .function routine => Stmt.collectRoutine found routine
  | .classDecl _ none methods => Stmt.collectMethods found methods
  | .classDecl _ (some superclass) methods => Stmt.collectMethods (superclass :: found) methods

def Stmt.collectAll (found : List Reference) : List Stmt → List Reference
  | [] => found
  | s :: rest => Stmt.collectAll (s.collect found) rest

def Stmt.collectRoutine (found : List Reference) : Routine Stmt → List Reference
  | ⟨_, _, body⟩ => Stmt.collectAll found body

def Stmt.collectMethods (found : List Reference) : List (Routine Stmt) → List Reference
  | [] => found
  | r :: rest => Stmt.collectMethods (Stmt.collectRoutine found r) rest

end

def Expr.occurrences (e : Expr) : List Reference :=
  (e.collect []).reverse

def Stmt.occurrences (s : Stmt) : List Reference :=
  (s.collect []).reverse

def Program.occurrences (program : Program) : List Reference :=
  (Stmt.collectAll [] program).reverse

end Treewalk
