import Treewalk.Diagnostic
import Treewalk.Tree

/-!
# Values

What expressions evaluate to. Primitive values stand for themselves; functions,
natives, classes and instances are held in a store and named by their index
there, so two of them are the same value exactly when they are the same object.
-/

namespace Treewalk

abbrev ScopeId := Nat
abbrev FunctionId := Nat
abbrev NativeId := Nat
abbrev ClassId := Nat
abbrev InstanceId := Nat

inductive Value where
  | nil
  | bool (b : Bool)
  | number (x : Float)
  | string (s : String)
  | function (id : FunctionId)
  | native (id : NativeId)
  | cls (id : ClassId)
  | object (id : InstanceId)
  deriving DecidableEq, Repr

/-- The value of a literal. -/
def Literal.value : Literal → Value
  | .nil => .nil
  | .bool b => .bool b
  | .number x => .number x
  | .string s => .string s

namespace Value

/-- Everything counts as true but `nil` and `false`. -/
def truthy : Value → Bool
  | nil | bool false => false
  | _ => true

/-- Equality as programs see it: numbers by comparison, so NaN differs from
itself, and objects by identity. -/
def same : Value → Value → Bool
  | nil, nil => true
  | bool a, bool b => a == b
  | number a, number b => a == b
  | string a, string b => a == b
  | function a, function b => a == b
  | native a, native b => a == b
  | cls a, cls b => a == b
  | object a, object b => a == b
  | _, _ => false

/-- The name of the value's type. -/
def typeName : Value → String
  | nil => "nil"
  | bool _ => "boolean"
  | number _ => "number"
  | string _ => "string"
  | function _ | native _ => "function"
  | cls _ => "class"
  | object _ => "instance"

/-- A printed number: all digits of an integral one, the shortest of another. -/
def numberText (x : Float) : String :=
  (Decimal.integral? x).getD (Decimal.plain x)

/-- The result of a unary operator. -/
def unary (operator : Kind) (v : Value) : Except RuntimeFault Value :=
  match operator with
  | .symbol .bang => .ok (bool (!v.truthy))
  | .symbol .minus =>
    match v with
    | number x => .ok (number (-x))
    | _ => .error .operandNotNumber
  | _ => .error .invalidUnary

/-- The result of an operator that takes two numbers. -/
def arithmetic (operator : Kind) (a b : Float) : Except RuntimeFault Value :=
  match operator with
  | .symbol .minus => .ok (number (a - b))
  | .symbol .star => .ok (number (a * b))
  | .symbol .slash => .ok (number (a / b))
  | .symbol .greater => .ok (bool (decide (b < a)))
  | .symbol .greaterEqual => .ok (bool (decide (b ≤ a)))
  | .symbol .less => .ok (bool (decide (a < b)))
  | .symbol .lessEqual => .ok (bool (decide (a ≤ b)))
  | _ => .error .invalidBinary

/-- The result of a binary operator. Nothing is converted: a sum is of two
numbers or of two strings. -/
def binary (operator : Kind) (left right : Value) : Except RuntimeFault Value :=
  match operator with
  | .symbol .plus =>
    match left, right with
    | number a, number b => .ok (number (a + b))
    | string a, string b => .ok (string (a ++ b))
    | _, _ => .error .operandsNotAddable
  | .symbol .equalEqual => .ok (bool (left.same right))
  | .symbol .bangEqual => .ok (bool (!left.same right))
  | _ =>
    match left, right with
    | number a, number b => arithmetic operator a b
    | _, _ => .error .operandsNotNumbers

end Value

end Treewalk
