import Treewalk.Descent
import Treewalk.Grammar.Cursor
import Treewalk.Tree

/-!
# The grammar of expressions

```text
expression  → disjunction ( "=" expression )?       target: name or property
disjunction → conjunction ( "or" conjunction )*
conjunction → equality ( "and" equality )*
equality    → comparison ( ( "!=" | "==" ) comparison )*
comparison  → term ( ( ">" | ">=" | "<" | "<=" ) term )*
term        → factor ( ( "-" | "+" ) factor )*
factor      → unary ( ( "/" | "*" ) unary )*
unary       → ( "!" | "-" ) unary | primary ( "(" arguments? ")" | "." NAME )*
```

Each production takes the productions it refers to as arguments; `expression` and
`unary` tie the knot. Their fuel bounds the nesting, and it bounds each
repetition.
-/

namespace Treewalk.Parser

/-- Goes on with `operator operand` pairs after a first operand, grouped to the
left. -/
def chain (node : Token → Expr → Expr → Expr) (operators : List Symbol) (operand : Parser Expr) :
    Nat → Expr → Parser Expr
  | 0, _ => exhausted
  | n + 1, left => do
    match ← acceptAny operators with
    | none => pure left
    | some operator =>
      let right ← operand
      chain node operators operand n (node operator left right)

/-- One level of left-associative operators. -/
def leftAssoc (node : Token → Expr → Expr → Expr) (operators : List Symbol) (operand : Parser Expr)
    (n : Nat) : Parser Expr := do
  let left ← operand
  chain node operators operand n left

def factor (unary : Parser Expr) (n : Nat) : Parser Expr :=
  leftAssoc .binary [.slash, .star] unary n

def term (unary : Parser Expr) (n : Nat) : Parser Expr :=
  leftAssoc .binary [.minus, .plus] (factor unary n) n

def comparison (unary : Parser Expr) (n : Nat) : Parser Expr :=
  leftAssoc .binary [.greater, .greaterEqual, .less, .lessEqual] (term unary n) n

def equality (unary : Parser Expr) (n : Nat) : Parser Expr :=
  leftAssoc .binary [.bangEqual, .equalEqual] (comparison unary n) n

def conjunction (unary : Parser Expr) (n : Nat) : Parser Expr :=
  leftAssoc .logical [.andWord] (equality unary n) n

def disjunction (unary : Parser Expr) (n : Nat) : Parser Expr :=
  leftAssoc .logical [.orWord] (conjunction unary n) n

/-- An assignment reads its target as an expression and then looks at what it
read. A wrong target is reported and dropped together with the value. -/
def assignment (operand value : Parser Expr) : Parser Expr := do
  let target ← operand
  match ← accept .equal with
  | none => pure target
  | some equals =>
    let value ← value
    match target with
    | .var ref => pure (.assign ref value)
    | .get object name => pure (.set object name value)
    | other =>
      report equals .invalidTarget
      pure other

/-- Arguments separated by commas, at least one; `found` holds the earlier ones,
the latest first. -/
def arguments (argument : Parser Expr) : Nat → List Expr → Parser (List Expr)
  | 0, _ => exhausted
  | n + 1, found => do
    if isFull found then
      report (← peek) .tooManyArguments
    let e ← argument
    match ← accept .comma with
    | some _ => arguments argument n (e :: found)
    | none => pure (e :: found).reverse

/-- The rest of a call, after its opening parenthesis. -/
def call (argument : Parser Expr) (n : Nat) (callee : Expr) : Parser Expr := do
  let args ← if ← atAny [.rightParen] then pure [] else arguments argument n []
  let paren ← expect .rightParen "')' after arguments"
  pure (.call callee paren args)

/-- Calls and property accesses after an expression. -/
def suffixes (argument : Parser Expr) : Nat → Expr → Parser Expr
  | 0, _ => exhausted
  | n + 1, e => do
    match ← accept .leftParen with
    | some _ => suffixes argument n (← call argument n e)
    | none =>
      match ← accept .dot with
      | some _ =>
        let name ← expectName "property name after '.'"
        suffixes argument n (.get e name)
      | none => pure e

/-- The expression that a single token is. -/
def atom? (t : Token) : Option Expr :=
  match t.kind with
  | .symbol .falseWord => some (.literal (.bool false))
  | .symbol .trueWord => some (.literal (.bool true))
  | .symbol .nilWord => some (.literal .nil)
  | .number value => some (.literal (.number value))
  | .string value => some (.literal (.string value))
  | .symbol .thisWord => some (.receiver ⟨t, none⟩)
  | .identifier => some (.var ⟨t, none⟩)
  | _ => none

/-- Reads the token in front if it is an expression by itself. -/
def acceptAtom : Parser (Option Expr) := fun c =>
  match c.rest with
  | t :: rest =>
    match atom? t with
    | some e => .ok (some e) { c with rest }
    | none => .ok none c
  | [] => .ok none c

/-- An atom, `super.name` or an expression in parentheses. -/
def primary (inner : Parser Expr) : Parser Expr := do
  match ← acceptAtom with
  | some e => pure e
  | none =>
    match ← accept .superWord with
    | some keyword =>
      let _ ← expect .dot "'.' after 'super'"
      let method ← expectName "superclass method name"
      pure (.inherited ⟨keyword, none⟩ method)
    | none =>
      match ← accept .leftParen with
      | some _ =>
        let e ← inner
        let _ ← expect .rightParen "')' after expression"
        pure (.group e)
      | none => fail (.expected "expression")

/-- An operator and its operand, or a primary expression with its suffixes. -/
def signed (unary inner : Parser Expr) (n : Nat) : Parser Expr := do
  match ← acceptAny [.bang, .minus] with
  | some operator => pure (.unary operator (← unary))
  | none => suffixes inner n (← primary inner)

mutual

def expression : Nat → Parser Expr
  | 0 => exhausted
  | n + 1 => fun c => descend n fun _ =>
    assignment (disjunction (unary n) n) (expression n) c

def unary : Nat → Parser Expr
  | 0 => exhausted
  | n + 1 => fun c => descend n fun _ => signed (unary n) (expression n) n c

end

end Treewalk.Parser
