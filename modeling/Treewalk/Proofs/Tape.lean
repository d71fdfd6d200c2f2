import Treewalk.Proofs.Grammar.Reads

/-!
# Parsing by position

The parser once more, over all the tokens and a position in them: a token is looked at where
the position is or right before it, a look outside of the tokens stops the parser for good
(`Halt.outside`), and an end of file is a token like the others. Nothing but the position
keeps the parser from running past it. Every look is put on record (`Tape.looks`), so a run
tells afterwards where the parser has been.

The rules are those of the grammar, in the order in which the tokens are looked at.
-/

namespace Treewalk

/-- A token that is looked at, and the position of the parser meanwhile. -/
structure Look where
  current : Nat
  index : Nat
  deriving DecidableEq

structure Tape where
  tokens : List Token
  /-- The position of the next token. -/
  current : Nat
  /-- The looks so far, the latest first. -/
  looks : List Look
  /-- What was reported so far, the latest first. -/
  reports : List Diagnostic

namespace Tape

/-- The tokens from the start. An end of file is supplied, on the last token's line, if the
last token is none. -/
def start (tokens : List Token) : Tape where
  tokens :=
    if tokens.getLast?.any Token.isEnd then tokens
    else tokens ++ [.endOfFile ((tokens.getLast?.map Token.line).getD 1)]
  current := 0
  looks := []
  reports := []

/-- Why the parser stops early. -/
inductive Halt where
  | fault (d : Diagnostic)
  /-- The fuel is used up. -/
  | exhausted
  /-- There is no token where one was looked at. -/
  | outside

abbrev Reader := EStateM Halt Tape

/-! ## Looking at tokens and reading them -/

def halt {α : Type} (h : Halt) : Reader α := fun t =>
  .error h t

def lookAt (index : Nat) : Reader Token := fun t =>
  match t.tokens[index]? with
  | some token => .ok token { t with looks := ⟨t.current, index⟩ :: t.looks }
  | none => .error .outside t

def peek : Reader Token := fun t =>
  lookAt t.current t

def previous : Reader Token := fun t =>
  lookAt (t.current - 1) t

def atEnd : Reader Bool := do
  return (← peek).isEnd

def step : Reader Unit := fun t =>
  .ok () { t with current := t.current + 1 }

/-- Goes past the token in front, unless it is the end. -/
def advance : Reader Token := do
  if !(← atEnd) then step
  previous

def check (p : Kind → Bool) : Reader Bool := do
  if ← atEnd then pure false else return p (← peek).kind

def atAny (symbols : List Symbol) : Reader Bool :=
  check fun k => symbols.any fun s => k = .symbol s

def acceptIf (p : Kind → Bool) : Reader (Option Token) := do
  if ← check p then return some (← advance) else pure none

def acceptAny (symbols : List Symbol) : Reader (Option Token) :=
  acceptIf fun k => symbols.any fun s => k = .symbol s

def accept (s : Symbol) : Reader (Option Token) :=
  acceptAny [s]

/-- Fails at the token in front. -/
def fail {α : Type} (fault : SyntaxFault) : Reader α := do
  let t ← peek
  halt (.fault (.syntactic t fault))

def record (d : Diagnostic) : Reader Unit := fun t =>
  .ok () { t with reports := d :: t.reports }

def report (t : Token) (fault : SyntaxFault) : Reader Unit :=
  record (.syntactic t fault)

def expectIf (p : Kind → Bool) (what : String) : Reader Token := do
  match ← acceptIf p with
  | some t => pure t
  | none => fail (.expected what)

def expect (s : Symbol) (what : String) : Reader Token :=
  expectIf (fun k => k = .symbol s) what

def expectName (what : String) : Reader Token :=
  expectIf (fun k => k = .identifier) what

/-- Goes on to the next statement boundary. -/
def skip : Nat → Reader Unit
  | 0 => halt .exhausted
  | n + 1 => do
    if ← atEnd then pure ()
    else if (← previous).kind = .symbol .semicolon then pure ()
    else if Cursor.opensStatement (← peek) then pure ()
    else
      let _ ← advance
      skip n

/-- Skips the token in front and everything up to the next boundary. -/
def synchronize : Reader Unit := fun t => (do
  let _ ← advance
  skip t.tokens.length : Reader Unit) t

/-- Catches a fault: records it and skips to the next statement boundary. -/
def recover (p : Reader Stmt) : Reader (Option Stmt) := fun t =>
  match p t with
  | .ok s t => .ok (some s) t
  | .error (.fault d) t => (do record d; synchronize; pure none : Reader (Option Stmt)) t
  | .error h t => .error h t

/-! ## Expressions -/

def chain (node : Token → Expr → Expr → Expr) (operators : List Symbol) (operand : Reader Expr) :
    Nat → Expr → Reader Expr
  | 0, _ => halt .exhausted
  | n + 1, left => do
    match ← acceptAny operators with
    | none => pure left
    | some operator =>
      let right ← operand
      chain node operators operand n (node operator left right)

/-- Operands above a level of operators, over unary expressions. -/
def ladder (unary : Reader Expr) (n : Nat) : Nat → Reader Expr
  | 0 => unary
  | i + 1 => do
    let left ← ladder unary n i
    chain (Parser.operation (i + 1)) (Parser.operators (i + 1)) (ladder unary n i) n left

def assignment (operand value : Reader Expr) : Reader Expr := do
  let target ← operand
  match ← accept .equal with
  | none => pure target
  | some equals =>
    let value ← value
    match target with
    | .var ref => pure (.assign ref value)
    | .get object name => pure (.set object name value)
    | other =>
      report equals .invalidTarget
      pure other

/-- Reports an item for which there is no room. -/
def checkRoom {α : Type} (found : List α) (fault : SyntaxFault) : Reader Unit := do
  if Parser.isFull found then report (← peek) fault

def arguments (argument : Reader Expr) : Nat → List Expr → Reader (List Expr)
  | 0, _ => halt .exhausted
  | n + 1, found => do
    checkRoom found .tooManyArguments
    let e ← argument
    match ← accept .comma with
    | some _ => arguments argument n (e :: found)
    | none => pure (e :: found).reverse

def call (argument : Reader Expr) (n : Nat) (callee : Expr) : Reader Expr := do
  let args ← if ← atAny [.rightParen] then pure [] else arguments argument n []
  let paren ← expect .rightParen "')' after arguments"
  pure (.call callee paren args)

def suffixes (argument : Reader Expr) : Nat → Expr → Reader Expr
  | 0, _ => halt .exhausted
  | n + 1, e => do
    match ← accept .leftParen with
    | some _ => suffixes argument n (← call argument n e)
    | none =>
      match ← accept .dot with
      | some _ =>
        let name ← expectName "property name after '.'"
        suffixes argument n (.get e name)
      | none => pure e

def acceptAtom : Reader (Option Expr) := do
  if ← atEnd then pure none
  else
    match Parser.atom? (← peek) with
    | some e =>
      let _ ← advance
      pure (some e)
    | none => pure none

def primary (inner : Reader Expr) : Reader Expr := do
  match ← acceptAtom with
  | some e => pure e
  | none =>
    match ← accept .superWord with
    | some keyword =>
      let _ ← expect .dot "'.' after 'super'"
      let method ← expectName "superclass method name"
      pure (.inherited ⟨keyword, none⟩ method)
    | none =>
      match ← accept .leftParen with
      | some _ =>
        let e ← inner
        let _ ← expect .rightParen "')' after expression"
        pure (.group e)
      | none => fail (.expected "expression")

def signed (unary inner : Reader Expr) (n : Nat) : Reader Expr := do
  match ← acceptAny [.bang, .minus] with
  | some operator => pure (.unary operator (← unary))
  | none => suffixes inner n (← primary inner)

mutual

def expression : Nat → Reader Expr
  | 0 => halt .exhausted
  | n + 1 => assignment (ladder (unary n) n 6) (expression n)

def unary : Nat → Reader Expr
  | 0 => halt .exhausted
  | n + 1 => signed (unary n) (expression n) n

end

/-! ## Statements -/

def declarations (stop : Reader Bool) (declaration : Reader (Option Stmt)) :
    Nat → List Stmt → Reader (List Stmt)
  | 0, _ => halt .exhausted
  | n + 1, found => do
    if ← stop then pure found.reverse
    else
      match ← declaration with
      | some s => declarations stop declaration n (s :: found)
      | none => declarations stop declaration n found

/-- A closing brace, or the end. -/
def atBlockEnd : Reader Bool := do
  if ← atAny [.rightBrace] then pure true else atEnd

def block (declaration : Reader (Option Stmt)) (n : Nat) : Reader (List Stmt) := do
  let body ← declarations atBlockEnd declaration n []
  let _ ← expect .rightBrace "'\x7d' after block"
  pure body

def parameters : Nat → List Token → Reader (List Token)
  | 0, _ => halt .exhausted
  | n + 1, found => do
    checkRoom found .tooManyParameters
    let name ← expectName "parameter name"
    match ← accept .comma with
    | some _ => parameters n (name :: found)
    | none => pure (name :: found).reverse

def routine (declaration : Reader (Option Stmt)) (sort : String) (n : Nat) :
    Reader (Routine Stmt) := do
  let name ← expectName (sort ++ " name")
  let _ ← expect .leftParen ("'(' after " ++ sort ++ " name")
  let params ← if ← atAny [.rightParen] then pure [] else parameters n []
  let _ ← expect .rightParen "')' after parameters"
  let _ ← expect .leftBrace ("'\x7b' before " ++ sort ++ " body")
  let body ← block declaration n
  pure ⟨name, params, body⟩

def methods (declaration : Reader (Option Stmt)) :
    Nat → List (Routine Stmt) → Reader (List (Routine Stmt))
  | 0, _ => halt .exhausted
  | n + 1, found => do
    if ← atBlockEnd then pure found.reverse
    else methods declaration n ((← routine declaration "method" n) :: found)

def classDecl (declaration : Reader (Option Stmt)) (n : Nat) : Reader Stmt := do
  let name ← expectName "class name"
  let superclass ← do
    match ← accept .less with
    | some _ => pure (some ⟨← expectName "superclass name", none⟩)
    | none => pure none
  let _ ← expect .leftBrace "'\x7b' before class body"
  let found ← methods declaration n []
  let _ ← expect .rightBrace "'\x7d' after class body"
  pure (.classDecl name superclass found)

def variableDecl (expr : Reader Expr) : Reader Stmt := do
  let name ← expectName "variable name"
  let init ← do
    match ← accept .equal with
    | some _ => pure (some (← expr))
    | none => pure none
  let _ ← expect .semicolon "';' after variable declaration"
  pure (.declare name init)

def expressionStatement (expr : Reader Expr) : Reader Stmt := do
  let e ← expr
  let _ ← expect .semicolon "';' after expression"
  pure (.expression e)

/-- An expression, unless `close` stands in front. -/
def unlessAt (close : Symbol) (expr : Reader Expr) : Reader (Option Expr) := do
  if ← atAny [close] then pure none else pure (some (← expr))

def initializer (expr : Reader Expr) : Reader (Option Stmt) := do
  match ← accept .semicolon with
  | some _ => pure none
  | none =>
    match ← accept .varWord with
    | some _ => pure (some (← variableDecl expr))
    | none => pure (some (← expressionStatement expr))

def forStatement (expr : Reader Expr) (statement : Reader Stmt) : Reader Stmt := do
  let _ ← expect .leftParen "'(' after 'for'"
  let init ← initializer expr
  let condition ← unlessAt .semicolon expr
  let _ ← expect .semicolon "';' after loop condition"
  let increment ← unlessAt .rightParen expr
  let _ ← expect .rightParen "')' after for clauses"
  let body ← statement
  pure (.forLoop init condition increment body)

def ifStatement (expr : Reader Expr) (statement : Reader Stmt) : Reader Stmt := do
  let _ ← expect .leftParen "'(' after 'if'"
  let condition ← expr
  let _ ← expect .rightParen "')' after if condition"
  let consequent ← statement
  match ← accept .elseWord with
  | some _ => pure (.branch condition consequent (some (← statement)))
  | none => pure (.branch condition consequent none)

def whileStatement (expr : Reader Expr) (statement : Reader Stmt) : Reader Stmt := do
  let _ ← expect .leftParen "'(' after 'while'"
  let condition ← expr
  let _ ← expect .rightParen "')' after condition"
  pure (.loop condition (← statement))

def returnStatement (expr : Reader Expr) (keyword : Token) : Reader Stmt := do
  let value ← unlessAt .semicolon expr
  let _ ← expect .semicolon "';' after return value"
  pure (.leave keyword value)

def printStatement (expr : Reader Expr) : Reader Stmt := do
  let e ← expr
  let _ ← expect .semicolon "';' after value"
  pure (.print e)

def statementOver (expr : Reader Expr) (statement : Reader Stmt)
    (declaration : Reader (Option Stmt)) (n : Nat) : Reader Stmt := do
  match ← acceptAny Parser.statementSymbols with
  | none => expressionStatement expr
  | some t =>
    match t.kind with
    | .symbol .forWord => forStatement expr statement
    | .symbol .ifWord => ifStatement expr statement
    | .symbol .whileWord => whileStatement expr statement
    | .symbol .returnWord => returnStatement expr t
    | .symbol .leftBrace => pure (.block (← block declaration n))
    | _ => printStatement expr

def declarationOver (expr : Reader Expr) (statement : Reader Stmt)
    (declaration : Reader (Option Stmt)) (n : Nat) : Reader Stmt := do
  match ← acceptAny [.classWord, .funWord, .varWord] with
  | none => statement
  | some t =>
    match t.kind with
    | .symbol .classWord => classDecl declaration n
    | .symbol .funWord => pure (.function (← routine declaration "function" n))
    | _ => variableDecl expr

mutual

def statement : Nat → Reader Stmt
  | 0 => halt .exhausted
  | n + 1 => statementOver (expression n) (statement n) (declaration n) n

def declaration : Nat → Reader (Option Stmt)
  | 0 => halt .exhausted
  | n + 1 => recover (declarationOver (expression n) (statement n) (declaration n) n)

end

/-- Declarations up to the end. -/
def program (n : Nat) : Reader Program :=
  declarations atEnd (declaration n) n []

end Tape

end Treewalk
