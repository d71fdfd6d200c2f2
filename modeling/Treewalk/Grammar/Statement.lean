import Treewalk.Grammar.Expression

/-!
# The grammar of statements

```text
program     → declaration* END
declaration → "class" NAME ( "<" NAME )? "{" routine* "}"
            | "fun" routine | "var" variable | statement
routine     → NAME "(" ( NAME ( "," NAME )* )? ")" "{" declaration* "}"
variable    → NAME ( "=" expression )? ";"
statement   → "for" "(" ( ";" | "var" variable | expression ";" )
                expression? ";" expression? ")" statement
            | "if" "(" expression ")" statement ( "else" statement )?
            | "while" "(" expression ")" statement
            | "return" expression? ";" | "{" declaration* "}"
            | "print" expression ";" | expression ";"
```

A declaration that fails is dropped: its diagnostic is recorded and reading goes
on at the next statement boundary. So `Program.ofTokens` returns the statements
that could be read and every diagnostic, in order.
-/

namespace Treewalk.Parser

/-- Declarations up to the point where `stop` holds; `found` holds the earlier
ones, the latest first. -/
def declarations (stop : Parser Bool) (declaration : Parser (Option Stmt)) :
    Nat → List Stmt → Parser (List Stmt)
  | 0, _ => exhausted
  | n + 1, found => do
    if ← stop then pure found.reverse
    else
      match ← declaration with
      | some s => declarations stop declaration n (s :: found)
      | none => declarations stop declaration n found

/-- A closing brace, or the end. -/
def atBlockEnd : Parser Bool := do
  if ← atEnd then pure true else atAny [.rightBrace]

/-- The rest of a block, after its opening brace. -/
def block (declaration : Parser (Option Stmt)) (n : Nat) : Parser (List Stmt) := do
  let body ← declarations atBlockEnd declaration n []
  let _ ← expect .rightBrace "'\x7d' after block"
  pure body

/-- Parameters separated by commas, at least one; `found` holds the earlier ones,
the latest first. -/
def parameters : Nat → List Token → Parser (List Token)
  | 0, _ => exhausted
  | n + 1, found => do
    if isFull found then
      report (← peek) .tooManyParameters
    let name ← expectName "parameter name"
    match ← accept .comma with
    | some _ => parameters n (name :: found)
    | none => pure (name :: found).reverse

/-- A function or method from its name on; `sort` is what diagnostics call it. -/
def routine (declaration : Parser (Option Stmt)) (sort : String) (n : Nat) :
    Parser (Routine Stmt) := do
  let name ← expectName (sort ++ " name")
  let _ ← expect .leftParen ("'(' after " ++ sort ++ " name")
  let params ← if ← atAny [.rightParen] then pure [] else parameters n []
  let _ ← expect .rightParen "')' after parameters"
  let _ ← expect .leftBrace ("'\x7b' before " ++ sort ++ " body")
  let body ← block declaration n
  pure ⟨name, params, body⟩

/-- Methods up to the closing brace; `found` holds the earlier ones, the latest
first. -/
def methods (declaration : Parser (Option Stmt)) :
    Nat → List (Routine Stmt) → Parser (List (Routine Stmt))
  | 0, _ => exhausted
  | n + 1, found => do
    if ← atBlockEnd then pure found.reverse
    else methods declaration n ((← routine declaration "method" n) :: found)

/-- A class from its name on. -/
def classDecl (declaration : Parser (Option Stmt)) (n : Nat) : Parser Stmt := do
  let name ← expectName "class name"
  let superclass ← do
    match ← accept .less with
    | some _ => pure (some ⟨← expectName "superclass name", none⟩)
    | none => pure none
  let _ ← expect .leftBrace "'\x7b' before class body"
  let found ← methods declaration n []
  let _ ← expect .rightBrace "'\x7d' after class body"
  pure (.classDecl name superclass found)

/-- A variable from its name on. -/
def variableDecl (expr : Parser Expr) : Parser Stmt := do
  let name ← expectName "variable name"
  let init ← do
    match ← accept .equal with
    | some _ => pure (some (← expr))
    | none => pure none
  let _ ← expect .semicolon "';' after variable declaration"
  pure (.declare name init)

def expressionStatement (expr : Parser Expr) : Parser Stmt := do
  let e ← expr
  let _ ← expect .semicolon "';' after expression"
  pure (.expression e)

/-- An expression, unless `close` stands in front. -/
def unlessAt (close : Symbol) (expr : Parser Expr) : Parser (Option Expr) := do
  if ← atAny [close] then pure none else pure (some (← expr))

/-- The initializer of a `for` statement with its semicolon. -/
def initializer (expr : Parser Expr) : Parser (Option Stmt) := do
  match ← accept .semicolon with
  | some _ => pure none
  | none =>
    match ← accept .varWord with
    | some _ => pure (some (← variableDecl expr))
    | none => pure (some (← expressionStatement expr))

def forStatement (expr : Parser Expr) (statement : Parser Stmt) : Parser Stmt := do
  let _ ← expect .leftParen "'(' after 'for'"
  let init ← initializer expr
  let condition ← unlessAt .semicolon expr
  let _ ← expect .semicolon "';' after loop condition"
  let increment ← unlessAt .rightParen expr
  let _ ← expect .rightParen "')' after for clauses"
  let body ← statement
  pure (.forLoop init condition increment body)

/-- An `else` belongs to the nearest `if`. -/
def ifStatement (expr : Parser Expr) (statement : Parser Stmt) : Parser Stmt := do
  let _ ← expect .leftParen "'(' after 'if'"
  let condition ← expr
  let _ ← expect .rightParen "')' after if condition"
  let consequent ← statement
  match ← accept .elseWord with
  | some _ => pure (.branch condition consequent (some (← statement)))
  | none => pure (.branch condition consequent none)

def whileStatement (expr : Parser Expr) (statement : Parser Stmt) : Parser Stmt := do
  let _ ← expect .leftParen "'(' after 'while'"
  let condition ← expr
  let _ ← expect .rightParen "')' after condition"
  pure (.loop condition (← statement))

def returnStatement (expr : Parser Expr) (keyword : Token) : Parser Stmt := do
  let value ← unlessAt .semicolon expr
  let _ ← expect .semicolon "';' after return value"
  pure (.leave keyword value)

def printStatement (expr : Parser Expr) : Parser Stmt := do
  let e ← expr
  let _ ← expect .semicolon "';' after value"
  pure (.print e)

/-- The words and the brace that decide which statement follows. -/
def statementSymbols : List Symbol :=
  [.forWord, .ifWord, .whileWord, .returnWord, .leftBrace, .printWord]

/-- A statement, given the productions for what it contains. -/
def statementOver (expr : Parser Expr) (statement : Parser Stmt)
    (declaration : Parser (Option Stmt)) (n : Nat) : Parser Stmt := do
  match ← acceptAny statementSymbols with
  | none => expressionStatement expr
  | some t =>
    match t.kind with
    | .symbol .forWord => forStatement expr statement
    | .symbol .ifWord => ifStatement expr statement
    | .symbol .whileWord => whileStatement expr statement
    | .symbol .returnWord => returnStatement expr t
    | .symbol .leftBrace => pure (.block (← block declaration n))
    | _ => printStatement expr

/-- A declaration, given the productions for what it contains. -/
def declarationOver (expr : Parser Expr) (statement : Parser Stmt)
    (declaration : Parser (Option Stmt)) (n : Nat) : Parser Stmt := do
  match ← acceptAny [.classWord, .funWord, .varWord] with
  | none => statement
  | some t =>
    match t.kind with
    | .symbol .classWord => classDecl declaration n
    | .symbol .funWord => pure (.function (← routine declaration "function" n))
    | _ => variableDecl expr

/-- Catches a failure: records it and skips to the next statement boundary. -/
def recover (p : Parser Stmt) : Parser (Option Stmt) := fun c =>
  match p c with
  | .ok s c => .ok (some s) c
  | .error (.fault d) c => .ok none (c.record d).synchronize
  | .error .exhausted c => .error .exhausted c

mutual

def statement : Nat → Parser Stmt
  | 0 => exhausted
  | n + 1 => fun c => descend n fun _ =>
    statementOver (expression n) (statement n) (declaration n) n c

def declaration : Nat → Parser (Option Stmt)
  | 0 => exhausted
  | n + 1 => fun c => descend n fun _ =>
    recover (declarationOver (expression n) (statement n) (declaration n) n) c

end

/-- Declarations up to the end. -/
def program (n : Nat) : Parser Program :=
  declarations atEnd (declaration n) n []

/-- Every level of nesting costs at most two steps and reads at least one token,
so this much fuel is never used up. -/
def fuelFor (tokens : List Token) : Nat :=
  4 * tokens.length + 8

end Treewalk.Parser

namespace Treewalk

/-- The statements that can be read from a token list, and the diagnostics of
the others. -/
def Program.ofTokens (tokens : List Token) : Program × List Diagnostic :=
  match Parser.program (Parser.fuelFor tokens) (Cursor.start tokens) with
  | .ok program c => (program, c.reports.reverse)
  | .error _ c => ([], c.reports.reverse)

end Treewalk
