import Treewalk.Diagnostic

/-!
# Reading tokens

A production reads tokens from a cursor. It may report a diagnostic and go on,
or fail with one; whoever catches the failure records it and goes on at the next
statement boundary (`Cursor.synchronize`). The cursor holds the tokens before
the first end-of-file token, so productions see the end as an empty rest.
-/

namespace Treewalk

structure Cursor where
  /-- The tokens not yet read, none of them an end of file. -/
  rest : List Token
  /-- The end-of-file token after them. -/
  last : Token
  /-- What was reported so far, the latest first. -/
  reports : List Diagnostic

/-- Why a production stops early. -/
inductive Halt where
  | fault (d : Diagnostic)
  /-- The fuel is used up. -/
  | exhausted

abbrev Parser := EStateM Halt Cursor

namespace Cursor

/-- The cursor at the start of a token list. The list is read up to its first
end-of-file token; one is supplied, on the last token's line, if there is none. -/
def start (tokens : List Token) : Cursor where
  rest := tokens.takeWhile fun t => !t.isEnd
  last := match tokens.find? Token.isEnd with
    | some t => t
    | none => .endOfFile ((tokens.getLast?.map Token.line).getD 1)
  reports := []

def peek (c : Cursor) : Token :=
  c.rest.headD c.last

def record (c : Cursor) (d : Diagnostic) : Cursor :=
  { c with reports := d :: c.reports }

/-- The words a statement can begin with. -/
def opensStatement (t : Token) : Bool :=
  match t.kind with
  | .symbol .classWord | .symbol .funWord | .symbol .varWord | .symbol .forWord
  | .symbol .ifWord | .symbol .whileWord | .symbol .printWord | .symbol .returnWord => true
  | _ => false

/-- The tokens from the next statement boundary on, `previous` being the token
in front of them: a boundary follows a semicolon or precedes a statement word. -/
def boundary (previous : Token) : List Token → List Token
  | [] => []
  | t :: rest =>
    if previous.kind = .symbol .semicolon || opensStatement t then t :: rest
    else boundary t rest

/-- Skips the token in front and everything up to the next boundary. -/
def synchronize (c : Cursor) : Cursor :=
  match c.rest with
  | [] => c
  | t :: rest => { c with rest := boundary t rest }

end Cursor

namespace Parser

def exhausted {α : Type} : Parser α := fun c =>
  .error .exhausted c

/-- Fails at the token in front. -/
def fail {α : Type} (fault : SyntaxFault) : Parser α := fun c =>
  .error (.fault (.syntactic c.peek fault)) c

/-- Reports a fault without leaving the production. -/
def report (t : Token) (fault : SyntaxFault) : Parser Unit := fun c =>
  .ok () (c.record (.syntactic t fault))

/-- A list of parameters or arguments has no room for another one. The check
looks at no more than `maxArity` items. -/
def isFull {α : Type} (found : List α) : Bool :=
  !(found.drop (maxArity - 1)).isEmpty

theorem isFull_iff {α : Type} (found : List α) : isFull found ↔ maxArity ≤ found.length := by
  simp only [isFull, maxArity, Bool.not_eq_true', List.isEmpty_eq_false_iff, ne_eq,
    List.drop_eq_nil_iff]
  omega

def peek : Parser Token := fun c =>
  .ok c.peek c

def atEnd : Parser Bool := fun c =>
  .ok c.rest.isEmpty c

/-- The token in front is one of `symbols`. -/
def atAny (symbols : List Symbol) : Parser Bool := fun c =>
  .ok (symbols.any fun s => c.peek.kind = .symbol s) c

/-- Reads the token in front if its kind satisfies `p`. -/
def acceptIf (p : Kind → Bool) : Parser (Option Token) := fun c =>
  match c.rest with
  | t :: rest => if p t.kind then .ok (some t) { c with rest } else .ok none c
  | [] => .ok none c

def acceptAny (symbols : List Symbol) : Parser (Option Token) :=
  acceptIf fun k => symbols.any fun s => k = .symbol s

def accept (s : Symbol) : Parser (Option Token) :=
  acceptAny [s]

/-- Reads the token in front, which has to satisfy `p`. -/
def expectIf (p : Kind → Bool) (what : String) : Parser Token := do
  match ← acceptIf p with
  | some t => pure t
  | none => fail (.expected what)

def expect (s : Symbol) (what : String) : Parser Token :=
  expectIf (fun k => k = .symbol s) what

def expectName (what : String) : Parser Token :=
  expectIf (fun k => k = .identifier) what

end Parser

end Treewalk
