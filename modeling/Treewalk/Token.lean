import Treewalk.Decimal.Layout

/-!
# Tokens

A token has a kind, a spelling and the line it ends on. Punctuators, operators
and reserved words are `Symbol`s: each of them has one spelling (`spelling`),
and a word is reserved exactly when it is the spelling of a symbol in
`Symbol.words`. Names, strings and numerals have spellings of their own.
-/

namespace Treewalk

/-- A token that is always spelled the same way. -/
inductive Symbol where
  | leftParen | rightParen | leftBrace | rightBrace | comma | dot | minus | plus
  | semicolon | slash | star | bang | bangEqual | equal | equalEqual | greater
  | greaterEqual | less | lessEqual
  | andWord | classWord | elseWord | falseWord | funWord | forWord | ifWord | nilWord
  | orWord | printWord | returnWord | superWord | thisWord | trueWord | varWord | whileWord
  deriving DecidableEq, Repr

namespace Symbol

def spelling : Symbol → String
  | leftParen => "(" | rightParen => ")" | leftBrace => "\x7b" | rightBrace => "\x7d"
  | comma => "," | dot => "." | minus => "-" | plus => "+" | semicolon => ";"
  | slash => "/" | star => "*" | bang => "!" | bangEqual => "!=" | equal => "="
  | equalEqual => "==" | greater => ">" | greaterEqual => ">=" | less => "<"
  | lessEqual => "<="
  | andWord => "and" | classWord => "class" | elseWord => "else" | falseWord => "false"
  | funWord => "fun" | forWord => "for" | ifWord => "if" | nilWord => "nil"
  | orWord => "or" | printWord => "print" | returnWord => "return" | superWord => "super"
  | thisWord => "this" | trueWord => "true" | varWord => "var" | whileWord => "while"

/-- The name under which a symbol is listed. -/
def name : Symbol → String
  | leftParen => "LEFT_PAREN" | rightParen => "RIGHT_PAREN" | leftBrace => "LEFT_BRACE"
  | rightBrace => "RIGHT_BRACE" | comma => "COMMA" | dot => "DOT" | minus => "MINUS"
  | plus => "PLUS" | semicolon => "SEMICOLON" | slash => "SLASH" | star => "STAR"
  | bang => "BANG" | bangEqual => "BANG_EQUAL" | equal => "EQUAL"
  | equalEqual => "EQUAL_EQUAL" | greater => "GREATER" | greaterEqual => "GREATER_EQUAL"
  | less => "LESS" | lessEqual => "LESS_EQUAL"
  | andWord => "AND" | classWord => "CLASS" | elseWord => "ELSE" | falseWord => "FALSE"
  | funWord => "FUN" | forWord => "FOR" | ifWord => "IF" | nilWord => "NIL"
  | orWord => "OR" | printWord => "PRINT" | returnWord => "RETURN" | superWord => "SUPER"
  | thisWord => "THIS" | trueWord => "TRUE" | varWord => "VAR" | whileWord => "WHILE"

def punctuators : List Symbol :=
  [leftParen, rightParen, leftBrace, rightBrace, comma, dot, minus, plus, semicolon, slash,
    star, bang, bangEqual, equal, equalEqual, greater, greaterEqual, less, lessEqual]

/-- The reserved words. -/
def words : List Symbol :=
  [andWord, classWord, elseWord, falseWord, funWord, forWord, ifWord, nilWord, orWord,
    printWord, returnWord, superWord, thisWord, trueWord, varWord, whileWord]

def ofWord? (word : String) : Option Symbol :=
  words.find? fun s => s.spelling == word

end Symbol

/-- What a token is, with the value of a literal. -/
inductive Kind where
  | symbol (s : Symbol)
  | identifier
  | string (value : String)
  | number (value : Float)
  | endOfFile
  deriving DecidableEq, Repr

namespace Kind

def name : Kind → String
  | symbol s => s.name
  | identifier => "IDENTIFIER"
  | string _ => "STRING"
  | number _ => "NUMBER"
  | endOfFile => "EOF"

/-- The kind listed under `name`; the value of a literal is given apart. -/
def ofName? (name : String) (text : String) (value : Float) : Option Kind :=
  match (Symbol.punctuators ++ Symbol.words).find? fun s => s.name == name with
  | some s => some (symbol s)
  | none =>
    if name == "IDENTIFIER" then some identifier
    else if name == "STRING" then some (string text)
    else if name == "NUMBER" then some (number value)
    else if name == "EOF" then some endOfFile
    else none

end Kind

structure Token where
  kind : Kind
  lexeme : String
  line : Nat
  deriving DecidableEq, Repr

namespace Token

/-- A token of the evaluator's own, standing for a name that is not written. -/
def named (name : String) (line : Nat) : Token :=
  ⟨.identifier, name, line⟩

def endOfFile (line : Nat) : Token :=
  ⟨.endOfFile, "", line⟩

def isEnd (t : Token) : Bool :=
  match t.kind with
  | .endOfFile => true
  | _ => false

/-- The numeral column of a token listing: an integer below `2 ^ 63` with one
place and no sign of zero, anything else with its shortest digits. -/
def numeral (x : Float) : String :=
  match Decimal.Parts.ofFloat x with
  | .finite negative size =>
    match size.integer? with
    | some n =>
      if n < Nat.pow 2 63 then Decimal.sign (negative && n != 0) ++ toString n ++ ".0"
      else Decimal.plain x
    | none => Decimal.plain x
  | _ => Decimal.plain x

/-- The last column of a token listing. -/
def payload (t : Token) : String :=
  match t.kind with
  | .string value => value
  | .number value => numeral value
  | _ => "null"

/-- One line of a token listing. -/
def text (t : Token) : String :=
  t.kind.name ++ " " ++ t.lexeme ++ " " ++ t.payload

end Token

end Treewalk
