import Treewalk.Token

/-!
# Pieces of a source text

A source text is cut, from left to right, into pieces: single blanks, comments,
tokens, single characters that start no token, and a string that is never
closed. `Piece.first` cuts off the first piece, which is never empty, and
`Piece.split` repeats that until nothing is left, so the pieces put together
give back the text.
-/

namespace Treewalk

/-- What a piece of source text is. -/
inductive PieceKind where
  | blank
  | comment
  | token (kind : Kind)
  | unexpected
  | unterminated
  deriving DecidableEq, Repr

structure Piece where
  kind : PieceKind
  text : List Char
  deriving DecidableEq, Repr

namespace Piece

def startsWord (c : Char) : Bool :=
  c.isAlpha || c == '_'

def inWord (c : Char) : Bool :=
  c.isAlphanum || c == '_'

def digit (c : Char) : Nat :=
  c.toNat - '0'.toNat

/-- The number that a string of decimal digits denotes. -/
def natural (digits : List Char) : Nat :=
  digits.foldl (fun n c => 10 * n + digit c) 0

/-- The double nearest to the numeral `whole.fraction`. -/
def numeral (whole fraction : List Char) : Float :=
  Float.ofScientific (natural (whole ++ fraction)) true fraction.length

def symbol (s : Symbol) (text rest : List Char) : Piece × List Char :=
  (⟨.token (.symbol s), text⟩, rest)

/-- An operator that is longer by one character if `=` follows. -/
def orEqual (c : Char) (short long : Symbol) : List Char → Piece × List Char
  | '=' :: rest => symbol long [c, '='] rest
  | rest => symbol short [c] rest

/-- A comment runs up to the end of its line; a slash alone is an operator. -/
def slash (c : Char) : List Char → Piece × List Char
  | '/' :: rest =>
    (⟨.comment, c :: '/' :: rest.takeWhile (· != '\n')⟩, rest.dropWhile (· != '\n'))
  | rest => symbol .slash [c] rest

/-- A string runs up to the next quote, across lines. -/
def string (c : Char) (rest : List Char) : Piece × List Char :=
  let body := rest.takeWhile (· != '"')
  match rest.dropWhile (· != '"') with
  | [] => (⟨.unterminated, c :: rest⟩, [])
  | quote :: after => (⟨.token (.string (String.ofList body)), c :: (body ++ [quote])⟩, after)

/-- Digits, then a point if a digit follows it, and more digits. -/
def number (c : Char) (rest : List Char) : Piece × List Char :=
  let whole := c :: rest.takeWhile Char.isDigit
  match rest.dropWhile Char.isDigit with
  | '.' :: d :: after =>
    if d.isDigit then
      let fraction := d :: after.takeWhile Char.isDigit
      (⟨.token (.number (numeral whole fraction)), whole ++ '.' :: fraction⟩,
        after.dropWhile Char.isDigit)
    else (⟨.token (.number (numeral whole [])), whole⟩, '.' :: d :: after)
  | after => (⟨.token (.number (numeral whole [])), whole⟩, after)

/-- A name, or a reserved word. -/
def word (c : Char) (rest : List Char) : Piece × List Char :=
  let text := c :: rest.takeWhile inWord
  let kind := match Symbol.ofWord? (String.ofList text) with
    | some s => Kind.symbol s
    | none => Kind.identifier
  (⟨.token kind, text⟩, rest.dropWhile inWord)

/-- The first piece of a text that starts with `c`, and the text after it. -/
def first (c : Char) (rest : List Char) : Piece × List Char :=
  match c with
  | '(' => symbol .leftParen [c] rest
  | ')' => symbol .rightParen [c] rest
  | '\x7b' => symbol .leftBrace [c] rest
  | '\x7d' => symbol .rightBrace [c] rest
  | ',' => symbol .comma [c] rest
  | '.' => symbol .dot [c] rest
  | '-' => symbol .minus [c] rest
  | '+' => symbol .plus [c] rest
  | ';' => symbol .semicolon [c] rest
  | '*' => symbol .star [c] rest
  | '!' => orEqual c .bang .bangEqual rest
  | '=' => orEqual c .equal .equalEqual rest
  | '<' => orEqual c .less .lessEqual rest
  | '>' => orEqual c .greater .greaterEqual rest
  | ' ' | '\r' | '\t' | '\n' => (⟨.blank, [c]⟩, rest)
  | '/' => slash c rest
  | '"' => string c rest
  | _ =>
    if c.isDigit then number c rest
    else if startsWord c then word c rest
    else (⟨.unexpected, [c]⟩, rest)

/-- Cuts off at most `fuel` pieces; `found` holds the earlier ones, the latest
first. -/
def splitFrom : Nat → List Char → List Piece → List Piece
  | 0, _, found => found.reverse
  | _ + 1, [], found => found.reverse
  | fuel + 1, c :: rest, found =>
    let (piece, after) := first c rest
    splitFrom fuel after (piece :: found)

/-- All pieces of a text. There are no more of them than characters. -/
def split (text : List Char) : List Piece :=
  splitFrom text.length text []

/-- How many lines a piece ends. -/
def newlines (p : Piece) : Nat :=
  p.text.count '\n'

end Piece

end Treewalk
