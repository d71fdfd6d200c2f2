import Treewalk.Diagnostic
import Treewalk.Piece

/-!
# From source text to tokens

Each piece of the source gives a token, a diagnostic or nothing, and the stream
ends with one end-of-file token. The line of an item is the line on which its
piece ends. Faults do not stop the scan: `scan` returns all tokens and all
diagnostics.
-/

namespace Treewalk

/-- What the scanner finds: a token, or a fault in the text. -/
inductive Item where
  | token (t : Token)
  | fault (d : Diagnostic)
  deriving DecidableEq, Repr

/-- The item that a piece ending on `line` stands for. -/
def Piece.item? (p : Piece) (line : Nat) : Option Item :=
  match p.kind with
  | .blank | .comment => none
  | .token kind => some (.token ⟨kind, String.ofList p.text, line⟩)
  | .unexpected => some (.fault (.lexical line .unexpectedCharacter))
  | .unterminated => some (.fault (.lexical line .unterminatedString))

namespace Item

/-- The items of pieces that start on `line`; `found` holds the earlier ones, the
latest first. -/
def ofPieces (line : Nat) (found : List Item) : List Piece → List Item
  | [] => (Item.token (.endOfFile line) :: found).reverse
  | p :: rest =>
    let line := line + p.newlines
    match p.item? line with
    | none => ofPieces line found rest
    | some item => ofPieces line (item :: found) rest

/-- Everything the scanner finds in a text, in order. -/
def ofText (source : String) : List Item :=
  ofPieces 1 [] (Piece.split source.toList)

def token? : Item → Option Token
  | token t => some t
  | fault _ => none

def fault? : Item → Option Diagnostic
  | token _ => none
  | fault d => some d

end Item

/-- The tokens of a text and its lexical diagnostics. -/
def scan (source : String) : List Token × List Diagnostic :=
  let items := Item.ofText source
  (items.filterMap Item.token?, items.filterMap Item.fault?)

end Treewalk
