import Treewalk.Json
import Treewalk.Token

/-!
# Tokens as JSON

A token is an object of its kind, spelling and line. A literal's kind is an
object of its own that holds the value.
-/

namespace Treewalk

/-- The shortest digits of a number; of two at the same distance the even one.
Exponents from -5 to 15 are written out, integers among them with one place;
what is not finite is null. -/
def Json.ofFloat (x : Float) : Json :=
  match Decimal.Parts.ofFloat x with
  | .finite negative size =>
    let digits := size.shortest .even
    let text :=
      if -5 ≤ digits.lead ∧ digits.lead ≤ 15 then
        digits.positional ++ (if 0 ≤ digits.scale then ".0" else "")
      else digits.scientific
    .number (Decimal.sign negative ++ text)
  | _ => .null

def Kind.toJson : Kind → Json
  | .string value => .object [("STRING", .string value)]
  | .number value => .object [("NUMBER", .ofFloat value)]
  | kind => .string kind.name

def Token.toJson (t : Token) : Json :=
  .object
    [("token_type", t.kind.toJson), ("lexeme", .string t.lexeme),
      ("line", .number (toString t.line))]

end Treewalk
