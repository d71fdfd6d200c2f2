import Treewalk.Character.Extender
import Treewalk.Character.Unseen

/-!
# Quoted names

A name between quotes, written so that each of its characters can be told: the
quote and the backslash follow a backslash, and a character that does not show by
itself is given by a letter or by its number.
-/

namespace Treewalk

namespace Quoted

/-- A character by its number, in hexadecimal. -/
def numbered (c : Char) : String :=
  "\\u\x7b" ++ String.ofList (Nat.toDigits 16 c.toNat) ++ "\x7d"

def char (c : Char) : String :=
  match c with
  | '"' => "\\\""
  | '\\' => "\\\\"
  | '\n' => "\\n"
  | '\r' => "\\r"
  | '\t' => "\\t"
  | '\x00' => "\\0"
  | _ => if isUnseen c || isExtender c then numbered c else c.toString

end Quoted

/-- A name between quotes. -/
def quoted (name : String) : String :=
  "\"" ++ String.join (name.toList.map Quoted.char) ++ "\""

end Treewalk
