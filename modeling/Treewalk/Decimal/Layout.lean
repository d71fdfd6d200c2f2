import Treewalk.Decimal.Shortest

/-!
# Ways to write a decimal

Digits are written in positional notation (`positional`) or with an exponent
(`scientific`). `plain` writes any double positionally with its shortest digits,
and `integral?` an integral double with all of its digits.
-/

namespace Treewalk.Decimal

def zeros (n : Nat) : String :=
  "".pushn '0' n

/-- The exponent of the leading digit: the decimal is `d.ddd · 10 ^ lead`. -/
def Digits.lead (d : Digits) : Int :=
  (toString d.coefficient).length + d.scale - 1

/-- All digits around the point, with no exponent; an integer has no point. -/
def Digits.positional (d : Digits) : String :=
  let text := toString d.coefficient
  if 0 ≤ d.scale then
    text ++ zeros d.scale.toNat
  else
    let point := text.length + d.scale
    if 0 < point then
      String.ofList (text.toList.take point.toNat) ++ "." ++
        String.ofList (text.toList.drop point.toNat)
    else
      "0." ++ zeros (-point).toNat ++ text

/-- One digit, a point if more follow, and a signed exponent. -/
def Digits.scientific (d : Digits) : String :=
  let lead := d.lead
  let mantissa := match (toString d.coefficient).toList with
    | [] => ""
    | [c] => String.ofList [c]
    | c :: rest => String.ofList (c :: '.' :: rest)
  mantissa ++ "e" ++ (if 0 ≤ lead then "+" else "-") ++ toString lead.natAbs

def sign (negative : Bool) : String :=
  if negative then "-" else ""

/-- The shortest digits of a double in positional notation. Of two shortest
decimals at the same distance the larger is written. -/
def plain (x : Float) : String :=
  match Parts.ofFloat x with
  | .nan => "NaN"
  | .infinite negative => sign negative ++ "inf"
  | .finite negative size => sign negative ++ (size.shortest .up).positional

/-- Every digit of an integral double, sign of zero included. -/
def integral? (x : Float) : Option String :=
  match Parts.ofFloat x with
  | .finite negative size => size.integer?.map fun n => sign negative ++ toString n
  | _ => none

end Treewalk.Decimal
