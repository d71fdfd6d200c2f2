/-!
# The shortest decimal of a double

A finite double is an integer times a power of two. Among the decimals that
round to it, the ones with the fewest digits are found by trying one digit, two
digits and so on: on the grid of each length only the two neighbours of the
value can be hits that matter, since a hit further away implies a hit at a
neighbour. Everything is exact arithmetic on natural numbers.

* `Parts.ofFloat`: sign, integer and power of two, read off the bits;
* `shortest`: the first grid with a hit, and on it the nearer of two hits. How a
  hit on both sides at the same distance is decided is a parameter, `Tie`;
* `integer?`: the value of a double that is an integer.
-/

namespace Treewalk.Decimal

/-- The magnitude `mantissa · 2 ^ exponent`. -/
structure Magnitude where
  mantissa : Nat
  exponent : Int
  /-- The next smaller double is half a step away: the mantissa is the least of
  its binade. -/
  tight : Bool

/-- What the bits of a double say. -/
inductive Parts where
  | nan
  | infinite (negative : Bool)
  | finite (negative : Bool) (size : Magnitude)

def Parts.ofBits (bits : Nat) : Parts :=
  let negative := decide (Nat.pow 2 63 ≤ bits)
  let biased : Nat := bits / Nat.pow 2 52 % 2048
  let fraction : Nat := bits % Nat.pow 2 52
  if biased = 2047 then
    if fraction = 0 then .infinite negative else .nan
  else if biased = 0 then
    .finite negative ⟨fraction, -1074, false⟩
  else
    .finite negative
      ⟨fraction + Nat.pow 2 52, (biased : Int) - 1075, decide (fraction = 0 ∧ 1 < biased)⟩

def Parts.ofFloat (x : Float) : Parts :=
  .ofBits x.toBits.toNat

/-- The decimal `coefficient · 10 ^ scale`. -/
structure Digits where
  coefficient : Nat
  scale : Int

/-- Drops trailing zeros of the coefficient, at most `fuel` of them. -/
def Digits.trim : Nat → Digits → Digits
  | 0, d => d
  | fuel + 1, d =>
    if d.coefficient ≠ 0 ∧ d.coefficient % 10 = 0 then
      trim fuel ⟨d.coefficient / 10, d.scale + 1⟩
    else d

/-- Which of two decimals at the same distance is taken. -/
inductive Tie where
  | up
  | even

/-- The reals that round to a magnitude, over a common denominator: `value` lies
between `low` and `high`, which belong to the range when `closed`. -/
structure Range where
  low : Nat
  value : Nat
  high : Nat
  denominator : Nat
  closed : Bool

def Magnitude.range (x : Magnitude) : Range :=
  let below := if x.tight then 1 else 2
  let grow := Nat.pow 2 x.exponent.toNat
  { low := (4 * x.mantissa - below) * grow
    value := 4 * x.mantissa * grow
    high := (4 * x.mantissa + 2) * grow
    denominator := 4 * Nat.pow 2 (-x.exponent).toNat
    closed := x.mantissa % 2 == 0 }

/-- The multiple of `10 ^ scale` next to the value that lies in the range, if
there is one. -/
def Range.onGrid? (r : Range) (tie : Tie) (scale : Int) : Option Digits :=
  let unit := r.denominator * Nat.pow 10 scale.toNat
  let shift := Nat.pow 10 (-scale).toNat
  let inside (c : Nat) : Bool :=
    if r.closed then r.low * shift ≤ c * unit && c * unit ≤ r.high * shift
    else r.low * shift < c * unit && c * unit < r.high * shift
  let floor := r.value * shift / unit
  match inside floor, inside (floor + 1) with
  | false, false => none
  | true, false => some ⟨floor, scale⟩
  | false, true => some ⟨floor + 1, scale⟩
  | true, true =>
    let twice := 2 * r.value * shift
    let middle := (2 * floor + 1) * unit
    if twice < middle then some ⟨floor, scale⟩
    else if middle < twice then some ⟨floor + 1, scale⟩
    else match tie with
      | .up => some ⟨floor + 1, scale⟩
      | .even => some ⟨if floor % 2 = 0 then floor else floor + 1, scale⟩

/-- The `k` with `10 ^ (k - 1) ≤ value < 10 ^ k`, looked for around the estimate
that the binary length gives. -/
def Range.places (r : Range) : Int :=
  let below (k : Int) : Bool :=
    decide (r.value * Nat.pow 10 (-k).toNat < r.denominator * Nat.pow 10 k.toNat)
  let binary := (r.value.log2 : Int) - (r.denominator.log2 : Int)
  let guess := binary * 30103 / 100000
  ([guess - 1, guess, guess + 1, guess + 2].find? below).getD (guess + 3)

/-- The decimal with the fewest digits that rounds to `x`, and of those the
nearest. Seventeen digits always suffice for a double. -/
def Magnitude.shortest (x : Magnitude) (tie : Tie) : Digits :=
  if x.mantissa = 0 then ⟨0, 0⟩
  else
    let r := x.range
    let places := r.places
    let hit := (List.range 17).findSome? fun (n : Nat) => r.onGrid? tie (places - (n + 1))
    (hit.getD ⟨r.value / r.denominator, 0⟩).trim 400

/-- The magnitude as a natural number, when it is one. -/
def Magnitude.integer? (x : Magnitude) : Option Nat :=
  let divisor := Nat.pow 2 (-x.exponent).toNat
  if x.mantissa % divisor = 0 then
    some (x.mantissa / divisor * Nat.pow 2 x.exponent.toNat)
  else none

end Treewalk.Decimal
