import TreeWalk.Number.Decimal

/-!
# Texts of numbers

Source text is always positional. Printed text is positional from a thousandth up to ten million and
has an exponent elsewhere. `ofDigits` reads source text back.
-/

namespace TreeWalk

namespace Decimal

/-- The digits of the coefficient. -/
def digits (d : Decimal) : List Char :=
  Nat.toDigits 10 d.coefficient

/-- Written without an exponent, and without a point where no digit follows it, in the pieces in
which it is written. -/
def positionalPieces (d : Decimal) : List (List Char) :=
  match d.exponent with
  | .ofNat e => [d.digits, List.replicate e '0']
  | .negSucc e =>
    let places := e + 1
    let whole := d.digits.length - places
    if places < d.digits.length then
      [d.digits.take whole, ['.'], d.digits.drop whole]
    else
      [['0', '.'], List.replicate (places - d.digits.length) '0', d.digits]

/-- Written without an exponent. -/
def positional (d : Decimal) : List Char :=
  d.positionalPieces.flatten

/-- The least `k` with `d < 10 ^ k`. -/
def place (d : Decimal) : Int :=
  d.digits.length + d.exponent

/-- The first digit, and the others behind a point. -/
def mantissa (d : Decimal) : List Char :=
  if d.digits.length = 1 then d.digits else d.digits.take 1 ++ '.' :: d.digits.drop 1

/-- What leads from the mantissa to the exponent: at least one digit stands behind the point. -/
def exponentMark (d : Decimal) : String :=
  if d.digits.length = 1 then ".0E" else "E"

/-- Whether the point stands where no exponent is printed: thousandths to millions. -/
def hasPlainPlace (d : Decimal) : Bool :=
  -2 ≤ d.place && d.place ≤ 7

end Decimal

namespace Number

/-- The text with a minus sign for a negative number. -/
def signed (x : Number) (text : String) : String :=
  if x.isNegative then "-" ++ text else text

/-- The number as source text has it. -/
def sourceText (x : Number) : String :=
  if x.isNaN then "NaN"
  else if x.isInfinite then x.signed "inf"
  else x.signed (String.ofList x.decimal.positional)

/-- The number as a running program prints it, in the pieces in which it is written. A sign is a
piece of its own only where no exponent is printed. -/
def pieces (x : Number) : List String :=
  if x.isNaN then ["NaN"]
  else if x.isInfinite then [x.signed "Infinity"]
  else if x.decimal.hasPlainPlace then
    x.signed "" :: x.decimal.positionalPieces.map String.ofList
  else
    [x.signed (String.ofList x.decimal.mantissa), x.decimal.exponentMark,
      toString (x.decimal.place - 1)]

/-- The value of a run of digits. -/
def digitsValue (ds : List Char) : Nat :=
  ds.foldl (fun n c => 10 * n + (c.toNat - '0'.toNat)) 0

/-- The number written `whole.fraction`; an empty fraction stands for none. -/
def ofDigits (whole fraction : List Char) : Number :=
  ofRatio (digitsValue (whole ++ fraction)) (Nat.pow 10 fraction.length)

end Number

end TreeWalk
