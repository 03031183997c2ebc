import TreeWalk.Number.Basic

/-!
# Decimals and numbers

Reading takes a ratio of naturals to the nearest number. Writing looks for the shortest decimal that
reads back. Both are exact arithmetic on naturals: a finite number of magnitude `m` is
`significand * 2 ^ scale / 2 ^ depth`, where `m = scale * exponentBit + significand`.
-/

namespace TreeWalk

/-- The number `coefficient * 10 ^ exponent`. -/
structure Decimal where
  coefficient : Nat
  exponent : Int
deriving DecidableEq, Repr, Inhabited

/-- The natural nearest to `n / d`; a half goes to the even neighbour. -/
def roundDiv (n d : Nat) : Nat :=
  let q := n / d
  let r := n % d
  if 2 * r < d then q
  else if d < 2 * r then q + 1
  else q + q % 2

namespace Number

/-- The smallest step between numbers is `1 / 2 ^ depth`. -/
def depth : Nat := 1074

/-- The lowest bit of the exponent. -/
def exponentBit : Nat := 0x10000000000000

/-- The number nearest to `n / d`; a half goes to the even neighbour. -/
def ofRatio (n d : Nat) : Number :=
  let scaled := n <<< depth
  let scale := (scaled / d).log2 - 52
  .ofMagnitude (scale * exponentBit + roundDiv scaled (d <<< scale))

/-- The scale of a finite number. -/
def scale (x : Number) : Nat :=
  x.magnitude / exponentBit - 1

/-- The significand of a finite number. -/
def significand (x : Number) : Nat :=
  x.magnitude - x.scale * exponentBit

end Number

namespace Decimal

/-- The decimal as a ratio of naturals. -/
def ratio (d : Decimal) : Nat × Nat :=
  match d.exponent with
  | .ofNat e => (d.coefficient * Nat.pow 10 e, 1)
  | .negSucc e => (d.coefficient, Nat.pow 10 (e + 1))

/-- The number nearest to `d`. -/
def toNumber (d : Decimal) : Number :=
  Number.ofRatio d.ratio.1 d.ratio.2

end Decimal

namespace Number

/-- The finite magnitude of `x` as a ratio. -/
def ratio (x : Number) : Nat × Nat :=
  (x.significand <<< x.scale, 1 <<< depth)

/-- The least `k` with `|x| < 10 ^ k`, for a finite `x` other than zero. No such `x` is below `10 ^
-350`. -/
def pointPlace (x : Number) : Int :=
  let (n, d) := x.ratio
  (Nat.toDigits 10 (n * Nat.pow 10 350 / d)).length - 350

/-- Whether the decimal reads back as `|x|`. -/
def fits (x : Number) (d : Decimal) : Bool :=
  d.toNumber == x.abs

/-- The decimal of the two that reads back as `|x|`; if both do, the nearer one. -/
def fitting? (x : Number) (below above : Decimal) (isBelowNearer : Bool) : Option Decimal :=
  if x.fits below && (isBelowNearer || !x.fits above) then some below
  else if x.fits above then some above
  else none

/-- The decimal with `digits` digits in front of `place` that reads back as `|x|`, if there is one;
of two the nearer, of two equally near the larger. Rounding up to a power of ten leaves a single
digit. -/
def decimalOf? (x : Number) (place : Int) (digits : Nat) : Option Decimal :=
  let unit := place - digits
  let (n, d) := match unit with
    | .ofNat e => (x.ratio.1, x.ratio.2 * Nat.pow 10 e)
    | .negSucc e => (x.ratio.1 * Nat.pow 10 (e + 1), x.ratio.2)
  let above : Decimal := if n / d + 1 = Nat.pow 10 digits then ⟨1, place⟩ else ⟨n / d + 1, unit⟩
  x.fitting? ⟨n / d, unit⟩ above (2 * (n % d) < d)

/-- All the digits of `|x|`. -/
def exactDecimal (x : Number) : Decimal :=
  ⟨x.significand <<< x.scale * Nat.pow 5 depth, -depth⟩

/-- The shortest decimal that reads back as the finite `|x|`. Seventeen digits are always enough. -/
def decimal (x : Number) : Decimal :=
  if x.isZero then
    ⟨0, 0⟩
  else
    ((List.range' 1 17).findSome? (x.decimalOf? x.pointPlace)).getD x.exactDecimal

end Number

end TreeWalk
