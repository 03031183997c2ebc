/-!
# Numbers

A number is an IEEE-754 double, held as its 64 bits so that two literals can be told apart bit by
bit. Sign, magnitude and the program's own equality are read off the bits; arithmetic and order are
those of the machine's doubles.
-/

namespace TreeWalk

structure Number where
  bits : UInt64
deriving DecidableEq, Repr, Inhabited

namespace Number

def ofFloat (x : Float) : Number :=
  ⟨x.toBits⟩

def toFloat (x : Number) : Float :=
  Float.ofBits x.bits

/-- The bit of the sign. -/
def signBit : Nat := 0x8000000000000000

/-- The bits without the sign. Among them the order of doubles is the order of naturals. -/
def magnitude (x : Number) : Nat :=
  x.bits.toNat % signBit

/-- The magnitude of the infinities; larger ones are no numbers. -/
def infinity : Nat := 0x7ff0000000000000

def isNegative (x : Number) : Bool :=
  signBit ≤ x.bits.toNat

def isNaN (x : Number) : Bool :=
  infinity < x.magnitude

def isInfinite (x : Number) : Bool :=
  x.magnitude == infinity

def isFinite (x : Number) : Bool :=
  x.magnitude < infinity

def isZero (x : Number) : Bool :=
  x.magnitude == 0

/-- The positive number with the given magnitude. -/
def ofMagnitude (m : Nat) : Number :=
  ⟨UInt64.ofNat (min m infinity)⟩

def neg (x : Number) : Number :=
  ⟨x.bits ^^^ 0x8000000000000000⟩

def abs (x : Number) : Number :=
  if x.isNegative then x.neg else x

theorem magnitude_neg (x : Number) : x.neg.magnitude = x.magnitude := by
  have hsign : signBit = 2 ^ 63 := rfl
  simp only [magnitude, neg, hsign, UInt64.toNat_xor, Nat.xor_mod_two_pow]
  exact Nat.xor_zero _

theorem isNegative_neg (x : Number) : x.neg.isNegative = !x.isNegative := by
  have hdiv : (x.bits.toNat ^^^ 2 ^ 63) / 2 ^ 63 = x.bits.toNat / 2 ^ 63 ^^^ 1 :=
    Nat.xor_div_two_pow
  have hlt := x.bits.toNat_lt
  have hbits : x.neg.bits.toNat = x.bits.toNat ^^^ 2 ^ 63 := UInt64.toNat_xor _ _
  have hcases : x.bits.toNat / 2 ^ 63 = 0 ∨ x.bits.toNat / 2 ^ 63 = 1 := by omega
  rw [isNegative, isNegative, ← decide_not, decide_eq_decide, hbits, signBit]
  rcases hcases with h | h <;> rw [h] at hdiv <;> simp only [Nat.reduceXor] at hdiv <;> omega

theorem isNaN_neg (x : Number) : x.neg.isNaN = x.isNaN := by
  rw [isNaN, isNaN, magnitude_neg]

theorem neg_neg (x : Number) : x.neg.neg = x := by
  rw [neg, neg, UInt64.xor_assoc, UInt64.xor_self, UInt64.xor_zero]

/-- Equality of numbers: a NaN equals nothing, and the two zeros are equal. -/
def equal (x y : Number) : Bool :=
  !x.isNaN && !y.isNaN && (x == y || x.isZero && y.isZero)

def add (x y : Number) : Number :=
  .ofFloat (x.toFloat + y.toFloat)

def sub (x y : Number) : Number :=
  .ofFloat (x.toFloat - y.toFloat)

def mul (x y : Number) : Number :=
  .ofFloat (x.toFloat * y.toFloat)

def div (x y : Number) : Number :=
  .ofFloat (x.toFloat / y.toFloat)

def less (x y : Number) : Bool :=
  x.toFloat < y.toFloat

def lessEq (x y : Number) : Bool :=
  x.toFloat ≤ y.toFloat

end Number

end TreeWalk
