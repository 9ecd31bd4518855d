/-!
Doubles as exact numbers. A finite double is a sign, a natural mantissa and a binary exponent;
every function here computes on those parts in exact integer arithmetic, so none of them
depends on how the host rounds.
-/
namespace Formula

/-- Powers of two, the scales of doubles. -/
def pow2 (n : Nat) : Nat := Nat.pow 2 n

/-- The number `± mantissa · 2 ^ exponent`. -/
structure Binary where
  negative : Bool
  mantissa : Nat
  exponent : Int
  deriving DecidableEq, Repr, Inhabited

namespace Double

/-- The parts of a finite double; what they are for infinities and NaN has no meaning. -/
def parts (x : Float) : Binary :=
  let bits := x.toBits.toNat
  let fraction : Nat := bits % pow2 52
  let biased : Nat := bits / pow2 52 % pow2 11
  if biased = 0 then ⟨bits / pow2 63 = 1, fraction, -1074⟩
  else ⟨bits / pow2 63 = 1, pow2 52 + fraction, (biased : Int) - 1075⟩

/-- The double with the given parts, for a number that has at most 53 significant bits and
no digit below `2 ^ -1074`. -/
def ofParts (b : Binary) : Float :=
  let sign := if b.negative then pow2 63 else 0
  let length := b.mantissa.log2 + 1
  let shift := min (53 - length : Int) (b.exponent + 1074)
  let mantissa :=
    if shift < 0 then b.mantissa / pow2 (-shift).toNat else b.mantissa * pow2 shift.toNat
  let exponent := b.exponent - shift
  let bits :=
    if b.mantissa = 0 then 0
    else if mantissa < pow2 52 then mantissa
    else (exponent + 1075).toNat * pow2 52 + (mantissa - pow2 52)
  Float.ofBits (UInt64.ofNat (sign + bits))

def nan : Float := Float.ofBits 0x7FF8000000000000

def infinity : Float := Float.ofBits 0x7FF0000000000000

def negativeInfinity : Float := Float.ofBits 0xFFF0000000000000

/-- The double nearest to an integer, a tie to the even neighbour. -/
def ofInt64 (n : Int64) : Float :=
  if n < 0 then -((-n).toUInt64.toFloat) else n.toUInt64.toFloat

/-- A finite double without a fractional part. -/
def integral (x : Float) : Bool :=
  let b := parts x
  x.isFinite && (0 ≤ b.exponent || b.mantissa % pow2 (-b.exponent).toNat == 0)

/-- The magnitude of a finite double with the fraction cut off. -/
def wholePart (x : Float) : Nat :=
  let b := parts x
  if 0 ≤ b.exponent then b.mantissa * pow2 b.exponent.toNat
  else b.mantissa / pow2 (-b.exponent).toNat

/-- The integer towards zero from a finite double, held within the 64 bit range. -/
def truncate (x : Float) : Int64 :=
  let n := wholePart x
  if (parts x).negative then Int64.ofInt (-(min n (pow2 63) : Nat))
  else Int64.ofInt (min n (pow2 63 - 1) : Nat)

/-- The exact remainder of a division with the quotient cut towards zero; its sign is the
dividend's. -/
def remainder (x y : Float) : Float :=
  if x.isNaN || y.isNaN || x.isInf || y == 0 then nan
  else if y.isInf then x
  else
    let a := parts x
    let b := parts y
    let low := min a.exponent b.exponent
    let dividend := a.mantissa * pow2 (a.exponent - low).toNat
    let divisor := b.mantissa * pow2 (b.exponent - low).toNat
    ofParts ⟨a.negative, dividend % divisor, low⟩

/-- The exact remainder of a division with the quotient rounded to the nearest integer, a tie
to the even one; a remainder of zero has the dividend's sign. -/
def nearestRemainder (x y : Float) : Float :=
  if x.isNaN || y.isNaN || x.isInf || y == 0 then nan
  else if y.isInf then x
  else
    let a := parts x
    let b := parts y
    let low := min a.exponent b.exponent
    let dividend := a.mantissa * pow2 (a.exponent - low).toNat
    let divisor := b.mantissa * pow2 (b.exponent - low).toNat
    let rest := dividend % divisor
    if divisor < 2 * rest || (divisor = 2 * rest && dividend / divisor % 2 = 1) then
      ofParts ⟨!a.negative, divisor - rest, low⟩
    else ofParts ⟨a.negative, rest, low⟩

end Double

end Formula
