import Formula.Native.Number

/-!
The functions of the C library that a source text may name. Those that only move or compare
doubles are computed here to the last bit; the others are the host's.
-/
namespace Formula
namespace Native

namespace Signed

/-- The positive difference. -/
def positiveDifference : Signed → Signed → Signed :=
  lift2 fun x y => if x ≤ y then 0 else x - y

/-- The larger number, the right one of equals. A NaN gives way to a number. -/
def larger (a b : Signed) : Signed :=
  if b.isNaN then a else if a.isNaN then b else if b.value < a.value then a else b

/-- The smaller number, the right one of equals. A NaN gives way to a number. -/
def smaller (a b : Signed) : Signed :=
  if b.isNaN then a else if a.isNaN then b else if a.value < b.value then a else b

/-- The magnitude of the first number with the sign of the second. -/
def withSign (a b : Signed) : Signed := if b.negative then a.abs.neg else a.abs

def towardsZero : Signed → Signed := lift fun x => if x < 0 then x.ceil else x.floor

/-- The nearest whole number, a tie to the even one. At `2 ^ 52` doubles have no fractions
left, so adding it rounds. -/
def toNearestEven (a : Signed) : Signed :=
  let whole : Float := 4503599627370496
  lift (fun x => if x < whole then x + whole - whole else x) a.abs |>.withSign a

/-- The binary exponent of a number. -/
def binaryExponent : Signed → Signed :=
  lift fun x =>
    if x.isNaN then x
    else if x.isInf then Double.infinity
    else if x == 0 then Double.negativeInfinity
    else
      let b := Double.parts x
      Float.ofInt (b.mantissa.log2 + b.exponent)

/-- The next double after the first number in the direction of the second. -/
def nextAfter (a b : Signed) : Signed :=
  lift2 (fun y x =>
    if x.isNaN || y.isNaN then Double.nan
    else if x == y then y
    else if x == 0 then Float.ofBits (if y < 0 then 0x8000000000000001 else 1)
    else if (x < y) = (0 < x) then Float.ofBits (x.toBits + 1)
    else Float.ofBits (x.toBits - 1)) b a

/-- The root of the sum of two squares, where no square leaves the range of doubles and
`b ≤ a`: a first root, less its error to first order. -/
def correctedRoot (a b : Float) : Float :=
  let h := (a * a + b * b).sqrt
  let error :=
    if h ≤ 2 * b then
      let d := h - b
      a * (2 * d - a) + (d - 2 * (a - b)) * d
    else
      let d := h - a
      2 * d * (a - 2 * b) + ((4 * d - b) * b + d * d)
  h - error / (2 * h)

/-- The length of the hypotenuse for `0 ≤ b ≤ a`. A side too short to matter only rounds the
longer one; very long and very short sides are scaled for their squares. -/
def hypotenuseOfOrdered (a b : Float) : Float :=
  let scale := Float.scaleB 1 (-600)
  if b * Float.scaleB 1 54 ≤ a then a + b
  else if Float.scaleB 1 511 < a then correctedRoot (a * scale) (b * scale) / scale
  else if b < Float.scaleB 1 (-459) then correctedRoot (a / scale) (b / scale) * scale
  else correctedRoot a b

/-- The length of the hypotenuse; an infinite side wins over a NaN. -/
def hypotenuse : Signed → Signed → Signed :=
  lift2 fun x y =>
    if x.isInf || y.isInf then Double.infinity
    else if x.isNaN || y.isNaN then Double.nan
    else if x.abs < y.abs then hypotenuseOfOrdered y.abs x.abs
    else hypotenuseOfOrdered x.abs y.abs

end Signed

/-- The functions of one argument. -/
def function1? : String → Option (Signed → Signed)
  | "sqrt" => some (.lift Float.sqrt)
  | "fabs" => some .abs
  | "floor" => some (.lift Float.floor)
  | "ceil" => some (.lift Float.ceil)
  | "round" => some (.lift Float.round)
  | "trunc" => some .towardsZero
  | "rint" | "nearbyint" | "roundeven" => some .toNearestEven
  | "logb" => some .binaryExponent
  | "sin" => some (.lift Float.sin)
  | "cos" => some (.lift Float.cos)
  | "tan" => some (.lift Float.tan)
  | "asin" => some (.lift Float.asin · false)
  | "acos" => some (.lift Float.acos · false)
  | "atan" => some (.lift Float.atan)
  | "sinh" => some (.lift Float.sinh)
  | "cosh" => some (.lift Float.cosh)
  | "tanh" => some (.lift Float.tanh)
  | "asinh" => some (.lift Float.asinh)
  | "acosh" => some (.lift Float.acosh)
  | "atanh" => some (.lift Float.atanh)
  | "exp" => some (.lift Float.exp)
  | "exp2" => some (.lift Float.exp2)
  | "log" => some (.lift Float.log)
  | "log2" => some (.lift Float.log2)
  | "log10" => some (.lift Float.log10 · false)
  | "cbrt" => some (.lift Float.cbrt)
  | _ => none

/-- Classifications of a double. -/
def classification? : String → Option (Signed → Int32)
  | "isnan" => some fun a => if a.isNaN then 1 else 0
  | "isinf" => some fun a => if a.value.isInf then (if a.negative then -1 else 1) else 0
  | "isfinite" => some fun a => if a.value.isFinite then 1 else 0
  | "signbit" => some fun a => if a.negative then 1 else 0
  | _ => none

/-- The functions of two arguments; of two NaN operands some of them keep the right one. -/
def function2? : String → Option (Signed → Signed → Signed)
  | "fmod" => some (.lift2 Double.remainder)
  | "pow" => some (.lift2 Float.pow)
  | "remainder" | "drem" => some fun a b => .lift2 (fun y x => Double.nearestRemainder x y) b a
  | "atan2" => some fun a b => .lift2 (fun y x => Float.atan2 x y) b a
  | "nextafter" => some .nextAfter
  | "fdim" => some .positiveDifference
  | "fmax" => some .larger
  | "fmin" => some .smaller
  | "copysign" => some .withSign
  | "hypot" => some .hypotenuse
  | _ => none

/-- Comparisons that stay silent on a NaN. -/
def relation? : String → Option (Float → Float → Bool)
  | "isless" => some fun x y => x < y
  | "islessequal" => some fun x y => x ≤ y
  | "isgreater" => some fun x y => y < x
  | "isgreaterequal" => some fun x y => y ≤ x
  | "islessgreater" => some fun x y => x < y || y < x
  | "isunordered" => some fun x y => x.isNaN || y.isNaN
  | _ => none

namespace Number

/-- A call with one argument; only a double can be classified. -/
def call1? (name : String) (a : Number) : Option Number :=
  match function1? name, classification? name, a with
  | some f, _, a => some (.double (f a.toDouble))
  | none, some f, .double x => some (.int (f x))
  | _, _, _ => none

/-- A call with two arguments; a relation needs a double among them. -/
def call2? (name : String) (a b : Number) : Option Number :=
  match function2? name, relation? name, a, b with
  | some f, _, a, b => some (.double (f a.toDouble b.toDouble))
  | none, some _, .int _, .int _ => none
  | none, some r, a, b => some (.ofBool (r a.toDouble.value b.toDouble.value))
  | none, none, _, _ => none

end Number

end Native

end Formula
