import Formula.Decimal.Shortest

/-!
Doubles as text. A layout says from which decimal exponent on a number is written with a
power of ten and whether a whole number keeps a fraction digit; the digits are always the
shortest ones.
-/
namespace Formula
namespace Decimal

/-- How a finite double is laid out. -/
structure Layout where
  /-- The exponents of the leading digit that are written positionally; `none` is all of them. -/
  positional : Option (Int × Int)
  /-- Whether a whole number ends in `.0`. -/
  fraction : Bool

/-- Plain text of a number: never a power of ten, whole numbers bare. -/
def Layout.plain : Layout := ⟨none, false⟩

/-- A literal of the emitted source: positional from `1e-4` up to below `1e16`, and always
recognisable as a floating constant. -/
def Layout.literal : Layout := ⟨some (-4, 15), true⟩

def digitText (n : Nat) : String := String.ofList (Nat.toDigits 10 n)

def zeros (n : Nat) : String := String.ofList (List.replicate n '0')

/-- Digits and point without a power of ten. -/
def positionalText (fraction : Bool) (d : Decimal) : String :=
  let digits := digitText d.digits
  if 0 ≤ d.exponent then
    digits ++ zeros d.exponent.toNat ++ (if fraction then ".0" else "")
  else
    let places := (-d.exponent).toNat
    if places < digits.length then
      String.ofList (digits.toList.take (digits.length - places)) ++ "." ++
        String.ofList (digits.toList.drop (digits.length - places))
    else "0." ++ zeros (places - digits.length) ++ digits

/-- One leading digit, the rest behind the point, and the power of ten. -/
def scientificText (d : Decimal) : String :=
  let digits := (digitText d.digits).toList
  let exponent := d.exponent + digits.length - 1
  let rest := digits.drop 1
  String.ofList (digits.take 1) ++ (if rest.isEmpty then "" else "." ++ String.ofList rest) ++
    "e" ++ toString exponent

/-- The magnitude of a finite double. -/
def Layout.magnitudeText (n : Layout) (b : Binary) : String :=
  if b.mantissa = 0 then (if n.fraction then "0.0" else "0")
  else
    let d := shortest b
    let leading := d.exponent + (digitText d.digits).length - 1
    match n.positional with
    | none => positionalText n.fraction d
    | some (low, high) =>
      if low ≤ leading ∧ leading ≤ high then positionalText n.fraction d else scientificText d

def Layout.text (n : Layout) (x : Float) : String :=
  if x.isNaN then "NaN"
  else
    let b := Double.parts x
    let sign := if b.negative then "-" else ""
    sign ++ (if x.isInf then "inf" else n.magnitudeText b)

/-- A whole double with every digit of its exact value and one fraction digit. -/
def wholeText (x : Float) : String :=
  (if (Double.parts x).negative then "-" else "") ++ digitText (Double.wholePart x) ++ ".0"

end Decimal

end Formula
