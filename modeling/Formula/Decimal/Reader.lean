import Formula.Decimal.Shortest

/-!
Reading numbers. Integers are an optional sign and decimal digits within 64 bits; floating
numbers are a sign, digits around an optional point and an optional power of ten, or one of
the words for infinity and NaN in any case.
-/
namespace Formula
namespace Decimal

def areDigits (s : List Char) : Bool := !s.isEmpty && s.all Char.isDigit

def digitsValue (s : List Char) : Nat :=
  s.foldl (fun n c => 10 * n + (c.toNat - '0'.toNat)) 0

/-- Splits off a leading sign; the flag says that it was a minus. -/
def splitSign : List Char → Bool × List Char
  | '-' :: s => (true, s)
  | '+' :: s => (false, s)
  | s => (false, s)

/-- The integer written in `s`, of any size. -/
def readInt? (s : List Char) : Option Int :=
  let (negative, digits) := splitSign s
  if areDigits digits then some (if negative then -(digitsValue digits : Int) else digitsValue digits)
  else none

/-- The integer written in `s` if it fits 64 bits. -/
def readInt64? (s : List Char) : Option Int64 := do
  let n ← readInt? s
  if Int64.minValue.toInt ≤ n ∧ n ≤ Int64.maxValue.toInt then some (Int64.ofInt n) else none

/-- The power of ten at the end of a number: nothing, or `e` with a signed integer. -/
def readExponent? : List Char → Option Int
  | [] => some 0
  | c :: s => if c = 'e' ∨ c = 'E' then readInt? s else none

/-- The double nearest to `digits · 10 ^ exponent`. Beyond the range of doubles the power is
not computed: the result is zero or infinite there whatever the digits are. -/
def nearest (digits : Nat) (exponent : Int) : Float :=
  let magnitude : Int := exponent + (Nat.toDigits 10 digits).length
  if digits = 0 ∨ magnitude < -400 then 0
  else if 400 < magnitude then Double.infinity
  else Float.ofScientific digits (exponent < 0) exponent.natAbs

/-- The decimal written with digits on at least one side of the point. -/
def readDecimal? (s : List Char) : Option Decimal :=
  let whole := s.takeWhile Char.isDigit
  let rest := s.dropWhile Char.isDigit
  let (places, tail) :=
    match rest with
    | '.' :: r => (r.takeWhile Char.isDigit, r.dropWhile Char.isDigit)
    | r => ([], r)
  if whole.isEmpty && places.isEmpty then none
  else (readExponent? tail).map fun e => ⟨digitsValue (whole ++ places), e - places.length⟩

/-- The double of an unsigned number. -/
def readMagnitude? (s : List Char) : Option Float :=
  (readDecimal? s).map fun d => nearest d.digits d.exponent

/-- The words that stand for numbers without digits. -/
def readWord? (s : List Char) : Option Float :=
  let word := String.ofList (s.map Char.toLower)
  if word = "inf" ∨ word = "infinity" then some Double.infinity
  else if word = "nan" then some Double.nan
  else none

def readFloat? (s : List Char) : Option Float :=
  let (negative, magnitude) := splitSign s
  (readMagnitude? magnitude <|> readWord? magnitude).map fun x => if negative then -x else x

/-- Why a text is no number. -/
def refusal (s : List Char) : String :=
  if s.isEmpty then "cannot parse float from empty string" else "invalid float literal"

end Decimal

end Formula
