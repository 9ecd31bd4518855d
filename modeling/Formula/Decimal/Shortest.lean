import Formula.Double

/-!
The shortest decimal that reads back as a given double. The doubles next to a double `x` leave
an interval of reals that round to `x`; for one digit, two digits and so on the two neighbours
of `x` on that decimal grid are tested against the interval, in exact natural arithmetic, and
the first grid with a hit gives the digits.
-/
namespace Formula

/-- Powers of ten, the scales of decimals. -/
def pow10 (n : Nat) : Nat := Nat.pow 10 n

/-- The positive decimal `digits · 10 ^ exponent`. -/
structure Decimal where
  digits : Nat
  exponent : Int
  deriving DecidableEq, Repr, Inhabited

namespace Decimal

/-- The reals `low / scale` to `high / scale` around `value / scale` that round to one double;
the ends belong to it only if `closed`. -/
structure Interval where
  low : Nat
  value : Nat
  high : Nat
  scale : Nat
  closed : Bool

/-- The interval of a positive double. Below a power of two the gap is half as wide. -/
def Interval.of (b : Binary) : Interval :=
  let narrow := b.mantissa = pow2 52 ∧ -1074 < b.exponent
  let up := pow2 (b.exponent - 2).toNat
  let scale := pow2 (2 - b.exponent).toNat
  { low := (4 * b.mantissa - (if narrow then 1 else 2)) * up
    value := 4 * b.mantissa * up
    high := (4 * b.mantissa + 2) * up
    scale
    closed := b.mantissa % 2 = 0 }

/-- Whether `n · 10 ^ e` lies in the interval. -/
def Interval.holds (i : Interval) (n : Nat) (e : Int) : Bool :=
  let point := n * pow10 e.toNat * i.scale
  let unit := pow10 (-e).toNat
  if i.closed then i.low * unit ≤ point && point ≤ i.high * unit
  else i.low * unit < point && point < i.high * unit

/-- Raises a guess until `value < 10 ^ guess`. -/
def Interval.magnitudeFrom (i : Interval) : Nat → Int → Int
  | 0, guess => guess
  | fuel + 1, guess =>
    if i.value * pow10 (-guess).toNat < pow10 guess.toNat * i.scale then guess
    else i.magnitudeFrom fuel (guess + 1)

/-- The least `e` with `value < 10 ^ e`. The guess from the binary length is at most three
below it. -/
def Interval.magnitude (i : Interval) : Int :=
  let bits : Int := (i.value.log2 : Int) - (i.scale.log2 : Int)
  i.magnitudeFrom 6 (bits * 30103 / 100000 - 1)

/-- The best candidate with `places` digits, if one of the two neighbours hits. Of two hits the
nearer is taken, of two equally near the larger. -/
def Interval.candidate? (i : Interval) (magnitude : Int) (places : Nat) : Option Decimal :=
  let e := magnitude - places
  let numerator := i.value * pow10 (-e).toNat
  let denominator := pow10 e.toNat * i.scale
  let below := numerator / denominator
  let rest := numerator % denominator
  match i.holds below e, i.holds (below + 1) e with
  | true, true => some ⟨if 2 * rest < denominator then below else below + 1, e⟩
  | true, false => some ⟨below, e⟩
  | false, true => some ⟨below + 1, e⟩
  | false, false => none

/-- Drops trailing zeros of the digits. -/
def trim : Nat → Decimal → Decimal
  | 0, d => d
  | fuel + 1, d =>
    if d.digits ≠ 0 ∧ d.digits % 10 = 0 then trim fuel ⟨d.digits / 10, d.exponent + 1⟩ else d

/-- Tries `places`, `places + 1`, …; seventeen digits always suffice. -/
def Interval.search (i : Interval) (magnitude : Int) : Nat → Nat → Decimal
  | 0, places => ⟨i.value * pow10 (places - magnitude).toNat / i.scale, magnitude - places⟩
  | fuel + 1, places =>
    match i.candidate? magnitude places with
    | some d => d
    | none => i.search magnitude fuel (places + 1)

/-- The shortest decimal of a positive finite double. -/
def shortest (b : Binary) : Decimal :=
  let i := Interval.of b
  trim 20 (i.search i.magnitude 17 1)

end Decimal

end Formula
