import Formula.Double

/-!
The numbers of C. Comparisons and logical operators give the type `int`; everything else that
is not made of `int` alone is a double. A double carries its sign bit, because a `Float` has
one NaN where C has a positive and a negative one. An operation passes the sign of a NaN on,
of the left one if there are two, and one that has no result makes a negative NaN.
-/
namespace Formula
namespace Native

/-- A double and its sign bit. -/
structure Signed where
  value : Float
  negative : Bool

namespace Signed

def ofBits (bits : UInt64) : Signed := ⟨Float.ofBits bits, 0x8000000000000000 ≤ bits⟩

def ofFloat (x : Float) : Signed := ⟨x, 0x8000000000000000 ≤ x.toBits⟩

def isNaN (a : Signed) : Bool := a.value.isNaN

/-- A computed double, with the sign it has if it is a NaN. -/
def result (x : Float) (negativeNaN : Bool) : Signed :=
  if x.isNaN then ⟨x, negativeNaN⟩ else .ofFloat x

/-- A function on doubles. Where it has no value, the NaN is negative if `invalid` says so. -/
def lift (f : Float → Float) (a : Signed) (invalid : Bool := true) : Signed :=
  result (f a.value) (if a.isNaN then a.negative else invalid)

def lift2 (f : Float → Float → Float) (a b : Signed) : Signed :=
  result (f a.value b.value)
    (if a.isNaN then a.negative else if b.isNaN then b.negative else true)

def neg (a : Signed) : Signed := ⟨-a.value, !a.negative⟩

def abs (a : Signed) : Signed := ⟨a.value.abs, false⟩

@[simp] theorem value_ofFloat (x : Float) : (ofFloat x).value = x := rfl
@[simp] theorem value_neg (a : Signed) : a.neg.value = -a.value := rfl
@[simp] theorem value_abs (a : Signed) : a.abs.value = a.value.abs := rfl

@[simp] theorem value_result (x : Float) (negativeNaN : Bool) :
    (result x negativeNaN).value = x := by
  unfold result
  split <;> rfl

@[simp] theorem value_lift (f : Float → Float) (a : Signed) (invalid : Bool) :
    (a.lift f invalid).value = f a.value := value_result ..

@[simp] theorem value_lift2 (f : Float → Float → Float) (a b : Signed) :
    (lift2 f a b).value = f a.value b.value := value_result ..

end Signed

/-- A number of C, with its type. -/
inductive Number where
  | int (n : Int32)
  | double (x : Signed)

namespace Number

def toDouble : Number → Signed
  | .int n => .ofFloat n.toFloat
  | .double x => x

/-- Whether the number counts as true. -/
def truthy : Number → Bool
  | .int n => n ≠ 0
  | .double x => !(x.value == 0)

def ofBool (b : Bool) : Number := .int (if b then 1 else 0)

/-- A unary operator of C; `none` where C has no such operation. -/
def unary? (symbol : String) (a : Number) : Option Number :=
  match symbol, a with
  | "-", .int n => some (.int (-n))
  | "-", .double x => some (.double x.neg)
  | "+", a => some a
  | "!", a => some (.ofBool !a.truthy)
  | "~", .int n => some (.int (~~~n))
  | _, _ => none

/-- A binary operator on whole numbers; division cuts towards zero. -/
def binaryInt? (symbol : String) (a b : Int32) : Option Number :=
  match symbol with
  | "+" => some (.int (a + b))
  | "-" => some (.int (a - b))
  | "*" => some (.int (a * b))
  | "/" => some (.int (a / b))
  | "%" => some (.int (a % b))
  | "<" => some (.ofBool (a < b))
  | "<=" => some (.ofBool (a ≤ b))
  | ">" => some (.ofBool (b < a))
  | ">=" => some (.ofBool (b ≤ a))
  | "==" => some (.ofBool (a = b))
  | "!=" => some (.ofBool (a ≠ b))
  | "&" => some (.int (a &&& b))
  | "|" => some (.int (a ||| b))
  | "^" => some (.int (a ^^^ b))
  | "<<" => some (.int (a <<< b))
  | ">>" => some (.int (a >>> b))
  | _ => none

def binaryDouble? (symbol : String) (a b : Signed) : Option Number :=
  match symbol with
  | "+" => some (.double (.lift2 (· + ·) a b))
  | "-" => some (.double (.lift2 (· - ·) a b))
  | "*" => some (.double (.lift2 (· * ·) a b))
  | "/" => some (.double (.lift2 (· / ·) a b))
  | "<" => some (.ofBool (a.value < b.value))
  | "<=" => some (.ofBool (a.value ≤ b.value))
  | ">" => some (.ofBool (b.value < a.value))
  | ">=" => some (.ofBool (b.value ≤ a.value))
  | "==" => some (.ofBool (a.value == b.value))
  | "!=" => some (.ofBool !(a.value == b.value))
  | _ => none

def binary? (symbol : String) (a b : Number) : Option Number :=
  match symbol with
  | "&&" => some (.ofBool (a.truthy && b.truthy))
  | "||" => some (.ofBool (a.truthy || b.truthy))
  | "," => some b
  | _ =>
    match a, b with
    | .int m, .int n => binaryInt? symbol m n
    | a, b => binaryDouble? symbol a.toDouble b.toDouble

end Number

end Native

end Formula
