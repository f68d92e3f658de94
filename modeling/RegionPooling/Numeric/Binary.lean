import RegionPooling.Numeric.Format
import RegionPooling.Numeric.Word

/-!
# Floating-point numbers

One not-a-number, two infinities, and the finite numbers of a format. Equality of these values is
equality of their encodings, any not-a-number counting as the same; the comparison that ignores the
sign of zero is `numEq`. Each operation forms the exact result in units and rounds it once, to
nearest with ties to even.
-/

namespace RegionPooling

/-- A number of a binary format. -/
inductive Binary (f : Format) where
  | nan
  | infinity (negative : Bool)
  | finite (negative : Bool) (units : Nat) (representable : f.Representable units)
  deriving DecidableEq

namespace Binary

variable {f g : Format}

/-- A whole number given by its sign and magnitude. -/
def signed (negative : Bool) (magnitude : Nat) : Int :=
  if negative then -(magnitude : Int) else magnitude

/-- Zero of either sign. -/
def signedZero (negative : Bool) : Binary f := finite negative 0 f.representable_zero

/-- Positive zero. -/
def zero : Binary f := signedZero false

/-- The number nearest to a quotient of units; a magnitude past the limit is infinite. -/
def ofRatio (negative : Bool) (num den : Nat) : Binary f :=
  let units := f.roundRatio num den
  if h : f.Representable units then finite negative units h else infinity negative

/-- The number nearest to a fraction. -/
def ofFraction (num : Int) (den : Nat) : Binary f :=
  ofRatio (decide (num < 0)) (num.natAbs * f.one) den

/-- The number nearest to an integer. -/
def ofInt (n : Int) : Binary f := ofFraction n 1

/-- The nearest number of another format. -/
def convert : Binary f → Binary g
  | nan => nan
  | infinity negative => infinity negative
  | finite negative units _ => ofRatio negative (units * g.one) f.one

/-- Whether a value is not a number. -/
def isNaN : Binary f → Bool
  | nan => true
  | _ => false

/-- Whether a value is a finite number. -/
def isFinite : Binary f → Bool
  | finite .. => true
  | _ => false

/-- Sum; an exact zero is negative only if both terms are. -/
def add : Binary f → Binary f → Binary f
  | nan, _ | _, nan => nan
  | infinity s, infinity t => if s = t then infinity s else nan
  | infinity s, finite .. => infinity s
  | finite .., infinity t => infinity t
  | finite s u _, finite t v _ =>
    let sum := signed s u + signed t v
    if sum = 0 then signedZero (s && t) else ofRatio (decide (sum < 0)) sum.natAbs 1

/-- Product; zero times an infinity is not a number. -/
def mul : Binary f → Binary f → Binary f
  | nan, _ | _, nan => nan
  | infinity s, infinity t => infinity (s != t)
  | infinity s, finite t v _ => if v = 0 then nan else infinity (s != t)
  | finite s u _, infinity t => if u = 0 then nan else infinity (s != t)
  | finite s u _, finite t v _ => ofRatio (s != t) (u * v) f.one

/-- Quotient; by zero it is infinite, and zero by zero is not a number. -/
def div : Binary f → Binary f → Binary f
  | nan, _ | _, nan => nan
  | infinity _, infinity _ => nan
  | infinity s, finite t _ _ => infinity (s != t)
  | finite s _ _, infinity t => signedZero (s != t)
  | finite s u _, finite t v _ =>
    if v = 0 then if u = 0 then nan else infinity (s != t)
    else ofRatio (s != t) (u * f.one) v

/-- Numeric order; no comparison with a not-a-number holds. -/
def lt : Binary f → Binary f → Bool
  | nan, _ | _, nan => false
  | infinity s, infinity t => s && !t
  | infinity s, finite .. => s
  | finite .., infinity t => !t
  | finite s u _, finite t v _ => decide (signed s u < signed t v)

/-- Numeric equality: zeros of either sign are equal, a not-a-number equals nothing. -/
def numEq : Binary f → Binary f → Bool
  | infinity s, infinity t => s == t
  | finite s u _, finite t v _ => decide (signed s u = signed t v)
  | _, _ => false

/-- Greatest whole number at most the given one, as a grid coordinate. -/
def floorGrid : Binary f → Int
  | nan => gridMin
  | infinity negative => if negative then gridMin else gridMax
  | finite s u _ => saturate (signed s u / (f.one : Int))

/-- Least whole number at least the given one, as a grid coordinate. -/
def ceilGrid : Binary f → Int
  | nan => gridMin
  | infinity negative => if negative then gridMin else gridMax
  | finite s u _ => saturate (-(-signed s u / (f.one : Int)))

/-- Nearest whole number as a grid coordinate, halves going away from zero. -/
def roundGrid : Binary f → Int
  | nan => gridMin
  | infinity negative => if negative then gridMin else gridMax
  | finite s u _ => saturate (signed s ((2 * u + f.one) / (2 * f.one)))

/-- Encoding of positive infinity; every larger magnitude encodes a not-a-number. -/
def infinityBits (f : Format) : Nat := twoPow (f.width - 1) - twoPow (f.precision - 1)

/-- Interchange encoding. Within a binade the encoding counts steps, so the number of doublings of
the step is added above the count. -/
def toBits : Binary f → Nat
  | nan => infinityBits f + twoPow (f.precision - 2)
  | infinity negative => signBit negative + infinityBits f
  | finite negative units _ =>
    let doublings := units.log2 + 1 - f.precision
    signBit negative + doublings * twoPow (f.precision - 1) + units / twoPow doublings
where
  /-- Contribution of the sign. -/
  signBit (negative : Bool) : Nat := if negative then twoPow (f.width - 1) else 0

/-- Number with a given interchange encoding. -/
def ofBits (bits : Nat) : Binary f :=
  let negative := decide (twoPow (f.width - 1) ≤ bits)
  let magnitude := bits % twoPow (f.width - 1)
  let leading := twoPow (f.precision - 1)
  if infinityBits f < magnitude then nan
  else if magnitude = infinityBits f then infinity negative
  else
    let units :=
      if magnitude / leading = 0 then magnitude
      else (leading + magnitude % leading) * twoPow (magnitude / leading - 1)
    if h : f.Representable units then finite negative units h else nan

/-- A magnitude of the format is a number of the format, whatever fraction presents it. -/
theorem ofRatio_mul_right {units den : Nat} (negative : Bool) (h : f.Representable units)
    (pos : 0 < den) :
    (ofRatio negative (units * den) den : Binary f) = finite negative units h := by
  simp only [ofRatio, Format.roundRatio_mul_right h pos]
  exact dif_pos h

/-- Conversion to the same format changes nothing. -/
@[simp] theorem convert_self (x : Binary f) : (convert x : Binary f) = x := by
  cases x with
  | nan => rfl
  | infinity => rfl
  | finite negative units h => exact ofRatio_mul_right negative h f.one_pos

end Binary

end RegionPooling
