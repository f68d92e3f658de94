import RegionPooling.Numeric.Binary

/-!
# Decimal text of floating-point numbers

A magnitude is written with the fewest decimal digits that read back as the same number, and of
several such decimals the nearest one; of two equally near the larger. A `Layout` then says how the
digits are set out. The texts of rejections and events write numbers so.

Everything is counted in *atoms*, the decimal place of the last digit of one unit, so that the
number, its rounding interval and every decimal grid are natural numbers.
-/

namespace RegionPooling

/-- The number `coefficient * 10 ^ exponent`. -/
structure Decimal where
  coefficient : Nat
  exponent : Int
  deriving DecidableEq, Repr

/-- Arrangement of the digits of a decimal. -/
structure Layout where
  /-- A whole number is followed by a point and a zero. -/
  marksWhole : Bool
  /-- Powers of ten of the leading digit that are written out by position. -/
  positional : Int → Bool

namespace Layout

/-- Every digit stands in its position. -/
def plain : Layout := ⟨false, fun _ => true⟩

/-- Magnitudes from `10 ^ (-4)` up to `10 ^ 16` by position, all others with an exponent. -/
def detailed : Layout := ⟨true, fun power => decide (-4 ≤ power ∧ power < 16)⟩

end Layout

namespace Decimal

/-- The same number without zeros at the end of its coefficient. -/
def trim (d : Decimal) : Decimal :=
  let digits := (Nat.toDigits 10 d.coefficient).reverse
  let zeros := (digits.takeWhile (· == '0')).length
  if d.coefficient = 0 then d else ⟨d.coefficient / Nat.pow 10 zeros, d.exponent + zeros⟩

/-- Text of a decimal in a layout. -/
def text (layout : Layout) (d : Decimal) : String :=
  let digits := Nat.toDigits 10 d.coefficient
  let power := d.exponent + digits.length - 1
  if layout.positional power then
    if 0 ≤ d.exponent then
      String.ofList (digits ++ List.replicate d.exponent.toNat '0')
        ++ (if layout.marksWhole then ".0" else "")
    else if 0 ≤ power then
      String.ofList (digits.take (power.toNat + 1)) ++ "."
        ++ String.ofList (digits.drop (power.toNat + 1))
    else
      "0." ++ String.ofList (List.replicate (-power - 1).toNat '0' ++ digits)
  else
    String.ofList (digits.take 1)
      ++ (if digits.length = 1 then "" else "." ++ String.ofList (digits.drop 1))
      ++ "e" ++ toString power

end Decimal

namespace Format

/-- One unit, in atoms. -/
def atomsPerUnit (f : Format) : Nat := Nat.pow 5 f.unitBits

/-- Lower half-width of the rounding interval, in quarters of a unit. It is halved where the number
starts a binade, since the numbers below it are twice as dense. -/
def lowerGap (f : Format) (units : Nat) : Nat :=
  let step := f.step units
  if 1 < step ∧ units = twoPow (f.precision - 1) * step then step else 2 * step

/-- Upper half-width of the rounding interval, in quarters of a unit. -/
def upperGap (f : Format) (units : Nat) : Nat := 2 * f.step units

/-- Whether a count of quarter atoms reads back as the given magnitude. The ends of the interval do
if the number is an even multiple of its step. -/
def readsBack (f : Format) (units quarters : Nat) : Bool :=
  let low := (4 * units - f.lowerGap units) * f.atomsPerUnit
  let high := (4 * units + f.upperGap units) * f.atomsPerUnit
  if units / f.step units % 2 = 0 then decide (low ≤ quarters ∧ quarters ≤ high)
  else decide (low < quarters ∧ quarters < high)

/-- The multiple of a decimal grid nearest to a magnitude, among those that read back. -/
def onGrid? (f : Format) (units grid : Nat) : Option Nat :=
  let atoms := units * f.atomsPerUnit
  let below := atoms / grid
  match f.readsBack units (4 * (below * grid)), f.readsBack units (4 * ((below + 1) * grid)) with
  | true, true => some (if 2 * (atoms % grid) < grid then below else below + 1)
  | true, false => some below
  | false, true => some (below + 1)
  | false, false => none

/-- The shortest decimal that reads back as a magnitude. Seventeen digits always suffice. -/
def shortest (f : Format) (units : Nat) : Decimal :=
  let atoms := units * f.atomsPerUnit
  let places := (Nat.toDigits 10 atoms).length
  let hit := (List.range' 1 17).findSome? fun digits =>
    (f.onGrid? units (Nat.pow 10 (places - digits))).map fun coefficient =>
      (⟨coefficient, ((places - digits : Nat) : Int) - f.unitBits⟩ : Decimal)
  (hit.getD ⟨atoms, -f.unitBits⟩).trim

end Format

namespace Binary

/-- Text of a number in a layout. -/
def text {f : Format} (layout : Layout) : Binary f → String
  | nan => "NaN"
  | infinity negative => if negative then "-inf" else "inf"
  | finite negative units _ =>
    let digits := if units = 0 then ⟨0, 0⟩ else f.shortest units
    (if negative then "-" else "") ++ digits.text layout

end Binary

end RegionPooling
