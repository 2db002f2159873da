/-!
Decimal text with a fixed number of places. A binary float stands for an exact
value `m * 2 ^ q`; that value is rounded to the nearest decimal with the given
places, and a value halfway between two decimals goes to the even one.
-/

namespace ReplayWindow.Decimal

/-- The quotient rounded to the nearest integer, halves to the even one. -/
def roundQuotient (numerator denominator : Nat) : Nat :=
  let quotient := numerator / denominator
  let twice := 2 * (numerator % denominator)
  if twice < denominator ∨ (twice = denominator ∧ quotient % 2 = 0) then quotient
  else quotient + 1

/-- The magnitude of a finite float is `significand * 2 ^ exponent`. -/
structure Magnitude where
  significand : Nat
  exponent : Int
  deriving DecidableEq

def Magnitude.ofBits (bits : UInt64) : Magnitude :=
  let exponent := ((bits >>> 52) &&& 0x7FF).toNat
  let fraction := (bits &&& 0xFFFFFFFFFFFFF).toNat
  if exponent = 0 then ⟨fraction, -1074⟩
  else ⟨Nat.pow 2 52 + fraction, (exponent : Int) - 1075⟩

/-- The magnitude in units of the last of `places` decimal places. -/
def Magnitude.inUnits (x : Magnitude) (places : Nat) : Nat :=
  roundQuotient (x.significand * Nat.pow 10 places * Nat.pow 2 x.exponent.toNat)
    (Nat.pow 2 (-x.exponent).toNat)

/-- The text filled up on the left to at least `size` characters. -/
def padLeft (size : Nat) (fill : Char) (text : String) : String :=
  String.ofList (List.replicate (size - text.length) fill) ++ text

def Magnitude.fixed (x : Magnitude) (places : Nat) : String :=
  let units := x.inUnits places
  let unit := Nat.pow 10 places
  toString (units / unit) ++ "." ++ padLeft places '0' (toString (units % unit))

/-- The float with at least one decimal place. The sign is kept on a zero too. -/
def fixed (places : Nat) (x : Float) : String :=
  if x.isNaN then "NaN"
  else
    let bits := x.toBits
    let sign := if bits >>> 63 = 0 then "" else "-"
    if x.isInf then sign ++ "inf" else sign ++ (Magnitude.ofBits bits).fixed places

end ReplayWindow.Decimal
