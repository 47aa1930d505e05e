/-!
# Single — single-precision numbers by bit pattern

A number *is* its 32 bits, so two NaNs with different payloads are different numbers and equality
is decidable.  Arithmetic goes through the machine type and comes back as bits.
-/

namespace NetPlan

/-- A single-precision number, known by its bits. -/
structure Single where
  bits : UInt32
  deriving DecidableEq, Inhabited

namespace Single

/-- The machine number with these bits. -/
def toFloat (a : Single) : Float32 := Float32.ofBits a.bits

/-- The bits of a machine number. -/
def ofFloat (v : Float32) : Single := ⟨v.toBits⟩

/-- A double rounded to the nearest single. -/
def ofDouble (v : Float) : Single := ofFloat v.toFloat32

/-- The nearest single to a natural number. -/
def ofNat (n : Nat) : Single := ofFloat (Float32.ofNat n)

/-- Positive zero. -/
def zero : Single := ⟨0⟩

/-- The number one. -/
def one : Single := ⟨0x3f800000⟩

/-- Below all numbers. -/
def negInfinity : Single := ⟨0xff800000⟩

/-- Biased exponent field, `0` for subnormals and `255` for infinities and NaNs. -/
def exponentField (a : Single) : Nat := (a.bits.toNat / Nat.pow 2 23) % 256

/-- Fraction field, without the implicit leading bit. -/
def fractionField (a : Single) : Nat := a.bits.toNat % Nat.pow 2 23

/-- Whether the sign bit is set. -/
def isNegative (a : Single) : Bool := a.bits.toNat ≥ Nat.pow 2 31

/-- Whether the bits are no number. -/
def isNaN (a : Single) : Bool := a.exponentField = 255 ∧ a.fractionField ≠ 0

/-- Whether the number is infinite. -/
def isInfinite (a : Single) : Bool := a.exponentField = 255 ∧ a.fractionField = 0

instance : Add Single := ⟨fun a b => ofFloat (a.toFloat + b.toFloat)⟩

instance : Sub Single := ⟨fun a b => ofFloat (a.toFloat - b.toFloat)⟩

instance : Mul Single := ⟨fun a b => ofFloat (a.toFloat * b.toFloat)⟩

instance : Div Single := ⟨fun a b => ofFloat (a.toFloat / b.toFloat)⟩

/-- The exponential. -/
def exp (a : Single) : Single := ofFloat a.toFloat.exp

/-- The hyperbolic tangent. -/
def tanh (a : Single) : Single := ofFloat a.toFloat.tanh

/-- The square root. -/
def sqrt (a : Single) : Single := ofFloat a.toFloat.sqrt

/-- Sign bit flipped, NaNs included. -/
def neg (a : Single) : Single := ⟨a.bits ^^^ 0x80000000⟩

/-- Sign bit cleared, NaNs included. -/
def abs (a : Single) : Single := ⟨a.bits &&& 0x7fffffff⟩

/-- Numeric `<`: false as soon as one side is a NaN, and the two zeros are equal. -/
def lt (a b : Single) : Bool := a.toFloat < b.toFloat

/-- Numeric `≤`, false as soon as one side is a NaN. -/
def le (a b : Single) : Bool := a.toFloat ≤ b.toFloat

/-- The greater of two numbers; a NaN gives way to the other side, and of two equal numbers, such as
the two zeros, the second is taken. -/
def max (a b : Single) : Single :=
  if b.isNaN then a else if b.lt a then a else b

/-- The lesser of two numbers; a NaN gives way to the other side, and of two equal numbers, such as
the two zeros, the second is taken. -/
def min (a b : Single) : Single :=
  if b.isNaN then a else if a.lt b then a else b

/-- Magnitude as `significand * 2 ^ exponent`, for finite numbers. -/
def significand (a : Single) : Nat :=
  if a.exponentField = 0 then a.fractionField else a.fractionField + Nat.pow 2 23

/-- The power of two that goes with `significand`. -/
def scale (a : Single) : Int :=
  if a.exponentField = 0 then -149 else (a.exponentField : Int) - 150

/-- The nearest integer, halves away from zero, of a finite number. -/
def roundToInt (a : Single) : Int :=
  let magnitude : Nat :=
    if 0 ≤ a.scale then a.significand * Nat.pow 2 a.scale.toNat
    else
      let unit := Nat.pow 2 (-a.scale).toNat
      (2 * a.significand + unit) / (2 * unit)
  if a.isNegative then -(magnitude : Int) else (magnitude : Int)

/-- Rounded to the nearest integer and clamped to `[low, high]`; a NaN gives zero. -/
def toIntClamped (low high : Int) (a : Single) : Int :=
  if a.isNaN then 0
  else if a.isInfinite then (if a.isNegative then low else high)
  else if a.roundToInt < low then low
  else if high < a.roundToInt then high
  else a.roundToInt

end Single

end NetPlan
