import NetPlan.Single

/-!
# Half — half-precision numbers by bit pattern

Narrowing a single rounds to nearest with ties to even, overflows to infinity and keeps NaNs; the
way back is exact.
-/

namespace NetPlan

/-- A half-precision number, known by its bits. -/
structure Half where
  bits : UInt16
  deriving DecidableEq, Inhabited

namespace Half

/-- The exponent, biased by 15. -/
def exponentField (h : Half) : Nat := (h.bits.toNat / Nat.pow 2 10) % 32

/-- The ten bits of the fraction. -/
def fractionField (h : Half) : Nat := h.bits.toNat % Nat.pow 2 10

/-- Whether the sign bit is set. -/
def isNegative (h : Half) : Bool := h.bits.toNat ≥ Nat.pow 2 15

/-- Whether the bits are no number. -/
def isNaN (h : Half) : Bool := h.exponentField = 31 ∧ h.fractionField ≠ 0

/-- `n / 2 ^ k` rounded to the nearest integer, ties to even. -/
def roundShift (n k : Nat) : Nat :=
  let unit := Nat.pow 2 k
  let q := n / unit
  let r := n % unit
  if 2 * r < unit then q
  else if unit < 2 * r then q + 1
  else if q % 2 = 0 then q else q + 1

/-- Bits of a magnitude without its sign.  A carry out of the fraction runs into the exponent
field, and out of the last exponent into infinity. -/
def magnitude (a : Single) : Nat :=
  if a.exponentField = 255 then
    if a.fractionField = 0 then 0x7c00
    else 0x7e00 + a.fractionField / Nat.pow 2 13 % Nat.pow 2 9
  else if a.exponentField ≥ 143 then 0x7c00
  else if a.exponentField ≥ 113 then
    (a.exponentField - 113) * Nat.pow 2 10 + roundShift a.significand 13
  else
    roundShift a.significand (126 - a.exponentField)

/-- The nearest half to a single. -/
def ofSingle (a : Single) : Half :=
  let sign := if a.isNegative then Nat.pow 2 15 else 0
  ⟨(sign + magnitude a).toUInt16⟩

/-- The single equal to a half; a NaN becomes a quiet one with the same payload. -/
def toSingle (h : Half) : Single :=
  let sign := if h.isNegative then Nat.pow 2 31 else 0
  let f := h.fractionField
  let body :=
    if h.exponentField = 31 then
      if f = 0 then 255 * Nat.pow 2 23
      else 255 * Nat.pow 2 23 + Nat.pow 2 22 + f % Nat.pow 2 9 * Nat.pow 2 13
    else if h.exponentField = 0 then
      if f = 0 then 0
      else
        -- A subnormal half is `f * 2 ^ -24`; its leading bit becomes the implicit one.
        let lead := Nat.log2 f
        (lead + 103) * Nat.pow 2 23 + (f * Nat.pow 2 (23 - lead) - Nat.pow 2 23)
    else (h.exponentField + 112) * Nat.pow 2 23 + f * Nat.pow 2 13
  ⟨(sign + body).toUInt32⟩

end Half

end NetPlan
