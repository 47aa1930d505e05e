import Mathlib.Tactic.Ring
import NetPlan.Host.Buffer

/-!
# Proofs/Host/Conversion — element types and what they lose

A value that goes into a buffer and is read back has been rounded to the element type (`cast`).

* `Half.ofSingle_toSingle` — half precision survives the way through single precision, but for
  signalling NaNs, which become quiet;
* `Element.cast_of_fits` — a type that holds every value of another loses nothing of it;
* `Buffer.ofSingles_map_cast` — what has been rounded is not rounded again.
-/

namespace NetPlan

namespace Single

/-- A single from a sign and the bits of a magnitude. -/
def assembled (negative : Bool) (body : Nat) : Single :=
  ⟨((if negative then Nat.pow 2 31 else 0) + body).toUInt32⟩

section

variable {negative : Bool} {body : Nat}

/-- Sign and body side by side. -/
theorem toNat_assembled (h : body < 2 ^ 31) :
    (assembled negative body).bits.toNat = (if negative then 2 ^ 31 else 0) + body := by
  rw [assembled, Nat.pow_eq]
  change _ % 2 ^ 32 = _
  split <;> omega

/-- The sign is as it was put in. -/
theorem isNegative_assembled (h : body < 2 ^ 31) :
    (assembled negative body).isNegative = negative := by
  rw [isNegative, toNat_assembled h, Nat.pow_eq]
  cases negative
  · simpa using h
  · simp

/-- The exponent is the upper part of the body. -/
theorem exponentField_assembled (h : body < 2 ^ 31) :
    (assembled negative body).exponentField = body / 2 ^ 23 := by
  rw [exponentField, toNat_assembled h, Nat.pow_eq]
  split <;> omega

/-- The fraction is the lower part of the body. -/
theorem fractionField_assembled (h : body < 2 ^ 31) :
    (assembled negative body).fractionField = body % 2 ^ 23 := by
  rw [fractionField, toNat_assembled h, Nat.pow_eq]
  split <;> omega

end

/-- Significands have 24 bits. -/
theorem significand_lt (a : Single) : a.significand < 2 ^ 24 := by
  have hf : a.fractionField < 2 ^ 23 := Nat.mod_lt _ (by decide)
  rw [significand, Nat.pow_eq]
  split <;> omega

/-- The single of a small number, its leading bit implicit. -/
def ofSmall (n : Nat) : Single :=
  if n = 0 then zero
  else assembled false ((n.log2 + 127) * 2 ^ 23 + (n * 2 ^ (23 - n.log2) - 2 ^ 23))

/-- Small numbers are exact. -/
theorem ofNat_eq_ofSmall : ∀ n : Fin 256, ofNat n = ofSmall n := by
  decide +kernel

end Single

namespace Half

/-- Bits of the single with the magnitude of a half. -/
def widened (exponent fraction : Nat) : Nat :=
  if exponent = 31 then
    if fraction = 0 then 255 * Nat.pow 2 23
    else 255 * Nat.pow 2 23 + Nat.pow 2 22 + fraction % Nat.pow 2 9 * Nat.pow 2 13
  else if exponent = 0 then
    if fraction = 0 then 0
    else
      let lead := Nat.log2 fraction
      (lead + 103) * Nat.pow 2 23 + (fraction * Nat.pow 2 (23 - lead) - Nat.pow 2 23)
  else (exponent + 112) * Nat.pow 2 23 + fraction * Nat.pow 2 13

theorem toSingle_eq (h : Half) :
    h.toSingle = .assembled h.isNegative (widened h.exponentField h.fractionField) := rfl

/-- A subnormal half is a normal single; there are few of them. -/
theorem widened_zero : ∀ f : Fin 1024, widened 0 f < 2 ^ 31 ∧
    magnitude (.assembled false (widened 0 f)) = f := by
  decide +kernel

/-- Widened bits leave the sign alone. -/
theorem widened_lt {e f : Nat} (he : e < 32) (hf : f < 1024) : widened e f < 2 ^ 31 := by
  by_cases h0 : e = 0
  · rw [h0]
    exact (widened_zero ⟨f, hf⟩).1
  simp only [widened, Nat.pow_eq, if_neg h0]
  split
  · split <;> omega
  · omega

/-- Nothing is rounded where nothing is lost. -/
theorem roundShift_mul (n k : Nat) : roundShift (n * 2 ^ k) k = n := by
  have hpos : 0 < 2 ^ k := Nat.two_pow_pos k
  simp only [roundShift, Nat.pow_eq, Nat.mul_mod_left, Nat.mul_div_cancel n hpos]
  simp

/-- The magnitude does not depend on the sign. -/
theorem magnitude_assembled {negative : Bool} {body : Nat} (h : body < 2 ^ 31) :
    magnitude (.assembled negative body) = magnitude (.assembled false body) := by
  simp only [magnitude, Single.significand, Single.exponentField_assembled h,
    Single.fractionField_assembled h]

/-- **Widening and narrowing again** gives the magnitude back, a NaN made quiet. -/
theorem magnitude_widened {negative : Bool} {e f : Nat} (he : e < 32) (hf : f < 1024) :
    magnitude (.assembled negative (widened e f))
      = e * 1024 + if e = 31 ∧ f ≠ 0 then 512 + f % 512 else f := by
  have hlt := widened_lt he hf
  rw [magnitude_assembled hlt]
  by_cases h0 : e = 0
  · subst h0
    rw [(widened_zero ⟨f, hf⟩).2]
    simp
  by_cases hspecial : e = 31
  · subst hspecial
    by_cases hz : f = 0
    · subst hz
      decide +kernel
    · simp only [magnitude, Single.exponentField_assembled hlt, Single.fractionField_assembled hlt]
      simp only [widened, hz, Nat.pow_eq, if_true, if_false]
      have h1 : (255 * 2 ^ 23 + 2 ^ 22 + f % 2 ^ 9 * 2 ^ 13) / 2 ^ 23 = 255 := by omega
      have h2 : ¬ (255 * 2 ^ 23 + 2 ^ 22 + f % 2 ^ 9 * 2 ^ 13) % 2 ^ 23 = 0 := by omega
      rw [if_pos h1, if_neg h2, if_pos ⟨trivial, hz⟩]
      omega
  · have hnormal : widened e f = (e + 112) * 2 ^ 23 + f * 2 ^ 13 := by
      simp [widened, hspecial, h0, Nat.pow_eq]
    have hexp : (widened e f) / 2 ^ 23 = e + 112 := by rw [hnormal]; omega
    have hfrac : (widened e f) % 2 ^ 23 = f * 2 ^ 13 := by rw [hnormal]; omega
    simp only [magnitude, Single.significand, Single.exponentField_assembled hlt,
      Single.fractionField_assembled hlt, hexp, hfrac, Nat.pow_eq]
    rw [if_neg (by omega), if_neg (by omega), if_pos (by omega), if_neg (by omega),
      show f * 2 ^ 13 + 2 ^ 23 = (f + 1024) * 2 ^ 13 by omega, roundShift_mul,
      if_neg fun h => hspecial h.1]
    omega

/-- Bits are sign, exponent and fraction. -/
theorem bits_eq (h : Half) : h.bits.toNat
    = (if h.isNegative then 2 ^ 15 else 0) + (h.exponentField * 1024 + h.fractionField) := by
  have hlt := h.bits.toNat_lt
  simp only [isNegative, exponentField, fractionField, Nat.pow_eq, decide_eq_true_eq]
  split <;> omega

theorem exponentField_lt (h : Half) : h.exponentField < 32 := Nat.mod_lt _ (by decide)

theorem fractionField_lt (h : Half) : h.fractionField < 1024 := Nat.mod_lt _ (by decide)

/-- A half from a sign and the bits of a magnitude. -/
def assembled (negative : Bool) (body : Nat) : Half :=
  ⟨((if negative then Nat.pow 2 15 else 0) + body).toUInt16⟩

section

variable {negative : Bool} {body : Nat}

/-- Sign and body side by side. -/
theorem toNat_assembled (h : body < 2 ^ 15) :
    (assembled negative body).bits.toNat = (if negative then 2 ^ 15 else 0) + body := by
  rw [assembled, Nat.pow_eq]
  change _ % 2 ^ 16 = _
  split <;> omega

/-- The sign is as it was put in. -/
theorem isNegative_assembled (h : body < 2 ^ 15) :
    (assembled negative body).isNegative = negative := by
  rw [isNegative, toNat_assembled h, Nat.pow_eq]
  cases negative
  · simpa using h
  · simp

/-- The exponent is the upper part of the body. -/
theorem exponentField_assembled (h : body < 2 ^ 15) :
    (assembled negative body).exponentField = body / 1024 := by
  rw [exponentField, toNat_assembled h, Nat.pow_eq]
  split <;> omega

/-- The fraction is the lower part of the body. -/
theorem fractionField_assembled (h : body < 2 ^ 15) :
    (assembled negative body).fractionField = body % 1024 := by
  rw [fractionField, toNat_assembled h, Nat.pow_eq]
  split <;> omega

end

/-- What comes back of half precision: the same bits, but for signalling non-numbers. -/
theorem ofSingle_toSingle_eq (h : Half) : ofSingle h.toSingle = assembled h.isNegative
    (h.exponentField * 1024 + if h.exponentField = 31 ∧ h.fractionField ≠ 0
      then 512 + h.fractionField % 512 else h.fractionField) := by
  rw [toSingle_eq, ← magnitude_widened h.exponentField_lt h.fractionField_lt]
  have hneg := @Single.isNegative_assembled h.isNegative _
    (widened_lt h.exponentField_lt h.fractionField_lt)
  rw [ofSingle, hneg]
  rfl

/-- Whether a half is no signalling NaN. -/
def IsQuiet (h : Half) : Prop :=
  h.exponentField = 31 → h.fractionField ≠ 0 → 512 ≤ h.fractionField

/-- **Halves survive the way through single precision**, signalling NaNs apart. -/
theorem ofSingle_toSingle {h : Half} (hq : h.IsQuiet) : ofSingle h.toSingle = h := by
  have hf := h.fractionField_lt
  have hkeep : (if h.exponentField = 31 ∧ h.fractionField ≠ 0
      then 512 + h.fractionField % 512 else h.fractionField) = h.fractionField := by
    split
    case isTrue hn =>
      have := hq hn.1 hn.2
      omega
    case isFalse => rfl
  have he := h.exponentField_lt
  rw [ofSingle_toSingle_eq, hkeep]
  cases h with | mk bits =>
  refine congrArg Half.mk (UInt16.toNat_inj.mp ((toNat_assembled ?_).trans (bits_eq _).symm))
  omega

/-- The way through single precision is taken once. -/
theorem toSingle_ofSingle_toSingle (h : Half) : (ofSingle h.toSingle).toSingle = h.toSingle := by
  by_cases hq : h.IsQuiet
  · rw [ofSingle_toSingle hq]
  have hf := h.fractionField_lt
  obtain ⟨he, hz, -⟩ : h.exponentField = 31 ∧ h.fractionField ≠ 0 ∧ h.fractionField < 512 := by
    simpa [IsQuiet] using hq
  rw [ofSingle_toSingle_eq, if_pos ⟨he, hz⟩, he, toSingle_eq, isNegative_assembled (by omega),
    exponentField_assembled (by omega), fractionField_assembled (by omega), toSingle_eq, he]
  refine congrArg _ ?_
  have he' : (31 * 1024 + (512 + h.fractionField % 512)) / 1024 = 31 := by omega
  have hf' : (31 * 1024 + (512 + h.fractionField % 512)) % 1024
      = 512 + h.fractionField % 512 := by omega
  rw [he', hf']
  have hz' : ¬ 512 + h.fractionField % 512 = 0 := by omega
  simp only [widened, Nat.pow_eq, if_true, hz, hz', if_false]
  omega

/-- Rounding stays below what is a whole number of steps. -/
theorem roundShift_le {n k m : Nat} (h : n ≤ m * 2 ^ k) : roundShift n k ≤ m := by
  have hpos : 0 < 2 ^ k := Nat.two_pow_pos k
  have hq : n / 2 ^ k ≤ m := Nat.div_le_of_le_mul (Nat.mul_comm m _ ▸ h)
  have hr : n / 2 ^ k = m → n % 2 ^ k = 0 := fun he => by
    have := Nat.div_add_mod n (2 ^ k)
    rw [he, Nat.mul_comm] at this
    omega
  simp only [roundShift, Nat.pow_eq]
  split
  · exact hq
  split
  · exact Nat.lt_of_le_of_ne hq fun he => by
      have := hr he
      omega
  split
  · exact hq
  · exact Nat.lt_of_le_of_ne hq fun he => by
      have := hr he
      omega

/-- Rounding makes no signalling NaN. -/
theorem magnitude_quiet (a : Single) :
    magnitude a ≤ 31 * 1024 ∨ (31 * 1024 + 512 ≤ magnitude a ∧ magnitude a < 2 ^ 15) := by
  have hs := a.significand_lt
  rw [magnitude]
  simp only [Nat.pow_eq]
  split
  · split
    · exact Or.inl (by decide)
    · exact Or.inr (by omega)
  split
  · exact Or.inl (by decide)
  split
  · have := roundShift_le (m := 2048) (n := a.significand) (k := 13) (by omega)
    exact Or.inl (by omega)
  · have hpow : 2 ^ 14 ≤ 2 ^ (126 - a.exponentField) := Nat.pow_le_pow_right (by decide) (by omega)
    have := roundShift_le (m := 1024) (n := a.significand) (k := 126 - a.exponentField) (by omega)
    exact Or.inl (by omega)

/-- Conversions give quiet non-numbers. -/
theorem isQuiet_ofSingle (a : Single) : (ofSingle a).IsQuiet := by
  have hm := magnitude_quiet a
  have hlt : magnitude a < 2 ^ 15 := by omega
  change (assembled a.isNegative (magnitude a)).IsQuiet
  rw [IsQuiet, exponentField_assembled hlt, fractionField_assembled hlt]
  omega

end Half
namespace Element

/-- A value as it is read back from a buffer of an element type. -/
def cast : Element → Single → Single
  | .f32, a => a
  | .f16, a => (Half.ofSingle a).toSingle
  | .i8, a => Buffer.ofInt8 (Buffer.toInt8 a)
  | .u8, a => Buffer.ofUInt8 (Buffer.toUInt8 a)

/-- Whether every value of an element type is one of another. -/
def fits : Element → Element → Bool
  | _, .f32 => true
  | .f32, _ => false
  | _, .f16 => true
  | .f16, _ => false
  | e, e' => e = e'

end Element

namespace Buffer

theorem ofUInt8_eq (v : UInt8) : ofUInt8 v = .ofSmall v.toNat :=
  Single.ofNat_eq_ofSmall ⟨v.toNat, v.toNat_lt⟩

/-- The value of a signed byte, from its sign and its magnitude. -/
def ofSigned (v : Int) : Single :=
  if v < 0 then (Single.ofSmall v.natAbs).neg else .ofSmall v.natAbs

theorem ofInt8_eq (v : Int8) : ofInt8 v = ofSigned v.toInt := by
  have hlow := v.le_toInt
  have hhigh := v.toInt_lt
  rw [ofInt8, ofSigned, Single.ofNat_eq_ofSmall ⟨v.toInt.natAbs, by omega⟩]

/-- Every byte survives both conversions. -/
theorem bytes_roundtrip : ∀ v : BitVec 8,
    toUInt8 (.ofSmall v.toNat) = ⟨v⟩ ∧ toInt8 (ofSigned v.toInt) = ⟨⟨v⟩⟩ ∧
    (Half.ofSingle (.ofSmall v.toNat)).toSingle = .ofSmall v.toNat ∧
    (Half.ofSingle (ofSigned v.toInt)).toSingle = ofSigned v.toInt := by
  decide +kernel

theorem toUInt8_ofUInt8 (v : UInt8) : toUInt8 (ofUInt8 v) = v := by
  rw [ofUInt8_eq]
  exact (bytes_roundtrip v.toBitVec).1

theorem toInt8_ofInt8 (v : Int8) : toInt8 (ofInt8 v) = v := by
  rw [ofInt8_eq]
  exact (bytes_roundtrip v.toBitVec).2.1

theorem toSingle_ofUInt8 (v : UInt8) : (Half.ofSingle (ofUInt8 v)).toSingle = ofUInt8 v := by
  rw [ofUInt8_eq]
  exact (bytes_roundtrip v.toBitVec).2.2.1

theorem toSingle_ofInt8 (v : Int8) : (Half.ofSingle (ofInt8 v)).toSingle = ofInt8 v := by
  rw [ofInt8_eq]
  exact (bytes_roundtrip v.toBitVec).2.2.2

end Buffer

namespace Element

/-- **A type that holds every value of another loses nothing of it.** -/
theorem cast_of_fits {e e' : Element} (h : e.fits e' = true) (a : Single) :
    e'.cast (e.cast a) = e.cast a := by
  cases e' with
  | f32 => rfl
  | f16 =>
    cases e with
    | f32 => cases h
    | f16 => exact Half.toSingle_ofSingle_toSingle _
    | i8 => exact Buffer.toSingle_ofInt8 _
    | u8 => exact Buffer.toSingle_ofUInt8 _
  | i8 =>
    cases e with
    | i8 => exact congrArg Buffer.ofInt8 (Buffer.toInt8_ofInt8 _)
    | _ => cases h
  | u8 =>
    cases e with
    | u8 => exact congrArg Buffer.ofUInt8 (Buffer.toUInt8_ofUInt8 _)
    | _ => cases h

theorem cast_zero (e : Element) : e.cast Single.zero = Single.zero := by
  cases e <;> decide +kernel

end Element

namespace Buffer

@[simp] theorem size_ofSingles (e : Element) (values : Array Single) :
    (ofSingles e values).size = values.size := by
  cases e <;> simp [ofSingles, size]

@[simp] theorem element_ofSingles (e : Element) (values : Array Single) :
    (ofSingles e values).element = e := by
  cases e <;> rfl

@[simp] theorem size_toSingles (b : Buffer) : b.toSingles.size = b.size := by
  cases b <;> simp [toSingles, size]

/-- A buffer holds what the casts leave of the values. -/
theorem toSingles_ofSingles (e : Element) (values : Array Single) :
    (ofSingles e values).toSingles = values.map e.cast := by
  cases e with
  | f32 => exact (Array.map_id' values).symm
  | _ => exact Array.map_map

/-- What was read out of a buffer fits its element type. -/
theorem map_cast_toSingles (b : Buffer) : b.toSingles.map b.element.cast = b.toSingles := by
  cases b with
  | f32 v => exact Array.map_id' v
  | f16 v =>
    exact Array.map_map.trans (Array.map_congr_left fun h _ => Half.toSingle_ofSingle_toSingle h)
  | i8 v =>
    exact Array.map_map.trans
      (Array.map_congr_left fun a _ => congrArg ofInt8 (toInt8_ofInt8 a))
  | u8 v =>
    exact Array.map_map.trans
      (Array.map_congr_left fun a _ => congrArg ofUInt8 (toUInt8_ofUInt8 a))

/-- **What has been rounded is not rounded again.** -/
theorem ofSingles_map_cast (e : Element) (values : Array Single) :
    ofSingles e (values.map e.cast) = ofSingles e values := by
  cases e with
  | f32 => exact congrArg Buffer.f32 (Array.map_id' values)
  | f16 =>
    refine congrArg Buffer.f16 (Array.map_map.trans (Array.map_congr_left fun a _ => ?_))
    exact Half.ofSingle_toSingle (Half.isQuiet_ofSingle a)
  | i8 =>
    refine congrArg Buffer.i8 (Array.map_map.trans (Array.map_congr_left fun a _ => ?_))
    exact toInt8_ofInt8 _
  | u8 =>
    refine congrArg Buffer.u8 (Array.map_map.trans (Array.map_congr_left fun a _ => ?_))
    exact toUInt8_ofUInt8 _

end Buffer

end NetPlan
