import NetPlan.Half
import NetPlan.Hash
import NetPlan.Tensor
import NetPlan.Text.Quoted

/-!
# Host/Buffer — typed buffer contents

A buffer holds elements of one type.  `ofSingles` converts single-precision values to a type,
integers rounded to nearest and clamped, and `toSingles` reads them back.
-/

namespace NetPlan

/-- Contents of a buffer. -/
inductive Buffer where
  | f32 (values : Array Single)
  | f16 (values : Array Half)
  | i8 (values : Array Int8)
  | u8 (values : Array UInt8)
  deriving DecidableEq, Inhabited

namespace Buffer

/-- The type of the values. -/
def element : Buffer → Element
  | .f32 _ => .f32
  | .f16 _ => .f16
  | .i8 _ => .i8
  | .u8 _ => .u8

/-- The number of values. -/
def size : Buffer → Nat
  | .f32 v => v.size
  | .f16 v => v.size
  | .i8 v => v.size
  | .u8 v => v.size

/-- A value as a signed byte. -/
def toInt8 (a : Single) : Int8 := Int8.ofInt (a.toIntClamped (-128) 127)

/-- A value as an unsigned byte. -/
def toUInt8 (a : Single) : UInt8 := UInt8.ofNat (a.toIntClamped 0 255).toNat

/-- The value of a signed byte. -/
def ofInt8 (v : Int8) : Single :=
  if v.toInt < 0 then (Single.ofNat v.toInt.natAbs).neg else Single.ofNat v.toInt.natAbs

/-- The value of an unsigned byte. -/
def ofUInt8 (v : UInt8) : Single := Single.ofNat v.toNat

/-- Single-precision values of a buffer. -/
def toSingles : Buffer → Array Single
  | .f32 v => v
  | .f16 v => v.map Half.toSingle
  | .i8 v => v.map ofInt8
  | .u8 v => v.map ofUInt8

/-- A buffer of an element type with given values. -/
def ofSingles (element : Element) (values : Array Single) : Buffer :=
  match element with
  | .f32 => .f32 values
  | .f16 => .f16 (values.map Half.ofSingle)
  | .i8 => .i8 (values.map toInt8)
  | .u8 => .u8 (values.map toUInt8)

/-- The elements as text: integers in decimal, other numbers by the hexadecimal digits of their
bits. -/
def texts : Buffer → List String
  | .f32 v => v.toList.map fun a => if a.isNaN then "nan" else Text.hexPadded 8 a.bits.toNat
  | .f16 v => v.toList.map fun h => if h.isNaN then "nan" else Text.hexPadded 4 h.bits.toNat
  | .i8 v => v.toList.map fun i => toString i.toInt
  | .u8 v => v.toList.map fun i => toString i.toNat

/-- Hash of the elements as text. -/
def digest (b : Buffer) : String := Hash.digest (Hash.fnv1a (Hash.utf8 (",".intercalate b.texts)))

end Buffer

end NetPlan
