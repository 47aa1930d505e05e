import NetPlan.Tensor

/-!
# Graph/Layout — memory layouts of node outputs

A layout is an element type, a memory format, a shape and a padding.  Weights use the same shape,
with output features on the batch axis and input features on the feature axis.  `offset?` places
every logical element in the buffer, for the formats whose placement is known.
-/

namespace NetPlan

/-- Memory format of a buffer. -/
inductive Format where
  | bfyx
  | yxfb
  | byxf
  | fyxb
  /-- Batch in blocks of 16 over the flattened other axes. -/
  | bsXBsv16
  /-- Batch and the flattened other axes both in blocks of 8. -/
  | bsXsXsv8Bsv8
  /-- Features in blocks of 8, the plane in blocks of 16. -/
  | bf8Xy16
  | oiyx
  | oyxi
  | iyxo
  | yxio
  | osIyxOsv16
  /-- Output features in blocks of 16 over the flattened other axes. -/
  | osIOsv16
  /-- Output features and the flattened other axes both in blocks of 8. -/
  | osIsv8Osv8
  | iyXsOsXsv2Osv16Ao32
  | iyXsOsXsv2Osv8Ao32
  deriving DecidableEq, Inhabited

namespace Format

/-- Every format, those for data first. -/
def all : List Format :=
  [.bfyx, .yxfb, .byxf, .fyxb, .bsXBsv16, .bsXsXsv8Bsv8, .bf8Xy16, .oiyx, .oyxi, .iyxo, .yxio,
    .osIyxOsv16, .osIOsv16, .osIsv8Osv8, .iyXsOsXsv2Osv16Ao32, .iyXsOsXsv2Osv8Ao32]

/-- The format as dumps spell it. -/
def name : Format → String
  | .bfyx => "Bfyx"
  | .yxfb => "Yxfb"
  | .byxf => "Byxf"
  | .fyxb => "Fyxb"
  | .bsXBsv16 => "BsXBsv16"
  | .bsXsXsv8Bsv8 => "BsXsXsv8Bsv8"
  | .bf8Xy16 => "Bf8Xy16"
  | .oiyx => "Oiyx"
  | .oyxi => "Oyxi"
  | .iyxo => "Iyxo"
  | .yxio => "Yxio"
  | .osIyxOsv16 => "OsIyxOsv16"
  | .osIOsv16 => "OsIOsv16"
  | .osIsv8Osv8 => "OsIsv8Osv8"
  | .iyXsOsXsv2Osv16Ao32 => "IyXsOsXsv2Osv16Ao32"
  | .iyXsOsXsv2Osv8Ao32 => "IyXsOsXsv2Osv8Ao32"

/-- Whether a format is for weights. -/
def isWeights : Format → Bool
  | .oiyx | .oyxi | .iyxo | .yxio | .osIyxOsv16 | .osIOsv16 | .osIsv8Osv8
  | .iyXsOsXsv2Osv16Ao32 | .iyXsOsXsv2Osv8Ao32 => true
  | _ => false

/-- Axes from the outermost to the innermost, for formats without blocks. -/
def order? : Format → Option (List Axis)
  | .bfyx | .oiyx => some [.batch, .feature, .y, .x]
  | .yxfb | .yxio => some [.y, .x, .feature, .batch]
  | .byxf | .oyxi => some [.batch, .y, .x, .feature]
  | .fyxb | .iyxo => some [.feature, .y, .x, .batch]
  | _ => none

/-- Whether elements are stored in blocks, so that no order of the axes tells their places. -/
def isBlocked (f : Format) : Bool := f.order?.isNone

end Format

instance : Named Format := ⟨Format.all, Format.name⟩

/-- How a node's output lies in memory. -/
structure Layout where
  element : Element
  format : Format
  size : Shape
  padding : Padding
  deriving DecidableEq, Inhabited

/-- A position in a tensor. -/
structure Coord where
  b : Nat
  f : Nat
  x : Nat
  y : Nat
  deriving DecidableEq, Inhabited

namespace Coord

/-- The index along an axis. -/
def get (c : Coord) : Axis → Nat
  | .x => c.x
  | .y => c.y
  | .feature => c.f
  | .batch => c.b

/-- Whether the position lies inside a shape. -/
def inside (c : Coord) (s : Shape) : Bool :=
  c.b < s.batch && c.f < s.feature && c.x < s.x && c.y < s.y

end Coord

namespace Layout

/-- A layout without padding. -/
def dense (element : Element) (format : Format) (size : Shape) : Layout :=
  ⟨element, format, size, Padding.none⟩

/-- The layout with another padding. -/
def withPadding (l : Layout) (p : Padding) : Layout := { l with padding := p }

/-- Number of logical elements. -/
def count (l : Layout) : Nat := l.size.count

/-- The size with the padding before and after. -/
def paddedSize (l : Layout) : Shape := (l.size.add l.padding.lower).add l.padding.upper

/-- Same element type, format and shape, whatever the padding. -/
def sameData (l m : Layout) : Bool :=
  l.element = m.element ∧ l.format = m.format ∧ l.size = m.size

/-- The next multiple of a positive block size. -/
def blockUp (n block : Nat) : Nat := (n + (block - 1)) / block * block

/-- Elements the buffer holds, padding and the tails of blocks included. -/
def bufferSize (l : Layout) : Nat :=
  let s := l.size
  match l.format with
  | .osIyxOsv16 | .bsXBsv16 | .osIOsv16 => blockUp s.batch 16 * s.feature * s.x * s.y
  | .bsXsXsv8Bsv8 | .osIsv8Osv8 => blockUp s.batch 8 * blockUp (s.feature * s.x * s.y) 8
  | .bf8Xy16 => s.batch * blockUp s.feature 8 * blockUp (s.x * s.y) 16
  | .iyXsOsXsv2Osv16Ao32 | .iyXsOsXsv2Osv8Ao32 =>
    blockUp s.batch 32 * s.feature * blockUp s.x 2 * s.y
  | _ => l.paddedSize.count

/-- Position of a logical element in a plain format: the padded index along each axis, outermost
first. -/
def plainOffset (l : Layout) (order : List Axis) (c : Coord) : Nat :=
  order.foldl
    (fun offset a => offset * l.paddedSize.get a + (c.get a + l.padding.lower.get a)) 0

/-- Position of a logical element in a blocked format without padding. -/
def blockedOffset? (l : Layout) (c : Coord) : Option Nat :=
  let s := l.size
  let flat := (c.f * s.y + c.y) * s.x + c.x
  let flatSize := s.feature * s.y * s.x
  match l.format with
  | .osIyxOsv16 | .bsXBsv16 | .osIOsv16 => some ((c.b / 16 * flatSize + flat) * 16 + c.b % 16)
  | .bsXsXsv8Bsv8 | .osIsv8Osv8 =>
    let flatBlocks := blockUp flatSize 8 / 8
    some (((c.b / 8 * flatBlocks + flat / 8) * 8 + flat % 8) * 8 + c.b % 8)
  | _ => none

/-- Position of a logical element in the buffer; `none` outside the shape, and for formats whose
placement is not known. -/
def offset? (l : Layout) (c : Coord) : Option Nat :=
  if !c.inside l.size then none
  else match l.format.order? with
    | some order => some (l.plainOffset order c)
    | none => if l.padding.isNone then l.blockedOffset? c else none

/-- Whether every logical element has a known position. -/
def isAddressable (l : Layout) : Bool := l.count == 0 || (l.offset? ⟨0, 0, 0, 0⟩).isSome

/-! ### In machine words

The same in machine words, step by step; there is no result where a step leaves them. -/

/-- The number of elements, if it is a machine word. -/
def count? (l : Layout) : Option Nat := l.size.count?

/-- The size with padding, if it can be told in machine words. -/
def paddedSize? (l : Layout) : Option Shape := do
  (← l.size.add? l.padding.lower).add? l.padding.upper

/-- A number rounded up to whole blocks, if that is a machine word. -/
def blockUp? (n block : Nat) : Option Nat := Machine.mul? ((n + (block - 1)) / block) block

/-- The length of the buffer as it is counted in machine words; there is none where a step leaves
these. -/
def bufferSize? (l : Layout) : Option Nat := do
  let s := l.size
  match l.format with
  | .osIyxOsv16 | .bsXBsv16 | .osIOsv16 =>
    let planes ← Machine.mul? (← blockUp? s.batch 16) s.feature
    Machine.mul? (← Machine.mul? planes s.x) s.y
  | .bsXsXsv8Bsv8 | .osIsv8Osv8 =>
    let batches ← blockUp? s.batch 8
    let flat ← Machine.mul? (← Machine.mul? s.feature s.x) s.y
    Machine.mul? batches (← blockUp? flat 8)
  | .bf8Xy16 =>
    let planes ← Machine.mul? s.batch (← blockUp? s.feature 8)
    Machine.mul? planes (← blockUp? (← Machine.mul? s.x s.y) 16)
  | .iyXsOsXsv2Osv16Ao32 | .iyXsOsXsv2Osv8Ao32 =>
    let planes ← Machine.mul? (← blockUp? s.batch 32) s.feature
    Machine.mul? (← Machine.mul? planes (← blockUp? s.x 2)) s.y
  | _ => (← l.paddedSize?).count?

/-- The place of an element in a format without blocks, counted in machine words. -/
def plainOffset? (l : Layout) (order : List Axis) (c : Coord) : Option Nat := do
  let padded ← l.paddedSize?
  order.foldlM
    (fun offset a => do
      let before ← Machine.mul? offset (padded.get a)
      Machine.add? before (← Machine.add? (c.get a) (l.padding.lower.get a)))
    0

/-- The position in a blocked format, if there is one: it is computed for every blocked format. -/
def blockedPlace? (l : Layout) (c : Coord) : Option (Option Nat) := do
  let s := l.size
  let row ← Machine.add? (← Machine.mul? c.f s.y) c.y
  let flat ← Machine.add? (← Machine.mul? row s.x) c.x
  let flatSize ← Machine.mul? (← Machine.mul? s.feature s.y) s.x
  match l.format with
  | .osIyxOsv16 | .bsXBsv16 | .osIOsv16 =>
    let group ← Machine.add? (← Machine.mul? (c.b / 16) flatSize) flat
    return some (← Machine.add? (← Machine.mul? group 16) (c.b % 16))
  | .bsXsXsv8Bsv8 | .osIsv8Osv8 =>
    let flatBlocks := (← blockUp? flatSize 8) / 8
    let group ← Machine.add? (← Machine.mul? (c.b / 8) flatBlocks) (flat / 8)
    let item ← Machine.add? (← Machine.mul? group 8) (flat % 8)
    return some (← Machine.add? (← Machine.mul? item 8) (c.b % 8))
  | _ => return none

/-- The position of a logical element, if it has one. -/
def place? (l : Layout) (c : Coord) : Option (Option Nat) :=
  if !c.inside l.size then some none
  else match l.format.order? with
    | some order => (l.plainOffset? order c).map some
    | none => if l.padding.isNone then l.blockedPlace? c else some none

/-- Whether the first element of a buffer has a place; a buffer of no elements needs none. -/
def addressable? (l : Layout) : Option Bool := do
  if (← l.count?) = 0 then return true
  return (← l.place? ⟨0, 0, 0, 0⟩).isSome

end Layout

end NetPlan
