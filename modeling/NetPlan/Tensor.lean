import NetPlan.Shape

/-!
# Tensor — buffers as a kernel sees them

A data tensor is an element type, a memory arrangement, a shape and a padding; pitches and offsets
follow from the arrangement.  A weight tensor has output and input features and a window, and no
padding.
-/

namespace NetPlan

/-- Element type of a buffer. -/
inductive Element where
  | f16
  | f32
  | i8
  | u8
  deriving DecidableEq, Inhabited

namespace Element

/-- The size of an element. -/
def bytes : Element → Nat
  | .f16 => 2
  | .f32 => 4
  | .i8 => 1
  | .u8 => 1

/-- Name in a graph. -/
def name : Element → String
  | .f16 => "F16"
  | .f32 => "F32"
  | .i8 => "I8"
  | .u8 => "U8"

/-- Name towards a kernel. -/
def kernelName : Element → String
  | .f16 => "F16"
  | .f32 => "F32"
  | .i8 => "Int8"
  | .u8 => "Uint8"

/-- Name inside kernel source. -/
def sourceName : Element → String
  | .f16 => "f16"
  | .f32 => "f32"
  | .i8 => "int8"
  | .u8 => "uint8"

end Element

instance : Named Element := ⟨[.f16, .f32, .i8, .u8], Element.name⟩

/-- Element type of weights. -/
inductive WeightElement where
  | f16
  | f32
  | i8
  deriving DecidableEq, Inhabited

namespace WeightElement

/-- The weight type with the same elements, if there is one. -/
def ofElement? : Element → Option WeightElement
  | .f16 => some .f16
  | .f32 => some .f32
  | .i8 => some .i8
  | .u8 => none

/-- The element type with the same values. -/
def toElement : WeightElement → Element
  | .f16 => .f16
  | .f32 => .f32
  | .i8 => .i8

/-- The type as kernel names spell it. -/
def kernelName (w : WeightElement) : String := w.toElement.kernelName

/-- The type as kernel sources spell it. -/
def sourceName (w : WeightElement) : String := w.toElement.sourceName

end WeightElement

instance : Named WeightElement := ⟨[.f16, .f32, .i8], WeightElement.kernelName⟩

/-- Memory arrangement of data. -/
inductive DataLayout where
  | bf
  | fb
  | bfyx
  | yxfb
  | byxf
  | fyxb
  | bsFBsv16
  | bf8Xy16
  deriving DecidableEq, Inhabited

namespace DataLayout

/-- Every arrangement of data. -/
def all : List DataLayout := [.bf, .fb, .bfyx, .yxfb, .byxf, .fyxb, .bsFBsv16, .bf8Xy16]

/-- Axes from the innermost, of unit pitch, to the outermost. -/
def order : DataLayout → List Axis
  | .bf | .bfyx | .bf8Xy16 => [.x, .y, .feature, .batch]
  | .fb | .yxfb | .bsFBsv16 => [.batch, .feature, .x, .y]
  | .byxf => [.feature, .x, .y, .batch]
  | .fyxb => [.batch, .x, .y, .feature]

/-- Arrangements without spatial axes. -/
def isFlat : DataLayout → Bool
  | .bf | .fb | .bsFBsv16 => true
  | _ => false

/-- The arrangement as texts spell it. -/
def name : DataLayout → String
  | .bf => "Bf"
  | .fb => "Fb"
  | .bfyx => "Bfyx"
  | .yxfb => "Yxfb"
  | .byxf => "Byxf"
  | .fyxb => "Fyxb"
  | .bsFBsv16 => "BsFBsv16"
  | .bf8Xy16 => "Bf8Xy16"

end DataLayout

instance : Named DataLayout := ⟨DataLayout.all, DataLayout.name⟩

/-- Memory arrangement of weights. -/
inductive WeightLayout where
  | oi
  | io
  | oiyx
  | oyxi
  | iyxo
  | yxio
  | osIyxOsv16
  | osIOsv16
  | osIsv8Osv8
  | iyXsOsXsv2Osv16Ao32
  | iyXsOsXsv2Osv8Ao32
  deriving DecidableEq, Inhabited

namespace WeightLayout

/-- Every arrangement of weights. -/
def all : List WeightLayout :=
  [.oi, .io, .oiyx, .oyxi, .iyxo, .yxio, .osIyxOsv16, .osIOsv16, .osIsv8Osv8,
    .iyXsOsXsv2Osv16Ao32, .iyXsOsXsv2Osv8Ao32]

/-- The arrangement as texts spell it. -/
def name : WeightLayout → String
  | .oi => "Oi"
  | .io => "Io"
  | .oiyx => "Oiyx"
  | .oyxi => "Oyxi"
  | .iyxo => "Iyxo"
  | .yxio => "Yxio"
  | .osIyxOsv16 => "OsIyxOsv16"
  | .osIOsv16 => "OsIOsv16"
  | .osIsv8Osv8 => "OsIsv8Osv8"
  | .iyXsOsXsv2Osv16Ao32 => "IyXsOsXsv2Osv16Ao32"
  | .iyXsOsXsv2Osv8Ao32 => "IyXsOsXsv2Osv8Ao32"

end WeightLayout

instance : Named WeightLayout := ⟨WeightLayout.all, WeightLayout.name⟩

/-- A data buffer towards a kernel. -/
structure DataTensor where
  element : Element
  layout : DataLayout
  size : Shape
  padding : Padding
  deriving DecidableEq, Inhabited

namespace DataTensor

/-- A tensor without padding. -/
def dense (element : Element) (layout : DataLayout) (size : Shape) : DataTensor :=
  ⟨element, layout, size, Padding.none⟩

/-- The number of elements along an axis. -/
def extent (t : DataTensor) (a : Axis) : Nat := t.size.get a

/-- Extent along an axis, both edges included. -/
def paddedExtent (t : DataTensor) (a : Axis) : Nat := t.size.get a + t.padding.total a

/-- Distance in elements between neighbours along an axis: the padded extents of all axes inside
it, multiplied. -/
def pitch (t : DataTensor) (a : Axis) : Nat :=
  (t.layout.order.takeWhile (· ≠ a)).foldl (fun p b => p * t.paddedExtent b) 1

/-- Number of elements. -/
def count (t : DataTensor) : Nat := t.size.count

/-- Number of elements the buffer holds, padding included. -/
def bufferCount (t : DataTensor) : Nat :=
  t.paddedExtent .x * t.paddedExtent .y * t.paddedExtent .feature * t.paddedExtent .batch

/-- Position of the first element in the padded buffer. -/
def offset (t : DataTensor) : Nat :=
  t.padding.lower.x * t.pitch .x + t.padding.lower.y * t.pitch .y
    + t.padding.lower.feature * t.pitch .feature + t.padding.lower.batch * t.pitch .batch

/-- Whether there is padding along any axis. -/
def isPadded (t : DataTensor) : Bool := !t.padding.isNone

/-- Whether the spatial plane is a single element. -/
def isSpatiallyFlat (t : DataTensor) : Bool := t.size.x == 1 && t.size.y == 1

end DataTensor

/-- Weights of a convolution or a fully connected layer. -/
structure WeightTensor where
  element : WeightElement
  layout : WeightLayout
  outputs : Nat
  inputs : Nat
  x : Nat
  y : Nat
  deriving DecidableEq, Inhabited

namespace WeightTensor

/-- The number of weights. -/
def count (w : WeightTensor) : Nat := w.outputs * w.inputs * w.x * w.y

end WeightTensor

end NetPlan
