import NetPlan.Graph.Error

/-!
# Graph/Operand — layouts as the tensors a kernel is asked about

Data formats have a counterpart among the arrangements of kernels.  As weights, a plain data format
is read with the batch as output features and the features as input features.
-/

namespace NetPlan

namespace Format

/-- The arrangement of data in a format. -/
def dataLayout? : Format → Option DataLayout
  | .bfyx => some .bfyx
  | .yxfb => some .yxfb
  | .byxf => some .byxf
  | .fyxb => some .fyxb
  | .bsXBsv16 => some .bsFBsv16
  | .bf8Xy16 => some .bf8Xy16
  | _ => none

/-- The arrangement of weights in a format. -/
def weightLayout? : Format → Option WeightLayout
  | .oiyx | .bfyx => some .oiyx
  | .yxio | .yxfb => some .yxio
  | .oyxi | .byxf => some .oyxi
  | .iyxo | .fyxb => some .iyxo
  | .osIyxOsv16 => some .osIyxOsv16
  | .osIOsv16 => some .osIOsv16
  | .osIsv8Osv8 => some .osIsv8Osv8
  | .iyXsOsXsv2Osv16Ao32 => some .iyXsOsXsv2Osv16Ao32
  | .iyXsOsXsv2Osv8Ao32 => some .iyXsOsXsv2Osv8Ao32
  | _ => none

/-- The format that holds weights in an arrangement; the flat ones are held in four dimensions. -/
def ofWeightLayout : WeightLayout → Format
  | .oi | .oiyx => .oiyx
  | .io | .iyxo => .iyxo
  | .oyxi => .oyxi
  | .yxio => .yxio
  | .osIyxOsv16 => .osIyxOsv16
  | .osIOsv16 => .osIOsv16
  | .osIsv8Osv8 => .osIsv8Osv8
  | .iyXsOsXsv2Osv16Ao32 => .iyXsOsXsv2Osv16Ao32
  | .iyXsOsXsv2Osv8Ao32 => .iyXsOsXsv2Osv8Ao32

/-- The arrangement of weights in a format, or why there is none. -/
def weightLayout (f : Format) : Except PrimitiveProblem WeightLayout :=
  match f.weightLayout? with
  | some l => .ok l
  | none => .error (.notWeightFormat f)

end Format

/-- The weight type with the same elements, or why there is none. -/
def Element.weightElement (e : Element) : Except PrimitiveProblem WeightElement :=
  match WeightElement.ofElement? e with
  | some w => .ok w
  | none => .error (.notWeightElement e)

namespace Layout

/-- A buffer as data. -/
def dataTensor (l : Layout) : Except PrimitiveProblem DataTensor :=
  match l.format.dataLayout? with
  | some d => .ok ⟨l.element, d, l.size, l.padding⟩
  | none => .error (.notDataFormat l.format)

/-- A buffer as weights. -/
def weightTensor (l : Layout) : Except PrimitiveProblem WeightTensor :=
  if !l.padding.isNone then .error .paddedWeights
  else do
    let element ← l.element.weightElement
    let layout ← l.format.weightLayout
    return ⟨element, layout, l.size.batch, l.size.feature, l.size.x, l.size.y⟩

/-- The two-dimensional arrangement of a dense buffer, for a fully connected layer. -/
def flatLayout? (l : Layout) : Option DataLayout :=
  if !l.padding.isNone then none
  else match l.format with
    | .bfyx => some .bf
    | .yxfb => some .fb
    | _ => none

/-- The input of a fully connected layer, flattened if it is dense. -/
def flatInput (l : Layout) : Except PrimitiveProblem DataTensor :=
  match l.flatLayout? with
  | some d =>
    .ok (DataTensor.dense l.element d ⟨l.size.batch, l.size.feature * l.size.x * l.size.y, 1, 1⟩)
  | none => l.dataTensor

/-- The output of a fully connected layer, its plane dropped if it is dense. -/
def flatOutput (l : Layout) : Except PrimitiveProblem DataTensor :=
  match l.flatLayout? with
  | some d => .ok (DataTensor.dense l.element d ⟨l.size.batch, l.size.feature, 1, 1⟩)
  | none => l.dataTensor

/-- The biases of all groups as one vector over the features. -/
def biasTensor? : List Layout → Option DataTensor
  | [] => none
  | first :: rest =>
    some (DataTensor.dense first.element .bf ⟨1, ((first :: rest).map count).foldr (· + ·) 0, 1, 1⟩)

end Layout

end NetPlan
