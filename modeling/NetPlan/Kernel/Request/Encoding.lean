import NetPlan.Hash
import NetPlan.Kernel.Request

/-!
# Kernel/Request/Encoding — the byte form of work, and its fingerprint

Numbers are eight bytes, tags and single-precision numbers four, both little endian; a list is its
length and its items.  The layer of a request takes no part, so equal layers share a fingerprint.
-/

namespace NetPlan.Kernel

/-- A value has a byte form. -/
class Encode (α : Type) where
  encode : α → List UInt8

export Encode (encode)

/-- The low `width` bytes of a number, lowest first. -/
def littleEndian : Nat → Nat → List UInt8
  | 0, _ => []
  | width + 1, n => (n % 256).toUInt8 :: littleEndian width (n / 256)

/-- A tag: four bytes. -/
def tag (n : Nat) : List UInt8 := littleEndian 4 n

instance : Encode Nat := ⟨littleEndian 8⟩

instance : Encode Single := ⟨fun a => littleEndian 4 a.bits.toNat⟩

instance {α : Type} [Encode α] : Encode (List α) :=
  ⟨fun xs => encode xs.length ++ xs.flatMap encode⟩

instance : Encode Element := ⟨fun
  | .f16 => tag 0
  | .f32 => tag 1
  | .i8 => tag 2
  | .u8 => tag 3⟩

instance : Encode WeightElement := ⟨fun
  | .f16 => tag 0
  | .f32 => tag 1
  | .i8 => tag 2⟩

instance : Encode DataLayout := ⟨fun
  | .bf => tag 0
  | .fb => tag 1
  | .bfyx => tag 2
  | .yxfb => tag 3
  | .byxf => tag 4
  | .fyxb => tag 5
  | .bsFBsv16 => tag 6
  | .bf8Xy16 => tag 7⟩

instance : Encode WeightLayout := ⟨fun
  | .oi => tag 0
  | .io => tag 1
  | .oiyx => tag 2
  | .oyxi => tag 3
  | .iyxo => tag 4
  | .yxio => tag 5
  | .osIyxOsv16 => tag 6
  | .osIOsv16 => tag 7
  | .osIsv8Osv8 => tag 8
  | .iyXsOsXsv2Osv16Ao32 => tag 9
  | .iyXsOsXsv2Osv8Ao32 => tag 10⟩

instance : Encode ActivationFunction := ⟨fun
  | .none => tag 0
  | .logistic => tag 1
  | .hyperbolic => tag 2
  | .relu => tag 3
  | .reluNegativeSlope => tag 4
  | .clamp => tag 5
  | .linear => tag 6
  | .abs => tag 7
  | .sqrt => tag 8
  | .square => tag 9
  | .elu => tag 10⟩

instance : Encode PoolKind := ⟨fun
  | .max => tag 0
  | .average => tag 1⟩

instance : Encode PoolRounding := ⟨fun
  | .floor => tag 0
  | .ceil => tag 1⟩

instance : Encode PoolDivider := ⟨fun
  | .fixed => tag 0
  | .dynamicWithPadding => tag 1⟩

instance : Encode SoftmaxAxis := ⟨fun
  | .x => tag 0
  | .y => tag 1
  | .feature => tag 2⟩

instance : Encode Axis := ⟨fun
  | .x => tag 0
  | .y => tag 1
  | .feature => tag 2
  | .batch => tag 3⟩

instance : Encode EltwiseMode := ⟨fun
  | .sum => tag 0
  | .sub => tag 1
  | .prod => tag 2
  | .max => tag 3
  | .min => tag 4⟩

instance : Encode Planar := ⟨fun p => encode p.x ++ encode p.y⟩

instance : Encode Activation := ⟨fun a => encode a.function ++ encode a.m ++ encode a.n⟩

instance : Encode DataTensor := ⟨fun t =>
  let edges (a : Axis) := encode (t.padding.lower.get a) ++ encode (t.padding.upper.get a)
  encode t.element ++ encode t.layout
    ++ encode t.size.x ++ encode t.size.y ++ encode t.size.feature ++ encode t.size.batch
    ++ edges .x ++ edges .y ++ edges .feature ++ edges .batch⟩

instance : Encode WeightTensor := ⟨fun w =>
  encode w.element ++ encode w.layout
    ++ encode w.outputs ++ encode w.inputs ++ encode w.x ++ encode w.y⟩

instance : Encode Operands := ⟨fun o => encode o.activation ++ encode o.inputs ++ encode o.output⟩

instance : Encode Filter := ⟨fun f => encode f.weights ++ encode f.bias⟩

instance : Encode ConvolutionWork := ⟨fun w =>
  encode w.operands ++ encode w.filter ++ encode w.window ++ encode w.stride ++ encode w.dilation
    ++ encode w.padding ++ encode w.split⟩

instance : Encode FullyConnectedWork := ⟨fun w => encode w.operands ++ encode w.filter⟩

instance : Encode PoolingWork := ⟨fun w =>
  encode w.operands ++ encode w.kind ++ encode w.rounding ++ encode w.divider ++ encode w.window
    ++ encode w.stride ++ encode w.padding⟩

instance : Encode EltwiseWork := ⟨fun w =>
  encode w.operands ++ encode w.mode ++ encode w.coefficients⟩

instance : Encode ReorderWork := ⟨fun w => encode w.operands ++ encode w.subtract⟩

instance : Encode Work := ⟨fun
  | .convolution w => tag 0 ++ encode w
  | .fullyConnected w => tag 1 ++ encode w
  | .pooling w => tag 2 ++ encode w
  | .activation o => tag 3 ++ encode o
  | .eltwise w => tag 4 ++ encode w
  | .reorder w => tag 5 ++ encode w
  | .weightsReorder source target => tag 6 ++ encode source ++ encode target
  | .softmax o axis => tag 7 ++ encode o ++ encode axis
  | .concatenation o axis => tag 8 ++ encode o ++ encode axis
  | .batchNorm o epsilon => tag 9 ++ encode o ++ encode epsilon
  | .scale o => tag 10 ++ encode o
  | .fusedConvBnScale w epsilon => tag 11 ++ encode w ++ encode epsilon⟩

/-- Fingerprint of a request: the digest of its work. -/
def Request.fingerprint (r : Request) : String := Hash.digest (Hash.fnv1a (encode r.work))

end NetPlan.Kernel
