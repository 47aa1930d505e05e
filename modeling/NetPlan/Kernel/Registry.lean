import NetPlan.Kernel.Builtin.Activation
import NetPlan.Kernel.Builtin.Concatenation
import NetPlan.Kernel.Builtin.Convolution.Block
import NetPlan.Kernel.Builtin.Convolution.Depthwise
import NetPlan.Kernel.Builtin.Convolution.Fixed
import NetPlan.Kernel.Builtin.Eltwise
import NetPlan.Kernel.Builtin.FullyConnected
import NetPlan.Kernel.Builtin.Normalization
import NetPlan.Kernel.Builtin.Pooling
import NetPlan.Kernel.Builtin.Reorder
import NetPlan.Kernel.Builtin.Softmax

/-!
# Kernel/Registry — the implementations to choose from

Implementations in the order of their registration, which breaks ties of cost.
-/

namespace NetPlan.Kernel

/-- Implementations, in the order of their registration. -/
structure Registry where
  implementations : List Implementation

namespace Registry

/-- No implementations. -/
def empty : Registry := ⟨[]⟩

open Builtin in
/-- The implementations that come with the library. -/
def builtin : Registry :=
  ⟨[convolutionRef, convolutionBlock, convolutionGemm, convolutionBatch, depthwise,
    fullyConnectedRef, fullyConnectedGemm, fullyConnectedBlock, fullyConnectedSingle,
    poolingRef, poolingAverage, poolingBlock, activationRef, activationOpt, eltwiseRef,
    reorderRef, reorderFast, reorderWeights, softmaxRef, softmaxItems, concatenationRef,
    batchNormRef, scaleRef, fusedRef]⟩

/-- Adds an implementation behind all others. -/
def register (r : Registry) (i : Implementation) : Registry := ⟨r.implementations ++ [i]⟩

/-- The implementations of one kind. -/
def ofKind (r : Registry) (kind : Kind) : List Implementation :=
  r.implementations.filter (·.kind = kind)

/-- The first implementation of a kind with a name. -/
def find? (r : Registry) (kind : Kind) (name : String) : Option Implementation :=
  (r.ofKind kind).find? (·.name = name)

/-- The number of implementations. -/
def size (r : Registry) : Nat := r.implementations.length

/-- Kind and name of every implementation, sorted. -/
def listing (r : Registry) : List (String × String) :=
  (r.implementations.map fun i => (i.kind.name, i.name)).mergeSort fun (k, n) (l, m) =>
    k < l || (k == l && (n < m || n == m))

/-- The listing as text. -/
def text (r : Registry) : String :=
  Text.record "ImplementationRegistry"
    [("implementations",
      Text.bracketed (r.listing.map fun (k, n) => Text.tuple [Text.quoted k, Text.quoted n]))]

end Registry

end NetPlan.Kernel
