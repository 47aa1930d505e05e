import NetPlan.Graph.Error
import NetPlan.Host.Buffer

/-!
# Host/Tensor — dense tensors and the buffers that hold them

A host tensor lists its values in the order batch, feature, y, x.  `unpack` reads one out of a
buffer of any known layout, `pack` writes one into a buffer whose other elements are zero.  An index
is computed from the coordinates as they are: a coordinate beyond its axis may still be the index of
another element, and an index beyond the values is a fault.
-/

namespace NetPlan

/-- Why there is no value. -/
inductive EvalError where
  | failed (reason : String)
  | fault (f : Fault)
  deriving DecidableEq

/-- Every position of a shape, in the order of a dense tensor. -/
def Coord.all (s : Shape) : List Coord :=
  (List.range s.batch).flatMap fun b =>
    (List.range s.feature).flatMap fun f =>
      (List.range s.y).flatMap fun y =>
        (List.range s.x).map fun x => ⟨b, f, x, y⟩

/-- The coordinate along one axis replaced. -/
def Coord.set (c : Coord) (a : Axis) (i : Nat) : Coord :=
  match a with
  | .x => { c with x := i }
  | .y => { c with y := i }
  | .feature => { c with f := i }
  | .batch => { c with b := i }

/-- The coordinates as messages show them. -/
def Coord.text (c : Coord) : String :=
  Text.tuple [toString c.b, toString c.f, toString c.x, toString c.y]

/-- A tensor of single-precision values. -/
structure HostTensor where
  size : Shape
  values : Array Single
  deriving DecidableEq

namespace HostTensor

/-- A tensor of zeros. -/
def zeros (size : Shape) : HostTensor := ⟨size, Array.replicate size.count Single.zero⟩

/-- Index of a position in a dense tensor. -/
def index (size : Shape) (c : Coord) : Nat :=
  ((c.b * size.feature + c.f) * size.y + c.y) * size.x + c.x

/-- The value at a coordinate; outside the tensor the evaluation breaks off. -/
def get (t : HostTensor) (c : Coord) : Except EvalError Single :=
  match t.values[index t.size c]? with
  | some v => .ok v
  | none => .error (.fault .outsideTensor)

/-- The coordinate along an axis, where an axis of extent one repeats its only element. -/
def pick (i extent : Nat) : Nat := if extent = 1 then 0 else i

/-- The value at a coordinate, along axes of one element the only one. -/
def getBroadcast (t : HostTensor) (c : Coord) : Except EvalError Single :=
  t.get ⟨pick c.b t.size.batch, pick c.f t.size.feature, pick c.x t.size.x, pick c.y t.size.y⟩

/-- The tensor with another value at a coordinate. -/
def set (t : HostTensor) (c : Coord) (v : Single) : Except EvalError HostTensor :=
  if h : index t.size c < t.values.size then
    .ok { t with values := t.values.set (index t.size c) v h }
  else .error (.fault .outsideTensor)

/-- The tensor whose value at each position a function gives. -/
def tabulate (size : Shape) (f : Coord → Except EvalError Single) :
    Except EvalError HostTensor := do
  let values ← (Coord.all size).mapM f
  return ⟨size, values.toArray⟩

/-- The tensor with a function applied to every value. -/
def mapM (t : HostTensor) (f : Single → Except EvalError Single) : Except EvalError HostTensor := do
  let values ← t.values.toList.mapM f
  return ⟨t.size, values.toArray⟩

end HostTensor

/-- The last position of a shape that a layout does not place. -/
def Layout.unplaced? (l : Layout) : Option Coord :=
  ((Coord.all l.size).filter fun c => (l.offset? c).isNone).getLast?

/-- The failure of a layout that does not place a position. -/
def unplacedError (l : Layout) (c : Coord) : EvalError :=
  .failed s!"{l.format.name} does not place element {c.text} on the host"

/-- The element of a buffer at a position. -/
def readAt (raw : Array Single) (offset : Option Nat) : Except EvalError Single :=
  match offset with
  | none => .error (.fault .outsideTensor)
  | some i =>
    match raw[i]? with
    | some v => .ok v
    | none => .error (.fault .outsideTensor)

/-- Writes the element of a buffer at a position. -/
def writeAt (raw : Array Single) (offset : Option Nat) (v : Single) :
    Except EvalError (Array Single) :=
  match offset with
  | none => .error (.fault .outsideTensor)
  | some i => if h : i < raw.size then .ok (raw.set i v h) else .error (.fault .outsideTensor)

/-- The logical elements of a buffer. -/
def unpack (l : Layout) (b : Buffer) : Except EvalError HostTensor := do
  if b.size ≠ l.bufferSize then
    .error (.failed
      s!"buffer holds {b.size} elements, layout {l.format.name} needs {l.bufferSize}")
  else match l.unplaced? with
    | some c => .error (unplacedError l c)
    | none =>
      let raw := b.toSingles
      HostTensor.tabulate l.size fun c => readAt raw (l.offset? c)

/-- A buffer with the given logical elements, zero elsewhere. -/
def pack (t : HostTensor) (l : Layout) : Except EvalError Buffer := do
  if t.size ≠ l.size then
    .error (.failed s!"tensor of {t.size.text} cannot fill layout of {l.size.text}")
  else match l.unplaced? with
    | some c => .error (unplacedError l c)
    | none =>
      let raw ← (Coord.all l.size).foldlM (fun raw c => do writeAt raw (l.offset? c) (← t.get c))
        (Array.replicate l.bufferSize Single.zero)
      return Buffer.ofSingles l.element raw

/-! ## In machine words

Beside the buffer and the tensor, both ways need an array of single-precision values, as long as the
buffer. -/

/-- As `unpack`, where the sizes are those of arrays. -/
def unpack? (l : Layout) (b : Buffer) : Option (Except EvalError HostTensor) := do
  let size ← l.bufferSize?
  if b.size = size then
    guard (Machine.canHold size 4)
    let _ ← l.count?
  return unpack l b

/-- As `pack`, where the sizes are those of arrays. -/
def pack? (t : HostTensor) (l : Layout) : Option (Except EvalError Buffer) := do
  if t.size = l.size then
    guard (Machine.canHold (← l.bufferSize?) 4)
  return pack t l

end NetPlan
