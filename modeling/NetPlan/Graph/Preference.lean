import NetPlan.Graph.Error

/-!
# Graph/Preference — the layouts that kernels prefer

A node has a preferred layout for what it reads, by its kind and the role of the buffer.  Where a
buffer is laid out otherwise, a reorder is made for it, one per source and target layout, which
every later request for the same is answered with.
-/

namespace NetPlan

/-- The answer to a request for a layout. -/
inductive ReorderChoice where
  /-- The buffer already has the layout. -/
  | notNeeded
  /-- A reorder that was made before; it may already be in the graph. -/
  | cached (reorder : Primitive)
  /-- A reorder that is still to be inserted. -/
  | new (reorder : Primitive)
  deriving DecidableEq

/-- What the preferences depend on, and the reorders made so far. -/
structure Preferences where
  /-- Whether there are convolutions in groups. -/
  grouped : Bool
  /-- Reorders by source and target layout. -/
  made : List ((String × Layout) × Primitive)

namespace Preferences

/-- No convolution in groups seen, no reorder made. -/
def initial : Preferences := ⟨false, []⟩

/-- The preferred format for a buffer, where the consumer's output has an element type and a
batch. -/
def format? (p : Preferences) (role : Role) (kind : OpKind) (element : Element) (batch : Nat) :
    Option Format :=
  let largeHalfBatch := element = .f16 && batch ≥ 32 && p.grouped
  match role, kind with
  | .bias, _ => some .bfyx
  | .input, .convolution | .input, .fusedConvBnScale =>
    some (if largeHalfBatch then .yxfb else .bfyx)
  | .weights, .convolution | .weights, .fusedConvBnScale =>
    some (if largeHalfBatch then .yxio else .osIyxOsv16)
  | .weights, .fullyConnected =>
    some
      (if batch > 1 && element ≠ .f16 && batch % 8 = 0 then .osIsv8Osv8
      else if batch = 1 then .osIOsv16
      else .yxio)
  | _, _ => none

/-- The preferred layout for a buffer.  The rules look at the consumer's output; an input of the
consumer can stand in for it. -/
def expected (p : Preferences) (current : Layout) (role : Role) (kind : OpKind)
    (consumer : Option Layout) : Except CompileError Layout := do
  let guide ←
    match consumer with
    | some output => pure output
    | none =>
      if role = .input then pure current
      else .error (.invalidGraph (.consumerUnknown role kind))
  if role = .input && kind = .fullyConnected then
    return current
  match p.format? role kind guide.element guide.size.batch with
  | some format => return Layout.dense guide.element format current.size
  | none => .error (.invalidGraph (.noLayoutRule role kind))

/-- The reorder made for a source and a target layout. -/
def find? (p : Preferences) (source : String) (target : Layout) : Option Primitive :=
  p.made.lookup (source, target)

/-- Asks for a buffer in a target layout. -/
def reorder (p : Preferences) (source : String) (current target : Layout) :
    ReorderChoice × Preferences :=
  if current = target then (.notNeeded, p)
  else match p.find? source target with
    | some r => (.cached r, p)
    | none =>
      let id := s!"reorder_{p.made.length}_{source}"
      let r := Primitive.reorder id source target target.padding
      (.new r, { p with made := p.made ++ [((source, target), r)] })

/-- Gives the first reorder of one id another. -/
def renameIn (old new : String) :
    List ((String × Layout) × Primitive) → List ((String × Layout) × Primitive)
  | [] => []
  | (key, r) :: rest =>
    if r.id = old then (key, { r with id := new }) :: rest else (key, r) :: renameIn old new rest

/-- Gives a reorder the id under which it was inserted. -/
def rename (p : Preferences) (old new : String) : Preferences :=
  { p with made := renameIn old new p.made }

/-- Asks for a buffer in the preferred layout. -/
def request (p : Preferences) (source : String) (current : Layout) (role : Role) (kind : OpKind)
    (consumer : Option Layout) : Except CompileError (ReorderChoice × Preferences) := do
  return p.reorder source current (← p.expected current role kind consumer)

end Preferences

end NetPlan
