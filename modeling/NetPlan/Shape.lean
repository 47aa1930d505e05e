import NetPlan.Machine
import NetPlan.Text.Named
import NetPlan.Text.Quoted

/-!
# Shape — extents and paddings along the four axes

A tensor has a batch, a feature and two spatial axes.  `Shape` gives one amount per axis, `Padding`
the amounts before and after the data, `Planar` an amount per spatial axis.
-/

namespace NetPlan

/-- The axes of a tensor. -/
inductive Axis where
  | x
  | y
  | feature
  | batch
  deriving DecidableEq, Inhabited

/-- The axis as texts spell it. -/
def Axis.name : Axis → String
  | .x => "X"
  | .y => "Y"
  | .feature => "Feature"
  | .batch => "Batch"

instance : Named Axis := ⟨[.x, .y, .feature, .batch], Axis.name⟩

/-- One amount per axis. -/
structure Shape where
  batch : Nat
  feature : Nat
  x : Nat
  y : Nat
  deriving DecidableEq, Inhabited

namespace Shape

/-- No extent along any axis. -/
def zero : Shape := ⟨0, 0, 0, 0⟩

/-- The amount along an axis. -/
def get (s : Shape) : Axis → Nat
  | .x => s.x
  | .y => s.y
  | .feature => s.feature
  | .batch => s.batch

/-- The shape with another amount along one axis. -/
def set (s : Shape) (a : Axis) (n : Nat) : Shape :=
  match a with
  | .x => { s with x := n }
  | .y => { s with y := n }
  | .feature => { s with feature := n }
  | .batch => { s with batch := n }

/-- Number of elements. -/
def count (s : Shape) : Nat := s.batch * s.feature * s.x * s.y

/-- Number of elements, counted axis by axis in machine words. -/
def count? (s : Shape) : Option Nat := do
  let planes ← Machine.mul? s.batch s.feature
  let rows ← Machine.mul? planes s.x
  Machine.mul? rows s.y

/-- Axis by axis, both amounts together. -/
def add (s t : Shape) : Shape := ⟨s.batch + t.batch, s.feature + t.feature, s.x + t.x, s.y + t.y⟩

/-- Axis by axis, both amounts together, in machine words. -/
def add? (s t : Shape) : Option Shape := do
  return ⟨← Machine.add? s.batch t.batch, ← Machine.add? s.feature t.feature,
    ← Machine.add? s.x t.x, ← Machine.add? s.y t.y⟩

/-- Axis by axis, the greater amount. -/
def max (s t : Shape) : Shape :=
  ⟨Nat.max s.batch t.batch, Nat.max s.feature t.feature, Nat.max s.x t.x, Nat.max s.y t.y⟩

/-- Whether there is no extent along any axis. -/
def isZero (s : Shape) : Bool := s = zero

/-- The amounts by name, as messages show them. -/
def text (s : Shape) : String :=
  Text.record "Shape"
    [("batch", toString s.batch), ("feature", toString s.feature), ("x", toString s.x),
      ("y", toString s.y)]

end Shape

/-- Amounts before (`lower`) and after (`upper`) the data, per axis. -/
structure Padding where
  lower : Shape
  upper : Shape
  deriving DecidableEq, Inhabited

namespace Padding

/-- No padding. -/
def none : Padding := ⟨Shape.zero, Shape.zero⟩

/-- Padding of the spatial axes only. -/
def spatial (lowerX lowerY upperX upperY : Nat) : Padding :=
  ⟨⟨0, 0, lowerX, lowerY⟩, ⟨0, 0, upperX, upperY⟩⟩

/-- Edge by edge, the greater amount: the least padding that satisfies both. -/
def max (p q : Padding) : Padding := ⟨p.lower.max q.lower, p.upper.max q.upper⟩

/-- Whether there is no padding along any axis. -/
def isNone (p : Padding) : Bool := p.lower.isZero && p.upper.isZero

/-- Both edges of an axis together. -/
def total (p : Padding) (a : Axis) : Nat := p.lower.get a + p.upper.get a

end Padding

/-- One amount per spatial axis. -/
structure Planar where
  x : Nat
  y : Nat
  deriving DecidableEq, Inhabited

namespace Planar

/-- One along both axes. -/
def one : Planar := ⟨1, 1⟩

/-- No position. -/
def zero : Planar := ⟨0, 0⟩

/-- Whether one of the two amounts is zero. -/
def hasZero (p : Planar) : Bool := p.x == 0 || p.y == 0

end Planar

end NetPlan
