/-!
# Kernel/WorkGroups — launch sizes

A launch has a global size and a group size on three axes.  `optimalGroup` picks group sizes axis
by axis: the greatest listed size that divides the global size and keeps the product within the
limit of a work group.
-/

namespace NetPlan.Kernel

/-- One size per launch axis. -/
structure Grid where
  d0 : Nat
  d1 : Nat
  d2 : Nat
  deriving DecidableEq, Inhabited

namespace Grid

/-- The extents, the first one first. -/
def toList (g : Grid) : List Nat := [g.d0, g.d1, g.d2]

/-- Number of points. -/
def volume (g : Grid) : Nat := g.d0 * g.d1 * g.d2

end Grid

/-- Global and group size of a launch. -/
structure WorkGroups where
  global : Grid
  group : Grid
  deriving DecidableEq, Inhabited

/-- Quotient rounded up; a zero divisor counts as one. -/
def ceilDiv (n d : Nat) : Nat := (n + (Nat.max d 1 - 1)) / Nat.max d 1

/-- The next multiple; a zero multiple counts as one. -/
def roundUp (n multiple : Nat) : Nat := ceilDiv n multiple * Nat.max multiple 1

/-- Items a work group may hold. -/
def groupLimit : Nat := 256

/-- Group sizes worth trying, greatest first. -/
def groupSizes : List Nat := [256, 224, 192, 160, 128, 96, 64, 32, 16, 8, 7, 6, 5, 4, 3, 2, 1]

/-- The greatest listed size that divides `n` and does not exceed `room`. -/
def pickGroup (room n : Nat) : Nat :=
  ((groupSizes.filter (· ≤ room)).find? (n % · = 0)).getD 1

/-- Group sizes for a global size, the first axes served first. -/
def optimalGroup (g : Grid) : Grid :=
  let p0 := pickGroup groupLimit g.d0
  let p1 := pickGroup (groupLimit / p0) g.d1
  let p2 := pickGroup (groupLimit / (p0 * p1)) g.d2
  ⟨p0, p1, p2⟩

/-- Greatest divisor of `n` that is at most `d + 1`. -/
def greatestDivisorUpTo (n : Nat) : Nat → Nat
  | 0 => 1
  | d + 1 => if n % (d + 2) = 0 then d + 2 else greatestDivisorUpTo n d

/-- Greatest divisor of a size that is at most 32; a zero size has group size one. -/
def divisorUpTo32 (n : Nat) : Nat := greatestDivisorUpTo n (Nat.min (Nat.max n 1) 32 - 1)

namespace WorkGroups

/-- A global size with its optimal group size. -/
def optimal (d0 d1 d2 : Nat) : WorkGroups :=
  let global : Grid := ⟨d0, d1, d2⟩
  ⟨global, optimalGroup global⟩

/-- Whether every axis is a positive number of whole groups. -/
def partitions (w : WorkGroups) : Bool :=
  (w.global.toList.zip w.group.toList).all fun (g, l) => g ≠ 0 && l ≠ 0 && g % l = 0

end WorkGroups

end NetPlan.Kernel
