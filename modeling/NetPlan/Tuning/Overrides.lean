import NetPlan.Text.Word

/-!
# Tuning/Overrides — kernels forced or denied by name
-/

namespace NetPlan.Tuning

/-- Names that win over any cost, and names that are never chosen. -/
structure Overrides where
  forced : List String
  denied : List String

namespace Overrides

/-- No implementation forced or denied. -/
def none : Overrides := ⟨[], []⟩

/-- Names of a list separated by commas; blanks around a name and empty names do not count. -/
def parseList (text : String) : List String :=
  ((text.splitOn ",").map Text.trim).filter (· ≠ "")

/-- Each name once, in ascending order. -/
def sortedNames (names : List String) : List String :=
  names.eraseDups.mergeSort fun a b => a < b || a == b

/-- Overrides given as two lists of names; a list that is missing is empty. -/
def ofLists (forced denied : Option String) : Overrides :=
  ⟨(forced.map parseList).getD [], (denied.map parseList).getD []⟩

/-- Whether an implementation is forced. -/
def isForced (o : Overrides) (name : String) : Bool := o.forced.contains name

/-- Whether an implementation is denied. -/
def isDenied (o : Overrides) (name : String) : Bool := o.denied.contains name

/-- Whether nothing is forced or denied. -/
def isEmpty (o : Overrides) : Bool := o.forced.isEmpty && o.denied.isEmpty

end Overrides

end NetPlan.Tuning
