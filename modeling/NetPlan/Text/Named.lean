/-!
# Text/Named — finite types whose values have names
-/

namespace NetPlan

/-- A type with a list of its values and a name for each. -/
class Named (α : Type) where
  all : List α
  name : α → String

/-- The value of a name. -/
def Named.ofName? {α : Type} [Named α] (s : String) : Option α :=
  (Named.all : List α).find? fun a => Named.name a = s

end NetPlan
