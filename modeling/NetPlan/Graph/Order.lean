/-!
# Graph/Order — the order in which nodes are processed

An order lists ids without repetition.  Putting an id somewhere moves it there if it is already in
the list.  Positions are recorded by `number` and stay as they were recorded: moving or erasing an
id forgets its own number and nobody else's.
-/

namespace NetPlan

/-- A sequence of ids and the positions last recorded. -/
structure Order where
  ids : List String
  numbers : List (String × Nat)
  deriving DecidableEq, Inhabited

namespace Order

/-- The order of nothing. -/
def empty : Order := ⟨[], []⟩

/-- An order without recorded positions. -/
def ofList (ids : List String) : Order := ⟨ids, []⟩

/-- The number of ids. -/
def length (o : Order) : Nat := o.ids.length

/-- Whether an id is in the order. -/
def contains (o : Order) (id : String) : Bool := o.ids.contains id

/-- The first id. -/
def first? (o : Order) : Option String := o.ids.head?

/-- The last id. -/
def last? (o : Order) : Option String := o.ids.getLast?

/-- The id after the first occurrence of another. -/
def successor? (id : String) : List String → Option String
  | [] => none
  | a :: rest => if a = id then rest.head? else successor? id rest

/-- The id behind another. -/
def next? (o : Order) (id : String) : Option String := successor? id o.ids

/-- The id in front of another. -/
def prev? (o : Order) (id : String) : Option String := successor? id o.ids.reverse

/-- Takes an id out, with its number. -/
def erase (o : Order) (id : String) : Order :=
  ⟨o.ids.filter (· ≠ id), o.numbers.filter (·.1 ≠ id)⟩

/-- Moves an id to the front, or inserts it there. -/
def pushFront (o : Order) (id : String) : Order :=
  { o.erase id with ids := id :: (o.erase id).ids }

/-- Moves an id to the back, or inserts it there. -/
def pushBack (o : Order) (id : String) : Order :=
  { o.erase id with ids := (o.erase id).ids ++ [id] }

/-- A list with an id right after each occurrence of an anchor. -/
def placeAfter (anchor id : String) (ids : List String) : List String :=
  ids.flatMap fun a => if a = anchor then [a, id] else [a]

/-- A list with an id right before each occurrence of an anchor. -/
def placeBefore (anchor id : String) (ids : List String) : List String :=
  ids.flatMap fun a => if a = anchor then [id, a] else [a]

/-- Moves an id right after an anchor, or inserts it there; `none` if the anchor is absent or is
the id itself. -/
def insertAfter? (o : Order) (anchor id : String) : Option Order :=
  if id = anchor || !o.contains anchor then none
  else some { o.erase id with ids := placeAfter anchor id (o.erase id).ids }

/-- Moves an id right before an anchor, or inserts it there; `none` if the anchor is absent or is
the id itself. -/
def insertBefore? (o : Order) (anchor id : String) : Option Order :=
  if id = anchor || !o.contains anchor then none
  else some { o.erase id with ids := placeBefore anchor id (o.erase id).ids }

/-- `insertAfter?` where the anchor is there, nothing otherwise. -/
def insertAfter (o : Order) (anchor id : String) : Order := (o.insertAfter? anchor id).getD o

/-- Gives an entry another id, keeping its place and its number. -/
def rename (o : Order) (old new : String) : Order :=
  if o.contains old then
    { ids := o.ids.map fun a => if a = old then new else a
      numbers := o.numbers.map fun (a, n) => (if a = old then new else a, n) }
  else o

/-- Records the position of every id. -/
def number (o : Order) : Order := { o with numbers := o.ids.zipIdx }

/-- The position recorded for an id. -/
def number? (o : Order) (id : String) : Option Nat := o.numbers.lookup id

end Order

end NetPlan
