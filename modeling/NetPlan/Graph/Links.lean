import Std.Data.HashMap

/-!
# Graph/Links — an order kept by links

The order of `Graph/Order` as a doubly linked sequence.  Every id has a link to its neighbours, found
by a hash table, so that an id is taken out, put in or moved at the same cost wherever it stands.

Where a neighbour is missing, its part is played by the ends: the successor of `none` is the head and
its predecessor the tail (`setNext`, `setPrev`).  An edit therefore never asks whether it is at an
end.
-/

namespace NetPlan

/-- The neighbours of an id. -/
structure Link where
  prev : Option String
  next : Option String
  deriving DecidableEq, Inhabited

/-- A sequence of ids by their links, and the positions last recorded. -/
structure LinkedOrder where
  links : Std.HashMap String Link
  head : Option String
  tail : Option String
  numbers : Std.HashMap String Nat

namespace LinkedOrder

/-- The order of nothing. -/
def empty : LinkedOrder := ⟨∅, none, none, ∅⟩

/-- The number of ids. -/
def length (l : LinkedOrder) : Nat := l.links.size

/-- Whether an id is in the order. -/
def contains (l : LinkedOrder) (id : String) : Bool := l.links.contains id

/-- The first id. -/
def first? (l : LinkedOrder) : Option String := l.head

/-- The last id. -/
def last? (l : LinkedOrder) : Option String := l.tail

/-- The id behind another. -/
def next? (l : LinkedOrder) (id : String) : Option String := l.links[id]?.bind (·.next)

/-- The id in front of another. -/
def prev? (l : LinkedOrder) (id : String) : Option String := l.links[id]?.bind (·.prev)

/-- What a walk from a cursor passes, of at most so many ids. -/
def walk (step : String → Option String) : Nat → Option String → List String
  | _, none => []
  | 0, some _ => []
  | n + 1, some id => id :: walk step n (step id)

/-- The ids from the head on. -/
def ids (l : LinkedOrder) : List String := walk l.next? l.length l.head

/-- Makes an id the successor of another, or of the front. -/
def setNext (l : LinkedOrder) (id next : Option String) : LinkedOrder :=
  match id with
  | some id => { l with links := l.links.modify id ({ · with next }) }
  | none => { l with head := next }

/-- Makes an id the predecessor of another, or of the back. -/
def setPrev (l : LinkedOrder) (id prev : Option String) : LinkedOrder :=
  match id with
  | some id => { l with links := l.links.modify id ({ · with prev }) }
  | none => { l with tail := prev }

/-- Takes an id out, with its number, and joins its neighbours; `none` if it is absent. -/
def erase? (l : LinkedOrder) (id : String) : Option LinkedOrder :=
  match l.links[id]? with
  | some link =>
    some <| ({ l with links := l.links.erase id, numbers := l.numbers.erase id } : LinkedOrder)
      |>.setNext link.prev link.next |>.setPrev link.next link.prev
  | none => none

/-- `erase?` where the id is there, nothing otherwise. -/
def erase (l : LinkedOrder) (id : String) : LinkedOrder := (l.erase? id).getD l

/-- Puts an id that is not linked between two neighbours. -/
def linkBetween (l : LinkedOrder) (id : String) (prev next : Option String) : LinkedOrder :=
  let l := l.setNext prev (some id) |>.setPrev next (some id)
  { l with links := l.links.insert id ⟨prev, next⟩ }

/-- Moves an id to the front, or inserts it there. -/
def pushFront (l : LinkedOrder) (id : String) : LinkedOrder :=
  let l := l.erase id
  l.linkBetween id none l.head

/-- Moves an id to the back, or inserts it there. -/
def pushBack (l : LinkedOrder) (id : String) : LinkedOrder :=
  let l := l.erase id
  l.linkBetween id l.tail none

/-- Moves an id right after an anchor, or inserts it there; `none` if the anchor is absent or is
the id itself. -/
def insertAfter? (l : LinkedOrder) (anchor id : String) : Option LinkedOrder :=
  if id = anchor || !l.contains anchor then none
  else
    let l := l.erase id
    some (l.linkBetween id (some anchor) (l.next? anchor))

/-- Moves an id right before an anchor, or inserts it there; `none` if the anchor is absent or is
the id itself. -/
def insertBefore? (l : LinkedOrder) (anchor id : String) : Option LinkedOrder :=
  if id = anchor || !l.contains anchor then none
  else
    let l := l.erase id
    some (l.linkBetween id (l.prev? anchor) (some anchor))

/-- Gives an entry another id, keeping its place and its number. -/
def rename (l : LinkedOrder) (old new : String) : LinkedOrder :=
  match l.links[old]? with
  | some link =>
    let r := ({ l with links := l.links.erase old } : LinkedOrder)
      |>.setNext link.prev (some new) |>.setPrev link.next (some new)
    { r with
      links := r.links.insert new link
      numbers := match l.numbers[old]? with
        | some number => (l.numbers.erase old).insert new number
        | none => l.numbers.erase old }
  | none => l

/-- Records the position of every id. -/
def number (l : LinkedOrder) : LinkedOrder :=
  { l with numbers := Std.HashMap.ofList l.ids.zipIdx }

/-- The position recorded for an id. -/
def number? (l : LinkedOrder) (id : String) : Option Nat := l.numbers[id]?

end LinkedOrder

end NetPlan
