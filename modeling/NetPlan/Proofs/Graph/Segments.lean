import Mathlib.Data.List.Basic
import Mathlib.Data.List.Induction
import NetPlan.Graph.Links

/-!
# Proofs/Graph/Segments — the links of a list

The links of a list come from its segments: `linkIn prev next` gives each id of a segment its
neighbours, `prev` before the first one and `next` behind the last.  Where an edit has come between
two segments `xs` and `ys`, the links are `Cut`: `xs` leads on to some `v`, and `ys` back to some `w`.

* Taking an id out leaves both parts naming it (`Holds.cut`).
* `setNext` and `setPrev` change `v` and `w`, and nothing else, also at the ends and where a part is
  empty (`Cut.setNext`, `Cut.setPrev`).
* What both parts name can be put between them (`Cut.insert`), and parts that name each other are
  one list again (`Cut.join`).

A reader of the links sees the list: walks from both ends pass it and end (`Holds.walks_next`,
`Holds.walks_prev`).
-/

namespace NetPlan

variable {l : LinkedOrder} {xs ys : List String} {prev next v w : Option String} {id : String}

/-! ## Segments -/

/-- The link of an id in a segment that comes after `prev` and before `next`. -/
def linkIn (prev next : Option String) : List String → String → Option Link
  | [], _ => none
  | a :: rest, id => if a = id then some ⟨prev, rest.head?.or next⟩ else linkIn (some a) next rest id

theorem linkIn_of_not_mem (h : id ∉ xs) : linkIn prev next xs id = none := by
  induction xs generalizing prev with
  | nil => rfl
  | cons a xs ih =>
    rw [List.mem_cons, not_or] at h
    rw [linkIn, if_neg (Ne.symm h.1), ih h.2]

/-- **A segment falls into two**, each one's end being what the other's begins with. -/
theorem linkIn_append : linkIn prev next (xs ++ ys) id
    = (linkIn prev (ys.head?.or next) xs id).or (linkIn (xs.getLast?.or prev) next ys id) := by
  induction xs generalizing prev with
  | nil => simp [linkIn]
  | cons a xs ih =>
    rw [List.cons_append, linkIn, linkIn]
    split
    case isTrue => rw [List.head?_append, Option.or_assoc, Option.some_or]
    case isFalse => rw [ih, Option.or_some, List.getLast?_cons, Option.some_or]

theorem linkIn_mid (h : id ∉ xs) : linkIn prev next (xs ++ id :: ys) id
    = some ⟨xs.getLast?.or prev, ys.head?.or next⟩ := by
  rw [linkIn_append, linkIn_of_not_mem h, Option.none_or, linkIn, if_pos rfl]

theorem isSome_linkIn : (linkIn prev next xs id).isSome ↔ id ∈ xs := by
  induction xs generalizing prev with
  | nil => simp [linkIn]
  | cons a xs ih =>
    rw [linkIn, List.mem_cons]
    split
    case isTrue h => simp [h]
    case isFalse h => rw [ih, or_iff_right (Ne.symm h)]

namespace LinkedOrder

/-- The links, the head and the tail of a sequence are those of a list. -/
structure Holds (l : LinkedOrder) (ids : List String) : Prop where
  links : ∀ id, l.links[id]? = linkIn none none ids id
  head : l.head = ids.head?
  tail : l.tail = ids.getLast?

/-- A sequence in two parts, where an edit has come between: the first leads on to `v` and the second
back to `w`. -/
structure Cut (l : LinkedOrder) (xs ys : List String) (v w : Option String) : Prop where
  links : ∀ id, l.links[id]? = (linkIn none v xs id).or (linkIn w none ys id)
  head : l.head = xs.head?.or v
  tail : l.tail = ys.getLast?.or w

theorem holds_append_iff : l.Holds (xs ++ ys) ↔ l.Cut xs ys ys.head? xs.getLast? := by
  have hlinks : ∀ id, linkIn none none (xs ++ ys) id
      = (linkIn none ys.head? xs id).or (linkIn xs.getLast? none ys id) := fun id => by
    rw [linkIn_append, Option.or_none, Option.or_none]
  exact ⟨fun h => ⟨fun id => (h.links id).trans (hlinks id), h.head.trans List.head?_append,
      h.tail.trans List.getLast?_append⟩,
    fun h => ⟨fun id => (h.links id).trans (hlinks id).symm, h.head.trans List.head?_append.symm,
      h.tail.trans List.getLast?_append.symm⟩⟩

/-- The end of the first part leads elsewhere. -/
theorem Cut.setNext (h : l.Cut xs ys v w) (hn : (xs ++ ys).Nodup) (v' : Option String) :
    (l.setNext xs.getLast? v').Cut xs ys v' w := by
  rcases xs.eq_nil_or_concat' with rfl | ⟨xs, a, rfl⟩
  case inl => exact ⟨h.links, rfl, h.tail⟩
  case inr =>
    rw [List.getLast?_concat]
    refine ⟨fun id => ?_, h.head.trans (by simp), h.tail⟩
    have ha : a ∉ xs := by grind
    change (l.links.modify a _)[id]? = _
    rw [Std.HashMap.getElem?_modify, h.links]
    by_cases he : a = id
    · subst he
      rw [linkIn_mid ha, linkIn_mid ha]
      simp
    · rw [if_neg (by simpa using he), h.links, linkIn_append, linkIn_append]
      simp [linkIn, he]

/-- The second part leads back elsewhere. -/
theorem Cut.setPrev (h : l.Cut xs ys v w) (hn : (xs ++ ys).Nodup) (w' : Option String) :
    (l.setPrev ys.head? w').Cut xs ys v w' := by
  cases ys with
  | nil => exact ⟨h.links, h.head, rfl⟩
  | cons b ys =>
    refine ⟨fun id => ?_, h.head, h.tail.trans (by simp [List.getLast?_cons])⟩
    have hb : b ∉ xs := by grind
    change (l.links.modify b _)[id]? = _
    rw [Std.HashMap.getElem?_modify, h.links]
    by_cases he : b = id
    · subst he
      rw [linkIn_of_not_mem hb]
      simp [linkIn]
    · rw [if_neg (by simpa using he), h.links]
      simp [linkIn, he]

/-- Both parts meet again. -/
theorem Cut.join (h : l.Cut xs ys v w) (hn : (xs ++ ys).Nodup) :
    ((l.setNext xs.getLast? ys.head?).setPrev ys.head? xs.getLast?).Holds (xs ++ ys) :=
  holds_append_iff.mpr ((h.setNext hn _).setPrev hn _)

/-- Without its link, an id is still named by its neighbours. -/
theorem Holds.cut (h : l.Holds (xs ++ id :: ys)) (hx : id ∉ xs) (hy : id ∉ ys)
    (numbers : Std.HashMap String Nat) :
    ({ l with links := l.links.erase id, numbers } : LinkedOrder).Cut xs ys (some id) (some id) := by
  refine ⟨fun j => ?_, h.head.trans List.head?_append, h.tail.trans ?_⟩
  · rw [Std.HashMap.getElem?_erase]
    by_cases he : id = j
    · subst he
      rw [linkIn_of_not_mem hx, linkIn_of_not_mem hy]
      simp
    · rw [if_neg (by simpa using he), h.links, linkIn_append]
      simp [linkIn, he]
  · rw [List.getLast?_append, List.getLast?_cons, Option.some_or, Option.or_some]

/-- An id that both parts name is put between them. -/
theorem Cut.insert (h : l.Cut xs ys (some id) (some id)) (hx : id ∉ xs)
    (numbers : Std.HashMap String Nat) :
    ({ l with links := l.links.insert id ⟨xs.getLast?, ys.head?⟩, numbers } : LinkedOrder).Holds
      (xs ++ id :: ys) := by
  refine ⟨fun j => ?_, h.head.trans (by rw [List.head?_append, List.head?_cons]), h.tail.trans ?_⟩
  · rw [Std.HashMap.getElem?_insert]
    by_cases he : id = j
    · subst he
      rw [linkIn_mid hx]
      simp
    · rw [if_neg (by simpa using he), h.links, linkIn_append]
      simp [linkIn, he]
  · rw [List.getLast?_append, List.getLast?_cons, Option.some_or, Option.or_some]

/-- An id that is not linked is put between the two parts of a list. -/
theorem Holds.linkBetween (h : l.Holds (xs ++ ys)) (hn : (xs ++ ys).Nodup) (hid : id ∉ xs ++ ys) :
    (l.linkBetween id xs.getLast? ys.head?).Holds (xs ++ id :: ys) := by
  rw [List.mem_append, not_or] at hid
  exact (((holds_append_iff.mp h).setNext hn _).setPrev hn _).insert hid.1 _

/-! ## What is read -/

theorem Holds.link (h : l.Holds (xs ++ id :: ys)) (hx : id ∉ xs) :
    l.links[id]? = some ⟨xs.getLast?, ys.head?⟩ := by
  rw [h.links, linkIn_mid hx, Option.or_none, Option.or_none]

theorem Holds.contains (h : l.Holds xs) (id : String) : l.contains id = xs.contains id := by
  rw [LinkedOrder.contains, Std.HashMap.contains_eq_isSome_getElem?, h.links, Bool.eq_iff_iff,
    isSome_linkIn, List.contains_iff_mem]

theorem Holds.length (h : l.Holds xs) (hn : xs.Nodup) : l.length = xs.length := by
  have hperm : l.links.keys.Perm xs :=
    (List.perm_ext_iff_of_nodup Std.HashMap.nodup_keys hn).mpr fun id => by
      rw [Std.HashMap.mem_keys, ← Std.HashMap.contains_iff_mem, ← List.contains_iff_mem]
      exact Bool.eq_iff_iff.mp (h.contains id)
  rw [LinkedOrder.length, ← Std.HashMap.length_keys, hperm.length_eq]

/-- A walk from a cursor passes these ids and ends. -/
inductive Walks (step : String → Option String) : Option String → List String → Prop where
  | done : Walks step none []
  | pass {a rest} : Walks step (step a) rest → Walks step (some a) (a :: rest)

theorem Walks.walk {step : String → Option String} {cursor : Option String}
    (h : Walks step cursor xs) : ∀ {n : Nat}, xs.length ≤ n → walk step n cursor = xs := by
  induction h with
  | done => exact fun _ => by rw [LinkedOrder.walk]
  | pass _ ih =>
    intro n hn
    obtain ⟨n, rfl⟩ := Nat.exists_eq_add_of_le' (Nat.one_le_of_lt hn)
    rw [LinkedOrder.walk, ih (by simpa using hn)]

/-- **The walk from the head passes the list.** -/
theorem Holds.walks_next (h : l.Holds xs) (hn : xs.Nodup) : Walks l.next? l.head xs := by
  suffices hwalks : ∀ b a, xs = a ++ b → Walks l.next? b.head? b by
    exact h.head ▸ hwalks xs [] rfl
  intro b
  induction b with
  | nil => exact fun _ _ => .done
  | cons id b ih =>
    rintro a rfl
    refine .pass ?_
    rw [LinkedOrder.next?, h.link (by grind)]
    exact ih (a ++ [id]) (by simp)

/-- **The walk from the tail passes it backwards.** -/
theorem Holds.walks_prev (h : l.Holds xs) (hn : xs.Nodup) : Walks l.prev? l.tail xs.reverse := by
  suffices hwalks : ∀ a b, xs = a ++ b → Walks l.prev? a.getLast? a.reverse by
    exact h.tail ▸ hwalks xs [] (List.append_nil _).symm
  intro a
  induction a using List.reverseRecOn with
  | nil => exact fun _ _ => .done
  | append_singleton a id ih =>
    rintro b rfl
    rw [List.getLast?_concat, List.reverse_concat]
    refine .pass ?_
    rw [List.append_assoc] at h hn
    rw [LinkedOrder.prev?, h.link (by grind)]
    exact ih (id :: b) (by simp)

theorem Holds.ids_eq (h : l.Holds xs) (hn : xs.Nodup) : l.ids = xs :=
  (h.walks_next hn).walk (Nat.le_of_eq (h.length hn).symm)

end LinkedOrder

end NetPlan
