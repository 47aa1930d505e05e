import NetPlan.Proofs.Graph.Numbers
import NetPlan.Proofs.Graph.Resort
import NetPlan.Proofs.Graph.Segments

/-!
# Proofs/Graph/Links — a linked sequence is a list

A linked sequence `Represents` an order if its links are those of the list and it has the same
positions recorded.  It still does after the same call on both, and both answer the same
(`Represents.perform`).  So whatever the calls, an order that began empty reads as the list that they
build (`readsAs_run`): what is proved of `Order` holds of its links.
-/

namespace NetPlan

variable {l : LinkedOrder} {xs ys : List String} {id anchor old new : String}

/-! ## Numbers -/

section Numbers

variable {ns : List (String × Nat)} {x : String}

/-- Looking up in what was kept. -/
theorem lookup_filter (keep : String → Bool) :
    (ns.filter (keep ·.1)).lookup x = if keep x then ns.lookup x else none := by
  induction ns with
  | nil => simp
  | cons entry ns ih =>
    obtain ⟨a, n⟩ := entry
    rw [List.filter_cons, List.lookup_cons]
    by_cases hx : x = a
    · subst hx
      cases hk : keep x <;> simp [hk, ih]
    · have hne : (x == a) = false := beq_false_of_ne hx
      cases keep a <;> simp [List.lookup_cons, hne, ih]

/-- Looking up after a rename. -/
theorem lookup_map_rename (h : ∀ entry ∈ ns, entry.1 ≠ new) :
    (ns.map fun (a, n) => (if a = old then new else a, n)).lookup x
      = if x = new then ns.lookup old else if x = old then none else ns.lookup x := by
  induction ns with
  | nil => simp
  | cons entry ns ih =>
    obtain ⟨a, n⟩ := entry
    have ha : a ≠ new := h _ List.mem_cons_self
    rw [List.map_cons, List.lookup_cons, List.lookup_cons, List.lookup_cons,
      ih fun other hother => h other (List.mem_cons_of_mem _ hother)]
    grind

/-- A table of a list without repetitions. -/
theorem getElem?_ofList (h : (ns.map (·.1)).Nodup) :
    (Std.HashMap.ofList ns)[x]? = ns.lookup x := by
  have hpair : ns.Pairwise fun a b => (a.1 == b.1) = false :=
    (List.pairwise_map.mp h).imp beq_false_of_ne
  cases hx : ns.lookup x with
  | none =>
    refine Std.HashMap.getElem?_ofList_of_contains_eq_false ?_
    rw [List.lookup_eq_none_iff] at hx
    rw [← Bool.not_eq_true, List.contains_iff_mem, List.mem_map]
    rintro ⟨entry, hmem, rfl⟩
    simpa using hx entry hmem
  | some n =>
    obtain ⟨a, b, rfl, -⟩ := List.lookup_eq_some_iff.mp hx
    exact Std.HashMap.getElem?_ofList_of_mem (beq_self_eq_true x) hpair (by simp)

/-- A key that moves to another takes its value along. -/
theorem getElem?_rekey {m : Std.HashMap String Nat} (hnew : m[new]? = none) :
    (match m[old]? with
      | some n => (m.erase old).insert new n
      | none => m.erase old)[x]? = if x = new then m[old]? else if x = old then none else m[x]? := by
  cases hold : m[old]? with
  | none =>
    change (m.erase old)[x]? = _
    rw [Std.HashMap.getElem?_erase]
    grind
  | some n =>
    change ((m.erase old).insert new n)[x]? = _
    rw [Std.HashMap.getElem?_insert, Std.HashMap.getElem?_erase]
    grind

end Numbers

namespace Order

variable {o : Order} {x : String}

/-- Numbers once an id is gone. -/
theorem number?_erase (o : Order) (id x : String) :
    (o.erase id).number? x = if x = id then none else o.number? x := by
  rw [number?, erase, lookup_filter fun a => decide (a ≠ id)]
  simp [number?]

/-- What is not in the order has no number. -/
theorem number?_eq_none (hs : o.Sound) (hx : x ∉ o.ids) : o.number? x = none := by
  rw [number?, List.lookup_eq_none_iff]
  exact fun entry hmem => bne_iff_ne.mpr fun he => hx (he ▸ hs entry hmem)

/-- Numbers after a rename. -/
theorem number?_rename (hs : o.Sound) (hold : old ∈ o.ids) (hnew : new ∉ o.ids) (x : String) :
    (o.rename old new).number? x
      = if x = new then o.number? old else if x = old then none else o.number? x := by
  rw [rename, if_pos (by simpa [contains] using hold)]
  exact lookup_map_rename fun entry hmem he => hnew (he ▸ hs entry hmem)

/-- An id that is gone is gone. -/
theorem not_mem_erase (o : Order) (id : String) : id ∉ (o.erase id).ids := by
  simp [erase]

/-- Taking out what is not there. -/
theorem erase_of_not_mem (hs : o.Sound) (hid : id ∉ o.ids) : o.erase id = o := by
  have hns : o.numbers.filter (·.1 ≠ id) = o.numbers :=
    List.filter_eq_self.mpr fun entry hmem => decide_eq_true fun he => hid (he ▸ hs entry hmem)
  rw [erase, filter_ne_of_not_mem hid, hns]

end Order

/-! ## Edits -/

namespace LinkedOrder

variable {o : Order}

@[simp] theorem numbers_setNext (l : LinkedOrder) (a b : Option String) :
    (l.setNext a b).numbers = l.numbers := by
  cases a <;> rfl

@[simp] theorem numbers_setPrev (l : LinkedOrder) (a b : Option String) :
    (l.setPrev a b).numbers = l.numbers := by
  cases a <;> rfl

/-- A linked sequence stands for an order: it links the ids as they are listed, and has the same
positions recorded. -/
structure Represents (l : LinkedOrder) (o : Order) : Prop extends l.Holds o.ids where
  nodup : o.ids.Nodup
  sound : o.Sound
  numbers : ∀ id, l.number? id = o.number? id

theorem represents_empty : Represents empty .empty where
  links _ := Std.HashMap.getElem?_empty
  head := rfl
  tail := rfl
  nodup := List.nodup_nil
  sound _ h := nomatch h
  numbers _ := Std.HashMap.getElem?_empty

namespace Represents

/-- The id behind, read off the list. -/
theorem next?_eq (h : l.Represents o) (hsplit : o.ids = xs ++ id :: ys) :
    l.next? id = ys.head? := by
  rw [LinkedOrder.next?, Holds.link (hsplit ▸ h.toHolds) (by grind [h.nodup])]
  rfl

/-- The id in front, read off the list. -/
theorem prev?_eq (h : l.Represents o) (hsplit : o.ids = xs ++ id :: ys) :
    l.prev? id = xs.getLast? := by
  rw [LinkedOrder.prev?, Holds.link (hsplit ▸ h.toHolds) (by grind [h.nodup])]
  rfl

/-- An id can be taken out if it is there. -/
theorem isSome_erase? (h : l.Represents o) (id : String) :
    (l.erase? id).isSome = o.contains id := by
  have hc : l.contains id = o.contains id := h.contains id
  rw [← hc, LinkedOrder.contains, Std.HashMap.contains_eq_isSome_getElem?, LinkedOrder.erase?]
  split
  case h_1 hlink => rw [hlink]; rfl
  case h_2 hlink => rw [hlink]; rfl

/-- Taking out links the neighbours. -/
theorem erase (h : l.Represents o) (id : String) : (l.erase id).Represents (o.erase id) := by
  by_cases hid : id ∈ o.ids
  · obtain ⟨xs, ys, hsplit, hx, hy, hn⟩ := Order.exists_split h.nodup hid
    have hholds : l.Holds (xs ++ id :: ys) := hsplit ▸ h.toHolds
    have hids : (o.erase id).ids = xs ++ ys := by
      rw [Order.erase, hsplit, Order.filter_split hx hy]
    rw [LinkedOrder.erase, LinkedOrder.erase?, hholds.link hx]
    refine ⟨hids ▸ (hholds.cut hx hy _).join hn, hids ▸ hn, h.sound.erase id, fun x => ?_⟩
    change ((LinkedOrder.setPrev _ _ _).numbers)[x]? = _
    rw [numbers_setPrev, numbers_setNext, Std.HashMap.getElem?_erase, Order.number?_erase,
      ← h.numbers]
    simp only [beq_iff_eq, @eq_comm _ id x, LinkedOrder.number?]
  · rw [LinkedOrder.erase, LinkedOrder.erase?, h.links, linkIn_of_not_mem hid,
      Order.erase_of_not_mem h.sound hid]
    exact h

/-- Linking in between two neighbours. -/
theorem linkBetween (h : l.Represents o) (hsplit : o.ids = xs ++ ys) (hid : id ∉ o.ids) :
    (l.linkBetween id xs.getLast? ys.head?).Represents { o with ids := xs ++ id :: ys } := by
  have hn := hsplit ▸ h.nodup
  rw [hsplit] at hid
  refine ⟨Holds.linkBetween (hsplit ▸ h.toHolds) hn hid, ?_, fun entry hmem => ?_, fun x => ?_⟩
  · exact List.nodup_middle.mpr (List.nodup_cons.mpr ⟨hid, hn⟩)
  · have hmem' := h.sound entry hmem
    rw [hsplit] at hmem'
    simp only [List.mem_append, List.mem_cons] at hmem' ⊢
    tauto
  · rw [LinkedOrder.number?, LinkedOrder.linkBetween, numbers_setPrev, numbers_setNext]
    exact h.numbers x

/-- Links and list take an id in front alike. -/
theorem pushFront (h : l.Represents o) (id : String) :
    (l.pushFront id).Represents (o.pushFront id) := by
  have he := h.erase id
  have hid := Order.not_mem_erase o id
  have hlinked := he.linkBetween (List.nil_append (o.erase id).ids).symm hid
  rw [← he.head] at hlinked
  exact hlinked

/-- Links and list take an id at the back alike. -/
theorem pushBack (h : l.Represents o) (id : String) :
    (l.pushBack id).Represents (o.pushBack id) := by
  have he := h.erase id
  have hid := Order.not_mem_erase o id
  have hlinked := he.linkBetween (List.append_nil (o.erase id).ids).symm hid
  rw [← he.tail] at hlinked
  exact hlinked

/-- An anchor stays where it is when another id is taken out. -/
theorem exists_split_erase (h : l.Represents o) (hid : id ≠ anchor)
    (ha : o.contains anchor = true) :
    ∃ xs ys, (o.erase id).ids = xs ++ anchor :: ys ∧ anchor ∉ xs ∧ anchor ∉ ys := by
  have hmem : anchor ∈ (o.erase id).ids :=
    List.mem_filter.mpr ⟨List.contains_iff_mem.mp ha, decide_eq_true hid.symm⟩
  obtain ⟨xs, ys, hsplit, hx, hy, -⟩ := Order.exists_split (h.erase id).nodup hmem
  exact ⟨xs, ys, hsplit, hx, hy⟩

/-- Links and list take an id behind an anchor alike, or both fail. -/
theorem insertAfter? (h : l.Represents o) (anchor id : String) :
    Option.Rel Represents (l.insertAfter? anchor id) (o.insertAfter? anchor id) := by
  have hc : l.contains anchor = o.contains anchor := h.contains anchor
  rw [LinkedOrder.insertAfter?, Order.insertAfter?, hc]
  split
  case isTrue => exact .none
  case isFalse hnot =>
    rw [Bool.or_eq_true, not_or, decide_eq_true_eq, Bool.not_eq_true', Bool.not_eq_false] at hnot
    have he := h.erase id
    have hid := Order.not_mem_erase o id
    obtain ⟨xs, ys, hsplit, hx, hy⟩ := h.exists_split_erase hnot.1 hnot.2
    have hlinked := he.linkBetween (hsplit.trans (List.append_cons ..)) hid
    rw [List.getLast?_concat, ← he.next?_eq hsplit, ← List.append_cons,
      ← Order.placeAfter_split hx hy, ← hsplit] at hlinked
    exact .some hlinked

/-- Links and list take an id in front of an anchor alike, or both fail. -/
theorem insertBefore? (h : l.Represents o) (anchor id : String) :
    Option.Rel Represents (l.insertBefore? anchor id) (o.insertBefore? anchor id) := by
  have hc : l.contains anchor = o.contains anchor := h.contains anchor
  rw [LinkedOrder.insertBefore?, Order.insertBefore?, hc]
  split
  case isTrue => exact .none
  case isFalse hnot =>
    rw [Bool.or_eq_true, not_or, decide_eq_true_eq, Bool.not_eq_true', Bool.not_eq_false] at hnot
    have he := h.erase id
    have hid := Order.not_mem_erase o id
    obtain ⟨xs, ys, hsplit, hx, hy⟩ := h.exists_split_erase hnot.1 hnot.2
    have hlinked := he.linkBetween hsplit hid
    rw [← he.prev?_eq hsplit, ← Order.placeBefore_split hx hy, ← hsplit] at hlinked
    exact .some hlinked

/-- Links and list rename alike. -/
theorem rename (h : l.Represents o) (hnew : new ∉ o.ids) :
    (l.rename old new).Represents (o.rename old new) := by
  by_cases hold : old ∈ o.ids
  · obtain ⟨xs, ys, hsplit, hx, hy, hn⟩ := Order.exists_split h.nodup hold
    have hholds : l.Holds (xs ++ old :: ys) := hsplit ▸ h.toHolds
    obtain ⟨hnx, hny⟩ : new ∉ xs ∧ new ∉ ys := by grind
    have hids : (o.rename old new).ids = xs ++ new :: ys := by
      rw [Order.rename, if_pos (by simpa [Order.contains] using hold)]
      exact hsplit ▸ Order.map_split hx hy
    rw [LinkedOrder.rename, hholds.link hx]
    refine ⟨?_, ?_, h.sound.rename old new, fun x => ?_⟩
    · rw [hids]
      exact (((hholds.cut hx hy _).setNext hn _).setPrev hn _).insert hnx _
    · rw [hids]
      exact Order.nodup_split_iff.mpr ⟨hnx, hny, hn⟩
    · have hnone := (h.numbers new).trans (Order.number?_eq_none h.sound hnew)
      rw [Order.number?_rename h.sound hold hnew, ← h.numbers, ← h.numbers]
      exact getElem?_rekey hnone
  · rw [LinkedOrder.rename, h.links, linkIn_of_not_mem hold, Order.rename,
      if_neg (by simpa [Order.contains] using hold)]
    exact h

/-- Links and list number alike. -/
theorem number (h : l.Represents o) : l.number.Represents o.number where
  toHolds := ⟨h.links, h.head, h.tail⟩
  nodup := h.nodup
  sound := Order.sound_number o
  numbers x := by
    have hns : (o.ids.zipIdx.map (·.1)).Nodup := by
      rw [List.zipIdx_map_fst]
      exact h.nodup
    rw [LinkedOrder.number?, LinkedOrder.number, h.toHolds.ids_eq h.nodup]
    exact getElem?_ofList hns

end Represents

end LinkedOrder

/-! ## Calls in any order -/

namespace Order

/-- A call on a sequence with its arguments. -/
inductive Call where
  | pushFront (id : String)
  | pushBack (id : String)
  | insertAfter (anchor id : String)
  | insertBefore (anchor id : String)
  | erase (id : String)
  | clear
  | rename (old new : String)
  | number

/-- Whether an attempt succeeds, and what it leaves; nothing changes where it fails. -/
def attempt {σ : Type} (s : σ) (r : Option σ) : Bool × σ := (r.isSome, r.getD s)

/-- What a call answers on a list, and what it leaves. -/
def perform (o : Order) : Call → Bool × Order
  | .pushFront id => (true, o.pushFront id)
  | .pushBack id => (true, o.pushBack id)
  | .insertAfter anchor id => attempt o (o.insertAfter? anchor id)
  | .insertBefore anchor id => attempt o (o.insertBefore? anchor id)
  | .erase id => (o.contains id, o.erase id)
  | .clear => (true, empty)
  | .rename old new => (true, o.rename old new)
  | .number => (true, o.number)

/-- Whether a call gives no entry an id that is present. -/
def Call.Fits (o : Order) : Call → Prop
  | .rename _ new => new ∉ o.ids
  | _ => True

/-- Whether every call of a sequence fits the list that those before it leave. -/
def Call.AllFit (o : Order) : List Call → Prop
  | [] => True
  | c :: cs => c.Fits o ∧ AllFit (o.perform c).2 cs

/-- What a sequence of calls answers, and what it leaves. -/
def run {σ : Type} (perform : σ → Call → Bool × σ) : σ → List Call → List Bool × σ
  | s, [] => ([], s)
  | s, c :: cs =>
    let r := perform s c
    let rest := run perform r.2 cs
    (r.1 :: rest.1, rest.2)

end Order

namespace LinkedOrder

variable {o : Order}

/-- What a call answers on a linked sequence, and what it leaves. -/
def perform (l : LinkedOrder) : Order.Call → Bool × LinkedOrder
  | .pushFront id => (true, l.pushFront id)
  | .pushBack id => (true, l.pushBack id)
  | .insertAfter anchor id => Order.attempt l (l.insertAfter? anchor id)
  | .insertBefore anchor id => Order.attempt l (l.insertBefore? anchor id)
  | .erase id => Order.attempt l (l.erase? id)
  | .clear => (true, empty)
  | .rename old new => (true, l.rename old new)
  | .number => (true, l.number)

/-- An operation that may fail leaves both as they are if it does. -/
theorem Represents.attempt (h : l.Represents o) {l' : Option LinkedOrder} {o' : Option Order}
    (hrel : Option.Rel Represents l' o') : (Order.attempt l l').1 = (Order.attempt o o').1 ∧
      (Order.attempt l l').2.Represents (Order.attempt o o').2 := by
  cases hrel with
  | none => exact ⟨rfl, h⟩
  | some hrel => exact ⟨rfl, hrel⟩

/-- **One call** answers the same, and leaves the same. -/
theorem Represents.perform (h : l.Represents o) {c : Order.Call} (hc : c.Fits o) :
    (l.perform c).1 = (o.perform c).1 ∧ (l.perform c).2.Represents (o.perform c).2 := by
  cases c with
  | pushFront id => exact ⟨rfl, h.pushFront id⟩
  | pushBack id => exact ⟨rfl, h.pushBack id⟩
  | insertAfter anchor id => exact h.attempt (h.insertAfter? anchor id)
  | insertBefore anchor id => exact h.attempt (h.insertBefore? anchor id)
  | erase id => exact ⟨h.isSome_erase? id, h.erase id⟩
  | clear => exact ⟨rfl, represents_empty⟩
  | rename old new => exact ⟨rfl, h.rename hc⟩
  | number => exact ⟨rfl, h.number⟩

/-- **So does a sequence of calls.** -/
theorem Represents.run (h : l.Represents o) {cs : List Order.Call} (hcs : Order.Call.AllFit o cs) :
    (Order.run LinkedOrder.perform l cs).1 = (Order.run Order.perform o cs).1 ∧
      (Order.run LinkedOrder.perform l cs).2.Represents (Order.run Order.perform o cs).2 := by
  induction cs generalizing l o with
  | nil => exact ⟨rfl, h⟩
  | cons c cs ih =>
    obtain ⟨hanswer, hleft⟩ := h.perform hcs.1
    obtain ⟨hanswers, hend⟩ := ih hleft hcs.2
    exact ⟨congrArg₂ _ hanswer hanswers, hend⟩

/-- What a reader of a linked sequence sees is a list without repetition, and numbering it records
where each id stands in that list. -/
structure ReadsAs (l : LinkedOrder) (ids : List String) : Prop where
  nodup : ids.Nodup
  forward : Walks l.next? l.head ids
  backward : Walks l.prev? l.tail ids.reverse
  length : l.length = ids.length
  contains : ∀ id, l.contains id = ids.contains id
  number? : ∀ id k, l.number.number? id = some k ↔ ids[k]? = some id

/-- **What represents a list reads as that list**, both ways. -/
theorem Represents.readsAs (h : l.Represents o) : l.ReadsAs o.ids where
  nodup := h.nodup
  forward := h.walks_next h.nodup
  backward := h.walks_prev h.nodup
  length := h.toHolds.length h.nodup
  contains := h.contains
  number? id k := by
    rw [h.number.numbers, Order.number?_number, List.getElem?_eq_some_iff]
    constructor
    · intro hk
      obtain ⟨hid, hk⟩ := Option.ite_none_right_eq_some.mp hk
      obtain rfl := Option.some.inj hk
      exact ⟨List.idxOf_lt_length_of_mem hid, List.getElem_idxOf _⟩
    · rintro ⟨hk, rfl⟩
      rw [if_pos (List.getElem_mem hk), h.nodup.idxOf_getElem]

/-- **A linked sequence is a list.**  Calls in any order answer what they answer on the list that they
build, and leave links that read as that list and the positions recorded for it. -/
theorem readsAs_run (cs : List Order.Call) (hcs : Order.Call.AllFit .empty cs) :
    (Order.run perform empty cs).1 = (Order.run Order.perform .empty cs).1 ∧
      (Order.run perform empty cs).2.ReadsAs (Order.run Order.perform .empty cs).2.ids ∧
      ∀ id, (Order.run perform empty cs).2.number? id
        = (Order.run Order.perform .empty cs).2.number? id := by
  obtain ⟨hanswers, hend⟩ := represents_empty.run hcs
  exact ⟨hanswers, hend.readsAs, hend.numbers⟩

/-- Moves to both ends and beside neighbours, two that fail, and an entry that gets another id after
its position was recorded. -/
def moves : List Order.Call :=
  [.pushBack "a", .pushBack "b", .pushBack "c", .pushFront "d", .pushBack "d", .insertAfter "c" "a",
    .insertBefore "b" "d", .insertAfter "x" "a", .insertBefore "c" "c", .erase "b", .number,
    .rename "c" "z", .erase "d"]

theorem readsAs_run_moves :
    (Order.run perform empty moves).1
        = [true, true, true, true, true, true, true, false, false, true, true, true, true] ∧
      (Order.run perform empty moves).2.ReadsAs ["z", "a"] ∧
      (Order.run perform empty moves).2.number? "z" = some 1 := by
  have hnew : "z" ∉ (Order.run Order.perform .empty (moves.take 11)).2.ids := by decide
  have hfit : Order.Call.AllFit .empty moves :=
    ⟨trivial, trivial, trivial, trivial, trivial, trivial, trivial, trivial, trivial, trivial,
      trivial, hnew, trivial, trivial⟩
  obtain ⟨hanswers, hreads, hnumbers⟩ := readsAs_run moves hfit
  exact ⟨hanswers, hreads, hnumbers "z"⟩

end LinkedOrder

end NetPlan
