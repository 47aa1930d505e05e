import Mathlib.Data.List.Nodup
import NetPlan.Graph.Order

/-!
# Proofs/Graph/Place — places in an order

Putting an id behind an anchor leaves every other id where it was.  In a list without repetition the
anchor splits it in two, and the id comes between (`placeAfter_split`).

`Before l a b` says that `[a, b]` is a sublist of `l`.  So whatever keeps sublists — taking ids out,
putting ids in, giving them other names — keeps what comes before what, and in a list without
repetition `Before` is a strict order.
-/

namespace NetPlan.Order

variable {anchor id x : String} {a b l : List String} {o : Order}

/-- Taking out what is not there. -/
theorem filter_ne_of_not_mem (h : id ∉ l) : l.filter (· ≠ id) = l :=
  List.filter_eq_self.mpr fun x hx => by simpa using fun he : x = id => h (he ▸ hx)

@[simp] theorem placeAfter_append (a b : List String) :
    placeAfter anchor id (a ++ b) = placeAfter anchor id a ++ placeAfter anchor id b :=
  List.flatMap_append ..

/-- Replacing what is not there. -/
theorem flatMap_of_not_mem {f : String → List String} (h : anchor ∉ l) :
    (l.flatMap fun x => if x = anchor then f x else [x]) = l := by
  have hsingle : ∀ x ∈ l, (if x = anchor then f x else [x]) = [x] := fun x hx =>
    if_neg fun he : x = anchor => h (he ▸ hx)
  rw [List.flatMap_congr hsingle, List.flatMap_singleton']

/-- Without the anchor nothing is placed. -/
theorem placeAfter_of_not_mem (h : anchor ∉ l) : placeAfter anchor id l = l :=
  flatMap_of_not_mem h

/-- **The anchor splits the list.** -/
theorem placeAfter_split (ha : anchor ∉ a) (hb : anchor ∉ b) :
    placeAfter anchor id (a ++ anchor :: b) = a ++ anchor :: id :: b := by
  rw [placeAfter_append, placeAfter_of_not_mem ha]
  change a ++ ((if anchor = anchor then [anchor, id] else [anchor]) ++ placeAfter anchor id b) = _
  rw [if_pos rfl, placeAfter_of_not_mem hb]
  rfl

/-- The place in front of the anchor. -/
theorem placeBefore_split (ha : anchor ∉ a) (hb : anchor ∉ b) :
    placeBefore anchor id (a ++ anchor :: b) = a ++ id :: anchor :: b := by
  rw [placeBefore, List.flatMap_append, List.flatMap_cons, if_pos rfl, flatMap_of_not_mem ha,
    flatMap_of_not_mem hb]
  rfl

/-- An id has one place in a list without repetition. -/
theorem nodup_split_iff : (a ++ id :: b).Nodup ↔ id ∉ a ∧ id ∉ b ∧ (a ++ b).Nodup := by
  rw [List.nodup_middle, List.nodup_cons, List.mem_append, not_or, and_assoc]

/-- A list around one of its ids. -/
theorem exists_split (hl : l.Nodup) (hid : id ∈ l) :
    ∃ a b, l = a ++ id :: b ∧ id ∉ a ∧ id ∉ b ∧ (a ++ b).Nodup := by
  obtain ⟨a, b, rfl⟩ := List.append_of_mem hid
  exact ⟨a, b, rfl, nodup_split_iff.mp hl⟩

/-- The list without it. -/
theorem filter_split (ha : id ∉ a) (hb : id ∉ b) : (a ++ id :: b).filter (· ≠ id) = a ++ b := by
  rw [List.filter_append, List.filter_cons_of_neg (by simp), filter_ne_of_not_mem ha,
    filter_ne_of_not_mem hb]

/-- The list with another in its place. -/
theorem map_split {new : String} (ha : id ∉ a) (hb : id ∉ b) :
    ((a ++ id :: b).map fun x => if x = id then new else x) = a ++ new :: b := by
  have hsame : ∀ l : List String, id ∉ l → (l.map fun x => if x = id then new else x) = l :=
    fun l hl => (List.map_congr_left fun x hx => if_neg fun he : x = id => hl (he ▸ hx)).trans
      (List.map_id' l)
  rw [List.map_append, List.map_cons, hsame a ha, hsame b hb, if_pos rfl]

/-- What is in the list afterwards. -/
theorem mem_placeAfter : x ∈ placeAfter anchor id l ↔ x ∈ l ∨ x = id ∧ anchor ∈ l := by
  rw [placeAfter, List.mem_flatMap]
  constructor
  · rintro ⟨y, hy, hx⟩
    split at hx
    case isTrue he =>
      rcases List.mem_cons.mp hx with rfl | hx
      · exact Or.inl hy
      · exact Or.inr ⟨List.mem_singleton.mp hx, he ▸ hy⟩
    case isFalse => exact Or.inl (List.mem_singleton.mp hx ▸ hy)
  · rintro (hx | ⟨rfl, ha⟩)
    · exact ⟨x, hx, by split <;> simp⟩
    · exact ⟨anchor, ha, by simp⟩

/-- No id comes twice. -/
theorem nodup_placeAfter (hl : l.Nodup) (hid : id ∉ l) : (placeAfter anchor id l).Nodup := by
  by_cases ha : anchor ∈ l
  · obtain ⟨a, b, rfl, hna, hnb, -⟩ := exists_split hl ha
    rw [placeAfter_split hna hnb]
    grind
  · rwa [placeAfter_of_not_mem ha]

/-- What an insertion leaves: the id behind the anchor, if the anchor is there. -/
theorem ids_insertAfter (o : Order) (anchor id : String) : (o.insertAfter anchor id).ids
    = if id ≠ anchor ∧ anchor ∈ o.ids then placeAfter anchor id (o.ids.filter (· ≠ id))
      else o.ids := by
  rw [insertAfter, insertAfter?, contains]
  by_cases hne : id = anchor
  · simp [hne]
  · by_cases hmem : anchor ∈ o.ids
    · simp [hne, hmem, erase]
    · simp [hmem]

/-- What is in the order afterwards. -/
theorem mem_insertAfter :
    x ∈ (o.insertAfter anchor id).ids ↔ x ∈ o.ids ∨ x = id ∧ anchor ∈ o.ids := by
  rw [ids_insertAfter]
  split
  case isTrue h =>
    rw [mem_placeAfter, List.mem_filter, List.mem_filter]
    by_cases hx : x = id
    · simp [hx, h.1.symm, h.2]
    · simp [hx]
  case isFalse h =>
    refine ⟨Or.inl, fun hx => hx.elim (fun hx => hx) ?_⟩
    rintro ⟨rfl, ha⟩
    by_cases he : x = anchor
    · exact he ▸ ha
    · exact absurd ⟨he, ha⟩ h

/-- No id comes twice. -/
theorem nodup_insertAfter (h : o.ids.Nodup) : (o.insertAfter anchor id).ids.Nodup := by
  rw [ids_insertAfter]
  split
  · exact nodup_placeAfter (h.filter _) (by simp)
  · exact h

/-- An id that moves leaves the others where they are. -/
theorem perm_insertAfter (hn : o.ids.Nodup) (hid : id ∈ o.ids) (anchor : String) :
    (o.insertAfter anchor id).ids.Perm o.ids := by
  rw [List.perm_ext_iff_of_nodup (nodup_insertAfter hn) hn]
  intro x
  rw [mem_insertAfter]
  exact ⟨fun h => h.elim (fun h => h) fun h => h.1 ▸ hid, Or.inl⟩

/-- An id that was not there comes right behind the anchor. -/
theorem ids_insertAfter_new (hid : id ∉ o.ids) (ha : anchor ∈ o.ids) :
    (o.insertAfter anchor id).ids = placeAfter anchor id o.ids := by
  rw [ids_insertAfter, if_pos ⟨fun he => hid (he ▸ ha), ha⟩, filter_ne_of_not_mem hid]

end NetPlan.Order

/-! ## What comes before what -/

namespace NetPlan

/-- One id stands before another in a list. -/
def Before (l : List String) (a b : String) : Prop := [a, b].Sublist l

variable {l k : List String} {a b c x y anchor id : String}

/-- One stands in a front part, the other in the rest. -/
theorem before_iff_append :
    Before l a b ↔ ∃ l₁ l₂, l = l₁ ++ l₂ ∧ a ∈ l₁ ∧ b ∈ l₂ := by
  rw [Before, List.cons_sublist_iff]
  simp only [List.singleton_sublist]

namespace Before

/-- Both are in the list. -/
theorem mem_left (h : Before l a b) : a ∈ l := h.subset List.mem_cons_self

/-- Both are in the list. -/
theorem mem_right (h : Before l a b) : b ∈ l := h.subset (by simp)

theorem mono (h : Before l a b) (hk : l.Sublist k) : Before k a b := List.Sublist.trans h hk

/-- A function keeps the sequence. -/
theorem map (h : Before l a b) (f : String → String) : Before (l.map f) (f a) (f b) :=
  List.Sublist.map f h

/-- So does leaving others out. -/
theorem filter (h : Before l a b) {keep : String → Bool} (ha : keep a = true)
    (hb : keep b = true) : Before (l.filter keep) a b := by
  have hf := List.Sublist.filter keep h
  rwa [List.filter_cons_of_pos ha, List.filter_cons_of_pos hb, List.filter_nil] at hf

theorem irrefl (hl : l.Nodup) (a : String) : ¬ Before l a a := fun h => by
  have hn := List.Nodup.sublist h hl
  simp at hn

theorem trans (hl : l.Nodup) (h : Before l a b) (h' : Before l b c) : Before l a c := by
  obtain ⟨l₁, l₂, rfl, ha, hb⟩ := before_iff_append.mp h
  obtain ⟨k₁, k₂, hk, hb', hc⟩ := before_iff_append.mp h'
  rw [before_iff_append]
  -- the second split is behind the first, for `b` stands in one place only
  rcases List.append_eq_append_iff.mp hk with ⟨m, rfl, rfl⟩ | ⟨m, rfl, rfl⟩
  · exact ⟨l₁ ++ m, k₂, by simp, List.mem_append_left _ ha, hc⟩
  · have hdisj := (List.nodup_append.mp hl).2.2
    exact absurd rfl (hdisj b (List.mem_append_left _ hb') b hb)

/-- Not the other way round. -/
theorem asymm (hl : l.Nodup) (h : Before l a b) : ¬ Before l b a := fun h' =>
  irrefl hl a (h.trans hl h')

/-- Of two one stands in front. -/
theorem total (ha : a ∈ l) (hb : b ∈ l) (hne : a ≠ b) : Before l a b ∨ Before l b a := by
  obtain ⟨l₁, l₂, rfl⟩ := List.append_of_mem ha
  simp only [before_iff_append]
  rcases List.mem_append.mp hb with hb | hb
  · exact Or.inr ⟨l₁, a :: l₂, rfl, hb, List.mem_cons_self⟩
  · have hb' := (List.mem_cons.mp hb).resolve_left (Ne.symm hne)
    exact Or.inl ⟨l₁ ++ [a], l₂, by simp, by simp, hb'⟩

/-- What stands behind is in the rest. -/
theorem mem_of_split {l₁ l₂ : List String} (hl : (l₁ ++ a :: l₂).Nodup)
    (h : Before (l₁ ++ a :: l₂) a b) : b ∈ l₂ := by
  have hne : b ≠ a := fun he => irrefl hl a (he ▸ h)
  rcases List.mem_append.mp h.mem_right with hb | hb
  · have hback : Before (l₁ ++ a :: l₂) b a :=
      before_iff_append.mpr ⟨l₁, a :: l₂, rfl, hb, List.mem_cons_self⟩
    exact absurd hback (h.asymm hl)
  · exact (List.mem_cons.mp hb).resolve_left hne

/-- What stands in front has the smaller index. -/
theorem idxOf_lt (hl : l.Nodup) (h : Before l a b) : l.idxOf a < l.idxOf b := by
  obtain ⟨l₁, l₂, rfl, ha, hb⟩ := before_iff_append.mp h
  have hb' : b ∉ l₁ := fun hb' => (List.nodup_append.mp hl).2.2 b hb' b hb rfl
  rw [List.idxOf_append_of_mem ha, List.idxOf_append_of_notMem hb']
  exact Nat.lt_of_lt_of_le (List.idxOf_lt_length_of_mem ha) (Nat.le_add_right _ _)

end Before

/-- Sequence is the order of indices. -/
theorem before_iff_idxOf_lt (hl : l.Nodup) (hb : b ∈ l) :
    Before l a b ↔ l.idxOf a < l.idxOf b := by
  refine ⟨Before.idxOf_lt hl, fun hlt => ?_⟩
  have ha : a ∈ l :=
    List.idxOf_lt_length_iff.mp (Nat.lt_trans hlt (List.idxOf_lt_length_of_mem hb))
  have hne : a ≠ b := fun he => Nat.lt_irrefl _ (he ▸ hlt)
  exact (Before.total ha hb hne).resolve_right fun h => Nat.lt_asymm hlt (h.idxOf_lt hl)

/-! ## The same sequence -/

/-- What is in both lists comes in the same sequence in both. -/
def SameSequence (k l : List String) : Prop :=
  ∀ a b, a ∈ k → b ∈ k → a ∈ l → b ∈ l → (Before k a b ↔ Before l a b)

theorem SameSequence.refl (l : List String) : SameSequence l l := fun _ _ _ _ _ _ => Iff.rfl

/-- What stays keeps its sequence. -/
theorem sameSequence_filter (l : List String) (keep : String → Bool) :
    SameSequence l (l.filter keep) := fun _ _ _ _ ha hb =>
  ⟨fun h => h.filter (List.mem_filter.mp ha).2 (List.mem_filter.mp hb).2,
    fun h => h.mono List.filter_sublist⟩

/-! ## A place behind an anchor -/

namespace Order

variable {o : Order}

/-- Placing takes nothing out. -/
theorem sublist_placeAfter (anchor id : String) :
    ∀ l : List String, l.Sublist (placeAfter anchor id l)
  | [] => List.Sublist.slnil
  | a :: l => by
      change (a :: l).Sublist ((if a = anchor then [a, id] else [a]) ++ placeAfter anchor id l)
      split
      · exact ((sublist_placeAfter anchor id l).cons id).cons_cons a
      · exact (sublist_placeAfter anchor id l).cons_cons a

/-- Taking out what was placed gives the list back. -/
theorem filter_placeAfter (anchor : String) :
    ∀ {l : List String}, id ∉ l → (placeAfter anchor id l).filter (· ≠ id) = l
  | [], _ => rfl
  | a :: l, h => by
      rw [List.mem_cons, not_or] at h
      change ((if a = anchor then [a, id] else [a]) ++ placeAfter anchor id l).filter (· ≠ id)
        = a :: l
      rw [List.filter_append, filter_placeAfter anchor h.2]
      split <;> simp [Ne.symm h.1]

/-- A new id leaves the others in their sequence. -/
theorem sameSequence_placeAfter (anchor : String) (h : id ∉ l) :
    SameSequence l (placeAfter anchor id l) := fun a b ha hb _ _ => by
  refine ⟨fun hl => hl.mono (sublist_placeAfter anchor id l), fun hp => ?_⟩
  have hne : ∀ x ∈ l, decide (x ≠ id) = true := fun x hx =>
    decide_eq_true fun he : x = id => h (he ▸ hx)
  have hf : Before ((placeAfter anchor id l).filter (· ≠ id)) a b :=
    hp.filter (hne a ha) (hne b hb)
  rwa [filter_placeAfter anchor h] at hf

/-- **The new id stands right behind the anchor.** -/
theorem before_placeAfter_anchor (h : anchor ∈ l) : Before (placeAfter anchor id l) anchor id := by
  obtain ⟨l₁, l₂, rfl⟩ := List.append_of_mem h
  rw [placeAfter_append, before_iff_append]
  refine ⟨placeAfter anchor id l₁ ++ [anchor], id :: placeAfter anchor id l₂, ?_, by simp, by simp⟩
  change _ ++ ((if anchor = anchor then [anchor, id] else [anchor]) ++ placeAfter anchor id l₂) = _
  simp

/-- What stands behind the anchor stands behind the new id. -/
theorem before_placeAfter_of_before (hl : l.Nodup) (h : Before l anchor x) :
    Before (placeAfter anchor id l) id x := by
  obtain ⟨l₁, l₂, rfl⟩ := List.append_of_mem h.mem_left
  obtain ⟨-, hl₂, hdisj⟩ := List.nodup_append.mp hl
  have hna : anchor ∉ l₁ := fun hmem => hdisj anchor hmem anchor List.mem_cons_self rfl
  have hnb := (List.nodup_cons.mp hl₂).1
  have hx : x ∈ l₂ := h.mem_of_split hl
  rw [placeAfter_split hna hnb, before_iff_append]
  exact ⟨l₁ ++ [anchor, id], l₂, by simp, by simp, hx⟩

/-- An id that stands before the anchor jumps over what is between. -/
theorem exists_ids_insertAfter (hn : o.ids.Nodup) (h : Before o.ids id anchor) :
    ∃ a b c, o.ids = a ++ id :: (b ++ anchor :: c) ∧
      (o.insertAfter anchor id).ids = a ++ (b ++ anchor :: id :: c) := by
  have hne : id ≠ anchor := fun he => Before.irrefl hn id (he ▸ h)
  obtain ⟨a, r, hsplit, hida, hidr, hrest⟩ := exists_split hn h.mem_left
  rw [hsplit] at hn
  obtain ⟨b, c, rfl⟩ := List.append_of_mem ((hsplit ▸ h).mem_of_split hn)
  rw [← List.append_assoc, nodup_split_iff] at hrest
  refine ⟨a, b, c, hsplit, ?_⟩
  rw [ids_insertAfter, if_pos ⟨hne, h.mem_right⟩, hsplit, filter_split hida hidr,
    ← List.append_assoc, placeAfter_split hrest.1 hrest.2.1, List.append_assoc]

/-- **An id moves from before the anchor to its place**, and what was behind it up to the anchor
moves up by one. -/
theorem idxOf_insertAfter (hn : o.ids.Nodup) (ha : anchor ∈ o.ids)
    (hlt : o.ids.idxOf id < o.ids.idxOf anchor) (x : String) :
    (o.insertAfter anchor id).ids.idxOf x =
      if x = id then o.ids.idxOf anchor
      else if o.ids.idxOf id < o.ids.idxOf x ∧ o.ids.idxOf x ≤ o.ids.idxOf anchor then
        o.ids.idxOf x - 1
      else o.ids.idxOf x := by
  obtain ⟨a, b, c, hids, hids'⟩ :=
    exists_ids_insertAfter hn ((before_iff_idxOf_lt hn ha).mpr hlt)
  rw [hids] at hn
  obtain ⟨hida, hidb, hrest⟩ := nodup_split_iff.mp hn
  rw [← List.append_assoc, nodup_split_iff] at hrest
  simp only [List.mem_append, List.mem_cons, not_or] at hidb hrest
  have hid : o.ids.idxOf id = a.length := by
    rw [hids]
    simp [List.idxOf_append, hida]
  have hanchor : o.ids.idxOf anchor = a.length + b.length + 1 := by
    rw [hids]
    simp [List.idxOf_append, hrest, hidb]
    omega
  rw [hid, hanchor, hids, hids']
  by_cases hx : x = id
  · simp [hx, List.idxOf_append, hida, hidb, Ne.symm hidb.2.1]
    omega
  rw [if_neg hx]
  simp only [List.idxOf_append, List.idxOf_cons, cond_eq_ite, beq_iff_eq, if_neg (Ne.symm hx)]
  by_cases hxa : x ∈ a
  · have := List.idxOf_lt_length_of_mem hxa
    simp only [hxa, if_true]
    rw [if_neg (by omega)]
  by_cases hxb : x ∈ b
  · have := List.idxOf_lt_length_of_mem hxb
    simp only [hxa, hxb, if_true, if_false]
    rw [if_pos (by omega)]
    omega
  by_cases hxc : anchor = x
  · simp only [hxa, hxb, hxc, if_true, if_false]
    rw [if_pos (by omega)]
    omega
  · simp only [hxa, hxb, hxc, if_false]
    rw [if_neg (by omega)]
    omega

end Order

end NetPlan
