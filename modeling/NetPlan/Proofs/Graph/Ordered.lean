import NetPlan.Proofs.Graph.Extract
import NetPlan.Proofs.Graph.Rework
import NetPlan.Proofs.Graph.Search

/-!
# Proofs/Graph/Ordered — orders and slots through the edits

A program is in order if its processing order is topological (`Ordered`), and aligned if every node
reads what its argument slots name (`Aligned`).  `isOrdered` is the check of the first
(`isOrdered_iff_of_listed`); here is what each rewrite of the graph has to get right to keep either.
-/

namespace NetPlan

namespace Program

/-- The processing order lists every node once, behind all it reads. -/
def Ordered (p : Program) : Prop := p.Topological p.order.ids

/-- Every node reads what its argument slots name. -/
def Aligned (p : Program) : Prop := ∀ id, p.argsOf id = p.depsOf id

variable {p q : Program} {id : String}

theorem aligned_of_nodes
    (h : ∀ n ∈ p.nodes, n.operation.arguments = n.dependencies) : p.Aligned := fun id => by
  cases hn : p.node? id with
  | none =>
    have hnot := node?_eq_none.mp hn
    rw [argsOf_of_not_contains hnot, depsOf_of_not_contains hnot]
  | some n => rw [argsOf_of_node? hn, depsOf_of_node? hn, h n (node?_eq_some hn).1]

/-- **Induction along the dependencies** of a program in order. -/
theorem Ordered.induction (h : p.Ordered) {motive : String → Prop}
    (step : ∀ u, (∀ d ∈ p.depsOf u, motive d) → motive u) (u : String) : motive u := by
  induction hk : p.order.ids.idxOf u using Nat.strong_induction_on generalizing u with
  | _ k ih =>
    refine step u fun d hd => ih (p.order.ids.idxOf d) ?_ d rfl
    exact hk ▸ (h.before u d hd).idxOf_lt h.nodup

/-- **Induction along the users** of a program in order. -/
theorem Ordered.induction_users (h : p.Ordered) {motive : String → Prop}
    (step : ∀ d, (∀ u, d ∈ p.depsOf u → motive u) → motive d) (d : String) : motive d := by
  induction hk : p.order.ids.length - p.order.ids.idxOf d using Nat.strong_induction_on
    generalizing d with
  | _ k ih =>
    refine step d fun u hd => ih (p.order.ids.length - p.order.ids.idxOf u) ?_ u rfl
    have hbefore := h.before u d hd
    have hlt := hbefore.idxOf_lt h.nodup
    have hlen := List.idxOf_lt_length_of_mem hbefore.mem_right
    omega

/-! ## The check of an order -/

theorem respects_iff : ∀ {ids seen : List String}, p.respects ids seen = true ↔
    (∀ u ∈ ids, p.contains u = true) ∧
      ∀ a u b, ids = a ++ u :: b → ∀ d ∈ p.depsOf u, d ∈ a ∨ d ∈ seen
  | [], seen => by simp [respects]
  | id :: ids, seen => by
      rw [respects]
      split
      case h_1 hn =>
        have hnot := node?_eq_none.mp hn
        simp [hnot]
      case h_2 n hn =>
        rw [Bool.and_eq_true, respects_iff, ← depsOf_of_node? hn, List.all_eq_true]
        simp only [List.contains_eq_mem, decide_eq_true_eq, List.mem_cons]
        constructor
        · rintro ⟨hdeps, hmem, hrest⟩
          refine ⟨fun u hu => hu.elim (fun he => he ▸ contains_of_node? hn) (hmem u),
            fun a u b hsplit d hd => ?_⟩
          rcases List.cons_eq_append_iff.mp hsplit with ⟨rfl, hcons⟩ | ⟨a', rfl, hcons⟩
          · obtain ⟨rfl, -⟩ := List.cons.inj hcons
            exact Or.inr (hdeps d hd)
          · rcases hrest a' u b hcons d hd with h | rfl | h
            · exact Or.inl (List.mem_cons_of_mem _ h)
            · exact Or.inl List.mem_cons_self
            · exact Or.inr h
        · rintro ⟨hmem, hrest⟩
          refine ⟨fun d hd => (hrest [] id ids rfl d hd).resolve_left List.not_mem_nil,
            fun u hu => hmem u (Or.inr hu), fun a u b hsplit d hd => ?_⟩
          rcases hrest (id :: a) u b (by rw [hsplit]; rfl) d hd with h | h
          · rcases List.mem_cons.mp h with rfl | h
            · exact Or.inr (Or.inl rfl)
            · exact Or.inl h
          · exact Or.inr (Or.inr h)

/-- **The check of an order is right**, in a program whose order lists nodes, each once. -/
theorem isOrdered_iff_of_listed (hids : p.ids.Nodup) (hnodup : p.order.ids.Nodup)
    (hnodes : ∀ x ∈ p.order.ids, p.contains x = true) : p.isOrdered = true ↔ p.Ordered := by
  have hlength : p.nodes.length = p.ids.length := by rw [ids, List.length_map]
  have hsub : p.order.ids ⊆ p.ids := fun x hx => contains_iff_mem_ids.mp (hnodes x hx)
  have hperm := List.subperm_of_subset hnodup hsub
  rw [isOrdered, Bool.and_eq_true, respects_iff, beq_iff_eq, hlength]
  constructor
  · rintro ⟨⟨-, hbefore⟩, hcount⟩
    have hall := hperm.perm_of_length_le (Nat.le_of_eq hcount.symm)
    refine ⟨hnodup, fun x => ?_, fun u d hd => ?_⟩
    · rw [hall.mem_iff, contains_iff_mem_ids]
    · have hu : u ∈ p.order.ids :=
        hall.mem_iff.mpr (contains_iff_mem_ids.mp (contains_of_mem_depsOf hd))
      obtain ⟨a, b, hsplit⟩ := List.append_of_mem hu
      have hda := (hbefore a u b hsplit d hd).resolve_right List.not_mem_nil
      rw [hsplit, before_iff_append]
      exact ⟨a, u :: b, rfl, hda, List.mem_cons_self⟩
  · intro ho
    refine ⟨⟨fun u hu => (ho.mem u).mp hu, fun a u b hsplit d hd => Or.inl ?_⟩, ?_⟩
    · have hb := ho.before u d hd
      have hnodup := ho.nodup
      rw [hsplit] at hb hnodup
      rcases List.mem_append.mp hb.mem_left with hda | hda
      · exact hda
      rcases List.mem_cons.mp hda with rfl | hda
      · exact absurd hb (Before.irrefl hnodup d)
      · have hback : Before (a ++ u :: b) u d :=
          before_iff_append.mpr ⟨a ++ [u], b, by simp, by simp, hda⟩
        exact absurd hback (hb.asymm hnodup)
    · refine Nat.le_antisymm hperm.length_le ?_
      refine (List.subperm_of_subset hids fun x hx => ?_).length_le
      exact (ho.mem x).mpr (contains_iff_mem_ids.mpr hx)

theorem isOrdered_iff (h : p.Linked) : p.isOrdered = true ↔ p.Ordered :=
  isOrdered_iff_of_listed h.ids_nodup h.order_nodup h.order_contains

/-! ## The same graph -/

theorem Ordered.of_views (hp : p.Ordered) (order : q.order.ids = p.order.ids)
    (contains : q.contains = p.contains) (deps : q.depsOf = p.depsOf) : q.Ordered where
  nodup := order ▸ hp.nodup
  mem x := by rw [order, contains, hp.mem]
  before u d hd := by
    rw [deps] at hd
    rw [order]
    exact hp.before u d hd

theorem SameGraph.ordered (h : SameGraph p q) (order : q.order.ids = p.order.ids)
    (hp : p.Ordered) : q.Ordered := hp.of_views order h.contains h.deps

theorem SameGraph.aligned (h : SameGraph p q) (hp : p.Aligned) : q.Aligned := fun j => by
  rw [h.args, h.deps, hp j]

theorem Reworked.ordered {g : Task → Task} (h : Reworked p q id g) (hp : p.Ordered) :
    q.Ordered := hp.of_views (congrArg Order.ids h.order) h.contains h.deps

theorem Reworked.aligned {g : Task → Task} (h : Reworked p q id g) (hp : p.Aligned) :
    q.Aligned := fun j => by rw [h.args, h.deps, hp j]

end Program

namespace Edit

open Program

variable {p q : Program} {id input old new next shared source : String} {index : Nat}
  {prim : Primitive} {reads : List String}

/-! ## Nodes that go -/

theorem Removed.contains_iff (h : Removed p q id) (j : String) :
    q.contains j = true ↔ j ≠ id ∧ p.contains j = true := by
  rw [contains_eq_isSome_coreOf, h.core, contains_eq_isSome_coreOf]
  by_cases hj : j = id <;> simp [hj]

theorem Removed.shapes (h : Removed p q id) (j : String) :
    q.shapeOf j = if j = id then none else p.shapeOf j := by
  rw [shapeOf_eq_coreOf, h.core, shapeOf_eq_coreOf]
  split <;> rfl

/-- Removing what is no output leaves the outputs. -/
theorem Removed.marks (h : Removed p q id) (hid : p.isMarked id = false) :
    q.isMarked = p.isMarked := funext fun j => by
  rw [isMarked_eq_coreOf, h.core, isMarked_eq_coreOf]
  split
  case isTrue hj => rw [hj, ← isMarked_eq_coreOf, hid, Option.map_none, Option.getD_none]
  case isFalse => rfl

theorem Removed.ordered (h : Removed p q id) (hp : p.Ordered) : q.Ordered where
  nodup := by
    rw [h.order]
    exact hp.nodup.filter _
  mem x := by
    rw [h.order, List.mem_filter, hp.mem, h.contains_iff]
    simp [and_comm]
  before u d hd := by
    rw [h.deps] at hd
    split at hd
    · cases hd
    case isFalse hu =>
      obtain ⟨hd, hne⟩ := List.mem_filter.mp hd
      rw [h.order]
      exact (hp.before u d hd).filter hne (by simpa using hu)

/-- Removing what nothing reads leaves the slots of the others right. -/
theorem Removed.aligned (h : Removed p q id) (hread : ∀ u, id ∉ p.depsOf u) (hp : p.Aligned) :
    q.Aligned := fun j => by
  rw [h.args, h.deps, hp j, Order.filter_ne_of_not_mem (hread j)]

theorem Bypassed.contains_iff (h : Bypassed p q id input) (j : String) :
    q.contains j = true ↔ j ≠ id ∧ p.contains j = true := by
  rw [contains_eq_isSome_shapeOf, h.shapes, contains_eq_isSome_shapeOf]
  by_cases hj : j = id <;> simp [hj]

theorem Bypassed.ne (h : Bypassed p q id input) (hl : p.Linked) : input ≠ id :=
  hl.dep_ne (by rw [h.only]; exact List.mem_singleton_self input)

/-- What read the node stands behind it, and so behind its dependency. -/
theorem Bypassed.ordered (h : Bypassed p q id input) (hp : p.Ordered) (hl : p.Linked) :
    q.Ordered where
  nodup := by
    rw [h.order]
    exact hp.nodup.filter _
  mem x := by
    rw [h.order, List.mem_filter, hp.mem, h.contains_iff]
    simp [and_comm]
  before u d hd := by
    rw [h.deps] at hd
    split at hd
    · cases hd
    case isFalse hu =>
      have hfirst : Before p.order.ids input id :=
        hp.before id input (by rw [h.only]; exact List.mem_singleton_self input)
      rw [h.order]
      rcases mem_map_swap.mp hd with ⟨rfl, hread⟩ | ⟨hne, hread⟩
      · exact (hfirst.trans hp.nodup (hp.before u id hread)).filter (by simpa using h.ne hl)
          (by simpa using hu)
      · exact (hp.before u d hread).filter (by simpa using hne) (by simpa using hu)

theorem Bypassed.aligned (h : Bypassed p q id input) (hp : p.Aligned) : q.Aligned := fun j => by
  by_cases hj : j = id
  · have hnot : ¬ q.contains j = true := fun hc => ((h.contains_iff j).mp hc).1 hj
    rw [argsOf_of_not_contains hnot, depsOf_of_not_contains hnot]
  · exact h.args j hj (hp j)

/-! ## Another id -/

theorem Renamed.ordered (h : Renamed p q old new) (hl : p.Linked) (hp : p.Ordered) :
    q.Ordered where
  nodup := by
    rw [h.order]
    exact nodup_map_swap hp.nodup fun hn => h.free ((hp.mem new).mp hn)
  mem x := by
    rw [h.order]
    constructor
    · intro hx
      rcases mem_map_swap.mp hx with ⟨rfl, -⟩ | ⟨hne, hx⟩
      · rw [contains_eq_isSome_shapeOf, h.shapes, if_pos rfl, ← contains_eq_isSome_shapeOf]
        exact h.contains
      · have hxn : x ≠ new := fun he => h.free (he ▸ (hp.mem x).mp hx)
        rw [contains_eq_isSome_shapeOf, h.shapes, if_neg hxn, if_neg hne,
          ← contains_eq_isSome_shapeOf]
        exact (hp.mem x).mp hx
    · intro hx
      obtain ⟨v, -, rfl, hv, -⟩ := h.exists_node hl hx
      exact List.mem_map_of_mem ((hp.mem v).mpr hv)
  before u d hd := by
    obtain ⟨v, -, rfl, -, hdeps, -⟩ := h.exists_node hl (contains_of_mem_depsOf hd)
    rw [hdeps] at hd
    obtain ⟨e, he, rfl⟩ := List.mem_map.mp hd
    rw [h.order]
    exact (hp.before v e he).map (swap old new)

theorem Extracted.contains_of (h : Extracted p q id input) {j : String}
    (hj : q.contains j = true) : p.contains j = true := by
  obtain ⟨r, hby, hq⟩ := h
  split at hq
  · obtain ⟨-, s, hs, -, hq⟩ := hq
    obtain ⟨v, -, rfl, hv, -⟩ := hq.exists_node hs.kept.linked hj
    rw [hs.contains, hby.contains_iff] at hv
    rw [swap]
    split
    · exact contains_of_mem_depsOf (by rw [hby.only]; exact List.mem_singleton_self input)
    · exact hv.2
  · rw [hq.contains, hby.contains_iff] at hj
    exact hj.2

/-- **The outputs stay the same**: an output that goes hands its mark on, and its id. -/
theorem Extracted.marks (h : Extracted p q id input) (hl : p.Linked) :
    q.isMarked = p.isMarked := funext fun j => by
  obtain ⟨r, hby, hq⟩ := h
  have hne := hby.ne hl
  split at hq
  case isTrue hid =>
    obtain ⟨hinput, s, -, hs, hq⟩ := hq
    rw [hq.marks]
    by_cases hj : j = id
    · rw [if_pos hj, hs, hj, hid]
      simp
    · by_cases hji : j = input
      · rw [if_neg hj, if_pos hji, hji, hinput]
      · rw [if_neg hj, if_neg hji, hs, hby.marks, if_neg hj]
        simp [hji]
  case isFalse hid =>
    rw [hq.marks, hby.marks]
    split
    case isTrue hj => rw [hj, Bool.eq_false_iff.mpr hid]
    case isFalse => rfl

theorem Extracted.ordered (h : Extracted p q id input) (hl : p.Linked) (hp : p.Ordered) :
    q.Ordered := by
  obtain ⟨r, hby, hq⟩ := h
  have hr := hby.ordered hp hl
  split at hq
  · obtain ⟨-, s, hs, -, hq⟩ := hq
    exact hq.ordered hs.kept.linked (hs.ordered (congrArg Order.ids hs.order) hr)
  · exact hq.ordered (congrArg Order.ids hq.order) hr

theorem Extracted.aligned (h : Extracted p q id input) (hp : p.Aligned) : q.Aligned := by
  obtain ⟨r, hby, hq⟩ := h
  have hr := hby.aligned hp
  split at hq
  · obtain ⟨-, s, hs, -, hq⟩ := hq
    exact hq.aligned (hs.aligned hr)
  · exact SameGraph.aligned hq.toSameGraph hr

/-! ## Nodes that come -/

theorem Inserted.source_before (h : Inserted p q prim next index source) (hp : p.Ordered) :
    Before p.order.ids source next := hp.before next source (List.mem_of_getElem? h.source_eq)

theorem Inserted.ids_order (h : Inserted p q prim next index source) (hp : p.Ordered) :
    q.order.ids = Order.placeAfter source prim.id p.order.ids := by
  rw [h.order, Order.ids_insertAfter_new fun hmem => h.free ((hp.mem prim.id).mp hmem)]
  exact (h.source_before hp).mem_left

/-- A node comes behind its place and before what reads it; what else it reads has to stand before
that place. -/
theorem Inserted.ordered_of_args (h : Inserted p q prim next index source)
    (hargs : ∀ a ∈ prim.arguments, a = source ∨ Before p.order.ids a source) (hp : p.Ordered) :
    q.Ordered := by
  have horder := h.ids_order hp
  have hfirst := h.source_before hp
  have hold := Order.sublist_placeAfter source prim.id p.order.ids
  have hnot : prim.id ∉ p.order.ids := fun hmem => h.free ((hp.mem prim.id).mp hmem)
  have hnodup : (Order.placeAfter source prim.id p.order.ids).Nodup :=
    Order.nodup_placeAfter hp.nodup hnot
  have hplaced : Before (Order.placeAfter source prim.id p.order.ids) source prim.id :=
    Order.before_placeAfter_anchor hfirst.mem_left
  refine ⟨horder ▸ hnodup, fun x => ?_, fun u d hd => ?_⟩
  · rw [horder, Order.mem_placeAfter, h.contains, hp.mem]
    simp [hfirst.mem_left, or_comm]
  · rw [horder]
    rw [h.deps] at hd
    split at hd
    case isTrue hu =>
      rw [hu]
      rcases hargs d hd with rfl | hbefore
      · exact hplaced
      · exact (hbefore.mono hold).trans hnodup hplaced
    case isFalse =>
      split at hd
      case isTrue hu =>
        rcases List.mem_or_eq_of_mem_set hd with hd | rfl
        · exact (hp.before u d hd).mono hold
        · exact hu ▸ Order.before_placeAfter_of_before hp.nodup hfirst
      case isFalse => exact (hp.before u d hd).mono hold

/-- A node that reads nothing but its place keeps the order. -/
theorem Inserted.ordered (h : Inserted p q prim next index source)
    (hargs : prim.arguments = [source]) (hp : p.Ordered) : q.Ordered :=
  h.ordered_of_args (fun _ ha => Or.inl (List.mem_singleton.mp (hargs ▸ ha))) hp

theorem Inserted.aligned (h : Inserted p q prim next index source) (hp : p.Aligned) :
    q.Aligned := fun j => h.args j (Or.inr (hp j))

/-- A shared node has to stand before what comes to read it. -/
theorem Shared.ordered (h : Shared p q shared next index source)
    (hplaced : Before p.order.ids shared next) (hp : p.Ordered) : q.Ordered := by
  refine ⟨h.order ▸ hp.nodup, fun x => ?_, fun u d hd => ?_⟩
  · rw [h.order, contains_congr h.ids, hp.mem]
  · rw [h.order]
    rw [h.deps] at hd
    split at hd
    case isTrue hu =>
      rcases List.mem_or_eq_of_mem_set hd with hd | rfl
      · exact hp.before u d hd
      · exact hu ▸ hplaced
    case isFalse => exact hp.before u d hd

theorem Shared.aligned (h : Shared p q shared next index source) (hp : p.Aligned) :
    q.Aligned := fun j => h.args j (hp j)

/-! ## Another node in one place -/

theorem Replaced.ordered (h : Replaced p q old prim reads)
    (hreads : ∀ d ∈ reads, d ≠ old → Before p.order.ids d old) (hp : p.Ordered) : q.Ordered := by
  refine ⟨h.order ▸ hp.nodup, fun x => ?_, fun u d hd => ?_⟩
  · rw [h.order, h.contains, hp.mem]
  · rw [h.order]
    rw [h.deps] at hd
    split at hd
    case isTrue hu =>
      obtain ⟨hd, hne⟩ := List.mem_filter.mp hd
      exact hu ▸ hreads d hd (by simpa using hne)
    case isFalse => exact hp.before u d hd

theorem Replaced.aligned (h : Replaced p q old prim reads)
    (hargs : prim.arguments = reads.filter (· ≠ old)) (hp : p.Aligned) : q.Aligned := fun j =>
  h.args j (by
    split
    · exact hargs
    · exact hp j)

end Edit

end NetPlan
