import NetPlan.Proofs.Graph.Ordered
import NetPlan.Proofs.Graph.Search
import NetPlan.Proofs.Layout.Coherence

/-!
# Proofs/Graph/Between — where a node can be put between two others

`addIntermediate` puts a new node right behind what it is put in front of, or takes a reorder that is
there as it stands.  It looks at neither the further arguments of the one nor the place of the other,
so an order that was topological need not stay so:

* `Inserted.ordered_iff`, `Shared.ordered_iff` — it does iff the node comes to stand behind all that
  it reads and before the node that reads it;
* `Inserted.acyclic_iff`, `Shared.acyclic_iff` — and there is no cycle iff the reader leads to
  nothing that the node reads;
* `addIntermediate_ordered_iff` — both together, a reorder in front of itself included.
-/

namespace NetPlan.Edit

open Program Relation

variable {p q : Program} {next shared source : String} {prim : Primitive} {index : Nat}

/-! ## Cycles through a new edge -/

section Cycles

/-- What a node leads to is led to still, if only edges into that node were dropped. -/
theorem reaches_of_kept (hp : p.Acyclic) (h : ∀ u d, u ≠ next → p.Reads d u → q.Reads d u)
    {a : String} (ha : ReflTransGen p.Reads next a) : ReflTransGen q.Reads next a := by
  induction ha with
  | refl => exact .refl
  | tail hb hbc ih =>
    exact ih.tail (h _ _ (fun he => hp next (TransGen.tail' hb (he ▸ hbc))) hbc)

/-- **No cycle comes about** as long as what the new edges start from is not led to by the node they
end in, or stands before it anyway. -/
theorem acyclic_of_unreached (next : String) (hp : p.Ordered)
    (h : ∀ u d, q.Reads d u → p.Reads d u ∨ ¬ ReflTransGen p.Reads next d ∧
      (u = next ∨ p.order.ids.idxOf d < p.order.ids.idxOf u)) : q.Acyclic := by
  classical
  -- what the node leads to is moved behind everything else
  let rank (x : String) : Nat :=
    (if ReflTransGen p.Reads next x then p.order.ids.length + 1 else 0) + p.order.ids.idxOf x
  refine acyclic_of_rank rank fun u d hd => ?_
  have hlen : p.order.ids.idxOf d ≤ p.order.ids.length := List.idxOf_le_length
  dsimp only [rank]
  rcases h u d hd with hold | ⟨hd, rfl | hlt⟩
  · have hlt := (hp.before u d hold).idxOf_lt hp.nodup
    by_cases hreach : ReflTransGen p.Reads next d
    · rw [if_pos hreach, if_pos (hreach.tail hold)]
      omega
    · rw [if_neg hreach]
      omega
  · rw [if_neg hd, if_pos .refl]
    omega
  · rw [if_neg hd]
    omega

end Cycles

/-! ## A new node -/

/-- **A new node keeps the order** iff its further arguments stand before its place. -/
theorem Inserted.ordered_iff (h : Inserted p q prim next index source) (hp : p.Ordered) :
    q.Ordered ↔ ∀ a ∈ prim.arguments, a = source ∨ Before p.order.ids a source := by
  refine ⟨fun hq a ha => or_iff_not_imp_left.mpr fun hne => ?_, fun hargs =>
    h.ordered_of_args hargs hp⟩
  have hfirst := h.source_before hp
  have hbefore : Before q.order.ids a prim.id := hq.before prim.id a (by
    rw [h.deps, if_pos rfl]
    exact ha)
  -- an argument behind the place of the node would be behind the node
  refine (Before.total ((hp.mem a).mpr (h.known a ha)) hfirst.mem_left hne).resolve_right
    fun hbehind => hbefore.asymm hq.nodup ?_
  rw [h.ids_order hp]
  exact Order.before_placeAfter_of_before hp.nodup hbehind

/-- **A new node closes a cycle** iff the next node leads to one of its arguments. -/
theorem Inserted.acyclic_iff (h : Inserted p q prim next index source) (hp : p.Ordered) :
    q.Acyclic ↔ ∀ a ∈ prim.arguments, ¬ ReflTransGen p.Reads next a := by
  have hne : next ≠ prim.id := fun he =>
    h.free (he ▸ contains_of_mem_depsOf (List.mem_of_getElem? h.source_eq))
  have hnot : prim.id ∉ p.order.ids := fun hmem => h.free ((hp.mem prim.id).mp hmem)
  constructor
  · intro hq a ha hreach
    have hkept : ReflTransGen q.Reads next a :=
      reaches_of_kept (Topological.acyclic hp) (fun u d hu hd => by
        have hup : u ≠ prim.id := fun he => h.free (he ▸ contains_of_mem_depsOf hd)
        rw [Reads, h.deps, if_neg hup, if_neg hu]
        exact hd) hreach
    have hin : q.Reads a prim.id := by
      rw [Reads, h.deps, if_pos rfl]
      exact ha
    have hout : q.Reads prim.id next := by
      rw [Reads, h.deps, if_neg hne, if_pos rfl]
      exact List.mem_set (List.getElem?_eq_some_iff.mp h.source_eq).1 _
    exact hq next ((TransGen.tail' hkept hin).tail hout)
  · intro hargs
    refine acyclic_of_unreached next hp fun u d hd => ?_
    rw [Reads, h.deps] at hd
    split at hd
    case isTrue hu =>
      refine Or.inr ⟨hargs d hd, Or.inr ?_⟩
      rw [hu, List.idxOf_of_notMem hnot]
      exact List.idxOf_lt_length_of_mem ((hp.mem d).mpr (h.known d hd))
    case isFalse =>
      split at hd
      case isTrue hu =>
        rcases List.mem_or_eq_of_mem_set hd with hd | rfl
        · exact Or.inl hd
        · refine Or.inr ⟨fun hreach => ?_, Or.inl hu⟩
          rcases hreach.cases_tail with he | ⟨b, -, hb⟩
          · exact hne he.symm
          · exact h.free (contains_of_mem_depsOf hb)
      case isFalse => exact Or.inl hd

/-! ## A shared node -/

theorem Shared.reads_shared (h : Shared p q shared next index source) : q.Reads shared next := by
  rw [Reads, h.deps, if_pos rfl]
  exact List.mem_set (List.getElem?_eq_some_iff.mp h.source_eq).1 _

/-- **A shared node keeps the order** iff it stands before the node that comes to read it. -/
theorem Shared.ordered_iff (h : Shared p q shared next index source) (hp : p.Ordered) :
    q.Ordered ↔ Before p.order.ids shared next :=
  ⟨fun hq => h.order ▸ hq.before next shared h.reads_shared, fun hb => h.ordered hb hp⟩

/-- **A shared node closes a cycle** iff the next node leads to it. -/
theorem Shared.acyclic_iff (h : Shared p q shared next index source) (hp : p.Ordered) :
    q.Acyclic ↔ ¬ ReflTransGen p.Reads next shared := by
  constructor
  · intro hq hreach
    have hkept : ReflTransGen q.Reads next shared :=
      reaches_of_kept (Topological.acyclic hp) (fun u d hu hd => by
        rw [Reads, h.deps, if_neg hu]
        exact hd) hreach
    exact hq next (TransGen.tail' hkept h.reads_shared)
  · intro hreach
    refine acyclic_of_unreached next hp fun u d hd => ?_
    rw [Reads, h.deps] at hd
    split at hd
    case isTrue hu =>
      rcases List.mem_or_eq_of_mem_set hd with hd | rfl
      · exact Or.inl hd
      · exact Or.inr ⟨hreach, Or.inl hu⟩
    case isFalse => exact Or.inl hd

/-! ## A node in front of itself -/

section Self

/-- A reorder that is put in front of itself leaves the order as it was. -/
theorem order_addIntermediate_self (hself : prim.id = next) :
    Ends (addIntermediate prim next index) (fun _ q => q.order = p.order) (fun _ _ => True) p := by
  rw [addIntermediate, ends_bind, ends_node]
  refine ⟨fun n hn => ?_, fun _ => trivial⟩
  split
  · trivial
  rw [ends_bind, placeIntermediate, ends_bind, ends_get, hself, hn]
  dsimp only
  split
  · trivial
  rw [ends_pure, ends_bind]
  refine replaceDependency_effect.imp (fun _ q hq => ?_) fun _ _ _ => trivial
  exact sameWiring_inheritFlags.imp (fun _ r hr => hr.order.trans hq.2.1.order) fun _ _ _ => trivial

/-- A node that reads itself is out of order wherever it stands. -/
theorem not_isOrdered_of_self {u : String} (hu : u ∈ p.depsOf u) (hmem : u ∈ p.order.ids) :
    p.isOrdered = false := by
  rw [Bool.eq_false_iff]
  intro ho
  rw [isOrdered, Bool.and_eq_true, respects_iff] at ho
  obtain ⟨a, b, hsplit, hfirst⟩ := List.eq_append_cons_of_mem hmem
  rcases ho.1.2 a u b hsplit u hu with h | h
  · exact hfirst h
  · exact List.not_mem_nil h

/-- **A reorder in front of itself** reads itself. -/
theorem disorders_addIntermediate_self (hp : p.Ordered) (hself : prim.id = next)
    (hc : p.contains next = true) :
    Ends (addIntermediate prim next index) (fun _ q => q.isOrdered = false ∧ ¬ q.Acyclic)
      (fun _ _ => True) p :=
  ((mem_depsOf_addIntermediate hself).and (order_addIntermediate_self hself)).imp
    (fun _ _ hq => ⟨not_isOrdered_of_self hq.1 (hq.2 ▸ (hp.mem next).mpr hc),
      fun hacyclic => hacyclic.not_mem_self next hq.1⟩)
    fun _ _ _ => trivial

end Self

/-! ## Inserting -/

/-- Whether a node can stand between another and its dependency: it is there and stands before the
other, or it is new and its further arguments stand before the dependency. -/
def FitsBetween (p : Program) (prim : Primitive) (next : String) (index : Nat) : Prop :=
  if p.contains prim.id then Before p.order.ids prim.id next
  else ∀ source, (p.depsOf next)[index]? = some source →
    ∀ a ∈ prim.arguments, a = source ∨ Before p.order.ids a source

/-- Whether a node leads back to what is put in front of it, or to what that would read. -/
def LeadsBack (p : Program) (prim : Primitive) (next : String) : Prop :=
  if p.contains prim.id then ReflTransGen p.Reads next prim.id
  else ∃ a ∈ prim.arguments, ReflTransGen p.Reads next a

/-- **Inserting, and the order.**  A node that was put between two others left the order topological
iff it can stand between them there, and the graph without cycles iff the reader does not lead back
to it; an order that is topological has no cycles. -/
theorem addIntermediate_ordered_iff (h : p.WellFormed) (hp : p.isOrdered = true)
    (hrun : (addIntermediate prim next index).run.run p = (.ok (), q)) :
    (q.isOrdered = true ↔ FitsBetween p prim next index) ∧
    (q.Acyclic ↔ ¬ LeadsBack p prim next) ∧
    (q.isOrdered = true → q.Acyclic) := by
  have hl := h.toLinked
  have ho := (isOrdered_iff hl).mp hp
  by_cases hself : prim.id = next ∧ p.isReorder next
  · -- the reorder reads itself now
    obtain ⟨hself, hreorder⟩ := hself
    have hc := contains_of_isReorder hreorder
    have hends : Ends (addIntermediate prim next index) _ _ p :=
      disorders_addIntermediate_self ho hself hc
    rw [Ends, hrun] at hends
    obtain ⟨hnot, hcycle⟩ := hends
    rw [FitsBetween, LeadsBack, hself, if_pos hc, if_pos hc, hnot]
    exact ⟨iff_of_false (by decide) (Before.irrefl ho.nodup next),
      iff_of_false hcycle (not_not_intro .refl), fun he => absurd he Bool.false_ne_true⟩
  · have hends : Ends (addIntermediate prim next index) _ _ p :=
      addIntermediate_effect hl fun hid hr => hself ⟨hid, hr⟩
    rw [Ends, hrun] at hends
    obtain ⟨source, hins | hshared⟩ := hends
    · have hq := isOrdered_iff hins.kept.linked
      refine ⟨?_, ?_, fun hqo => Topological.acyclic (hq.mp hqo)⟩
      · rw [hq, hins.ordered_iff ho, FitsBetween, if_neg hins.free]
        exact ⟨fun hargs s hs => Option.some.inj (hins.source_eq.symm.trans hs) ▸ hargs,
          fun hargs => hargs source hins.source_eq⟩
      · rw [hins.acyclic_iff ho, LeadsBack, if_neg hins.free]
        simp only [not_exists, not_and]
    · have hq := isOrdered_iff hshared.kept.linked
      have hc := contains_of_isReorder hshared.reorder
      refine ⟨?_, ?_, fun hqo => Topological.acyclic (hq.mp hqo)⟩
      · rw [hq, hshared.ordered_iff ho, FitsBetween, if_pos hc]
      · rw [hshared.acyclic_iff ho, LeadsBack, if_pos hc]

end NetPlan.Edit

namespace NetPlan

/-- An input and its reader, and another input listed before or behind the two. -/
def Topology.beside (first : Bool) : Topology :=
  let y : Primitive := ⟨"y", .none, .inputLayout (.dense .f32 .bfyx ⟨1, 1, 1, 1⟩)⟩
  let pair : List Primitive :=
    [⟨"x", .none, .inputLayout (.dense .f32 .bfyx ⟨1, 1, 1, 1⟩)⟩, ⟨"a", .none, .softmax ⟨"x", .x⟩⟩]
  ⟨if first then y :: pair else pair ++ [y]⟩

/-- A sum of the first input and something else. -/
def Primitive.sumWith (other : String) : Primitive :=
  ⟨"n", .none, .eltwise ⟨["x", other], .sum, [], .none⟩⟩

/-- A sum of two inputs in front of the reader of one, where the other comes first. -/
theorem addIntermediate_ordered_iff_beside : ∃ q,
    (Edit.addIntermediate (.sumWith "y") "a" 0).run.run (.laidOut (.beside false)) = (.ok (), q) ∧
    q.order.ids = ["y", "x", "n", "a"] ∧ q.isOrdered = true ∧ q.Acyclic := by
  obtain ⟨_, hrun⟩ := exists_run_eq_ok (x := Edit.addIntermediate (.sumWith "y") "a" 0)
    (s := .laidOut (.beside false)) (by decide +kernel)
  obtain ⟨hordered, -, hacyclic⟩ := Edit.addIntermediate_ordered_iff
    (Program.laidOut_spec (by unfold Topology.Distinct; decide)).1 (by decide +kernel) hrun
  have hdeps : ((Program.laidOut (.beside false)).depsOf "a")[0]? = some "x" := by decide +kernel
  have hfits : Edit.FitsBetween (.laidOut (.beside false)) (.sumWith "y") "a" 0 := by
    rw [Edit.FitsBetween, if_neg (by decide +kernel)]
    intro source hsource
    cases hdeps.symm.trans hsource
    unfold Before
    decide +kernel
  exact ⟨_, hrun, by decide +kernel, hordered.mpr hfits, hacyclic (hordered.mpr hfits)⟩

/-- **An argument that comes later** leaves the order wrong, and one that reads the reader closes a
cycle. -/
theorem addIntermediate_disorders :
    (Program.laidOut (.beside true)).WellFormed ∧
    (Program.laidOut (.beside true)).isOrdered = true ∧
    (∃ q, (Edit.addIntermediate (.sumWith "y") "a" 0).run.run (.laidOut (.beside true))
        = (.ok (), q) ∧
      q.order.ids = ["x", "n", "a", "y"] ∧ q.isOrdered = false) ∧
    ∃ q, (Edit.addIntermediate (.sumWith "a") "a" 0).run.run (.laidOut (.beside true))
        = (.ok (), q) ∧
      q.isOrdered = false ∧ ¬ q.Acyclic := by
  obtain ⟨_, hlate⟩ := exists_run_eq_ok (x := Edit.addIntermediate (.sumWith "y") "a" 0)
    (s := .laidOut (.beside true)) (by decide +kernel)
  obtain ⟨_, hcycle⟩ := exists_run_eq_ok (x := Edit.addIntermediate (.sumWith "a") "a" 0)
    (s := .laidOut (.beside true)) (by decide +kernel)
  refine ⟨(Program.laidOut_spec (by unfold Topology.Distinct; decide)).1, by decide +kernel,
    ⟨_, hlate, by decide +kernel, by decide +kernel⟩,
    _, hcycle, by decide +kernel, fun hacyclic => ?_⟩
  have hin : "a" ∈ ((Edit.addIntermediate (.sumWith "a") "a" 0).run.run
      (.laidOut (.beside true))).2.depsOf "n" := by decide +kernel
  have hout : "n" ∈ ((Edit.addIntermediate (.sumWith "a") "a" 0).run.run
      (.laidOut (.beside true))).2.depsOf "a" := by decide +kernel
  exact hacyclic "a" (.tail (.single hin) hout)

end NetPlan
