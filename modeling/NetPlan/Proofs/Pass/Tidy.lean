import NetPlan.Proofs.Pass.Flags

/-!
# Proofs/Pass/Tidy — graphs without dead ends

Once what no output depends on is gone, a graph is `Tidy`, and stays so: every node is an output, is
read, or is an input of the network (`Live`), literals read nothing (`Grounded`), and every node has its
place behind what it reads (`Seated`).  Weighted nodes are exempt from the last: such a node may come to
read a reorder that was made for another one and stands behind it.

* `Extracted.seated`, `Contracted.grounded`, `Contracted.live` — two nodes become one;
* `Inserted.tidy`, `Shared.tidy` — a reorder comes in between;
* `Fused.live` — three nodes become one;
* `Removed.seated`, `Folded.seated` — a constant goes, or becomes a literal.  Its input may be left a
  dead end by that.
-/

namespace NetPlan

namespace Program

variable {p q : Program} {i j : String}

/-- Every node that carries no weights stands behind what it reads. -/
structure Seated (p : Program) : Prop where
  mem : ∀ id, p.contains id = true → id ∈ p.order.ids
  before : ∀ u d, ¬ p.isWeighted u → d ∈ p.depsOf u → Before p.order.ids d u

/-- Literals read nothing. -/
def Grounded (p : Program) : Prop := ∀ id, p.kindOf id = some .data → p.depsOf id = []

/-- No node is a dead end, inputs of the network apart. -/
def Live (p : Program) : Prop :=
  ∀ id, p.contains id = true →
    p.isMarked id = true ∨ (∃ u, id ∈ p.depsOf u) ∨ p.kindOf id = some .inputLayout

/-- All seats are taken, no literal reads anything, and every node is there for something. -/
structure Tidy (p : Program) : Prop extends Seated p where
  grounded : p.Grounded
  live : p.Live

/-- Weights go by the kind of the node. -/
theorem isWeighted_iff_kindOf :
    p.isWeighted j ↔ ∃ k, p.kindOf j = some k ∧ k.isWeighted = true := by
  rw [isWeighted, kindOf]
  cases p.shapeOf j <;> simp

/-- Nodes of one kind both have weights, or neither has. -/
theorem isWeighted_congr_kindOf (h : q.kindOf j = p.kindOf i) : q.isWeighted j ↔ p.isWeighted i := by
  rw [isWeighted_iff_kindOf, h, isWeighted_iff_kindOf]

/-- A node is there if it has a kind. -/
theorem contains_eq_isSome_kindOf (p : Program) (id : String) :
    p.contains id = (p.kindOf id).isSome := by
  rw [contains_eq_isSome_shapeOf, kindOf, Option.isSome_map]

/-- Reorders are a kind. -/
theorem kindOf_of_isReorder (h : p.isReorder j) : p.kindOf j = some .reorder := by
  obtain ⟨r, hr⟩ := h
  exact kindOf_of_shapeOf hr

/-- Nodes with one task are of one kind. -/
theorem kindOf_of_taskOf (h : q.taskOf j = p.taskOf i) : q.kindOf j = p.kindOf i := by
  rw [kindOf_eq_taskOf, h, kindOf_eq_taskOf]

/-- In a topological order every node is seated. -/
theorem Ordered.seated (h : p.Ordered) : p.Seated :=
  ⟨fun id => (h.mem id).mpr, fun u d _ => h.before u d⟩

/-! ## The same graph -/

/-- Seats go by the order, the edges and the kinds. -/
theorem Seated.of_views (h : p.Seated) (order : q.order.ids = p.order.ids)
    (contains : q.contains = p.contains) (kinds : q.kindOf = p.kindOf) (deps : q.depsOf = p.depsOf) :
    q.Seated where
  mem id hid := by
    rw [order]
    exact h.mem id (contains ▸ hid)
  before u d hu hd := by
    rw [order]
    rw [isWeighted_congr_kindOf (congrFun kinds u)] at hu
    exact h.before u d hu (deps ▸ hd)

/-- Ground goes by the edges and the kinds. -/
theorem Grounded.of_views (h : p.Grounded) (kinds : q.kindOf = p.kindOf)
    (deps : q.depsOf = p.depsOf) : q.Grounded := fun id hid => by
  rw [deps]
  exact h id (kinds ▸ hid)

/-- More outputs do no harm. -/
theorem Live.of_views (h : p.Live) (marks : ∀ j, p.isMarked j = true → q.isMarked j = true)
    (contains : q.contains = p.contains) (kinds : q.kindOf = p.kindOf) (deps : q.depsOf = p.depsOf) :
    q.Live := fun id hid => by
  rw [deps, kinds]
  exact (h id (contains ▸ hid)).imp_left (marks id)

/-- The same marks are no fewer. -/
theorem isMarked_of_eq (h : q.isMarked = p.isMarked) (j : String) (hj : p.isMarked j = true) :
    q.isMarked j = true := by rwa [h]

/-- The same graph has the same kinds. -/
theorem SameGraph.kinds (h : SameGraph p q) : q.kindOf = p.kindOf :=
  funext fun j => kindOf_of_taskOf (congrFun h.tasks j)

/-- Life goes by the edges, the kinds and the marks. -/
theorem Live.sameGraph (h : p.Live) (hq : SameGraph p q)
    (marks : ∀ j, p.isMarked j = true → q.isMarked j = true) : q.Live :=
  h.of_views marks hq.contains hq.kinds hq.deps

/-- Touching flags takes no life. -/
theorem Live.touched (h : p.Live) (hq : Reflagged p q) : q.Live :=
  h.sameGraph hq.toSameGraph (isMarked_of_eq hq.marks)

/-- Tidiness goes by the order, the edges, the kinds and the marks. -/
theorem Tidy.sameGraph (h : p.Tidy) (hq : SameGraph p q) (order : q.order.ids = p.order.ids)
    (marks : ∀ j, p.isMarked j = true → q.isMarked j = true) : q.Tidy :=
  ⟨h.toSeated.of_views order hq.contains hq.kinds hq.deps, h.grounded.of_views hq.kinds hq.deps,
    h.live.sameGraph hq marks⟩

/-- Touching flags leaves a graph tidy. -/
theorem Tidy.touched (h : p.Tidy) (hq : Reflagged p q) : q.Tidy :=
  h.sameGraph hq.toSameGraph (congrArg Order.ids hq.order) (isMarked_of_eq hq.marks)

section Reworked

variable {g : Task → Task} (hq : Reworked p q i g)
  (hg : ∀ t, (g t).operation.kind = t.operation.kind)
include hq hg

/-- A node that is reworked keeps its kind. -/
theorem Reworked.kinds : q.kindOf = p.kindOf := funext fun j => by
  rw [kindOf_eq_taskOf, hq.tasks, kindOf_eq_taskOf]
  split
  · rw [Option.map_map]
    exact congrArg (fun k => (p.taskOf j).map k) (funext hg)
  · rfl

/-- And its seat. -/
theorem Seated.reworked (h : p.Seated) : q.Seated :=
  h.of_views (congrArg Order.ids hq.order) hq.contains (hq.kinds hg) hq.deps

/-- Reworking a node leaves a graph tidy. -/
theorem Tidy.reworked (h : p.Tidy) : q.Tidy :=
  ⟨h.toSeated.reworked hq hg, h.grounded.of_views (hq.kinds hg) hq.deps,
    h.live.of_views (isMarked_of_eq hq.marks) hq.contains (hq.kinds hg) hq.deps⟩

end Reworked

end Program

namespace Edit

open Program

variable {p q : Program} {id input old new next source : String} {index : Nat} {prim : Primitive}
  {g : Task → Task}

/-! ## Nodes that go -/

/-- A node that is removed has no kind, and the others keep theirs. -/
theorem Removed.kinds (h : Removed p q id) (j : String) :
    q.kindOf j = if j = id then none else p.kindOf j := by
  rw [kindOf, h.shapes]
  split <;> rfl

/-- The others keep their seats. -/
theorem Removed.seated (h : Removed p q id) (hp : p.Seated) : q.Seated where
  mem j hj := by
    obtain ⟨hne, hj⟩ := (h.contains_iff j).mp hj
    rw [h.order, List.mem_filter]
    exact ⟨hp.mem j hj, by simpa using hne⟩
  before u d hu hd := by
    rw [h.deps] at hd
    split at hd
    · cases hd
    case isFalse hne =>
      obtain ⟨hd, hne'⟩ := List.mem_filter.mp hd
      rw [isWeighted_congr_kindOf ((h.kinds u).trans (if_neg hne))] at hu
      rw [h.order]
      exact (hp.before u d hu hd).filter hne' (by simpa using hne)

/-- Literals read nothing still. -/
theorem Removed.grounded (h : Removed p q id) (hp : p.Grounded) : q.Grounded := fun j hj => by
  rw [h.kinds] at hj
  rw [h.deps]
  split
  · rfl
  case isFalse hne =>
    rw [if_neg hne] at hj
    rw [hp j hj, List.filter_nil]

/-- What read the node stands behind it, and so behind its dependency. -/
theorem Bypassed.seated (h : Bypassed p q id input) (hl : p.Linked) (hid : ¬ p.isWeighted id)
    (hp : p.Seated) : q.Seated where
  mem j hj := by
    obtain ⟨hne, hj⟩ := (h.contains_iff j).mp hj
    rw [h.order, List.mem_filter]
    exact ⟨hp.mem j hj, by simpa using hne⟩
  before u d hu hd := by
    rw [h.deps] at hd
    split at hd
    · cases hd
    case isFalse hne =>
      have hkind : q.kindOf u = p.kindOf u :=
        kindOf_of_taskOf ((h.tasks u).trans (if_neg hne))
      rw [isWeighted_congr_kindOf hkind] at hu
      have hfirst : Before p.order.ids input id :=
        hp.before id input hid (by rw [h.only]; exact List.mem_singleton_self input)
      rw [h.order]
      rcases mem_map_swap.mp hd with ⟨rfl, hread⟩ | ⟨hne', hread⟩
      · exact (hfirst.trans hl.order_nodup (hp.before u id hu hread)).filter
          (by simpa using h.ne hl) (by simpa using hne)
      · exact (hp.before u d hu hread).filter (by simpa using hne') (by simpa using hne)

/-- A renamed node keeps its seat. -/
theorem Renamed.seated (h : Renamed p q old new) (hl : p.Linked) (hp : p.Seated) : q.Seated where
  mem j hj := by
    obtain ⟨v, -, rfl, hv, -⟩ := h.exists_node hl hj
    rw [h.order]
    exact List.mem_map_of_mem (hp.mem v hv)
  before u d hu hd := by
    obtain ⟨v, -, rfl, -, hdeps, hshape, -⟩ := h.exists_node hl (contains_of_mem_depsOf hd)
    rw [isWeighted_congr_kindOf (kindOf_congr hshape)] at hu
    rw [hdeps] at hd
    obtain ⟨e, he, rfl⟩ := List.mem_map.mp hd
    rw [h.order]
    exact (hp.before v e hu he).map (swap old new)

/-- A node that makes way was seated behind its input, and so are its users. -/
theorem Extracted.seated (h : Extracted p q id input) (hl : p.Linked) (hid : ¬ p.isWeighted id)
    (hp : p.Seated) : q.Seated := by
  obtain ⟨r, hby, hq⟩ := h
  have hr := hby.seated hl hid hp
  split at hq
  · obtain ⟨-, s, hs, -, hq⟩ := hq
    have hs' := hr.of_views (congrArg Order.ids hs.order) hs.contains hs.toSameGraph.kinds hs.deps
    exact hq.seated hs.kept.linked hs'
  · exact hr.of_views (congrArg Order.ids hq.order) hq.contains hq.toSameGraph.kinds hq.deps

namespace Contracted

variable (h : Contracted p q id input g) (hg : ∀ t, (g t).operation.kind = t.operation.kind)
include h

include hg in
/-- What survives does what the input did. -/
theorem kind_survivor : q.kindOf (survivor p id input) = p.kindOf input := by
  rw [kindOf_eq_taskOf, h.task, Option.map_map, kindOf_eq_taskOf]
  exact congrArg (fun k => (p.taskOf input).map k) (funext hg)

/-- All others do what they did. -/
theorem kind_of_ne {j : String} (hj : j ≠ id) (hj' : j ≠ input) : q.kindOf j = p.kindOf j :=
  kindOf_of_taskOf (h.tasks j hj hj')

include hg in
/-- Literals read nothing still. -/
theorem grounded (hp : p.Grounded) : q.Grounded := fun j hj => by
  rcases h.exists_onto (by rw [contains_eq_isSome_kindOf, hj]; rfl) with rfl | ⟨hne, hne', -⟩
  · rw [h.kind_survivor hg] at hj
    rw [h.reads, hp input hj]
  · rw [h.kind_of_ne hne hne'] at hj
    rw [h.deps j hne hne', hp j hj, List.map_nil]

/-- **Nothing becomes a dead end**: what read the node reads the survivor, and what the input read the
survivor reads. -/
theorem live (hl : p.Linked) (hid : p.kindOf id ≠ some .inputLayout) (hp : p.Live) :
    q.Live := by
  have hreads : ∀ i u, i ∈ p.depsOf u → i ≠ input → ∃ v, onto p id input i ∈ q.depsOf v := by
    intro i u hd hi
    by_cases hu : u = id
    · rw [hu, h.only, List.mem_singleton] at hd
      exact absurd hd hi
    by_cases hu' : u = input
    · refine ⟨survivor p id input, ?_⟩
      rw [h.reads, ← h.map_onto hl]
      exact List.mem_map_of_mem (hu' ▸ hd)
    · refine ⟨u, ?_⟩
      rw [h.deps u hu hu']
      exact List.mem_map_of_mem hd
  intro j hj
  rw [h.marks]
  rcases h.exists_onto hj with rfl | ⟨hne, hne', hthere⟩
  · -- the survivor is read where the node was read
    have hid' : p.contains id = true :=
      contains_of_mem_depsOf (by rw [h.only]; exact List.mem_singleton_self input)
    refine (hp id hid').imp (fun hm => ?_) fun hlive => Or.inl ?_
    · rwa [survivor, if_pos hm]
    · obtain ⟨u, hu⟩ := hlive.resolve_right hid
      rw [← onto_id]
      exact hreads id u hu (h.ne hl).symm
  · rw [h.kind_of_ne hne hne']
    refine (hp j hthere).imp_right fun hlive => hlive.imp_left ?_
    rintro ⟨u, hu⟩
    rw [← onto_of_ne (p := p) hne hne']
    exact hreads j u hu hne'

end Contracted

/-! ## Nodes that come -/

/-- What is not overwritten is still there. -/
theorem mem_set_of_ne {l : List String} {i r : String} (hi : i ∈ l) (hsource : l[index]? = some source)
    (hne : i ≠ source) : i ∈ l.set index r := by
  obtain ⟨k, hk, rfl⟩ := List.getElem_of_mem hi
  have hki : index ≠ k := fun he => hne (Option.some.inj (by
    rw [← hsource, he, List.getElem?_eq_getElem hk]))
  exact List.mem_iff_getElem.mpr ⟨k, by rwa [List.length_set], List.getElem_set_ne hki _⟩

section Inserted

variable (h : Inserted p q prim next index source) (hargs : prim.arguments = [source])
  (hreorder : prim.operation.kind = .reorder)
include h

/-- The new node is of the kind that is asked for. -/
theorem Inserted.kinds (j : String) :
    q.kindOf j = if j = prim.id then some prim.operation.kind else p.kindOf j := by
  rw [kindOf, h.shapes]
  split
  · rw [Option.map_some, Operation.kind_shape]
  · rfl

include hargs

/-- It is seated between the two. -/
theorem Inserted.seated (hl : p.Linked) (hp : p.Seated) : q.Seated := by
  have hread : source ∈ p.depsOf next := List.mem_of_getElem? h.source_eq
  have hsource : source ∈ p.order.ids := hp.mem source (hl.contains_dep hread)
  have horder : q.order.ids = Order.placeAfter source prim.id p.order.ids := by
    rw [h.order, Order.ids_insertAfter_new
      (fun hmem => h.free (hl.order_contains prim.id hmem)) hsource]
  have hold := Order.sublist_placeAfter source prim.id p.order.ids
  refine ⟨fun j hj => ?_, fun u d hu hd => ?_⟩
  · rw [horder, Order.mem_placeAfter]
    rcases (h.contains j).mp hj with rfl | hj
    · exact Or.inr ⟨rfl, hsource⟩
    · exact Or.inl (hp.mem j hj)
  · rw [horder]
    rw [h.deps, hargs] at hd
    split at hd
    case isTrue hself =>
      rw [hself, List.mem_singleton.mp hd]
      exact Order.before_placeAfter_anchor hsource
    case isFalse hne =>
      rw [isWeighted_congr_kindOf ((h.kinds u).trans (if_neg hne))] at hu
      split at hd
      case isTrue hnext =>
        rcases List.mem_or_eq_of_mem_set hd with hd | rfl
        · exact (hp.before u d hu hd).mono hold
        · subst hnext
          exact Order.before_placeAfter_of_before hl.order_nodup (hp.before u source hu hread)
      case isFalse => exact (hp.before u d hu hd).mono hold

include hreorder in
/-- **A reorder in between** reads the one node and is read by the other. -/
theorem Inserted.tidy (hl : p.Linked) (hp : p.Tidy) : q.Tidy := by
  have hread : source ∈ p.depsOf next := List.mem_of_getElem? h.source_eq
  have hnext : next ≠ prim.id := fun he => h.free (he ▸ contains_of_mem_depsOf hread)
  have hreads : ∀ i u, i ∈ p.depsOf u → ∃ v, i ∈ q.depsOf v := fun i u hd => by
    by_cases hi : i = source
    · exact ⟨prim.id, by rw [h.deps, if_pos rfl, hargs, hi]; exact List.mem_singleton_self source⟩
    · have hne : u ≠ prim.id := fun he => h.free (he ▸ contains_of_mem_depsOf hd)
      refine ⟨u, ?_⟩
      rw [h.deps, if_neg hne]
      split
      case isTrue hu =>
        subst hu
        exact mem_set_of_ne hd h.source_eq hi
      case isFalse => exact hd
  refine ⟨h.seated hargs hl hp.toSeated, fun j hj => ?_, fun j hj => ?_⟩
  · rw [h.kinds] at hj
    split at hj
    case isTrue =>
      rw [hreorder] at hj
      cases hj
    case isFalse hne =>
      rw [h.deps, if_neg hne, hp.grounded j hj]
      split <;> rfl
  · rw [h.marks]
    by_cases hne : j = prim.id
    · refine Or.inr (Or.inl ⟨next, ?_⟩)
      obtain ⟨hk, -⟩ := List.getElem?_eq_some_iff.mp h.source_eq
      rw [h.deps, if_neg hnext, if_pos rfl, hne]
      exact List.mem_iff_getElem.mpr ⟨index, by rwa [List.length_set], List.getElem_set_self _⟩
    · rw [h.kinds, if_neg hne]
      have hthere := ((h.contains j).mp hj).resolve_left hne
      exact (hp.live j hthere).imp_right fun hlive => hlive.imp_left fun ⟨u, hu⟩ => hreads j u hu

end Inserted

/-- **A reorder that another node has** is read by a weighted node too, wherever it stands. -/
theorem Shared.tidy {shared : String} (h : Shared p q shared next index source)
    (hnext : p.isWeighted next) (hp : p.Tidy) : q.Tidy := by
  have hkinds : q.kindOf = p.kindOf := funext fun j => kindOf_congr (congrFun h.shapes j)
  have hcontains := contains_congr h.ids
  have hreads : ∀ i u, i ∈ p.depsOf u → ∃ v, i ∈ q.depsOf v := fun i u hd => by
    have hshared : shared ≠ next := fun he => hnext.not_isReorder (he ▸ h.reorder)
    by_cases hi : i = source
    · exact ⟨shared, by rw [h.deps, if_neg hshared, hi]; exact List.mem_of_getElem? h.reads⟩
    · refine ⟨u, ?_⟩
      rw [h.deps]
      split
      case isTrue hu =>
        subst hu
        exact mem_set_of_ne hd h.source_eq hi
      case isFalse => exact hd
  refine ⟨⟨fun j hj => ?_, fun u d hu hd => ?_⟩, fun j hj => ?_, fun j hj => ?_⟩
  · rw [h.order]
    exact hp.mem j (hcontains ▸ hj)
  · rw [isWeighted_congr_kindOf (congrFun hkinds u)] at hu
    have hne : u ≠ next := fun he => hu (he ▸ hnext)
    rw [h.deps, if_neg hne] at hd
    rw [h.order]
    exact hp.before u d hu hd
  · rw [hkinds] at hj
    rw [h.deps, hp.grounded j hj]
    split <;> rfl
  · rw [h.marks, hkinds]
    exact (hp.live j (hcontains ▸ hj)).imp_right fun hlive =>
      hlive.imp_left fun ⟨u, hu⟩ => hreads j u hu

/-! ## What is left after trimming -/

/-- Everything an output depends on is an output or read on the way there. -/
theorem Trimmed.live (h : Trimmed p q) (hw : p.WellFormed) : q.Live := fun j hj => by
  obtain ⟨-, ⟨o, ho, hreads⟩ | ⟨l, hl⟩⟩ := (h.contains j).mp hj
  · rw [h.marks]
    rcases hreads.cases_head with rfl | ⟨u, hu, hrest⟩
    · exact Or.inl ((hw.mem_outputs j).mp ho)
    · have hthere : q.contains u = true :=
        (h.contains u).mpr ⟨contains_of_mem_depsOf hu, Or.inl ⟨o, ho, hrest⟩⟩
      exact Or.inr (Or.inl ⟨u, by rw [h.deps u hthere]; exact hu⟩)
  · refine Or.inr (Or.inr ?_)
    rw [kindOf_congr (h.shapes j hj), kindOf_of_shapeOf hl]
    rfl

end Edit

namespace Pass

open Program Edit Preferences

variable {p q : Program} {m m' : List Entry} {id norm scale input next : String} {index : Nat}
  {prim : Primitive} {made : Option String}

/-! ## Fusion -/

/-- **Three nodes become one**, which reads what they read from outside. -/
theorem Fused.live (h : Fused p q id norm scale prim) (hl : p.Linked) (ho : p.Ordered)
    (ha : p.AlignedButFused) (hp : p.Live) : q.Live := by
  obtain ⟨hid, hnorm, hscale⟩ := ha.slots h
  obtain ⟨stats, factors, hstats, hfactors, hargs⟩ := h.reads
  obtain ⟨q₁, q₂, q₃, h₁, h₂, h₃, h₄⟩ := h.steps
  rw [hid] at hargs
  rw [hnorm] at hstats
  rw [hscale] at hfactors
  have hmarks : q₃.isMarked = p.isMarked := by
    have hmarks₂ : q₂.isMarked = q₁.isMarked :=
      h₂.marks ((congrFun h₁.marks norm).trans h.norm_unmarked)
    rw [h₃.marks, hmarks₂, h₁.marks]
    rw [hmarks₂, h₁.marks, h.unmarked]
  have hdeps : ∀ j, j ≠ id → j ≠ norm →
      q₃.depsOf j = ((q₁.depsOf j).filter (· ≠ norm)).filter (· ≠ id) := fun j hj hj' => by
    rw [h₃.deps, if_neg hj, h₂.deps, if_neg hj']
  have hchain : scale ≠ id ∧ scale ≠ norm := by
    obtain ⟨hfirst, hsecond⟩ := h.chain hl ho
    refine ⟨fun he => ?_, fun he => ?_⟩
    · exact Before.asymm ho.nodup hfirst (he ▸ hsecond)
    · exact Before.irrefl ho.nodup norm (he ▸ hsecond)
  -- what one of the three read from outside, the last one reads
  have hreads : ∀ i u, i ∈ p.depsOf u → i ≠ id → i ≠ norm → ∃ v, i ∈ q₃.depsOf v := by
    intro i u hd hi hi'
    have hfused : i ∈ prim.arguments → i ≠ scale → i ∈ q₃.depsOf scale := fun hmem hself => by
      rw [hdeps scale hchain.1 hchain.2, h₁.deps, if_pos rfl]
      simp [hmem, hi, hi', hself]
    by_cases hu : u = id ∨ u = norm ∨ u = scale
    · refine ⟨scale, hfused ?_ fun he => ?_⟩
      · rw [hargs]
        rcases hu with rfl | rfl | rfl
        · simp [hd]
        · rw [hstats] at hd
          simp [(List.mem_cons.mp hd).resolve_left hi]
        · rw [hfactors] at hd
          simp [(List.mem_cons.mp hd).resolve_left hi']
      · obtain ⟨hfirst, hsecond⟩ := h.chain hl ho
        have hlast := he ▸ ho.before u i hd
        rcases hu with rfl | rfl | rfl
        · exact Before.asymm ho.nodup (hfirst.trans ho.nodup hsecond) hlast
        · exact Before.asymm ho.nodup hsecond hlast
        · exact Before.irrefl ho.nodup u hlast
    · rw [not_or, not_or] at hu
      refine ⟨u, ?_⟩
      rw [hdeps u hu.1 hu.2.1, h₁.deps, if_neg hu.2.2]
      simp [hd, hi, hi']
  refine Live.sameGraph (fun j hj => ?_) h₄.1.toSameGraph (isMarked_of_eq h₄.1.marks)
  rw [h₃.contains_iff, h₂.contains_iff, h₁.contains] at hj
  obtain ⟨hne, hne', hthere⟩ := hj
  rw [hmarks]
  refine (hp j hthere).imp_right fun hlive => hlive.imp (fun ⟨u, hu⟩ => hreads j u hu hne hne') ?_
  intro hk
  have hself : j ≠ scale := fun he => by
    obtain ⟨s, hs⟩ := h.scaling
    rw [he, kindOf_of_shapeOf hs] at hk
    cases hk
  rw [h₃.kinds, if_neg hne, h₂.kinds, if_neg hne', kindOf, h₁.shapes, if_neg hself, ← kindOf, hk]

/-- The host takes over the users of the activation. -/
theorem Absorbed.live (h : Absorbed p q id input) (hl : p.Linked) (hp : p.Live) : q.Live := by
  obtain ⟨a, padding, ⟨absorbed, htask⟩, hcon⟩ := h.contracted hl
  refine hcon.live hl (fun hk => ?_) hp
  rw [kindOf_eq_taskOf, htask] at hk
  cases hk

/-- No literal is a host. -/
theorem Absorbed.grounded (h : Absorbed p q id input) (hl : p.Linked) (hp : p.Grounded) :
    q.Grounded := by
  obtain ⟨a, padding, -, hcon⟩ := h.contracted hl
  exact hcon.grounded (fun _ => rfl) hp

/-- A merge gives a task no other kind. -/
theorem kind_merging (format : Format) (element : Element) (padding : Padding) (t : Task) :
    (merging format element padding t).operation.kind = t.operation.kind :=
  kind_retargeted t.operation format element

section Merged

variable {bound : Bool} (h : Merged p q bound id)
include h

/-- What is merged is a reorder. -/
theorem Merged.isReorder : p.isReorder id := by
  obtain ⟨_, _, _, _, _, _, _, -, hcopy, -⟩ := h.steps
  exact hcopy.isReorder

/-- One reorder takes over the users of the other. -/
theorem Merged.live (hl : p.Linked) (hp : p.Live) : q.Live := by
  obtain ⟨input, format, element, padding, absorbed, t, r, hcon, -⟩ := h.contracted hl
  refine hcon.live hl (fun hk => ?_) hp
  rw [kindOf_of_isReorder h.isReorder] at hk
  cases hk

/-- No literal is merged. -/
theorem Merged.grounded (hl : p.Linked) (hp : p.Grounded) : q.Grounded := by
  obtain ⟨input, format, element, padding, absorbed, t, r, hcon, -⟩ := h.contracted hl
  exact hcon.grounded (kind_merging format element padding) hp

/-! ## What the cleanup does -/

/-- A merge keeps the seats. -/
theorem Merged.seated (hl : p.Linked) (hp : p.Seated) : q.Seated := by
  obtain ⟨input, survivor, format, element, padding, r, s, hex, hcopy, -, hwork, -, hplan, -⟩ :=
    h.steps
  have hr := hex.seated hl (fun hw => hw.not_isReorder hcopy.isReorder) hp
  exact (hr.reworked hwork (kind_merging format element padding)).of_views
    (congrArg Order.ids hplan.order) hplan.contains hplan.toSameGraph.kinds hplan.deps

/-- **A merge leaves a graph tidy.** -/
theorem Merged.tidy (hl : p.Linked) (hp : p.Tidy) : q.Tidy :=
  ⟨h.seated hl hp.toSeated, h.grounded hl hp.grounded, h.live hl hp.live⟩

end Merged

section Elided

variable (h : Elided p q id input) (hl : p.Linked)
include h hl

/-- A copy that makes way takes no seat with it. -/
theorem Elided.seated (hp : p.Seated) : q.Seated :=
  h.extracted.seated hl (fun hw => hw.not_isReorder h.copy.isReorder) hp

/-- Its input takes over its users. -/
theorem Elided.live (hp : p.Live) : q.Live := by
  refine (h.extracted.contracted hl).live hl (fun hk => ?_) hp
  rw [kindOf_of_isReorder h.copy.isReorder] at hk
  cases hk

/-- **A copy that makes way leaves a graph tidy.** -/
theorem Elided.tidy (hp : p.Tidy) : q.Tidy :=
  ⟨h.seated hl hp.toSeated, (h.extracted.contracted hl).grounded (fun _ => rfl) hp.grounded,
    h.live hl hp.live⟩

end Elided

/-- What is folded becomes a literal. -/
theorem Folded.kinds (h : Folded p q id) (j : String) :
    q.kindOf j = if j = id then some .data else p.kindOf j := by
  obtain ⟨prim, ⟨l, v, hprim⟩, hq⟩ := h.steps
  rw [kindOf, hq.shapes]
  split
  · rw [hprim]
    rfl
  · rfl

/-- It reads nothing any more. -/
theorem Folded.deps (h : Folded p q id) (j : String) :
    q.depsOf j = if j = id then [] else p.depsOf j := by
  obtain ⟨prim, -, hq⟩ := h.steps
  rw [hq.deps, List.filter_nil]

/-- **A literal in the place of a constant** reads nothing. -/
theorem Folded.seated (h : Folded p q id) (hp : p.Seated) : q.Seated := by
  have hkinds := h.kinds
  have hdeps := h.deps
  obtain ⟨prim, -, hq⟩ := h.steps
  refine ⟨fun j hj => ?_, fun u d hu hd => ?_⟩
  · rw [hq.order]
    exact hp.mem j (hq.contains ▸ hj)
  · rw [hdeps] at hd
    split at hd
    · cases hd
    case isFalse hne =>
      rw [isWeighted_congr_kindOf ((hkinds u).trans (if_neg hne))] at hu
      rw [hq.order]
      exact hp.before u d hu hd

/-- So literals read nothing still. -/
theorem Folded.grounded (h : Folded p q id) (hp : p.Grounded) : q.Grounded := fun j hj => by
  rw [h.kinds] at hj
  rw [h.deps]
  split
  · rfl
  case isFalse hne =>
    rw [if_neg hne] at hj
    exact hp j hj

/-! ## Reorders that come -/

/-- **A reorder for a weighted node leaves a graph tidy.** -/
theorem Served.tidy (h : Served p q m m' next index made) (hm : Numbered m) (hl : p.Linked)
    (hnext : p.isWeighted next) (hp : p.Tidy) : q.Tidy := by
  obtain ⟨rfl, -⟩ | ⟨e, he, hins, -⟩ | ⟨-, e, -, hshare⟩ := h.cases hm
  · exact hp
  · have hreorder := (h.numbered hm).reorder_of_mem he
    refine hins.tidy ?_ ?_ hl hp
    · rw [hreorder]
      rfl
    · rw [hreorder]
      rfl
  · exact hshare.tidy hnext hp

/-- **Padding leaves a graph tidy.** -/
theorem Padded.tidy (h : Padded p q id) (hl : p.Linked) (hp : p.Tidy) : q.Tidy := by
  cases h with
  | none same => exact same ▸ hp
  | producer input padding work kept => exact hp.reworked work fun _ => rfl
  | reorder prim source layout padding reader shape named inserted =>
    refine inserted.tidy ?_ ?_ hl hp
    · rw [shape]
      rfl
    · rw [shape]
      rfl

/-- **A change of weights leaves a graph tidy.** -/
theorem Weighed.tidy (h : Weighed p q m m' next index) (hm : Numbered m) (hl : p.Linked)
    (hnext : p.isWeighted next) (hp : p.Tidy) : q.Tidy := by
  cases h with
  | unchanged served => exact served.tidy hm hl hnext hp
  | reordered p' r served planned =>
    exact (served.tidy hm hl hnext hp).sameGraph planned.toSameGraph
      (congrArg Order.ids planned.order) (isMarked_of_eq planned.marks)

end Pass

end NetPlan
