import Mathlib.Data.Set.Function
import NetPlan.Proofs.Graph.Ordered

/-!
# Proofs/Graph/Origin — what stands behind a chain of reorders

Reorders hand data on: following them backwards leads to a node that does something else, past all
that is subtracted on the way (`Origin`).  `Faithful g p q` says that `q` does the work of `p`: `g`
matches the nodes that are no reorders, and whatever these read, and whatever an output holds, has
matching origins past the same subtractions.

* `Faithful.trans` — faithful rewrites can follow each other;
* `Extracted.faithful`, `Inserted.faithful`, `Shared.faithful` — reorders that subtract nothing come
  and go.
-/

namespace NetPlan

/-- What is subtracted on the way through a reorder and then past `rest`. -/
def Reorder.passing (r : Reorder) (rest : List (List Single)) : List (List Single) :=
  if r.subtract.isEmpty then rest else r.subtract :: rest

/-- What is subtracted shows in the shape. -/
theorem Operation.exists_reorder_of_shape {op : Operation} {r : Reorder}
    (h : op.shape = .reorder r) : ∃ r', op = .reorder r' ∧ r.passing = r'.passing := by
  cases op with
  | reorder r' => exact ⟨r', rfl, by rw [← Operation.reorder.inj h]; rfl⟩
  | _ => cases h

/-- Following reorders backwards from an id leads to `source`, past these subtractions. -/
inductive Origin (get : String → Option Operation) :
    String → List (List Single) → String → Prop where
  | work {id : String} {op : Operation} (there : get id = some op) (work : op.kind ≠ .reorder) :
      Origin get id [] id
  | reorder {id source : String} {r : Reorder} {rest : List (List Single)}
      (there : get id = some (.reorder r)) (further : Origin get r.input rest source) :
      Origin get id (r.passing rest) source

namespace Program

/-- What a node does. -/
def operationOf (p : Program) (id : String) : Option Operation := (p.node? id).map (·.operation)

/-- The shape of a node that is no reorder. -/
def workOf (p : Program) (id : String) : Option Operation :=
  (p.shapeOf id).filter fun op => op.kind ≠ .reorder

/-- The nodes that are no reorders. -/
def works (p : Program) : Set String := {id | (p.workOf id).isSome = true}

variable {p q r : Program} {id input a b i source : String} {s : List (List Single)} {re : Reorder}

theorem workOf_eq_some {op : Operation} :
    p.workOf i = some op ↔ p.shapeOf i = some op ∧ op.kind ≠ .reorder := by
  rw [workOf, Option.filter_eq_some_iff, decide_eq_true_eq]

theorem mem_works : i ∈ p.works ↔ ∃ op, p.shapeOf i = some op ∧ op.kind ≠ .reorder := by
  rw [works, Set.mem_ofPred_eq, Option.isSome_iff_exists]
  exact exists_congr fun op => workOf_eq_some

theorem mem_works_iff : i ∈ p.works ↔ p.contains i = true ∧ ¬ p.isReorder i := by
  rw [mem_works, contains_eq_isSome_shapeOf, Option.isSome_iff_exists, isReorder]
  constructor
  · rintro ⟨op, hop, hk⟩
    refine ⟨⟨op, hop⟩, ?_⟩
    rintro ⟨r, hr⟩
    rw [hop] at hr
    exact hk (congrArg Operation.kind (Option.some.inj hr))
  · rintro ⟨⟨op, hop⟩, hnot⟩
    refine ⟨op, hop, fun hk => hnot ?_⟩
    cases op with
    | reorder r => exact ⟨r, hop⟩
    | _ => cases hk

theorem workOf_congr (h : q.shapeOf b = p.shapeOf a) : q.workOf b = p.workOf a := by
  rw [workOf, h, workOf]

theorem mem_works_congr (h : q.shapeOf b = p.shapeOf a) : b ∈ q.works ↔ a ∈ p.works := by
  rw [mem_works, h, mem_works]

theorem workOf_of_isReorder (h : p.isReorder i) : p.workOf i = none := by
  obtain ⟨r, hr⟩ := h
  rw [workOf, hr]
  rfl

theorem workOf_of_not_contains (h : ¬ p.contains i = true) : p.workOf i = none := by
  rw [workOf, shapeOf_of_not_contains h]
  rfl

theorem shapeOf_eq_operationOf (p : Program) (i : String) :
    p.shapeOf i = (p.operationOf i).map Operation.shape := by
  rw [shapeOf, operationOf, Option.map_map]
  rfl

theorem argsOf_of_operationOf {op : Operation} (h : p.operationOf i = some op) :
    p.argsOf i = op.arguments := by
  obtain ⟨n, hn, rfl⟩ := Option.map_eq_some_iff.mp h
  exact argsOf_of_node? hn

/-! ## Origins by shape and dependencies -/

theorem origin_of_works (h : i ∈ p.works) : Origin p.operationOf i [] i := by
  obtain ⟨op, hop, hk⟩ := mem_works.mp h
  rw [shapeOf_eq_operationOf] at hop
  obtain ⟨op', hop', rfl⟩ := Option.map_eq_some_iff.mp hop
  exact .work hop' (Operation.kind_shape op' ▸ hk)

theorem origin_of_reorder (ha : p.Aligned) (hs : p.shapeOf i = some (.reorder re))
    (hd : p.depsOf i = [input]) (h : Origin p.operationOf input s source) :
    Origin p.operationOf i (re.passing s) source := by
  rw [shapeOf_eq_operationOf] at hs
  obtain ⟨op, hop, hshape⟩ := Option.map_eq_some_iff.mp hs
  obtain ⟨r, rfl, hpass⟩ := Operation.exists_reorder_of_shape hshape
  rw [← ha, argsOf_of_operationOf hop] at hd
  rw [hpass]
  exact .reorder hop ((List.cons.inj hd).1 ▸ h)

/-- A reorder that subtracts nothing has the origin of what it reads. -/
theorem origin_of_copy (ha : p.Aligned) (hs : p.isCopy i) (hd : p.depsOf i = [input])
    (h : Origin p.operationOf input s source) : Origin p.operationOf i s source := by
  obtain ⟨r, hr, hsub⟩ := hs
  have hpass : r.passing s = s := by
    rw [Reorder.passing, hsub]
    rfl
  exact hpass ▸ origin_of_reorder ha hr hd h

theorem isReorder.exists_dep (ha : p.Aligned) (h : p.isReorder i) : ∃ d, p.depsOf i = [d] := by
  obtain ⟨r, hr⟩ := h
  rw [shapeOf_eq_operationOf] at hr
  obtain ⟨op, hop, hshape⟩ := Option.map_eq_some_iff.mp hr
  obtain ⟨r, rfl, -⟩ := Operation.exists_reorder_of_shape hshape
  exact ⟨r.input, by rw [← ha, argsOf_of_operationOf hop]; rfl⟩

end Program

open Program Edit

variable {p q r : Program} {id input a b i source : String} {s : List (List Single)}

/-- **Induction along a chain of reorders**, by shape and dependencies. -/
theorem Origin.byShape (ha : p.Aligned) {motive : String → List (List Single) → String → Prop}
    (work : ∀ i ∈ p.works, motive i [] i)
    (reorder : ∀ i (r : Reorder) d s source, p.shapeOf i = some (.reorder r) →
      p.depsOf i = [d] → Origin p.operationOf d s source → motive d s source →
      motive i (r.passing s) source)
    (h : Origin p.operationOf a s source) : motive a s source := by
  induction h with
  | work there hk =>
    refine work _ (mem_works.mpr ⟨_, ?_, (Operation.kind_shape _).symm ▸ hk⟩)
    rw [shapeOf_eq_operationOf, there, Option.map_some]
  | @reorder i source r rest there further ih =>
    refine reorder i { r with input := "" } r.input rest source ?_ ?_ further ih
    · rw [shapeOf_eq_operationOf, there, Option.map_some]
      rfl
    · rw [← ha, argsOf_of_operationOf there]
      rfl

theorem Origin.mem_works (ha : p.Aligned) (h : Origin p.operationOf a s source) :
    source ∈ p.works :=
  h.byShape ha (motive := fun _ _ source => source ∈ p.works) (fun _ hi => hi)
    fun _ _ _ _ _ _ _ _ ih => ih

/-- **Every node of an acyclic graph has an origin.** -/
theorem exists_origin (ha : p.Aligned) (hl : p.Linked) (hp : p.Acyclic)
    (hc : p.contains a = true) : ∃ s source, Origin p.operationOf a s source := by
  obtain ⟨rank, hrank⟩ := hp.exists_rank hl
  -- a reorder ranks above what it reads
  induction hk : rank a using Nat.strong_induction_on generalizing a with
  | h k ih =>
    by_cases hr : p.isReorder a
    · obtain ⟨d, hd⟩ := hr.exists_dep ha
      have hmem : d ∈ p.depsOf a := hd ▸ List.mem_singleton_self d
      obtain ⟨s, source, ho⟩ := ih (rank d) (hk ▸ hrank a d hmem) (hl.contains_dep hmem) rfl
      obtain ⟨r, hr⟩ := hr
      exact ⟨_, source, origin_of_reorder ha hr hd ho⟩
    · exact ⟨[], a, origin_of_works (mem_works_iff.mpr ⟨hc, hr⟩)⟩

/-- An id has one origin. -/
theorem Origin.unique {get : String → Option Operation} {s' : List (List Single)}
    {source' : String} (h : Origin get a s source) (h' : Origin get a s' source') :
    s = s' ∧ source = source' := by
  induction h generalizing s' source' with
  | work there hk =>
    cases h' with
    | work => exact ⟨rfl, rfl⟩
    | reorder there' =>
      rw [there] at there'
      exact absurd (congrArg Operation.kind (Option.some.inj there')) hk
  | reorder there further ih =>
    cases h' with
    | work there' hk =>
      rw [there] at there'
      exact absurd (congrArg Operation.kind (Option.some.inj there')).symm hk
    | reorder there' further' =>
      rw [there] at there'
      obtain rfl := Operation.reorder.inj (Option.some.inj there')
      obtain ⟨rfl, rfl⟩ := ih further'
      exact ⟨rfl, rfl⟩

/-! ## Programs that do the same work -/

/-- What has an origin at `a` has the matching one at `b`. -/
def Carried (g : String → String) (p q : Program) (a b : String) : Prop :=
  ∀ s source, Origin p.operationOf a s source → Origin q.operationOf b s (g source)

/-- `q` does the work of `p` under the ids that `g` gives. -/
structure Faithful (g : String → String) (p q : Program) : Prop where
  bijOn : Set.BijOn g p.works q.works
  work : ∀ i ∈ p.works, q.workOf (g i) = p.workOf i
  moved : ∀ i ∈ p.works, g i = i ∨ p.isMarked (g i) = true ∧ p.isReorder (g i)
  marks : q.isMarked = p.isMarked
  reorders : ∀ i, p.isMarked i = true → q.isReorder i → p.isReorder i
  reads : ∀ i ∈ p.works, List.Forall₂ (Carried g p q) (p.depsOf i) (q.depsOf (g i))
  outputs : ∀ o, p.isMarked o = true → Carried g p q o o

theorem Carried.trans {g g' : String → String} {c : String} (h : Carried g p q a b)
    (h' : Carried g' q r b c) : Carried (fun i => g' (g i)) p r a c := fun s source ho =>
  h' s (g source) (h s source ho)

/-- **Faithful rewrites can follow each other.** -/
theorem Faithful.trans {g g' : String → String} (h : Faithful g p q) (h' : Faithful g' q r) :
    Faithful (fun i => g' (g i)) p r where
  bijOn := h'.bijOn.comp h.bijOn
  work i hi := (h'.work (g i) (h.bijOn.mapsTo hi)).trans (h.work i hi)
  moved i hi := by
    rcases h'.moved (g i) (h.bijOn.mapsTo hi) with he | ⟨hm, hr⟩
    · rw [he]
      exact h.moved i hi
    · rw [h.marks] at hm
      exact Or.inr ⟨hm, h.reorders _ hm hr⟩
  marks := h'.marks.trans h.marks
  reorders i hm hr := h.reorders i hm (h'.reorders i (h.marks ▸ hm) hr)
  reads i hi :=
    forall₂_comp (fun _ _ _ => Carried.trans) (h.reads i hi) (h'.reads (g i) (h.bijOn.mapsTo hi))
  outputs o ho := (h.outputs o ho).trans (h'.outputs o (h.marks ▸ ho))

/-- The work of every node may stay under its id. -/
theorem faithful_of_workOf (work : q.workOf = p.workOf) (marks : q.isMarked = p.isMarked)
    (reorders : ∀ i, p.isMarked i = true → q.isReorder i → p.isReorder i)
    (reads : ∀ i ∈ p.works,
      List.Forall₂ (Carried (fun i => i) p q) (p.depsOf i) (q.depsOf i))
    (outputs : ∀ o, p.isMarked o = true → Carried (fun i => i) p q o o) :
    Faithful (fun i => i) p q where
  bijOn := by
    have hworks : q.works = p.works := by rw [Program.works, work, Program.works]
    rw [hworks]
    exact Set.bijOn_id _
  work i _ := congrFun work i
  moved _ _ := Or.inl rfl
  marks := marks
  reorders := reorders
  reads := reads
  outputs := outputs

/-! ## Nodes that stay -/

/-- Reorders may change what they turn data into, but not what they subtract. -/
theorem carried_of_shapes (ha : p.Aligned) (ha' : q.Aligned) (deps : q.depsOf = p.depsOf)
    (shapes : ∀ i, q.shapeOf i = p.shapeOf i ∨ ∃ r r', p.shapeOf i = some (.reorder r) ∧
      q.shapeOf i = some (.reorder r') ∧ r'.subtract = r.subtract) (a : String) :
    Carried (fun i => i) p q a a := by
  intro s source ho
  refine Origin.byShape ha (motive := Origin q.operationOf) (fun i hi => ?_)
    (fun i r d s source hr hd _ ih => ?_) ho
  · refine origin_of_works ?_
    rcases shapes i with h | ⟨r, r', hr, -⟩
    · exact (mem_works_congr h).mpr hi
    · exact absurd ⟨r, hr⟩ (mem_works_iff.mp hi).2
  · rw [← deps] at hd
    rcases shapes i with h | ⟨r₁, r', hr₁, hr', hsub⟩
    · exact origin_of_reorder ha' (h.trans hr) hd ih
    · rw [hr] at hr₁
      obtain rfl := Operation.reorder.inj (Option.some.inj hr₁)
      have hpass : r'.passing s = r.passing s := by rw [Reorder.passing, hsub, Reorder.passing]
      exact hpass ▸ origin_of_reorder ha' hr' hd ih

theorem faithful_of_shapes (ha : p.Aligned) (ha' : q.Aligned) (deps : q.depsOf = p.depsOf)
    (marks : q.isMarked = p.isMarked)
    (shapes : ∀ i, q.shapeOf i = p.shapeOf i ∨ ∃ r r', p.shapeOf i = some (.reorder r) ∧
      q.shapeOf i = some (.reorder r') ∧ r'.subtract = r.subtract) :
    Faithful (fun i => i) p q := by
  have hcarried := carried_of_shapes ha ha' deps shapes
  refine faithful_of_workOf (funext fun i => ?_) marks (fun i _ hi => ?_) (fun i _ => ?_)
    fun o _ => hcarried o
  · rcases shapes i with h | ⟨r, r', hr, hr', -⟩
    · exact workOf_congr h
    · rw [workOf_of_isReorder ⟨r, hr⟩, workOf_of_isReorder ⟨r', hr'⟩]
  · rcases shapes i with h | ⟨r, -, hr, -⟩
    · rwa [isReorder, ← h]
    · exact ⟨r, hr⟩
  · rw [deps]
    exact List.forall₂_same.mpr fun a _ => hcarried a

theorem Program.SameGraph.faithful (h : SameGraph p q) (marks : q.isMarked = p.isMarked)
    (ha : p.Aligned) : Faithful (fun i => i) p q :=
  faithful_of_shapes ha (h.aligned ha) h.deps marks fun i => Or.inl (congrFun h.shapes i)

/-! ## Nodes that go -/

namespace Edit

variable {old new next shared : String} {index : Nat} {prim : Primitive}

/-- What is behind a reorder that subtracts nothing is what is behind its dependency. -/
theorem Bypassed.origin (h : Bypassed p q id input) (hid : p.isCopy id) (hl : p.Linked)
    (ha : p.Aligned) (ho : Origin p.operationOf a s source) :
    Origin q.operationOf (swap id input a) s source := by
  have ha' := h.aligned ha
  refine Origin.byShape ha (motive := fun a => Origin q.operationOf (swap id input a))
    (fun i hi => ?_) (fun i r d s source hr hd _ ih => ?_) ho
  · have hne : i ≠ id := fun he => (mem_works_iff.mp hi).2 (he ▸ hid.isReorder)
    rw [swap_of_ne hne]
    refine origin_of_works ((mem_works_congr ?_).mpr hi)
    rw [h.shapes, if_neg hne]
  · by_cases hi : i = id
    · subst hi
      obtain ⟨r₁, hr₁, hsub⟩ := hid
      rw [hr] at hr₁
      obtain rfl := Operation.reorder.inj (Option.some.inj hr₁)
      obtain rfl : d = input := (List.cons.inj (hd.symm.trans h.only)).1
      have hpass : r.passing s = s := by
        rw [Reorder.passing, hsub]
        rfl
      rw [swap_of_ne (h.ne hl)] at ih
      rwa [swap_self, hpass]
    · rw [swap_of_ne hi]
      refine origin_of_reorder ha' ?_ ?_ ih
      · rw [h.shapes, if_neg hi, hr]
      · rw [h.deps, if_neg hi, hd]
        rfl

theorem Renamed.shapes_swap (h : Renamed p q old new) {i : String} (hi : i ≠ new) :
    q.shapeOf (swap old new i) = p.shapeOf i := by
  rw [h.shapes]
  by_cases hio : i = old
  · rw [hio, swap_self, if_pos rfl]
  · rw [swap_of_ne hio, if_neg hi, if_neg hio]

theorem Renamed.deps_swap (h : Renamed p q old new) (hl : p.Linked) {i : String} (hi : i ≠ new) :
    q.depsOf (swap old new i) = (p.depsOf i).map (swap old new) := by
  rw [h.deps]
  by_cases hio : i = old
  · rw [hio, swap_self, if_pos rfl, map_swap_of_not_mem (hl.irrefl old)]
  · rw [swap_of_ne hio, if_neg hi, if_neg hio]

theorem Renamed.ne_new (h : Renamed p q old new) {i : String} (hi : p.contains i = true) :
    i ≠ new := fun he => h.free (he ▸ hi)

/-- Origins move along with the id. -/
theorem Renamed.origin (h : Renamed p q old new) (hl : p.Linked) (ha : p.Aligned)
    (ho : Origin p.operationOf a s source) :
    Origin q.operationOf (swap old new a) s (swap old new source) := by
  have ha' : q.Aligned := h.toSwapped.aligned ha
  refine Origin.byShape ha
    (motive := fun a s source => Origin q.operationOf (swap old new a) s (swap old new source))
    (fun i hi => ?_) (fun i r d s source hr hd _ ih => ?_) ho
  · have hne := h.ne_new (mem_works_iff.mp hi).1
    exact origin_of_works ((mem_works_congr (h.shapes_swap hne)).mpr hi)
  · have hne := h.ne_new (contains_of_isReorder ⟨r, hr⟩)
    refine origin_of_reorder ha' ((h.shapes_swap hne).trans hr) ?_ ih
    rw [h.deps_swap hl hne, hd]
    rfl

/-- The nodes that are no reorders move along with the id. -/
theorem Renamed.bijOn (h : Renamed p q old new) (hl : p.Linked) :
    Set.BijOn (swap old new) p.works q.works := by
  have hne : ∀ i ∈ p.works, i ≠ new := fun i hi => h.ne_new (mem_works_iff.mp hi).1
  refine ⟨fun i hi => ?_, fun i hi j hj he => ?_, fun j hj => ?_⟩
  · exact (mem_works_congr (h.shapes_swap (hne i hi))).mpr hi
  · rw [← @swap_swap old new i (hne i hi), he, swap_swap (hne j hj)]
  · obtain ⟨v, hv, rfl, -, -, hshape, -⟩ := h.exists_node hl (mem_works_iff.mp hj).1
    exact ⟨v, (mem_works_congr hshape).mp hj, rfl⟩

/-- The nodes that are no reorders stay where they are. -/
theorem Bypassed.workOf (h : Bypassed p q id input) (hid : p.isCopy id) : q.workOf = p.workOf :=
  funext fun i => by
    by_cases hi : i = id
    · rw [hi, workOf_of_isReorder hid.isReorder, workOf_of_not_contains]
      exact fun hc => ((h.contains_iff id).mp hc).1 rfl
    · exact workOf_congr (by rw [h.shapes, if_neg hi])

/-- **Taking out a reorder that subtracts nothing is faithful.** -/
theorem Extracted.faithful (h : Extracted p q id input) (hid : p.isCopy id) (hl : p.Linked)
    (ha : p.Aligned) : ∃ g, Faithful g p q := by
  have hmarks := h.marks hl
  obtain ⟨r, hby, hrest⟩ := h
  have hr := hby.aligned ha
  have hne : ∀ i ∈ p.works, i ≠ id := fun i hi he => (mem_works_iff.mp hi).2 (he ▸ hid.isReorder)
  have hdeps : ∀ i ∈ p.works, r.depsOf i = (p.depsOf i).map (swap id input) := fun i hi => by
    rw [hby.deps, if_neg (hne i hi)]
  split at hrest
  case isTrue hmark =>
    -- the dependency takes over mark and id
    obtain ⟨hinput, t, ht, -, hren⟩ := hrest
    have htl := ht.kept.linked
    have hta := ht.aligned hr
    have hwork : t.workOf = p.workOf :=
      (funext fun i => workOf_congr (congrFun ht.shapes i)).trans (hby.workOf hid)
    have hworks : t.works = p.works := by rw [Program.works, hwork, Program.works]
    have hcarried : ∀ a, Carried (swap input id) p q a (swap input id (swap id input a)) := by
      intro a s source ho
      have hmid := carried_of_shapes hr hta ht.deps (fun i => Or.inl (congrFun ht.shapes i)) _ _ _
        (hby.origin hid hl ha ho)
      exact hren.origin htl hta hmid
    refine ⟨swap input id, hworks ▸ hren.bijOn htl, fun i hi => ?_, fun i _ => ?_, hmarks,
      fun i _ hi => ?_, fun i hi => ?_, fun o ho => ?_⟩
    · rw [workOf_congr (hren.shapes_swap (hne i hi)), hwork]
    · by_cases hi : i = input
      · exact Or.inr (by rw [hi, swap_self]; exact ⟨hmark, hid.isReorder⟩)
      · exact Or.inl (swap_of_ne hi)
    · by_cases hiid : i = id
      · exact hiid ▸ hid.isReorder
      · rw [isReorder, hren.shapes, if_neg hiid] at hi
        split at hi
        · obtain ⟨_, hi⟩ := hi
          cases hi
        · rwa [ht.shapes, hby.shapes, if_neg hiid] at hi
    · rw [hren.deps_swap htl (hne i hi), ht.deps, hdeps i hi, List.map_map,
        List.forall₂_map_right_iff]
      exact List.forall₂_same.mpr fun a _ => hcarried a
    · by_cases hoid : o = id
      · have hself := hcarried id
        rw [swap_self, swap_self] at hself
        rwa [hoid]
      · have hother := hcarried o
        rwa [swap_of_ne hoid, swap_of_ne fun he : o = input => by
          rw [he, hinput] at ho
          cases ho] at hother
  case isFalse hmark =>
    have hq := hby.touched hrest
    have hcarried : ∀ a, Carried (fun i => i) p q a (swap id input a) := fun a s source ho =>
      hq.origin hid hl ha ho
    refine ⟨fun i => i, faithful_of_workOf (hq.workOf hid) hmarks (fun i _ hi => ?_)
      (fun i hi => ?_) fun o ho => ?_⟩
    · rw [isReorder, hq.shapes] at hi
      split at hi
      · obtain ⟨_, hi⟩ := hi
        cases hi
      · exact hi
    · rw [hq.deps, if_neg (hne i hi), List.forall₂_map_right_iff]
      exact List.forall₂_same.mpr fun a _ => hcarried a
    · have hother := hcarried o
      rwa [swap_of_ne fun he : o = id => hmark (he ▸ ho)] at hother

/-! ## Nodes that come -/

/-- Each entry of a list and of the list with another entry in one place. -/
theorem forall₂_set {α : Type} {R : α → α → Prop} {new : α} :
    ∀ {l : List α} {index : Nat}, (∀ a ∈ l, R a a) → (∀ a, l[index]? = some a → R a new) →
      List.Forall₂ R l (l.set index new)
  | [], _, _, _ => .nil
  | a :: _, 0, hself, hnew =>
    .cons (hnew a rfl) (List.forall₂_same.mpr fun b hb => hself b (List.mem_cons_of_mem _ hb))
  | a :: _, _ + 1, hself, hnew =>
    .cons (hself a List.mem_cons_self)
      (forall₂_set (fun b hb => hself b (List.mem_cons_of_mem _ hb)) hnew)

/-- One dependency of a node may be led through a copy of it. -/
theorem faithful_of_set (index : Nat) (source new : String) (ha : p.Aligned) (ha' : q.Aligned)
    (hold : ∀ i, p.contains i = true → q.shapeOf i = p.shapeOf i ∧
        (q.depsOf i = p.depsOf i ∨ (p.depsOf i)[index]? = some source ∧
          q.depsOf i = (p.depsOf i).set index new))
    (hnew : q.isCopy new ∧ q.depsOf new = [source]) (marks : q.isMarked = p.isMarked)
    (hmore : ∀ i, ¬ p.contains i = true → q.contains i = true → q.isReorder i) :
    Faithful (fun i => i) p q := by
  have hcarried : ∀ a, Carried (fun i => i) p q a a := by
    intro a s src ho
    refine Origin.byShape ha (motive := Origin q.operationOf) (fun i hi => ?_)
      (fun i r d s src hr hd _ ih => ?_) ho
    · exact origin_of_works ((mem_works_congr (hold i (mem_works_iff.mp hi).1).1).mpr hi)
    · obtain ⟨hshape, hdeps | ⟨hsource, hdeps⟩⟩ := hold i (contains_of_isReorder ⟨r, hr⟩)
      · exact origin_of_reorder ha' (hshape.trans hr) (hdeps.trans hd) ih
      · -- a reorder reads one node only, so that is the one led through the copy
        rw [hd] at hsource hdeps
        obtain ⟨rfl, rfl⟩ : index = 0 ∧ d = source := by
          cases index with
          | zero => exact ⟨rfl, Option.some.inj hsource⟩
          | succ k => cases hsource
        exact origin_of_reorder ha' (hshape.trans hr) hdeps (origin_of_copy ha' hnew.1 hnew.2 ih)
  refine faithful_of_workOf (funext fun i => ?_) marks (fun i hm hi => ?_) (fun i hi => ?_)
    fun o _ => hcarried o
  · by_cases hc : p.contains i = true
    · exact workOf_congr (hold i hc).1
    · rw [workOf_of_not_contains hc]
      by_cases hc' : q.contains i = true
      · exact workOf_of_isReorder (hmore i hc hc')
      · exact workOf_of_not_contains hc'
  · have hc : p.contains i = true := by
      by_contra hc
      rw [isMarked_of_not_contains hc] at hm
      cases hm
    rwa [isReorder, ← (hold i hc).1]
  · obtain ⟨-, hdeps | ⟨hsource, hdeps⟩⟩ := hold i (mem_works_iff.mp hi).1
    · rw [hdeps]
      exact List.forall₂_same.mpr fun a _ => hcarried a
    · rw [hdeps]
      refine forall₂_set (fun a _ => hcarried a) fun a hat s src ho => ?_
      obtain rfl : a = source := Option.some.inj (hat.symm.trans hsource)
      exact origin_of_copy ha' hnew.1 hnew.2 (hcarried a s src ho)

/-- **Inserting a copy is faithful.** -/
theorem Inserted.faithful (h : Inserted p q prim next index source) (ha : p.Aligned)
    {layout : Layout} {padding : Padding}
    (hprim : prim = .reorder prim.id source layout padding) : Faithful (fun i => i) p q := by
  have hcopy : q.isCopy prim.id := by
    refine ⟨⟨"", layout.format, layout.element, []⟩, ?_, rfl⟩
    rw [h.shapes, if_pos rfl, hprim]
    rfl
  refine faithful_of_set index source prim.id ha (h.aligned ha)
    (fun i hi => ?_) ⟨hcopy, ?_⟩ h.marks fun i hnot hi => ?_
  · have hne : i ≠ prim.id := fun he => h.free (he ▸ hi)
    rw [h.shapes, if_neg hne, h.deps, if_neg hne]
    refine ⟨rfl, ?_⟩
    by_cases hin : i = next
    · exact Or.inr ⟨hin ▸ h.source_eq, if_pos hin⟩
    · exact Or.inl (if_neg hin)
  · rw [h.deps, if_pos rfl, hprim]
    rfl
  · rcases (h.contains i).mp hi with rfl | hc
    · exact hcopy.isReorder
    · exact absurd hc hnot

/-- **Sharing a copy is faithful.** -/
theorem Shared.faithful (h : Shared p q shared next index source) (ha : p.Aligned)
    (hnext : shared ≠ next) (hcopy : p.isCopy shared) : Faithful (fun i => i) p q := by
  obtain ⟨d, hd⟩ := hcopy.isReorder.exists_dep ha
  obtain rfl : d = source := by
    have hreads := h.reads
    rw [hd] at hreads
    exact Option.some.inj hreads
  refine faithful_of_set index d shared ha (h.aligned ha)
    (fun i hi => ?_) ⟨?_, ?_⟩ h.marks fun i hnot hi => ?_
  · rw [h.shapes, h.deps]
    refine ⟨rfl, ?_⟩
    by_cases hin : i = next
    · exact Or.inr ⟨hin ▸ h.source_eq, if_pos hin⟩
    · exact Or.inl (if_neg hin)
  · rwa [isCopy, h.shapes]
  · rw [h.deps, if_neg hnext, hd]
  · rw [contains_congr h.ids] at hi
    exact absurd hi hnot

end Edit

end NetPlan
