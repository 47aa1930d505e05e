import NetPlan.Proofs.Pass.Labelled
import NetPlan.Proofs.Pass.Recast

/-!
# Proofs/Pass/Suited — every slot in the preferred layout

The passes go through the nodes in order.  When a node is asked for its slots, what stands before it
is laid out for good, and the nodes that were asked before stand before it: so they stay **suited**,
whatever becomes of the formats behind (`Suited.aside`).  Of the node itself only formats change,
and no slot is asked for by the format of the output; so its slots can be asked for one by one
(`Furnished.suits`).

* `partway_reorderDependencies` — the slots of one node;
* `suited_reorderSlots` — the run, which leaves all nodes suited if reorders can be laid out.
-/

namespace NetPlan

open Program Edit Preferences

namespace Pass

variable {p q r : Program} {m m' : List Entry} {c : Compilation} {id next source v : String}
  {index : Nat} {made : Option String} {grouped : Bool} {kind : OpKind} {role : Role}
  {output current target l : Layout} {slots : Operation → List (Role × Nat)}

/-! ## Slots that suit -/

/-- What a node reads in a slot lies as is preferred for an output of it. -/
def Suits (grouped : Bool) (p : Program) (id : String) (kind : OpKind) (output : Layout)
    (slot : Role × Nat) : Prop :=
  ∃ source current, (p.depsOf id)[slot.2]? = some source ∧ p.freshLayout source = .ok current ∧
    expected ⟨grouped, []⟩ current slot.1 kind (some output) = .ok current

/-- A node that has such slots is laid out, and what it reads in them suits its layout. -/
def Suited (slots : Operation → List (Role × Nat)) (grouped : Bool) (p : Program) (id : String) :
    Prop :=
  ∀ op, p.shapeOf id = some op → slots op ≠ [] → ∃ output, p.freshLayout id = .ok output ∧
    ∀ slot ∈ slots op, Suits grouped p id op.kind output slot

/-- A slot goes on suiting where the node reads the same in it, laid out the same. -/
theorem Suits.congr {slot : Role × Nat} (h : Suits grouped p id kind output slot)
    (hdeps : (q.depsOf id)[slot.2]? = (p.depsOf id)[slot.2]?)
    (hlayouts : ∀ d ∈ p.depsOf id, q.freshLayout d = p.freshLayout d) :
    Suits grouped q id kind output slot := by
  obtain ⟨source, current, hsource, hcurrent, hexpected⟩ := h
  exact ⟨source, current, hdeps.trans hsource,
    (hlayouts source (List.mem_of_getElem? hsource)).trans hcurrent, hexpected⟩

/-- It suits any output of the same element type and size. -/
theorem Suits.recast {slot : Role × Nat} (h : Suits grouped p id kind output slot)
    (helement : l.element = output.element) (hsize : l.size = output.size) :
    Suits grouped p id kind l slot := by
  obtain ⟨source, current, hsource, hcurrent, hexpected⟩ := h
  exact ⟨source, current, hsource, hcurrent, (expected_congr helement hsize).trans hexpected⟩

theorem Suits.filled {slot : Role × Nat} (h : Suits grouped p id kind output slot)
    (hl : p.Linked) (hq : Filled p q) : Suits grouped q id kind output slot :=
  h.congr (by rw [(hq.touched hl).deps]) fun d _ => by rw [freshLayout_of_uncached hq.same]

theorem Suited.filled (h : Suited slots grouped p id) (hl : p.Linked) (hq : Filled p q) :
    Suited slots grouped q id := fun op hop hslots => by
  rw [(hq.touched hl).shapes] at hop
  obtain ⟨output, houtput, hsuits⟩ := h op hop hslots
  exact ⟨output, by rw [freshLayout_of_uncached hq.same, houtput],
    fun slot hslot => (hsuits slot hslot).filled hl hq⟩

/-! ## Steps aside -/

/-- From one graph to another one node came to read other reorders, and nothing else changed but for
layouts behind it. -/
structure Aside (p q : Program) (next : String) : Prop where
  order : p.order.ids.Sublist q.order.ids
  weighted : ∀ u, p.isWeighted u ∨ q.isWeighted u → q.shapeOf u = p.shapeOf u
  deps : ∀ u, p.contains u = true → u ≠ next → q.depsOf u = p.depsOf u
  layouts : ∀ u, Before p.order.ids u next → q.freshLayout u = p.freshLayout u
  contains : ∀ u, p.contains u = true → q.contains u = true
  lays : q.LaysReorders → p.LaysReorders

namespace Aside

theorem refl (p : Program) (next : String) : Aside p p next :=
  ⟨List.Sublist.refl _, fun _ _ => rfl, fun _ _ _ => rfl, fun _ _ => rfl, fun _ h => h, fun h => h⟩

theorem isWeighted (h : Aside p q next) {u : String} : q.isWeighted u ↔ p.isWeighted u :=
  ⟨fun hu => (isWeighted_congr (h.weighted u (Or.inr hu))).mp hu,
    fun hu => (isWeighted_congr (h.weighted u (Or.inl hu))).mpr hu⟩

theorem trans (h : Aside p q next) (h' : Aside q r next) : Aside p r next where
  order := h.order.trans h'.order
  weighted u hu := by
    have hq : q.isWeighted u := hu.elim h.isWeighted.mpr h'.isWeighted.mp
    rw [h'.weighted u (Or.inl hq), h.weighted u (Or.inr hq)]
  deps u hu hne := (h'.deps u (h.contains u hu) hne).trans (h.deps u hu hne)
  layouts u hu := (h'.layouts u (hu.mono h.order)).trans (h.layouts u hu)
  contains u hu := h'.contains u (h.contains u hu)
  lays hr := h.lays (h'.lays hr)

theorem filled (h : Filled p q) (hl : p.Linked) (next : String) : Aside p q next := by
  have htouch := h.touched hl
  refine ⟨htouch.order ▸ List.Sublist.refl _, fun u _ => by rw [htouch.shapes],
    fun u _ _ => by rw [htouch.deps], fun u _ => by rw [freshLayout_of_uncached h.same],
    fun u hu => htouch.contains ▸ hu, fun hq id hid => ?_⟩
  rw [isReorder, ← htouch.shapes] at hid
  exact htouch.kept.behaviours ▸ hq id hid

/-- **What is read in a new way moves aside.** -/
theorem served (h : Served p q m m' next index made) (hm : Numbered m) (ha : p.Aligned)
    (ho : p.Ordered) (hnext : ¬ p.isReorder next) : Aside p q next := by
  have horder : p.order.ids.Sublist q.order.ids := by
    obtain ⟨rfl, -⟩ | ⟨e, -, hins, -⟩ | ⟨-, e, -, hshare⟩ := h.cases hm
    · exact List.Sublist.refl _
    · rw [hins.ids_order ho]
      exact Order.sublist_placeAfter ..
    · rw [hshare.order]
  obtain _ | r := made
  · cases h with
    | notNeeded same => exact same ▸ refl ..
  obtain ⟨source, hr⟩ := h.rerouted hm hnext (Aligned.slim ha)
  have hcontains : ∀ u, p.contains u = true → q.contains u = true := fun u hu => by
    rw [contains_eq_isSome_taskOf, hr.tasks u hu, ← contains_eq_isSome_taskOf, hu]
  refine ⟨horder, fun u hu => ?_, fun u hu hne => ?_, fun u hu => hr.frame ho hu, hcontains,
    fun hq id hid => ?_⟩
  · rcases hu with hu | hu
    · rw [shapeOf_eq_taskOf, hr.tasks u hu.contains, ← shapeOf_eq_taskOf]
    · exact (h.view_of_ne fun he => hu.not_isReorder (by
        rw [← Option.some.inj he]
        exact hr.reorder)).1
  · rw [hr.deps u hu, if_neg hne]
  · rw [← hr.behaviours]
    refine hq id ?_
    rwa [isReorder, shapeOf_eq_taskOf, hr.tasks id (contains_of_isReorder hid), ← shapeOf_eq_taskOf]

end Aside

/-- **A suited node that stands before stays suited.** -/
theorem Suited.aside (h : Suited slots grouped p v) (hslots : ∀ op, slots op ≠ [] →
    op.kind.isWeighted = true) (ho : p.Ordered) (hq : Aside p q next)
    (hv : Before p.order.ids v next) : Suited slots grouped q v := fun op hop hne => by
  have hne' : v ≠ next := fun he => Before.irrefl ho.nodup next (he ▸ hv)
  have hshape := hq.weighted v (Or.inr ⟨op, hop, hslots op hne⟩)
  obtain ⟨output, houtput, hsuits⟩ := h op (hshape ▸ hop) hne
  refine ⟨output, (hq.layouts v hv).trans houtput, fun slot hslot => ?_⟩
  refine (hsuits slot hslot).congr ?_ fun d hd =>
    hq.layouts d ((ho.before v d hd).trans ho.nodup hv)
  rw [hq.deps v ((ho.mem v).mp hv.mem_left) hne']

/-! ## One slot -/

/-- What the passes work on: the slots and the order are right, and so are the reorders on record.
-/
structure Furnished (p : Program) (m : List Entry) : Prop extends Sequenced p where
  wellFormed : p.WellFormed
  aligned : p.Aligned
  recorded : Recorded p m
  installed : Installed p m

namespace Furnished

theorem filled (h : Furnished p m) (hq : Filled p q) : Furnished q m := by
  have htouch := hq.touched h.linked
  have hsame := htouch.toSameGraph
  exact ⟨h.toSequenced.sameGraph hsame htouch.order, htouch.kept.wellFormed h.wellFormed,
    hsame.aligned h.aligned, h.recorded.sameGraph h.toSequenced hsame htouch.order,
    h.installed.sameGraph hsame⟩

theorem served (h : Furnished p m) (hnext : p.isWeighted next)
    (hq : Served p q m m' next index made) : Furnished q m' := by
  obtain ⟨hs, hr⟩ := h.toSequenced.served h.recorded hnext hq
  refine ⟨hs, (hq.kept h.linked).wellFormed h.wellFormed, ?_, hr,
    h.installed.served h.recorded.numbered hnext.not_isReorder hq⟩
  obtain ⟨rfl, -⟩ | ⟨e, -, hins, -⟩ | ⟨-, e, -, hshare⟩ := hq.cases h.recorded.numbered
  · exact h.aligned
  · exact hins.aligned h.aligned
  · exact hshare.aligned h.aligned

/-- **A slot that was asked for suits**, and the node has its layout up to the format. -/
theorem suits (h : Furnished p m) (hnext : p.isWeighted next)
    (hsource : (p.depsOf next)[index]? = some source)
    (hcurrent : p.freshLayout source = .ok current)
    (htarget : expected ⟨grouped, []⟩ current role kind (some output) = .ok target)
    (hq : Answered p q m m' next index source current target made) (hlays : q.LaysReorders)
    (hl : p.freshLayout next = .ok l) (helement : l.element = output.element) :
    (∃ format, q.freshLayout next = .ok { l with format }) ∧
      Suits grouped q next kind output (role, index) ∧
      ∀ slot : Role × Nat, slot.2 ≠ index → Suits grouped p next kind output slot →
        Suits grouped q next kind output slot := by
  obtain _ | r := made
  · obtain rfl := hq.unneeded rfl
    cases hq.served with
    | notNeeded same =>
      subst same
      exact ⟨⟨l.format, hl⟩, ⟨source, current, hsource, hcurrent, htarget⟩, fun _ _ hs => hs⟩
  obtain ⟨source', hr⟩ := hq.served.rerouted h.recorded.numbered hnext.not_isReorder
    (Aligned.slim h.aligned)
  obtain rfl : source' = source := Option.some.inj (hr.reads.symm.trans hsource)
  obtain ⟨hsize, hsame⟩ := expected_eq_ok htarget
  have hframe : ∀ d ∈ p.depsOf next, q.freshLayout d = p.freshLayout d := fun d hd =>
    hr.frame h.ordered (h.ordered.before next d hd)
  have hdeps : q.depsOf next = (p.depsOf next).set index r := by
    rw [hr.deps next hnext.contains, if_pos rfl]
  -- the reorder on record lies as asked for
  obtain ⟨e, he, hkey, rfl⟩ := hq.recorded r rfl h.recorded.numbered
  have hlaid : q.freshLayout e.2.id = .ok target := by
    have hinstalled := (h.served hnext hq.served).installed
    have hcurrent' : q.freshLayout e.1.1 = .ok current := by
      rw [hkey, hframe source' (List.mem_of_getElem? hsource), hcurrent]
    have hlaid := hinstalled.laid hlays he hr.reorder hcurrent' (by rw [hkey, hsize])
    rwa [hkey] at hlaid
  refine ⟨hr.recast h.ordered hnext hl hcurrent hlaid hsize fun hzero => ?_, ?_,
    fun slot hne hs => ?_⟩
  · subst hzero
    obtain rfl | htype := hsame
    · rfl
    · rw [htype, ← helement, hnext.element hl hsource hcurrent]
  · refine ⟨e.2.id, target, ?_, hlaid, expected_idem htarget⟩
    rw [hdeps, List.getElem?_set_self (List.getElem?_eq_some_iff.mp hsource).1]
  · exact hs.congr (by rw [hdeps, List.getElem?_set_ne hne.symm]) hframe

/-- As many nodes are read as there are argument slots. -/
theorem length_depsOf (h : Furnished p m) {op : Operation} (hop : p.shapeOf id = some op) :
    (p.depsOf id).length = op.arguments.length := by
  rw [shapeOf, Option.map_eq_some_iff] at hop
  obtain ⟨n, hn, rfl⟩ := hop
  rw [← h.aligned id, argsOf_of_node? hn, Operation.shape, Operation.arguments_mapSlots,
    List.length_mapIdx]

end Furnished

/-! ## The slots of a node -/

/-- One node was asked for some of its slots. -/
structure Handled (c c' : Compilation) (id : String) : Prop where
  furnished : Furnished c'.program c'.preferences.made
  grouped : c'.preferences.grouped = c.preferences.grouped
  aside : Aside c.program c'.program id

/-- A node is laid out as an output of a given element type and size, and some slots suit that. -/
def Partway (grouped : Bool) (p : Program) (id : String) (kind : OpKind) (output : Layout)
    (done : List (Role × Nat)) : Prop :=
  ∃ l, p.freshLayout id = .ok l ∧ l.element = output.element ∧ l.size = output.size ∧
    ∀ slot ∈ done, Suits grouped p id kind output slot

theorem Handled.refl (h : Furnished c.program c.preferences.made) (id : String) : Handled c c id :=
  ⟨h, rfl, .refl _ _⟩

theorem Handled.trans {c' c'' : Compilation} (h : Handled c c' id) (h' : Handled c' c'' id) :
    Handled c c'' id :=
  ⟨h'.furnished, h'.grouped.trans h.grouped, h.aside.trans h'.aside⟩

theorem Partway.filled {done : List (Role × Nat)} (h : Partway grouped p id kind output done)
    (hl : p.Linked) (hq : Filled p q) : Partway grouped q id kind output done := by
  obtain ⟨l, hlaid, helement, hsize, hsuits⟩ := h
  exact ⟨l, by rw [freshLayout_of_uncached hq.same, hlaid], helement, hsize,
    fun slot hslot => (hsuits slot hslot).filled hl hq⟩

/-- **One more slot suits**, and those before go on to. -/
theorem partway_reorderDependency {op : Operation} {done : List (Role × Nat)} (output : Layout)
    (h : Furnished c.program c.preferences.made) (hop : c.program.shapeOf id = some op)
    (hk : op.kind.isWeighted = true) (hbound : index < op.arguments.length)
    (hnew : ∀ slot ∈ done, slot.2 ≠ index)
    (hdone : c.program.LaysReorders →
      Partway c.preferences.grouped c.program id kind output done) :
    Ends (reorderDependency id kind output role index)
      (fun _ c' => Handled c c' id ∧ (c'.program.LaysReorders →
        Partway c'.preferences.grouped c'.program id kind output (done ++ [(role, index)])))
      (fun _ _ => True) c := by
  have hid : c.program.isWeighted id := ⟨op, hop, hk⟩
  refine (reorderDependency_effect kind output role h.linked h.coherent hid.not_isReorder).imp
    (fun _ c' hc' => ?_) fun _ _ _ => trivial
  obtain ⟨p', made, hfill, hserved, hgrouped, hanswered⟩ := hc'
  have hfurnished := h.filled hfill
  have hshape : p'.shapeOf id = some op := by rw [(hfill.touched h.linked).shapes, hop]
  have hid' : p'.isWeighted id := ⟨op, hshape, hk⟩
  have haside : Aside p' c'.program id := .served hserved hfurnished.recorded.numbered
    hfurnished.aligned hfurnished.ordered hid'.not_isReorder
  refine ⟨⟨hfurnished.served hid' hserved, hgrouped, (Aside.filled hfill h.linked id).trans haside⟩,
    fun hlays => ?_⟩
  have hlt : index < (p'.depsOf id).length := by rwa [hfurnished.length_depsOf hshape]
  have hsource : (p'.depsOf id)[index]? = some _ := List.getElem?_eq_getElem hlt
  obtain ⟨current, target, hcurrent, htarget, hanswer⟩ := hanswered _ hsource
  obtain ⟨l, hl, helement, hsize, hsuits⟩ :=
    (hdone ((Aside.filled hfill h.linked id).lays (haside.lays hlays))).filled h.linked hfill
  obtain ⟨⟨format, hlaid⟩, hsuit, hothers⟩ :=
    hfurnished.suits hid' hsource hcurrent htarget hanswer hlays hl helement
  rw [hgrouped]
  refine ⟨_, hlaid, helement, hsize, fun slot hslot => ?_⟩
  rcases List.mem_append.mp hslot with hslot | hslot
  · exact hothers slot (hnew slot hslot) (hsuits slot hslot)
  · exact List.mem_singleton.mp hslot ▸ hsuit

/-- **Then all slots of the node suit.** -/
theorem partway_reorderDependencies {op : Operation} (output : Layout)
    (hk : op.kind.isWeighted = true) :
    ∀ (wanted done : List (Role × Nat)) (c : Compilation), Furnished c.program c.preferences.made →
      c.program.shapeOf id = some op → (∀ slot ∈ wanted, slot.2 < op.arguments.length) →
      ((done ++ wanted).map (·.2)).Nodup → (c.program.LaysReorders →
        Partway c.preferences.grouped c.program id kind output done) →
      Ends (reorderDependencies id kind output wanted)
        (fun _ c' => Handled c c' id ∧ (c'.program.LaysReorders →
          Partway c'.preferences.grouped c'.program id kind output (done ++ wanted)))
        (fun _ _ => True) c
  | [], done, c, h, _, _, _, hdone => by
      rw [List.append_nil]
      exact ⟨.refl h id, hdone⟩
  | (role, index) :: wanted, done, c, h, hop, hbound, hnodup, hdone => by
      obtain ⟨hlt, hbound⟩ := List.forall_mem_cons.mp hbound
      have hsplit : done ++ (role, index) :: wanted = done ++ [(role, index)] ++ wanted := by simp
      have hnew : ∀ slot ∈ done, slot.2 ≠ index := fun slot hslot heq => by
        rw [List.map_append, List.nodup_append] at hnodup
        exact hnodup.2.2 _ (List.mem_map_of_mem hslot) _ List.mem_cons_self heq
      rw [reorderDependencies, ends_bind]
      refine (partway_reorderDependency output h hop hk hlt hnew hdone).imp_good
        fun _ d hd => ?_
      obtain ⟨hd, hdone'⟩ := hd
      have hop' : d.program.shapeOf id = some op := by
        rw [hd.aside.weighted id (Or.inl ⟨op, hop, hk⟩), hop]
      rw [ends_bind, hsplit]
      exact (partway_reorderDependencies output hk wanted _ d hd.furnished hop' hbound
        (hsplit ▸ hnodup) hdone').imp_good fun _ d' hd' => ⟨hd.trans hd'.1, hd'.2⟩

/-! ## All nodes -/

/-- Whether a node is a convolution in groups is a matter of its shape. -/
theorem isGrouped_congr {n n' : Node} (h : n.operation.shape = n'.operation.shape) :
    isGrouped n = isGrouped n' := by
  have hshape : ∀ n : Node, isGrouped (n.withOperation n.operation.shape) = isGrouped n := by
    intro n
    have hop : (n.withOperation n.operation.shape).operation = n.operation.shape := rfl
    unfold isGrouped
    rw [hop]
    cases n.operation with
    | convolution c => exact congrArg (fun k : Nat => decide (k > 1)) (c.split_mapSlots _)
    | fusedConvBnScale f => exact congrArg (fun k : Nat => decide (k > 1)) (f.conv.split_mapSlots _)
    | _ => rfl
  rw [← hshape n, ← hshape n', h]
  rfl

theorem isWeighted_of_isGrouped {n : Node} (hn : p.node? id = some n) (h : isGrouped n = true) :
    p.isWeighted id := by
  refine ⟨n.operation.shape, by rw [shapeOf, hn, Option.map_some], ?_⟩
  rw [Operation.kind_shape]
  unfold isGrouped at h
  split at h
  case h_1 c hop => rw [hop]; rfl
  case h_2 f hop => rw [hop]; rfl
  case h_3 => cases h

theorem any_isGrouped_of_weighted (hl : p.Linked)
    (h : ∀ u, p.isWeighted u → q.shapeOf u = p.shapeOf u) (hp : p.nodes.any isGrouped = true) :
    q.nodes.any isGrouped = true := by
  obtain ⟨n, hmem, hn⟩ := List.any_eq_true.mp hp
  have hnode := node?_of_mem hl.ids_nodup hmem
  have hshape := h n.id (isWeighted_of_isGrouped hnode hn)
  rw [shapeOf, shapeOf, hnode, Option.map_some, Option.map_eq_some_iff] at hshape
  obtain ⟨n', hnode', hshape⟩ := hshape
  exact List.any_eq_true.mpr ⟨n', (node?_eq_some hnode').1, isGrouped_congr hshape ▸ hn⟩

/-- **There are convolutions in groups if there were.** -/
theorem Aside.any_isGrouped (h : Aside p q next) (hl : p.Linked) (hl' : q.Linked) :
    q.nodes.any isGrouped = p.nodes.any isGrouped := by
  refine Bool.eq_iff_iff.mpr ⟨any_isGrouped_of_weighted hl' fun u hu => ?_,
    any_isGrouped_of_weighted hl fun u hu => h.weighted u (Or.inl hu)⟩
  exact (h.weighted u (Or.inr hu)).symm

/-- What is still to come stands in order, and behind the weighted nodes that are done. -/
structure Front (p : Program) (ids : List String) : Prop where
  sorted : ids.Pairwise (Before p.order.ids)
  behind : ∀ v, p.isWeighted v → v ∉ ids → ∀ w ∈ ids, Before p.order.ids v w

theorem pairwise_before : ∀ l : List String, l.Pairwise (Before l)
  | [] => .nil
  | a :: l => .cons (fun _ hb => (List.singleton_sublist.mpr hb).cons_cons a)
      ((pairwise_before l).imp fun h => h.mono (List.sublist_cons_self a l))

/-- In the beginning everything is still to come. -/
theorem front_order (ho : p.Ordered) : Front p p.order.ids :=
  ⟨pairwise_before _, fun v hv hnot => absurd ((ho.mem v).mpr hv.contains) hnot⟩

theorem Front.step {ids : List String} (h : Front p (id :: ids)) (hq : Aside p q id) :
    Front q ids := by
  obtain ⟨hfirst, hsorted⟩ := List.pairwise_cons.mp h.sorted
  refine ⟨hsorted.imp fun hb => hb.mono hq.order, fun v hv hnot w hw => ?_⟩
  by_cases he : v = id
  · exact he ▸ (hfirst w hw).mono hq.order
  · exact (h.behind v (hq.isWeighted.mp hv) (List.not_mem_cons_of_ne_of_not_mem he hnot) w
      (List.mem_cons_of_mem _ hw)).mono hq.order

/-- What is done is suited, if reorders can be laid out. -/
def Done (slots : Operation → List (Role × Nat)) (c : Compilation) (ids : List String) : Prop :=
  c.program.LaysReorders → ∀ v, v ∉ ids → Suited slots c.preferences.grouped c.program v

/-- The slots are those of weighted nodes, are read off the shape, and there is one argument in
each. -/
structure Slotted (slots : Operation → List (Role × Nat)) : Prop where
  weighted : ∀ {op}, slots op ≠ [] → op.kind.isWeighted = true
  shape : ∀ op, slots op.shape = slots op
  nodup : ∀ op, ((slots op).map (·.2)).Nodup
  bound : ∀ op, ∀ slot ∈ slots op, slot.2 < op.arguments.length

section Run

variable (hslots : Slotted slots)
include hslots

/-- **One more node is done**, and those before stay so. -/
theorem Done.step {ids : List String} {c' : Compilation} (h : Done slots c (id :: ids))
    (ht : Furnished c.program c.preferences.made) (hf : Front c.program (id :: ids))
    (hc : Handled c c' id)
    (hid : c'.program.LaysReorders → Suited slots c'.preferences.grouped c'.program id) :
    Done slots c' ids := by
  intro hlays v hv
  by_cases he : v = id
  · exact he ▸ hid hlays
  intro op hop hne
  have hnot : v ∉ id :: ids := List.not_mem_cons_of_ne_of_not_mem he hv
  have hweighted : c.program.isWeighted v :=
    hc.aside.isWeighted.mp ⟨op, hop, hslots.weighted hne⟩
  have hbefore := hf.behind v hweighted hnot id List.mem_cons_self
  rw [hc.grouped]
  exact (h (hc.aside.lays hlays) v hnot).aside (fun _ => hslots.weighted) ht.ordered hc.aside
    hbefore op hop hne

/-- **The run leaves every node suited.** -/
theorem suited_reorderSlots : ∀ (ids : List String) (c : Compilation),
    Furnished c.program c.preferences.made → Front c.program ids → Done slots c ids →
    Ends (reorderSlots slots ids)
      (fun _ c' => Furnished c'.program c'.preferences.made ∧
        c'.preferences.grouped = c.preferences.grouped ∧
        c'.program.nodes.any isGrouped = c.program.nodes.any isGrouped ∧ Done slots c' [])
      (fun _ _ => True) c
  | [], _, h, _, hdone => ⟨h, rfl, rfl, hdone⟩
  | id :: ids, c, h, hfront, hdone => by
      have hrest : ∀ (here : Nat) (d : Compilation), Handled c d id →
          (d.program.LaysReorders → Suited slots d.preferences.grouped d.program id) →
          Ends (do
            let further ← reorderSlots slots ids
            return here + further : Transform Nat)
            (fun _ c' => Furnished c'.program c'.preferences.made ∧
              c'.preferences.grouped = c.preferences.grouped ∧
              c'.program.nodes.any isGrouped = c.program.nodes.any isGrouped ∧ Done slots c' [])
            (fun _ _ => True) d := by
        intro here d hd hsuited
        rw [ends_bind]
        refine (suited_reorderSlots ids d hd.furnished (hfront.step hd.aside)
          (hdone.step hslots h hfront hd hsuited)).imp_good
          fun _ c' hc' => ?_
        obtain ⟨ht, hgrouped, hany, hdone'⟩ := hc'
        exact ⟨ht, hgrouped.trans hd.grouped,
          hany.trans (hd.aside.any_isGrouped h.linked hd.furnished.linked), hdone'⟩
      rw [reorderSlots, ends_bind, Transform.ends_liftM, ends_node]
      refine ⟨fun n hn => ?_, fun _ => trivial⟩
      have hop : c.program.shapeOf id = some n.operation.shape := by
        rw [shapeOf, hn, Option.map_some]
      dsimp only
      split
      case isTrue hnone =>
        refine hrest 0 c (.refl h id) fun _ op hop' hne => ?_
        rw [hop] at hop'
        rw [← Option.some.inj hop', hslots.shape, List.isEmpty_iff.mp hnone] at hne
        exact absurd rfl hne
      case isFalse hwanted =>
        have hk : n.operation.shape.kind.isWeighted = true := by
          rw [Operation.kind_shape]
          exact hslots.weighted fun hnil => hwanted (List.isEmpty_iff.mpr hnil)
        rw [ends_bind, Transform.ends_liftM]
        refine (layout_effect id h.coherent).imp (fun output p' hp' => ?_) fun _ _ _ => trivial
        obtain ⟨hfill, houtput⟩ := hp'
        have hop' : p'.shapeOf id = some n.operation.shape := by
          rw [(hfill.touched h.linked).shapes, hop]
        rw [ends_bind]
        refine (partway_reorderDependencies (c := { c with program := p' }) output hk _ []
          (h.filled hfill) hop' (fun slot hslot => ?_) ?_ fun _ => ?_).imp_good
          fun here d hd => ?_
        · exact hslots.bound _ slot (hslots.shape n.operation ▸ hslot)
        · exact hslots.nodup _
        · refine ⟨output, ?_, rfl, rfl, fun _ hs => absurd hs List.not_mem_nil⟩
          rw [freshLayout_of_uncached hfill.same, houtput]
        · obtain ⟨hd, hpartway⟩ := hd
          have hstart : Handled c { c with program := p' } id :=
            ⟨h.filled hfill, rfl, .filled hfill h.linked id⟩
          refine hrest here d (hstart.trans hd) fun hlays op hop'' hne => ?_
          obtain ⟨l, hl, helement, hsize, hsuits⟩ := hpartway hlays
          rw [hd.aside.weighted id (Or.inl ⟨_, hop', hk⟩), hop'] at hop''
          rw [← Option.some.inj hop'', hslots.shape, Operation.kind_shape]
          exact ⟨l, hl, fun slot hslot => (hsuits slot hslot).recast helement hsize⟩

end Run

end Pass

end NetPlan
