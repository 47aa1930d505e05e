import NetPlan.Proofs.Graph.Contract
import NetPlan.Proofs.Pass.Preferred
import NetPlan.Proofs.Pass.Quiet
import NetPlan.Proofs.Pass.Trim

/-!
# Proofs/Pass/Counts — what a pass reports as removed

The passes count the nodes they lose in three ways: some compare the sizes before and after, some only
ever add nodes, and some count what they take out.

* `Grows` — no node is lost: so it is where reorders are put in and kernels are bound, whatever the
  graph;
* `Linked.size_without` — a linked graph is smaller by the nodes that are taken out, and by one where two
  become one (`size_contracted`);
* `trim_size`, `foldConstants_size` — trimming and the folding of constants report just these.
-/

namespace NetPlan

open Program Edit Transform

/-! ## Sizes -/

namespace Program

variable {p q : Program} {id : String}

/-- There are as many nodes as ids. -/
theorem Linked.size_eq (h : p.Linked) : p.size = p.ids.toFinset.card := by
  rw [List.toFinset_card_of_nodup h.ids_nodup, ids, List.length_map, size]

/-- No node is lost. -/
def Grows (p q : Program) : Prop := ∀ j, p.contains j = true → q.contains j = true

instance : IsPreorder Program Grows where
  refl _ _ h := h
  trans _ _ _ h h' j hj := h' j (h j hj)

/-- The same nodes are no fewer. -/
theorem Grows.of_contains (h : q.contains = p.contains) : Grows p q := fun j hj => by rwa [h]

/-- A graph that grows has no fewer nodes. -/
theorem Grows.size_le (h : Grows p q) (hl : p.Linked) : p.size ≤ q.size := by
  have hsubset : p.ids.toFinset ⊆ q.ids.toFinset := fun j hj => by
    rw [List.mem_toFinset, ← contains_iff_mem_ids] at hj ⊢
    exact h j hj
  calc p.size = p.ids.toFinset.card := hl.size_eq
    _ ≤ q.ids.toFinset.card := Finset.card_le_card hsubset
    _ ≤ q.ids.length := q.ids.toFinset_card_le
    _ = q.size := List.length_map _

/-- The same nodes are as many. -/
theorem size_eq_of_contains (hp : p.Linked) (hq : q.Linked) (h : q.contains = p.contains) :
    q.size = p.size :=
  Nat.le_antisymm (Grows.size_le (.of_contains h.symm) hq) (Grows.size_le (.of_contains h) hp)

/-- So many nodes less. -/
theorem Linked.size_without {doomed : List String} (hq : q.Linked) (hp : p.Linked)
    (hmem : ∀ j, q.contains j = true ↔ j ∉ doomed ∧ p.contains j = true) (hnodup : doomed.Nodup)
    (hcontains : ∀ j ∈ doomed, p.contains j = true) : q.size + doomed.length = p.size := by
  have hids : q.ids.toFinset = p.ids.toFinset \ doomed.toFinset := by
    ext j
    rw [Finset.mem_sdiff, List.mem_toFinset, List.mem_toFinset, List.mem_toFinset,
      ← contains_iff_mem_ids, ← contains_iff_mem_ids, hmem, and_comm]
  have hsubset : doomed.toFinset ⊆ p.ids.toFinset := fun j hj => by
    rw [List.mem_toFinset] at hj ⊢
    exact contains_iff_mem_ids.mp (hcontains j hj)
  rw [hq.size_eq, hids, ← List.toFinset_card_of_nodup hnodup,
    Finset.card_sdiff_add_card_eq_card hsubset, hp.size_eq]

/-- A cleared graph has lost as many nodes as were doomed. -/
theorem size_cleared {doomed : List String} (h : Edit.Cleared p q doomed) (hl : p.Linked)
    (hnodup : doomed.Nodup) (hcontains : ∀ j ∈ doomed, p.contains j = true) :
    q.size + doomed.length = p.size :=
  h.kept.linked.size_without hl h.contains_iff hnodup hcontains

/-- One node less. -/
theorem Linked.size_succ (hq : q.Linked) (hp : p.Linked) (hid : p.contains id = true)
    (hmem : ∀ j, q.contains j = true ↔ j ≠ id ∧ p.contains j = true) : q.size + 1 = p.size := by
  refine (hq.size_without hp (fun j => ?_) (List.nodup_singleton id) fun j hj => ?_ :
    q.size + [id].length = p.size)
  · rw [hmem, List.mem_singleton]
  · rw [List.mem_singleton.mp hj, hid]

/-- A removed node is one. -/
theorem size_removed (h : Removed p q id) (hl : p.Linked) : q.size + 1 = p.size :=
  h.kept.linked.size_succ hl h.contains h.contains_iff

/-- Two nodes become one. -/
theorem size_contracted {input : String} {g : Task → Task} (h : Contracted p q id input g)
    (hl : p.Linked) : q.size + 1 = p.size :=
  h.kept.linked.size_succ hl (h.contains_leaver hl) (h.contains_iff hl)

/-- Links hold on, and the nodes are the same. -/
def SameNodes (p q : Program) : Prop := p.Linked → q.Linked ∧ q.contains = p.contains

instance : IsPreorder Program SameNodes where
  refl _ h := ⟨h, rfl⟩
  trans _ _ _ h h' hp := ⟨(h' (h hp).1).1, (h' (h hp).1).2.trans (h hp).2⟩

/-! ### Where nothing happens -/

/-- What is not a matter of caches and flags is the same. -/
theorem Idle.view {β : Type} (v : Option Node → β) (hv : ∀ n : Node, v (some n.bare) = v (some n))
    (h : p.Idle q) (j : String) : v (q.node? j) = v (p.node? j) := by
  have hview : ∀ p : Program, v (p.bare.node? j) = v (p.node? j) := fun p =>
    view_updateAll v (f := Node.bare) (fun _ => rfl) hv j
  rw [← hview q, ← hview p, h.same]

theorem Idle.ids (h : p.Idle q) : q.ids = p.ids := by
  have hids : ∀ p : Program, p.bare.ids = p.ids := fun p =>
    ids_updateAll (f := Node.bare) fun _ => rfl
  rw [← hids q, ← hids p, h.same]

theorem Idle.contains (h : p.Idle q) : q.contains = p.contains := contains_congr h.ids

theorem Idle.grows (h : p.Idle q) : Grows p q := .of_contains h.contains

theorem Idle.linked (h : p.Idle q) (hl : p.Linked) : q.Linked := by
  have horder : q.order = p.order := (congrArg Program.order h.same :)
  exact hl.of_views h.ids (funext fun j => h.view Node.depsIn (fun _ => rfl) j)
    (funext fun j => h.view Node.usersIn (fun _ => rfl) j) (congrArg Program.inputs h.same :)
    (horder ▸ hl.order_nodup) fun id hid => hl.order_contains id (horder ▸ hid)

/-- An idle step keeps the nodes. -/
theorem Idle.sameNodes (h : p.Idle q) : SameNodes p q := fun hl => ⟨h.linked hl, h.contains⟩

end Program

namespace Edit

variable {still : Unit → Prop}

theorem grows_change (id : String) {f : Node → Node} (hf : ∀ n, (f n).id = n.id) :
    Leaves Grows still (change id f) := fun p => by
  rw [ends_change]
  exact ⟨fun _ _ _ => .of_contains (contains_update hf), fun _ => trivial⟩

theorem grows_connect (dep user : String) : Leaves Grows still (connect dep user) := fun p => by
  refine ends_connect (fun _ => trivial) (fun _ => trivial) (fun _ => trivial) fun _ _ _ _ =>
    .of_contains (contains_congr ?_)
  rw [link, ids_setInputs, ids_invalidate, ids_update fun n => n.id_addUser user,
    ids_update fun n => n.id_addDependency dep]

theorem grows_placeIntermediate (prim : Primitive) (source : String) :
    Leaves Grows still (placeIntermediate prim source) := by
  rw [placeIntermediate]
  refine leaves_get.seq fun p => ?_
  split
  · split
    · exact leaves_throw _
    · exact leaves_pure _
  · have hcreate : Leaves Grows (fun _ => True) (create prim) := fun p =>
      (create_effect prim).imp_good fun n q hq _ => by
        obtain ⟨-, rfl⟩ | ⟨hfree, -, rfl⟩ := hq
        · exact refl_of Grows q
        · exact fun j hj => (contains_withNew hfree).mpr (Or.inr hj)
    have hplace : Leaves Grows still (do
        let _ ← create prim
        connectAll prim.arguments prim.id
        modify fun p => { p with order := p.order.insertAfter source prim.id }) := by
      refine hcreate.seq fun _ => Leaves.seq ?_ fun _ => fun p => ?_
      · rw [connectAll]
        exact (leaves_forIn (fun dep _ => (grows_connect dep prim.id).seq fun _ => leaves_pure _)
          _ _).seq fun _ => leaves_pure _
      · exact fun _ => refl_of Grows p
    split
    · exact leaves_throw _
    · exact hplace

theorem grows_replaceDependency (user : String) (index : Nat) (new : String) :
    Leaves Grows still (replaceDependency user index new) := fun _ =>
  replaceDependency_effect.imp (fun _ _ hq _ => .of_contains hq.2.1.contains)
    fun _ _ _ => trivial

theorem grows_inheritFlags (source id : String) : Leaves Grows still (inheritFlags source id) := by
  rw [inheritFlags]
  refine ((leaves_node source).of_imp Idle.grows).seq fun s => ?_
  refine Leaves.seq (grows_change id fun _ => rfl) fun _ => ?_
  split
  · refine Leaves.seq (grows_change id fun _ => rfl) fun _ => leaves_get.seq fun p => ?_
    exact grows_change source fun _ => rfl
  · exact leaves_pure _

theorem grows_addIntermediate (prim : Primitive) (next : String) (index : Nat) :
    Leaves Grows still (addIntermediate prim next index) := by
  rw [addIntermediate]
  refine ((leaves_node next).of_imp Idle.grows).seq fun n => ?_
  split
  · exact leaves_throw _
  · exact (grows_placeIntermediate prim _).seq fun _ =>
      (grows_replaceDependency next index prim.id).seq fun _ => grows_inheritFlags _ _

/-- **Trimming** tells how many nodes it took out. -/
theorem trim_size {p : Program} (h : p.Linked) :
    Ends trim (fun removed q => q.size + removed = p.size) (fun _ _ => True) p := by
  refine (trim_spec h).imp (fun _ q hq => ?_) fun _ _ _ => trivial
  obtain ⟨doomed, rfl, hnodup, -, hcleared, -, hdoomed⟩ := hq
  exact size_cleared hcleared h hnodup fun j hj => h.order_contains j ((hdoomed j).mp hj).1

end Edit

namespace Pass

/-! ## Nodes that stay -/

section Grows

variable {α : Type} {still : α → Prop}

theorem grows_insertReorder {still : Option String → Prop} (choice : ReorderChoice) (next : String)
    (index : Nat) : Leaves (Compilation.On Grows) still (insertReorder choice next index) := by
  have hadd : ∀ r : Primitive, Leaves (Compilation.On Grows) still (do
      Edit.addIntermediate r next index
      return some r.id : Transform (Option String)) := fun r =>
    (leaves_liftM (grows_addIntermediate r next index)).seq fun _ => leaves_pure _
  unfold insertReorder
  split
  · exact leaves_pure none
  · exact hadd _
  · refine leaves_program.seq fun p => ?_
    dsimp only
    split
    · exact leaves_preferences.seq fun _ => (leaves_setPreferences _).seq fun _ => hadd _
    · exact hadd _

theorem grows_bindNode {still : Bool → Prop} (s : Selector) (id : String) :
    Leaves (Compilation.On Grows) still (bindNode s id) := by
  rw [bindNode]
  refine (leaves_liftM ((leaves_layout id).of_imp Idle.grows)).seq fun output =>
    (leaves_liftM ((leaves_inputLayouts id).of_imp Idle.grows)).seq fun inputs =>
    (leaves_liftM ((leaves_node id).of_imp Idle.grows)).seq fun n => leaves_program.seq fun p =>
    (leaves_liftM ((leaves_ofExcept _).of_imp Idle.grows)).seq fun kind =>
    (leaves_liftM ((leaves_ofExcept _).of_imp Idle.grows)).seq fun _ => ?_
  refine Leaves.seq (fun c => ?_) fun plan => ?_
  · rw [ends_ask]
    exact (ends_trivial _ _).imp_good fun _ _ _ _ => refl_of Grows c.program
  · exact Leaves.seq (leaves_liftM (grows_change id fun _ => rfl)) fun _ => leaves_pure _

theorem grows_changeWeights {still : Bool → Prop} (s : Selector) (id : String)
    (target : WeightTensor) (index : Nat) :
    Leaves (Compilation.On Grows) still (changeWeights s id target index) := by
  rw [changeWeights]
  refine (leaves_liftM ((leaves_node id).of_imp Idle.grows)).seq fun n => ?_
  split
  case h_2 => exact leaves_pure false
  refine (leaves_liftM ((leaves_layout _).of_imp Idle.grows)).seq fun current =>
    leaves_preferences.seq fun made => ?_
  dsimp only
  refine (leaves_setPreferences _).seq fun _ =>
    (grows_insertReorder _ _ _).seq fun reorder => ?_
  split
  case h_2 => exact leaves_pure false
  refine (leaves_liftM ((leaves_node _).of_imp Idle.grows)).seq fun r => ?_
  split
  · exact (grows_bindNode s _).seq fun _ => leaves_pure true
  · exact leaves_pure true

theorem grows_changeAllWeights {still : Nat → Prop} (s : Selector) (id : String)
    (target : WeightTensor) : ∀ slots : List Nat,
    Leaves (Compilation.On Grows) still (changeAllWeights s id target slots)
  | [] => leaves_pure 0
  | index :: slots => by
      rw [changeAllWeights]
      exact (grows_changeWeights s id target index).seq fun _ =>
        (grows_changeAllWeights s id target slots).seq fun _ =>
          leaves_pure _

theorem grows_satisfyWeights {still : Nat → Prop} (s : Selector) : ∀ ids : List String,
    Leaves (Compilation.On Grows) still (satisfyWeights s ids)
  | [] => leaves_pure 0
  | id :: ids => by
      have hrest : ∀ here : Nat, Leaves (Compilation.On Grows) still (do
          let further ← satisfyWeights s ids
          return here + further : Transform Nat) := fun here =>
        (grows_satisfyWeights s ids).seq fun _ => leaves_pure _
      rw [satisfyWeights]
      refine (leaves_liftM ((leaves_node id).of_imp Idle.grows)).seq fun n => ?_
      dsimp only
      split
      · exact hrest 0
      · split
        · exact hrest 0
        · refine (grows_changeAllWeights s id _ _).seq fun inserted => ?_
          refine Leaves.seq (leaves_liftM (grows_change id fun _ => rfl)) fun _ => ?_
          rw [pure_bind]
          exact hrest inserted

theorem grows_reorderSlots {still : Nat → Prop} (slots : Operation → List (Role × Nat))
    (ids : List String) : Leaves (Compilation.On Grows) still (reorderSlots slots ids) :=
  (leaves_reorderSlots False Idle.grows (fun _ _ _ => grows_insertReorder _ _ _)
    slots ids).mono fun _ _ h => h.elim

/-- What only adds nodes removes none. -/
theorem removed_ofGrows {x : Transform Nat} {c : Compilation} (hl : c.program.Linked)
    (h : Leaves (Compilation.On Grows) (fun _ => True) x) :
    Ends (do return PassStats.ofCounts (← x) 0 : Transform PassStats)
      (fun stats c' => stats.removed = c.program.size - c'.program.size) (fun _ _ => True) c := by
  rw [ends_bind]
  exact (h.ends c).imp_good fun count c' hc' =>
    (Nat.sub_eq_zero_of_le (Grows.size_le hc' hl)).symm

end Grows

/-! ## Nodes that go -/

theorem sameNodes_fold (ev : Evaluator) (id : String) (known : Known) {still : Bool × Known → Prop} :
    Leaves SameNodes still ((fold ev id).run known) := by
  have hreplace : ∀ prim : Primitive,
      Leaves SameNodes (fun _ : Unit => True) (Edit.replace id prim false) := fun prim p => by
    by_cases hl : p.Linked
    · exact (replace_effect hl false).imp
        (fun _ q hq _ _ => ⟨hq.kept.linked, hq.contains⟩) fun _ _ _ => trivial
    · exact (ends_trivial _ _).imp_good fun _ _ _ _ h => absurd h hl
  rw [fold, StateT.run_bind]
  refine ((leaves_run_liftM leaves_get).of_imp Idle.sameNodes).seq
    fun p => ?_
  rw [StateT.run_bind]
  refine ((leaves_valueWithin ev _ id _).of_imp Idle.sameNodes).seq
    fun r => ?_
  rcases r with ⟨_ | v, known'⟩
  · exact leaves_pure _
  · dsimp only
    rw [StateT.run_bind]
    exact Leaves.seq ((hreplace _).seq fun u => leaves_pure (u, known')) fun _ => leaves_pure _

theorem sameNodes_foldAll (ev : Evaluator) {still : Nat × Known → Prop} :
    ∀ (ids : List String) (known : Known), Leaves SameNodes still ((foldAll ev ids).run known)
  | [], known => leaves_pure _
  | id :: ids, known => by
      rw [foldAll, StateT.run_bind]
      refine (sameNodes_fold ev id known).seq fun r => ?_
      rw [StateT.run_bind]
      exact (sameNodes_foldAll ev ids r.2).seq fun _ => leaves_pure _

/-- **Sweeping** tells how many nodes it took out. -/
theorem sweep_size : ∀ (ids : List String) {p : Program}, p.Linked →
    Ends (sweep ids) (fun erased q => q.size + erased = p.size) (fun _ _ => True) p
  | [], _, _ => rfl
  | id :: ids, p, hl => by
      have hrest : ∀ (here : Nat) (q : Program), q.Linked → q.size + here = p.size → Ends (do
          let further ← sweep ids
          return here + further) (fun erased q => q.size + erased = p.size) (fun _ _ => True) q := by
        intro here q hq hsize
        rw [ends_bind]
        refine (sweep_size ids hq).imp_good fun further r hr => ?_
        change r.size + (here + further) = p.size
        omega
      rw [sweep, ends_bind, ends_get]
      dsimp only
      split
      · split
        · rw [ends_bind]
          exact (remove_effect hl).imp
            (fun _ q hq => hrest 1 q hq.kept.linked (size_removed hq hl)) fun _ _ _ => trivial
        · exact hrest 0 p hl rfl
      · exact hrest 0 p hl rfl

/-- **The folding of constants** removes what it says it erased. -/
theorem foldConstants_size (ev : Evaluator) {p : Program} (hl : p.Linked) :
    Ends (foldConstants ev) (fun stats q => stats.removed = p.size - q.size) (fun _ _ => True) p := by
  rw [foldConstants, ends_bind]
  refine (leaves_markConstants.ends p).imp_good fun _ q hq => ?_
  rw [ends_bind, ends_get]
  dsimp only
  rw [ends_bind]
  refine ((sameNodes_foldAll ev _ []).ends q).imp_good fun r q' hq' => ?_
  obtain ⟨hl', hcontains⟩ := trans_of SameNodes hq.sameNodes hq' hl
  rw [ends_bind, ends_get, ends_bind]
  refine (sweep_size _ hl').imp_good fun erased q'' hsize => ?_
  change erased = p.size - q''.size
  rw [size_eq_of_contains hl hl' hcontains] at hsize
  omega

end Pass

end NetPlan
