import NetPlan.Proofs.Graph.Nodes

/-!
# Proofs/Graph/Rename — another id for a node

Renaming puts a new id wherever the old one stood: the graph after it is the graph before it, read
through `swap`.  A layout rule names the node in its errors only, so the layouts stay what they were.
-/

namespace NetPlan

/-- The new id in the place of the old one. -/
def swap (old new id : String) : String := if id = old then new else id

section Swap

variable {old new id : String} {l : List String}

@[simp] theorem swap_self (old new : String) : swap old new old = new := if_pos rfl

/-- Other ids stay. -/
theorem swap_of_ne (h : id ≠ old) : swap old new id = id := if_neg h

/-- Swapping back, for an id that was not the new one. -/
theorem swap_swap (h : id ≠ new) : swap new old (swap old new id) = id := by
  by_cases he : id = old
  · rw [he, swap_self, swap_self]
  · rw [swap_of_ne he, swap_of_ne h]

/-- The new id is in a list just where the old one was. -/
theorem mem_map_swap :
    id ∈ l.map (swap old new) ↔ id = new ∧ old ∈ l ∨ id ≠ old ∧ id ∈ l := by
  rw [List.mem_map]
  constructor
  · rintro ⟨a, ha, rfl⟩
    by_cases hao : a = old
    · exact Or.inl ⟨by rw [hao, swap_self], hao ▸ ha⟩
    · rw [swap_of_ne hao]
      exact Or.inr ⟨hao, ha⟩
  · rintro (⟨rfl, h⟩ | ⟨hne, h⟩)
    · exact ⟨old, h, swap_self old id⟩
    · exact ⟨id, h, swap_of_ne hne⟩

/-- A list without the old id stays. -/
theorem map_swap_of_not_mem (h : old ∉ l) : l.map (swap old new) = l := by
  refine (List.map_congr_left fun a ha => ?_).trans (List.map_id l)
  exact swap_of_ne fun he => h (he ▸ ha)

/-- Where the new id is free, different ids stay different. -/
theorem swap_injOn (h : new ∉ l) : ∀ a ∈ l, ∀ b ∈ l, swap old new a = swap old new b → a = b := by
  intro a ha b hb hab
  have hna : a ≠ new := fun he => h (he ▸ ha)
  have hnb : b ≠ new := fun he => h (he ▸ hb)
  unfold swap at hab
  split at hab <;> split at hab <;> simp_all

/-- Where the new id is free, no id comes twice. -/
theorem nodup_map_swap (hl : l.Nodup) (h : new ∉ l) : (l.map (swap old new)).Nodup :=
  List.Nodup.map_on (fun a ha b hb hab => swap_injOn h a ha b hb hab) hl

end Swap

/-! ## Layout rules do not depend on the id -/

namespace Node

/-- Two computations with the same results, whatever their errors. -/
def SameOk {α : Type} (x y : Except CompileError α) : Prop := ∀ a, x = .ok a → y = .ok a

namespace SameOk

variable {α β : Type}

theorem refl (x : Except CompileError α) : SameOk x x := fun _ h => h

theorem error (e : CompileError) (y : Except CompileError α) : SameOk (.error e) y :=
  fun _ h => nomatch h

theorem bind {x y : Except CompileError α} {f g : α → Except CompileError β} (h : SameOk x y)
    (hfg : ∀ a, SameOk (f a) (g a)) : SameOk (x >>= f) (y >>= g) := by
  intro b hb
  cases x with
  | error e => cases hb
  | ok a =>
    rw [h a rfl]
    exact hfg a b hb

theorem ite (c : Prop) [Decidable c] {x y x' y' : Except CompileError α} (h : SameOk x x')
    (h' : SameOk y y') : SameOk (if c then x else y) (if c then x' else y') := by
  split
  · exact h
  · exact h'

end SameOk

variable (n : Node) (id : String) (inputs : List Layout)

theorem expectInputs_withId (k : Nat) :
    SameOk (n.expectInputs inputs k) ((n.withId id).expectInputs inputs k) :=
  .ite _ (.error _ _) (.refl _)

theorem sameAsInput_withId :
    SameOk (n.sameAsInput inputs) ((n.withId id).sameAsInput inputs) :=
  (n.expectInputs_withId id inputs 1).bind fun _ => .refl _

theorem windowPositions_withId (input window stride dilation padding : Nat)
    (rounding : WindowRounding) :
    SameOk (n.windowPositions input window stride dilation padding rounding)
      ((n.withId id).windowPositions input window stride dilation padding rounding) := by
  unfold windowPositions
  split
  · exact .refl _
  · exact .error _ _
  · exact .refl _

/-- A convolution is laid out without regard to its id. -/
theorem convolutionLayout_withId (c : Convolution) :
    SameOk (n.convolutionLayout c inputs) ((n.withId id).convolutionLayout c inputs) := by
  refine (n.expectInputs_withId id inputs _).bind fun _ => (SameOk.refl _).bind fun input =>
    (SameOk.refl _).bind fun weights => ?_
  dsimp only
  split
  · exact .refl _
  · exact SameOk.bind (n.windowPositions_withId id _ _ _ _ _ _) fun x =>
      SameOk.bind (n.windowPositions_withId id _ _ _ _ _ _) fun y => .refl _

/-- So is pooling. -/
theorem poolingLayout_withId (p : Pooling) :
    SameOk (n.poolingLayout p inputs) ((n.withId id).poolingLayout p inputs) := by
  refine (n.expectInputs_withId id inputs _).bind fun _ => (SameOk.refl _).bind fun input => ?_
  dsimp only
  split
  · exact .refl _
  · exact SameOk.bind (n.windowPositions_withId id _ _ _ _ _ _) fun x =>
      SameOk.bind (n.windowPositions_withId id _ _ _ _ _ _) fun y => .refl _

/-- **No layout depends on the id of the node**, and nor does its success. -/
theorem outputLayout_withId :
    SameOk (n.outputLayout inputs) ((n.withId id).outputLayout inputs) := by
  have hexpect := n.expectInputs_withId id inputs
  have hsame := n.sameAsInput_withId id inputs
  have hop : (n.withId id).operation = n.operation := rfl
  unfold outputLayout
  rw [hop]
  cases n.operation with
  | inputLayout l => exact .refl _
  | data l v => exact .ite _ (.error _ _) (.refl _)
  | convolution c => exact n.convolutionLayout_withId id inputs c
  | fullyConnected c => exact (hexpect 2).bind fun _ => .refl _
  | pooling p => exact n.poolingLayout_withId id inputs p
  | activation a => exact hsame
  | eltwise e =>
    refine (hexpect 1).bind fun _ => (SameOk.refl _).bind fun first => ?_
    split
    · exact .error _ _
    · exact hsame
  | reorder r => exact (hexpect 1).bind fun _ => .refl _
  | softmax s => exact hsame
  | concatenation c =>
    exact (hexpect 1).bind fun _ => (SameOk.refl _).bind fun first => .ite _ (.error _ _) (.refl _)
  | batchNorm b => exact (hexpect 3).bind fun _ => hsame
  | scale s => exact (hexpect 2).bind fun _ => hsame
  | fusedConvBnScale f => exact n.convolutionLayout_withId id inputs f.conv

/-- The rule of a kind is found under every id. -/
theorem rule_withId (b : Behaviours) : SameOk (n.rule b inputs) ((n.withId id).rule b inputs) := by
  rw [rule_eq, rule_eq]
  exact (SameOk.refl _).bind fun _ => n.outputLayout_withId id inputs

end Node

/-! ## The renamed graph -/

namespace Program

variable {p : Program} {n : Node} {old new j : String}

/-- What renaming does to the other nodes. -/
def renameEnds (n : Node) (new : String) (m : Node) : Node :=
  let renamed := if m.id ∈ n.dependencies then m.renameUser n.id new else m
  if m.id ∈ n.users then renamed.renameDependency n.id new else renamed

/-- What is read off a node and changed at neither end of an edge. -/
theorem view_renameEnds {α : Type} (v : Node → α) (hu : ∀ m : Node, v (m.renameUser n.id new) = v m)
    (hd : ∀ m : Node, v (m.renameDependency n.id new) = v m) (m : Node) :
    v (renameEnds n new m) = v m := by
  have hm : v (if m.id ∈ n.dependencies then m.renameUser n.id new else m) = v m := by
    split
    · exact hu m
    · rfl
  unfold renameEnds
  dsimp only
  split
  · rw [hd, hm]
  · exact hm

@[simp] theorem id_renameEnds (m : Node) : (renameEnds n new m).id = m.id :=
  view_renameEnds Node.id (fun _ => rfl) (fun _ => rfl) m

@[simp] theorem layout_renameEnds (m : Node) : (renameEnds n new m).layout = m.layout :=
  view_renameEnds Node.layout (fun _ => rfl) (fun _ => rfl) m

@[simp] theorem core_renameEnds (m : Node) : (renameEnds n new m).core = m.core :=
  view_renameEnds Node.core (fun _ => rfl) (fun m => congrArg (fun op => ({ m.withOperation op with
    dependencies := [], users := [], layout := none } : Node)) (Operation.shape_renameSlots ..)) m

/-- Users of the node read it under its new id. -/
theorem dependencies_renameEnds (m : Node) : (renameEnds n new m).dependencies
    = if m.id ∈ n.users then m.dependencies.map (swap n.id new) else m.dependencies := by
  have hm : (if m.id ∈ n.dependencies then m.renameUser n.id new else m).dependencies
      = m.dependencies := by split <;> rfl
  unfold renameEnds
  dsimp only
  split
  · exact congrArg (List.map (swap n.id new)) hm
  · exact hm

/-- Users of the node name it by its new id. -/
theorem arguments_renameEnds (m : Node) : (renameEnds n new m).operation.arguments
    = if m.id ∈ n.users then m.operation.arguments.map (swap n.id new)
      else m.operation.arguments := by
  have hm : (if m.id ∈ n.dependencies then m.renameUser n.id new else m).operation
      = m.operation := by split <;> rfl
  unfold renameEnds
  dsimp only
  split
  · exact (Operation.arguments_renameSlots _ n.id new).trans
      (congrArg (fun op : Operation => op.arguments.map (swap n.id new)) hm)
  · rw [hm]

/-- What the node reads is read under the new id. -/
theorem users_renameEnds (m : Node) : (renameEnds n new m).users
    = if m.id ∈ n.dependencies then m.users.map (swap n.id new) else m.users := by
  have hm : ∀ m' : Node, (if m.id ∈ n.users then m'.renameDependency n.id new else m').users
      = m'.users := fun m' => by split <;> rfl
  unfold renameEnds
  dsimp only
  rw [hm]
  split <;> rfl

/-- A rename takes the node out and puts it back under the new id. -/
theorem nodes_renamed (hn : p.node? old = some n) : (Edit.renamed p n new).nodes
    = (((p.dropNode old).updateAll (renameEnds n new)).insert (n.withId new)).nodes := by
  have hends : (fun m : Node =>
      let m := if n.dependencies.contains m.id then m.renameUser n.id new else m
      if n.users.contains m.id then m.renameDependency n.id new else m) = renameEnds n new := by
    funext m
    have huser : (if n.dependencies.contains m.id then m.renameUser n.id new else m).id = m.id := by
      split <;> rfl
    simp only [huser]
    simp only [renameEnds, List.contains_iff_mem]
  rw [← hends, ← id_of_node? hn]
  rfl

/-- Every other node has its ends renamed. -/
theorem node?_renameEnds (i : String) :
    ((p.dropNode old).updateAll (renameEnds n new)).node? i
      = if i = old then none else (p.node? i).map (renameEnds n new) := by
  rw [node?_updateAll (fun m => id_renameEnds m), node?_dropNode]
  split <;> rfl

/-- The new id stays free until the node takes it. -/
theorem not_contains_renameEnds (hnew : ¬ p.contains new = true) :
    ¬ ((p.dropNode old).updateAll (renameEnds n new)).contains new = true := by
  rw [← node?_eq_none, node?_renameEnds, node?_eq_none.mpr hnew]
  split <;> rfl

/-- **What stands where after a rename.** -/
theorem node?_renamed (hn : p.node? old = some n) (hnew : ¬ p.contains new = true) (j : String) :
    (Edit.renamed p n new).node? j
      = if j = new then some (n.withId new) else if j = old then none
        else (p.node? j).map (renameEnds n new) := by
  have hfree : ¬ ((p.dropNode old).updateAll (renameEnds n new)).contains (n.withId new).id = true :=
    not_contains_renameEnds hnew
  rw [node?_congr (nodes_renamed hn), node?_insert hfree, node?_renameEnds]
  rfl

section Views

variable (h : p.Linked) (hn : p.node? old = some n) (hnew : ¬ p.contains new = true)
include hn hnew

/-- What a view shows after a rename. -/
theorem view_renamed {α : Type} (v : Option Node → α) (j : String) :
    v ((Edit.renamed p n new).node? j) = if j = new then v (some (n.withId new))
      else if j = old then v none else v ((p.node? j).map (renameEnds n new)) := by
  rw [node?_renamed hn hnew]
  split
  · rfl
  · split <;> rfl

/-- The new id is there, and the old one is not. -/
theorem contains_renamed (j : String) : (Edit.renamed p n new).contains j = true ↔
    j = new ∨ j ≠ old ∧ p.contains j = true := by
  have hview := view_renamed hn hnew Option.isSome j
  rw [contains, hview]
  split
  case isTrue hj => simp [hj]
  case isFalse hj =>
    split
    case isTrue hjo => simp [hjo, hjo ▸ hj]
    case isFalse hjo => simp [hj, hjo, contains]

theorem coreOf_renamed (j : String) : (Edit.renamed p n new).coreOf j
    = if j = new then (p.coreOf old).map (·.withId new) else if j = old then none
      else p.coreOf j := by
  refine (view_renamed hn hnew (Option.map Node.core) j).trans ?_
  have hmap : ((p.node? j).map (renameEnds n new)).map Node.core = p.coreOf j := by
    rw [Option.map_map, coreOf]
    exact congrArg (fun f => (p.node? j).map f) (funext fun m => core_renameEnds m)
  rw [hmap, coreOf_of_node? hn]
  rfl

theorem layoutOf_renamed (j : String) : (Edit.renamed p n new).layoutOf j
    = if j = new then p.layoutOf old else if j = old then none else p.layoutOf j := by
  refine (view_renamed hn hnew (fun o => o.bind Node.layout) j).trans ?_
  have hmap : ((p.node? j).map (renameEnds n new)).bind Node.layout = p.layoutOf j := by
    rw [Option.bind_map, layoutOf]
    exact congrArg (fun f => (p.node? j).bind f) (funext fun m => layout_renameEnds m)
  have hold : p.layoutOf old = n.layout := by
    rw [layoutOf, hn]
    rfl
  rw [hmap, hold]
  rfl

/-- Slots and dependencies of a node are renamed alike. -/
theorem args_eq_deps_renamed {j : String} (hj : j ≠ new) (halign : p.argsOf j = p.depsOf j) :
    (Edit.renamed p n new).argsOf (swap old new j)
      = (Edit.renamed p n new).depsOf (swap old new j) := by
  have hargs := view_renamed hn hnew Node.argsIn (swap old new j)
  have hdeps := view_renamed hn hnew Node.depsIn (swap old new j)
  rw [argsOf, depsOf, hargs, hdeps]
  by_cases hjo : j = old
  · rw [hjo, argsOf_of_node? hn, depsOf_of_node? hn] at halign
    rw [hjo, swap_self, if_pos rfl, if_pos rfl]
    exact halign
  · rw [swap_of_ne hjo, if_neg hj, if_neg hj, if_neg hjo, if_neg hjo]
    cases hm : p.node? j with
    | none => rfl
    | some m =>
      rw [argsOf_of_node? hm, depsOf_of_node? hm] at halign
      change (renameEnds n new m).operation.arguments = (renameEnds n new m).dependencies
      rw [arguments_renameEnds, dependencies_renameEnds, halign]

include h

theorem depsOf_renamed (j : String) : (Edit.renamed p n new).depsOf j
    = if j = new then p.depsOf old else if j = old then [] else (p.depsOf j).map (swap old new) := by
  refine (view_renamed hn hnew Node.depsIn j).trans ?_
  have hmap : Node.depsIn ((p.node? j).map (renameEnds n new))
      = (p.depsOf j).map (swap old new) := by
    rw [depsOf]
    cases hj : p.node? j with
    | none => rfl
    | some m =>
      change (renameEnds n new m).dependencies = m.dependencies.map (swap old new)
      rw [dependencies_renameEnds, id_of_node? hn, id_of_node? hj]
      split
      case isTrue => rfl
      case isFalse hu =>
        rw [← usersOf_of_node? hn, ← h.edges, depsOf_of_node? hj] at hu
        exact (map_swap_of_not_mem hu).symm
  rw [hmap, depsOf_of_node? hn]
  rfl

theorem usersOf_renamed (j : String) : (Edit.renamed p n new).usersOf j
    = if j = new then p.usersOf old else if j = old then []
      else (p.usersOf j).map (swap old new) := by
  refine (view_renamed hn hnew Node.usersIn j).trans ?_
  have hmap : Node.usersIn ((p.node? j).map (renameEnds n new))
      = (p.usersOf j).map (swap old new) := by
    rw [usersOf]
    cases hj : p.node? j with
    | none => rfl
    | some m =>
      change (renameEnds n new m).users = m.users.map (swap old new)
      rw [users_renameEnds, id_of_node? hn, id_of_node? hj]
      split
      case isTrue => rfl
      case isFalse hd =>
        rw [← depsOf_of_node? hn, h.edges, usersOf_of_node? hj] at hd
        exact (map_swap_of_not_mem hd).symm
  rw [hmap, usersOf_of_node? hn]
  rfl

end Views

/-! ## What renaming keeps -/

/-- The node keeps its place in the order. -/
theorem ids_order_renamed (hn : p.node? old = some n) :
    (Edit.renamed p n new).order.ids = p.order.ids.map (swap old new) := by
  change (p.order.rename n.id new).ids = _
  rw [id_of_node? hn, Order.rename]
  split
  · rfl
  case isFalse hc =>
    exact (map_swap_of_not_mem (by simpa [Order.contains] using hc)).symm

/-- The list of nodes stays sorted by id. -/
theorem ascending_renamed (h : p.Linked) (hn : p.node? old = some n)
    (hnew : ¬ p.contains new = true) : (Edit.renamed p n new).ids.Pairwise (· < ·) := by
  have hrest : ((p.dropNode old).updateAll (renameEnds n new)).ids.Pairwise (· < ·) := by
    rw [ids_updateAll fun m => id_renameEnds m]
    exact List.pairwise_map.mpr ((List.pairwise_map.mp h.ascending).filter _)
  rw [ids, nodes_renamed hn]
  refine List.pairwise_map.mpr (pairwise_insertById _ _ (fun m hm hid => ?_)
    (List.pairwise_map.mp hrest))
  exact not_contains_renameEnds hnew (contains_iff_mem_ids.mpr (List.mem_map.mpr ⟨m, hm, hid⟩))

section Kept

variable (h : p.Linked) (hn : p.node? old = some n) (hnew : ¬ p.contains new = true)
include h hn hnew

/-- Both ends of every edge are renamed. -/
theorem edges_renamed (d u : String) :
    d ∈ (Edit.renamed p n new).depsOf u ↔ u ∈ (Edit.renamed p n new).usersOf d := by
  have hfree : new ∉ p.depsOf u := fun hu => hnew (h.contains_dep hu)
  have hfree' : new ∉ p.usersOf d := fun hu => hnew (h.contains_user hu)
  have hself : old ∉ p.usersOf old := fun hu => h.irrefl old ((h.edges old old).mpr hu)
  have hself' : new ∉ p.usersOf old := fun hu => hnew (h.contains_user hu)
  have hself'' : new ∉ p.depsOf old := fun hu => hnew (h.contains_dep hu)
  have hirr := h.irrefl old
  have hne : old ≠ new := fun he => hnew (he ▸ contains_of_node? hn)
  rw [depsOf_renamed h hn hnew, usersOf_renamed h hn hnew]
  by_cases hu : u = new <;> by_cases hd : d = new
  · rw [if_pos hu, if_pos hd, hu, hd]
    exact ⟨fun hmem => absurd hmem hself'', fun hmem => absurd hmem hself'⟩
  · rw [if_pos hu, if_neg hd, hu]
    split
    case isTrue hdo => simp [hdo, hirr]
    case isFalse hdo =>
      rw [mem_map_swap, h.edges]
      tauto
  · rw [if_neg hu, if_pos hd, hd]
    split
    case isTrue huo => simp [huo, hself]
    case isFalse huo =>
      rw [mem_map_swap, h.edges]
      tauto
  · rw [if_neg hu, if_neg hd]
    by_cases huo : u = old <;> by_cases hdo : d = old
    · simp [huo, hdo]
    · simp [huo, hdo, mem_map_swap, hne]
    · simp [huo, hdo, mem_map_swap, hne]
    · have hedge := h.edges d u
      rw [if_neg huo, if_neg hdo, mem_map_swap, mem_map_swap]
      tauto

/-- The graph stays linked. -/
theorem linked_renamed : (Edit.renamed p n new).Linked := by
  have hold := contains_of_node? hn
  have hne : old ≠ new := fun he => hnew (he ▸ hold)
  have hfree : ∀ u, new ∉ p.depsOf u := fun u hu => hnew (h.contains_dep hu)
  have hfree' : ∀ u, new ∉ p.usersOf u := fun u hu => hnew (h.contains_user hu)
  have hdeps := depsOf_renamed h hn hnew
  have husers := usersOf_renamed h hn hnew
  have hcontains := contains_renamed hn hnew
  constructor
  · exact ascending_renamed h hn hnew
  · exact edges_renamed h hn hnew
  · intro d
    rw [husers]
    split
    · exact h.users_nodup old
    · split
      · exact List.nodup_nil
      · exact nodup_map_swap (h.users_nodup d) (hfree' d)
  · intro u
    rw [hdeps]
    split
    case isTrue hu => exact hu ▸ hfree old
    case isFalse hu =>
      split
      · exact List.not_mem_nil
      case isFalse huo =>
        rw [mem_map_swap]
        have := h.irrefl u
        tauto
  · change (p.inputs.map fun i => if i = n.id then new else i).Nodup
    rw [id_of_node? hn]
    exact nodup_map_swap h.inputs_nodup fun hi => hnew ((h.mem_inputs new).mp hi).1
  · intro i
    change i ∈ (p.inputs.map fun i => if i = n.id then new else i) ↔ _
    rw [id_of_node? hn]
    change i ∈ p.inputs.map (swap old new) ↔ _
    rw [mem_map_swap, hcontains, hdeps, h.mem_inputs, h.mem_inputs]
    by_cases hi : i = new
    · simp [hi, hold, hnew]
    · by_cases hio : i = old
      · simp [hio, hne]
      · simp [hi, hio]
  · rw [ids_order_renamed hn]
    exact nodup_map_swap h.order_nodup fun hi => hnew (h.order_contains new hi)
  · intro i hi
    rw [ids_order_renamed hn, mem_map_swap] at hi
    rw [hcontains]
    rcases hi with ⟨hi, -⟩ | ⟨hio, hi⟩
    · exact Or.inl hi
    · exact Or.inr ⟨hio, h.order_contains i hi⟩

/-- **Layouts survive a renaming.** -/
theorem freshWithin_renamed : ∀ (depth : Nat) (i : String) (l : Layout),
    p.freshWithin depth i = .ok l →
      (Edit.renamed p n new).freshWithin depth (swap old new i) = .ok l
  | 0, _, _, hl => nomatch hl
  | depth + 1, i, l, hl => by
      obtain ⟨m, inputs, hm, hdeps, hrule⟩ := freshWithin_succ_eq_ok_iff.mp hl
      have hne : i ≠ new := fun he => hnew (he ▸ contains_of_node? hm)
      have hinputs : List.Forall₂
          (fun d l => (Edit.renamed p n new).freshWithin depth d = .ok l)
          (m.dependencies.map (swap old new)) inputs := by
        rw [List.forall₂_map_left_iff]
        exact hdeps.imp fun d l hd => freshWithin_renamed depth d l hd
      have hnode := node?_renamed hn hnew (swap old new i)
      have hmap := depsOf_renamed h hn hnew (swap old new i)
      refine freshWithin_succ_eq_ok_iff.mpr ?_
      by_cases hi : i = old
      · rw [hi, hn] at hm
        cases hm
        rw [hi, swap_self, if_pos rfl] at hnode
        refine ⟨_, inputs, by rw [hi, swap_self, hnode], ?_, ?_⟩
        · change List.Forall₂ _ n.dependencies inputs
          rwa [map_swap_of_not_mem (depsOf_of_node? hn ▸ h.irrefl old)] at hinputs
        · exact n.rule_withId new inputs p.behaviours l hrule
      · rw [swap_of_ne hi] at hnode hmap ⊢
        rw [if_neg hne, if_neg hi, hm, Option.map_some] at hnode
        rw [if_neg hne, if_neg hi, depsOf_of_node? hm, depsOf_of_node? hnode] at hmap
        refine ⟨_, inputs, hnode, hmap ▸ hinputs, ?_⟩
        rw [← hrule]
        refine Node.rule_congr ?_ p.behaviours inputs
        rw [← Node.core_outline, core_renameEnds, Node.core_outline]

theorem kept_renamed : Kept p (Edit.renamed p n new) where
  linked := linked_renamed h hn hnew
  coherent hc := by
    intro i l hl
    rw [layoutOf_renamed hn hnew] at hl
    refine freshLayout_eq_ok_iff.mpr ?_
    split at hl
    case isTrue hi =>
      obtain ⟨depth, hd⟩ := freshLayout_eq_ok_iff.mp (hc old l hl)
      refine ⟨depth, ?_⟩
      have hfresh := freshWithin_renamed h hn hnew depth old l hd
      rw [swap_self] at hfresh
      rw [hi, hfresh]
    case isFalse hi =>
      split at hl
      · cases hl
      case isFalse hio =>
        obtain ⟨depth, hd⟩ := freshLayout_eq_ok_iff.mp (hc i l hl)
        refine ⟨depth, ?_⟩
        rw [show i = swap old new i from (swap_of_ne hio).symm]
        exact freshWithin_renamed h hn hnew depth i l hd
  wellFormed hw := by
    have hout : (Edit.renamed p n new).outputs = p.outputs.map (swap old new) := by
      change (p.outputs.map fun i => if i = n.id then new else i) = _
      rw [id_of_node? hn]
      rfl
    have hni : new ∉ p.outputs := fun hi => by
      have hm := (hw.mem_outputs new).mp hi
      rw [isMarked, node?_eq_none.mpr hnew] at hm
      cases hm
    refine ⟨linked_renamed h hn hnew, ?_, fun i => ?_⟩
    · rw [hout]
      exact nodup_map_swap hw.outputs_nodup hni
    · rw [hout, mem_map_swap, isMarked_eq_coreOf, coreOf_renamed hn hnew, hw.mem_outputs,
        hw.mem_outputs, isMarked_eq_coreOf, isMarked_eq_coreOf]
      by_cases hi : i = new
      · rw [if_pos hi, hi, coreOf_of_node? hn, coreOf, node?_eq_none.mpr hnew]
        simp
        rfl
      · by_cases hio : i = old
        · rw [hio] at hi ⊢
          simp [hi]
        · simp [hi, hio]
  behaviours := rfl

end Kept

end Program

namespace Edit

open Program

/-- `q` has the nodes of `p` under the ids that were swapped for theirs, linked or not. -/
structure Swapped (p q : Program) (old new : String) : Prop where
  contains : p.contains old = true
  free : ¬ p.contains new = true
  core : ∀ j, q.coreOf j = if j = new then (p.coreOf old).map (·.withId new)
    else if j = old then none else p.coreOf j
  args : ∀ j, j ≠ new → p.argsOf j = p.depsOf j →
    q.argsOf (swap old new j) = q.depsOf (swap old new j)

/-- What is left when a node gets another id. -/
structure Renamed (p q : Program) (old new : String) : Prop extends Swapped p q old new where
  kept : Kept p q
  deps : ∀ j, q.depsOf j
    = if j = new then p.depsOf old else if j = old then [] else (p.depsOf j).map (swap old new)
  users : ∀ j, q.usersOf j
    = if j = new then p.usersOf old else if j = old then [] else (p.usersOf j).map (swap old new)
  order : q.order.ids = p.order.ids.map (swap old new)

variable {p q : Program} {old new : String}

/-- A rename swaps one id for another. -/
theorem swapped_renamed {n : Node} (hn : p.node? old = some n) (hnew : ¬ p.contains new = true) :
    Swapped p (renamed p n new) old new where
  contains := contains_of_node? hn
  free := hnew
  core := coreOf_renamed hn hnew
  args _ hj halign := args_eq_deps_renamed hn hnew hj halign

/-- What a node does does not depend on its id. -/
theorem Swapped.tasks (h : Swapped p q old new) (j : String) : q.taskOf j
    = if j = new then p.taskOf old else if j = old then none else p.taskOf j := by
  rw [taskOf_eq_coreOf, h.core, taskOf_eq_coreOf, taskOf_eq_coreOf]
  split
  · rw [Option.map_map]
    rfl
  · split <;> rfl

/-- Slots that were aligned are aligned under the other id. -/
theorem Swapped.aligned (h : Swapped p q old new) (hp : ∀ j, p.argsOf j = p.depsOf j) (j : String) :
    q.argsOf j = q.depsOf j := by
  have hne : old ≠ new := fun he => h.free (he ▸ h.contains)
  by_cases hj : j = new
  · have hold := h.args old hne (hp old)
    rwa [swap_self, ← hj] at hold
  · by_cases hjo : j = old
    · have hgone : ¬ q.contains j = true := by
        rw [contains_eq_isSome_coreOf, h.core, if_neg hj, if_pos hjo]
        exact Bool.false_ne_true
      rw [argsOf_of_not_contains hgone, depsOf_of_not_contains hgone]
    · have hother := h.args j hj (hp j)
      rwa [swap_of_ne hjo] at hother

namespace Renamed

theorem flags (h : Renamed p q old new) (j : String) : q.flagsOf j
    = if j = new then p.flagsOf old else if j = old then none else p.flagsOf j := by
  rw [flagsOf_eq_coreOf, h.core, flagsOf_eq_coreOf, flagsOf_eq_coreOf]
  split
  · rw [Option.map_map]
    rfl
  · split <;> rfl

theorem shapes (h : Renamed p q old new) (j : String) : q.shapeOf j
    = if j = new then p.shapeOf old else if j = old then none else p.shapeOf j := by
  rw [shapeOf_eq_taskOf, h.tasks, shapeOf_eq_taskOf, shapeOf_eq_taskOf]
  split
  · rfl
  · split <;> rfl

theorem plans (h : Renamed p q old new) (j : String) : q.planOf j
    = if j = new then p.planOf old else if j = old then none else p.planOf j := by
  rw [planOf_eq_coreOf, h.core, planOf_eq_coreOf, planOf_eq_coreOf]
  split
  · rw [Option.bind_map]
    rfl
  · split <;> rfl

theorem marks (h : Renamed p q old new) (j : String) : q.isMarked j
    = if j = new then p.isMarked old else if j = old then false else p.isMarked j := by
  rw [isMarked_eq_coreOf, h.core, isMarked_eq_coreOf, isMarked_eq_coreOf]
  split
  · rw [Option.map_map]
    rfl
  · split <;> rfl

/-- **Every node was there before**, under the id that was swapped for its own. -/
theorem exists_node (h : Renamed p q old new) (hl : p.Linked) {u : String}
    (hu : q.contains u = true) : ∃ v, v ≠ new ∧ u = swap old new v ∧ p.contains v = true ∧
      q.depsOf u = (p.depsOf v).map (swap old new) ∧ q.shapeOf u = p.shapeOf v ∧
      q.planOf u = p.planOf v := by
  have hne : old ≠ new := fun he => h.free (he ▸ h.contains)
  by_cases hun : u = new
  · refine ⟨old, hne, by rw [swap_self, hun], h.contains, ?_, ?_, ?_⟩
    · rw [h.deps, if_pos hun, map_swap_of_not_mem (hl.irrefl old)]
    · rw [h.shapes, if_pos hun]
    · rw [h.plans, if_pos hun]
  · have huo : u ≠ old := fun he => by
      rw [contains_eq_isSome_shapeOf, h.shapes, if_neg hun, if_pos he] at hu
      cases hu
    refine ⟨u, hun, (swap_of_ne huo).symm, ?_, ?_, ?_, ?_⟩
    · rwa [contains_eq_isSome_shapeOf, h.shapes, if_neg hun, if_neg huo,
        ← contains_eq_isSome_shapeOf] at hu
    · rw [h.deps, if_neg hun, if_neg huo]
    · rw [h.shapes, if_neg hun, if_neg huo]
    · rw [h.plans, if_neg hun, if_neg huo]

end Renamed

/-- A rename leaves everything but ids as it was. -/
theorem renamed_renamed {n : Node} (h : p.Linked) (hn : p.node? old = some n)
    (hnew : ¬ p.contains new = true) : Renamed p (renamed p n new) old new where
  toSwapped := swapped_renamed hn hnew
  kept := kept_renamed h hn hnew
  deps := depsOf_renamed h hn hnew
  users := usersOf_renamed h hn hnew
  order := ids_order_renamed hn

theorem ends_rename {good : Unit → Program → Prop} {bad : CompileError → Program → Prop}
    (same : old = new → good () p)
    (taken : old ≠ new → p.contains new = true → bad (.invalidGraph (.taken old new)) p)
    (missing : old ≠ new → p.node? old = none → bad (.missingNode old) p)
    (ok : ∀ n, p.node? old = some n → ¬ p.contains new = true → good () (renamed p n new)) :
    Ends (rename old new) good bad p := by
  rw [rename]
  split
  case isTrue he => exact same he
  case isFalse hne =>
    rw [ends_bind, ends_get]
    split
    case isTrue hc => exact taken hne hc
    case isFalse hnew =>
      rw [ends_bind, ends_node]
      exact ⟨fun n hn => ok n hn hnew, missing hne⟩

/-- **Renaming** either leaves everything as it is or puts the new id in the place of the old. -/
theorem rename_effect (h : p.Linked) :
    Ends (rename old new)
      (fun _ q => (old = new ∧ q = p) ∨ Renamed p q old new)
      (fun e q => e.closes = false ∧ q = p ∧ (p.contains new = true ∨ ¬ p.contains old = true))
      p :=
  ends_rename (fun he => Or.inl ⟨he, rfl⟩) (fun _ hc => ⟨rfl, rfl, Or.inl hc⟩)
    (fun _ hnone => ⟨rfl, rfl, Or.inr (node?_eq_none.mp hnone)⟩)
    fun _ hn hnew => Or.inr (renamed_renamed h hn hnew)

end Edit

end NetPlan
