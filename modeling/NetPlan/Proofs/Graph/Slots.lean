import NetPlan.Graph.Behaviour

/-!
# Proofs/Graph/Slots — what an operation is apart from its arguments

`Operation.mapSlots` changes the ids in the argument slots and nothing else.  The **shape** of an
operation is the operation with every slot blank: kind, weights slots and layout rule are read off
the shape, so no edit that only moves arguments can change them.
-/

namespace NetPlan

theorem mapIdx_eq_self {f : Nat → String → String} {l : List String}
    (h : ∀ i a, l[i]? = some a → f i a = a) : l.mapIdx f = l := by
  refine List.ext_getElem? fun i => ?_
  rw [List.getElem?_mapIdx]
  cases hi : l[i]? with
  | none => rfl
  | some a => exact congrArg some (h i a hi)

namespace Convolution

theorem arguments_mapSlots (f : Nat → String → String) (c : Convolution) :
    (c.mapSlots f).arguments = c.arguments.mapIdx f := by
  have hw : (fun i a => f (i + 1) a) = fun i a => f (1 + i) a := by
    funext i a
    rw [Nat.add_comm]
  simp only [mapSlots, arguments, List.cons_append, List.mapIdx_cons, List.mapIdx_append, hw]
  congr 2
  refine congrArg (fun g => List.mapIdx g c.bias) (funext fun i => funext fun a => ?_)
  exact congrArg (fun k => f k a) (by omega)

theorem mapSlots_eq_self {f : Nat → String → String} {c : Convolution}
    (h : ∀ i a, c.arguments[i]? = some a → f i a = a) : c.mapSlots f = c := by
  have hweights : c.weights.mapIdx (fun i a => f (1 + i) a) = c.weights := by
    refine mapIdx_eq_self fun i a hi => h (1 + i) a ?_
    rw [arguments, List.cons_append, Nat.add_comm, List.getElem?_cons_succ,
      List.getElem?_append_left (List.getElem?_eq_some_iff.mp hi).1, hi]
  have hbias : c.bias.mapIdx (fun i a => f (1 + c.weights.length + i) a) = c.bias := by
    refine mapIdx_eq_self fun i a hi => h (1 + c.weights.length + i) a ?_
    rw [arguments, List.cons_append, Nat.add_assoc, Nat.add_comm, List.getElem?_cons_succ,
      List.getElem?_append_right (Nat.le_add_right _ _), Nat.add_sub_cancel_left, hi]
  rw [mapSlots, hweights, hbias, h 0 c.input rfl]

@[simp] theorem split_mapSlots (f : Nat → String → String) (c : Convolution) :
    (c.mapSlots f).split = c.split := List.length_mapIdx

@[simp] theorem length_bias_mapSlots (f : Nat → String → String) (c : Convolution) :
    (c.mapSlots f).bias.length = c.bias.length := List.length_mapIdx

@[simp] theorem length_arguments_mapSlots (f : Nat → String → String) (c : Convolution) :
    (c.mapSlots f).arguments.length = c.arguments.length := by
  rw [arguments_mapSlots, List.length_mapIdx]

end Convolution

namespace Operation

@[simp] theorem kind_mapSlots (f : Nat → String → String) (op : Operation) :
    (op.mapSlots f).kind = op.kind := by cases op <;> rfl

/-- **The slots of a changed operation are the changed slots.** -/
theorem arguments_mapSlots (f : Nat → String → String) (op : Operation) :
    (op.mapSlots f).arguments = op.arguments.mapIdx f := by
  cases op with
  | convolution c => exact c.arguments_mapSlots f
  | fullyConnected c => rcases c with ⟨i, w, _ | b, a⟩ <;> rfl
  | activation a => rcases a with ⟨i, a, _ | s⟩ <;> rfl
  | scale s => rcases s with ⟨i, s, _ | b⟩ <;> rfl
  | fusedConvBnScale p =>
    rcases p with ⟨c, m, v, e, s, _ | b⟩ <;>
    simp [mapSlots, arguments, c.arguments_mapSlots, List.mapIdx_append, Nat.add_comm]
  | _ => rfl

theorem arguments_setSlot (op : Operation) (slot : Nat) (id : String) :
    (op.setSlot slot id).arguments = op.arguments.set slot id := by
  rw [setSlot, arguments_mapSlots]
  refine List.ext_getElem? fun i => ?_
  rw [List.getElem?_mapIdx, List.getElem?_set]
  by_cases h : slot = i
  · subst h
    by_cases hlt : slot < op.arguments.length
    · simp [hlt]
    · simp [hlt]
  · rw [if_neg h]
    cases op.arguments[i]? with
    | none => rfl
    | some a => simp [Ne.symm h]

theorem arguments_renameSlots (op : Operation) (old new : String) :
    (op.renameSlots old new).arguments = op.arguments.map fun a => if a = old then new else a := by
  rw [renameSlots, arguments_mapSlots]
  refine List.ext_getElem? fun i => ?_
  rw [List.getElem?_mapIdx, List.getElem?_map]

/-- Slots that stay as they are leave the operation as it is. -/
theorem mapSlots_eq_self {f : Nat → String → String} {op : Operation}
    (h : ∀ i a, op.arguments[i]? = some a → f i a = a) : op.mapSlots f = op := by
  cases op with
  | inputLayout l => rfl
  | data l v => rfl
  | convolution c => exact congrArg convolution (c.mapSlots_eq_self h)
  | fullyConnected c =>
    rcases c with ⟨i, w, _ | b, a⟩
    · simp [mapSlots, h 0 i rfl, h 1 w rfl]
    · simp [mapSlots, h 0 i rfl, h 1 w rfl, h 2 b rfl]
  | pooling p => simp [mapSlots, h 0 p.input rfl]
  | activation a =>
    rcases a with ⟨i, a, _ | s⟩
    · simp [mapSlots, h 0 i rfl]
    · simp [mapSlots, h 0 i rfl, h 1 s rfl]
  | eltwise e => simp [mapSlots, mapIdx_eq_self (l := e.inputs) h]
  | reorder r => simp [mapSlots, h 0 r.input rfl]
  | softmax s => simp [mapSlots, h 0 s.input rfl]
  | concatenation c => simp [mapSlots, mapIdx_eq_self (l := c.inputs) h]
  | batchNorm b => simp [mapSlots, h 0 b.input rfl, h 1 b.mean rfl, h 2 b.variance rfl]
  | scale s =>
    rcases s with ⟨i, s, _ | b⟩
    · simp [mapSlots, h 0 i rfl, h 1 s rfl]
    · simp [mapSlots, h 0 i rfl, h 1 s rfl, h 2 b rfl]
  | fusedConvBnScale p =>
    have hconv : p.conv.mapSlots f = p.conv := p.conv.mapSlots_eq_self fun i a hi => h i a (by
      rw [arguments, List.append_assoc,
        List.getElem?_append_left (List.getElem?_eq_some_iff.mp hi).1, hi])
    have hrest : ∀ i a, ([p.mean, p.variance, p.scale] ++ p.scaleBias.toList)[i]? = some a →
        f (p.conv.arguments.length + i) a = a := fun i a hi => h _ a (by
      rw [arguments, List.append_assoc, List.getElem?_append_right (Nat.le_add_right _ _),
        Nat.add_sub_cancel_left, hi])
    rcases p with ⟨c, m, v, e, s, _ | b⟩
    · simp [mapSlots, hconv, show f c.arguments.length m = m from hrest 0 m rfl, hrest 1 v rfl,
        hrest 2 s rfl]
    · simp [mapSlots, hconv, show f c.arguments.length m = m from hrest 0 m rfl, hrest 1 v rfl,
        hrest 2 s rfl, hrest 3 b rfl]

theorem mapSlots_mapSlots (f g : Nat → String → String) (op : Operation) :
    (op.mapSlots g).mapSlots f = op.mapSlots fun i a => f i (g i a) := by
  cases op with
  | convolution c => simp [mapSlots, Convolution.mapSlots, Function.comp_def]
  | fusedConvBnScale p =>
    simp [mapSlots, Convolution.mapSlots, Convolution.arguments, Function.comp_def]
  | _ => simp [mapSlots, Function.comp_def]

/-- The operation with blank slots. -/
def shape (op : Operation) : Operation := op.mapSlots fun _ _ => ""

/-- **Changing slots keeps the shape.** -/
@[simp] theorem shape_mapSlots (f : Nat → String → String) (op : Operation) :
    (op.mapSlots f).shape = op.shape := mapSlots_mapSlots _ f op

@[simp] theorem shape_shape (op : Operation) : op.shape.shape = op.shape := shape_mapSlots _ op

@[simp] theorem shape_setSlot (op : Operation) (slot : Nat) (id : String) :
    (op.setSlot slot id).shape = op.shape := shape_mapSlots _ op

@[simp] theorem shape_renameSlots (op : Operation) (old new : String) :
    (op.renameSlots old new).shape = op.shape := shape_mapSlots _ op

@[simp] theorem kind_shape (op : Operation) : op.shape.kind = op.kind := kind_mapSlots _ op

@[simp] theorem weightSlots_shape (op : Operation) : op.shape.weightSlots = op.weightSlots := by
  cases op <;> simp [shape, mapSlots, weightSlots, Convolution.mapSlots, Convolution.split]

@[simp] theorem biasSlots_shape (op : Operation) : op.shape.biasSlots = op.biasSlots := by
  cases op <;> simp [shape, mapSlots, biasSlots, Convolution.mapSlots, Convolution.split]

/-- **An operation is its shape and its arguments.** -/
theorem eq_of_shape {op op' : Operation} (hshape : op.shape = op'.shape)
    (hargs : op.arguments = op'.arguments) : op = op' := by
  have hfill : ∀ o : Operation, o.arguments = op.arguments →
      o.shape.mapSlots (fun i _ => op.arguments[i]?.getD "") = o := fun o ho => by
    rw [shape, mapSlots_mapSlots]
    refine mapSlots_eq_self fun i a hi => ?_
    rw [← ho, hi, Option.getD_some]
  rw [← hfill op rfl, ← hfill op' hargs.symm, hshape]

theorem shape_of_kind_reorder {op : Operation} (h : op.kind = .reorder) :
    ∃ r, op.shape = .reorder r := by
  cases op with
  | reorder r => exact ⟨_, rfl⟩
  | _ => cases h

end Operation

/-! ## The layout rule of a shape -/

namespace Node

/-- The node without edges, argument ids and cache: what is left when only edges are looked away
from. -/
def core (n : Node) : Node :=
  { n.withOperation n.operation.shape with dependencies := [], users := [], layout := none }

@[simp] theorem core_id (n : Node) : n.core.id = n.id := rfl

@[simp] theorem core_kind (n : Node) : n.core.kind = n.kind := n.operation.kind_shape

@[simp] theorem core_padding (n : Node) : n.core.padding = n.padding := rfl

/-- Nodes that agree on all but slots, in edges and cache too. -/
theorem shaped_eq {m n : Node} (core : m.core = n.core)
    (deps : m.dependencies = n.dependencies) (users : m.users = n.users)
    (layout : m.layout = n.layout) :
    m.withOperation m.operation.shape = n.withOperation n.operation.shape := by
  have hfill : ∀ k : Node, k.withOperation k.operation.shape
      = { k.core with dependencies := k.dependencies, users := k.users, layout := k.layout } :=
    fun _ => rfl
  rw [hfill m, hfill n, core, deps, users, layout]

/-- **A node is its core, its edges, its slots and its cache.** -/
theorem eq_of_core {m n : Node} (core : m.core = n.core)
    (deps : m.dependencies = n.dependencies) (users : m.users = n.users)
    (layout : m.layout = n.layout) (args : m.operation.arguments = n.operation.arguments) :
    m = n := by
  have hop : m.operation = n.operation :=
    Operation.eq_of_shape (congrArg Node.operation core) args
  have hfill : ∀ k : Node, k = (k.withOperation k.operation.shape).withOperation k.operation :=
    fun _ => rfl
  rw [hfill m, hfill n, shaped_eq core deps users layout, hop]

/-- The size of a convolution's output depends on its slots only through their number. -/
theorem convolutionLayout_mapSlots (n : Node) (f : Nat → String → String) (c : Convolution)
    (inputs : List Layout) :
    n.core.convolutionLayout (c.mapSlots f) inputs = n.convolutionLayout c inputs := by
  unfold convolutionLayout
  rw [Convolution.split_mapSlots, Convolution.length_bias_mapSlots]
  rfl

/-- **The layout rule of a node is that of its core** — it reads no argument id. -/
theorem outputLayout_core (n : Node) (inputs : List Layout) :
    n.core.outputLayout inputs = n.outputLayout inputs := by
  have hconv := fun c => n.convolutionLayout_mapSlots (fun _ _ => "") c inputs
  rcases n with ⟨⟨id, pad, op⟩, deps, users, layout, o, c, f, d, a, plan⟩
  cases op with
  | convolution c => exact hconv c
  | fusedConvBnScale p => exact hconv p.conv
  | _ => rfl

end Node

end NetPlan
