import NetPlan.Proofs.Graph.Ordered
import NetPlan.Proofs.Host.Reference

/-!
# Proofs/Pass/Meaning — what a graph computes

The layout of a node, and its value by the reference evaluator, follow from tasks and edges alone
(`freshLayout_iff`, `hasValue_reference_iff`).  A rewrite may put another node in the place of one, as long as
it has the same layout and the same logical values; it then **renders** the node (`Renders`).

* `renders_of_same` — a node with the same task renders another if its dependencies render those of
  the other, and has then even the same buffer;
* `SameGraph.renders` — so marks, caches, plans and the order have no meaning.
-/

namespace NetPlan

/-! ## Layouts -/

/-- The layout a task gives to its result. -/
def Task.Lays (t : Task) (b : Behaviours) (inputs : List Layout) (l : Layout) : Prop :=
  t.node.rule b inputs = .ok l

theorem Node.rule_eq_ok_iff {n : Node} {b : Behaviours} {inputs : List Layout} {l : Layout} :
    n.rule b inputs = .ok l ↔ n.task.Lays b inputs l := by
  have houtline : ∀ id, (n.task.node.withId id).outline = (n.withId id).outline := fun id =>
    congrArg (Primitive.mk id n.padding) (Operation.shape_shape n.operation)
  constructor
  · intro h
    rw [Task.Lays]
    exact (Node.rule_congr (houtline "") b inputs).trans (n.rule_withId "" inputs b l h)
  · intro h
    exact (Node.rule_congr (houtline n.id) b inputs).symm.trans
      (n.task.node.rule_withId n.id inputs b l h)

/-- The same layout and the same logical values; what lies between them may differ. -/
def ConstantValue.Alike (v v' : ConstantValue) : Prop :=
  v'.layout = v.layout ∧ unpack v'.layout v'.values = unpack v.layout v.values

theorem ConstantValue.Alike.refl (v : ConstantValue) : v.Alike v := ⟨rfl, rfl⟩

namespace Program

variable {p q r : Program} {id i j k : String} {l : Layout} {v v' : ConstantValue} {t : HostTensor}

/-- **The layout of a node** follows from its task and the layouts of its dependencies. -/
theorem freshLayout_iff : p.freshLayout id = .ok l ↔ ∃ task inputs, p.taskOf id = some task ∧
    List.Forall₂ (fun d i => p.freshLayout d = .ok i) (p.depsOf id) inputs ∧
    task.Lays p.behaviours inputs l := by
  cases hn : p.node? id with
  | none =>
    rw [freshLayout_none hn, taskOf_of_not_contains (node?_eq_none.mp hn)]
    exact ⟨fun h => (nomatch h), fun ⟨_, _, h, _⟩ => nomatch h⟩
  | some n =>
    rw [freshLayout_eq hn, bind_eq_ok_iff, taskOf_of_node? hn, depsOf_of_node? hn]
    simp only [mapM_eq_ok_iff, Node.rule_eq_ok_iff]
    constructor
    · rintro ⟨inputs, hdeps, hrule⟩
      exact ⟨n.task, inputs, rfl, hdeps, hrule⟩
    · rintro ⟨_, inputs, ⟨rfl⟩, hdeps, hrule⟩
      exact ⟨inputs, hdeps, hrule⟩

/-! ## Values -/

/-- The tensor in the buffer of a node whose elements have known places. -/
def Shows (p : Program) (id : String) (t : HostTensor) : Prop :=
  ∃ v, p.HasValue .reference id v ∧ v.layout.isAddressable = true ∧
    unpack v.layout v.values = .ok t

theorem Shows.full (h : p.Shows id t) : t.Full := by
  obtain ⟨v, -, -, hv⟩ := h
  exact (unpack_spec hv).1

/-- The tensor that a node computes, before it is packed into its layout. -/
def Produces (p : Program) (id : String) (l : Layout) (t : HostTensor) : Prop :=
  ∃ task tensors, p.taskOf id = some task ∧ Host.isEvaluated task.operation.kind = true ∧
    p.depsOf id ≠ [] ∧ List.Forall₂ p.Shows (p.depsOf id) tensors ∧ p.freshLayout id = .ok l ∧
    l.isAddressable = true ∧ task.Yields tensors l.size t

/-- **The value of a node** is that of a literal, or follows from its task and the tensors of its
dependencies. -/
theorem hasValue_reference_iff : p.HasValue .reference id v ↔
    p.shapeOf id = some (.data v.layout v.values) ∨
      ∃ t, p.Produces id v.layout t ∧ pack t v.layout = .ok v.values := by
  constructor
  · intro h
    cases h with
    | literal there operation =>
      exact Or.inl (by rw [shapeOf, there, Option.map_some, operation]; rfl)
    | @computed _ n inputs output values frontier there constant kind length read laid marked
        accepted evaluated =>
      right
      obtain ⟨hk, hout, hin⟩ := Evaluator.canEvaluate_reference.mp accepted
      obtain ⟨tensors, result, hunpack, hyields, hpack⟩ :=
        Evaluator.reference_eq_ok_iff.mp evaluated
      have hdeps := ((constant_iff there).mp constant).resolve_left kind
      refine ⟨result, ⟨n.task, tensors, taskOf_of_node? there, ?_, ?_, ?_, laid, hout, hyields⟩,
        hpack⟩
      · rw [Node.task, Operation.kind_shape]
        exact hk
      · rw [depsOf_of_node? there]
        exact hdeps.2.1
      · rw [depsOf_of_node? there]
        refine forall₂_comp (R := fun d v => p.HasValue .reference d v ∧ v.layout.isAddressable)
          (S := fun (v : ConstantValue) t => unpack v.layout v.values = .ok t)
          (fun d v t hv ht => ⟨v, hv.1, hv.2, ht⟩)
          (List.forall₂_iff_zip.mpr ⟨length, fun {d w} hdw => ⟨read d w hdw, ?_⟩⟩) hunpack
        exact hin _ (List.mem_map_of_mem (List.of_mem_zip hdw).2)
  · rintro (hdata | ⟨result, ⟨task, tensors, htask, hk, hdeps, hshows, hlaid, haddr, hyields⟩,
      hpack⟩)
    · rw [shapeOf, Option.map_eq_some_iff] at hdata
      obtain ⟨n, hn, hop⟩ := hdata
      exact .literal hn (operation_of_shape hop)
    · rw [taskOf, Option.map_eq_some_iff] at htask
      obtain ⟨n, hn, rfl⟩ := htask
      rw [depsOf_of_node? hn] at hdeps hshows
      rw [Node.task, Operation.kind_shape] at hk
      have hkind : n.kind ≠ .data ∧ n.kind ≠ .inputLayout := by
        constructor
        · exact fun he => by simp [show n.operation.kind = .data from he, Host.isEvaluated] at hk
        · exact fun he => by
            simp [show n.operation.kind = .inputLayout from he, Host.isEvaluated] at hk
      obtain ⟨inputs, hread, hunpack⟩ := exists_forall₂
        (R := p.HasValue .reference) (S := fun (v : ConstantValue) t =>
          v.layout.isAddressable = true ∧ unpack v.layout v.values = .ok t) hshows
      have hconst : p.Constant id := .computed hn hkind.2 hdeps fun d hd => by
        obtain ⟨v, -, hv⟩ := exists_mem_of_forall₂ hread d hd
        exact hv.constant
      obtain ⟨hsize, helement, -⟩ := pack_size hpack
      classical
      refine @HasValue.computed _ _ _ _ _ _ _ (decide (p.Frontier id)) hn hconst hkind.1 hread.length_eq
        (fun d v hdv => (List.forall₂_iff_zip.mp hread).2 hdv) hlaid (by simp)
        (Evaluator.canEvaluate_reference.mpr ⟨hk, haddr, fun l hl => ?_⟩)
        (Evaluator.reference_eq_ok_iff.mpr ⟨tensors, result, hunpack.imp fun _ _ h => h.2,
          hyields, hpack⟩) hsize helement
      obtain ⟨w, hw, rfl⟩ := List.mem_map.mp hl
      obtain ⟨_, -, haddressable, -⟩ := exists_mem_of_forall₂ hunpack w hw
      exact haddressable

theorem Produces.full (h : p.Produces id l t) : t.Full ∧ t.size = l.size := by
  obtain ⟨task, tensors, -, -, -, hshows, -, -, hyields⟩ := h
  have hfull : t.Full := hyields.full fun u hu => by
    obtain ⟨k, hk, rfl⟩ := List.getElem_of_mem hu
    exact ((List.forall₂_iff_get.mp hshows).2 k (hshows.length_eq ▸ hk) hk).full
  obtain ⟨raw, -, hsize, hmap⟩ := hyields
  exact ⟨hfull, (HostTensor.mapM_eq_ok_iff.mp hmap).1.trans hsize⟩

/-- What the buffer of a node holds that is no literal: its result, rounded. -/
theorem Shows.exists_produces (h : p.Shows id t)
    (hk : ∀ l b, p.shapeOf id ≠ some (.data l b)) :
    ∃ l s, p.Produces id l s ∧ t = s.cast l.element := by
  obtain ⟨v, hv, haddr, hunpack⟩ := h
  obtain ⟨s, hs, hpack⟩ := (hasValue_reference_iff.mp hv).resolve_left (hk _ _)
  rw [unpack_pack hpack hs.full.1] at hunpack
  cases hunpack
  exact ⟨v.layout, s, hs, rfl⟩

/-- The value of a node is in its layout. -/
theorem HasValue.layout_eq (h : p.HasValue .reference id v) (hl : p.freshLayout id = .ok l) :
    v.layout = l := by
  rcases hasValue_reference_iff.mp h with hdata | ⟨t, ⟨_, _, _, _, _, _, hlaid, _⟩, -⟩
  · obtain ⟨task, inputs, htask, -, hlays⟩ := freshLayout_iff.mp hl
    rw [shapeOf_eq_taskOf, htask, Option.map_some, Option.some.injEq] at hdata
    obtain ⟨padding, op, absorbed⟩ := task
    cases hdata
    rw [Task.Lays, Node.rule_eq] at hlays
    obtain ⟨_, -, hdata⟩ := bind_eq_ok_iff.mp hlays
    change (if _ then _ else Except.ok v.layout) = _ at hdata
    split at hdata
    · cases hdata
    · exact Except.ok.inj hdata
  · exact Except.ok.inj (hlaid.symm.trans hl)

/-! ## Renderings -/

/-- Node `j` of `q` stands for node `i` of `p`: with the same layout, and with a value that is
related to its. -/
structure Renders (R : ConstantValue → ConstantValue → Prop) (p q : Program) (i j : String) :
    Prop where
  layout : ∀ l, p.freshLayout i = .ok l → q.freshLayout j = .ok l
  value : ∀ v, p.HasValue .reference i v → ∃ v', q.HasValue .reference j v' ∧ R v v'

namespace Renders

theorem alike (h : Renders Eq p q i j) : Renders ConstantValue.Alike p q i j where
  layout := h.layout
  value v hv := by
    obtain ⟨_, hv', rfl⟩ := h.value v hv
    exact ⟨v, hv', .refl v⟩

theorem hasValue (h : Renders Eq p q i j) (hv : p.HasValue .reference i v) :
    q.HasValue .reference j v := by
  obtain ⟨_, hv', rfl⟩ := h.value v hv
  exact hv'

theorem shows (h : Renders ConstantValue.Alike p q i j) (ht : p.Shows i t) : q.Shows j t := by
  obtain ⟨v, hv, haddr, hunpack⟩ := ht
  obtain ⟨v', hv', hlayout, hsame⟩ := h.value v hv
  exact ⟨v', hv', hlayout ▸ haddr, hsame.trans hunpack⟩

end Renders

/-- **A node with the same task renders another** if its dependencies render the other's. -/
theorem renders_of_same {f : String → String} (hb : q.behaviours = p.behaviours)
    (htask : q.taskOf j = p.taskOf i) (hdeps : q.depsOf j = (p.depsOf i).map f)
    (h : ∀ d ∈ p.depsOf i, Renders ConstantValue.Alike p q d (f d)) : Renders Eq p q i j := by
  have hlayout : ∀ l, p.freshLayout i = .ok l → q.freshLayout j = .ok l := fun l hl => by
    obtain ⟨task, inputs, ht, hin, hlays⟩ := freshLayout_iff.mp hl
    refine freshLayout_iff.mpr ⟨task, inputs, htask.trans ht, ?_, hb ▸ hlays⟩
    rw [hdeps]
    exact forall₂_map_of_mem (fun d hd l => (h d hd).layout l) hin
  refine ⟨hlayout, fun v hv => ⟨v, hasValue_reference_iff.mpr ?_, rfl⟩⟩
  rcases hasValue_reference_iff.mp hv with hdata |
    ⟨result, ⟨task, tensors, ht, hk, hne, hshows, hlaid, haddr, hyields⟩, hpack⟩
  · rw [shapeOf_eq_taskOf] at hdata
    exact Or.inl (by rw [shapeOf_eq_taskOf, htask, hdata])
  · refine Or.inr ⟨result, ⟨task, tensors, htask.trans ht, hk, ?_, ?_, hlayout _ hlaid, haddr,
      hyields⟩, hpack⟩
    · rw [hdeps]
      exact fun he => hne (List.map_eq_nil_iff.mp he)
    · rw [hdeps]
      exact forall₂_map_of_mem (fun d hd t => (h d hd).shows) hshows

/-- **Marks, caches, plans and the order have no meaning.** -/
theorem SameGraph.renders (h : SameGraph p q) (ho : p.Ordered) (j : String) :
    Renders Eq p q j j := by
  induction j using ho.induction with
  | step j ih =>
    refine renders_of_same (f := fun d => d) h.kept.behaviours (by rw [h.tasks]) ?_
      fun d hd => (ih d hd).alike
    rw [h.deps, List.map_id']

end Program

end NetPlan
