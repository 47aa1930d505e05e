import NetPlan.Proofs.Graph.Nodes
import NetPlan.Proofs.Host.Addressing
import NetPlan.Proofs.Host.Placement
import NetPlan.Proofs.Pass.Constants

/-!
# Proofs/Host/Reference — the reference evaluator

The reference evaluator unpacks its inputs, does what the task of a node says (`Task.Yields`), and
packs the result.  It looks at nothing else of the node: not at its id nor at its slots
(`slotFree_reference`), and at buffers only through the tensors that are in them
(`reference_eq_ok_iff`).

A tensor lists its values, and what is proved of the list has to be said of positions.  No two
positions share an index (`HostTensor.index_inj`), so:

* `HostTensor.tabulate_eq_ok_iff_get` — a table has at each position what its function gives there;
* `HostTensor.Full.get_mapM` — a function applied to every value is applied at each position;
* `HostTensor.get_set` — a value that is set is at its position, and all others are as they were.
-/

namespace NetPlan

namespace HostTensor

variable {t t' : HostTensor} {f : Single → Except EvalError Single}

theorem mapM_eq_ok_iff : t.mapM f = .ok t' ↔ t'.size = t.size ∧
    List.Forall₂ (fun a b => f a = .ok b) t.values.toList t'.values.toList := by
  rw [mapM, bind_eq_ok_iff]
  simp only [NetPlan.mapM_eq_ok_iff]
  constructor
  · rintro ⟨values, hv, heq⟩
    cases heq
    exact ⟨rfl, hv⟩
  · rintro ⟨hsize, hv⟩
    exact ⟨_, hv, congrArg Except.ok (by rw [← hsize])⟩

theorem Full.mapM (h : t.Full) (hm : t.mapM f = .ok t') : t'.size = t.size ∧ t'.Full := by
  obtain ⟨hsize, hv⟩ := mapM_eq_ok_iff.mp hm
  refine ⟨hsize, ?_⟩
  rw [Full, ← Array.length_toList, ← hv.length_eq, Array.length_toList, h, hsize]

theorem mapM_ok (t : HostTensor) : t.mapM Except.ok = .ok t :=
  mapM_eq_ok_iff.mpr ⟨rfl, List.forall₂_same.mpr fun _ _ => rfl⟩

end HostTensor

theorem Activation.apply_of_isNone {a : Activation} (h : a.isNone = true) :
    a.apply = Except.ok := by
  have hnone : a.function = .none := by simpa [isNone] using h
  funext x
  rw [apply, hnone]

namespace Host

variable {n m : Node} {inputs : List HostTensor} {output : Shape} {t : HostTensor}

/-! ## Full tensors -/

theorem set_spec {t t' : HostTensor} {c : Coord} {v : Single} (h : t.set c v = .ok t') :
    t'.size = t.size ∧ t'.values.size = t.values.size := by
  rw [HostTensor.set] at h
  split at h
  · cases h
    exact ⟨rfl, by simp only [Array.size_set]⟩
  · cases h

/-- What every step of a fold keeps, the fold keeps. -/
theorem foldlM_keeps {α β ε : Type} {f : β → α → Except ε β} (P : β → Prop)
    (step : ∀ b a b', P b → f b a = .ok b' → P b') : ∀ {xs : List α} {b b' : β}, P b →
    xs.foldlM f b = .ok b' → P b'
  | [], _, _, hb, h => by
      cases h
      exact hb
  | a :: xs, b, b', hb, h => by
      rw [List.foldlM_cons] at h
      obtain ⟨b₁, h₁, h₂⟩ := bind_eq_ok_iff.mp h
      exact foldlM_keeps P step (step b a b₁ hb h₁) h₂

theorem place_spec {axis : Axis} {offset : Nat} {input out out' : HostTensor}
    (h : place axis offset input out = .ok out') :
    out'.size = out.size ∧ out'.values.size = out.values.size := by
  refine foldlM_keeps (fun t => t.size = out.size ∧ t.values.size = out.values.size)
    (fun b c b' hb hstep => ?_) ⟨rfl, rfl⟩ h
  obtain ⟨v, -, hset⟩ := bind_eq_ok_iff.mp hstep
  obtain ⟨hs, hv⟩ := set_spec hset
  exact ⟨hs.trans hb.1, hv.trans hb.2⟩

theorem full_concatenation {axis : Axis} (h : concatenationValues axis inputs output = .ok t) :
    t.Full := by
  rw [concatenationValues] at h
  obtain ⟨⟨out, covered⟩, hfold, h⟩ := bind_eq_ok_iff.mp h
  have hkeep : out.size = output ∧ out.values.size = output.count := by
    refine foldlM_keeps (fun b : HostTensor × Nat =>
      b.1.size = output ∧ b.1.values.size = output.count) (fun b input b' hb hstep => ?_)
      ⟨rfl, Array.size_replicate⟩ hfold
    obtain ⟨out, hplace, heq⟩ := bind_eq_ok_iff.mp hstep
    cases heq
    obtain ⟨hs, hv⟩ := place_spec hplace
    exact ⟨hs.trans hb.1, hv.trans hb.2⟩
  dsimp only at h
  split at h
  · cases h
  · cases h
    rw [HostTensor.Full, hkeep.2, hkeep.1]

/-- **Every operation gives a full tensor**, if it was given such. -/
theorem full_operation (hin : ∀ u ∈ inputs, u.Full)
    (h : operationValues n inputs output = .ok t) : t.Full := by
  unfold operationValues at h
  split at h
  case h_1 r _ =>
    unfold reorderValues at h
    split at h
    · split at h
      · cases h
        exact hin _ (List.mem_singleton_self _)
      split at h
      · cases h
      · exact (HostTensor.full_of_tabulate h).2
    · cases h
  case h_2 e _ =>
    unfold eltwiseValues at h
    split at h
    · cases h
    · exact (HostTensor.full_of_tabulate h).2
  case h_3 a _ =>
    unfold activationValues at h
    split at h
    · exact ((hin _ (List.mem_singleton_self _)).mapM h).2
    · split at h
      · cases h
      · exact (HostTensor.full_of_tabulate h).2
    · cases h
  case h_4 =>
    unfold scaleValues at h
    split at h
    · exact (HostTensor.full_of_tabulate h).2
    · cases h
  case h_5 =>
    unfold batchNormValues at h
    split at h
    · exact (HostTensor.full_of_tabulate h).2
    · cases h
  case h_6 => exact full_concatenation h
  case h_7 =>
    unfold softmaxValues at h
    split at h
    · exact (HostTensor.full_of_tabulate h).2
    · cases h
  case h_8 =>
    unfold poolingValues at h
    split at h
    · exact (HostTensor.full_of_tabulate h).2
    · cases h
  case h_9 => cases h

/-! ## Tasks -/

/-- An operation does not look at its slots. -/
theorem operationValues_congr (h : m.operation.shape = n.operation.shape) :
    operationValues m = operationValues n := by
  have hshape : ∀ k : Node,
      operationValues k = operationValues (k.withOperation k.operation.shape) := fun k => by
    funext inputs output
    unfold operationValues
    cases k.operation <;> rfl
  rw [hshape m, hshape n, h]
  rfl

end Host

namespace Task

/-- A node with nothing but a task. -/
def node (t : Task) : Node :=
  { Node.ofPrimitive ⟨"", t.padding, t.operation⟩ with absorbed := t.absorbed }

/-- What a task makes of tensors, its activation included. -/
def Yields (t : Task) (inputs : List HostTensor) (output : Shape) (result : HostTensor) : Prop :=
  ∃ raw, Host.operationValues t.node inputs output = .ok raw ∧ raw.size = output ∧
    raw.mapM t.activation.apply = .ok result

variable {t : Task} {inputs : List HostTensor} {output : Shape} {result : HostTensor}

theorem Yields.full (h : t.Yields inputs output result) (hin : ∀ u ∈ inputs, u.Full) :
    result.Full := by
  obtain ⟨raw, hraw, -, hmap⟩ := h
  exact ((Host.full_operation hin hraw).mapM hmap).2

end Task

namespace Host

variable {n : Node} {inputs : List HostTensor} {output : Shape} {t : HostTensor}

theorem evaluateDense_eq_ok_iff :
    evaluateDense n inputs output = .ok t ↔ n.task.Yields inputs output t := by
  have hop : operationValues n.task.node = operationValues n :=
    operationValues_congr (Operation.shape_shape n.operation)
  rw [evaluateDense, bind_eq_ok_iff, Task.Yields, hop, Node.activation_task]
  refine exists_congr fun raw => and_congr_right fun _ => ?_
  by_cases hsize : raw.size = output
  · rw [if_neg (not_not_intro hsize), and_iff_right hsize]
    split
    case isTrue hnone => rw [Activation.apply_of_isNone hnone, HostTensor.mapM_ok]; rfl
    case isFalse => rfl
  · rw [if_pos hsize]
    exact ⟨fun h => (nomatch h), fun h => absurd h.1 hsize⟩

end Host

namespace Evaluator

variable {n : Node} {inputs : List ConstantValue} {output : Layout} {values : Buffer}

/-- **What the reference evaluator computes** follows from the tensors in the buffers and from the
task of the node. -/
theorem reference_eq_ok_iff : reference.evaluate n inputs output = .ok values ↔
    ∃ tensors result, List.Forall₂ (fun (v : ConstantValue) t => unpack v.layout v.values = .ok t)
      inputs tensors ∧ n.task.Yields tensors output.size result ∧
      pack result output = .ok values := by
  change (inputs.mapM (fun v => unpack v.layout v.values) >>= fun tensors =>
    Host.evaluateDense n tensors output.size >>= fun result => pack result output) = _ ↔ _
  simp only [bind_eq_ok_iff, mapM_eq_ok_iff, Host.evaluateDense_eq_ok_iff]
  constructor
  · rintro ⟨tensors, h₁, result, h₂, h₃⟩
    exact ⟨tensors, result, h₁, h₂, h₃⟩
  · rintro ⟨tensors, result, h₁, h₂, h₃⟩
    exact ⟨tensors, h₁, result, h₂, h₃⟩

theorem canEvaluate_reference {layouts : List Layout} :
    reference.canEvaluate n layouts output = true ↔ Host.isEvaluated n.kind = true ∧
      output.isAddressable = true ∧ ∀ l ∈ layouts, l.isAddressable = true := by
  change (_ && _ && _) = true ↔ _
  rw [Bool.and_eq_true, Bool.and_eq_true, List.all_eq_true, and_assoc]

/-- **Nodes with the same id and task** are alike. -/
theorem alike_reference {m : Node} (hid : m.id = n.id) (htask : m.task = n.task) :
    reference.Alike m n := by
  have hshape : m.operation.shape = n.operation.shape := congrArg Task.operation htask
  have hkind : m.kind = n.kind := by
    have hkind := congrArg Operation.kind hshape
    rwa [Operation.kind_shape, Operation.kind_shape] at hkind
  have hact : m.activation = n.activation := by
    rw [← m.activation_task, ← n.activation_task, htask]
  have hdense : Host.evaluateDense m = Host.evaluateDense n := by
    funext inputs output
    rw [Host.evaluateDense, Host.evaluateDense, Host.operationValues_congr hshape, hid, hact]
  refine ⟨?_, ?_⟩
  · funext inputs output
    change (Host.isEvaluated m.kind && _ && _) = (Host.isEvaluated n.kind && _ && _)
    rw [hkind]
  · funext inputs output
    change (_ >>= fun tensors => Host.evaluateDense m tensors output.size >>= _) = _
    rw [hdense]
    rfl

theorem slotFree_reference : reference.SlotFree := fun m n h => by
  have hid : (m.withOperation m.operation.shape).id = (n.withOperation n.operation.shape).id :=
    congrArg Node.id h
  exact alike_reference hid (congrArg (fun k : Node =>
    (⟨k.padding, k.operation, k.absorbed⟩ : Task)) h)

end Evaluator

/-! ## Values by their positions -/

namespace HostTensor

variable {t t' : HostTensor} {s : Shape} {c d : Coord} {v : Single}

instance (t : HostTensor) : Decidable t.Full := inferInstanceAs (Decidable (_ = _))

/-- Positions of a shape have indices of their own. -/
theorem index_inj (hc : c.inside s = true) (hd : d.inside s = true)
    (h : index s c = index s d) : c = d := by
  rw [Coord.inside_iff] at hc hd
  obtain ⟨h, hx⟩ := digits_inj (hc .x) (hd .x) h
  obtain ⟨h, hy⟩ := digits_inj (hc .y) (hd .y) h
  obtain ⟨hb, hf⟩ := digits_inj (hc .feature) (hd .feature) h
  refine Coord.ext_get fun a => ?_
  cases a <;> assumption

/-- **What goes for the list of values** goes for the value at each position. -/
theorem Full.forall₂_all_iff {R : Coord → Single → Prop} (ht : t.Full) :
    List.Forall₂ R (Coord.all t.size) t.values.toList ↔
      ∀ c, c.inside t.size = true → ∃ v, t.get c = .ok v ∧ R c v := by
  obtain ⟨hlen, hget⟩ := List.forall₂_iff_get.mp ht.forall₂_get
  rw [List.forall₂_iff_get]
  constructor
  · rintro ⟨-, h⟩ c hc
    obtain ⟨k, hk, rfl⟩ := List.getElem_of_mem (Coord.mem_all.mpr hc)
    exact ⟨_, hget k hk (hlen ▸ hk), h k hk (hlen ▸ hk)⟩
  · refine fun h => ⟨hlen, fun k hk hk' => ?_⟩
    obtain ⟨v, hv, hR⟩ := h _ (Coord.mem_all.mp (List.get_mem _ ⟨k, hk⟩))
    cases hv.symm.trans (hget k hk hk')
    exact hR

/-- **A table has at each position** what its function gives there. -/
theorem tabulate_eq_ok_iff_get {f : Coord → Except EvalError Single} :
    tabulate s f = .ok t ↔ t.size = s ∧ t.Full ∧
      ∀ c, c.inside s = true → ∃ v, t.get c = .ok v ∧ f c = .ok v := by
  constructor
  · intro h
    obtain ⟨rfl, hfull⟩ := full_of_tabulate h
    exact ⟨rfl, hfull, hfull.forall₂_all_iff.mp (tabulate_eq_ok_iff.mp h).2⟩
  · rintro ⟨rfl, hfull, h⟩
    exact tabulate_eq_ok_iff.mpr ⟨rfl, hfull.forall₂_all_iff.mpr h⟩

/-- A function applied to every value is applied at each position. -/
theorem Full.get_mapM {f : Single → Except EvalError Single} (ht : t.Full)
    (h : t.mapM f = .ok t') (hc : c.inside t.size = true) :
    ∃ v w, t.get c = .ok v ∧ f v = .ok w ∧ t'.get c = .ok w := by
  obtain ⟨hsize, ht'⟩ := ht.mapM h
  obtain ⟨v, hv⟩ := ht.exists_get hc
  obtain ⟨w, hw⟩ := ht'.exists_get (hsize ▸ hc)
  refine ⟨v, w, hv, ?_, hw⟩
  rw [get_eq_ok_iff, hsize] at hw
  obtain ⟨hi, rfl⟩ := Array.getElem?_eq_some_iff.mp (get_eq_ok_iff.mp hv)
  obtain ⟨hi', rfl⟩ := Array.getElem?_eq_some_iff.mp hw
  exact (List.forall₂_iff_get.mp (mapM_eq_ok_iff.mp h).2).2 _ hi hi'

/-- **A value that is set** is at its position, and all others are as they were. -/
theorem get_set (h : t.set c v = .ok t') (hc : c.inside t.size = true) :
    t'.size = t.size ∧ t'.get c = .ok v ∧
      ∀ d, d.inside t.size = true → d ≠ c → t'.get d = t.get d := by
  rw [set] at h
  split at h
  case isFalse => cases h
  case isTrue hi =>
    cases h
    refine ⟨rfl, get_eq_ok_iff.mpr (Array.getElem?_set_self hi), fun d hd hne => ?_⟩
    have hother : index t.size c ≠ index t.size d := fun heq => hne (index_inj hc hd heq).symm
    unfold get
    rw [Array.getElem?_set_ne hi hother]

end HostTensor

/-- **An evaluation** is an operation of the right shape with the activation applied. -/
theorem Host.evaluateDense_eq_ok_iff_mapM {n : Node} {inputs : List HostTensor}
    {output : Shape} {out : HostTensor} :
    evaluateDense n inputs output = .ok out ↔ ∃ raw, operationValues n inputs output = .ok raw ∧
      raw.size = output ∧ raw.mapM n.activation.apply = .ok out := by
  have hop : operationValues n.task.node = operationValues n :=
    operationValues_congr (Operation.shape_shape n.operation)
  rw [evaluateDense_eq_ok_iff, Task.Yields, hop, Node.activation_task]

end NetPlan
