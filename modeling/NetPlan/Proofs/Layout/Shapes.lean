import Mathlib.Algebra.GroupWithZero.Nat
import NetPlan.Proofs.Layout.Fresh

/-!
# Proofs/Layout/Shapes — shapes that go together

A rule that gives an output layout has looked at the shapes of the inputs.  `Operation.Shapes` says
what is known of them then, for the operations that are carried out on the host
(`shapes_of_outputLayout`): the operands of an element-wise operation are alike, the parts of a
concatenation fill it, and a scale or a batch norm has the shape of its first input.  Of their other
inputs, the **parameters**, nothing is known.
-/

namespace NetPlan

namespace Shape

theorem get_set_self (s : Shape) (a : Axis) (n : Nat) : (s.set a n).get a = n := by
  cases a <;> rfl

theorem get_set_of_ne (s : Shape) {a b : Axis} (n : Nat) (h : b ≠ a) :
    (s.set a n).get b = s.get b := by
  cases a <;> cases b <;> first | rfl | exact absurd rfl h

end Shape

namespace Operation

/-- What goes for the shapes of the inputs where they have an output shape. -/
def Shapes (op : Operation) (inputs : List Shape) (output : Shape) : Prop :=
  match op with
  | .pooling _ => ∃ s rest, inputs = s :: rest ∧ s.batch = output.batch ∧ s.feature = output.feature
  | .eltwise _ => ∀ s ∈ inputs, s = output
  | .concatenation c => (∀ s ∈ inputs, ∀ a, a ≠ c.axis → s.get a = output.get a) ∧
      (inputs.map (·.get c.axis)).sum = output.get c.axis
  | .scale _ | .batchNorm _ => ∃ rest, inputs = output :: rest
  | _ => True

/-- The inputs that are repeated over the output, whatever their shapes: scale and bias, mean and
variance. -/
def parameters {α : Type} (op : Operation) (inputs : List α) : List α :=
  match op with
  | .scale _ => (inputs.drop 1).take 2
  | .batchNorm _ => if inputs.length = 3 then inputs.drop 1 else []
  | _ => []

theorem parameters_map {α β : Type} (op : Operation) (f : α → β) (inputs : List α) :
    op.parameters (inputs.map f) = (op.parameters inputs).map f := by
  cases op with
  | scale s => simp only [parameters, List.map_take, List.map_drop]
  | batchNorm b =>
    simp only [parameters, List.length_map]
    split
    · exact List.map_drop.symm
    · rfl
  | _ => rfl

/-- The shapes of parameters are the parameters among shapes. -/
theorem exists_parameters_iff {α β : Type} {p : β → Prop} (op : Operation) (f : α → β)
    {inputs : List α} :
    (∃ a ∈ op.parameters inputs, p (f a)) ↔ ∃ b ∈ op.parameters (inputs.map f), p b := by
  simp only [parameters_map, List.mem_map, exists_exists_and_eq_and]

end Operation

namespace Node

variable {n : Node} {inputs : List Layout} {output : Layout}

theorem cons_of_inputAt {first : Layout} (h : inputAt inputs 0 = .ok first) :
    ∃ rest, inputs = first :: rest := by
  match inputs, inputAt_eq_ok h with
  | _ :: rest, rfl => exact ⟨rest, rfl⟩

theorem size_of_sameAsInput (h : n.sameAsInput inputs = .ok output) :
    ∃ first rest, inputs = first :: rest ∧ output.size = first.size := by
  obtain ⟨-, -, h⟩ := bind_eq_ok_iff.mp h
  obtain ⟨first, hfirst, h⟩ := bind_eq_ok_iff.mp h
  obtain ⟨rest, hrest⟩ := cons_of_inputAt hfirst
  cases h
  exact ⟨first, rest, hrest, rfl⟩

theorem size_of_poolingLayout {p : Pooling} (h : n.poolingLayout p inputs = .ok output) :
    ∃ first rest, inputs = first :: rest ∧ first.size.batch = output.size.batch ∧
      first.size.feature = output.size.feature := by
  obtain ⟨-, -, h⟩ := bind_eq_ok_iff.mp h
  obtain ⟨first, hfirst, h⟩ := bind_eq_ok_iff.mp h
  obtain ⟨rest, hrest⟩ := cons_of_inputAt hfirst
  refine ⟨first, rest, hrest, ?_⟩
  dsimp only at h
  split at h
  · cases h
    exact ⟨rfl, rfl⟩
  · obtain ⟨x, -, h⟩ := bind_eq_ok_iff.mp h
    obtain ⟨y, -, h⟩ := bind_eq_ok_iff.mp h
    cases h
    exact ⟨rfl, rfl⟩

theorem size_of_eltwiseLayout (h : n.eltwiseLayout inputs = .ok output) :
    ∀ l ∈ inputs, l.size = output.size := by
  obtain ⟨-, -, h⟩ := bind_eq_ok_iff.mp h
  obtain ⟨first, hfirst, h⟩ := bind_eq_ok_iff.mp h
  split at h
  case h_1 => cases h
  case h_2 hsame =>
    obtain ⟨first', rest, hrest, hsize⟩ := size_of_sameAsInput h
    obtain ⟨rest', hrest'⟩ := cons_of_inputAt hfirst
    obtain rfl : first = first' := by
      rw [hrest] at hrest'
      exact (List.cons.inj hrest').1.symm
    intro l hl
    rw [hsize]
    simpa using List.find?_eq_none.mp hsame l hl

theorem size_of_concatenationLayout {axis : Axis}
    (h : n.concatenationLayout axis inputs = .ok output) :
    (∀ l ∈ inputs, ∀ a, a ≠ axis → l.size.get a = output.size.get a) ∧
      (inputs.map (·.size.get axis)).sum = output.size.get axis := by
  obtain ⟨-, -, h⟩ := bind_eq_ok_iff.mp h
  obtain ⟨first, hfirst, h⟩ := bind_eq_ok_iff.mp h
  split at h
  · cases h
  case isFalse hsame =>
    cases h
    refine ⟨fun l hl a ha => ?_, ?_⟩
    · have hset : l.size.set axis 0 = first.size.set axis 0 := by
        by_contra hne
        exact hsame (List.any_eq_true.mpr ⟨l, hl, by simpa using hne⟩)
      have hget := congrArg (·.get a) hset
      simp only [Shape.get_set_of_ne _ _ ha] at hget
      rw [hget]
      exact (Shape.get_set_of_ne _ _ ha).symm
    · exact (Shape.get_set_self ..).symm

/-- **A layout rule that succeeds** has found shapes that go together. -/
theorem shapes_of_outputLayout (h : n.outputLayout inputs = .ok output) :
    n.operation.Shapes (inputs.map (·.size)) output.size := by
  unfold outputLayout at h
  cases hop : n.operation <;> rw [hop] at h <;> simp only at h
  case pooling p =>
    obtain ⟨first, rest, rfl, hb, hf⟩ := size_of_poolingLayout h
    exact ⟨first.size, rest.map (·.size), rfl, hb, hf⟩
  case eltwise e =>
    intro s hs
    obtain ⟨l, hl, rfl⟩ := List.mem_map.mp hs
    exact size_of_eltwiseLayout h l hl
  case concatenation c =>
    obtain ⟨hoff, hsum⟩ := size_of_concatenationLayout h
    refine ⟨fun s hs => ?_, ?_⟩
    · obtain ⟨l, hl, rfl⟩ := List.mem_map.mp hs
      exact hoff l hl
    · rw [List.map_map]
      exact hsum
  case batchNorm b =>
    obtain ⟨-, -, h⟩ := bind_eq_ok_iff.mp h
    obtain ⟨first, rest, rfl, hsize⟩ := size_of_sameAsInput h
    exact ⟨rest.map (·.size), by rw [hsize]; rfl⟩
  case scale s =>
    obtain ⟨-, -, h⟩ := bind_eq_ok_iff.mp h
    obtain ⟨first, rest, rfl, hsize⟩ := size_of_sameAsInput h
    exact ⟨rest.map (·.size), by rw [hsize]; rfl⟩
  all_goals trivial

end Node

end NetPlan
