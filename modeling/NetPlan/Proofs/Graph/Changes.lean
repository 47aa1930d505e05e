import NetPlan.Proofs.Graph.Extract
import NetPlan.Proofs.Graph.Rework

/-!
# Proofs/Graph/Changes — edits in any order

A `Change` is a call of one of the edits of a graph with its arguments.  Every change keeps a program
well formed, whether it succeeds or fails midway, provided that it does not ask for a node that reads
itself (`Fits`):

* a dependency is not pointed at its own user, nor led through it;
* a node is not extracted from a cycle of two.

`wellFormed_applyAll` carries that over to any sequence of changes.
-/

namespace NetPlan

/-- An edit with its arguments. -/
inductive Change where
  | create (prim : Primitive)
  | connect (dep user : String)
  | disconnect (dep user : String)
  | replaceDependency (user : String) (index : Nat) (new : String)
  | replaceDependencyOf (user old new : String)
  | removeIfDangling (id : String)
  | isolate (id : String)
  | reverse (dep user : String)
  | remove (id : String)
  | addIntermediate (prim : Primitive) (next : String) (index : Nat)
  | replace (old : String) (prim : Primitive) (keepDependencies : Bool)
  | extract (id : String)
  | rename (old new : String)
  | markOutput (id : String)
  | setOutputs (requested : List String)
  | setPadding (id : String) (padding : Padding)

namespace Change

/-- The edit of a change, whatever it returns. -/
def edit : Change → Edit Unit
  | .create prim => do let _ ← Edit.create prim
  | .connect dep user => Edit.connect dep user
  | .disconnect dep user => Edit.disconnect dep user
  | .replaceDependency user index new => Edit.replaceDependency user index new
  | .replaceDependencyOf user old new => Edit.replaceDependencyOf user old new
  | .removeIfDangling id => do let _ ← Edit.removeIfDangling id
  | .isolate id => Edit.isolate id
  | .reverse dep user => Edit.reverse dep user
  | .remove id => Edit.remove id
  | .addIntermediate prim next index => Edit.addIntermediate prim next index
  | .replace old prim keepDependencies => Edit.replace old prim keepDependencies
  | .extract id => do let _ ← Edit.extract id
  | .rename old new => Edit.rename old new
  | .markOutput id => Edit.markOutput id
  | .setOutputs requested => Edit.setOutputs requested
  | .setPadding id padding => Edit.setPadding id padding

/-- The program that a change leaves, whether it succeeds or fails. -/
def apply (c : Change) (p : Program) : Program := (c.edit.run.run p).2

/-- Whether no argument asks for a node that reads itself. -/
def Proper : Change → Prop
  | .replaceDependency user _ new => new ≠ user
  | .replaceDependencyOf user _ new => new ≠ user
  | .addIntermediate prim next _ => prim.id ≠ next
  | _ => True

/-- Whether a change of a program asks for no node that reads itself. -/
def Fits (p : Program) : Change → Prop
  | .extract id => p.Extractable id
  | c => c.Proper

/-- Whether every change of a sequence fits the program that those before it leave. -/
def AllFit (p : Program) : List Change → Prop
  | [] => True
  | c :: cs => c.Fits p ∧ AllFit (c.apply p) cs

/-- The program that a sequence of changes leaves. -/
def applyAll (p : Program) (cs : List Change) : Program := cs.foldl (fun p c => c.apply p) p

end Change

/-! ## One change -/

namespace Change

open Program
open Edit hiding create

variable {p : Program}

/-- **Every fitting change keeps what edits keep**, also where it fails. -/
theorem ends_edit (h : p.Linked) (c : Change) (hc : c.Fits p) :
    Ends c.edit (fun _ q => Kept p q) (fun _ q => Kept p q) p := by
  have same : ∀ q, q = p → Kept p q := fun q he => by
    rw [he]
    exact .refl h
  cases c with
  | create prim =>
    rw [edit, ends_bind]
    refine (create_effect prim).imp_good fun _ q hq => ?_
    obtain ⟨-, rfl⟩ | ⟨hnew, -, rfl⟩ := hq
    · exact .refl h
    · exact kept_withNew h hnew
  | connect dep user =>
    exact (connect_effect h).imp (fun _ _ hq => hq.1.kept) fun _ q hq => same q hq.2
  | disconnect dep user =>
    exact (disconnect_effect h).imp (fun _ _ hq => hq.1.kept) fun _ q hq => same q hq.2.2
  | replaceDependency user index new =>
    exact replaceDependency_effect.imp (fun _ _ hq => (hq.1 h hc).kept) fun _ q hq => same q hq.2.1
  | replaceDependencyOf user old new =>
    exact replaceDependencyOf_effect.imp (fun _ _ hq => (hq.1 h fun _ => hc).kept)
      fun _ _ hq => (hq.2.1 h fun _ => hc).kept
  | removeIfDangling id =>
    rw [edit, ends_bind]
    exact (removeIfDangling_effect h).imp (fun _ _ hq => hq) fun _ q hq => same q hq.2
  | isolate id =>
    exact (isolate_effect h).imp (fun _ _ hq => hq.1.kept) fun _ q hq => same q hq.2.2
  | reverse dep user =>
    exact (reverse_effect h).imp (fun _ _ hq => hq.kept) fun _ _ hq => hq.2.kept
  | remove id =>
    exact (remove_effect h).imp (fun _ _ hq => hq.kept) fun _ q hq => same q hq.2.2
  | addIntermediate prim next index =>
    refine (addIntermediate_effect h fun he => absurd he hc).imp (fun _ _ hq => ?_)
      fun _ _ hq => hq.2
    obtain ⟨source, hq | hq⟩ := hq
    · exact hq.kept
    · exact hq.kept
  | replace old prim keepDependencies =>
    exact (replace_effect h keepDependencies).imp (fun _ _ hq => hq.kept) fun _ _ hq => hq.2.1
  | extract id =>
    rw [edit, ends_bind]
    refine (extract_effect h hc).imp (fun done q hq => ?_) fun _ _ hq => hq.2.1
    cases done with
    | false => exact same q hq.1
    | true =>
      obtain ⟨input, hq⟩ := hq
      exact hq.kept
  | rename old new =>
    refine (rename_effect h).imp (fun _ q hq => ?_) fun _ q hq => same q hq.2.1
    obtain ⟨-, hq⟩ | hq := hq
    · exact same q hq
    · exact hq.kept
  | markOutput id =>
    exact (markOutput_effect h).imp (fun _ _ hq => hq.1.kept) fun _ q hq => same q hq.2.1
  | setOutputs requested =>
    exact (setOutputs_effect h requested).imp (fun _ _ hq => hq.1.kept) fun _ _ hq => hq.2.kept
  | setPadding id padding =>
    exact (setPadding_effect h padding).imp (fun _ _ hq => hq.2.1) fun _ q hq => same q hq.2.1

theorem kept_apply (h : p.Linked) (c : Change) (hc : c.Fits p) : Kept p (c.apply p) :=
  (ends_edit h c hc).final (Kept p) (fun _ _ hq => hq) fun _ _ hq => hq

end Change

/-! ## A sequence of changes -/

theorem Change.kept_applyAll {p : Program} (h : p.Linked) (cs : List Change)
    (hcs : AllFit p cs) : Program.Kept p (applyAll p cs) := by
  induction cs generalizing p with
  | nil => exact .refl h
  | cons c cs ih =>
    have hkept := kept_apply h c hcs.1
    exact hkept.trans (ih hkept.linked hcs.2)

/-- **Well-formedness is an invariant of all edits**: a sequence of them keeps it, whatever each of
them returns. -/
theorem wellFormed_applyAll {p : Program} (h : p.WellFormed) (cs : List Change)
    (hcs : Change.AllFit p cs) : (Change.applyAll p cs).WellFormed :=
  (Change.kept_applyAll h.toLinked cs hcs).wellFormed h

namespace Change

/-- An input and two nodes without work of their own, in a chain. -/
def chain : List Change :=
  [.create ⟨"a", Padding.none, .inputLayout (.dense .f32 .bfyx ⟨1, 1, 1, 1⟩)⟩,
    .create ⟨"b", Padding.none, .softmax ⟨"a", .x⟩⟩, .create ⟨"c", Padding.none, .softmax ⟨"b", .x⟩⟩,
    .connect "a" "b", .connect "b" "c"]

end Change

/-- A chain can be built, and its middle extracted. -/
theorem wellFormed_chain_extract :
    (Change.applyAll (Program.empty .builtin) (Change.chain ++ [.extract "b"])).WellFormed := by
  have hfit : (Change.applyAll (Program.empty .builtin) Change.chain).Extractable "b" := by decide
  exact wellFormed_applyAll (Program.wellFormed_empty _) _
    ⟨trivial, trivial, trivial, trivial, trivial, hfit, trivial⟩

/-- **A node of a cycle of two cannot be extracted**: its neighbour is left reading itself, though
no argument asked for that. -/
theorem not_wellFormed_cycle_extract :
    (∀ c ∈ Change.chain ++ [.connect "b" "a", .extract "b"], c.Proper) ∧
      (Program.empty .builtin).WellFormed ∧
      ¬ (Change.applyAll (Program.empty .builtin)
        (Change.chain ++ [.connect "b" "a", .extract "b"])).WellFormed := by
  refine ⟨fun c hc => ?_, Program.wellFormed_empty _, fun h => h.irrefl "a" (by decide)⟩
  simp only [Change.chain, List.cons_append, List.nil_append, List.mem_cons,
    List.not_mem_nil, or_false] at hc
  rcases hc with rfl | rfl | rfl | rfl | rfl | rfl | rfl <;> trivial

end NetPlan
