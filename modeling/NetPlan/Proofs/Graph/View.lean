import Mathlib.Data.List.Nodup
import Mathlib.Data.List.Perm.Subperm
import NetPlan.Graph.Edit
import NetPlan.Proofs.Graph.Slots

/-!
# Proofs/Graph/View — a program as a map from ids

A program is looked at through `node?` and what that gives for an id: the dependencies `depsOf`, the
users `usersOf`, the argument slots `argsOf`, the cached layout `layoutOf`, and the rest of the node,
`coreOf`.  Every change of a program is `update`, `updateAll`, `insert` or `dropNode`; this module
says once what each of them does to the map.

`unusedId` tries one candidate more than there are nodes.  The candidates differ, since numbers
differ in their digits, so one of them is free (`not_contains_unusedId`).
-/

namespace NetPlan

/-! ## Nodes that may be missing -/

namespace Node

/-- What a node that may be missing reads. -/
@[simp] def depsIn : Option Node → List String
  | some n => n.dependencies
  | none => []

/-- What reads a node that may be missing. -/
@[simp] def usersIn : Option Node → List String
  | some n => n.users
  | none => []

/-- The arguments of a node that may be missing. -/
@[simp] def argsIn : Option Node → List String
  | some n => n.operation.arguments
  | none => []

/-- Whether a node that may be missing is an output. -/
@[simp] def markIn : Option Node → Bool
  | some n => n.isOutput
  | none => false

end Node

namespace Program

/-! ## The map -/

/-- The dependencies of a node, none if it is not there. -/
def depsOf (p : Program) (id : String) : List String := Node.depsIn (p.node? id)

/-- The argument slots of a node, none if it is not there. -/
def argsOf (p : Program) (id : String) : List String := Node.argsIn (p.node? id)

/-- The core of a node. -/
def coreOf (p : Program) (id : String) : Option Node := (p.node? id).map Node.core

/-- The cached layout of a node. -/
def layoutOf (p : Program) (id : String) : Option Layout := (p.node? id).bind Node.layout

/-- The ids of the nodes. -/
def ids (p : Program) : List String := p.nodes.map (·.id)

variable {p q : Program} {id j : String} {n m : Node}

theorem node?_eq_some (h : p.node? id = some n) : n ∈ p.nodes ∧ n.id = id :=
  ⟨List.mem_of_find?_eq_some h, by simpa using List.find?_some h⟩

theorem id_of_node? (h : p.node? id = some n) : n.id = id := (node?_eq_some h).2

theorem depsOf_of_node? (h : p.node? id = some n) : p.depsOf id = n.dependencies :=
  congrArg Node.depsIn h

theorem usersOf_of_node? (h : p.node? id = some n) : p.usersOf id = n.users := by
  rw [usersOf, h]

theorem argsOf_of_node? (h : p.node? id = some n) : p.argsOf id = n.operation.arguments :=
  congrArg Node.argsIn h

theorem coreOf_of_node? (h : p.node? id = some n) : p.coreOf id = some n.core := by
  rw [coreOf, h, Option.map_some]

theorem contains_iff : p.contains id = true ↔ ∃ n, p.node? id = some n := by
  rw [contains, Option.isSome_iff_exists]

theorem contains_of_node? (h : p.node? id = some n) : p.contains id = true := by
  rw [contains, h, Option.isSome_some]

theorem node?_eq_none : p.node? id = none ↔ ¬ p.contains id = true := by
  rw [contains, Option.not_isSome_iff_eq_none]

theorem contains_eq_isSome_coreOf (p : Program) (id : String) :
    p.contains id = (p.coreOf id).isSome := by
  rw [contains, coreOf, Option.isSome_map]

theorem contains_iff_mem_ids : p.contains id = true ↔ id ∈ p.ids := by
  rw [contains, node?, List.find?_isSome, ids, List.mem_map]
  simp

theorem node?_of_mem (hn : p.ids.Nodup) (h : n ∈ p.nodes) : p.node? n.id = some n := by
  obtain ⟨m, hm⟩ := contains_iff.mp (contains_iff_mem_ids.mpr (List.mem_map_of_mem h))
  have hmem := node?_eq_some hm
  rw [hm, List.inj_on_of_nodup_map hn hmem.1 h hmem.2]

theorem depsOf_of_not_contains (h : ¬ p.contains id = true) : p.depsOf id = [] :=
  congrArg Node.depsIn (node?_eq_none.mpr h)

theorem argsOf_of_not_contains (h : ¬ p.contains id = true) : p.argsOf id = [] :=
  congrArg Node.argsIn (node?_eq_none.mpr h)

theorem usersOf_of_not_contains (h : ¬ p.contains id = true) : p.usersOf id = [] :=
  congrArg Node.usersIn (node?_eq_none.mpr h)

theorem contains_of_mem_depsOf (h : j ∈ p.depsOf id) : p.contains id = true := by
  by_contra hc
  rw [depsOf_of_not_contains hc] at h
  exact List.not_mem_nil h

theorem contains_of_mem_usersOf (h : j ∈ p.usersOf id) : p.contains id = true := by
  by_contra hc
  rw [usersOf_of_not_contains hc] at h
  exact List.not_mem_nil h

/-- The map depends on the nodes only. -/
theorem node?_congr (h : q.nodes = p.nodes) (id : String) : q.node? id = p.node? id := by
  rw [node?, node?, h]

/-! ## What the changes do to it -/

theorem node?_update {f : Node → Node} (hf : ∀ n, (f n).id = n.id) (id j : String) :
    (p.update id f).node? j = if j = id then (p.node? j).map f else p.node? j := by
  have hid : ∀ n : Node, (if n.id = id then f n else n).id = n.id := fun n => by
    split
    · exact hf n
    · rfl
  have hcomp : ((fun n : Node => decide (n.id = j)) ∘ fun n => if n.id = id then f n else n)
      = fun n => decide (n.id = j) := funext fun n => by simp only [Function.comp_apply, hid]
  rw [node?, update, List.find?_map, hcomp]
  change (p.node? j).map _ = _
  cases hn : p.node? j with
  | none => simp
  | some n =>
    rw [Option.map_some, id_of_node? hn]
    split <;> rfl

theorem node?_updateAll {f : Node → Node} (hf : ∀ n, (f n).id = n.id) (j : String) :
    (p.updateAll f).node? j = (p.node? j).map f := by
  have hcomp : ((fun n : Node => decide (n.id = j)) ∘ f) = fun n => decide (n.id = j) :=
    funext fun n => by simp only [Function.comp_apply, hf]
  rw [node?, updateAll, List.find?_map, hcomp]
  rfl

/-- What is read off a node and not changed is the same everywhere. -/
theorem view_update {α : Type} (v : Option Node → α) {f : Node → Node}
    (hf : ∀ n, (f n).id = n.id) (hv : ∀ n, v (some (f n)) = v (some n)) (id j : String) :
    v ((p.update id f).node? j) = v (p.node? j) := by
  rw [node?_update hf]
  cases p.node? j with
  | none => simp
  | some n =>
    rw [Option.map_some]
    split
    · exact hv n
    · rfl

theorem view_updateAll {α : Type} (v : Option Node → α) {f : Node → Node}
    (hf : ∀ n, (f n).id = n.id) (hv : ∀ n, v (some (f n)) = v (some n)) (j : String) :
    v ((p.updateAll f).node? j) = v (p.node? j) := by
  rw [node?_updateAll hf]
  cases p.node? j with
  | none => rfl
  | some n => exact hv n

@[simp] theorem ids_update {f : Node → Node} (hf : ∀ n, (f n).id = n.id) (id : String) :
    (p.update id f).ids = p.ids := by
  rw [ids, ids, update, List.map_map]
  refine List.map_congr_left fun n _ => ?_
  simp only [Function.comp_apply]
  split
  · exact hf n
  · rfl

theorem ids_updateAll {f : Node → Node} (hf : ∀ n, (f n).id = n.id) :
    (p.updateAll f).ids = p.ids := by
  rw [ids, ids, updateAll, List.map_map]
  exact List.map_congr_left fun n _ => hf n

theorem contains_congr (h : q.ids = p.ids) : q.contains = p.contains :=
  funext fun j => Bool.eq_iff_iff.mpr (by rw [contains_iff_mem_ids, contains_iff_mem_ids, h])

theorem find?_insertById (n : Node) (j : String) : ∀ ns : List Node,
    (∀ m ∈ ns, m.id ≠ n.id) →
      (insertById n ns).find? (·.id = j) = if j = n.id then some n else ns.find? (·.id = j)
  | [], _ => by by_cases h : j = n.id <;> simp [insertById, h, Ne.symm]
  | m :: ns, hne => by
      have ih := find?_insertById n j ns fun k hk => hne k (List.mem_cons_of_mem _ hk)
      have hm := hne m List.mem_cons_self
      rw [insertById]
      split
      · by_cases h : j = n.id
        · simp [h]
        · rw [List.find?_cons_of_neg (by simpa using Ne.symm h), if_neg h]
      · by_cases h : m.id = j
        · subst h
          rw [List.find?_cons_of_pos (by simp), List.find?_cons_of_pos (by simp), if_neg hm]
        · rw [List.find?_cons_of_neg (by simpa using h), List.find?_cons_of_neg (by simpa using h),
            ih]

theorem node?_insert (h : ¬ p.contains n.id = true) (j : String) :
    (p.insert n).node? j = if j = n.id then some n else p.node? j :=
  find?_insertById n j p.nodes fun m hm hid =>
    h (contains_iff_mem_ids.mpr (List.mem_map.mpr ⟨m, hm, hid⟩))

theorem mem_insertById (n m : Node) : ∀ ns : List Node, m ∈ insertById n ns ↔ m = n ∨ m ∈ ns
  | [] => by simp [insertById]
  | k :: ns => by
      rw [insertById]
      split
      · rw [List.mem_cons]
      · rw [List.mem_cons, mem_insertById n m ns, List.mem_cons]
        tauto

/-- **Inserting by id keeps the nodes ascending.** -/
theorem pairwise_insertById (n : Node) : ∀ ns : List Node, (∀ m ∈ ns, m.id ≠ n.id) →
    ns.Pairwise (·.id < ·.id) → (insertById n ns).Pairwise (·.id < ·.id)
  | [], _, _ => List.pairwise_singleton _ _
  | m :: ns, hne, h => by
      obtain ⟨hm, hns⟩ := List.pairwise_cons.mp h
      rw [insertById]
      split
      case isTrue hlt =>
        refine List.pairwise_cons.mpr ⟨fun k hk => ?_, h⟩
        rcases List.mem_cons.mp hk with rfl | hk
        · exact hlt
        · exact String.lt_trans hlt (hm k hk)
      case isFalse hlt =>
        have hmn : m.id < n.id := by
          by_contra hc
          exact hne m List.mem_cons_self
            (String.le_antisymm (String.not_lt.mp hlt) (String.not_lt.mp hc))
        refine List.pairwise_cons.mpr ⟨fun k hk => ?_, pairwise_insertById n ns
          (fun k hk => hne k (List.mem_cons_of_mem _ hk)) hns⟩
        rcases (mem_insertById n k ns).mp hk with rfl | hk
        · exact hmn
        · exact hm k hk

theorem node?_dropNode (p : Program) (id j : String) :
    (p.dropNode id).node? j = if j = id then none else p.node? j := by
  rw [node?, dropNode, List.find?_filter, node?]
  split
  case isTrue h =>
    subst h
    simp
  case isFalse h =>
    refine congrArg (fun f => List.find? f p.nodes) (funext fun n => ?_)
    by_cases hn : n.id = j
    · simp [hn, h]
    · simp [hn]

end Program

/-! ## Ids that are free -/

/-- Numbers are known by their digits. -/
theorem toDigits_inj {m n : Nat} (hdigits : Nat.toDigits 10 m = Nat.toDigits 10 n) : m = n := by
  rw [← Nat.ofDigitChars_ten_toDigits (n := m), hdigits, Nat.ofDigitChars_ten_toDigits]

namespace Program

variable (p : Program) (base : String)

theorem nodup_candidates (k : Nat) :
    (base :: (List.range' 1 k).map fun i => s!"{base}_{i}").Nodup := by
  have hcandidate : ∀ i : Nat, s!"{base}_{i}" = base ++ ("_" ++ toString i) := fun i => by
    rw [← String.append_assoc]
    rfl
  refine List.nodup_cons.mpr ⟨fun hmem => ?_, (List.nodup_range' 1).map fun i j hij => ?_⟩
  · obtain ⟨i, -, hi⟩ := List.mem_map.mp hmem
    have hlength := congrArg (fun s : String => s.toList.length) (hcandidate i ▸ hi)
    simp at hlength
  · simp only [hcandidate] at hij
    exact toDigits_inj (by simpa using congrArg String.toList hij)

/-- **An unused id is not in use.** -/
theorem not_contains_unusedId : ¬ p.contains (p.unusedId base) = true := by
  let candidates := base :: (List.range' 1 p.size).map fun k => s!"{base}_{k}"
  have hfree : ∃ c ∈ candidates, ¬ p.contains c = true := by
    by_contra hall
    have hsub : candidates ⊆ p.ids := fun c hc => contains_iff_mem_ids.mp (by
      by_contra hnot
      exact hall ⟨c, hc, hnot⟩)
    have hlength : candidates.length ≤ p.ids.length :=
      ((nodup_candidates base p.size).subperm hsub).length_le
    have hmany : candidates.length = p.size + 1 := by simp [candidates]
    have hfew : p.ids.length = p.size := List.length_map _
    omega
  obtain ⟨c, hc, hcfree⟩ := hfree
  obtain ⟨d, hd⟩ : ∃ d, candidates.find? (fun c => !p.contains c) = some d :=
    Option.isSome_iff_exists.mp (List.find?_isSome.mpr ⟨c, hc, by simpa using hcfree⟩)
  have hunused : p.unusedId base = d := by
    rw [unusedId]
    change (candidates.find? fun c => !p.contains c).getD base = d
    rw [hd, Option.getD_some]
  rw [hunused]
  simpa using List.find?_some hd

/-- An unused id is the base with something behind it. -/
theorem unusedId_eq_append : ∃ rest, p.unusedId base = base ++ rest := by
  rw [unusedId]
  cases hf : (base :: (List.range' 1 p.size).map fun k => s!"{base}_{k}").find?
      fun c => !p.contains c with
  | none => exact ⟨"", by simp⟩
  | some c =>
    rcases List.mem_cons.mp (List.mem_of_find?_eq_some hf) with rfl | hc
    · exact ⟨"", by simp⟩
    · obtain ⟨k, -, rfl⟩ := List.mem_map.mp hc
      refine ⟨"_" ++ toString k, ?_⟩
      rw [← String.append_assoc]
      rfl

end Program

end NetPlan
