import NetPlan.Proofs.Graph.Replace

/-!
# Proofs/Graph/Extract — a node taken out of a chain

`extract` lets the users of a node read its only dependency instead, and removes the node
(`Bypassed`).  If the node was an output, its dependency becomes one in its place and under its id.
The dependency must not read the node, or it would end up reading itself.

* `extract_outcome` — on any graph: the node is missing, or nothing is done, or the slots of the
  users follow their edges (`Passed`);
* `extract_effect` — where the dependency does not read the node, the graph stays linked.
-/

namespace NetPlan

/-- Whether a node can be taken out: its only dependency does not read it, unless both are outputs
and nothing is done. -/
def Program.Extractable (p : Program) (id : String) : Prop :=
  ∀ input ∈ p.depsOf id, p.depsOf id = [input] →
    (p.isMarked id && p.isMarked input) = true ∨ id ∉ p.depsOf input

instance (p : Program) (id : String) : Decidable (p.Extractable id) :=
  inferInstanceAs (Decidable (∀ input ∈ p.depsOf id, p.depsOf id = [input] →
    (p.isMarked id && p.isMarked input) = true ∨ id ∉ p.depsOf input))

theorem Program.Touched.extractable {p q : Program} {id : String} (h : Touched p q)
    (hp : p.Extractable id) : q.Extractable id := by
  rw [Extractable, h.deps, h.marks]
  exact hp

namespace Edit

open Program

variable {p q r : Program} {id input : String}

/-- `q` is `p` without a node; its users read its dependency. -/
structure Bypassed (p q : Program) (id input : String) : Prop where
  kept : Kept p q
  only : p.depsOf id = [input]
  acyclic : id ∉ p.depsOf input
  tasks : ∀ j, q.taskOf j = if j = id then none else p.taskOf j
  plans : ∀ j, q.planOf j = if j = id then none else p.planOf j
  marks : ∀ j, q.isMarked j = if j = id then false else p.isMarked j
  flags : ∀ j, q.flagsOf j = if j = id then none else p.flagsOf j
  deps : ∀ j, q.depsOf j = if j = id then [] else (p.depsOf j).map (swap id input)
  args : ∀ j, j ≠ id → p.argsOf j = p.depsOf j → q.argsOf j = q.depsOf j
  order : q.order.ids = p.order.ids.filter (· ≠ id)

theorem Bypassed.shapes (h : Bypassed p q id input) (j : String) :
    q.shapeOf j = if j = id then none else p.shapeOf j := by
  rw [shapeOf_eq_taskOf, h.tasks, shapeOf_eq_taskOf]
  split <;> rfl

/-- What is touched afterwards is bypassed too. -/
theorem Bypassed.touched (h : Bypassed p q id input) (h' : Touched q r) :
    Bypassed p r id input where
  kept := h.kept.trans h'.kept
  only := h.only
  acyclic := h.acyclic
  tasks j := by rw [h'.tasks, h.tasks]
  plans j := by rw [h'.plans, h.plans]
  marks j := by rw [h'.marks, h.marks]
  flags j := by rw [h'.flags, h.flags]
  deps j := by rw [h'.deps, h.deps]
  args j hj hp := by rw [h'.args, h'.deps, h.args j hj hp]
  order := by rw [h'.order, h.order]

/-- `q` is `p` without a node; its users read its dependency, which has the id of the node if that
was an output. -/
def Extracted (p q : Program) (id input : String) : Prop :=
  ∃ r, Bypassed p r id input ∧
    if p.isMarked id = true then p.isMarked input = false ∧ ∃ s, Published r s ∧
      (∀ j, s.isMarked j = (decide (j = input) || r.isMarked j)) ∧ Renamed s q input id
    else Touched r q

theorem Extracted.kept (h : Extracted p q id input) : Kept p q := by
  obtain ⟨r, hr, hq⟩ := h
  split at hq
  · obtain ⟨-, s, hs, -, hq⟩ := hq
    exact (hr.kept.trans hs.kept).trans hq.kept
  · exact hr.kept.trans hq.kept

theorem onlyDependency?_eq_some {n : Node} :
    n.onlyDependency? = some input ↔ n.dependencies = [input] := by
  rw [Node.onlyDependency?]
  split
  case h_1 d hd => simp [hd]
  case h_2 hne =>
    constructor
    · exact fun h => nomatch h
    · exact fun h => absurd h (hne input)

/-- Once the users read the dependency the node can be removed. -/
theorem bypassed_of_removed {n : Node} (h : p.Linked) (hn : p.node? id = some n)
    (honly : p.depsOf id = [input]) (hcyc : id ∉ p.depsOf input) (hmove : Rewired p q)
    (halign : ∀ j, p.argsOf j = p.depsOf j → q.argsOf j = q.depsOf j)
    (hdeps : ∀ j, q.depsOf j
      = if j ∈ n.users then (p.depsOf j).map (swap id input) else p.depsOf j)
    (hr : Removed q r id) : Bypassed p r id input := by
  have hne : input ≠ id := h.dep_ne (by rw [honly]; exact List.mem_singleton_self input)
  have hall : ∀ j, q.depsOf j = (p.depsOf j).map (swap id input) := by
    intro j
    rw [hdeps]
    split
    · rfl
    case isFalse hu =>
      rw [← usersOf_of_node? hn, ← h.edges] at hu
      exact (map_swap_of_not_mem hu).symm
  have hread : ∀ j, id ∉ q.depsOf j := fun j hmem => by
    rw [hall] at hmem
    rcases mem_map_swap.mp hmem with ⟨he, -⟩ | ⟨ho, -⟩
    · exact hne he.symm
    · exact ho rfl
  have hrdeps : ∀ j, r.depsOf j = if j = id then [] else q.depsOf j := by
    intro j
    rw [hr.deps, Order.filter_ne_of_not_mem (hread j)]
  refine ⟨hmove.kept.trans hr.kept, honly, hcyc, fun j => ?_, fun j => ?_, fun j => ?_,
    fun j => ?_, fun j => ?_, fun j hj hp => ?_, ?_⟩
  · rw [taskOf_eq_coreOf, hr.core, hmove.core, taskOf_eq_coreOf]
    split <;> rfl
  · rw [planOf_eq_coreOf, hr.core, hmove.core, planOf_eq_coreOf]
    split <;> rfl
  · rw [isMarked_eq_coreOf, hr.core, hmove.core, isMarked_eq_coreOf]
    split <;> rfl
  · rw [flagsOf_eq_coreOf, hr.core, hmove.core, flagsOf_eq_coreOf]
    split <;> rfl
  · rw [hrdeps, hall]
  · rw [hr.args, if_neg hj, hrdeps, if_neg hj, halign j hp]
  · rw [hr.order, hmove.order]

/-- Linked or not, an output that was taken out hands its mark to its dependency, and its id. -/
theorem handDown_effect (hinput : p.contains input = true) (hid : ¬ p.contains id = true) :
    Ends (markOutput input)
      (fun _ s => Ends (rename input id)
        (fun _ q => SameWiring p s ∧ Swapped s q input id ∧ (p.Linked → Published p s ∧
          (∀ j, s.isMarked j = (decide (j = input) || p.isMarked j)) ∧ Renamed s q input id))
        (fun _ _ => False) s)
      (fun _ _ => False) p := by
  refine ((sameWiring_markOutput input).and (.of_imp fun h => markOutput_effect h)).imp
    (fun _ s hs => ?_) fun _ _ hno => hno.1 hinput
  obtain ⟨hwiring, hmarked⟩ := hs
  rw [← hwiring.contains] at hinput hid
  refine ends_rename (fun he => absurd (he ▸ hinput) hid) (fun _ hc => hid hc)
    (fun _ hnone => node?_eq_none.mp hnone hinput) fun m hm hfree =>
      ⟨hwiring, swapped_renamed hm hfree, fun h => ?_⟩
  have hs := hmarked h
  exact ⟨hs.1, hs.2, renamed_renamed hs.1.kept.linked hm hfree⟩

/-- `q` is `p` without a node, linked or not: every other node does what it did, and aligned slots
stay aligned. -/
structure Passed (p q : Program) (id input : String) : Prop where
  only : p.depsOf id = [input]
  marks : ¬ (p.isMarked id = true ∧ p.isMarked input = true)
  tasks : ∀ j, j ≠ id → p.contains j = true →
    q.taskOf (if p.isMarked id = true then swap input id j else j) = p.taskOf j
  args : (∀ j, p.argsOf j = p.depsOf j) → ∀ j, q.argsOf j = q.depsOf j
  extracted : id ∉ p.depsOf input → Extracted p q id input

/-- **Extracting** takes a node out, or changes nothing, and fails only without a node.  A node that
its dependency reads is taken out too: the dependency reads itself then. -/
theorem extract_outcome (h : p.Linked) :
    Ends (extract id)
      (fun done q => p.contains id = true ∧ if done then ∃ input, Passed p q id input else
        q = p ∧ ∀ input, p.depsOf id = [input] → p.isMarked id = true ∧ p.isMarked input = true)
      (fun e q => e.closes = false ∧ q = p ∧ ¬ p.contains id = true) p := by
  rw [extract, ends_bind, ends_node]
  refine ⟨fun n hn => ?_, fun hnone => ⟨rfl, rfl, node?_eq_none.mp hnone⟩⟩
  have hc := contains_of_node? hn
  have hmark : p.isMarked id = n.isOutput := isMarked_of_node? hn
  split
  case h_1 hnone =>
    refine ⟨hc, rfl, fun input honly => ?_⟩
    rw [depsOf_of_node? hn, ← onlyDependency?_eq_some, hnone] at honly
    cases honly
  case h_2 input honly =>
  have honly' : p.depsOf id = [input] := by
    rw [depsOf_of_node? hn]
    exact onlyDependency?_eq_some.mp honly
  have hmem : input ∈ p.depsOf id := honly' ▸ List.mem_singleton_self input
  have hinput := h.contains_dep hmem
  have hne := h.dep_ne hmem
  have husers : n.users = p.usersOf id := (usersOf_of_node? hn).symm
  rw [ends_bind, ends_node]
  refine ⟨fun source hsource => ?_, fun hnone => absurd hinput (node?_eq_none.mp hnone)⟩
  split
  case isTrue hboth =>
    refine ⟨hc, rfl, fun input' honly => ?_⟩
    rw [honly'] at honly
    cases honly
    rw [hmark, isMarked_of_node? hsource, ← Bool.and_eq_true, hboth]
  case isFalse hboth =>
  rw [← hmark, ← isMarked_of_node? hsource, Bool.and_eq_true] at hboth
  -- the users move over to the dependency
  rw [ends_bind]
  refine (moveUsers_effect n.users).imp (fun _ a ha => ?_) fun e a ha => ?_
  case refine_2 =>
    obtain ⟨u, hu, hmissing⟩ := ha.2.2 hinput
    exact absurd (h.contains_user (husers ▸ hu)) hmissing
  obtain ⟨hmove, hframe, halign, hthin, -, hdeps⟩ := ha
  have hacontains := hframe.contains
  have hread : ∀ u, id ∉ a.depsOf u := fun u hmem => by
    rw [hdeps, husers] at hmem
    split at hmem
    case isTrue =>
      rcases mem_map_swap.mp hmem with ⟨he, -⟩ | ⟨ho, -⟩
      · exact hne he.symm
      · exact ho rfl
    case isFalse hu => exact hu ((h.edges id u).mp hmem)
  have hleft : ∀ u ∈ a.usersOf id, a.contains u = true := fun u hu => by
    rw [hacontains]
    exact h.contains_user ((hthin id (by simpa using hne.symm)).subset hu)
  -- the node is removed
  rw [ends_bind]
  refine ((remove_frame (hacontains ▸ hc) hleft hread).and
    (.of_imp fun hl => remove_effect hl)).imp (fun _ b hb => ?_) fun _ _ hno => hno.1.elim
  obtain ⟨hshed, hremoved⟩ := hb
  have htasks : ∀ j, b.taskOf j = if j = id then none else p.taskOf j := fun j => by
    rw [hshed.tasks, hframe.tasks]
  have hargs : (∀ j, p.argsOf j = p.depsOf j) → ∀ j, b.argsOf j = b.depsOf j := fun hp j => by
    rw [hshed.args, hshed.deps, halign j (hp j)]
  have hbypassed : id ∉ p.depsOf input → Bypassed p b id input := fun hfree => by
    have hni : input ∉ n.users := fun hu => hfree ((h.edges id input).mpr (husers ▸ hu))
    have hrew := hmove h hni
    exact bypassed_of_removed h hn honly' hfree hrew halign hdeps (hremoved hrew.linked)
  have hthere : b.contains input = true ∧ ¬ b.contains id = true := by
    rw [contains_eq_isSome_taskOf, contains_eq_isSome_taskOf, htasks, htasks, if_neg hne, if_pos rfl,
      ← contains_eq_isSome_taskOf]
    exact ⟨hinput, Bool.false_ne_true⟩
  -- the frontier, the mark and the id pass on
  have htail : ∀ c, SameWiring b c → (b.Linked → Touched b c) → Ends (do
      if n.isOutput then
        markOutput input
        rename input id
      return true)
      (fun done q => p.contains id = true ∧ if done then ∃ input, Passed p q id input else
        q = p ∧ ∀ input, p.depsOf id = [input] → p.isMarked id = true ∧ p.isMarked input = true)
      (fun e q => e.closes = false ∧ q = p ∧ ¬ p.contains id = true) c := by
    intro c hsame htouched
    split
    case isTrue hout =>
      have hid : p.isMarked id = true := hmark.trans hout
      have hinput' : p.isMarked input = false := Bool.eq_false_iff.mpr fun hin => hboth ⟨hid, hin⟩
      rw [ends_bind]
      refine (handDown_effect (hsame.contains ▸ hthere.1) (hsame.contains ▸ hthere.2)).imp
        (fun _ s hs => ?_) fun _ _ hf => hf.elim
      rw [ends_bind]
      refine hs.imp (fun _ q hq => ?_) fun _ _ hf => hf.elim
      obtain ⟨hs, hq, hlinked⟩ := hq
      refine ⟨hc, input, honly', hboth, fun j hj _ => ?_, fun hp j => ?_, fun hfree => ?_⟩
      · rw [if_pos hid, hq.tasks, hs.tasks, hsame.tasks, htasks, htasks, if_neg hne, swap]
        by_cases hji : j = input
        · rw [if_pos hji, if_pos rfl, hji]
        · rw [if_neg hji, if_neg hj, if_neg hji, if_neg hj]
      · exact hq.aligned (fun i => by rw [hs.args, hs.deps, hsame.args, hsame.deps, hargs hp]) j
      · have hby := hbypassed hfree
        obtain ⟨hpublished, hmarks, hrenamed⟩ := hlinked (htouched hby.kept.linked).kept.linked
        refine ⟨b, hby, ?_⟩
        rw [if_pos hid]
        exact ⟨hinput', s, (htouched hby.kept.linked).published.trans hpublished, fun j => by
          rw [hmarks, (htouched hby.kept.linked).marks], hrenamed⟩
    case isFalse hout =>
      have hid : ¬ p.isMarked id = true := hmark ▸ hout
      refine ⟨hc, input, honly', hboth, fun j hj _ => ?_, fun hp j => ?_, fun hfree => ?_⟩
      · rw [if_neg hid, hsame.tasks, htasks, if_neg hj]
      · rw [hsame.args, hsame.deps, hargs hp]
      · have hby := hbypassed hfree
        refine ⟨b, hby, ?_⟩
        rw [if_neg hid]
        exact htouched hby.kept.linked
  dsimp only
  split
  · rw [ends_bind]
    exact ((sameWiring_change input (by exact fun _ => ⟨rfl, rfl, rfl, rfl, rfl⟩)).and
      (.of_imp fun hl => frontier_change hl true)).imp (fun _ c hc => htail c hc.1 hc.2)
      fun _ _ hno => absurd hthere.1 hno.1
  · exact htail b (.refl b) fun hl => .refl hl

/-- **Extracting** bypasses a node, or changes nothing: of an output that reads another one only. -/
theorem extract_effect (h : p.Linked) (hcyc : p.Extractable id) :
    Ends (extract id)
      (fun done q => if done then ∃ input, Extracted p q id input else
        q = p ∧ ∀ input, p.depsOf id = [input] → p.isMarked id = true ∧ p.isMarked input = true)
      (fun e q => e.closes = false ∧ Kept p q ∧ ¬ p.contains id = true) p := by
  refine (extract_outcome h).imp (fun done q hq => ?_) fun e q hq =>
    ⟨hq.1, hq.2.1.symm ▸ .refl h, hq.2.2⟩
  cases done with
  | false => exact hq.2
  | true =>
    obtain ⟨-, input, hq⟩ := hq
    have hmem : input ∈ p.depsOf id := hq.only ▸ List.mem_singleton_self input
    refine ⟨input, hq.extracted ((hcyc input hmem hq.only).resolve_left fun hboth => ?_)⟩
    exact hq.marks (Bool.and_eq_true_iff.mp hboth)

end Edit

end NetPlan
