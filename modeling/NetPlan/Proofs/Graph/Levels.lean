import Mathlib.Order.Bounds.Basic
import NetPlan.Proofs.Graph.Build
import NetPlan.Proofs.Graph.Ordered
import NetPlan.Proofs.Graph.Resort

/-!
# Proofs/Graph/Levels — the order by level

The level of a node is the length of the longest path of dependencies below it (`IsLevel`).

* `byLevel_isOk_iff` — the nodes can be sorted by level just if each stands behind its dependencies;
* `byLevel_eq_sortedBy` — the order is then sorted by the levels, and otherwise as it was;
* `sortByLevel_levels` — a valid order is turned into one that is valid and sorted by level, for
  good, and an invalid one is refused.
-/

namespace NetPlan

/-! ## Sorting once -/

section Sorting

variable {α : Type} {f : α → Nat} {l : List α}

/-- **Sorting is stable.** -/
theorem filter_sortedBy (f : α → Nat) (l : List α) (k : Nat) :
    ∀ n, (sortedBy f n l).filter (f · = k) = if k < n then l.filter (f · = k) else []
  | 0 => rfl
  | n + 1 => by
      rw [sortedBy_succ, List.filter_append, filter_sortedBy f l k n, List.filter_filter]
      rcases Nat.lt_trichotomy k n with hk | rfl | hk
      · have hnone : l.filter (fun x => decide (f x = k) && decide (f x = n)) = [] :=
          List.filter_eq_nil_iff.mpr fun x _ => by simp; omega
        rw [if_pos hk, if_pos (Nat.lt_succ_of_lt hk), hnone, List.append_nil]
      · simp
      · have hnone : l.filter (fun x => decide (f x = k) && decide (f x = n)) = [] :=
          List.filter_eq_nil_iff.mpr fun x _ => by simp; omega
        rw [if_neg (by omega), if_neg (by omega), hnone, List.append_nil]

/-- Among growing keys, those that are next to be reached come next. -/
theorem filter_lt_succ (n : Nat) : ∀ {l : List α}, (l.Pairwise fun a b => f a ≤ f b) →
    l.filter (f · < n + 1) = l.filter (f · < n) ++ l.filter (f · = n)
  | [], _ => rfl
  | a :: l, h => by
      obtain ⟨ha, hl⟩ := List.pairwise_cons.mp h
      rw [List.filter_cons, List.filter_cons, List.filter_cons, filter_lt_succ n hl]
      rcases Nat.lt_trichotomy (f a) n with hlt | heq | hgt
      · simp [hlt, Nat.lt_succ_of_lt hlt, Nat.ne_of_lt hlt]
      · have hnone : l.filter (f · < n) = [] :=
          List.filter_eq_nil_iff.mpr fun b hb => by simpa [← heq] using ha b hb
        simp [heq, hnone]
      · simp [Nat.not_lt.mpr (Nat.le_of_lt hgt), Nat.not_lt.mpr hgt, Nat.ne_of_gt hgt]

/-- **What is sorted stays as it is.** -/
theorem sortedBy_of_pairwise (h : l.Pairwise fun a b => f a ≤ f b) :
    ∀ n, sortedBy f n l = l.filter (f · < n)
  | 0 => by simp [sortedBy]
  | n + 1 => by rw [sortedBy_succ, sortedBy_of_pairwise h n, filter_lt_succ n h]

end Sorting

namespace Program

variable {p q : Program} {id u d : String} {k n : Nat} {ids seen : List String}
  {levels levels' : List (String × Nat)} {level : String → Nat}

/-! ## Paths of dependencies -/

/-- A path of dependencies of some length goes down from a node. -/
inductive Descends (p : Program) : String → Nat → Prop
  | here (u : String) : Descends p u 0
  | down {u d : String} {n : Nat} (reads : d ∈ p.depsOf u) (path : Descends p d n) :
      Descends p u (n + 1)

/-- The level of a node is the length of the longest path of dependencies below it. -/
def IsLevel (p : Program) (u : String) (k : Nat) : Prop := IsGreatest {n | p.Descends u n} k

theorem Descends.congr (h : q.depsOf = p.depsOf) (hd : p.Descends u n) : q.Descends u n := by
  induction hd with
  | here u => exact .here u
  | down reads _ ih => exact .down (h ▸ reads) ih

theorem IsLevel.congr (h : q.depsOf = p.depsOf) (hk : p.IsLevel u k) : q.IsLevel u k :=
  ⟨hk.1.congr h, fun _ hn => hk.2 (hn.congr h.symm)⟩

/-- **One level above the highest dependency.** -/
theorem isLevel_of_deps (above : ∀ d ∈ p.depsOf u, ∃ l, p.IsLevel d l ∧ l < k)
    (least : k = 0 ∨ ∃ d ∈ p.depsOf u, ∃ l, p.IsLevel d l ∧ k = l + 1) : p.IsLevel u k := by
  refine ⟨?_, fun n hn => ?_⟩
  · rcases least with rfl | ⟨d, hd, l, hl, rfl⟩
    · exact .here u
    · exact .down hd hl.1
  · cases hn with
    | here => exact Nat.zero_le k
    | down hd hpath =>
      obtain ⟨l, hl, hlt⟩ := above _ hd
      exact Nat.lt_of_le_of_lt (hl.2 hpath) hlt

/-- A dependency is on a lower level. -/
theorem IsLevel.lt (hd : d ∈ p.depsOf u) (hl : p.IsLevel d n) (hk : p.IsLevel u k) : n < k :=
  hk.2 (.down hd hl.1)

/-! ## The levels that are counted -/

/-- A node is given its level, if its dependencies were. -/
theorem isLevel_of_addLevel (h : p.addLevel levels id = .ok levels')
    (hl : ∀ e ∈ levels, p.IsLevel e.1 e.2) : ∀ e ∈ levels', p.IsLevel e.1 e.2 := by
  obtain ⟨level, rfl, habove, hleast⟩ := addLevel_eq_ok h
  intro e he
  rcases List.mem_append.mp he with he | he
  · exact hl e he
  cases List.mem_singleton.mp he
  refine isLevel_of_deps (fun d hd => ?_) (hleast.imp_right ?_)
  · obtain ⟨l, hlook, hlt⟩ := habove d hd
    exact ⟨l, hl _ (mem_of_lookup hlook), hlt⟩
  · rintro ⟨d, hd, l, hlook, rfl⟩
    exact ⟨d, hd, l, hl _ (mem_of_lookup hlook), rfl⟩

theorem isLevel_of_foldlM (h : ids.foldlM p.addLevel levels = .ok levels')
    (hl : ∀ e ∈ levels, p.IsLevel e.1 e.2) : ∀ e ∈ levels', p.IsLevel e.1 e.2 := by
  induction ids generalizing levels with
  | nil =>
    cases h
    exact hl
  | cons id ids ih =>
    rw [List.foldlM_cons] at h
    cases ha : p.addLevel levels id with
    | error e =>
      rw [ha] at h
      cases h
    | ok next =>
      rw [ha] at h
      exact ih h (isLevel_of_addLevel ha hl)

/-- **The levels can be counted along an order just if it respects the dependencies.** -/
theorem foldlM_addLevel_isOk_iff (hseen : ∀ x, x ∈ seen ↔ x ∈ levels.map (·.1)) :
    (∃ levels', ids.foldlM p.addLevel levels = .ok levels') ↔ p.respects ids seen = true := by
  induction ids generalizing seen levels with
  | nil => exact iff_of_true ⟨levels, rfl⟩ rfl
  | cons id ids ih =>
    rw [List.foldlM_cons, respects]
    cases hn : p.node? id with
    | none =>
      rw [addLevel, node, hn]
      refine iff_of_false ?_ Bool.false_ne_true
      rintro ⟨_, h⟩
      cases h
    | some n =>
      rw [Bool.and_eq_true, List.all_eq_true]
      have hdeps : p.depsOf id = n.dependencies := depsOf_of_node? hn
      have hnext : ∀ (level : Nat) (x : String),
          x ∈ id :: seen ↔ x ∈ (levels ++ [(id, level)]).map (·.1) := by
        intro level x
        rw [List.mem_cons, hseen, List.map_append, List.mem_append]
        simp [or_comm]
      constructor
      · rintro ⟨last, h⟩
        cases ha : p.addLevel levels id with
        | error e =>
          rw [ha] at h
          cases h
        | ok next =>
          rw [ha] at h
          obtain ⟨level, rfl, habove, -⟩ := addLevel_eq_ok ha
          refine ⟨fun d hd => ?_, (ih (hnext level)).mp ⟨last, h⟩⟩
          obtain ⟨l, hlook, -⟩ := habove d (hdeps ▸ hd)
          exact List.contains_iff_mem.mpr
            ((hseen d).mpr (List.mem_map_of_mem (mem_of_lookup hlook)))
      · rintro ⟨hall, hrest⟩
        obtain ⟨level, hlevel⟩ : ∃ level, n.dependencies.foldlM (raised levels id) 0 = .ok level :=
          exists_foldlM_raised
            (fun d hd => (hseen d).mp (List.contains_iff_mem.mp (hall d hd))) 0
        rw [addLevel_of_node? hn, hlevel]
        exact (ih (hnext level)).mpr hrest

theorem byLevel_isOk_iff :
    (∃ ids, p.byLevel = .ok ids) ↔ p.respects p.order.ids [] = true := by
  have hcounted : (∃ levels, p.order.ids.foldlM p.addLevel [] = .ok levels) ↔
      p.respects p.order.ids [] = true := foldlM_addLevel_isOk_iff fun x => by simp
  rw [← hcounted, byLevel]
  cases p.order.ids.foldlM p.addLevel [] with
  | error e =>
    constructor <;>
    · rintro ⟨_, h⟩
      cases h
  | ok levels => exact iff_of_true ⟨_, rfl⟩ ⟨levels, rfl⟩

/-- **The order by level**, as a sort of the order there was. -/
theorem byLevel_eq_sortedBy (h : p.byLevel = .ok ids) : ∃ level : String → Nat,
    (∀ u ∈ p.order.ids, p.IsLevel u (level u) ∧ level u < p.order.ids.length) ∧
      ids = sortedBy level p.order.ids.length p.order.ids := by
  unfold byLevel at h
  cases hf : p.order.ids.foldlM p.addLevel [] with
  | error e =>
    rw [hf] at h
    cases h
  | ok levels =>
    rw [hf] at h
    obtain ⟨hids, hlev⟩ := foldlM_addLevel hf
      ⟨fun _ _ hu => absurd hu List.not_mem_nil, fun _ he => absurd he List.not_mem_nil⟩
    rw [List.map_nil, List.nil_append] at hids
    have hlength : levels.length = p.order.ids.length := by rw [← hids, List.length_map]
    have hislevel := isLevel_of_foldlM hf fun _ he => absurd he List.not_mem_nil
    -- the level that is found for an id is the level of every entry with that id
    have hlookup : ∀ e ∈ levels, (levels.lookup e.1).getD 0 = e.2 := fun e he => by
      obtain ⟨l, hl⟩ := exists_lookup (List.mem_map_of_mem he)
      rw [hl]
      exact (hislevel _ (mem_of_lookup hl)).unique (hislevel e he)
    refine ⟨fun u => (levels.lookup u).getD 0, fun u hu => ?_, ?_⟩
    · obtain ⟨e, he, rfl⟩ := List.mem_map.mp (hids ▸ hu)
      dsimp only
      rw [hlookup e he]
      exact ⟨hislevel e he, hlength ▸ hlev.bound e he⟩
    · have hkeys : ids = (sortedBy Prod.snd levels.length levels).map (·.1) := by
        cases h
        rfl
      rw [hkeys, ← hids, sortedBy_map, List.length_map]
      refine congrArg (List.map _) (congrArg (List.flatMap · _) (funext fun k => ?_))
      exact List.filter_congr fun e he => by rw [Function.comp_apply, hlookup e he]

/-! ## The order that is taken over -/

/-- An order that is sorted by level respects the dependencies of what it lists. -/
theorem respects_of_levels (hcontains : ∀ u ∈ ids, p.contains u = true)
    (hdeps : ∀ u ∈ ids, ∀ d ∈ p.depsOf u, d ∈ ids) (hlevel : ∀ u ∈ ids, p.IsLevel u (level u))
    (hsorted : ids.Pairwise fun a b => level a ≤ level b) : p.respects ids [] = true := by
  refine respects_iff.mpr ⟨hcontains, fun a u b hsplit d hd => Or.inl ?_⟩
  subst hsplit
  have hu : u ∈ a ++ u :: b := by simp
  have hdmem := hdeps u hu d hd
  have hlt : level d < level u := (hlevel d hdmem).lt hd (hlevel u hu)
  rcases List.mem_append.mp hdmem with hda | hdb
  · exact hda
  rcases List.mem_cons.mp hdb with rfl | hdb
  · exact absurd hlt (Nat.lt_irrefl _)
  · have hle := List.rel_of_pairwise_cons (List.pairwise_append.mp hsorted).2.1 hdb
    exact absurd hlt (Nat.not_lt.mpr hle)

theorem run_sortByLevel (p : Program) : Edit.sortByLevel.run.run p = match p.byLevel with
    | .ok ids => (.ok (), p.setOrder (Order.ofList ids).number)
    | .error e => (.error e, p) := by
  change (Edit.ofExcept p.byLevel >>= Edit.setOrder).run.run p = _
  cases p.byLevel <;> rfl

/-- An order that is sorted by level is taken over as it is. -/
theorem byLevel_of_sorted (hids : p.order.ids.Pairwise fun a b => level a ≤ level b)
    (hlevel : ∀ u ∈ p.order.ids, p.IsLevel u (level u))
    (hok : p.respects p.order.ids [] = true) : p.byLevel = .ok p.order.ids := by
  obtain ⟨ids, h⟩ := byLevel_isOk_iff.mpr hok
  obtain ⟨level', hlevel', rfl⟩ := byLevel_eq_sortedBy h
  have hsame : ∀ u ∈ p.order.ids, level' u = level u := fun u hu =>
    (hlevel' u hu).1.unique (hlevel u hu)
  rw [h, sortedBy_of_pairwise (hids.imp_of_mem fun ha hb hle => ?_),
    List.filter_eq_self.mpr fun u hu => decide_eq_true (hlevel' u hu).2]
  rwa [hsame _ ha, hsame _ hb]

end Program

open Program

/-- **Sorting by level.**  A program in order is given an order of the same nodes that is valid,
sorted by level and as it was within a level, and that is not changed any more; and nothing is done
about an order in which a node does not come behind each of its dependencies. -/
theorem sortByLevel_levels (p : Program) :
    (p.isOrdered = true → ∃ (q : Program) (level : String → Nat),
      Edit.sortByLevel.run.run p = (.ok (), q) ∧ q = p.setOrder q.order ∧ q.isOrdered = true ∧
      q.order.ids.Perm p.order.ids ∧ (∀ u ∈ p.order.ids, p.IsLevel u (level u)) ∧
      (q.order.ids.Pairwise fun a b => level a ≤ level b) ∧
      (∀ k, q.order.ids.filter (level · = k) = p.order.ids.filter (level · = k)) ∧
      Edit.sortByLevel.run.run q = (.ok (), q)) ∧
    ∀ a u b d, p.order.ids = a ++ u :: b → d ∈ p.depsOf u → d ∉ a →
      ∃ e, Edit.sortByLevel.run.run p = (.error e, p) := by
  refine ⟨fun ho => ?_, fun a u b d hsplit hd hda => ?_⟩
  · obtain ⟨hrespects, hlength⟩ := Bool.and_eq_true_iff.mp ho
    obtain ⟨hcontains, hbefore⟩ := respects_iff.mp hrespects
    obtain ⟨ids, hids⟩ := byLevel_isOk_iff.mpr hrespects
    obtain ⟨level, hlevel, rfl⟩ := byLevel_eq_sortedBy hids
    have hbound : ∀ u ∈ p.order.ids, level u < p.order.ids.length := fun u hu => (hlevel u hu).2
    have hperm := sortedBy_perm hbound
    have hsorted := pairwise_sortedBy level p.order.ids p.order.ids.length
    let q := p.setOrder (Order.ofList (sortedBy level p.order.ids.length p.order.ids)).number
    have hqlevel : ∀ u ∈ q.order.ids, q.IsLevel u (level u) := fun u hu =>
      .congr (show q.depsOf = p.depsOf from rfl) (hlevel u (hperm.mem_iff.mp hu)).1
    have hq : q.respects q.order.ids [] = true := by
      refine respects_of_levels (fun u hu => hcontains u (hperm.mem_iff.mp hu))
        (fun u hu d hd => hperm.mem_iff.mpr ?_) hqlevel hsorted
      obtain ⟨a, b, hsplit⟩ := List.append_of_mem (hperm.mem_iff.mp hu)
      rw [hsplit]
      exact List.mem_append_left _
        ((hbefore a u b hsplit d hd).resolve_right List.not_mem_nil)
    refine ⟨q, level, by rw [run_sortByLevel, hids], rfl, ?_, hperm, fun u hu => (hlevel u hu).1,
      hsorted, fun k => ?_, ?_⟩
    · rw [isOrdered, hq, Bool.true_and, beq_iff_eq]
      exact hperm.length_eq.trans (beq_iff_eq.mp hlength)
    · refine (filter_sortedBy level p.order.ids k _).trans ?_
      split
      · rfl
      · exact (List.filter_eq_nil_iff.mpr fun u hu => by
          have := hbound u hu
          simp
          omega).symm
    · rw [run_sortByLevel, byLevel_of_sorted hsorted hqlevel hq]
      rfl
  · have hno : ¬ p.respects p.order.ids [] = true := fun h =>
      hda (((respects_iff.mp h).2 a u b hsplit d hd).resolve_right List.not_mem_nil)
    rw [← byLevel_isOk_iff] at hno
    rw [run_sortByLevel]
    cases h : p.byLevel with
    | ok ids => exact absurd ⟨ids, h⟩ hno
    | error e => exact ⟨e, rfl⟩

/-- An input with two nodes in a row below it, and an input with one. -/
def Topology.staggered : Topology :=
  ⟨[⟨"a", Padding.none, .inputLayout (.dense .f32 .bfyx ⟨1, 1, 1, 1⟩)⟩,
    ⟨"b", Padding.none, .softmax ⟨"a", .x⟩⟩, ⟨"c", Padding.none, .softmax ⟨"b", .x⟩⟩,
    ⟨"d", Padding.none, .inputLayout (.dense .f32 .bfyx ⟨1, 1, 1, 1⟩)⟩,
    ⟨"e", Padding.none, .softmax ⟨"d", .x⟩⟩]⟩

/-- Depth first, the second input comes with all below it before the first.  Sorted by level the two
inputs come first; and the order upside down is refused. -/
theorem sortByLevel_staggered : ∃ p q e, Program.ofTopology .staggered .builtin = .ok p ∧
    p.order.ids = ["d", "e", "a", "b", "c"] ∧ Edit.sortByLevel.run.run p = (.ok (), q) ∧
    q.order.ids = ["d", "a", "e", "b", "c"] ∧ Edit.sortByLevel.run.run q = (.ok (), q) ∧
    Edit.sortByLevel.run.run (p.setOrder (.ofList p.order.ids.reverse))
      = (.error e, p.setOrder (.ofList p.order.ids.reverse)) := by
  have hshape : ((Program.ofTopology .staggered .builtin).toOption.map fun p =>
      (p.isOrdered, p.order.ids, (Edit.sortByLevel.run.run p).2.order.ids, p.depsOf "c"))
      = some (true, ["d", "e", "a", "b", "c"], ["d", "a", "e", "b", "c"], ["b"]) := by
    decide +kernel
  cases hp : Program.ofTopology .staggered .builtin with
  | error e =>
    rw [hp] at hshape
    cases hshape
  | ok p =>
    rw [hp] at hshape
    obtain ⟨ho, hids, hsorted, hdeps⟩ := by
      simpa only [Except.toOption, Option.map_some, Option.some.injEq, Prod.mk.injEq] using hshape
    obtain ⟨q, -, hrun, -, -, -, -, -, -, hagain⟩ := (sortByLevel_levels p).1 ho
    obtain ⟨e, he⟩ := (sortByLevel_levels (p.setOrder (.ofList p.order.ids.reverse))).2
      [] "c" ["b", "a", "e", "d"] "b" (by rw [hids]; rfl)
      (by change "b" ∈ p.depsOf "c"; rw [hdeps]; exact List.mem_singleton_self _) List.not_mem_nil
    rw [hrun] at hsorted
    exact ⟨p, q, e, rfl, hids, hrun, hsorted, hagain, he⟩

end NetPlan
