import NetPlan.Proofs.Pass.Spent

/-!
# Proofs/Pass/Chains — what merging leaves

The pass over the reorders visits each node once, in processing order.  A reorder stands behind what it
reads, so where it is merged with its input or makes way for it, the one that is left has been visited
already (`Ahead`).

* `Contracted.mergeable_cases` — which two reorders can be merged once two nodes have become one;
* `Joined.mergeable_of`, `Elided.mergeable_of` — they could be merged before, so one visit each is
  enough;
* `Joined.spent`, `Dropped.spent` — what the host is asked for stays unfit.
-/

namespace NetPlan

open Program Edit

namespace Program

variable {p q : Program} {a b id : String}

/-- Other caches and flags and more outputs do not set a reorder free. -/
theorem Fixed.sameGraph (h : p.Fixed id) (hq : SameGraph p q)
    (marks : ∀ j, p.isMarked j = true → q.isMarked j = true) : q.Fixed id := fun hcopy input honly => by
  rw [isCopy, hq.shapes] at hcopy
  rw [hq.kinds, hq.freshLayout]
  refine (h hcopy input (hq.deps ▸ honly)).imp (And.imp_left (marks id)) ?_
  rintro ⟨l, l', hl, hl', hboth⟩
  exact ⟨l, l', hl, hl', fun he => (hboth he).imp (marks id) (marks _)⟩

/-- Nor do they make two reorders mergeable. -/
theorem Mergeable.sameGraph (h : q.Mergeable a b) (hq : SameGraph p q)
    (marks : ∀ j, p.isMarked j = true → q.isMarked j = true) : p.Mergeable a b where
  copy := by
    rw [isCopy, ← hq.shapes]
    exact h.copy
  only := hq.deps ▸ h.only
  reorder := by
    rw [isReorder, ← hq.shapes]
    exact h.reorder
  sole u hu := h.sole u (hq.deps ▸ hu)
  unmarked := by
    by_contra hm
    have hm' := marks b (by simpa using hm)
    rw [h.unmarked] at hm'
    cases hm'

end Program

namespace Edit

variable {p q : Program} {id input a b d e u : String} {g : Task → Task}

namespace Contracted

variable (h : Contracted p q id input g) (hl : p.Linked)
include h

include hl in
theorem input_dep_ne (hd : d ∈ p.depsOf input) : d ≠ id ∧ d ≠ input :=
  ⟨fun he => h.acyclic (he ▸ hd), hl.dep_ne hd⟩

theorem mem_deps (hu : u ≠ id) (hu' : u ≠ input) (hd : d ∈ p.depsOf u) :
    onto p id input d ∈ q.depsOf u := by
  rw [h.deps u hu hu']
  exact List.mem_map_of_mem hd

/-- Who reads afterwards read before, or is the survivor and reads what the input read. -/
theorem reader (hd : e ∈ q.depsOf u) : u = survivor p id input ∧ e ∈ p.depsOf input ∨
    (u ≠ id ∧ u ≠ input) ∧ ∃ d ∈ p.depsOf u, onto p id input d = e := by
  rcases h.exists_onto (contains_of_mem_depsOf hd) with rfl | ⟨hne, hne', -⟩
  · exact Or.inl ⟨rfl, h.reads ▸ hd⟩
  · rw [h.deps u hne hne'] at hd
    exact Or.inr ⟨⟨hne, hne'⟩, List.mem_map.mp hd⟩

omit h in
theorem eq_of_onto (he : onto p id input d = e) (hne : e ≠ id) (hne' : e ≠ input) : d = e := by
  rw [onto] at he
  split at he
  · rcases survivor_mem p id input with hs | hs
    · exact absurd (he.symm.trans hs) hne
    · exact absurd (he.symm.trans hs) hne'
  · exact he

omit h in
theorem mem_of_onto_survivor (he : onto p id input d = survivor p id input) :
    d = id ∨ d = input := by
  rw [onto] at he
  split at he
  case isTrue hd => exact hd
  case isFalse => exact he ▸ survivor_mem p id input

theorem shape_of_ne {j : String} (hj : j ≠ id) (hj' : j ≠ input) : q.shapeOf j = p.shapeOf j := by
  rw [shapeOf_eq_taskOf, h.tasks j hj hj', shapeOf_eq_taskOf]

/-- A node that is neither of the two is read by whom it was read, but that the survivor reads for the
input. -/
theorem sole_of_ne {j : String} (hj : j ≠ id) (hj' : j ≠ input)
    (hall : ∀ u, j ∈ q.depsOf u → u = a) {u : String} (hu : j ∈ p.depsOf u) :
    u = input ∧ survivor p id input = a ∨ u ≠ input ∧ u = a := by
  have hid : u ≠ id := fun he => by
    rw [he, h.only, List.mem_singleton] at hu
    exact hj' hu
  by_cases hin : u = input
  · exact Or.inl ⟨hin, hall _ (by rw [h.reads, ← hin]; exact hu)⟩
  · have hread := h.mem_deps hid hin hu
    rw [onto_of_ne hj hj'] at hread
    exact Or.inr ⟨hin, hall u hread⟩

section Mergeable

variable (hg : ∀ t r, (g t).operation = .reorder r →
  ∃ s, t.operation = .reorder s ∧ (r.subtract = [] → s.subtract = []))
include hg

/-- Where the survivor is a reorder the input was one. -/
theorem reorder_survivor {r : Reorder} (hr : q.shapeOf (survivor p id input) = some (.reorder r)) :
    ∃ s, p.shapeOf input = some (.reorder s) ∧ (r.subtract = [] → s.subtract = []) := by
  rw [shapeOf_eq_taskOf, h.task, Option.map_map, Option.map_eq_some_iff] at hr
  obtain ⟨t, ht, hr⟩ := hr
  obtain ⟨s, hs, hsub⟩ := hg t r hr
  exact ⟨s, by rw [shapeOf_eq_taskOf, ht, Option.map_some, hs], hsub⟩

include hl in
/-- If the survivor can be merged with what it reads, the input could be. -/
theorem mergeable_survivor (hm : q.Mergeable (survivor p id input) b) : p.Mergeable input b := by
  obtain ⟨r, hr, hsub⟩ := hm.copy
  obtain ⟨s, hs, hsub'⟩ := h.reorder_survivor hg hr
  have honly : p.depsOf input = [b] := h.reads ▸ hm.only
  obtain ⟨hb, hb'⟩ := h.input_dep_ne hl (honly ▸ List.mem_singleton_self b)
  refine ⟨⟨s, hs, hsub' hsub⟩, honly, ?_, fun u hread => ?_, h.marks ▸ hm.unmarked⟩
  · rw [isReorder, ← h.shape_of_ne hb hb']
    exact hm.reorder
  · rcases h.sole_of_ne hb hb' hm.sole hread with ⟨hu, -⟩ | ⟨hne, hu⟩
    · exact hu
    · -- only the node itself could be another survivor, and that reads the input
      rcases survivor_mem p id input with hs | hs
      · rw [hu, hs, h.only, List.mem_singleton] at hread
        exact absurd hread hb'
      · exact absurd (hu.trans hs) hne

/-- If another reorder can be merged with what it reads, it could be before; or it reads the survivor,
and read one of the two. -/
theorem mergeable_of_ne (hm : q.Mergeable a b) (hne : a ≠ id) (hne' : a ≠ input) :
    p.Mergeable a b ∧ b ≠ id ∧ b ≠ input ∨
      b = survivor p id input ∧ p.isReorder input ∧ p.isCopy a ∧
        (p.depsOf a = [id] ∨ p.depsOf a = [input]) := by
  have honly := hm.only
  rw [h.deps a hne hne'] at honly
  obtain ⟨d, hd⟩ : ∃ d, p.depsOf a = [d] :=
    List.length_eq_one_iff.mp (by rw [← List.length_map (onto p id input), honly]; rfl)
  rw [hd] at honly
  have honto : onto p id input d = b := (List.cons.inj honly).1
  have hcopy : p.isCopy a := by
    rw [isCopy, ← h.shape_of_ne hne hne']
    exact hm.copy
  rcases h.exists_onto (contains_of_isReorder hm.reorder) with rfl | ⟨hb, hb', -⟩
  · obtain ⟨r, hr⟩ := hm.reorder
    obtain ⟨s, hs, -⟩ := h.reorder_survivor hg hr
    refine Or.inr ⟨rfl, ⟨s, hs⟩, hcopy, ?_⟩
    rcases mem_of_onto_survivor honto with rfl | rfl
    · exact Or.inl hd
    · exact Or.inr hd
  · obtain rfl := eq_of_onto honto hb hb'
    refine Or.inl ⟨⟨hcopy, hd, ?_, fun u hread => ?_, h.marks ▸ hm.unmarked⟩, hb, hb'⟩
    · rw [isReorder, ← h.shape_of_ne hb hb']
      exact hm.reorder
    · rcases h.sole_of_ne hb hb' hm.sole hread with ⟨-, hs⟩ | ⟨-, hu⟩
      · rcases survivor_mem p id input with hs' | hs'
        · exact absurd (hs.symm.trans hs') hne
        · exact absurd (hs.symm.trans hs') hne'
      · exact hu

end Mergeable

end Contracted

end Edit

namespace Program

open Edit

variable {p q : Program} {id input u : String} {rest : List String} {g : Task → Task}

/-- No reorder still to visit reads a node that comes behind it. -/
structure Ahead (p : Program) (rest : List String) : Prop where
  nodup : rest.Nodup
  behind : ∀ u ∈ rest, p.isReorder u → ∀ d ∈ p.depsOf u, ¬ Before rest u d

theorem Seated.ahead (h : p.Seated) (hl : p.Linked) : Ahead p p.order.ids where
  nodup := hl.order_nodup
  behind u _ hu d hd := (h.before u d (fun hw => hw.not_isReorder hu) hd).asymm hl.order_nodup

namespace Ahead

variable (h : Ahead p (id :: rest))
include h

theorem tail : Ahead p rest where
  nodup := (List.nodup_cons.mp h.nodup).2
  behind u hu hr d hd hb := h.behind u (List.mem_cons_of_mem _ hu) hr d hd
    (hb.mono (List.sublist_cons_self id rest))

/-- What a reorder reads has been visited when the reorder is. -/
theorem not_mem (hid : p.isReorder id) (hd : input ∈ p.depsOf id) : input ∉ rest := fun hin =>
  h.behind id List.mem_cons_self hid input hd ((List.singleton_sublist.mpr hin).cons_cons id)

/-- Where two nodes become one, neither is still to visit. -/
theorem contracted (hq : Contracted p q id input g) (hid : p.isReorder id) : Ahead q rest := by
  have hid' : id ∉ rest := (List.nodup_cons.mp h.nodup).1
  have hin : input ∉ rest := h.not_mem hid (hq.only ▸ List.mem_singleton_self input)
  refine ⟨h.tail.nodup, fun u hu hr e he hb => ?_⟩
  have hne : ∀ {j}, j ∈ rest → j ≠ id ∧ j ≠ input := fun hj =>
    ⟨fun he => hid' (he ▸ hj), fun he => hin (he ▸ hj)⟩
  obtain ⟨hu₁, hu₂⟩ := hne hu
  obtain ⟨he₁, he₂⟩ := hne hb.mem_right
  rw [hq.deps u hu₁ hu₂] at he
  obtain ⟨d, hd, honto⟩ := List.mem_map.mp he
  obtain rfl := Contracted.eq_of_onto honto he₁ he₂
  refine h.tail.behind u hu ?_ d hd hb
  rw [isReorder, ← hq.shape_of_ne hu₁ hu₂]
  exact hr

end Ahead

theorem Ahead.sameGraph (h : Ahead p rest) (hq : SameGraph p q) : Ahead q rest where
  nodup := h.nodup
  behind u hu hr d hd := by
    rw [isReorder, hq.shapes] at hr
    exact h.behind u hu hr d (hq.deps ▸ hd)

end Program

namespace Pass

variable {p q : Program} {id input a b : String} {bound : Bool}

/-! ## Reorders that can be merged -/

theorem merging_eq_reorder {format : Format} {element : Element} {padding : Padding} (t : Task)
    (r : Reorder) (h : (merging format element padding t).operation = .reorder r) :
    ∃ s, t.operation = .reorder s ∧ (r.subtract = [] → s.subtract = []) := by
  obtain ⟨pad, op, absorbed⟩ := t
  cases op with
  | reorder s =>
    cases h
    exact ⟨s, rfl, fun hs => hs⟩
  | _ => cases h

/-- `q` is `p` with a reorder merged into its input; all but the input keep their layout. -/
structure Joined (p q : Program) (id input : String) (format : Format) (element : Element)
    (padding : Padding) : Prop
    extends Contracted p q id input (merging format element padding) where
  mergeable : p.Mergeable id input
  freshLayout : ∀ j l, j ≠ input → p.freshLayout j = .ok l →
    q.freshLayout (onto p id input j) = .ok l

theorem Merged.joined (h : Merged p q bound id) (hl : p.Linked) :
    ∃ input format element padding, Joined p q id input format element padding := by
  obtain ⟨input, format, element, padding, absorbed, t, r, hcon, htask, ht, hr, husers, hsilent⟩ :=
    h.contracted hl
  refine ⟨input, format, element, padding, hcon,
    ⟨?_, hcon.only, ?_, fun u hu => hl.eq_of_usersOf husers hu, hsilent⟩,
    fun j l hne hj => freshLayout_merging hcon hl htask ht hr husers hne hj⟩
  · exact ⟨_, by rw [shapeOf_eq_taskOf, htask, Option.map_some], rfl⟩
  · exact ⟨r, by rw [shapeOf_eq_taskOf, ht, Option.map_some, hr]⟩

/-- **Which reorders can be merged after two were**: such as could be before. -/
theorem Joined.mergeable_of {format : Format} {element : Element} {padding : Padding}
    (h : Joined p q id input format element padding) (hl : p.Linked) (hm : q.Mergeable a b) :
    p.Mergeable input b ∨ (a ≠ id ∧ a ≠ input) ∧
      (p.Mergeable a b ∧ b ≠ id ∧ b ≠ input ∨ p.Mergeable a id ∧ b = survivor p id input) := by
  have hcon := h.toContracted
  rcases hcon.exists_onto (contains_of_isReorder hm.copy.isReorder) with rfl | ⟨hne, hne', -⟩
  · exact Or.inl (hcon.mergeable_survivor hl merging_eq_reorder hm)
  refine Or.inr ⟨⟨hne, hne'⟩, ?_⟩
  rcases hcon.mergeable_of_ne merging_eq_reorder hm hne hne' with hold | ⟨rfl, -, hcopy, hd | hd⟩
  · exact Or.inl hold
  · refine Or.inr ⟨⟨hcopy, hd, h.mergeable.copy.isReorder, fun u hu => ?_, ?_⟩, rfl⟩
    · have huid : u ≠ id := fun he => hl.dep_ne hu he.symm
      have huin : u ≠ input := fun he => hcon.acyclic (he ▸ hu)
      have hread := hcon.mem_deps huid huin hu
      rw [onto_id] at hread
      exact hm.sole u hread
    · by_contra hmark
      have hs : survivor p id input = id := if_pos (by simpa using hmark)
      have hsilent := hm.unmarked
      rw [hcon.marks, hs] at hsilent
      exact hmark hsilent
  · exact absurd (h.mergeable.sole a (hd ▸ List.mem_singleton_self input)) hne

/-- **Which reorders can be merged after one was removed**: such as could be before.  The input is
not one of them, for it had another user. -/
theorem Elided.mergeable_of (h : Elided p q id input) (hl : p.Linked) (hlive : p.Live)
    (hnot : ¬ p.Mergeable id input) (hm : q.Mergeable a b) :
    p.Mergeable input b ∨ (a ≠ id ∧ a ≠ input) ∧ p.Mergeable a b ∧ b ≠ id ∧ b ≠ input := by
  have hcon := h.extracted.contracted hl
  have hg : ∀ (t : Task) (r : Reorder), t.operation = .reorder r →
      ∃ s, t.operation = .reorder s ∧ (r.subtract = [] → s.subtract = []) := fun _ r hr =>
    ⟨r, hr, fun hs => hs⟩
  rcases hcon.exists_onto (contains_of_isReorder hm.copy.isReorder) with rfl | ⟨hne, hne', -⟩
  · exact Or.inl (hcon.mergeable_survivor hl hg hm)
  refine Or.inr ⟨⟨hne, hne'⟩, ?_⟩
  rcases hcon.mergeable_of_ne hg hm hne hne' with hold | ⟨rfl, hinput, -, hd⟩
  · exact hold
  -- otherwise the survivor has one user, which read one of the two; so nothing read the other
  have hmarks : p.isMarked id = false ∧ p.isMarked input = false := by
    have hsilent := hm.unmarked
    rw [hcon.marks, survivor] at hsilent
    split at hsilent
    case isTrue hmark =>
      rw [hmark] at hsilent
      cases hsilent
    case isFalse hmark => exact ⟨Bool.eq_false_iff.mpr hmark, hsilent⟩
  have hsole : ∀ u j, j ∈ p.depsOf u → j = id ∨ j = input → u ≠ id → u ≠ input → u = a := by
    intro u j hu hj huid huin
    have hread := hcon.mem_deps huid huin hu
    rw [onto, if_pos hj] at hread
    exact hm.sole u hread
  exfalso
  rcases hd with hd | hd
  · refine hnot ⟨h.copy, hcon.only, hinput, fun u hu => ?_, hmarks.2⟩
    by_contra huid
    have hua := hsole u input hu (Or.inr rfl) huid fun he => hl.irrefl u (he ▸ hu)
    rw [hua, hd, List.mem_singleton] at hu
    exact hcon.ne hl hu
  · have hthere : p.contains id = true := contains_of_isReorder h.copy.isReorder
    rcases hlive id hthere with hm' | ⟨u, hu⟩ | hk
    · rw [hmarks.1] at hm'
      cases hm'
    · have huid : u ≠ id := fun he => hl.dep_ne hu he.symm
      have huin : u ≠ input := fun he => hcon.acyclic (he ▸ hu)
      rw [hsole u id hu (Or.inl rfl) huid huin, hd, List.mem_singleton] at hu
      exact hcon.ne hl hu.symm
    · rw [kindOf_of_isReorder h.copy.isReorder] at hk
      cases hk

/-! ## What the host computes -/

theorem exists_shapeOf_of_kindOf {k : OpKind} (h : p.kindOf id = some k) :
    ∃ op, p.shapeOf id = some op ∧ op.kind = k := by
  rw [kindOf, Option.map_eq_some_iff] at h
  exact h

section Joined

variable {format : Format} {element : Element} {padding : Padding} {j : String}
  (h : Joined p q id input format element padding)
include h

theorem Joined.kind_survivor : q.kindOf (survivor p id input) = some .reorder := by
  rw [h.toContracted.kind_survivor (kind_merging format element padding),
    kindOf_of_isReorder h.mergeable.reorder]

/-- **What was fit is fit**, but for the first of the two. -/
theorem Joined.fit (hl : p.Linked) (hg : p.Grounded) (hj : p.Fit j) (hne : j ≠ input) :
    q.Fit (onto p id input j) := by
  have hcon := h.toContracted
  have hkind := kindOf_of_isReorder h.mergeable.copy.isReorder
  -- the second takes over what the first reads
  suffices hall : (j ≠ input → q.Fit (onto p id input j)) ∧
      ∀ d ∈ p.depsOf j, d ≠ input → q.Fit (onto p id input d) from hall.1 hne
  clear hne
  induction hj with
  | @literal j l v shape placed =>
    refine ⟨fun hne => ?_, fun d hd _ => ?_⟩
    · have hid : j ≠ id := fun he => by
        rw [← he, kindOf_of_shapeOf shape] at hkind
        cases hkind
      rw [onto_of_ne hid hne]
      exact .literal ((hcon.shape_of_ne hid hne).trans shape) placed
    · rw [hg j (kindOf_of_shapeOf shape)] at hd
      cases hd
  | @computed j op l shape evaluated laid placed reads ih =>
    refine ⟨fun hne => ?_, fun d hd hd' => (ih d hd).1 hd'⟩
    have hlaid := h.freshLayout j l hne laid
    by_cases hid : j = id
    · subst hid
      rw [onto_id] at hlaid ⊢
      obtain ⟨op', hop', hk'⟩ := exists_shapeOf_of_kindOf h.kind_survivor
      rw [kindOf_of_shapeOf shape, Option.some.injEq] at hkind
      refine .computed hop' (by rw [hk', ← hkind, evaluated]) hlaid placed fun d hd => ?_
      rw [hcon.reads] at hd
      obtain ⟨hd₁, hd₂⟩ := hcon.input_dep_ne hl hd
      rw [← onto_of_ne (p := p) hd₁ hd₂]
      exact (ih input (hcon.only ▸ List.mem_singleton_self input)).2 d hd hd₂
    · rw [onto_of_ne hid hne] at hlaid ⊢
      refine .computed ((hcon.shape_of_ne hid hne).trans shape) evaluated hlaid placed fun e he => ?_
      rw [hcon.deps j hid hne] at he
      obtain ⟨d, hd, rfl⟩ := List.mem_map.mp he
      exact (ih d hd).1 fun hself => hid (h.mergeable.sole j (hself ▸ hd))

/-- **What was unfit is unfit**, if the first of the two was fit. -/
theorem Joined.unfit (hin : p.Fit input) (hj : p.Unfit j) (hne : j ≠ input) :
    q.Unfit (onto p id input j) := by
  have hcon := h.toContracted
  have hkind := kindOf_of_isReorder h.mergeable.copy.isReorder
  have hsame : ∀ {j op}, p.shapeOf j = some op → j ≠ input → ∃ op',
      q.shapeOf (onto p id input j) = some op' ∧ op'.kind = op.kind := by
    intro j op hop hne
    by_cases hid : j = id
    · subst hid
      rw [onto_id]
      rw [kindOf_of_shapeOf hop, Option.some.injEq] at hkind
      rw [hkind]
      exact exists_shapeOf_of_kindOf h.kind_survivor
    · rw [onto_of_ne hid hne]
      exact ⟨op, (hcon.shape_of_ne hid hne).trans hop, rfl⟩
  induction hj with
  | @literal j l v shape scattered =>
    have hid : j ≠ id := fun he => by
      rw [← he, kindOf_of_shapeOf shape] at hkind
      cases hkind
    rw [onto_of_ne hid hne]
    exact .literal ((hcon.shape_of_ne hid hne).trans shape) scattered
  | kind shape computed declined =>
    obtain ⟨op', hop', hk'⟩ := hsame shape hne
    exact .kind hop' (hk' ▸ computed) (hk' ▸ declined)
  | layout shape computed laid scattered =>
    obtain ⟨op', hop', hk'⟩ := hsame shape hne
    exact .layout hop' (hk' ▸ computed) (h.freshLayout _ _ hne laid) scattered
  | @reads j op d shape computed read unfit ih =>
    have hd : d ≠ input := fun he => hin.not_unfit (he ▸ unfit)
    have hid : j ≠ id := fun he => by
      rw [he, hcon.only, List.mem_singleton] at read
      exact hd read
    obtain ⟨op', hop', hk'⟩ := hsame shape hne
    refine .reads hop' (hk' ▸ computed) ?_ (ih hd)
    rw [onto_of_ne hid hne]
    exact hcon.mem_deps hid hne read

end Joined

/-- All but the reorder do what they did and read what they read. -/
theorem Elided.view_onto (h : Elided p q id input) (hl : p.Linked) {j : String} (hj : j ≠ id) :
    q.shapeOf (onto p id input j) = p.shapeOf j ∧
    q.depsOf (onto p id input j) = (p.depsOf j).map (onto p id input) := by
  have hcon := h.extracted.contracted hl
  by_cases hin : j = input
  · rw [hin, onto_input, hcon.reads, hcon.map_onto hl, shapeOf_eq_taskOf, hcon.task, Option.map_id',
      shapeOf_eq_taskOf]
    exact ⟨rfl, rfl⟩
  · rw [onto_of_ne hj hin, hcon.shape_of_ne hj hin, hcon.deps j hj hin]
    exact ⟨rfl, rfl⟩

section Dropped

variable {j : String} (h : Dropped p q id input) (hl : p.Linked)
include h hl

/-- **What was fit is fit.** -/
theorem Dropped.fit (hj : p.Fit j) : q.Fit (onto p id input j) := by
  have hcon := h.extracted.contracted hl
  induction hj with
  | @literal j l v shape placed =>
    have hid : j ≠ id := fun he => by
      have hkind := kindOf_of_isReorder h.copy.isReorder
      rw [← he, kindOf_of_shapeOf shape] at hkind
      cases hkind
    exact .literal ((h.view_onto hl hid).1.trans shape) placed
  | @computed j op l shape evaluated laid placed reads ih =>
    by_cases hid : j = id
    · rw [hid, onto_id, ← onto_input]
      exact ih input (by rw [hid, hcon.only]; exact List.mem_singleton_self input)
    · obtain ⟨hshape, hdeps⟩ := h.view_onto hl hid
      refine .computed (hshape.trans shape) evaluated (h.freshLayout hl laid) placed fun e he => ?_
      rw [hdeps] at he
      obtain ⟨d, hd, rfl⟩ := List.mem_map.mp he
      exact ih d hd

/-- **What was unfit is unfit.** -/
theorem Dropped.unfit (hb : p.behaviours.find .data = .ok .data) (hj : p.Unfit j) :
    q.Unfit (onto p id input j) := by
  have hcon := h.extracted.contracted hl
  have hkind : ∀ {op}, p.shapeOf id = some op → op.kind = .reorder := fun hop => by
    have hkind := kindOf_of_isReorder h.copy.isReorder
    rwa [kindOf_of_shapeOf hop, Option.some.injEq] at hkind
  induction hj with
  | @literal j l v shape scattered =>
    have hid : j ≠ id := fun he => by cases hkind (he ▸ shape)
    exact .literal ((h.view_onto hl hid).1.trans shape) scattered
  | @kind j op shape computed declined =>
    have hid : j ≠ id := fun he => by
      rw [hkind (he ▸ shape)] at declined
      cases declined
    exact .kind ((h.view_onto hl hid).1.trans shape) computed declined
  | @layout j op l shape computed laid scattered =>
    by_cases hid : j = id
    · -- the input has the same layout, be it a literal or not
      subst hid
      obtain ⟨l', hself, hin⟩ := h.layout
      obtain rfl : l = l' := Except.ok.inj (laid.symm.trans hself)
      obtain ⟨n, hn⟩ := contains_iff.mp (hl.contains_dep
        (hcon.only ▸ List.mem_singleton_self input))
      have hshape : p.shapeOf input = some n.operation.shape := by rw [shapeOf, hn, Option.map_some]
      have hq := (h.view_onto hl (hcon.ne hl)).1.trans hshape
      rw [onto_id, ← onto_input]
      by_cases hdata : n.operation.shape.kind = .data
      · obtain ⟨l₀, v, hop⟩ : ∃ l₀ v, n.operation.shape = .data l₀ v := by
          generalize n.operation.shape = op at hdata
          cases op <;> first | exact ⟨_, _, rfl⟩ | cases hdata
        have hlit : l = l₀ := by
          rw [freshLayout_eq hn, bind_eq_ok_iff] at hin
          obtain ⟨inputs, -, hrule⟩ := hin
          exact ((rule_literal (operation_of_shape hop) hb inputs).mp hrule).2
        exact .literal (hq.trans (congrArg some hop)) (hlit ▸ scattered)
      · exact .layout hq hdata (h.freshLayout hl hin) scattered
    · exact .layout ((h.view_onto hl hid).1.trans shape) computed (h.freshLayout hl laid) scattered
  | @reads j op d shape computed read unfit ih =>
    by_cases hid : j = id
    · rw [hid, hcon.only, List.mem_singleton] at read
      rw [hid, onto_id, ← onto_input]
      rwa [read] at ih
    · obtain ⟨hshape, hdeps⟩ := h.view_onto hl hid
      refine .reads (hshape.trans shape) computed ?_ ih
      rw [hdeps]
      exact List.mem_map_of_mem read

end Dropped

/-- A reorder that has to stay has to stay when another one is removed. -/
theorem Dropped.fixed {j : String} (h : Dropped p q id input) (hl : p.Linked) (hj : j ≠ id)
    (hfix : p.Fixed j) : q.Fixed (onto p id input j) := by
  have hcon := h.extracted.contracted hl
  intro hcopy e honly
  obtain ⟨hshape, hdeps⟩ := h.view_onto hl hj
  rw [hdeps] at honly
  obtain ⟨s, hs⟩ := List.length_eq_one_iff.mp
    (show (p.depsOf j).length = 1 by rw [← List.length_map (onto p id input), honly]; rfl)
  rw [hs] at honly
  obtain rfl : onto p id input s = e := (List.cons.inj honly).1
  have hmarks : ∀ {i}, p.isMarked i = true → q.isMarked (onto p id input i) = true := fun hi => by
    rw [hcon.onto_of_marked hi, hcon.marks, hi]
  rcases hfix (by rwa [isCopy, ← hshape]) s hs with ⟨hm, hk⟩ | ⟨l, l', hself, hinput, hboth⟩
  · have hsid : s ≠ id := fun he => by
      rw [he, kindOf_of_isReorder h.copy.isReorder] at hk
      cases hk
    exact Or.inl ⟨hmarks hm, (kindOf_congr (h.view_onto hl hsid).1).trans hk⟩
  · exact Or.inr ⟨l, l', h.freshLayout hl hself, h.freshLayout hl hinput, fun he =>
      (hboth he).imp hmarks hmarks⟩

/-- There is nothing left to fold: what the host is asked for is unfit, and so may be what merging
brings up, for that only merges reorders behind a fit one. -/
structure Spent (p : Program) : Prop where
  asked : ∀ j, p.Asked j → p.Unfit j
  mergeable : ∀ a b, p.Mergeable a b → p.Fit b

section Spent

variable {j : String} (hl : p.Linked) (hf : p.Flagged)
include hl hf

/-- A reorder is constant if its input is. -/
theorem isConstant_of_only (hid : p.isReorder id) (only : p.depsOf id = [input]) :
    p.isConstant id = p.isConstant input := by
  obtain ⟨r, hr⟩ := hid
  exact isConstant_congr (hf.flagsOf_of_only hl only ⟨_, hr, rfl⟩)

theorem Joined.spent {format : Format} {element : Element} {padding : Padding}
    (h : Joined p q id input format element padding) (hg : p.Grounded) (hs : Spent p) : Spent q := by
  have hcon := h.toContracted
  have hin : p.Fit input := hs.mergeable id input h.mergeable
  have hconst : p.isConstant input = true := hin.isConstant hf
  have hself : q.isConstant (survivor p id input) = true := by rw [isConstant_congr hcon.flag, hconst]
  have hother : ∀ {u}, u ≠ id → u ≠ input → q.isConstant u = p.isConstant u := fun hu hu' =>
    isConstant_congr (hcon.flags _ hu hu')
  -- a reader that is not constant is not the survivor
  have hreader : ∀ {j u}, j ∈ q.depsOf u → q.isConstant u = false →
      u ≠ id ∧ p.isConstant u = false ∧ ∃ d ∈ p.depsOf u, onto p id input d = j := by
    intro j u hu hc
    rcases hcon.reader hu with ⟨rfl, -⟩ | ⟨⟨hne, hne'⟩, hd⟩
    · rw [hself] at hc
      cases hc
    · exact ⟨hne, hother hne hne' ▸ hc, hd⟩
  refine ⟨fun j hj => ?_, fun a b hm => ?_⟩
  · rcases hcon.exists_onto (contains_of_isConstant hj.constant) with rfl | ⟨hne, hne', -⟩
    · -- what asks for the survivor asked for the second of the two
      rw [← onto_id]
      refine h.unfit hin (hs.asked id ⟨?_, ?_, ?_⟩) (hcon.ne hl).symm
      · rw [isConstant_of_only hl hf h.mergeable.copy.isReorder hcon.only, hconst]
      · rw [kindOf_of_isReorder h.mergeable.copy.isReorder]
        rintro ⟨⟩
      · refine hj.needed.imp (fun hm => ?_) fun hread => ?_
        · rw [hcon.marks, survivor] at hm
          split at hm
          case isTrue hmark => exact hmark
          case isFalse =>
            rw [h.mergeable.unmarked] at hm
            cases hm
        · obtain ⟨u, hu, hc⟩ := hread
          obtain ⟨hne, hc', d, hd, honto⟩ := hreader hu hc
          refine ⟨u, ?_, hc'⟩
          rcases Contracted.mem_of_onto_survivor honto with rfl | rfl
          · exact hd
          · exact absurd (h.mergeable.sole u hd) hne
    · rw [← onto_of_ne (p := p) hne hne']
      refine h.unfit hin (hs.asked j ⟨hother hne hne' ▸ hj.constant, ?_, ?_⟩) hne'
      · rw [← hcon.kind_of_ne hne hne']
        exact hj.computed
      · rw [← hcon.marks]
        refine hj.needed.imp_right fun hread => ?_
        obtain ⟨u, hu, hc⟩ := hread
        obtain ⟨-, hc', d, hd, honto⟩ := hreader hu hc
        obtain rfl := Contracted.eq_of_onto honto hne hne'
        exact ⟨u, hd, hc'⟩
  · rcases h.mergeable_of hl hm with hm' | ⟨-, ⟨hm', hne, hne'⟩ | ⟨hm', rfl⟩⟩
    · obtain ⟨hne, hne'⟩ := hcon.input_dep_ne hl (hm'.only ▸ List.mem_singleton_self b)
      rw [← onto_of_ne (p := p) hne hne']
      exact h.fit hl hg (hs.mergeable _ _ hm') hne'
    · rw [← onto_of_ne (p := p) hne hne']
      exact h.fit hl hg (hs.mergeable _ _ hm') hne'
    · rw [← onto_id]
      exact h.fit hl hg (hs.mergeable _ _ hm') (hcon.ne hl).symm

theorem Dropped.spent (h : Dropped p q id input) (hb : p.behaviours.find .data = .ok .data)
    (hlive : p.Live) (hnot : ¬ p.Mergeable id input) (hs : Spent p) : Spent q := by
  have hcon := h.extracted.contracted hl
  have hself : q.isConstant (survivor p id input) = p.isConstant input := isConstant_congr hcon.flag
  have hother : ∀ {u}, u ≠ id → u ≠ input → q.isConstant u = p.isConstant u := fun hu hu' =>
    isConstant_congr (hcon.flags _ hu hu')
  refine ⟨fun j hj => ?_, fun a b hm => ?_⟩
  · rcases hcon.exists_onto (contains_of_isConstant hj.constant) with rfl | ⟨hne, hne', -⟩
    · -- what asks for the survivor asked for one of the two
      have hconst : p.isConstant input = true := hself ▸ hj.constant
      have hinput : (p.isMarked input = true ∨ ∃ u, input ∈ p.depsOf u ∧ p.isConstant u = false) →
          q.Unfit (survivor p id input) := fun hneed => by
        rw [← onto_input]
        refine h.unfit hl hb (hs.asked input ⟨hconst, ?_, hneed⟩)
        rw [← hcon.kind_survivor fun _ => rfl]
        exact hj.computed
      have hid : (p.isMarked id = true ∨ ∃ u, id ∈ p.depsOf u ∧ p.isConstant u = false) →
          q.Unfit (survivor p id input) := fun hneed => by
        rw [← onto_id]
        refine h.unfit hl hb (hs.asked id ⟨?_, ?_, hneed⟩)
        · rw [isConstant_of_only hl hf h.copy.isReorder hcon.only, hconst]
        · rw [kindOf_of_isReorder h.copy.isReorder]
          rintro ⟨⟩
      rcases hj.needed with hm | ⟨u, hu, hc⟩
      · rw [hcon.marks, survivor] at hm
        split at hm
        case isTrue hmark => exact hid (Or.inl hmark)
        case isFalse => exact hinput (Or.inl hm)
      · rcases hcon.reader hu with ⟨rfl, -⟩ | ⟨⟨hne, hne'⟩, d, hd, honto⟩
        · exact absurd hu (hcon.kept.linked.irrefl _)
        · rw [hother hne hne'] at hc
          rcases Contracted.mem_of_onto_survivor honto with rfl | rfl
          · exact hid (Or.inr ⟨u, hd, hc⟩)
          · exact hinput (Or.inr ⟨u, hd, hc⟩)
    · rw [← onto_of_ne (p := p) hne hne']
      refine h.unfit hl hb (hs.asked j ⟨hother hne hne' ▸ hj.constant, ?_, ?_⟩)
      · rw [← hcon.kind_of_ne hne hne']
        exact hj.computed
      · rw [← hcon.marks]
        refine hj.needed.imp_right fun hread => ?_
        obtain ⟨u, hu, hc⟩ := hread
        rcases hcon.reader hu with ⟨rfl, hd⟩ | ⟨⟨hu₁, hu₂⟩, d, hd, honto⟩
        · exact ⟨input, hd, hself ▸ hc⟩
        · obtain rfl := Contracted.eq_of_onto honto hne hne'
          exact ⟨u, hd, hother hu₁ hu₂ ▸ hc⟩
  · rcases h.mergeable_of hl hlive hnot hm with hm' | ⟨-, hm', hne, hne'⟩
    · obtain ⟨hne, hne'⟩ := hcon.input_dep_ne hl (hm'.only ▸ List.mem_singleton_self b)
      rw [← onto_of_ne (p := p) hne hne']
      exact h.fit hl (hs.mergeable _ _ hm')
    · rw [← onto_of_ne (p := p) hne hne']
      exact h.fit hl (hs.mergeable _ _ hm')

end Spent

end Pass

end NetPlan
