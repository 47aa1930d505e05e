import Mathlib.Data.Finset.Card
import Mathlib.Order.Monotone.Basic
import NetPlan.Proofs.Graph.WellFormed

/-!
# Proofs/Layout/Fresh — layouts without a cache

`freshWithin` is the layout of a node computed from primitives and edges alone, as deep as it is
told; `freshLayout` goes deeper than there are nodes.  A program is **coherent** when every cached
layout is the fresh one.

* `freshWithin_size_add` — deeper than there are nodes nothing new can be found;
* `freshLayout_eq` — so the fresh layout of a node follows from those of its dependencies;
* `Coherent.frame` — a change is harmless for the caches that are kept if these nodes, and all they
  depend on, are as they were;
* `Coherent.invalidate` — so a node may be changed at will, if everything downstream is invalidated.
-/

namespace NetPlan

section Except

variable {ε α β : Type}

/-- Two steps succeed if each does. -/
theorem bind_eq_ok_iff {x : Except ε α} {f : α → Except ε β} {b : β} :
    x >>= f = .ok b ↔ ∃ a, x = .ok a ∧ f a = .ok b := by
  cases x with
  | error e => simp [bind, Except.bind]
  | ok a => simp [bind, Except.bind]

/-- A list of steps succeeds if all do. -/
theorem mapM_eq_ok_iff {f : α → Except ε β} : ∀ {xs : List α} {ys : List β},
    xs.mapM f = .ok ys ↔ List.Forall₂ (fun x y => f x = .ok y) xs ys
  | [], ys => by
      rw [List.mapM_nil, List.forall₂_nil_left_iff]
      exact ⟨fun h => (Except.ok.inj h).symm, fun h => h ▸ rfl⟩
  | x :: xs, ys => by
      rw [List.mapM_cons, List.forall₂_cons_left_iff]
      simp only [← mapM_eq_ok_iff]
      cases f x with
      | error e => simp [bind, Except.bind]
      | ok b =>
        cases xs.mapM f with
        | error e => simp [bind, Except.bind]
        | ok bs => simp [bind, Except.bind, pure, Except.pure, eq_comm]

/-- Steps that are the same on the list. -/
theorem mapM_congr {f g : α → Except ε β} : ∀ {xs : List α}, (∀ x ∈ xs, f x = g x) →
    xs.mapM f = xs.mapM g
  | [], _ => by rw [List.mapM_nil, List.mapM_nil]
  | x :: xs, h => by
      rw [List.mapM_cons, List.mapM_cons, h x List.mem_cons_self,
        mapM_congr fun y hy => h y (List.mem_cons_of_mem _ hy)]

/-- Success of two steps, whatever the result. -/
theorem exists_bind_iff {x : Except ε α} {f : α → Except ε β} :
    (∃ b, x >>= f = .ok b) ↔ ∃ a, x = .ok a ∧ ∃ b, f a = .ok b := by
  simp only [bind_eq_ok_iff]
  exact ⟨fun ⟨b, a, ha, hb⟩ => ⟨a, ha, b, hb⟩, fun ⟨a, ha, b, hb⟩ => ⟨b, a, ha, hb⟩⟩

/-- Where what follows does not need the value. -/
theorem exists_bind_iff_and {x : Except ε α} {f : α → Except ε β} {p : Prop}
    (hf : ∀ a, (∃ b, f a = .ok b) ↔ p) :
    (∃ b, x >>= f = .ok b) ↔ (∃ a, x = .ok a) ∧ p := by
  simp only [exists_bind_iff, hf, exists_and_right]

/-- A list can be mapped iff each of its entries can. -/
theorem exists_mapM_iff {f : α → Except ε β} : ∀ {xs : List α},
    (∃ ys, xs.mapM f = .ok ys) ↔ ∀ x ∈ xs, ∃ y, f x = .ok y
  | [] => iff_of_true ⟨[], List.mapM_nil⟩ fun _ hx => absurd hx List.not_mem_nil
  | x :: xs => by
      rw [List.mapM_cons, List.forall_mem_cons, ← exists_mapM_iff, exists_bind_iff]
      refine ⟨fun ⟨y, hy, h⟩ => ⟨⟨y, hy⟩, ?_⟩, fun ⟨⟨y, hy⟩, ys, hys⟩ => ⟨y, hy, ?_⟩⟩
      · obtain ⟨ys, hys, -⟩ := exists_bind_iff.mp h
        exact ⟨ys, hys⟩
      · exact exists_bind_iff.mpr ⟨ys, hys, y :: ys, rfl⟩

/-- A fold whose steps can all be made, as long as they keep what they need, can be made. -/
theorem exists_foldlM {f : β → α → Except ε β} (P : β → Prop) : ∀ (xs : List α) {b : β},
    (∀ a ∈ xs, ∀ b, P b → ∃ b', f b a = .ok b' ∧ P b') → P b →
    ∃ b', xs.foldlM f b = .ok b' ∧ P b'
  | [], b, _, hb => ⟨b, rfl, hb⟩
  | a :: xs, b, step, hb => by
      obtain ⟨b₁, h₁, hb₁⟩ := step a List.mem_cons_self b hb
      obtain ⟨b', h', hb'⟩ :=
        exists_foldlM P xs (fun a ha => step a (List.mem_cons_of_mem _ ha)) hb₁
      exact ⟨b', by rw [List.foldlM_cons]; exact bind_eq_ok_iff.mpr ⟨b₁, h₁, h'⟩, hb'⟩

end Except

/-! ## What all results have -/

section Yields

variable {ε α β : Type} {P : α → Prop} {Q : β → Prop}

/-- A computation has only results with a property. -/
def Yields (P : α → Prop) (x : Except ε α) : Prop := ∀ a, x = .ok a → P a

/-- A failure yields nothing. -/
theorem yields_error (e : ε) : Yields P (.error e) := fun _ h => nomatch h

/-- A result of which it holds. -/
theorem yields_pure {a : α} (h : P a) : Yields P (pure a : Except ε α) := fun _ ha =>
  Except.ok.inj ha ▸ h

/-- One step after another. -/
theorem Yields.bind {x : Except ε α} {f : α → Except ε β} (hx : Yields P x)
    (hf : ∀ a, P a → Yields Q (f a)) : Yields Q (x >>= f) := fun b hb => by
  obtain ⟨a, ha, hb⟩ := bind_eq_ok_iff.mp hb
  exact hf a (hx a ha) b hb

/-- Whatever the first computation comes to. -/
theorem yields_bind {x : Except ε α} {f : α → Except ε β} (hf : ∀ a, Yields Q (f a)) :
    Yields Q (x >>= f) :=
  Yields.bind (P := fun _ => True) (fun _ _ => trivial) fun a _ => hf a

/-- Whether a check fails or not. -/
theorem yields_guard {c : Prop} [Decidable c] {y : Except ε Unit} {f : Unit → Except ε β}
    (hf : ∀ u, Yields Q (f u)) : Yields Q (if c then y >>= f else f ()) := by
  split
  · exact yields_bind hf
  · exact hf ()

/-- It holds of all results of a list of steps. -/
theorem yields_mapM {f : α → Except ε β} : ∀ {as : List α}, (∀ a ∈ as, Yields Q (f a)) →
    Yields (fun bs => ∀ b ∈ bs, Q b) (as.mapM f)
  | [], _ => by
      rw [List.mapM_nil]
      exact yields_pure fun _ h => absurd h List.not_mem_nil
  | a :: as, hf => by
      obtain ⟨ha, has⟩ := List.forall_mem_cons.mp hf
      rw [List.mapM_cons]
      exact ha.bind fun _ hb => (yields_mapM has).bind fun _ hbs =>
        yields_pure (List.forall_mem_cons.mpr ⟨hb, hbs⟩)

end Yields

/-! ## Lists that are related entry by entry -/

section Forall

variable {α β γ : Type} {R : α → β → Prop} {S : β → γ → Prop}

/-- What one of two related lists holds is related to something in the other. -/
theorem exists_mem_of_forall₂ {as : List α} {bs : List β} (h : List.Forall₂ R as bs) :
    ∀ a ∈ as, ∃ b ∈ bs, R a b := by
  induction h with
  | nil => exact fun _ ha => absurd ha List.not_mem_nil
  | cons hab _ ih =>
    intro a ha
    rcases List.mem_cons.mp ha with rfl | ha
    · exact ⟨_, List.mem_cons_self, hab⟩
    · obtain ⟨b, hb, hr⟩ := ih a ha
      exact ⟨b, List.mem_cons_of_mem _ hb, hr⟩

/-- What stands at an index of the one is related to what stands there in the other. -/
theorem exists_getElem?_of_forall₂ : ∀ {as : List α} {bs : List β} {i : Nat} {a : α},
    List.Forall₂ R as bs → as[i]? = some a → ∃ b, bs[i]? = some b ∧ R a b
  | _, _, 0, _, .cons hab _, ha => ⟨_, rfl, Option.some.inj ha ▸ hab⟩
  | _, _, i + 1, _, .cons _ h, ha => by
      obtain ⟨b, hb, hr⟩ := exists_getElem?_of_forall₂ (i := i) h ha
      exact ⟨b, hb, hr⟩

/-- Relations between lists compose. -/
theorem forall₂_comp {T : α → γ → Prop} (hT : ∀ a b c, R a b → S b c → T a c) :
    ∀ {as : List α} {bs : List β} {cs : List γ}, List.Forall₂ R as bs → List.Forall₂ S bs cs →
      List.Forall₂ T as cs
  | _, _, _, .nil, .nil => .nil
  | _, _, _, .cons hr hrs, .cons hs hss => .cons (hT _ _ _ hr hs) (forall₂_comp hT hrs hss)

/-- Two relations with a middle term have a list of middle terms. -/
theorem exists_forall₂ : ∀ {as : List α} {cs : List γ},
    List.Forall₂ (fun a c => ∃ b, R a b ∧ S b c) as cs →
      ∃ bs, List.Forall₂ R as bs ∧ List.Forall₂ S bs cs
  | _, _, .nil => ⟨[], .nil, .nil⟩
  | _, _, .cons ⟨b, hr, hs⟩ h => by
      obtain ⟨bs, hrs, hss⟩ := exists_forall₂ h
      exact ⟨b :: bs, .cons hr hrs, .cons hs hss⟩

/-- Lists that are related stay so along a function. -/
theorem forall₂_map_of_mem {R' : α → β → Prop} {f : α → α} : ∀ {as : List α} {bs : List β},
    (∀ a ∈ as, ∀ b, R a b → R' (f a) b) → List.Forall₂ R as bs → List.Forall₂ R' (as.map f) bs
  | _, _, _, .nil => .nil
  | _, _, h, .cons hr hrs => .cons (h _ List.mem_cons_self _ hr)
      (forall₂_map_of_mem (fun a ha => h a (List.mem_cons_of_mem _ ha)) hrs)

end Forall

/-! ## Running too deep -/

/-- Whether an error stands for a computation without end. -/
def CompileError.isEndless : CompileError → Bool
  | .fault .endless => true
  | _ => false

section Settled

variable {α β : Type} {x : Except CompileError α} {f g : α → Except CompileError β}

/-- Whether a computation came to its end. -/
def settled : Except CompileError α → Bool
  | .error e => !e.isEndless
  | .ok _ => true

/-- The one result that is not settled. -/
theorem eq_endless_of_not_settled (h : ¬ settled x = true) : x = .error (.fault .endless) := by
  cases x with
  | ok a => exact absurd rfl h
  | error e =>
    change ¬ (!e.isEndless) = true at h
    unfold CompileError.isEndless at h
    split at h
    · rfl
    · exact absurd rfl h

/-- If two steps are settled, the first one is. -/
theorem settled_of_bind (h : settled (x >>= f) = true) : settled x = true := by
  by_contra hx
  rw [eq_endless_of_not_settled hx] at h
  cases h

/-- Where every element that is settled stays as it is, a list that is settled does. -/
theorem mapM_settled : ∀ {xs : List α}, (∀ a ∈ xs, settled (f a) = true → g a = f a) →
    settled (xs.mapM f) = true → xs.mapM g = xs.mapM f
  | [], _, _ => by rw [List.mapM_nil, List.mapM_nil]
  | a :: xs, hfg, h => by
      rw [List.mapM_cons] at h
      rw [List.mapM_cons, List.mapM_cons, hfg a List.mem_cons_self (settled_of_bind h)]
      cases ha : f a with
      | error e => rfl
      | ok b =>
        rw [ha] at h
        rw [mapM_settled (fun c hc => hfg c (List.mem_cons_of_mem _ hc))
          (settled_of_bind (x := xs.mapM f) h)]

end Settled

/-! ## The rule of a node -/

namespace Node

/-- An input that is found stands in its place. -/
theorem inputAt_eq_ok {inputs : List Layout} {index : Nat} {l : Layout}
    (h : inputAt inputs index = .ok l) : inputs[index]? = some l := by
  unfold inputAt at h
  split at h
  case h_1 l' hl => exact hl.trans (congrArg some (Except.ok.inj h))
  case h_2 => cases h

/-- What the layout rule of a node reads of it: no argument, no edge, no mark. -/
def outline (n : Node) : Primitive := ⟨n.id, n.padding, n.operation.shape⟩

/-- The layout rule of a node. -/
def rule (b : Behaviours) (n : Node) (inputs : List Layout) : Except CompileError Layout := do
  let kind ← b.find n.kind
  kind.outputLayout n inputs

/-- The rule of a kind is its layout, if the kind is registered. -/
theorem rule_eq (b : Behaviours) (n : Node) (inputs : List Layout) :
    n.rule b inputs = b.find n.kind >>= fun _ => n.outputLayout inputs := by
  rw [rule, Behaviours.find]
  split
  · change (n.kind.expect n >>= fun _ => n.outputLayout inputs) = _
    rw [OpKind.expect, if_pos rfl]
    rfl
  · rfl

@[simp] theorem core_outline (n : Node) : n.core.outline = n.outline := by
  change (⟨n.id, n.padding, n.operation.shape.shape⟩ : Primitive) = _
  rw [Operation.shape_shape, outline]

/-- **Nodes of one outline have one rule.** -/
theorem rule_congr {m n : Node} (h : m.outline = n.outline) (b : Behaviours)
    (inputs : List Layout) : m.rule b inputs = n.rule b inputs := by
  have hkind : m.kind = n.kind := by
    have hop : m.operation.shape.kind = n.operation.shape.kind :=
      congrArg (·.operation.kind) h
    rwa [Operation.kind_shape, Operation.kind_shape] at hop
  have hlayout : m.outputLayout inputs = n.outputLayout inputs := by
    rw [← m.outputLayout_core, ← n.outputLayout_core]
    have hprim : m.core.primitive = n.core.primitive := h
    unfold outputLayout Node.operation
    rw [hprim]
    cases n.core.primitive.operation <;>
    simp only [dataLayout, convolutionLayout, fullyConnectedLayout, poolingLayout, sameAsInput,
      eltwiseLayout, concatenationLayout, expectInputs, padded, windowPositions, invalid,
      Node.padding, Node.id, hprim]
  rw [rule_eq, rule_eq, hkind, hlayout]

end Node

namespace Program

/-- The outline of a node. -/
def outlineOf (p : Program) (id : String) : Option Primitive := (p.node? id).map Node.outline

/-- The outline is part of the core. -/
theorem outlineOf_eq_coreOf (p : Program) (id : String) :
    p.outlineOf id = (p.coreOf id).map Node.outline := by
  rw [outlineOf, coreOf, Option.map_map]
  exact congrArg (fun f => (p.node? id).map f) (funext fun n => n.core_outline.symm)

/-- The layout of a node as its primitive and the layouts of its dependencies give it, and theirs
in the same way, up to a depth. -/
def freshWithin (p : Program) : Nat → String → Except CompileError Layout
  | 0, _ => .error (.fault .endless)
  | depth + 1, id => do
    let n ← p.node id
    let inputs ← n.dependencies.mapM (p.freshWithin depth)
    n.rule p.behaviours inputs

/-- The layout of a node computed without a cache. -/
def freshLayout (p : Program) (id : String) : Except CompileError Layout :=
  p.freshWithin (p.size + 1) id

/-- Every cached layout is the fresh one. -/
def Coherent (p : Program) : Prop :=
  ∀ id l, p.layoutOf id = some l → p.freshLayout id = .ok l

variable {p q : Program} {id : String} {n : Node} {l : Layout} {depth : Nat}

/-- A layout, from those that the node reads, one step deeper. -/
theorem freshWithin_succ (h : p.node? id = some n) (depth : Nat) :
    p.freshWithin (depth + 1) id
      = n.dependencies.mapM (p.freshWithin depth) >>= n.rule p.behaviours := by
  rw [freshWithin, node, h]
  rfl

/-- A node that is missing has no layout at any depth. -/
theorem freshWithin_succ_none (h : p.node? id = none) (depth : Nat) :
    p.freshWithin (depth + 1) id = .error (.missingNode id) := by
  rw [freshWithin, node, h]
  rfl

/-- When there is a layout within a depth. -/
theorem freshWithin_succ_eq_ok_iff :
    p.freshWithin (depth + 1) id = .ok l ↔ ∃ n inputs, p.node? id = some n ∧
      List.Forall₂ (fun d i => p.freshWithin depth d = .ok i) n.dependencies inputs ∧
      n.rule p.behaviours inputs = .ok l := by
  cases hn : p.node? id with
  | none =>
    rw [freshWithin_succ_none hn]
    exact ⟨fun h => (nomatch h), fun ⟨_, _, h, _⟩ => nomatch h⟩
  | some n =>
    rw [freshWithin_succ hn]
    constructor
    · intro h
      cases hm : n.dependencies.mapM (p.freshWithin depth) with
      | error e =>
        rw [hm] at h
        cases h
      | ok inputs =>
        rw [hm] at h
        exact ⟨n, inputs, rfl, mapM_eq_ok_iff.mp hm, h⟩
    · rintro ⟨_, inputs, hm, hdeps, hrule⟩
      cases hm
      rw [mapM_eq_ok_iff.mpr hdeps]
      exact hrule

/-! ## Depth

The nodes that are settled become more with the depth, and once one step adds none no later step
does: so the number of nodes is deep enough. -/

/-- **What is settled at a depth stays so.** -/
theorem freshWithin_mono : ∀ {depth : Nat} {id : String},
    settled (p.freshWithin depth id) = true →
      p.freshWithin (depth + 1) id = p.freshWithin depth id
  | 0, _, h => nomatch h
  | depth + 1, id, h => by
      cases hn : p.node? id with
      | none => rw [freshWithin_succ_none hn, freshWithin_succ_none hn]
      | some n =>
        rw [freshWithin_succ hn] at h
        rw [freshWithin_succ hn (depth + 1), freshWithin_succ hn,
          mapM_settled (fun d _ hd => freshWithin_mono hd) (settled_of_bind h)]

/-- A settled result stays the same at greater depths. -/
theorem freshWithin_of_le {k : Nat} (hk : depth ≤ k)
    (h : settled (p.freshWithin depth id) = true) :
    p.freshWithin k id = p.freshWithin depth id := by
  induction hk with
  | refl => rfl
  | step _ ih => exact (freshWithin_mono (ih ▸ h)).trans ih

/-- The nodes that are settled one step deeper than told. -/
def settledAt (p : Program) (depth : Nat) : Finset String :=
  p.ids.toFinset.filter fun id => settled (p.freshWithin (depth + 1) id)

/-- The nodes that are settled at a depth. -/
theorem mem_settledAt : id ∈ p.settledAt depth ↔
    p.contains id = true ∧ settled (p.freshWithin (depth + 1) id) = true := by
  rw [settledAt, Finset.mem_filter, List.mem_toFinset, contains_iff_mem_ids]

/-- Greater depths settle no fewer nodes. -/
theorem settledAt_subset (p : Program) (depth : Nat) :
    p.settledAt depth ⊆ p.settledAt (depth + 1) := by
  intro id hid
  obtain ⟨hc, hs⟩ := mem_settledAt.mp hid
  exact mem_settledAt.mpr ⟨hc, freshWithin_mono hs ▸ hs⟩

/-- A step that settles no more nodes changes nothing. -/
theorem freshWithin_stable (h : p.settledAt (depth + 1) = p.settledAt depth) :
    p.freshWithin (depth + 2) = p.freshWithin (depth + 1) := by
  funext id
  by_cases hc : p.contains id = true
  · by_cases hs : settled (p.freshWithin (depth + 1) id) = true
    · exact freshWithin_mono hs
    · have hs' : ¬ settled (p.freshWithin (depth + 2) id) = true := fun hs' =>
        hs (mem_settledAt.mp (h ▸ mem_settledAt.mpr ⟨hc, hs'⟩)).2
      rw [eq_endless_of_not_settled hs, eq_endless_of_not_settled hs']
  · have hn := node?_eq_none.mpr hc
    rw [freshWithin_succ_none hn, freshWithin_succ_none hn]

/-- Depths that agree agree one step deeper. -/
theorem freshWithin_congr {k : Nat} (h : p.freshWithin depth = p.freshWithin k) :
    p.freshWithin (depth + 1) = p.freshWithin (k + 1) := by
  funext id
  rw [freshWithin, freshWithin, h]

/-- Once a depth settles no more nodes, none does. -/
theorem settledAt_stable (h : p.settledAt (depth + 1) = p.settledAt depth) :
    p.settledAt (depth + 2) = p.settledAt (depth + 1) := by
  rw [settledAt, settledAt, freshWithin_congr (freshWithin_stable h)]

/-- There are no more settled nodes than nodes. -/
theorem card_settledAt_le (p : Program) (depth : Nat) : (p.settledAt depth).card ≤ p.size :=
  calc (p.settledAt depth).card ≤ p.ids.toFinset.card := Finset.card_filter_le _ _
    _ ≤ p.ids.length := List.toFinset_card_le _
    _ = p.size := List.length_map _

/-- **Deeper than there are nodes nothing new is found.** -/
theorem freshWithin_size_add (p : Program) : ∀ k : Nat,
    p.freshWithin (p.size + 1 + k) = p.freshWithin (p.size + 1)
  | 0 => rfl
  | k + 1 => by
      have hcard : (p.settledAt (p.size + 1)).card = (p.settledAt p.size).card := by
        refine Nat.stabilises_of_monotone (f := fun k => (p.settledAt k).card)
          (monotone_nat_of_le_succ fun k => Finset.card_le_card (settledAt_subset p k))
          (card_settledAt_le p) (fun k hk => ?_) (Nat.le_succ _)
        have hstep := Finset.eq_of_subset_of_card_le (settledAt_subset p k) (Nat.le_of_eq hk.symm)
        exact congrArg Finset.card (settledAt_stable hstep.symm).symm
      have hstable : p.settledAt (p.size + 1) = p.settledAt p.size :=
        (Finset.eq_of_subset_of_card_le (settledAt_subset p p.size) (Nat.le_of_eq hcard)).symm
      calc p.freshWithin (p.size + 1 + k + 1) = p.freshWithin (p.size + 1 + 1) :=
            freshWithin_congr (freshWithin_size_add p k)
        _ = p.freshWithin (p.size + 1) := freshWithin_stable hstable

/-- A layout, or a lack of one, that is settled at any depth is the fresh one. -/
theorem freshLayout_of_settled (h : settled (p.freshWithin depth id) = true) :
    p.freshLayout id = p.freshWithin depth id := by
  rw [freshLayout, ← freshWithin_size_add p depth,
    freshWithin_of_le (Nat.le_add_left depth (p.size + 1)) h]

/-- **A layout found at any depth is the fresh layout.** -/
theorem freshLayout_eq_ok_iff :
    p.freshLayout id = .ok l ↔ ∃ depth, p.freshWithin depth id = .ok l :=
  ⟨fun h => ⟨_, h⟩, fun ⟨_, h⟩ => (freshLayout_of_settled (h ▸ rfl)).trans h⟩

/-- **The fresh layouts satisfy their equation**: that of a node follows from those of its
dependencies. -/
theorem freshLayout_eq (h : p.node? id = some n) :
    p.freshLayout id = n.dependencies.mapM p.freshLayout >>= n.rule p.behaviours := by
  change p.freshWithin (p.size + 1) id = n.dependencies.mapM (p.freshWithin (p.size + 1)) >>= _
  rw [← freshWithin_succ h, freshWithin_size_add p 1]

/-- A node that is missing has no layout. -/
theorem freshLayout_none (h : p.node? id = none) :
    p.freshLayout id = .error (.missingNode id) := freshWithin_succ_none h p.size

/-- **Induction on how a layout is found**: from the layouts of the dependencies. -/
theorem freshLayout_induction {motive : String → Layout → Prop}
    (step : ∀ id n inputs l, p.node? id = some n →
      List.Forall₂ (fun d i => p.freshLayout d = .ok i ∧ motive d i) n.dependencies inputs →
      n.rule p.behaviours inputs = .ok l → motive id l)
    (h : p.freshLayout id = .ok l) : motive id l := by
  obtain ⟨depth, hd⟩ := freshLayout_eq_ok_iff.mp h
  induction depth generalizing id l with
  | zero => cases hd
  | succ depth ih =>
    obtain ⟨n, inputs, hn, hdeps, hrule⟩ := freshWithin_succ_eq_ok_iff.mp hd
    refine step id n inputs l hn (hdeps.imp fun d i hi => ?_) hrule
    have hi' := freshLayout_eq_ok_iff.mpr ⟨depth, hi⟩
    exact ⟨hi', ih hi' hi⟩

/-! ## Frames -/

/-- Nodes that are as they were, and depend on such nodes only, have the layouts they had. -/
theorem freshWithin_frame (same : String → Prop) (behaviours : q.behaviours = p.behaviours)
    (closed : ∀ i, same i → ∀ d ∈ p.depsOf i, same d)
    (outlines : ∀ i, same i → q.outlineOf i = p.outlineOf i)
    (deps : ∀ i, same i → q.depsOf i = p.depsOf i) :
    ∀ (depth : Nat) (i : String), same i → q.freshWithin depth i = p.freshWithin depth i
  | 0, _, _ => rfl
  | depth + 1, i, hi => by
      have hout := outlines i hi
      rw [outlineOf, outlineOf] at hout
      cases hp : p.node? i with
      | none =>
        rw [hp, Option.map_none, Option.map_eq_none_iff] at hout
        rw [freshWithin_succ_none hp, freshWithin_succ_none hout]
      | some n =>
        rw [hp, Option.map_some, Option.map_eq_some_iff] at hout
        obtain ⟨m, hm, hmn⟩ := hout
        have hdeps : m.dependencies = n.dependencies := by
          rw [← depsOf_of_node? hm, ← depsOf_of_node? hp, deps i hi]
        have hmap : n.dependencies.mapM (q.freshWithin depth)
            = n.dependencies.mapM (p.freshWithin depth) :=
          mapM_congr fun d hd => freshWithin_frame same behaviours closed outlines deps depth d
            (closed i hi d (depsOf_of_node? hp ▸ hd))
        rw [freshWithin_succ hm, freshWithin_succ hp, hdeps, hmap, behaviours]
        exact congrArg (fun f => n.dependencies.mapM (p.freshWithin depth) >>= f)
          (funext fun inputs => Node.rule_congr hmn p.behaviours inputs)

/-- **Nodes that are as they were have the layouts they had**, if that is so of all they depend
on. -/
theorem freshLayout_frame (same : String → Prop) (behaviours : q.behaviours = p.behaviours)
    (closed : ∀ i, same i → ∀ d ∈ p.depsOf i, same d)
    (outlines : ∀ i, same i → q.outlineOf i = p.outlineOf i)
    (deps : ∀ i, same i → q.depsOf i = p.depsOf i) {i : String} (hi : same i) :
    q.freshLayout i = p.freshLayout i := by
  have hframe := freshWithin_frame same behaviours closed outlines deps (p.size + 1 + q.size) i hi
  rw [congrFun (freshWithin_size_add p q.size) i, Nat.add_assoc, Nat.add_comm p.size,
    Nat.add_comm 1 q.size, congrFun (freshWithin_size_add q p.size) i] at hframe
  exact hframe

/-- **The caches that are kept stay right** if the nodes that have one, and all they depend on, are
as they were. -/
theorem Coherent.frame (h : p.Coherent) (same : String → Prop)
    (behaviours : q.behaviours = p.behaviours)
    (closed : ∀ i, same i → ∀ d ∈ p.depsOf i, same d)
    (outlines : ∀ i, same i → q.outlineOf i = p.outlineOf i)
    (deps : ∀ i, same i → q.depsOf i = p.depsOf i)
    (caches : ∀ i l, q.layoutOf i = some l → same i ∧ p.layoutOf i = some l) : q.Coherent := by
  intro i l hl
  obtain ⟨hi, hp⟩ := caches i l hl
  obtain ⟨depth, hd⟩ := freshLayout_eq_ok_iff.mp (h i l hp)
  refine freshLayout_eq_ok_iff.mpr ⟨depth, ?_⟩
  rw [freshWithin_frame same behaviours closed outlines deps depth i hi, hd]

/-- The same nodes have the same layouts. -/
theorem Coherent.congr (h : p.Coherent) (nodes : q.nodes = p.nodes)
    (behaviours : q.behaviours = p.behaviours) : q.Coherent := by
  have hview : ∀ i, q.node? i = p.node? i := node?_congr nodes
  refine h.frame (fun _ => True) behaviours (fun _ _ _ _ => trivial) (fun i _ => ?_)
    (fun i _ => ?_) fun i l hl => ⟨trivial, ?_⟩
  · rw [outlineOf, hview, outlineOf]
  · rw [depsOf, hview, depsOf]
  · rw [layoutOf, hview] at hl
    exact hl

/-! ## Invalidation -/

/-- Invalidating forgets the layouts downstream. -/
theorem node?_invalidate (p : Program) (id j : String) :
    (p.invalidate id).node? j = (p.node? j).map fun n =>
      if n.id ∈ p.downstream id then { n with layout := none } else n := by
  rw [invalidate, node?_updateAll fun n => by split <;> rfl]
  refine congrArg (fun f => (p.node? j).map f) (funext fun n => ?_)
  simp only [List.contains_eq_mem, decide_eq_true_eq]

/-- And nothing else. -/
theorem view_invalidate {α : Type} (v : Option Node → α)
    (hv : ∀ n : Node, v (some { n with layout := none }) = v (some n)) (id j : String) :
    v ((p.invalidate id).node? j) = v (p.node? j) := by
  refine view_updateAll v (fun n => by split <;> rfl) (fun n => ?_) j
  split
  · exact hv n
  · rfl

@[simp] theorem ids_invalidate (p : Program) (id : String) : (p.invalidate id).ids = p.ids :=
  ids_updateAll fun n => by split <;> rfl

@[simp] theorem depsOf_invalidate (p : Program) (id : String) :
    (p.invalidate id).depsOf = p.depsOf :=
  funext fun j => view_invalidate
    Node.depsIn (fun _ => rfl) id j

@[simp] theorem usersOf_invalidate (p : Program) (id : String) :
    (p.invalidate id).usersOf = p.usersOf :=
  funext fun j => view_invalidate
    Node.usersIn (fun _ => rfl) id j

@[simp] theorem argsOf_invalidate (p : Program) (id : String) :
    (p.invalidate id).argsOf = p.argsOf :=
  funext fun j => view_invalidate
    Node.argsIn (fun _ => rfl) id j

@[simp] theorem coreOf_invalidate (p : Program) (id : String) :
    (p.invalidate id).coreOf = p.coreOf :=
  funext fun j => view_invalidate (Option.map Node.core) (fun _ => rfl) id j

/-- What is known of a layout afterwards. -/
theorem layoutOf_invalidate (p : Program) (id j : String) :
    (p.invalidate id).layoutOf j = if j ∈ p.downstream id then none else p.layoutOf j := by
  rw [layoutOf, node?_invalidate, layoutOf]
  cases hn : p.node? j with
  | none => simp
  | some n =>
    rw [Option.map_some, Option.bind_some, id_of_node? hn]
    split <;> rfl

/-- **A node may change at will if everything downstream is invalidated**: what keeps its cache
depends on nothing that changed. -/
theorem Coherent.invalidate (h : p.Coherent) (u : String) (nodup : q.ids.Nodup)
    (edges : ∀ d i, d ∈ q.depsOf i → i ∈ q.usersOf d) (behaviours : q.behaviours = p.behaviours)
    (outlines : ∀ i, i ≠ u → q.outlineOf i = p.outlineOf i)
    (deps : ∀ i, i ≠ u → q.depsOf i = p.depsOf i)
    (caches : ∀ i l, i ≠ u → q.layoutOf i = some l → p.layoutOf i = some l) :
    (q.invalidate u).Coherent := by
  have hne : ∀ i, i ∉ q.downstream u → i ≠ u := fun i hi he =>
    hi (he ▸ mem_downstream_self nodup u)
  refine h.frame (fun i => i ∉ q.downstream u) behaviours (fun i hi d hd hd' => ?_)
    (fun i hi => ?_) (fun i hi => ?_) fun i l hl => ?_
  · rw [← deps i (hne i hi)] at hd
    exact hi (mem_downstream_of_user nodup hd' (edges d i hd))
  · rw [outlineOf_eq_coreOf, coreOf_invalidate, ← outlineOf_eq_coreOf, outlines i (hne i hi)]
  · rw [depsOf_invalidate, deps i (hne i hi)]
  · rw [layoutOf_invalidate] at hl
    split at hl
    · cases hl
    case isFalse hi => exact ⟨hi, caches i l (hne i hi) hl⟩

end Program

end NetPlan
