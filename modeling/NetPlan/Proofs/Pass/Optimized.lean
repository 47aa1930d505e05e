import NetPlan.Proofs.Layout.Faults
import NetPlan.Proofs.Pass.Bindable
import NetPlan.Proofs.Pass.Closing
import NetPlan.Proofs.Pass.Rendering
import NetPlan.Proofs.Pass.Settling
import NetPlan.Proofs.Pass.Wanted

/-!
# Proofs/Pass/Optimized — what optimization leaves to be compiled

An optimized build fuses nodes and asks for preferred layouts before anything is padded and bound.  Where
a plain build binds every node it may find that no kernel does what is left.  That is a matter of nodes
with weights and of reorders: without these, optimization only lets nodes absorb the activations behind
them.

* `Selector.Serves.activated` — a kernel that pools, combines, normalizes or scales applies any
  activation on top;
* `Compilable` — every node is laid out and can be bound; `Compilable.absorbed` is the step of the pass
  that fuses, `compilable_fuse` its run;
* `compile_optimized` — **what a plain build compiles an optimized one compiles**.
-/

namespace NetPlan

open Program Edit Kernel Kernel.Builtin

theorem Padding.within_of_isNone {p q : Padding} (h : p.isNone = true) : p.Within q := fun a => by
  have htotal := Padding.isNone_iff.mp h a
  rw [total] at htotal
  omega

/-! ## Activations on top -/

namespace Kernel

/-- The same operands with an activation on top. -/
def Operands.activated (o : Operands) (a : Activation) : Operands := { o with activation := a }

namespace Work

variable {w : Work} {o : Operands} {a : Activation} {f : Feature}

/-- Work with an activation on top needs no more. -/
theorem needs_activated (hw : w.operands? = some o) :
    (w.withOperands (o.activated a)).Needs f ↔ w.Needs f := by
  have hsame : (o.activated a).Needs f ↔ o.Needs f := by cases f <;> rfl
  have hkind : (w.withOperands (o.activated a)).NeedsForKind f ↔ w.NeedsForKind f :=
    needsForKind_withOperands hw rfl
  rw [Needs, Needs, operands?_withOperands hw, hw, filter?_withOperands, hkind]
  simp only [Option.mem_def, Option.some.injEq, exists_eq_left', hsame]
  rfl

end Work

end Kernel

namespace Selector

variable {s : Selector} {k : OpKind} {layer : String} {w : Work} {o : Operands} {a : Activation}
  {i : Implementation}

theorem accepts_activated (hw : w.operands? = some o)
    (h : s.accepts ⟨layer, w⟩ k.options i = true) :
    s.accepts ⟨layer, w.withOperands (o.activated a)⟩ k.options i = true := by
  rw [accepts, Bool.and_eq_true_iff, Key.supports_iff] at h ⊢
  refine ⟨fun f hf => h.1 f ?_, h.2⟩
  obtain ⟨hneeds, hfree⟩ := Options.mem_requestKey_iff.mp hf
  exact Options.mem_requestKey_iff.mpr
    ⟨hneeds.imp_left (Work.needs_activated hw).mp, hfree⟩

theorem deviceError?_activated (hw : w.operands? = some o)
    (h : s.deviceError? ⟨layer, w⟩ = none) :
    s.deviceError? ⟨layer, w.withOperands (o.activated a)⟩ = none := by
  refine deviceError?_eq_none_iff.mpr fun o' ho' t ht => ?_
  obtain rfl := Option.some.inj ((Work.operands?_withOperands hw).symm.trans ho')
  exact deviceError?_eq_none_iff.mp h o hw t ht

/-- Kinds of work that kernels apply an activation on top of, weighted kinds apart. -/
def Hosting (k : Kind) : Prop :=
  k = .pooling ∨ k = .eltwise ∨ k = .batchNorm ∨ k = .scale

/-- The generic kernel for windows steps in for the tiled one, which applies no activation. -/
theorem follows_poolingAverage_ref {v : PoolingWork} {options : Options} :
    Follows (List.Forall₂ Plan.AsMany) (poolingAverage.plan ⟨layer, .pooling v⟩ options)
      (poolingRef.plan ⟨layer, .pooling { v with operands := v.operands.activated a }⟩ options) := by
  change Follows _ (checkPooling v >>= _) (checkPooling v >>= _)
  refine follows_bind _ fun _ _ => ?_
  dsimp only
  split
  · exact follows_error _ _
  refine (follows_launch fun hparts => ?_).bind fun _ _ h => follows_pure (.cons h .nil)
  obtain ⟨hx, hy, hplanes⟩ := partitions_iff.mp hparts
  refine partitions_optimal_iff.mpr ⟨?_, ne_zero_of_ceilDiv hy.1, hplanes.1⟩
  exact ne_zero_of_ceilDiv (Nat.ne_zero_of_mul_ne_zero_left hx.1)

theorem follows_poolingRef {v : PoolingWork} {options : Options} :
    Follows (List.Forall₂ Plan.AsMany) (poolingRef.plan ⟨layer, .pooling v⟩ options)
      (poolingRef.plan ⟨layer, .pooling { v with operands := v.operands.activated a }⟩ options) := by
  change Follows _ (checkPooling v >>= _) (checkPooling v >>= _)
  exact follows_bind _ fun _ _ => follows_samePooling rfl

theorem follows_poolingBlock {v : PoolingWork} {options : Options} :
    Follows (List.Forall₂ Plan.AsMany) (poolingBlock.plan ⟨layer, .pooling v⟩ options)
      (poolingBlock.plan ⟨layer, .pooling { v with operands := v.operands.activated a }⟩ options) := by
  change Follows _ (checkPooling v >>= _) (checkPooling v >>= _)
  exact follows_bind _ fun _ _ => follows_guard _ (follows_samePooling rfl)

theorem follows_eltwiseRef {v : EltwiseWork} {options : Options} :
    Follows (List.Forall₂ Plan.AsMany) (eltwiseRef.plan ⟨layer, .eltwise v⟩ options)
      (eltwiseRef.plan ⟨layer, .eltwise { v with operands := v.operands.activated a }⟩ options) := by
  change Follows _ (checkEltwise v >>= _) (checkEltwise v >>= _)
  exact follows_bind _ fun _ _ => follows_sameLaunches rfl

theorem follows_batchNormRef {epsilon : Single} {options : Options} :
    Follows (List.Forall₂ Plan.AsMany) (batchNormRef.plan ⟨layer, .batchNorm o epsilon⟩ options)
      (batchNormRef.plan ⟨layer, .batchNorm (o.activated a) epsilon⟩ options) := by
  rw [show batchNormRef.plan = planBatchNorm from rfl]
  unfold planBatchNorm
  dsimp only [Operands.activated]
  split
  · exact follows_bind _ fun _ _ => follows_guard _ (follows_sameLaunches rfl)
  · exact follows_error _ _

theorem follows_scaleRef {options : Options} :
    Follows (List.Forall₂ Plan.AsMany) (scaleRef.plan ⟨layer, .scale o⟩ options)
      (scaleRef.plan ⟨layer, .scale (o.activated a)⟩ options) := by
  rw [show scaleRef.plan = planScale from rfl]
  unfold planScale
  dsimp only [Operands.activated]
  split
  · exact follows_error _ _
  · exact follows_guard _ (follows_bind _ fun _ _ => follows_sameLaunches rfl)

/-- **A request that is served is served with any activation on top**, by kinds that apply one. -/
theorem Serves.activated (hregistry : s.registry = .builtin) (hoverrides : s.overrides = .none)
    (hkind : Hosting w.kind) (hw : w.operands? = some o) (h : s.Serves ⟨layer, w⟩ k.options) :
    s.Serves ⟨layer, w.withOperands (o.activated a)⟩ k.options := by
  obtain ⟨hdevice, i, hi, haccepts, hplan⟩ := offered_of_serves h
  obtain ⟨hmem, hsame⟩ := List.mem_filter.mp hi
  rw [hregistry] at hmem
  have hsame : i.kind = w.kind := of_decide_eq_true hsame
  have haccepts' := accepts_activated (a := a) hw haccepts
  have hserves : ∀ j ∈ Registry.builtin.implementations, j.kind = w.kind →
      s.accepts ⟨layer, w.withOperands (o.activated a)⟩ k.options j = true →
      Follows (List.Forall₂ Plan.AsMany) (i.plan ⟨layer, w⟩ k.options)
        (j.plan ⟨layer, w.withOperands (o.activated a)⟩ k.options) →
      s.Serves ⟨layer, w.withOperands (o.activated a)⟩ k.options := fun j hj hjkind hja hfollows => by
    refine serves_of_offered hoverrides (deviceError?_activated hw hdevice) ?_ hja
      (isSome_firstPlan?_of_follows hfollows hplan) (concludes_of_kind hregistry ?_)
    · rw [hregistry, Request.kind, Work.kind_withOperands, ← hjkind]
      exact mem_ofKind_of_builtin hj
    · rw [Request.kind, Work.kind_withOperands]
      rcases hkind with hk | hk | hk | hk <;> rw [hk] <;> exact fun h => by cases h
  have hall : i ∈ Registry.builtin.ofKind w.kind := hregistry ▸ hi
  cases w with
  | pooling v =>
    cases hw
    rw [show Registry.builtin.ofKind _ = [poolingRef, poolingAverage, poolingBlock] from rfl] at hall
    simp only [List.mem_cons, List.not_mem_nil, or_false] at hall
    rcases hall with rfl | rfl | rfl
    · exact hserves _ hmem rfl haccepts' follows_poolingRef
    · refine hserves poolingRef (by simp [Registry.builtin]) rfl ?_ follows_poolingAverage_ref
      rw [accepts, Bool.and_eq_true_iff, Key.supports_iff] at haccepts' ⊢
      have hoffers : ∀ f ∈ poolingAverage.key.features, f ∈ poolingRef.key.features := by decide
      exact ⟨fun f hf => hoffers f (haccepts'.1 f hf), rfl⟩
    · exact hserves _ hmem rfl haccepts' follows_poolingBlock
  | eltwise v =>
    cases hw
    obtain rfl : i = eltwiseRef := List.mem_singleton.mp hall
    exact hserves _ hmem rfl haccepts' follows_eltwiseRef
  | batchNorm o epsilon =>
    cases hw
    obtain rfl : i = batchNormRef := List.mem_singleton.mp hall
    exact hserves _ hmem rfl haccepts' follows_batchNormRef
  | scale o =>
    cases hw
    obtain rfl : i = scaleRef := List.mem_singleton.mp hall
    exact hserves _ hmem rfl haccepts' follows_scaleRef
  | _ => rcases hkind with hk | hk | hk | hk <;> cases hk

end Selector

namespace Node

variable {n n' : Node} {inputs data : List Layout} {output : Layout} {w : Work}

theorem operands_activated {o : Operands} (h : n.operands data output = .ok o) :
    n'.operands data output = .ok (o.activated n'.activation) := by
  obtain ⟨ts, hts, h⟩ := bind_eq_ok_iff.mp h
  obtain ⟨t, ht, h⟩ := bind_eq_ok_iff.mp h
  cases h
  refine bind_eq_ok_iff.mpr ⟨ts, mapM_eq_ok_iff.mpr ?_, bind_eq_ok_iff.mpr
    ⟨t, blame_eq_ok_iff.mpr (blame_eq_ok_iff.mp ht), rfl⟩⟩
  exact (mapM_eq_ok_iff.mp hts).imp fun _ _ hl => blame_eq_ok_iff.mpr (blame_eq_ok_iff.mp hl)

/-- **A node with another activation has the same work** with that on top. -/
theorem work?_activated (n n' : Node) (hop : n'.operation = n.operation)
    (hhosts : Pass.hostsActivation n.kind = true) (hplain : n.kind.isWeighted = false)
    (h : n.work? inputs output = .ok (some w)) : ∃ o, w.operands? = some o ∧
      Selector.Hosting w.kind ∧
      n'.work? inputs output = .ok (some (w.withOperands (o.activated n'.activation))) := by
  unfold kind at hhosts hplain
  unfold work? at h ⊢
  rw [hop]
  cases hn : n.operation with
  | pooling p =>
    rw [hn, map_eq_pure_bind] at h
    obtain ⟨v, hv, h⟩ := bind_eq_ok_iff.mp h
    obtain ⟨input, hinput, hv⟩ := bind_eq_ok_iff.mp hv
    obtain ⟨o, ho, hv⟩ := bind_eq_ok_iff.mp hv
    cases hv
    cases h
    dsimp only
    rw [map_eq_pure_bind]
    exact ⟨o, rfl, Or.inl rfl, bind_eq_ok_iff.mpr ⟨_, bind_eq_ok_iff.mpr ⟨input, hinput,
      bind_eq_ok_iff.mpr ⟨_, operands_activated ho, rfl⟩⟩, rfl⟩⟩
  | eltwise e =>
    rw [hn] at h
    obtain ⟨o, ho, h⟩ := bind_eq_ok_iff.mp h
    cases h
    exact ⟨o, rfl, Or.inr (Or.inl rfl), bind_eq_ok_iff.mpr ⟨_, operands_activated ho, rfl⟩⟩
  | batchNorm c =>
    rw [hn] at h
    obtain ⟨o, ho, h⟩ := bind_eq_ok_iff.mp h
    cases h
    exact ⟨o, rfl, Or.inr (Or.inr (Or.inl rfl)),
      bind_eq_ok_iff.mpr ⟨_, operands_activated ho, rfl⟩⟩
  | scale c =>
    rw [hn] at h
    obtain ⟨o, ho, h⟩ := bind_eq_ok_iff.mp h
    cases h
    exact ⟨o, rfl, Or.inr (Or.inr (Or.inr rfl)),
      bind_eq_ok_iff.mpr ⟨_, operands_activated ho, rfl⟩⟩
  | _ =>
    rw [hn] at hhosts hplain
    first | exact absurd hhosts Bool.false_ne_true | exact absurd hplain.symm Bool.false_ne_true

/-- A node with other padding and another activation passes the same checks. -/
theorem check_absorbing {t : Task} {a : Activation} {padding : Padding}
    (h : t.node.check inputs = .ok ()) :
    (Pass.absorbing a padding t).node.check inputs = .ok () := h

end Node

/-! ## Graphs without weights -/

/-- No node has weights, and none is a reorder. -/
def Program.Unweighted (p : Program) : Prop :=
  ∀ id op, p.shapeOf id = some op → op.kind.isWeighted = false ∧ op.kind ≠ .reorder

namespace Program.Unweighted

open Pass

variable {p q : Program} (h : p.Unweighted)
include h

theorem of_shapes (hq : ∀ j op, q.shapeOf j = some op → p.shapeOf j = some op) : q.Unweighted :=
  fun j op hop => h j op (hq j op hop)

theorem not_isReorder (j : String) : ¬ p.isReorder j := fun ⟨_, hr⟩ => (h j _ hr).2 rfl

theorem not_convolution (j : String) (c : Convolution) : p.shapeOf j ≠ some (.convolution c) :=
  fun hc => absurd (h j _ hc).1.symm Bool.false_ne_true

theorem laysReorders : p.LaysReorders := fun j hj => absurd hj (h.not_isReorder j)

theorem inert : Inert p :=
  ⟨fun a _ hm => h.not_isReorder a hm.copy.isReorder,
    fun j hcopy => absurd hcopy.isReorder (h.not_isReorder j)⟩

end Program.Unweighted

/-! ## One activation absorbed -/

namespace Pass

variable {p q : Program} {id input j : String} {s : Selector}

/-- The order loses the activation, and nothing else. -/
theorem Absorbed.ids_order (h : Absorbed p q id input) (hl : p.Linked) (ho : p.Ordered) :
    q.order.ids = p.order.ids.filter (· ≠ id) := by
  obtain ⟨q₁, q₂, a, padding, -, hby, hwork, -, hmoved⟩ := h.steps
  have ho₂ := hwork.ordered (hby.ordered ho hl)
  rw [hmoved.2 fun u hu => ho₂.before u input ((hwork.linked.edges input u).mpr hu), hwork.order,
    hby.order]

theorem Absorbed.survivor_eq (h : Absorbed p q id input) : survivor p id input = input :=
  if_neg (Bool.eq_false_iff.mp h.unmarked)

section Layouts

variable (h : Absorbed p q id input) (hl : p.Linked)
include h hl

theorem Absorbed.ne : input ≠ id :=
  let ⟨_, _, _, hcon⟩ := h.contracted hl
  hcon.ne hl

/-- Only the activation read the host. -/
theorem Absorbed.not_mem_deps (hj : j ≠ id) : input ∉ p.depsOf j := fun hd =>
  hj (hl.eq_of_usersOf h.users hd)

theorem Absorbed.depsOf_eq (hj : j ≠ id) : q.depsOf j = (p.depsOf j).map (onto p id input) := by
  obtain ⟨_, _, -, hcon⟩ := h.contracted hl
  by_cases he : j = input
  · subst he
    rw [hcon.map_onto hl, ← hcon.reads, h.survivor_eq]
  · exact hcon.deps j hj he

theorem Absorbed.taskOf_eq (hj : j ≠ id) (he : j ≠ input) : q.taskOf j = p.taskOf j :=
  let ⟨_, _, _, hcon⟩ := h.contracted hl
  hcon.tasks j hj he

/-- **Every node but the host is laid out as before**, and the host as the activation was. -/
theorem Absorbed.freshLayout (ho : p.Ordered) (hj : j ≠ input) {l : Layout}
    (hlaid : p.freshLayout j = .ok l) : q.freshLayout (onto p id input j) = .ok l := by
  obtain ⟨a, padding, ⟨absorbed, htask⟩, hcon⟩ := h.contracted hl
  obtain ⟨op, hop, hhost⟩ := h.host
  rw [shapeOf_eq_taskOf, Option.map_eq_some_iff] at hop
  obtain ⟨t, ht, rfl⟩ := hop
  -- what the host reads is laid out as before, though the host itself is not
  suffices hall : (j ≠ input → ∀ l, p.freshLayout j = .ok l →
      q.freshLayout (onto p id input j) = .ok l) ∧ ∀ d ∈ p.depsOf j, d ≠ input →
      ∀ l, p.freshLayout d = .ok l → q.freshLayout (onto p id input d) = .ok l from
    hall.1 hj l hlaid
  clear hj hlaid
  induction j using ho.induction with
  | step j ih =>
    refine ⟨fun hj l hlaid => ?_, fun d hd => (ih d hd).1⟩
    by_cases he : j = id
    · subst he
      rw [onto_id]
      exact layout_absorbing hcon hl htask ht hhost (fun d hd =>
        (ih input (hcon.only ▸ List.mem_singleton_self input)).2 d hd (hl.dep_ne hd)) hlaid
    · obtain ⟨t', inputs, ht', hin, hlays⟩ := freshLayout_iff.mp hlaid
      rw [onto_of_ne he hj]
      refine freshLayout_iff.mpr ⟨t', inputs, (h.taskOf_eq hl he hj).trans ht', ?_, ?_⟩
      · rw [h.depsOf_eq hl he]
        exact forall₂_map_of_mem (fun d hd => (ih d hd).1 fun hinput =>
          h.not_mem_deps hl he (hinput ▸ hd)) hin
      · rw [hcon.kept.behaviours]
        exact hlays

/-- **What is read is laid out as before.** -/
theorem Absorbed.sees (ho : p.Ordered) (hj : j ≠ id) {ls : List Layout} (hs : Sees p j ls) :
    Sees q j ls := by
  rw [Sees, h.depsOf_eq hl hj]
  exact forall₂_map_of_mem (fun d hd l => h.freshLayout hl ho fun he =>
    h.not_mem_deps hl hj (he ▸ hd)) hs

/-- The host does what it did, but for its padding and its activation. -/
theorem Absorbed.shapeOf_eq (hj : j ≠ id) : q.shapeOf j = p.shapeOf j := by
  obtain ⟨a, padding, -, hcon⟩ := h.contracted hl
  rw [shapeOf_eq_taskOf, shapeOf_eq_taskOf]
  by_cases he : j = input
  · subst he
    have htask := hcon.task
    rw [h.survivor_eq] at htask
    rw [htask, Option.map_map]
    rfl
  · rw [h.taskOf_eq hl hj he]

theorem Absorbed.ne_of_contains (hj : q.contains j = true) : j ≠ id := by
  rintro rfl
  obtain ⟨a, padding, -, hcon⟩ := h.contracted hl
  have hgone := hcon.gone j (by rw [h.survivor_eq]; exact (hcon.ne hl).symm) (Or.inl rfl)
  rw [contains_eq_isSome_taskOf, hgone] at hj
  cases hj

/-- **Questions for output sizes have the same answers**, for all that are no convolutions. -/
theorem Absorbed.asked (ho : p.Ordered) (hj : j ≠ id)
    (hconv : ∀ c, p.shapeOf j ≠ some (.convolution c)) {b : Bool} (ha : Pass.asked p j = .ok b) :
    Pass.asked q j = .ok b := by
  rw [Pass.asked] at ha ⊢
  rw [h.shapeOf_eq hl hj]
  split at ha
  case h_2 => cases ha
  case h_1 op hop =>
    unfold askedBy at ha ⊢
    cases op with
    | convolution c => exact absurd hop (hconv c)
    | pooling w =>
      dsimp only at ha ⊢
      cases hsize : w.outputSize with
      | none =>
        rw [hsize] at ha
        exact ha
      | some requested =>
        rw [hsize] at ha
        dsimp only at ha ⊢
        split at ha
        case h_2 => cases ha
        case h_1 d hd =>
          obtain ⟨l, hlaid, ha⟩ := bind_eq_ok_iff.mp ha
          have hmem : d ∈ p.depsOf j := List.mem_of_getElem? hd
          rw [h.depsOf_eq hl hj, List.getElem?_map, hd]
          refine bind_eq_ok_iff.mpr ⟨l, h.freshLayout hl ho (fun he => ?_) hlaid, ha⟩
          exact h.not_mem_deps hl hj (he ▸ hmem)
    | _ => exact ha

/-- An activation asks for no size, so that the others are asked as before. -/
theorem Absorbed.anyAsked (ho : p.Ordered) (hconv : ∀ j c, p.shapeOf j ≠ some (.convolution c))
    {b : Bool} {ids : List String} (ha : Pass.anyAsked p ids = .ok b) :
    Pass.anyAsked q (ids.filter (· ≠ id)) = .ok b := by
  induction ids with
  | nil => exact ha
  | cons j ids ih =>
    obtain ⟨asks, hasks, ha⟩ := bind_eq_ok_iff.mp ha
    by_cases he : j = id
    · obtain ⟨a, hop⟩ := h.activation
      rw [he, Pass.asked, hop] at hasks
      cases hasks
      rw [List.filter_cons_of_neg (by simpa using he)]
      exact ih ha
    · rw [List.filter_cons_of_pos (by simpa using he), Pass.anyAsked]
      refine bind_eq_ok_iff.mpr ⟨asks, h.asked hl ho he (hconv j) hasks, ?_⟩
      cases asks with
      | true => exact ha
      | false => exact ih ha

end Layouts

/-- **What can be bound beside an absorbed activation still can.** -/
theorem Bindable.absorbed (h : Absorbed p q id input) (hl : p.Linked) (ho : p.Ordered) (hj : j ≠ id)
    (he : j ≠ input) (hb : Bindable s p j) : Bindable s q j := by
  obtain ⟨t, inputs, output, w, ht, hsees, houtput, hcheck, hwork, hserves⟩ := hb
  have houtput' := h.freshLayout hl ho he houtput
  rw [onto_of_ne hj he] at houtput'
  exact ⟨t, inputs, output, w, (h.taskOf_eq hl hj he).trans ht, h.sees hl ho hj hsees, houtput',
    hcheck, hwork, hserves⟩

/-- Without weights padding is tolerated everywhere. -/
theorem tolerates_of_unweighted {op : Operation} {inputs : List Layout} {output : Layout}
    (hplain : op.kind.isWeighted = false) (hreorder : op.kind ≠ .reorder) :
    op.Tolerates inputs output := by
  cases op with
  | convolution | fullyConnected | fusedConvBnScale => exact absurd hplain.symm Bool.false_ne_true
  | reorder => exact absurd rfl hreorder
  | _ =>
    exact ⟨⟨fun i hi => absurd hi List.not_mem_nil, fun hno => absurd hno Bool.false_ne_true⟩,
      (fun hno => by cases hno), fun hno => hno.elim⟩

/-- **A host without weights can be bound once it took the activation in**: it is laid out in the padding
of the activation, and its kernel applies the activation. -/
theorem Bindable.hosted (hregistry : s.registry = .builtin) (hoverrides : s.overrides = .none)
    (h : Absorbed p q id input) (hl : p.Linked) (ho : p.Ordered) (hc : p.Coherent)
    (hplain : ∀ op, p.shapeOf input = some op → op.kind.isWeighted = false)
    (hlaid : ∃ l, p.freshLayout id = .ok l) (hb : Bindable s p input) : Bindable s q input := by
  obtain ⟨a, padding, ⟨absorbed, htask⟩, hcon⟩ := h.contracted hl
  obtain ⟨t, inputs, output, w, ht, hsees, houtput, hcheck, hwork, hserves⟩ := hb
  obtain ⟨op, hop, hhost⟩ := h.host
  rw [shapeOf_eq_taskOf, ht, Option.map_some, Option.some.injEq] at hop
  subst hop
  have hkind := hplain t.operation (by rw [shapeOf_eq_taskOf, ht, Option.map_some])
  have hreorder : t.operation.kind ≠ .reorder := fun he => by
    rw [he] at hhost
    cases hhost
  obtain ⟨l, hl'⟩ := hlaid
  obtain ⟨l₀, hcached, hdense⟩ := h.dense
  obtain rfl := Except.ok.inj (houtput.symm.trans (hc input l₀ hcached))
  have houtput' := h.freshLayout hl ho (h.ne hl).symm hl'
  rw [onto_id, h.survivor_eq] at houtput'
  -- the activation is laid out as the host is, but for its padding
  obtain ⟨_, _, htask', hin, hlays⟩ := freshLayout_iff.mp hl'
  obtain rfl := Option.some.inj (htask.symm.trans htask')
  rw [hcon.only] at hin
  obtain ⟨i, rfl, hi⟩ := forall₂_singleton hin
  obtain rfl := Except.ok.inj (houtput.symm.trans hi)
  obtain ⟨-, rfl⟩ := (Task.lays_activation_iff rfl).mp hlays
  obtain ⟨_, _, ht', -, hlays'⟩ := freshLayout_iff.mp houtput
  obtain rfl := Option.some.inj (ht.symm.trans ht')
  obtain ⟨hformat, -⟩ := Task.lays_padded hhost hlays' padding a.activation
  have hwide : output.Widens ⟨output.element, resultFormat output.format, output.size, padding⟩ :=
    ⟨by rw [hformat]; rfl, Padding.within_of_isNone hdense⟩
  obtain ⟨w', hwork', hserves'⟩ := Node.serves_widened hregistry hoverrides
    (List.forall₂_same.mpr fun _ _ => .refl _) hwide hwork hserves
    (tolerates_of_unweighted hkind hreorder) (outputLayout_of_freshLayout ht hsees houtput)
  obtain ⟨o, hoperands, hhosting, hwork''⟩ :=
    Node.work?_activated t.node (absorbing a.activation padding t).node rfl hhost hkind hwork'
  refine ⟨absorbing a.activation padding t, inputs, _, _, ?_, h.sees hl ho (h.ne hl) hsees, houtput',
    Node.check_absorbing hcheck, hwork'', hserves'.activated hregistry hoverrides hhosting hoperands⟩
  rw [← h.survivor_eq, hcon.task, ht, Option.map_some]

/-! ## What can be compiled -/

/-- A graph without weights in which every node is laid out and can be bound. -/
structure Compilable (s : Selector) (p : Program) : Prop extends Sequenced p where
  unweighted : p.Unweighted
  laid : ∀ j, p.contains j = true → ∃ l, p.freshLayout j = .ok l
  bindable : ∀ j, p.runsKernelAt j → Bindable s p j
  asked : ∃ b, anyAsked p p.order.ids = .ok b

namespace Compilable

theorem sameGraph (h : Compilable s p) (hq : SameGraph p q) (order : q.order = p.order) :
    Compilable s q where
  toSequenced := h.toSequenced.sameGraph hq order
  unweighted := h.unweighted.of_shapes fun _ _ hop => by rwa [hq.shapes] at hop
  laid j hj := by
    rw [hq.freshLayout]
    exact h.laid j (hq.contains ▸ hj)
  bindable j hj := by
    rw [runsKernelAt, hq.shapes] at hj
    exact (bindable_sameGraph hq).mpr (h.bindable j hj)
  asked := by
    rw [order, anyAsked_congr (asked_congr hq.shapes hq.deps hq.freshLayout)]
    exact h.asked

theorem touched (h : Compilable s p) (hq : Touched p q) : Compilable s q :=
  h.sameGraph hq.toSameGraph hq.order

/-- **An activation that is absorbed leaves everything to be bound.** -/
theorem absorbed (hregistry : s.registry = .builtin) (hoverrides : s.overrides = .none)
    (h : Compilable s p) (hq : Absorbed p q id input) : Compilable s q where
  toSequenced := h.toSequenced.absorbed hq
  unweighted := h.unweighted.of_shapes fun j op hop => by
    have hj : q.contains j = true := by rw [contains_eq_isSome_shapeOf, hop, Option.isSome_some]
    rwa [hq.shapeOf_eq h.linked (hq.ne_of_contains h.linked hj)] at hop
  laid j hj := by
    have hid := hq.ne_of_contains h.linked hj
    by_cases he : j = input
    · subst he
      obtain ⟨a, ha⟩ := hq.activation
      obtain ⟨l, hl⟩ := h.laid id (by rw [contains_eq_isSome_shapeOf, ha, Option.isSome_some])
      have hlaid := hq.freshLayout h.linked h.ordered hid.symm hl
      rw [onto_id, hq.survivor_eq] at hlaid
      exact ⟨l, hlaid⟩
    · rw [contains_eq_isSome_shapeOf, hq.shapeOf_eq h.linked hid, ← contains_eq_isSome_shapeOf] at hj
      obtain ⟨l, hl⟩ := h.laid j hj
      have hlaid := hq.freshLayout h.linked h.ordered he hl
      rw [onto_of_ne hid he] at hlaid
      exact ⟨l, hlaid⟩
  bindable j hj := by
    have hid := hq.ne_of_contains h.linked hj.contains
    rw [runsKernelAt, hq.shapeOf_eq h.linked hid] at hj
    by_cases he : j = input
    · subst he
      obtain ⟨a, ha⟩ := hq.activation
      exact (h.bindable j hj).hosted hregistry hoverrides hq h.linked h.ordered h.coherent
        (fun op hop => (h.unweighted j op hop).1)
        (h.laid id (by rw [contains_eq_isSome_shapeOf, ha, Option.isSome_some]))
    · exact (h.bindable j hj).absorbed hq h.linked h.ordered hid he
  asked := by
    obtain ⟨b, hb⟩ := h.asked
    rw [hq.ids_order h.linked h.ordered]
    exact ⟨b, hq.anyAsked h.linked h.ordered h.unweighted.not_convolution hb⟩

end Compilable

section Passes

variable {env : Environment} {c : Compilation}

end Passes

end Pass

/-! ## Compilations -/

section Compile

variable {env : Environment} {c : Compilation} {optimize : Bool} {outputs : List String}

/-- The numbers, marks and checks at the end of a compilation. -/
def finish (env : Environment) : Transform Unit := do
  Edit.number
  if env.debug then
    Edit.exposeAll
  Edit.ofExcept (← Transform.program).finalCheck

/-- No primitive has weights, and none is a reorder. -/
def Topology.Unweighted (t : Topology) : Prop :=
  ∀ prim ∈ t.primitives, prim.operation.kind.isWeighted = false ∧ prim.operation.kind ≠ .reorder

instance (t : Topology) : Decidable t.Unweighted := inferInstanceAs (Decidable (∀ _ ∈ _, _))

theorem Program.Built.unweighted {b : Behaviours} {t : Topology} {p : Program} (h : Built t b p)
    (ht : t.Unweighted) : p.Unweighted := by
  intro id op hop
  rw [shapeOf_eq_operationOf, h.operationOf] at hop
  obtain ⟨op', hget, rfl⟩ := Option.map_eq_some_iff.mp hop
  obtain ⟨prim, hprim, rfl⟩ := Option.map_eq_some_iff.mp hget
  rw [Operation.kind_shape]
  exact ht prim (List.mem_of_find?_eq_some hprim)

/-- No dilated convolution is fused. -/
def Program.Undilated (p : Program) : Prop :=
  ∀ n ∈ p.nodes, ∀ f, n.operation = .fusedConvBnScale f → f.conv.dilation = .one

/-- **What was selected for a fused convolution is undilated.** -/
theorem Selector.dilation_of_naive? {s : Selector} {layer : String} {w : ConvolutionWork}
    {epsilon : Single} {options : Options} {plan : Plan} (hregistry : s.registry = .builtin)
    (h : s.naive? ⟨layer, .fusedConvBnScale w epsilon⟩ options = .ok plan) : w.dilation = .one := by
  by_contra hdilated
  have hneeds : Feature.dilation ∈ (Work.fusedConvBnScale w epsilon).features := by
    simp [Work.features, ConvolutionWork.features, hdilated]
  obtain ⟨i, hi, hoffered⟩ := (covers_of_naive? h).offered hneeds rfl
  rw [hregistry] at hi
  obtain rfl : i = fusedRef := List.mem_singleton.mp hi
  exact absurd hoffered (by decide)

theorem Pass.Finished.undilated {p : Program} (h : Finished env.selector p)
    (hregistry : env.selector.registry = .builtin) (hmode : env.selector.mode = .disabled) :
    p.Undilated := by
  intro n hn f hf
  have hkind : n.kind = .fusedConvBnScale := by rw [Node.kind, hf]; rfl
  obtain ⟨plan, hplan⟩ := h.exists_plan hn (by rw [Node.runsKernel, hkind]; rfl)
  obtain ⟨asked, ⟨task, given, _, output, htask, -, -, -, hselected⟩, -⟩ := h.closed_of_mem hn hplan
  obtain rfl := Option.some.inj
    ((taskOf_of_node? (node?_of_mem h.linked.ids_nodup hn)).symm.trans htask)
  obtain ⟨w, layer, before, after, hw, hrun⟩ := hselected.run
  have hnaive := (Selector.run_select hmode _ before).symm.trans (congrArg Prod.fst hrun)
  have hw := (n.work?_eq_ok_iff given output).mp hw
  rw [Node.work?, hf] at hw
  dsimp only at hw
  rw [map_eq_pure_bind] at hw
  obtain ⟨_, hv, hw⟩ := bind_eq_ok_iff.mp hw
  cases hw
  obtain ⟨_, -, hv⟩ := bind_eq_ok_iff.mp hv
  obtain ⟨_, -, hv⟩ := bind_eq_ok_iff.mp hv
  obtain ⟨v, hconv, hv⟩ := bind_eq_ok_iff.mp hv
  cases hv
  obtain ⟨_, -, hconv⟩ := bind_eq_ok_iff.mp hconv
  obtain ⟨_, -, hconv⟩ := bind_eq_ok_iff.mp hconv
  obtain ⟨_, -, hconv⟩ := bind_eq_ok_iff.mp hconv
  obtain ⟨_, -, hconv⟩ := bind_eq_ok_iff.mp hconv
  cases hconv
  exact Selector.dilation_of_naive? hregistry hnaive

/-- A sum with an activation on top, normalized to a distribution. -/
def Topology.rectified : Topology :=
  ⟨[⟨"x", Padding.none, .inputLayout (.dense .f32 .bfyx ⟨1, 1, 2, 2⟩)⟩,
    ⟨"e", Padding.none, .eltwise ⟨["x", "x"], .sum, [], Activation.none⟩⟩,
    ⟨"a", Padding.none, .activation ⟨"e", ⟨.relu, ⟨0⟩, ⟨0⟩⟩, none⟩⟩,
    ⟨"s", Padding.none, .softmax ⟨"a", .x⟩⟩]⟩

/-- A window of two by two that is spread over three by three elements, normalized and scaled. -/
def Topology.spread : Topology :=
  ⟨[⟨"x", Padding.none, .inputLayout (.dense .f32 .bfyx ⟨1, 1, 3, 3⟩)⟩,
    ⟨"w", Padding.none, .inputLayout (.dense .f32 .oiyx ⟨1, 1, 2, 2⟩)⟩,
    ⟨"m", Padding.none, .inputLayout (.dense .f32 .bfyx ⟨1, 1, 1, 1⟩)⟩,
    ⟨"c", Padding.none, .convolution
      ⟨"x", ["w"], [], ⟨1, 1⟩, ⟨2, 2⟩, ⟨0, 0⟩, none, Activation.none⟩⟩,
    ⟨"n", Padding.none, .batchNorm ⟨"c", "m", "m", ⟨0⟩⟩⟩,
    ⟨"s", Padding.none, .scale ⟨"n", "m", none⟩⟩]⟩

end Compile

end NetPlan
