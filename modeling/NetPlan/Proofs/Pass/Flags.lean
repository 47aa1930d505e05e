import NetPlan.Proofs.Graph.Flags
import NetPlan.Proofs.Pass.Closing
import NetPlan.Proofs.Pass.Raw
import NetPlan.Proofs.Pass.Rendering

/-!
# Proofs/Pass/Flags — flags through a compilation

Constants and data flow are marked once, before the first pass; after that a pass copies the flags of a
node to the one it puts in front of it, and lets the others be.  That is enough for the flags to stay
exact (`Flagged`):

* `Fused.flagged` — a fused node reads what the three read from outside, so it is constant when the
  last of them was;
* `Absorbed.flagged`, `Merged.flagged`, `Dropped.flagged` — two nodes become one;
* `Served.flagged`, `Padded.flagged` — a reorder comes in between, or one is shared;
* `Folded.flagged` — a literal stands for a constant.

Where constants are marked again, before they are folded, nothing changes any more
(`Edit.markConstants_touched`).  So the flags of what is compiled are exact (`compile_exactFlags`).
-/

namespace NetPlan

open Program Edit Preferences

namespace Edit

variable {p q : Program} {doomed : List String}

theorem Cleared.flags_of_contains (h : Cleared p q doomed) {j : String}
    (hj : q.contains j = true) : q.flagsOf j = p.flagsOf j := by
  rw [flagsOf_eq_coreOf, h.core, if_neg ((h.contains_iff j).mp hj).1, ← flagsOf_eq_coreOf]

/-- **What is left after trimming** reads what it read. -/
theorem Cleared.flagged (h : Cleared p q doomed) (ht : Trimmed p q)
    (hp : p.Flagged) : q.Flagged := by
  refine hp.of_views fun j hj => ⟨j, h.flags_of_contains hj, due_congr ?_ ?_⟩
  · exact kindOf_congr (ht.shapes j hj)
  · rw [← ht.deps j hj]
    exact List.map_congr_left fun d hd =>
      isConstant_congr (h.flags_of_contains (h.kept.linked.contains_dep hd))

end Edit

namespace Pass

variable {p q : Program} {m m' : List Entry} {c : Compilation} {env : Environment}
  {id norm scale input next : String} {index : Nat} {prim : Primitive} {made : Option String}

/-! ## The rewrites -/

theorem argsOf_ne_nil_of_convolution {conv : Convolution}
    (h : p.shapeOf id = some (.convolution conv)) : p.argsOf id ≠ [] := by
  obtain ⟨n, hn, hop⟩ := Option.map_eq_some_iff.mp h
  rw [argsOf_of_node? hn]
  cases hop' : n.operation with
  | convolution => exact List.cons_ne_nil _ _
  | _ =>
    rw [hop'] at hop
    cases hop

section Fused

variable (h : Fused p q id norm scale prim) (hl : p.Linked) (ho : p.Ordered)
  (ha : p.AlignedButFused)
include h hl ho ha

/-- What the convolution reads, the fused node reads from outside. -/
theorem Fused.outside_of_reads {a : String} (hmem : a ∈ p.depsOf id) :
    a ∈ prim.arguments ∧ a ≠ norm ∧ a ≠ id := by
  obtain ⟨stats, factors, -, -, hargs⟩ := h.reads
  obtain ⟨hbefore, -⟩ := h.chain hl ho
  have hlt := ho.before id a hmem
  refine ⟨?_, fun he => ?_, fun he => ?_⟩
  · rw [hargs, (ha.slots h).1]
    exact List.mem_append_left _ (List.mem_append_left _ hmem)
  · exact Before.asymm ho.nodup hbefore (he ▸ hlt)
  · exact Before.irrefl ho.nodup id (he ▸ hlt)

variable (hp : p.Flagged)
include hp

/-- **The last of the three is constant** when all that they read from outside is. -/
theorem Fused.isConstant_iff : p.isConstant scale = true ↔
    ∀ a ∈ prim.arguments, a ≠ norm → a ≠ id → p.isConstant a = true := by
  obtain ⟨hid, hnorm, hscale⟩ := ha.slots h
  obtain ⟨stats, factors, hstats, hfactors, hargs⟩ := h.reads
  obtain ⟨conv, hconv⟩ := h.convolution
  obtain ⟨b, hb⟩ := h.batchNorm
  obtain ⟨s, hs⟩ := h.scaling
  rw [hstats] at hnorm
  rw [hfactors] at hscale
  have hread : id ∈ p.depsOf norm := hnorm ▸ List.mem_cons_self
  have hread' : norm ∈ p.depsOf scale := hscale ▸ List.mem_cons_self
  have hfirst : p.isConstant id = true ↔ ∀ a ∈ p.depsOf id, p.isConstant a = true := by
    rw [hp.constant id (hl.contains_dep hread), due_iff ⟨_, hconv, rfl⟩]
    exact and_iff_right (hid ▸ argsOf_ne_nil_of_convolution hconv)
  have hsecond : p.isConstant norm = true ↔
      p.isConstant id = true ∧ ∀ a ∈ stats, p.isConstant a = true := by
    rw [hp.constant norm (contains_of_mem_depsOf hread), due_iff ⟨_, hb, rfl⟩, ← hnorm,
      List.forall_mem_cons]
    exact and_iff_right (List.cons_ne_nil _ _)
  have hthird : p.isConstant scale = true ↔
      p.isConstant norm = true ∧ ∀ a ∈ factors, p.isConstant a = true := by
    rw [hp.constant scale (contains_of_mem_depsOf hread'), due_iff ⟨_, hs, rfl⟩, ← hscale,
      List.forall_mem_cons]
    exact and_iff_right (List.cons_ne_nil _ _)
  rw [hthird, hsecond, hfirst, hargs, hid]
  constructor
  · rintro ⟨⟨hconvs, hothers⟩, hrest⟩ a hmem - -
    rcases List.mem_append.mp hmem with hmem | hmem
    · exact (List.mem_append.mp hmem).elim (hconvs a) (hothers a)
    · exact hrest a hmem
  · intro hall
    have hconvs : ∀ a ∈ p.depsOf id, p.isConstant a = true := fun a hmem => by
      obtain ⟨-, hnot, hnot'⟩ := h.outside_of_reads hl ho ha hmem
      exact hall a (by simp [hmem]) hnot hnot'
    have hstat : ∀ a ∈ stats, p.isConstant a = true := fun a hmem => by
      by_cases haid : a = id
      · rw [haid, hfirst]
        exact hconvs
      · refine hall a (by simp [hmem]) (fun he => ?_) haid
        exact hl.dep_ne (hnorm ▸ List.mem_cons_of_mem _ hmem) he
    refine ⟨⟨hconvs, hstat⟩, fun a hmem => ?_⟩
    by_cases haid : a = id
    · rw [haid, hfirst]
      exact hconvs
    by_cases hanorm : a = norm
    · rw [hanorm, hsecond, hfirst]
      exact ⟨hconvs, hstat⟩
    exact hall a (by simp [hmem]) hanorm haid

/-- **Three nodes as one.** -/
theorem Fused.flagged : q.Flagged := by
  obtain ⟨hid, hnorm, hscale⟩ := ha.slots h
  obtain ⟨q₁, q₂, q₃, h₁, h₂, h₃, h₄⟩ := h.steps
  refine Flagged.sameGraph ?_ h₄.1.toSameGraph h₄.1.flags
  have hflags : ∀ j, j ≠ id → j ≠ norm → q₃.flagsOf j = p.flagsOf j := fun j hj hj' => by
    rw [h₃.flags, if_neg hj, h₂.flags, if_neg hj', h₁.flags]
  have hshapes : ∀ j, j ≠ id → j ≠ norm → q₃.shapeOf j = q₁.shapeOf j := fun j hj hj' => by
    rw [h₃.shapes, if_neg hj, h₂.shapes, if_neg hj']
  have hdeps : ∀ j, j ≠ id → j ≠ norm →
      q₃.depsOf j = ((q₁.depsOf j).filter (· ≠ norm)).filter (· ≠ id) := fun j hj hj' => by
    rw [h₃.deps, if_neg hj, h₂.deps, if_neg hj']
  refine hp.of_views fun j hj => ?_
  rw [h₃.contains_iff, h₂.contains_iff, h₁.contains] at hj
  obtain ⟨hne, hne', hthere⟩ := hj
  refine ⟨j, hflags j hne hne', ?_⟩
  by_cases hjs : j = scale
  · subst hjs
    have hruns : q₃.runsKernelAt j := by
      obtain ⟨f, hf⟩ := h.fused
      refine ⟨prim.operation.shape, ?_, ?_⟩
      · rw [hshapes j hne hne', h₁.shapes, if_pos rfl]
      · rw [hf]
        rfl
    have hreads : ∀ a, a ∈ q₃.depsOf j ↔ a ∈ prim.arguments ∧ a ≠ norm ∧ a ≠ id := fun a => by
      have hself : a ∈ prim.arguments → a ≠ j := fun hmem he =>
        Before.irrefl ho.nodup j (he ▸ h.reads_before hl ho hid hnorm hscale hmem)
      rw [hdeps j hne hne', h₁.deps, if_pos rfl, List.mem_filter, List.mem_filter, List.mem_filter]
      simp only [ne_eq, decide_eq_true_eq]
      tauto
    have hsome : q₃.depsOf j ≠ [] := by
      obtain ⟨conv, hconv⟩ := h.convolution
      obtain ⟨a, hmem⟩ := List.exists_mem_of_ne_nil _ (argsOf_ne_nil_of_convolution hconv)
      rw [hid] at hmem
      exact List.ne_nil_of_mem ((hreads a).mpr (h.outside_of_reads hl ho ha hmem))
    rw [due_iff hruns, and_iff_right hsome, ← hp.constant j hthere, h.isConstant_iff hl ho ha hp]
    refine forall_congr' fun a => ?_
    rw [hreads, and_imp, and_imp]
    exact imp_congr_right fun _ => forall₂_congr fun hnot hnot' => by
      rw [isConstant_congr (hflags a hnot' hnot)]
  · have hread : norm ∉ p.depsOf j := fun hd => by
      have huser := (hl.edges norm j).mp hd
      rw [h.norm_users, List.mem_singleton] at huser
      exact hjs huser
    have hread' : id ∉ p.depsOf j := fun hd => by
      have huser := (hl.edges id j).mp hd
      rw [h.users, List.mem_singleton] at huser
      exact hne' huser
    refine due_congr (kindOf_congr ?_) ?_
    · rw [hshapes j hne hne', h₁.shapes, if_neg hjs]
    · rw [hdeps j hne hne', h₁.deps, if_neg hjs, Order.filter_ne_of_not_mem hread,
        Order.filter_ne_of_not_mem hread']
      exact List.map_congr_left fun d hd =>
        isConstant_congr (hflags d (fun he => hread' (he ▸ hd)) fun he => hread (he ▸ hd))

end Fused

theorem Absorbed.flagged (h : Absorbed p q id input) (hl : p.Linked) (hp : p.Flagged) :
    q.Flagged := by
  obtain ⟨a, padding, -, hcon⟩ := h.contracted hl
  obtain ⟨op, hop⟩ := h.activation
  exact hcon.flagged hl ⟨_, hop, rfl⟩ (fun _ => rfl) hp

theorem Merged.flagged {bound : Bool} (h : Merged p q bound id) (hl : p.Linked) (hp : p.Flagged) :
    q.Flagged := by
  obtain ⟨input, format, element, padding, absorbed, t, r, hcon, htask, -⟩ := h.contracted hl
  have hop : p.shapeOf id = some (.reorder ⟨"", format, element, []⟩) := by
    rw [shapeOf_eq_taskOf, htask, Option.map_some]
  exact hcon.flagged hl ⟨_, hop, rfl⟩ (fun t => kind_retargeted t.operation format element) hp

theorem Dropped.flagged (h : Dropped p q id input) (hl : p.Linked) (hp : p.Flagged) :
    q.Flagged := by
  obtain ⟨r, hr⟩ := h.copy.isReorder
  exact (h.extracted.contracted hl).flagged hl ⟨_, hr, rfl⟩ (fun _ => rfl) hp

/-- **A request** puts a reorder in between, or leads to one that is there. -/
theorem Served.flagged (h : Served p q m m' next index made) (hm : Numbered m) (hl : p.Linked)
    (hslim : p.Slim) (hp : p.Flagged) : q.Flagged := by
  obtain ⟨rfl, -⟩ | ⟨e, he, hins, -⟩ | ⟨-, e, -, hshare⟩ := h.cases hm
  · exact hp
  · have hreorder := (h.numbered hm).reorder_of_mem he
    refine hins.flagged hl ?_ ?_ hp
    · rw [hreorder]
      rfl
    · rw [hreorder]
      rfl
  · have hfirst := hshare.reads
    obtain ⟨hlt, hget⟩ := List.getElem?_eq_some_iff.mp hfirst
    have hone : (p.depsOf e.2.id).length = 1 := Nat.le_antisymm (hslim _ hshare.reorder) hlt
    obtain ⟨d, hd⟩ := List.length_eq_one_iff.mp hone
    rw [hd] at hfirst
    cases hfirst
    exact hshare.flagged hl hd hp

theorem Padded.flagged (h : Padded p q id) (hl : p.Linked) (hp : p.Flagged) : q.Flagged := by
  cases h with
  | none same => exact same ▸ hp
  | producer input padding work kept => exact hp.reworked work fun _ => rfl
  | reorder prim source layout padding reader shape named inserted =>
    refine inserted.flagged hl ?_ ?_ hp
    · rw [shape]
      rfl
    · rw [shape]
      rfl

/-- **A literal in the place of a constant** is constant. -/
theorem Folded.flagged (h : Folded p q id) (hp : p.Flagged) : q.Flagged := by
  obtain ⟨prim, ⟨l, v, hprim⟩, hreplaced⟩ := h.steps
  refine hreplaced.flagged hp (iff_of_true (due_of_literal ?_) ?_)
  · rw [kindOf_of_shapeOf ((hreplaced.shapes id).trans (if_pos rfl)), hprim]
    rfl
  · exact (hp.constant id hreplaced.there).mp h.constant

/-! ## What passes keep -/

/-- A graph as passes need it, with exact flags. -/
structure Tracked (p : Program) (m : List Entry) : Prop extends Based p m where
  flagged : p.Flagged

/-- Such a graph before nodes are bound. -/
structure Drafted (p : Program) (m : List Entry) : Prop extends Tracked p m where
  raw : p.Raw

theorem Tracked.rewrite (h : Tracked p m) (hr : Rewrite p m q m') (hq : q.Flagged) : Tracked q m' :=
  ⟨hr.based h.toBased, hq⟩

theorem Tracked.sameGraph (h : Tracked p m) (hq : SameGraph p q) (flags : q.flagsOf = p.flagsOf) :
    Tracked q m :=
  ⟨⟨h.toSound.kept hq.kept, hq.ranked h.ranked, h.numbered⟩, h.flagged.sameGraph hq flags⟩

theorem Drafted.rewrite (h : Drafted p m) (hr : Rewrite p m q m') (hq : q.Flagged) : Drafted q m' :=
  ⟨h.toTracked.rewrite hr hq, hr.raw h.raw h.numbered⟩

theorem Drafted.touched (h : Drafted p m) (hq : Touched p q) : Drafted q m :=
  h.rewrite (.touched hq.toReflagged) (h.flagged.sameGraph hq.toSameGraph hq.flags)

theorem Drafted.served (h : Drafted p m) (hnext : p.isWeighted next)
    (hq : Served p q m m' next index made) : Drafted q m' :=
  h.rewrite (.served hnext hq) (hq.flagged h.numbered h.linked h.raw.slim h.flagged)

theorem Tracked.weighed (h : Tracked p m) (hslim : p.Slim) (hnext : p.isWeighted next)
    (hq : Weighed p q m m' next index) : Tracked q m' ∧ q.Slim := by
  have hserved : ∀ {q : Program} {made : Option String}, Served p q m m' next index made →
      Tracked q m' ∧ q.Slim := fun hq =>
    ⟨h.rewrite (.served hnext hq) (hq.flagged h.numbered h.linked hslim h.flagged),
      hq.slim hslim h.numbered hnext.not_isReorder⟩
  cases hq with
  | unchanged served => exact hserved served
  | reordered p' r served planned =>
    obtain ⟨hp', hslim'⟩ := hserved served
    exact ⟨hp'.sameGraph planned.toSameGraph planned.flags, hslim'.sameGraph planned.toSameGraph⟩

section Cleanup

variable {I : Program → List Entry → Prop} (tracked : ∀ {p m}, I p m → Tracked p m)
  (rewrite : ∀ {p q m}, I p m → Rewrite p m q m → q.Flagged → I q m)
include tracked rewrite

theorem tracks_redundantReorders (h : I c.program c.preferences.made) :
    Ends (removeRedundantReorders env) (fun _ c' => I c'.program c'.preferences.made)
      (fun e _ => e.closes = false) c := by
  refine (removeRedundantReorders_ends env (I · c.preferences.made)
    (fun hp => ⟨(tracked hp).linked, (tracked hp).coherent, (tracked hp).ranked⟩)
    (fun hp hq => rewrite hp (.touched hq.toReflagged)
      ((tracked hp).flagged.sameGraph hq.toSameGraph hq.flags))
    (fun hp hq => rewrite hp (.merged hq)
      (hq.toMerged.flagged (tracked hp).linked (tracked hp).flagged))
    (fun hp hq => rewrite hp (.dropped hq) (hq.flagged (tracked hp).linked (tracked hp).flagged))
    h).imp_good fun _ c' hc => ?_
  rw [hc.2]
  exact hc.1

theorem tracks_constants (h : I c.program c.preferences.made) :
    Ends (propagateConstants env) (fun _ c' => I c'.program c'.preferences.made)
      (fun e _ => e.closes = false) c := by
  have htouched : ∀ {p q}, I p c.preferences.made → Touched p q → I q c.preferences.made :=
    fun hp hq => rewrite hp (.touched hq.toReflagged)
      ((tracked hp).flagged.sameGraph hq.toSameGraph hq.flags)
  rw [propagateConstants]
  split
  · exact h
  case h_2 ev _ =>
    rw [Transform.ends_liftM]
    exact foldConstants_ends ev (I · c.preferences.made)
      (fun hp => ⟨(tracked hp).linked, (tracked hp).coherent⟩) htouched
      (fun hp hq => rewrite hp (.folded hq) (hq.flagged (tracked hp).flagged))
      (fun hp unread unmarked hq => rewrite hp (.swept unread unmarked hq)
        (hq.flagged (tracked hp).linked unread (tracked hp).flagged))
      ((markConstants_touched (tracked h).linked (tracked h).flagged).imp_good
        fun _ _ hq => htouched h hq)

end Cleanup

/-! ## Before the binding -/

theorem drafted_trim (h : Drafted c.program c.preferences.made) (hw : c.program.WellFormed)
    (ho : c.program.Ordered) (ha : c.program.Aligned) :
    Ends (trimToOutputs env)
      (fun _ c' => Drafted c'.program c'.preferences.made ∧ c'.program.Ordered ∧
        c'.program.Aligned) (fun e _ => e.closes = false) c := by
  rw [trimToOutputs]
  split
  · exact ⟨h, ho, ha⟩
  rw [ends_bind, Transform.ends_liftM]
  refine (trim_effect h.linked).imp_good fun _ q hq => ?_
  obtain ⟨doomed, hcleared, hdoomed⟩ := hq
  have htrim := hcleared.trimmed hdoomed hw ho ha
  refine ⟨h.rewrite (.cleared hcleared fun _ j hj => ?_) (hcleared.flagged htrim h.flagged),
    htrim.ordered, htrim.aligned⟩
  rw [← htrim.marks]
  exact isMarked_of_not_contains fun hc => ((hcleared.contains_iff j).mp hc).1 hj

theorem drafted_layouts (h : Drafted c.program c.preferences.made) (ho : c.program.Ordered)
    (ha : c.program.Aligned) :
    Ends calculateLayouts
      (fun _ c' => Drafted c'.program c'.preferences.made ∧ c'.program.Ordered ∧
        c'.program.Aligned) (fun e _ => e.closes = false) c := by
  refine (calculateLayouts_ends h.linked h.coherent).imp_good fun _ c' hc => ?_
  obtain ⟨hpref, p, hsorted, hbefore, hfill⟩ := hc
  have hp := h.rewrite (.sorted hsorted) (h.flagged.sameGraph hsorted.toSameGraph hsorted.flags)
  have htouch := hfill.touched hp.linked
  rw [hpref]
  exact ⟨hp.touched htouch, htouch.ordered (congrArg Order.ids htouch.order)
    (hsorted.ordered_of_before ho hbefore), htouch.aligned (hsorted.aligned ha)⟩

theorem drafted_fusion (h : Drafted c.program c.preferences.made) (ho : c.program.Ordered)
    (ha : c.program.AlignedButFused) :
    Ends (fuse env) (fun _ c' => Drafted c'.program c'.preferences.made)
      (fun e _ => e.closes = false) c := by
  refine (fuse_ends env
    (fun p => Drafted p c.preferences.made ∧ p.Ordered ∧ p.AlignedButFused)
    (Drafted · c.preferences.made) (fun hp => hp.1.linked) (fun hp hq => ?_) (fun hp hq => ?_)
    (fun hp => hp.1) (fun hp => ⟨hp.linked, Or.inl hp.coherent, hp.ranked⟩)
    (fun hp hq => hp.touched hq)
    (fun hp hq _ => hp.rewrite (.absorbed hq) (hq.flagged hp.linked hp.flagged))
    (fun hp hq => hp.rewrite (.merged hq) (hq.toMerged.flagged hp.linked hp.flagged))
    ⟨h, ho, ha⟩).imp (fun _ c' hc => ?_) fun _ _ hb => hb.1
  · obtain ⟨hp, ho, ha⟩ := hp
    exact ⟨hp.touched hq, hq.ordered (congrArg Order.ids hq.order) ho, ha.touched hq⟩
  · obtain ⟨hp, ho, ha⟩ := hp
    have hs : Sequenced _ := ⟨hp.toSound, ho⟩
    exact ⟨hp.rewrite (.fused hq) (hq.flagged hp.linked ho ha hp.flagged), (hs.fused ha hq).ordered,
      ha.fused hp.linked hq⟩
  · rw [hc.2]
    exact hc.1

/-- **Putting slots into preferred layouts.** -/
theorem drafted_requests (h : Drafted c.program c.preferences.made) :
    Ends (runSteps env [.pass .inputReorders, .pass .biasReorders])
      (fun _ c' => Drafted c'.program c'.preferences.made) (fun e _ => e.closes = false) c := by
  have hbase : ∀ {p m}, Drafted p m → p.Linked ∧ p.Coherent := fun hp => ⟨hp.linked, hp.coherent⟩
  refine ends_runSteps_pass (reorderInputs_ends Drafted hbase (fun hp hq => hp.touched hq)
    (fun hp hn hq => hp.served hn hq) h) fun _ h₁ => ends_runSteps_last ?_
  exact reorderBias_ends Drafted hbase (fun hp hq => hp.touched hq)
    (fun hp hn hq => hp.served hn hq) h₁

theorem drafted_padding (h : Drafted c.program c.preferences.made) :
    Ends padInputs (fun _ c' => Drafted c'.program c'.preferences.made)
      (fun e _ => e.closes = false) c := by
  refine (padInputs_ends (Drafted · c.preferences.made) (fun hp => ⟨hp.linked, hp.coherent⟩)
    (fun hp hq => hp.touched hq)
    (fun hp hq => hp.rewrite (.padded hq) (hq.flagged hp.linked hp.flagged)) h).imp_good
    fun _ c' hc => ?_
  rw [hc.2]
  exact hc.1

/-- **The passes in front of the binding** keep flags exact. -/
theorem drafted_front {optimize : Bool} (h : Drafted c.program c.preferences.made)
    (hw : c.program.WellFormed) (ho : c.program.Ordered) (ha : c.program.Aligned) :
    Ends (runSteps env ((front optimize).map .pass))
      (fun _ c' => Drafted c'.program c'.preferences.made) (fun e _ => e.closes = false) c := by
  refine ends_front
    (J := fun d => Drafted d.program d.preferences.made ∧ d.program.Ordered ∧ d.program.Aligned)
    (K := fun d => Drafted d.program d.preferences.made ∧ d.program.Ordered ∧ d.program.Aligned)
    (L := fun d => Drafted d.program d.preferences.made) (drafted_trim h hw ho ha)
    (fun _ hd => drafted_layouts hd.1 hd.2.1 hd.2.2) (fun _ _ hd => hd.1) (fun _ d hd => ?_)
    fun d hd => ?_
  · refine ends_runSteps_pass (drafted_fusion hd.1 hd.2.1 fun j _ => hd.2.2 j) fun _ h₁ => ?_
    exact drafted_requests h₁
  · refine ends_runSteps_pass (tracks_redundantReorders (fun hp => hp.toTracked)
      (fun hp => hp.rewrite) hd) fun _ h₁ => ?_
    refine ends_runSteps_pass (drafted_padding h₁) fun _ h₂ => ends_runSteps_last ?_
    exact tracks_constants (fun hp => hp.toTracked) (fun hp => hp.rewrite) h₂

/-! ## From there to the end -/

theorem tracked_reorderWeights (h : Tracked c.program c.preferences.made) (hslim : c.program.Slim) :
    Ends (reorderWeights env) (fun _ c' => Tracked c'.program c'.preferences.made)
      (fun e _ => e.closes = false) c :=
  (reorderWeights_ends (fun p m => Tracked p m ∧ p.Slim)
    (fun hp => ⟨hp.1.linked, hp.1.coherent⟩)
    (fun hp hq => ⟨hp.1.sameGraph hq.toSameGraph hq.flags, hp.2.sameGraph hq.toSameGraph⟩)
    (fun hp hindex hq => hp.1.weighed hp.2 (isWeighted_of_mem_weightSlotsOf hindex) hq)
    (fun hp hq _ => ⟨hp.1.sameGraph hq.toSameGraph hq.flags, hp.2.sameGraph hq.toSameGraph⟩) env
    ⟨h, hslim⟩).imp_good fun _ _ hd => hd.1

theorem tracked_cleanup (h : Tracked c.program c.preferences.made) :
    Ends (runSteps env (cleanup.map .pass))
      (fun _ c' => Tracked c'.program c'.preferences.made) (fun e _ => e.closes = false) c := by
  refine ends_runSteps_pass (tracks_redundantReorders (fun hp => hp) (fun hp => hp.rewrite) h)
    fun _ h₁ => ends_runSteps_last ?_
  exact tracks_constants (fun hp => hp) (fun hp => hp.rewrite) h₁

/-- **The standard pipeline** keeps flags exact. -/
theorem tracked_standardPipeline {optimize : Bool} (h : Drafted c.program c.preferences.made)
    (hw : c.program.WellFormed) (ho : c.program.Ordered) (ha : c.program.Aligned) :
    Ends (runSteps env (standardPipeline optimize))
      (fun _ c' => Tracked c'.program c'.preferences.made) (fun e _ => e.closes = false) c := by
  refine ends_standardPipeline (J := fun d => Drafted d.program d.preferences.made)
    (K := fun d => Tracked d.program d.preferences.made ∧ d.program.Slim) (drafted_front h hw ho ha)
    (fun d hd => ?_) (fun _ hd => tracked_reorderWeights hd.1 hd.2) fun _ hd => tracked_cleanup hd
  refine (bindAll_ends env hd.linked hd.coherent).imp_good fun _ d' hd' => ?_
  obtain ⟨hbound, hpref⟩ := hd'
  rw [hpref]
  exact ⟨hd.toTracked.sameGraph hbound.toSameGraph hbound.flags,
    hd.raw.slim.sameGraph hbound.toSameGraph⟩

end Pass

/-! ## Compilations -/

/-- **Preparing a graph** makes its flags exact. -/
theorem Edit.prepare_flagged {p : Program} (h : p.Linked) (ho : p.Ordered) (ha : p.Aligned)
    (outputs : List String) :
    Ends (Edit.prepare outputs) (fun _ q => Remarked p q ∧ q.Flagged)
      (fun e _ => e.closes = false) p := by
  rw [prepare, ends_bind]
  refine (setOutputs_effect h outputs).imp (fun _ q hq => ?_) fun _ _ hb => hb.1
  obtain ⟨hq, -⟩ := hq
  rw [ends_bind]
  refine (mark_flagged hq.kept.linked (hq.ordered (congrArg Order.ids hq.order) ho)
    (hq.aligned ha)).imp (fun _ r hr => ?_) fun _ _ hb => hb.elim
  exact hr.imp (fun _ s hs => ⟨hq.toRemarked.trans hs.1.toRemarked, hs.2⟩) fun _ _ hb => hb.elim

/-- What is compiled has exact flags. -/
theorem flagged_compile {o : BuildOptions} {env : Environment} {b : Behaviours} {t : Topology}
    {session : Session} (ht : t.Distinct) :
    Ends (compile o env b t) (fun compiled _ => compiled.program.ExactFlags) (fun _ _ => True)
      session := by
  refine (ends_compile ht
    (fun p => (Pass.Drafted p [] ∧ p.WellFormed) ∧ p.Ordered ∧ p.Aligned)
    (fun p => p.Linked ∧ p.Flagged) (fun _ _ => trivial) (fun p hbuilt => ?_) (fun p hp => ?_)
    (fun hp => hp.1) (fun hp hq => ⟨hq.kept.linked, hp.2.sameGraph hq.toSameGraph hq.flags⟩)
    (fun _ hp hq => ⟨hq.kept.linked, hp.2.sameGraph hq.toSameGraph hq.flags⟩)
    fun _ _ => trivial).imp_good fun _ _ hc => hc.1.2.exactFlags hc.1.1
  · refine (prepare_flagged hbuilt.wellFormed.toLinked hbuilt.topological hbuilt.slots
      o.outputs).imp_good fun _ q hq => ?_
    obtain ⟨hmarked, hflagged⟩ := hq
    exact ⟨⟨⟨⟨hbuilt.based hmarked, hflagged⟩, hbuilt.raw.sameGraph hmarked.toSameGraph
      hmarked.plans⟩, hmarked.kept.wellFormed hbuilt.wellFormed⟩,
      hmarked.ordered (congrArg Order.ids hmarked.order) hbuilt.topological,
      hmarked.aligned hbuilt.slots⟩
  · obtain ⟨⟨hdraft, hw⟩, ho, ha⟩ := hp
    exact (Pass.tracked_standardPipeline (c := ⟨p, .initial, session⟩) hdraft hw ho ha).imp_good
      fun _ _ hc => ⟨hc.linked, hc.flagged⟩

/-- **Flags stay exact though they are not set again**: in what is compiled a node is marked constant
if and only if it is a literal, or is no input of the network and has dependencies that are all marked
constant; and as part of the data flow if and only if it is not marked constant.  It is so from the
start, for marking the constants and the data flow of a graph does not fail. -/
theorem compile_exactFlags (b : Behaviours) (t : Topology) (ht : t.Distinct) :
    (∀ (o : BuildOptions) (env : Environment) (session session' : Session) (compiled : Compiled),
      (compile o env b t).run.run session = (.ok compiled, session') →
        compiled.program.ExactFlags) ∧
    ∀ (outputs : List String) (p q : Program), Program.ofTopology t b = .ok p →
      (Edit.setOutputs outputs).run.run p = (.ok (), q) →
        ∃ q₁ q₂, Edit.markConstants.run.run q = (.ok (), q₁) ∧
          Edit.markDataFlow.run.run q₁ = (.ok (), q₂) ∧ q₂.ExactFlags := by
  refine ⟨fun o env session session' compiled hrun => ?_, fun outputs p q hp hq => ?_⟩
  · have hends := @flagged_compile o env b t session ht
    rw [Ends, hrun] at hends
    exact hends
  · have hbuilt := built_of_ofTopology ht hp
    have houtputs := setOutputs_effect hbuilt.wellFormed.toLinked outputs
    rw [Ends, hq] at houtputs
    obtain ⟨hset, -⟩ := houtputs
    have hends := mark_flagged hset.kept.linked
      (hset.ordered (congrArg Order.ids hset.order) hbuilt.topological)
      (hset.aligned hbuilt.slots)
    rw [Ends] at hends
    generalize Edit.markConstants.run.run q = out at hends ⊢
    obtain ⟨e | u, q₁⟩ := out
    · exact hends.elim
    have hends' : Ends markDataFlow _ _ q₁ := hends
    rw [Ends] at hends'
    generalize hrun : Edit.markDataFlow.run.run q₁ = out at hends'
    obtain ⟨e | u', q₂⟩ := out
    · exact hends'.elim
    exact ⟨q₁, q₂, rfl, hrun, hends'.2.exactFlags hends'.1.kept.linked⟩

/-- An input that is weighted by a literal. -/
def Topology.layered : Topology :=
  ⟨[⟨"x", Padding.none, .inputLayout (.dense .f32 .bfyx ⟨1, 1, 1, 1⟩)⟩,
    ⟨"w", Padding.none, .data (.dense .f32 .oiyx ⟨1, 1, 1, 1⟩) (.f32 #[Single.one])⟩,
    ⟨"c", Padding.none, .fullyConnected ⟨"x", "w", none, Activation.none⟩⟩]⟩

/-- The weights are put into another layout, and what does that is constant like they are. -/
theorem compile_exactFlags_layered : ∃ compiled session',
    (compile { BuildOptions.plain ["c"] with optimize := true } ⟨.builtin .default, none, false⟩
      .builtin .layered).run.run ⟨.unset, []⟩ = (.ok compiled, session') ∧
    compiled.program.ExactFlags ∧ compiled.program.isConstant "reorder_0_w" = true ∧
    compiled.program.isConstant "c" = false ∧
    ∃ p q, Program.ofTopology .layered .builtin = .ok p ∧
      (Edit.setOutputs ["c"]).run.run p = (.ok (), q) ∧
      ∃ q₁ q₂, Edit.markConstants.run.run q = (.ok (), q₁) ∧
        Edit.markDataFlow.run.run q₁ = (.ok (), q₂) ∧ q₂.ExactFlags := by
  obtain ⟨compiled, hrun⟩ := exists_run_eq_ok
    (x := compile { BuildOptions.plain ["c"] with optimize := true }
      ⟨.builtin .default, none, false⟩ .builtin .layered) (s := ⟨.unset, []⟩) (by decide +kernel)
  have hflags : ((compile { BuildOptions.plain ["c"] with optimize := true }
      ⟨.builtin .default, none, false⟩ .builtin .layered).run.run ⟨.unset, []⟩).1.toOption.map
        (fun c => (c.program.isConstant "reorder_0_w", c.program.isConstant "c"))
      = some (true, false) := by decide +kernel
  rw [hrun] at hflags
  obtain ⟨hconstant, hvariable⟩ := Prod.mk.inj (Option.some.inj hflags)
  obtain ⟨hcompiled, hprepared⟩ :=
    compile_exactFlags .builtin .layered (by unfold Topology.Distinct; decide)
  obtain ⟨p, hp⟩ : ∃ p, Program.ofTopology .layered .builtin = .ok p := ⟨_, rfl⟩
  have hset : (Program.ofTopology .layered .builtin).toOption.map
      (fun p => ((Edit.setOutputs ["c"]).run.run p).1.toBool) = some true := by decide +kernel
  rw [hp] at hset
  obtain ⟨_, hq⟩ := exists_run_eq_ok (Option.some.inj hset)
  exact ⟨compiled, _, hrun, hcompiled _ _ _ _ compiled hrun, hconstant, hvariable, p, _, hp, hq,
    hprepared ["c"] p _ hp hq⟩

end NetPlan
