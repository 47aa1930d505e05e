import NetPlan.Pass.Pipeline
import NetPlan.Proofs.Graph.Resort
import NetPlan.Proofs.Layout.Cache

/-!
# Proofs/Pass/Quiet — rewrites that report no change made none

A rewrite looks at the graph, computes layouts on the way, and either gives up or goes ahead and reports
it.  `Leaves R still x` says that wherever `x` succeeds with an answer that is `still`, it leaves a
state in the relation `R` to where it started; `Never still x` that it gives no such answer.

* `Leaves.bind` — the rule of sequence: what a part reports decides whether the rest may go ahead;
* `Idle` — the relation of interest: nothing differs but the flags of constants and data flow, and
  caches that were empty;
* `leaves_fuse`, `leaves_padInputs`, … — so for every pass but the binding of kernels and the weights
  they ask for: with a count of nothing the program is idle.  Nothing is asked of the program.
-/

namespace NetPlan

open Program

variable {σ α β : Type}

/-! ## Answers that stand for no change -/

/-- Wherever the computation succeeds with an answer that is `still`, the state it leaves is related to
the one it started in. -/
def Leaves (R : σ → σ → Prop) (still : α → Prop) (x : ExceptT CompileError (StateM σ) α) : Prop :=
  ∀ s, Ends x (fun a t => still a → R s t) (fun _ _ => True) s

/-- The computation gives no answer that is `still`. -/
def Never (still : α → Prop) (x : ExceptT CompileError (StateM σ) α) : Prop :=
  ∀ s, Ends x (fun a _ => ¬ still a) (fun _ _ => True) s

section Rules

variable {R : σ → σ → Prop} {still : α → Prop} {quiet : β → Prop}
  {x : ExceptT CompileError (StateM σ) β} {f : β → ExceptT CompileError (StateM σ) α}

/-- A result that is not quiet. -/
theorem never_pure {a : α} (h : ¬ still a) :
    Never still (pure a : ExceptT CompileError (StateM σ) α) := fun _ => h

/-- What never ends quietly does not after more. -/
theorem never_bind (h : ∀ b, Never still (f b)) : Never still (x >>= f) := fun s => by
  rw [ends_bind]
  exact (ends_trivial x s).imp_good fun b t _ => h b t

/-- Neither branch ends quietly. -/
theorem never_ite {c : Prop} [Decidable c] {x y : ExceptT CompileError (StateM σ) α}
    (hx : Never still x) (hy : Never still y) : Never still (if c then x else y) := by
  split
  · exact hx
  · exact hy

/-- What never ends quietly may do anything. -/
theorem Never.leaves {x : ExceptT CompileError (StateM σ) α} (h : Never still x) :
    Leaves R still x := fun s => (h s).imp_good fun _ _ ha hs => absurd hs ha

/-- A failure is not asked for anything. -/
theorem leaves_throw (e : CompileError) :
    Leaves R still (throw e : ExceptT CompileError (StateM σ) α) := fun _ => trivial

/-- What is left in place whatever the answer. -/
theorem Leaves.ends {x : ExceptT CompileError (StateM σ) α} (h : Leaves R (fun _ => True) x)
    (s : σ) : Ends x (fun _ t => R s t) (fun _ _ => True) s :=
  (h s).imp_good fun _ _ ht => ht trivial

/-- Fewer results may be quiet. -/
theorem Leaves.mono {x : ExceptT CompileError (StateM σ) α} {still' : α → Prop}
    (hx : Leaves R still x) (h : ∀ a, still' a → still a) : Leaves R still' x := fun s =>
  (hx s).imp_good fun a _ ht ha => ht (h a ha)

/-- The relation may be weaker. -/
theorem Leaves.of_imp {x : ExceptT CompileError (StateM σ) α} {R' : σ → σ → Prop}
    (hx : Leaves R still x) (h : ∀ {s t}, R s t → R' s t) : Leaves R' still x := fun s =>
  (hx s).imp_good fun _ _ ht ha => h (ht ha)

variable [IsPreorder σ R]

/-- A result alone changes nothing. -/
theorem leaves_pure (a : α) : Leaves R still (pure a : ExceptT CompileError (StateM σ) α) :=
  fun s _ => refl_of R s

/-- **One computation after another**: behind an answer that is not `quiet` there must not come one
that is `still`. -/
theorem Leaves.bind (hx : Leaves R quiet x) (hquiet : ∀ b, quiet b → Leaves R still (f b))
    (hloud : ∀ b, ¬ quiet b → Never still (f b)) : Leaves R still (x >>= f) := fun s => by
  rw [ends_bind]
  refine (hx s).imp_good fun b t ht => ?_
  by_cases hb : quiet b
  · exact (hquiet b hb t).imp_good fun a u hu ha => trans_of R (ht hb) (hu ha)
  · exact (hloud b hb t).imp_good fun a u hu ha => absurd ha hu

/-- What leaves everything in place, and then the rest. -/
theorem Leaves.seq (hx : Leaves R (fun _ => True) x) (hf : ∀ b, Leaves R still (f b)) :
    Leaves R still (x >>= f) := hx.bind (fun b _ => hf b) fun _ hb => absurd trivial hb

/-- Looking changes nothing. -/
theorem leaves_get {still : σ → Prop} :
    Leaves R still (get : ExceptT CompileError (StateM σ) σ) := fun s _ => refl_of R s

/-- A loop is as quiet as its body. -/
theorem leaves_forIn {body : β → PUnit → ExceptT CompileError (StateM σ) (ForInStep PUnit)}
    {still : PUnit → Prop} (h : ∀ b u, Leaves R (fun _ => True) (body b u)) :
    ∀ (xs : List β) (u : PUnit), Leaves R still (forIn xs u body)
  | [], u => leaves_pure u
  | b :: xs, u => by
      rw [List.forIn_cons]
      refine (h b u).seq fun r => ?_
      cases r with
      | done u => exact leaves_pure u
      | yield u => exact leaves_forIn h xs u

/-- A list of quiet steps is quiet. -/
theorem leaves_mapM {f : β → ExceptT CompileError (StateM σ) α} {still : List α → Prop}
    (h : ∀ b, Leaves R (fun _ => True) (f b)) : ∀ xs : List β, Leaves R still (xs.mapM f)
  | [] => by
      rw [List.mapM_nil]
      exact leaves_pure []
  | b :: xs => by
      rw [List.mapM_cons]
      exact (h b).seq fun a => (leaves_mapM h xs).seq fun as => leaves_pure (a :: as)

/-- A walk is as quiet as its visits. -/
theorem leaves_walk {visit : String → ExceptT CompileError (StateM σ) (List String)}
    {still : List String → Prop} (h : ∀ id, Leaves R (fun _ => True) (visit id)) :
    ∀ (steps : Nat) (queue seen : List String), Leaves R still (walk visit steps queue seen)
  | 0, _, _ => leaves_pure _
  | _ + 1, [], _ => leaves_pure _
  | steps + 1, id :: queue, seen => by
      rw [walk]
      split
      · exact leaves_walk h steps queue seen
      · exact (h id).seq fun further => leaves_walk h steps _ _

end Rules

/-! ## Idle programs -/

/-- The node without its cache and without the flags of constants and data flow. -/
def Node.bare (n : Node) : Node :=
  { n with layout := none, isConstant := false, isFrontier := false, isDataFlow := false }

namespace Program

/-- The program without caches and flags. -/
def bare (p : Program) : Program := p.updateAll Node.bare

/-- `q` is `p` but for the flags of constants and data flow, and for caches that were filled. -/
structure Idle (p q : Program) : Prop where
  same : q.bare = p.bare
  cached : ∀ id l, p.layoutOf id = some l → q.layoutOf id = some l

instance : IsPreorder Program Idle where
  refl _ := ⟨rfl, fun _ _ h => h⟩
  trans _ _ _ h h' := ⟨h'.same.trans h.same, fun id l hl => h'.cached id l (h.cached id l hl)⟩

variable {p q : Program} {id : String}

/-- Caches apart the same, layouts apart the same. -/
theorem bare_eq_of_uncached (h : q.uncached = p.uncached) : q.bare = p.bare := by
  have hbare : ∀ p : Program, p.bare = p.uncached.bare := fun p => by
    rw [bare, bare, uncached, updateAll, updateAll, updateAll, List.map_map]
    rfl
  rw [hbare, h, ← hbare]

/-- Changing flags. -/
theorem idle_update (p : Program) (id : String) {f : Node → Node} (hid : ∀ n, (f n).id = n.id)
    (hf : ∀ n, (f n).bare = n.bare) (hlayout : ∀ n, (f n).layout = n.layout) :
    Idle p (p.update id f) where
  same := by
    rw [bare, bare, updateAll, updateAll, update, List.map_map]
    refine congrArg (fun ns => ({ p with nodes := ns } : Program))
      (List.map_congr_left fun m _ => ?_)
    rw [Function.comp_apply]
    split
    · exact hf m
    · rfl
  cached j l hl := by
    rw [layoutOf, node?_update hid]
    split
    case isTrue hj =>
      rw [layoutOf] at hl
      obtain ⟨n, hn, hnl⟩ := Option.bind_eq_some_iff.mp hl
      rw [hn, Option.map_some, Option.bind_some, hlayout, hnl]
    case isFalse => exact hl

end Program

namespace Edit

variable {still : α → Prop}

/-- Looking up a node changes nothing. -/
theorem leaves_node {still : Node → Prop} (id : String) : Leaves Idle still (node id) := fun p => by
  rw [ends_node]
  exact ⟨fun _ _ _ => refl_of Idle p, fun _ => trivial⟩

/-- A result from elsewhere changes nothing. -/
theorem leaves_ofExcept (r : Except CompileError α) : Leaves Idle still (ofExcept r) := fun p => by
  rw [ends_ofExcept]
  exact ⟨fun _ _ _ => refl_of Idle p, fun _ _ => trivial⟩

/-- **A layout is cached where there was none**, whatever the caches hold. -/
theorem leaves_layoutWithin {still : Layout → Prop} : ∀ (depth : Nat) (id : String),
    Leaves Idle still (layoutWithin depth id)
  | 0, _ => leaves_throw _
  | depth + 1, id => fun p => by
      rw [layoutWithin, ends_bind, ends_node]
      refine ⟨fun n hn => ?_, fun _ => trivial⟩
      split
      case h_1 => exact leaves_pure _ p
      case h_2 hempty =>
        rw [ends_bind]
        refine ((leaves_mapM (leaves_layoutWithin depth) _).ends p).imp_good fun inputs q hidle => ?_
        simp only [ends_bind, ends_get, ends_ofExcept, ends_change, ends_pure]
        refine ⟨fun _ _ => ⟨fun l _ => ⟨fun m _ _ => ⟨?_, fun j k hj => ?_⟩, fun _ => trivial⟩,
          fun _ _ => trivial⟩, fun _ _ => trivial⟩
        · exact (bare_eq_of_uncached (uncached_update_layout q id l)).trans hidle.same
        · -- the node had no cache to begin with, so this is another one
          have hne : j ≠ id := fun he => by
            rw [he, layoutOf, hn, Option.bind_some, hempty] at hj
            cases hj
          have hlayout := hidle.cached j k hj
          rwa [layoutOf, node?_update (f := fun m : Node => { m with layout := some l })
            fun _ => rfl, if_neg hne]

/-- Asking for a layout fills caches at most. -/
theorem leaves_layout {still : Layout → Prop} (id : String) : Leaves Idle still (layout id) :=
  leaves_get.seq fun _ => leaves_layoutWithin _ id

/-- Asking for the layouts that are read fills caches at most. -/
theorem leaves_inputLayouts {still : List Layout → Prop} (id : String) :
    Leaves Idle still (inputLayouts id) :=
  (leaves_node id).seq fun _ => leaves_mapM leaves_layout _

/-- **Where nothing is taken out** nothing was touched. -/
theorem leaves_extract (id : String) : Leaves Idle (· = false) (extract id) := by
  rw [extract]
  refine (leaves_node id).seq fun n => ?_
  split
  · exact leaves_pure false
  · refine (leaves_node _).seq fun source => ?_
    split
    · exact leaves_pure false
    · exact (never_bind fun _ => never_bind fun _ => never_ite
        (never_bind fun _ => never_ite (never_bind fun _ => never_bind fun _ => never_pure (by simp))
          (never_pure (by simp)))
        (never_ite (never_bind fun _ => never_bind fun _ => never_pure (by simp))
          (never_pure (by simp)))).leaves

end Edit

/-! ## Transformations -/

/-- Compilations whose programs are related. -/
def Compilation.On (R : Program → Program → Prop) (c c' : Compilation) : Prop :=
  R c.program c'.program

instance {R : Program → Program → Prop} [IsPreorder Program R] :
    IsPreorder Compilation (Compilation.On R) where
  refl c := refl_of R c.program
  trans _ _ _ h h' := trans_of R h h'

/-- A compilation with an idle program. -/
abbrev Compilation.Idle : Compilation → Compilation → Prop := Compilation.On Program.Idle

namespace Transform

open Compilation

section Lift

variable {R : Program → Program → Prop} [IsPreorder Program R] {still : α → Prop}

omit [IsPreorder Program R] in
/-- An edit is as quiet inside a pass. -/
theorem leaves_liftM {e : Edit α} (h : Leaves R still e) :
    Leaves (On R) still (liftM e : Transform α) := fun c => by
  rw [ends_liftM]
  exact h c.program

/-- Looking at the graph changes nothing. -/
theorem leaves_program {still : Program → Prop} : Leaves (On R) still program :=
  fun c _ => refl_of (On R) c

/-- Looking at the preferences changes nothing. -/
theorem leaves_preferences {still : Preferences → Prop} : Leaves (On R) still preferences :=
  fun c _ => refl_of (On R) c

/-- Preferences are no part of the graph. -/
theorem leaves_setPreferences {still : Unit → Prop} (preferences : Preferences) :
    Leaves (On R) still (setPreferences preferences) := fun c _ => refl_of R c.program

end Lift

/-- **A count of nothing**: no member of the list was a success. -/
theorem leaves_countM {f : String → Transform Bool}
    (h : ∀ id, Leaves Compilation.Idle (· = false) (f id)) :
    ∀ ids : List String, Leaves Compilation.Idle (· = 0) (countM f ids)
  | [] => leaves_pure 0
  | id :: ids => by
      rw [countM]
      refine (h id).bind (fun here hhere => ?_) fun here hhere => ?_
      · refine (leaves_countM h ids).bind (fun _ _ => leaves_pure _) fun k hk => never_pure ?_
        omega
      · refine never_bind fun k => never_pure ?_
        rw [if_pos (by simpa using hhere)]
        omega

/-- A count of nothing done means that nothing was done. -/
theorem leaves_countNodes {f : String → Transform Bool}
    (h : ∀ id, Leaves Compilation.Idle (· = false) (f id)) :
    Leaves Compilation.Idle (· = 0) (countNodes f) :=
  leaves_program.seq fun p => leaves_countM h p.order.ids

end Transform

/-! ## Passes -/

namespace Pass

open Edit Transform

/-! ### Fusion -/

/-- Comparing sizes fills caches at most. -/
theorem leaves_allPerFeature {still : Bool → Prop} (features : Nat) : ∀ ids : List String,
    Leaves Program.Idle still (allPerFeature features ids)
  | [] => leaves_pure true
  | id :: ids => by
      rw [allPerFeature]
      refine (leaves_layout id).seq fun l => ?_
      split
      · exact leaves_pure false
      · exact leaves_allPerFeature features ids

/-- A convolution that is not fused is left as it is. -/
theorem leaves_fuseConvolution (id : String) :
    Leaves Program.Idle (· = false) (fuseConvolution id) := by
  rw [fuseConvolution]
  refine (leaves_node id).seq fun n => ?_
  split
  case h_2 => exact leaves_pure false
  split
  · exact leaves_pure false
  split
  case h_2 => exact leaves_pure false
  refine (leaves_node _).seq fun norm => ?_
  split
  case h_2 => exact leaves_pure false
  split
  · exact leaves_pure false
  split
  case h_2 => exact leaves_pure false
  refine (leaves_node _).seq fun scaling => ?_
  split
  case h_2 => exact leaves_pure false
  split
  · exact leaves_pure false
  refine (leaves_layout id).seq fun output => ?_
  split
  · exact leaves_pure false
  refine (leaves_allPerFeature _ _).seq fun fits => ?_
  split
  · exact leaves_pure false
  · exact (never_bind fun _ => never_bind fun _ => never_bind fun _ => never_bind fun _ =>
      never_pure (by simp)).leaves

/-- An activation that is not absorbed is left as it is. -/
theorem leaves_absorbActivation (debug : Bool) (id : String) :
    Leaves Program.Idle (· = false) (absorbActivation debug id) := by
  rw [absorbActivation]
  refine (leaves_node id).seq fun n => ?_
  split
  case h_2 => exact leaves_pure false
  split
  case h_2 => exact leaves_pure false
  split
  · exact leaves_pure false
  refine (leaves_layout _).seq fun l => ?_
  split
  · exact leaves_pure false
  refine (leaves_node _).seq fun source => ?_
  split
  · exact leaves_pure false
  refine (leaves_extract id).bind (fun taken htaken => ?_) fun taken htaken => ?_
  · rw [htaken]
    exact leaves_pure false
  · rw [if_neg (by simpa using htaken)]
    exact never_bind fun _ => never_bind fun _ => never_bind fun _ => never_bind fun _ =>
      never_pure (by simp)

/-- Reorders that are not merged are left as they are. -/
theorem leaves_mergeReorders (selector : Option Selector) (id : String) :
    Leaves Compilation.Idle (· = false) (mergeReorders selector id) := by
  rw [mergeReorders]
  refine (leaves_liftM (leaves_node id)).seq fun n => ?_
  split
  case h_2 => exact leaves_pure false
  split
  · exact leaves_pure false
  split
  case h_2 => exact leaves_pure false
  refine (leaves_liftM (leaves_node _)).seq fun source => ?_
  split
  · exact leaves_pure false
  refine (leaves_liftM (leaves_extract id)).bind (fun taken htaken => ?_) fun taken htaken => ?_
  · rw [htaken]
    exact leaves_pure false
  · rw [if_neg (by simpa using htaken)]
    refine never_bind fun _ => never_bind fun _ => never_bind fun _ => never_ite ?_ ?_
    · split
      · exact never_bind fun _ => never_pure (by simp)
      · exact never_pure (by simp)
    · exact never_pure (by simp)

/-- So does a count over the nodes that are still there. -/
theorem leaves_countPresent {f : String → Transform Bool}
    (h : ∀ id, Leaves Compilation.Idle (· = false) (f id)) :
    Leaves Compilation.Idle (· = 0) (countPresent f) :=
  leaves_countNodes fun id => leaves_program.seq fun p => by
    split
    · exact h id
    · exact leaves_pure false

/-- Statistics report no change just if nothing was counted. -/
theorem changed_ofCounts {applied removed : Nat} :
    (PassStats.ofCounts applied removed).changed = false ↔ applied = 0 ∧ removed = 0 := by
  rw [PassStats.ofCounts, Bool.or_eq_false_iff, decide_eq_false_iff_not, decide_eq_false_iff_not]
  omega

/-- **Fusion** that fused nothing. -/
theorem leaves_fuse (env : Environment) :
    Leaves Compilation.Idle (·.changed = false) (fuse env) := by
  rw [fuse]
  refine leaves_program.seq fun before => ?_
  refine (leaves_countPresent fun id => leaves_liftM (leaves_fuseConvolution id)).bind
    (fun convolutions _ => ?_) fun convolutions h => ?_
  · refine (leaves_countPresent fun id => leaves_liftM (leaves_absorbActivation env.debug id)).bind
      (fun activations _ => ?_) fun activations h => ?_
    · refine (leaves_countPresent (leaves_mergeReorders none)).bind
        (fun reorders _ => leaves_program.seq fun after => leaves_pure _) fun reorders h => ?_
      refine never_bind fun after => never_pure ?_
      rw [changed_ofCounts]
      omega
    · refine never_bind fun reorders => never_bind fun after => never_pure ?_
      rw [changed_ofCounts]
      omega
  · refine never_bind fun activations => never_bind fun reorders => never_bind fun after =>
      never_pure ?_
    rw [changed_ofCounts]
    omega

/-! ### Redundant reorders -/

/-- A reorder that is not removed is left as it is. -/
theorem leaves_removeIdentity (id : String) :
    Leaves Program.Idle (· = false) (removeIdentity id) := by
  rw [removeIdentity]
  refine (leaves_node id).seq fun n => ?_
  split
  case h_2 => exact leaves_pure false
  split
  · exact leaves_pure false
  split
  case h_2 => exact leaves_pure false
  rename_i input _
  have hrest : Leaves Program.Idle (· = false) (do
      let output ← layout id
      let current ← layout input
      if output ≠ current then
        return false
      extract id) :=
    (leaves_layout id).seq fun output => (leaves_layout input).seq fun current => by
      split
      · exact leaves_pure false
      · exact leaves_extract id
  split
  · refine (leaves_node input).seq fun source => ?_
    split
    · exact leaves_pure false
    · exact hrest
  · exact hrest

/-- **The removal of redundant reorders** that found none. -/
theorem leaves_removeRedundantReorders (env : Environment) :
    Leaves Compilation.Idle (·.changed = false) (removeRedundantReorders env) := by
  rw [removeRedundantReorders]
  refine leaves_program.seq fun before => ?_
  refine (leaves_countNodes fun id => leaves_program.seq fun p => ?_).bind
    (fun applied _ => leaves_program.seq fun after => leaves_pure _) fun applied h => ?_
  · split
    · exact leaves_pure false
    · refine (leaves_mergeReorders _ id).bind (fun merged hmerged => ?_) fun merged hmerged => ?_
      · rw [hmerged]
        exact leaves_liftM (leaves_removeIdentity id)
      · rw [if_pos (by simpa using hmerged)]
        exact never_pure (by simp)
  · refine never_bind fun after => never_pure ?_
    rw [changed_ofCounts]
    omega

/-! ### Padding -/

/-- Looking up an input changes nothing. -/
theorem leaves_inputOf {still : String → Prop} (id : String) :
    Leaves Program.Idle still (inputOf id) := by
  rw [inputOf]
  refine (leaves_node id).seq fun n => ?_
  split
  · exact leaves_pure _
  · exact leaves_throw _

/-- An input that is not padded is left as it is. -/
theorem leaves_padInput (id : String) (needed : Padding) :
    Leaves Program.Idle (· = false) (padInput id needed) := by
  rw [padInput]
  refine (leaves_inputOf id).seq fun input => (leaves_layout input).seq fun current => ?_
  split
  · exact leaves_pure false
  · refine (never_bind fun producer => never_ite ?_ ?_).leaves
    · exact never_bind fun _ => never_pure (by simp)
    · exact never_bind fun _ => never_bind fun _ => never_pure (by simp)

/-- So is one whose padding cannot be told. -/
theorem leaves_padBy (id : String) (needed : Option Padding) :
    Leaves Program.Idle (· = false) (padBy id needed) := by
  cases needed with
  | some needed => exact leaves_padInput id needed
  | none => exact leaves_throw _

/-- So is the input of a convolution. -/
theorem leaves_padConvolution (id : String) (c : Convolution) (plane : Planar) :
    Leaves Program.Idle (· = false) (padConvolution id c plane) := by
  rw [padConvolution]
  refine (leaves_inputLayouts id).seq fun inputs => ?_
  split
  · exact leaves_padBy id _
  · exact leaves_throw _

/-- Asking for a size fills caches at most. -/
theorem leaves_asksForSize {still : Bool → Prop} (id : String) :
    Leaves Program.Idle still (asksForSize id) := by
  rw [asksForSize]
  refine (leaves_node id).seq fun n => ?_
  split
  · split
    · refine (leaves_inputLayouts id).seq fun inputs => ?_
      split
      · exact leaves_ofExcept _
      · exact leaves_pure _
    · exact leaves_pure _
  · split
    · exact (leaves_inputOf id).seq fun input => (leaves_layout input).seq fun l =>
        leaves_ofExcept _
    · exact leaves_pure _
  · exact leaves_pure _

/-- So does asking all nodes. -/
theorem leaves_anyAsksForSize {still : Bool → Prop} : ∀ ids : List String,
    Leaves Program.Idle still (anyAsksForSize ids)
  | [] => leaves_pure false
  | id :: ids => by
      rw [anyAsksForSize]
      refine (leaves_asksForSize id).seq fun asks => ?_
      split
      · exact leaves_pure true
      · exact leaves_anyAsksForSize ids

/-- A convolution that asks for no size is left as it is. -/
theorem leaves_padForSize (id : String) : Leaves Program.Idle (· = false) (padForSize id) := by
  rw [padForSize]
  refine (leaves_node id).seq fun n => ?_
  split
  case h_2 => exact leaves_pure false
  split
  · exact leaves_padConvolution id _ _
  · exact leaves_pure false

/-- A convolution in another format is left as it is. -/
theorem leaves_padForOutput (id : String) : Leaves Program.Idle (· = false) (padForOutput id) := by
  rw [padForOutput]
  refine (leaves_node id).seq fun n => ?_
  split
  case h_2 => exact leaves_pure false
  refine (leaves_layout id).seq fun output => ?_
  split
  · exact leaves_pure false
  · exact leaves_padConvolution id _ _

/-- **The padding of inputs** that padded none. -/
theorem leaves_padInputs : Leaves Compilation.Idle (·.changed = false) padInputs := by
  rw [padInputs]
  refine leaves_program.seq fun before => (leaves_liftM (leaves_anyAsksForSize _)).seq fun asks => ?_
  have hrest : ∀ sized : Nat, Leaves Compilation.Idle (·.changed = false) (do
      let rest ← countNodes fun id => padForOutput id
      return PassStats.ofCounts (sized + rest) (before.size - (← Transform.program).size)) :=
    fun sized => by
      refine (leaves_countNodes fun id => leaves_liftM (leaves_padForOutput id)).bind
        (fun rest _ => leaves_program.seq fun after => leaves_pure _) fun rest h => ?_
      refine never_bind fun after => never_pure ?_
      rw [changed_ofCounts]
      omega
  split
  · refine (leaves_countNodes fun id => leaves_liftM (leaves_padForSize id)).bind
      (fun sized _ => hrest sized) fun sized h => ?_
    refine never_bind fun rest => never_bind fun after => never_pure ?_
    rw [changed_ofCounts]
    omega
  · exact hrest 0

/-! ### Trimming -/

/-- If nothing is trimmed, nothing is changed. -/
theorem leaves_trim : Leaves Program.Idle (· = 0) Edit.trim := by
  rw [Edit.trim, neededForOutputs, bind_assoc]
  refine leaves_get.seq fun p => ?_
  refine (leaves_walk (fun id => (leaves_node id).seq fun n => leaves_pure _) _ _ _).seq
    fun needed => leaves_get.seq fun p => ?_
  dsimp only
  generalize List.filter _ p.order.ids = doomed
  cases doomed with
  | nil => exact leaves_pure 0
  | cons id ids => exact (never_bind fun _ => never_pure (by simp)).leaves

/-- **Trimming** that removed nothing. -/
theorem leaves_trimToOutputs (env : Environment) :
    Leaves Compilation.Idle (·.changed = false) (trimToOutputs env) := by
  rw [trimToOutputs]
  split
  · exact leaves_pure _
  · refine (leaves_liftM leaves_trim).bind (fun removed _ => leaves_pure _) fun removed h =>
      never_pure ?_
    rw [changed_ofCounts]
    exact fun h' => h h'.2

/-! ### Preferred layouts -/

/-- A reorder that is needed is put in place. -/
theorem never_insertReorder {choice : ReorderChoice} (h : choice ≠ .notNeeded) (next : String)
    (index : Nat) : Never (· = none) (insertReorder choice next index) := by
  unfold insertReorder
  split
  · exact absurd rfl h
  · exact never_bind fun _ => never_pure (by simp)
  · refine never_bind fun p => ?_
    dsimp only
    split
    · exact never_bind fun _ => never_bind fun _ => never_bind fun _ => never_pure (by simp)
    · exact never_bind fun _ => never_pure (by simp)

/-- If no reorder is inserted, nothing is changed. -/
theorem leaves_insertReorder (choice : ReorderChoice) (next : String) (index : Nat) :
    Leaves Compilation.Idle (· = none) (insertReorder choice next index) := by
  by_cases h : choice = .notNeeded
  · rw [h]
    exact leaves_pure none
  · exact (never_insertReorder h next index).leaves

section Preferred

/- What holds of the insertion of a reorder holds of asking for preferred layouts.  Either the answer
does not matter, or only one of nothing does. -/
variable {R : Program → Program → Prop} [IsPreorder Program R] (strict : Prop)
  (hidle : ∀ {p q : Program}, p.Idle q → R p q)
  (hinsert : ∀ choice next index,
    Leaves (Compilation.On R) (fun made => strict → made = none) (insertReorder choice next index))
include hidle hinsert

/-- If the edge stays, nothing is changed. -/
theorem leaves_reorderDependency (id : String) (kind : OpKind) (output : Layout) (role : Role)
    (index : Nat) : Leaves (Compilation.On R) (fun changed => strict → changed = false)
      (reorderDependency id kind output role index) := by
  rw [reorderDependency]
  refine (leaves_liftM ((leaves_node id).of_imp hidle)).seq fun n => ?_
  split
  case h_2 => exact leaves_pure false
  refine (leaves_liftM ((leaves_layout _).of_imp hidle)).seq fun current => ?_
  refine leaves_preferences.seq fun made => ?_
  refine (leaves_liftM ((leaves_ofExcept _).of_imp hidle)).seq fun answer => ?_
  refine (leaves_setPreferences _).seq fun _ => ?_
  exact (hinsert _ _ _).bind (fun _ _ => leaves_pure _) fun made h => never_pure fun h' =>
    h fun hs => by simpa using h' hs

/-- If all edges stay, nothing is changed. -/
theorem leaves_reorderDependencies (id : String) (kind : OpKind) (output : Layout) :
    ∀ slots : List (Role × Nat), Leaves (Compilation.On R) (fun count => strict → count = 0)
      (reorderDependencies id kind output slots)
  | [] => leaves_pure 0
  | (role, index) :: rest => by
      rw [reorderDependencies]
      refine (leaves_reorderDependency strict hidle hinsert id kind output role index).bind
        (fun here _ => ?_) fun here hhere => ?_
      · refine (leaves_reorderDependencies id kind output rest).bind
          (fun _ _ => leaves_pure _) fun k hk => never_pure fun h => hk fun hs => ?_
        have := h hs
        omega
      · refine never_bind fun k => never_pure fun h => hhere fun hs => ?_
        by_contra hb
        have := h hs
        rw [if_pos (by simpa using hb)] at this
        omega

/-- If all edges of all nodes stay, nothing is changed. -/
theorem leaves_reorderSlots (slots : Operation → List (Role × Nat)) : ∀ ids : List String,
    Leaves (Compilation.On R) (fun count => strict → count = 0) (reorderSlots slots ids)
  | [] => leaves_pure 0
  | id :: ids => by
      rw [reorderSlots]
      refine (leaves_liftM ((leaves_node id).of_imp hidle)).seq fun n => ?_
      have hrest : ∀ here : Nat, (strict → here = 0) →
          Leaves (Compilation.On R) (fun count => strict → count = 0) (do
            let further ← reorderSlots slots ids
            return here + further) := fun here hhere =>
        (leaves_reorderSlots slots ids).bind (fun _ _ => leaves_pure _) fun k hk =>
          never_pure fun h => hk fun hs => by
            have := h hs
            omega
      dsimp only
      split
      · rw [pure_bind]
        exact hrest 0 fun _ => rfl
      · refine (leaves_liftM ((leaves_layout id).of_imp hidle)).seq fun output => ?_
        refine (leaves_reorderDependencies strict hidle hinsert id n.kind output _).bind hrest
          fun here hhere => ?_
        refine never_bind fun _ => never_pure fun h => hhere fun hs => ?_
        have := h hs
        omega

end Preferred

/-- A count of no edges means that none was changed. -/
theorem leaves_idleSlots (slots : Operation → List (Role × Nat)) (ids : List String) :
    Leaves Compilation.Idle (· = 0) (reorderSlots slots ids) :=
  (leaves_reorderSlots True (fun h => h)
    (fun choice next index => (leaves_insertReorder choice next index).mono fun _ h => h trivial)
    slots ids).mono fun _ h _ => h

/-- Statistics of a quiet count are quiet. -/
theorem leaves_ofCounts {x : Transform Nat} (h : Leaves Compilation.Idle (· = 0) x) :
    Leaves Compilation.Idle (·.changed = false) (do return PassStats.ofCounts (← x) 0) :=
  h.bind (fun _ _ => leaves_pure _) fun _ hk => never_pure fun h' => hk (changed_ofCounts.mp h').1

/-- **The preferred layouts of data and weights** where all have them. -/
theorem leaves_reorderInputs : Leaves Compilation.Idle (·.changed = false) reorderInputs := by
  rw [reorderInputs]
  exact leaves_program.seq fun p => leaves_preferences.seq fun made =>
    (leaves_setPreferences _).seq fun _ => leaves_ofCounts (leaves_idleSlots _ _)

/-- **The preferred layout of the bias** where all have it. -/
theorem leaves_reorderBias : Leaves Compilation.Idle (·.changed = false) reorderBias := by
  rw [reorderBias]
  exact leaves_program.seq fun p => leaves_ofCounts (leaves_idleSlots _ _)

/-! ### Constants -/

/-- Marking constants sets flags at most. -/
theorem leaves_markConstants {still : Unit → Prop} :
    Leaves Program.Idle still markConstants := by
  have hchange : ∀ (id : String) {f : Node → Node}, (∀ n, (f n).id = n.id) →
      (∀ n, (f n).bare = n.bare) → (∀ n, (f n).layout = n.layout) →
      Leaves Program.Idle (fun _ => True) (change id f) := fun id f hid hbare hlayout p => by
    rw [ends_change]
    exact ⟨fun _ _ _ => idle_update p id hid hbare hlayout, fun _ => trivial⟩
  rw [markConstants]
  refine leaves_get.seq fun p => (leaves_forIn (fun id _ => ?_) _ _).seq fun _ =>
    leaves_get.seq fun p => (leaves_forIn (fun id _ => ?_) _ _).seq fun _ => leaves_pure _
  · refine (leaves_node id).seq fun n => leaves_get.seq fun p => ?_
    dsimp only
    refine Leaves.seq (hchange id ?_ ?_ ?_) fun _ => leaves_pure _ <;> exact fun _ => rfl
  · refine (leaves_node id).seq fun n => ?_
    split
    · refine (leaves_forIn (fun dep _ => ?_) _ _).seq fun _ => leaves_pure _
      refine Leaves.seq (hchange dep ?_ ?_ ?_) fun _ => leaves_pure _ <;>
        · intro n
          split <;> rfl
    · exact leaves_pure _

/-- The same with values at hand. -/
theorem leaves_run_liftM {e : Edit α} {known : Known} {still : α × Known → Prop}
    (h : Leaves Program.Idle (fun _ => True) e) :
    Leaves Program.Idle still ((liftM e : StateT Known Edit α).run known) :=
  h.seq fun a => leaves_pure (a, known)

/-- Values of a list are asked for one by one. -/
theorem leaves_allValues {f : String → StateT Known Edit (Option ConstantValue)}
    {still : Option (List ConstantValue) × Known → Prop}
    (h : ∀ id known, Leaves Program.Idle (fun _ => True) ((f id).run known)) :
    ∀ (ids : List String) (known : Known), Leaves Program.Idle still ((allValues f ids).run known)
  | [], known => leaves_pure _
  | id :: ids, known => by
      rw [allValues, StateT.run_bind]
      refine (h id known).seq fun r => ?_
      rcases r with ⟨_ | v, known'⟩
      · exact leaves_pure _
      · dsimp only
        rw [StateT.run_bind]
        exact (leaves_allValues h ids known').seq fun r => leaves_pure _

/-- Asking for a value fills caches at most. -/
theorem leaves_valueWithin (ev : Evaluator) {still : Option ConstantValue × Known → Prop} :
    ∀ (depth : Nat) (id : String) (known : Known),
      Leaves Program.Idle still ((valueWithin ev depth id).run known)
  | 0, _, _ => leaves_throw _
  | depth + 1, id, known => by
      rw [valueWithin, StateT.run_bind]
      change Leaves Program.Idle still (pure (known, known) >>= _)
      rw [pure_bind]
      split
      · exact leaves_pure _
      rw [StateT.run_bind]
      refine (leaves_run_liftM (leaves_node id)).seq fun r => ?_
      dsimp only
      split
      · exact leaves_pure _
      rw [StateT.run_bind]
      refine (leaves_allValues (leaves_valueWithin ev depth) _ _).seq fun r => ?_
      rcases r with ⟨_ | inputs, known'⟩
      · exact leaves_pure _
      dsimp only
      rw [StateT.run_bind]
      refine (leaves_run_liftM (leaves_layout id)).seq fun output => ?_
      rw [StateT.run_bind]
      refine (leaves_run_liftM (leaves_node id)).seq fun n => ?_
      split
      · exact leaves_pure _
      rw [StateT.run_bind]
      refine (leaves_run_liftM (leaves_ofExcept _)).seq fun v => ?_
      exact leaves_pure _

/-- A node that is not folded is left as it is. -/
theorem leaves_fold (ev : Evaluator) (id : String) (known : Known) :
    Leaves Program.Idle (·.1 = false) ((fold ev id).run known) := by
  rw [fold, StateT.run_bind]
  refine (leaves_run_liftM leaves_get).seq fun p => ?_
  rw [StateT.run_bind]
  refine (leaves_valueWithin ev _ id _).seq fun r => ?_
  rcases r with ⟨_ | v, known'⟩
  · exact leaves_pure _
  · dsimp only
    rw [StateT.run_bind]
    exact (never_bind fun _ => never_pure (by simp)).leaves

/-- If none is folded, nothing is changed. -/
theorem leaves_foldAll (ev : Evaluator) : ∀ (ids : List String) (known : Known),
    Leaves Program.Idle (·.1 = 0) ((foldAll ev ids).run known)
  | [], known => leaves_pure _
  | id :: ids, known => by
      rw [foldAll, StateT.run_bind]
      refine (leaves_fold ev id known).bind (fun r _ => ?_) fun r hr => ?_
      · rw [StateT.run_bind]
        refine (leaves_foldAll ev ids r.2).bind (fun _ _ => leaves_pure _) fun k hk => never_pure ?_
        omega
      · rw [StateT.run_bind]
        refine never_bind fun k => never_pure ?_
        rw [if_pos (by simpa using hr)]
        dsimp only
        omega

/-- If nothing is swept, nothing is changed. -/
theorem leaves_sweep : ∀ ids : List String, Leaves Program.Idle (· = 0) (sweep ids)
  | [] => leaves_pure 0
  | id :: ids => by
      rw [sweep]
      refine leaves_get.seq fun p => ?_
      have hrest : Leaves Program.Idle (· = 0) (do
          let further ← sweep ids
          return 0 + further) :=
        (leaves_sweep ids).bind (fun _ _ => leaves_pure _) fun _ hk => never_pure (by omega)
      split
      · split
        · exact (never_bind fun _ => never_bind fun _ => never_pure (by omega)).leaves
        · rw [pure_bind]
          exact hrest
      · rw [pure_bind]
        exact hrest

/-- **The folding of constants** that folded and removed none.  Constants are marked again. -/
theorem leaves_foldConstants (ev : Evaluator) :
    Leaves Program.Idle (·.changed = false) (foldConstants ev) := by
  rw [foldConstants]
  refine leaves_markConstants.seq fun _ => leaves_get.seq fun p => ?_
  refine (leaves_foldAll ev _ []).bind (fun r _ => ?_) fun r hr => ?_
  · refine leaves_get.seq fun q => (leaves_sweep _).bind (fun _ _ => leaves_pure _)
      fun erased h => never_pure ?_
    rw [changed_ofCounts]
    exact fun h' => h h'.2
  · refine never_bind fun q => never_bind fun erased => never_pure ?_
    rw [changed_ofCounts]
    exact fun h => hr h.1

/-- Constants that are not reported as propagated are left as they are. -/
theorem leaves_propagateConstants (env : Environment) :
    Leaves Compilation.Idle (·.changed = false) (propagateConstants env) := by
  rw [propagateConstants]
  split
  · exact leaves_pure _
  · exact leaves_liftM (leaves_foldConstants _)

end Pass

end NetPlan
