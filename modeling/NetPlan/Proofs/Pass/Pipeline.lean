import NetPlan.Compile
import NetPlan.Proofs.Graph.Build
import NetPlan.Proofs.Graph.Constant
import NetPlan.Proofs.Graph.Resort

/-!
# Proofs/Pass/Pipeline — steps in sequence

How a pipeline ends follows from how its passes end: one after another (`ends_runSteps_pass`), and
repeated (`ends_fixedPoint`); so the standard pipeline is taken apart (`ends_standardPipeline`).
`prepare` only sets marks before the first pass (`prepare_effect`), and behind the last the order is
numbered, and all nodes are exposed if they are to be kept in view.  So a compilation ends as its passes
do (`ends_compile`).
-/

namespace NetPlan

open Program

variable {env : Environment} {bad : CompileError → Compilation → Prop} {c : Compilation}
  {I : Compilation → Prop}

theorem ends_runSteps_nil : Ends (runSteps env []) (fun _ c' => I c') bad c ↔ I c := by
  rw [runSteps, ends_pure]

theorem ends_runSteps_cons {step : Step} {rest : List Step} :
    Ends (runSteps env (step :: rest)) (fun _ c' => I c') bad c ↔
      Ends (step.run env) (fun _ c' => Ends (runSteps env rest) (fun _ c'' => I c'') bad c')
        bad c := by
  rw [runSteps, ends_bind]
  simp only [ends_bind, ends_pure]

/-- **One pipeline after another.** -/
theorem ends_runSteps_append {rest : List Step} : ∀ {steps : List Step} {c : Compilation},
    Ends (runSteps env (steps ++ rest)) (fun _ c' => I c') bad c ↔
      Ends (runSteps env steps) (fun _ c' => Ends (runSteps env rest) (fun _ c'' => I c'') bad c')
        bad c
  | [], c => by
      rw [List.nil_append, runSteps, ends_pure]
  | step :: steps, c => by
      rw [List.cons_append, ends_runSteps_cons, ends_runSteps_cons]
      simp only [ends_runSteps_append]

theorem ends_pass {pass : Pass} :
    Ends ((Step.pass pass).run env) (fun _ c' => I c') bad c ↔
      Ends (pass.run env) (fun _ c' => I c') bad c := by
  rw [Step.run]

/-- **A pass, and then the others.** -/
theorem ends_runSteps_pass {J : Compilation → Prop} {pass : Pass} {rest : List Step}
    (first : Ends (pass.run env) (fun _ c' => J c') bad c)
    (others : ∀ c', J c' → Ends (runSteps env rest) (fun _ c'' => I c'') bad c') :
    Ends (runSteps env (.pass pass :: rest)) (fun _ c' => I c') bad c := by
  rw [ends_runSteps_cons, ends_pass]
  exact first.imp_good fun _ c' h => others c' h

theorem ends_runSteps_last {pass : Pass} (h : Ends (pass.run env) (fun _ c' => I c') bad c) :
    Ends (runSteps env [.pass pass]) (fun _ c' => I c') bad c :=
  ends_runSteps_pass h fun _ h' => ends_runSteps_nil.mpr h'

/-- **Repetition** keeps what a round keeps. -/
theorem ends_repeatWhileChanged {round : Transform PassStats}
    (step : ∀ c, I c → Ends round (fun _ c' => I c') bad c) :
    ∀ (rounds : Nat) (c : Compilation), I c →
      Ends (repeatWhileChanged round rounds) (fun _ c' => I c') bad c
  | 0, _, h => h
  | rounds + 1, c, h => by
      rw [repeatWhileChanged, ends_bind]
      refine (step c h).imp_good fun s c' h' => ?_
      dsimp only
      split
      · rw [ends_bind]
        exact (ends_repeatWhileChanged step rounds c' h').imp_good fun _ _ h'' => h''
      · exact h'

theorem ends_fixedPoint {rounds : Nat} {steps : List Step} (I : Compilation → Prop)
    (step : ∀ c, I c → Ends (runSteps env steps) (fun _ c' => I c') bad c) (h : I c) :
    Ends ((Step.fixedPoint rounds steps).run env) (fun _ c' => I c') bad c := by
  rw [Step.run]
  exact ends_repeatWhileChanged step _ c h

/-! ## The standard pipeline -/

namespace Pass

/-- The passes up to the binding. -/
def front (optimize : Bool) : List Pass :=
  [Pass.trim, .layouts] ++ (if optimize then [Pass.fusion, .inputReorders, .biasReorders] else [])
    ++ [Pass.redundantReorders, .padding, .constants]

/-- The passes of a round of cleanup. -/
def cleanup : List Pass := [.redundantReorders, .constants]

theorem standardPipeline_eq (optimize : Bool) : standardPipeline optimize
    = (front optimize).map Step.pass ++ [Step.pass .binding, .pass .weightReorders,
      .fixedPoint 4 (cleanup.map Step.pass)] := by
  cases optimize <;> rfl

/-- **Up to the binding**: fusion and the requests for layouts are for optimized builds only. -/
theorem ends_front {optimize : Bool} {J K L : Compilation → Prop}
    (trim : Ends (trimToOutputs env) (fun _ c' => J c') bad c)
    (layouts : ∀ c', J c' → Ends calculateLayouts (fun _ c'' => K c'') bad c')
    (plain : optimize = false → ∀ c', K c' → L c')
    (optimized : optimize = true → ∀ c', K c' →
      Ends (runSteps env [.pass .fusion, .pass .inputReorders, .pass .biasReorders])
        (fun _ c'' => L c'') bad c')
    (rest : ∀ c', L c' →
      Ends (runSteps env [.pass .redundantReorders, .pass .padding, .pass .constants])
        (fun _ c'' => I c'') bad c') :
    Ends (runSteps env ((front optimize).map Step.pass)) (fun _ c' => I c') bad c := by
  have hfront : (front optimize).map Step.pass = .pass .trim :: .pass .layouts ::
      ((if optimize = true then [Step.pass .fusion, .pass .inputReorders, .pass .biasReorders]
          else [])
        ++ [Step.pass .redundantReorders, .pass .padding, .pass .constants]) := by
    cases optimize <;> rfl
  rw [hfront]
  refine ends_runSteps_pass trim fun c₁ h₁ => ends_runSteps_pass (layouts c₁ h₁) fun c₂ h₂ => ?_
  rw [ends_runSteps_append]
  cases optimize with
  | false =>
    rw [if_neg Bool.false_ne_true, ends_runSteps_nil]
    exact rest c₂ (plain rfl c₂ h₂)
  | true =>
    rw [if_pos rfl]
    exact (optimized rfl c₂ h₂).imp_good fun _ c₃ h₃ => rest c₃ h₃

/-- **The standard pipeline** ends as its parts do: the passes up to the binding, the binding, the
weights, and the rounds of cleanup. -/
theorem ends_standardPipeline {optimize : Bool} {J K : Compilation → Prop}
    (before : Ends (runSteps env ((front optimize).map Step.pass)) (fun _ c' => J c') bad c)
    (binding : ∀ c', J c' → Ends (bindAll env) (fun _ c'' => K c'') bad c')
    (weights : ∀ c', K c' → Ends (reorderWeights env) (fun _ c'' => I c'') bad c')
    (round : ∀ c', I c' → Ends (runSteps env (cleanup.map Step.pass)) (fun _ c'' => I c'') bad c') :
    Ends (runSteps env (standardPipeline optimize)) (fun _ c' => I c') bad c := by
  rw [standardPipeline_eq, ends_runSteps_append]
  refine before.imp_good fun _ c₁ h₁ => ?_
  refine ends_runSteps_pass (binding c₁ h₁) fun c₂ h₂ => ?_
  refine ends_runSteps_pass (weights c₂ h₂) fun c₃ h₃ => ?_
  rw [ends_runSteps_cons]
  exact (ends_fixedPoint I round h₃).imp_good fun _ _ h₄ => ends_runSteps_nil.mpr h₄

end Pass

/-! ## Compilations -/

/-- **Preparing a graph** marks the outputs that are asked for and changes nothing but marks. -/
theorem Edit.prepare_effect {p : Program} (h : p.Linked) (outputs : List String) :
    Ends (Edit.prepare outputs)
      (fun _ q => Remarked p q ∧ ∀ j, q.isMarked j = true ↔ j ∈ p.requestedOutputs outputs)
      (fun e _ => e.closes = false) p := by
  rw [prepare, ends_bind]
  refine (setOutputs_effect h outputs).imp (fun _ p₁ h₁ => ?_) fun _ _ hb => hb.1
  rw [ends_bind]
  refine (markConstants_effect h₁.1.kept.linked).imp_good fun _ p₂ h₂ => ?_
  refine (markDataFlow_effect h₂.kept.linked).imp_good fun _ p₃ h₃ => ?_
  have htouch : Reflagged p₁ p₃ := h₂.trans h₃
  exact ⟨h₁.1.toRemarked.trans htouch.toRemarked, fun j => by rw [htouch.marks, h₁.2]⟩

/-- `q` is `p` with new numbers for the same order. -/
structure Program.Renumbered (p q : Program) : Prop extends Reordered p q where
  ids_order : q.order.ids = p.order.ids

/-- **Numbering** leaves the order as it is. -/
theorem Edit.number_renumbered {p : Program} {bad : CompileError → Program → Prop} (h : p.Linked) :
    Ends number (fun _ q => Renumbered p q) bad p := by
  refine number_effect.imp_good fun _ q hq => ?_
  subst hq
  exact ⟨reordered_setOrder h h.order_nodup h.order_contains fun _ hx => hx, rfl⟩

/-- `q` is `p` with more outputs. -/
structure Program.Revealed (p q : Program) : Prop extends Published p q where
  marks : ∀ j, p.isMarked j = true → q.isMarked j = true

/-- **Exposing all nodes** sets marks. -/
theorem Edit.exposeAll_effect {p : Program} (h : p.Linked) :
    Ends exposeAll (fun _ q => Revealed p q) (fun _ _ => False) p := by
  rw [exposeAll, ends_bind, ends_get, ends_bind]
  refine ends_forIn (fun rest q => Revealed p q ∧ ∀ id ∈ rest, p.contains id = true)
    (fun id rest q hq => ?_) (fun q hq => hq.1) _ p ⟨⟨.refl h, fun _ hj => hj⟩, h.order_contains⟩
  obtain ⟨hq, hids⟩ := hq
  obtain ⟨hid, hids⟩ := List.forall_mem_cons.mp hids
  rw [← hq.contains] at hid
  rw [ends_bind, ends_node]
  refine ⟨fun n _ => ?_, fun hnone => node?_eq_none.mp hnone hid⟩
  split
  · rw [ends_bind]
    refine (markOutput_effect hq.kept.linked).imp (fun _ r hr =>
      ⟨rfl, ⟨hq.toPublished.trans hr.1, fun j hj => ?_⟩, hids⟩) fun _ _ hb => hb.2.2 hid
    rw [hr.2, hq.marks j hj, Bool.or_true]
  · exact ⟨rfl, hq, hids⟩

section Compile

variable {o : BuildOptions} {b : Behaviours} {t : Topology} {session : Session}

/-- A compilation ends as building the graph and working on it do. -/
theorem ends_compile_of_work (good : Compiled → Prop) {bad : CompileError → Prop}
    (build : ∀ e, Program.ofTopology t b = .error e → bad e)
    (work : ∀ p, Program.ofTopology t b = .ok p →
      Ends (compileGraph o.optimize o.outputs env) (fun stats c => good ⟨c.program, stats⟩)
        (fun e _ => bad e) ⟨p, .initial, session⟩) :
    Ends (compile o env b t) (fun compiled _ => good compiled) (fun e _ => bad e) session := by
  rw [Ends, compile, ExceptT.run_mk, StateT.run]
  cases hp : Program.ofTopology t b with
  | error e => exact build e hp
  | ok p =>
    have hends := work p hp
    rw [Ends] at hends
    dsimp only
    generalize (compileGraph o.optimize o.outputs env).run.run ⟨p, .initial, session⟩ = out
      at hends ⊢
    obtain ⟨e | stats, c⟩ := out
    · exact hends
    · exact hends

/-- **A compilation** ends as its passes do, if what they leave may be numbered and, where it is to be
kept in view, exposed; the checks that close it come last. -/
theorem ends_compile (ht : t.Distinct) (start done : Program → Prop) {bad : CompileError → Prop}
    (fails : ∀ e, e.closes = false → bad e)
    (prepared : ∀ p, Built t b p →
      Ends (Edit.prepare o.outputs) (fun _ q => start q) (fun e _ => e.closes = false) p)
    (passes : ∀ p, start p → Ends (runSteps env (standardPipeline o.optimize))
      (fun _ c => done c.program) (fun e _ => e.closes = false) ⟨p, .initial, session⟩)
    (linked : ∀ {p}, done p → p.Linked) (numbered : ∀ {p q}, done p → Renumbered p q → done q)
    (exposed : ∀ {p q}, env.debug = true → done p → Revealed p q → done q)
    (check : ∀ {p e}, done p → p.finalCheck = .error e → bad e) :
    Ends (compile o env b t)
      (fun compiled _ => done compiled.program ∧ compiled.program.finalCheck = .ok ())
      (fun e _ => bad e) session := by
  refine ends_compile_of_work (fun compiled => done compiled.program ∧
    compiled.program.finalCheck = .ok ()) (fun e he => fails e (closes_of_ofTopology ht he))
    fun p hp => ?_
  rw [compileGraph, ends_bind, Transform.ends_liftM]
  refine (prepared p (built_of_ofTopology ht hp)).imp (fun _ p₀ h₀ => ?_) fun e _ hb => fails e hb
  rw [ends_bind]
  refine (passes p₀ h₀).imp (fun stats c hc => ?_) fun e _ hb => fails e hb
  have hclose : ∀ d : Compilation, done d.program →
      Ends (do
        Edit.ofExcept (← Transform.program).finalCheck
        return stats : Transform PassStats)
        (fun _ c' => done c'.program ∧ c'.program.finalCheck = .ok ()) (fun e _ => bad e) d := by
    intro d hd
    rw [ends_bind, Transform.ends_program, ends_bind, Transform.ends_liftM, Edit.ends_ofExcept]
    exact ⟨fun _ hcheck => ⟨hd, hcheck⟩, fun _ he => check hd he⟩
  rw [ends_bind, Transform.ends_liftM]
  refine (Edit.number_renumbered (linked hc)).imp_good fun _ q hq => ?_
  have hnumbered := numbered hc hq
  split
  case isTrue hdebug =>
    rw [ends_bind, Transform.ends_liftM]
    exact (Edit.exposeAll_effect hq.kept.linked).imp
      (fun _ r hr => hclose _ (exposed hdebug hnumbered hr)) fun _ _ hb => hb.elim
  case isFalse => exact hclose _ hnumbered

end Compile

/-- Options of a plain build for some outputs. -/
def BuildOptions.plain (outputs : List String) : BuildOptions :=
  ⟨false, outputs, false, .default, .disabled, .unset, none⟩

end NetPlan
