import NetPlan.Proofs.Kernel.Conclusive

/-!
# Proofs/Kernel/Differences — planning with sizes that cannot be negative

The planner of the block kernel breaks off where the span of its block is no number.  Other differences
end at zero, and quotients by zero are zero.  Here that planner is written once more in `Checked`
arithmetic, where every difference below zero and every quotient or remainder by zero is a failure: no
plan and no refusal.  A difference that is meant to end at zero, as those of the required padding, is no
failure.

* `Checked.Is` — a checked computation fails where the other one breaks off, and has the same outcome
  elsewhere;
* `checked_planning` — so it is with the planners, and they break off for a row without elements that a
  default block should be as wide as (`Vanishing`), and for nothing else.
-/

namespace NetPlan.Kernel

open Builtin

/-! ## Checked arithmetic -/

/-- Computations that are refused or come to a result, or fail at a difference or a quotient. -/
abbrev Checked (α : Type) := ExceptT Refusal Option α

/-- What an outcome is in checked arithmetic. -/
def outcome {α : Type} : Except Refusal α → Option (Except Refusal α)
  | .error .overflow => none
  | y => some y

theorem outcome_of_concludes {α : Type} : ∀ {y : Except Refusal α}, Concludes y → outcome y = some y
  | .error .overflow, h => absurd rfl h
  | .error (.invalid _), _ => rfl
  | .error (.notApplicable _), _ => rfl
  | .ok _, _ => rfl

namespace Checked

variable {α β : Type} {x : Checked α} {y : Except Refusal α} {f : α → Checked β}
  {g : α → Except Refusal β} {z : Except Refusal β} {o : Option α} {a : α}

/-- A checked computation fails where the other one breaks off, and comes to the same elsewhere. -/
def Is (x : Checked α) (y : Except Refusal α) : Prop := x.run = outcome y

theorem is_lift (h : Concludes y) : (liftM y : Checked α).Is y := (outcome_of_concludes h).symm

theorem is_pure (a : α) : (pure a : Checked α).Is (pure a) := rfl

theorem is_notApplicable (reason : String) :
    (throw (.notApplicable reason) : Checked α).Is (throw (.notApplicable reason)) := rfl

theorem is_wrongKind (kind : Kind) (r : Request) :
    (throw (wrongKind kind r) : Checked α).Is (.error (wrongKind kind r)) := rfl

theorem Is.bind (hx : x.Is y) (hf : ∀ a, y = .ok a → (f a).Is (g a)) : (x >>= f).Is (y >>= g) := by
  rw [Is, ExceptT.run_bind, hx]
  match y, hf with
  | .error .overflow, _ => rfl
  | .error (.invalid _), _ => rfl
  | .error (.notApplicable _), _ => rfl
  | .ok a, hf => exact hf a rfl

theorem is_bind_of_some (ho : o = some a) (hf : (f a).Is z) : ((liftM o : Checked α) >>= f).Is z := by
  subst ho
  exact hf

/-- A size that is needed in either way. -/
theorem is_need {o : Option Nat} {f : Nat → Checked β} {g : Nat → Except Refusal β}
    (hf : ∀ n, (f n).Is (g n)) : ((liftM o : Checked Nat) >>= f).Is (Refusal.need o >>= g) := by
  cases o with
  | none => rfl
  | some n => exact hf n

theorem Is.mapM {f : α → Checked β} : ∀ {as : List α}, (∀ a ∈ as, (f a).Is (g a)) →
    (as.mapM f).Is (as.mapM g)
  | [], _ => by
      rw [List.mapM_nil, List.mapM_nil]
      exact is_pure []
  | a :: as, h => by
      rw [List.mapM_cons, List.mapM_cons]
      exact (h a List.mem_cons_self).bind fun _ _ =>
        (Is.mapM fun a ha => h a (List.mem_cons_of_mem _ ha)).bind fun _ _ => is_pure _

end Checked

/-! ## The planners, checked -/

/-- Quotient rounded up, as `ceilDiv`. -/
def ceilDiv? (n d : Nat) : Option Nat := do
  let last ← Machine.sub? (Nat.max d 1) 1
  Machine.div? (n + last) (Nat.max d 1)

/-- The next multiple, as `roundUp`. -/
def roundUp? (n multiple : Nat) : Option Nat := do
  let count ← ceilDiv? n multiple
  return count * Nat.max multiple 1

/-- Whether work groups partition a launch, as `WorkGroups.partitions`. -/
def WorkGroups.partitions? (w : WorkGroups) : Option Bool :=
  (w.global.toList.zip w.group.toList).allM fun (g, l) =>
    if g ≠ 0 ∧ l ≠ 0 then do return decide ((← Machine.mod? g l) = 0) else return false

theorem ceilDiv?_eq (n d : Nat) : ceilDiv? n d = some (ceilDiv n d) := by
  have hd : 0 < Nat.max d 1 := Nat.le_max_right d 1
  rw [ceilDiv?, Machine.sub?_of_le hd]
  exact Machine.div?_of_pos hd

theorem roundUp?_eq (n multiple : Nat) : roundUp? n multiple = some (roundUp n multiple) := by
  rw [roundUp?, ceilDiv?_eq]
  rfl

theorem allM_eq_some {α : Type} {p? : α → Option Bool} {p : α → Bool}
    (h : ∀ a, p? a = some (p a)) : ∀ as : List α, as.allM p? = some (as.all p)
  | [] => rfl
  | a :: as => by
      rw [List.allM, h a, List.all_cons]
      cases p a with
      | false => rfl
      | true => exact allM_eq_some h as

theorem WorkGroups.partitions?_eq (w : WorkGroups) : w.partitions? = some w.partitions := by
  refine allM_eq_some (fun (g, l) => ?_) _
  dsimp only
  split
  case isTrue h =>
    rw [Machine.mod?_of_pos (Nat.pos_of_ne_zero h.2)]
    simp [h.1, h.2]
  case isFalse h => simp [h]

namespace Builtin

/-- Edges that keep every window inside, as `requiredEdges`: without positions, or with a limit inside
the input, there is nothing to take away. -/
def requiredEdges? (input output stride window dilation padding : Nat) : Option Edges := do
  let taps ← Machine.sub? window 1
  let limit := (output - 1) * stride + taps * dilation + 1
  return ⟨padding, limit - (input + padding)⟩

/-- As `checkPaddedInput`. -/
def checkPaddedInput? (w : ConvolutionWork) (input : DataTensor) : Checked Unit := do
  let size := w.operands.output.size
  let needX ← requiredEdges? input.size.x size.x w.stride.x w.window.x w.dilation.x w.padding.x
  let needY ← requiredEdges? input.size.y size.y w.stride.y w.window.y w.dilation.y w.padding.y
  let haveX := edgesOf input .x
  let haveY := edgesOf input .y
  if haveX.covers needX && haveY.covers needY then return ()
  else
    throw (.notApplicable
      ("input padding x=" ++ haveX.text ++ " y=" ++ haveY.text
        ++ " is smaller than required x=" ++ needX.text ++ " y=" ++ needY.text))

/-- As `checkBlock`. -/
def checkBlock? (request : Request) : Checked (ConvolutionWork × DataTensor) :=
  match request.work with
  | .convolution w => do
    let input ← checkConvolution w
    checkPaddedInput? w input
    return (w, input)
  | _ => throw (wrongKind .convolution request)

/-- As `defaultBlock`. -/
def defaultBlock? (w : ConvolutionWork) : Option Block :=
  let outputX := w.operands.output.size.x
  if w.stride = ⟨1, 1⟩ then
    if w.window = ⟨1, 1⟩ then return ⟨16, 1, 4⟩
    else do
      let taps ← Machine.sub? w.window.x 1
      if outputX + taps * w.dilation.x < convolutionSubgroup then return ⟨outputX, 1, 4⟩
      else if w.window.x < 5 ∧ w.window.y < 5 then
        let width ← Machine.sub? convolutionSubgroup w.window.x
        return ⟨width + 1, 2, 4⟩
      else return ⟨4, 3, 4⟩
  else if w.stride = ⟨2, 2⟩ then return ⟨5, 4, 4⟩
  else return ⟨4, 3, 5⟩

/-- As `planBlock`. -/
def planBlock? (w : ConvolutionWork) (input : DataTensor) (layer : String) (options : Options)
    (block : Block) : Checked Plan := do
  let output := w.operands.output
  let half ← Machine.div? convolutionSubgroup 2
  let chunk := if input.element = .f16 then convolutionSubgroup else half
  let spanX ← inputSpan? block.width w.stride.x w.window.x w.dilation.x
  let spanY ← inputSpan? block.height w.stride.y w.window.y w.dilation.y
  let chunks ← roundUp? spanX chunk
  let inputWidth := Nat.max chunks convolutionSubgroup
  let inputArray ← ceilDiv? (spanY * inputWidth) convolutionSubgroup
  let features := output.size.feature
  let threads ← roundUp? features convolutionSubgroup
  let idle ← Machine.sub? threads features
  let change ← weightsChange? w.filter.weights input.element options [.osIyxOsv16]
  let leftovers : Defines := if idle > 0 then [Defines.num "LEFTOVERS" idle] else []
  let columns ← ceilDiv? output.size.x block.width
  let rows ← ceilDiv? output.size.y block.height
  let groups : WorkGroups :=
    ⟨⟨columns, rows, threads * output.size.batch⟩, ⟨1, 1, convolutionSubgroup⟩⟩
  let _ ← groups.partitions?
  convolutionPlan w convolutionBlockName layer
    ([Defines.num "SUB_GROUP_SIZE" convolutionSubgroup,
      Defines.num "OUTPUT_BLOCK_WIDTH" block.width,
      Defines.num "OUTPUT_BLOCK_HEIGHT" block.height,
      Defines.num "IN_BLOCK_ARRAY_SIZE" inputArray, Defines.num "IN_BLOCK_WIDTH" inputWidth,
      Defines.num "PREFETCH" block.prefetch] ++ leftovers)
    groups (Cost.ranked 3) change

/-- As `planConvolutionBlock`. -/
def planConvolutionBlock? (request : Request) (options : Options) : Checked (List Plan) := do
  let (w, input) ← checkBlock? request
  let block ← defaultBlock? w
  return [← planBlock? w input request.layer options block]

/-- As `planConvolutionBlockVariant`. -/
def planConvolutionBlockVariant? (variant : Option Nat) (request : Request) (options : Options) :
    Checked (List Plan) := do
  let (w, input) ← checkBlock? request
  let block ← match variant with
    | none => (defaultBlock? w : Checked Block)
    | some i =>
      match convolutionBlocks[i]? with
      | some block => pure block
      | none =>
        throw (.notApplicable
          s!"{convolutionBlockName} has {convolutionBlocks.length} tuning variants, asked for {i}")
  let plan ← planBlock? w input request.layer options block
  return [{ plan with variant := variant }]

/-- As `planConvolutionBlockAll`. -/
def planConvolutionBlockAll? (request : Request) (options : Options) : Checked (List Plan) := do
  let (w, input) ← checkBlock? request
  let tuned ← convolutionBlocks.zipIdx.mapM fun (block, i) => do
    let plan ← planBlock? w input request.layer options block
    return { plan with variant := some i }
  let block ← defaultBlock? w
  let plan ← planBlock? w input request.layer options block
  return tuned ++ [plan]

end Builtin

/-! ## What planning comes to -/

section Eq

variable {w : ConvolutionWork} {input : DataTensor}

theorem requiredEdges?_eq {size output stride window dilation padding : Nat} (h : 0 < window) :
    requiredEdges? size output stride window dilation padding
      = some (requiredEdges size output stride window dilation padding) := by
  rw [requiredEdges?, Machine.sub?_of_le h]
  rfl

theorem defaultBlock?_eq (h : 0 < w.window.x) : defaultBlock? w = some (defaultBlock w) := by
  unfold defaultBlock? defaultBlock
  dsimp only
  split
  · split
    · rfl
    rw [Machine.sub?_of_le h]
    dsimp only [bind, Option.bind]
    split
    · rfl
    split
    case isTrue hsmall =>
      rw [Machine.sub?_of_le (by rw [convolutionSubgroup]; omega)]
      rfl
    · rfl
  split <;> rfl

end Eq

open Checked

theorem is_checkPaddedInput {w : ConvolutionWork} {input : DataTensor} (hx : 0 < w.window.x)
    (hy : 0 < w.window.y) : (checkPaddedInput? w input).Is (checkPaddedInput w input) := by
  refine is_bind_of_some (requiredEdges?_eq hx) (is_bind_of_some (requiredEdges?_eq hy) ?_)
  unfold checkPaddedInput requiredEdgesX requiredEdgesY
  dsimp only
  split
  · exact is_pure _
  · exact is_notApplicable _

theorem is_checkBlock (r : Request) : (checkBlock? r).Is (checkBlock r) := by
  obtain ⟨layer, work⟩ := r
  cases work with
  | convolution w =>
    refine (is_lift (concludes_checkConvolution w)).bind fun input hinput => ?_
    have hmatched := matched_of_checkConvolution input hinput
    exact (is_checkPaddedInput hmatched.window.1 hmatched.window.2).bind fun _ _ => is_pure _
  | _ => exact is_wrongKind _ _

section Planners

variable {r : Request} {o : Options} {w : ConvolutionWork} {input : DataTensor} {layer : String}

/-- **A block is planned without another failure** than that of its spans. -/
theorem is_planBlock (block : Block) :
    (planBlock? w input layer o block).Is (planBlock w input layer o block) := by
  refine is_bind_of_some (Machine.div?_of_pos Nat.two_pos) (is_need fun _ => is_need fun _ => ?_)
  refine is_bind_of_some (roundUp?_eq _ _) (is_bind_of_some (ceilDiv?_eq _ _) ?_)
  refine is_bind_of_some (roundUp?_eq _ _) (is_bind_of_some (Machine.sub?_of_le le_roundUp) ?_)
  refine (is_lift concludes_weightsChange?).bind fun change _ => ?_
  refine is_bind_of_some (ceilDiv?_eq _ _) (is_bind_of_some (ceilDiv?_eq _ _) ?_)
  refine is_bind_of_some (WorkGroups.partitions?_eq _) ?_
  simp only [gt_iff_lt, Nat.sub_pos_iff_lt]
  exact is_lift concludes_convolutionPlan

theorem defaultBlock?_of_check (hcheck : checkBlock r = .ok (w, input)) :
    defaultBlock? w = some (defaultBlock w) :=
  defaultBlock?_eq (matched_of_checkBlock _ hcheck).2.window.1

theorem is_plan : (planConvolutionBlock? r o).Is (planConvolutionBlock r o) :=
  (is_checkBlock r).bind fun (_, _) hcheck =>
    is_bind_of_some (defaultBlock?_of_check hcheck) ((is_planBlock _).bind fun _ _ => is_pure _)

theorem is_planVariant : ∀ variant : Option Nat,
    (planConvolutionBlockVariant? variant r o).Is (planConvolutionBlockVariant variant r o)
  | none => (is_checkBlock r).bind fun (_, _) hcheck =>
      is_bind_of_some (defaultBlock?_of_check hcheck) ((is_planBlock _).bind fun _ _ => is_pure _)
  | some i => by
      refine (is_checkBlock r).bind fun (w, input) _ => ?_
      dsimp only
      cases convolutionBlocks[i]? with
      | none => exact is_notApplicable _
      | some block => exact (is_planBlock block).bind fun _ _ => is_pure _

theorem is_planAll : (planConvolutionBlockAll? r o).Is (planConvolutionBlockAll r o) :=
  (is_checkBlock r).bind fun (_, _) hcheck =>
    (Is.mapM fun _ _ => (is_planBlock _).bind fun _ _ => is_pure _).bind fun _ _ =>
      is_bind_of_some (defaultBlock?_of_check hcheck) ((is_planBlock _).bind fun _ _ => is_pure _)

end Planners

/-- **Only for empty rows the block kernel fails to plan.**  In checked arithmetic planning fails just
where it breaks off, and comes to the same elsewhere.  A default plan breaks off for the requests that
vanish and for no other; a variant of the table never does, nor does planning where all of them are
offered. -/
theorem checked_planning (r : Request) (o : Options) :
    ((planConvolutionBlock? r o).Is (planConvolutionBlock r o) ∧
      (∀ variant, (planConvolutionBlockVariant? variant r o).Is
        (planConvolutionBlockVariant variant r o)) ∧
      (planConvolutionBlockAll? r o).Is (planConvolutionBlockAll r o)) ∧
    (planConvolutionBlock r o = .error .overflow ↔ r.Vanishes) ∧
    (planConvolutionBlockVariant none r o = .error .overflow ↔ r.Vanishes) ∧
    (∀ i, Concludes (planConvolutionBlockVariant (some i) r o)) ∧
    Concludes (planConvolutionBlockAll r o) :=
  ⟨⟨is_plan, is_planVariant, is_planAll⟩, default_eq_overflow_iff fun plan => [plan],
    default_eq_overflow_iff fun plan => [{ plan with variant := none }],
    concludes_planVariant_some, concludes_planAll⟩

/-- Three-by-three windows over a plane of as many elements, for an output without columns. -/
def emptyRows : Request :=
  ⟨"empty", .convolution
    { operands :=
        ⟨.none, [⟨.f32, .bfyx, ⟨1, 1, 3, 3⟩, .none⟩], ⟨.f32, .bfyx, ⟨1, 16, 0, 1⟩, .none⟩⟩
      filter := ⟨⟨.f32, .osIyxOsv16, 16, 1, 3, 3⟩, []⟩
      window := ⟨3, 3⟩
      stride := ⟨1, 1⟩
      dilation := ⟨1, 1⟩
      padding := ⟨0, 0⟩
      split := 1 }⟩

/-- **It passes the checks, and the width of its block less one is below zero.** -/
theorem planning_fails_emptyRows :
    planConvolutionBlock emptyRows .default = .error .overflow ∧
    planConvolutionBlockVariant none emptyRows .default = .error .overflow ∧
    (planConvolutionBlock? emptyRows .default).run = none ∧
    ∃ w input, checkBlock emptyRows = .ok (w, input) ∧ (defaultBlock w).width = 0 :=
  ⟨rfl, rfl, rfl, _, _, rfl, rfl⟩

end NetPlan.Kernel
