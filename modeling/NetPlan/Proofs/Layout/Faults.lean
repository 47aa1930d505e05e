import NetPlan.Proofs.Graph.Build
import NetPlan.Proofs.Kernel.Differences

/-!
# Proofs/Layout/Faults — where the layouts of a graph have no answer

Layouts are computed in processing order, before anything is checked.  A rule counts its inputs and then
reads some of them; where it reads one that it has not counted, there is no layout and no error.

* `layoutAll_eq_error_iff` — computing all layouts stops at the first node, in processing order, that has
  none, with the error of that node;
* `Node.outputLayout_eq_fault_iff` — with an input for each argument, the only rule that reads an input
  that is not there is that of a convolution with neither weights nor bias, which reads weights;
* `layoutAll_faults_iff` — so all layouts of the graph of a topology are computed, or there is an error to
  report, unless the first node without a layout is such a convolution.  No divisor is zero.
-/

namespace NetPlan

open Program

/-! ## The first that fails -/

/-- **A list is mapped up to the first entry that fails.** -/
theorem mapM_eq_error_iff {ε α β : Type} {f : α → Except ε β} {e : ε} : ∀ {xs : List α},
    xs.mapM f = .error e ↔ ∃ before x after, xs = before ++ x :: after ∧
      (∀ y ∈ before, ∃ b, f y = .ok b) ∧ f x = .error e
  | [] => by
      rw [List.mapM_nil]
      exact iff_of_false (fun h => nomatch h) fun ⟨before, x, after, h, _⟩ =>
        List.append_ne_nil_of_right_ne_nil _ (List.cons_ne_nil _ _) h.symm
  | x :: xs => by
      rw [List.mapM_cons]
      cases hx : f x with
      | error e' =>
        refine ⟨fun h => ⟨[], x, xs, rfl, fun _ hy => absurd hy List.not_mem_nil, ?_⟩, ?_⟩
        · cases h
          exact hx
        · rintro ⟨before, y, after, hxs, hbefore, hy⟩
          cases before with
          | nil =>
            obtain rfl := (List.cons.inj hxs).1
            cases hx.symm.trans hy
            rfl
          | cons z before =>
            obtain rfl := (List.cons.inj hxs).1
            obtain ⟨b, hb⟩ := hbefore x List.mem_cons_self
            cases hx.symm.trans hb
      | ok b =>
        have hrest : (do let bs ← xs.mapM f; pure (b :: bs) : Except ε (List β)) = .error e ↔
            xs.mapM f = .error e := by
          cases xs.mapM f with
          | error e' => exact Iff.rfl
          | ok bs => exact iff_of_false (fun h => nomatch h) fun h => nomatch h
        refine hrest.trans (mapM_eq_error_iff.trans ⟨?_, ?_⟩)
        · rintro ⟨before, y, after, rfl, hbefore, hy⟩
          exact ⟨x :: before, y, after, rfl, List.forall_mem_cons.mpr ⟨⟨b, hx⟩, hbefore⟩, hy⟩
        · rintro ⟨before, y, after, hxs, hbefore, hy⟩
          cases before with
          | nil =>
            obtain rfl := (List.cons.inj hxs).1
            cases hx.symm.trans hy
          | cons z before =>
            obtain ⟨rfl, rfl⟩ := List.cons.inj hxs
            exact ⟨before, y, after, rfl, (List.forall_mem_cons.mp hbefore).2, hy⟩

namespace Edit

variable {p : Program} {e : CompileError}

/-- Computing all layouts ends as the fresh layouts of all nodes do. -/
theorem layoutAll_ends (hc : p.Coherent) :
    Ends layoutAll (fun _ _ => ∃ ls, p.order.ids.mapM p.freshLayout = .ok ls)
      (fun e _ => p.order.ids.mapM p.freshLayout = .error e) p := by
  rw [layoutAll, ends_bind, ends_get, ends_bind]
  refine ends_forIn (fun rest q => Filled p q ∧ ∃ done ls, p.order.ids = done ++ rest ∧
      done.mapM p.freshLayout = .ok ls) (fun id rest q hq => ?_) (fun q hq => ?_) _ p
    ⟨⟨rfl, hc⟩, [], [], rfl, List.mapM_nil⟩
  · obtain ⟨hfilled, done, ls, hids, hdone⟩ := hq
    have hfresh : q.freshLayout = p.freshLayout := freshLayout_of_uncached hfilled.same
    rw [ends_bind]
    refine (layout_ends id hfilled.coherent).imp (fun l r hr => ?_) fun e r hr => ?_
    · refine ⟨rfl, hfilled.trans hr.1, done ++ [id], ls ++ [l], by simp [hids], ?_⟩
      rw [List.mapM_append, hdone, List.mapM_cons, List.mapM_nil, ← hfresh, hr.2]
      rfl
    · rw [hids, List.mapM_append, hdone, List.mapM_cons, ← hfresh, hr.2]
      rfl
  · obtain ⟨-, done, ls, hids, hdone⟩ := hq
    rw [List.append_nil] at hids
    exact ⟨ls, hids ▸ hdone⟩

/-- **Computing all layouts stops at the first node without one.** -/
theorem layoutAll_eq_error_iff (hc : p.Coherent) :
    (layoutAll.run.run p).1 = .error e ↔ ∃ before id after, p.order.ids = before ++ id :: after ∧
      (∀ j ∈ before, ∃ l, p.freshLayout j = .ok l) ∧ p.freshLayout id = .error e := by
  rw [← mapM_eq_error_iff]
  have hends := layoutAll_ends hc
  unfold Ends at hends
  generalize layoutAll.run.run p = out at hends ⊢
  obtain ⟨e' | u, q⟩ := out
  · rw [hends, Except.error.injEq, Except.error.injEq]
  · obtain ⟨ls, hls⟩ := hends
    rw [hls]
    exact iff_of_false (fun h => nomatch h) fun h => nomatch h

end Edit

/-! ## Rules that read no more than is there -/

/-- A computation has an answer: a result, or an error to report. -/
def Answered {α : Type} (x : Except CompileError α) : Prop := ∀ f, x ≠ .error (.fault f)

section Answered

variable {α β : Type} {x : Except CompileError α}

theorem answered_ok (a : α) : Answered (.ok a) := fun _ h => nomatch h

theorem Answered.bind {g : α → Except CompileError β} (hx : Answered x)
    (hg : ∀ a, Answered (g a)) : Answered (x >>= g) := by
  cases x with
  | error e => exact fun f h => hx f (congrArg _ (Except.error.inj h))
  | ok a => exact hg a

end Answered

namespace Node

variable {n : Node} {inputs : List Layout} {α : Type}

theorem answered_invalid (problem : PrimitiveProblem) :
    Answered (n.invalid problem : Except CompileError α) := fun _ h => nomatch h

/-- Behind a count of inputs there are as many. -/
theorem answered_expectInputs {k : Nat} {g : Unit → Except CompileError α}
    (hg : k ≤ inputs.length → Answered (g ())) : Answered (n.expectInputs inputs k >>= g) := by
  unfold expectInputs
  split
  case isTrue => exact fun _ h => nomatch h
  case isFalse h => exact hg (Nat.le_of_not_lt h)

/-- An input that is there is read. -/
theorem answered_inputAt {i : Nat} (hi : i < inputs.length) {g : Layout → Except CompileError α}
    (hg : ∀ l, Answered (g l)) : Answered (inputAt inputs i >>= g) := by
  rw [inputAt, List.getElem?_eq_getElem hi]
  exact hg _

theorem answered_windowPositions (input window stride dilation padding : Nat)
    (rounding : WindowRounding) :
    Answered (n.windowPositions input window stride dilation padding rounding) := by
  unfold windowPositions
  split
  · exact answered_ok _
  · exact answered_invalid _
  · exact fun _ h => nomatch h

theorem answered_sameAsInput : Answered (n.sameAsInput inputs) :=
  answered_expectInputs fun h => answered_inputAt h fun _ => answered_ok _

/-- A convolution reads its input and its first weights. -/
theorem answered_convolutionLayout (c : Convolution)
    (h : 1 + c.split + c.bias.length ≤ inputs.length → 1 < inputs.length) :
    Answered (n.convolutionLayout c inputs) := by
  refine answered_expectInputs fun hcount => ?_
  refine answered_inputAt (by omega) fun input => answered_inputAt (h hcount) fun weights => ?_
  dsimp only
  split
  · exact answered_ok _
  · exact Answered.bind (answered_windowPositions _ _ _ _ _ _) fun _ =>
      Answered.bind (answered_windowPositions _ _ _ _ _ _) fun _ => answered_ok _

theorem answered_poolingLayout (p : Pooling) : Answered (n.poolingLayout p inputs) := by
  refine answered_expectInputs fun hcount => answered_inputAt hcount fun input => ?_
  dsimp only
  split
  · exact answered_ok _
  · exact Answered.bind (answered_windowPositions _ _ _ _ _ _) fun _ =>
      Answered.bind (answered_windowPositions _ _ _ _ _ _) fun _ => answered_ok _

theorem answered_eltwiseLayout : Answered (n.eltwiseLayout inputs) := by
  refine answered_expectInputs fun hcount => answered_inputAt hcount fun first => ?_
  split
  · exact answered_invalid _
  · exact answered_sameAsInput

theorem answered_concatenationLayout (axis : Axis) :
    Answered (n.concatenationLayout axis inputs) := by
  refine answered_expectInputs fun hcount => answered_inputAt hcount fun first => ?_
  split
  · exact answered_invalid _
  · exact answered_ok _

end Node

/-- A convolution that has neither weights nor bias. -/
def Operation.Weightless : Operation → Prop
  | .convolution c => c.weights = [] ∧ c.bias = []
  | _ => False

namespace Node

variable {n : Node} {inputs : List Layout}

/-- **Every rule but one counts what it reads**, with an input for each argument. -/
theorem answered_outputLayout (hinputs : inputs.length = n.operation.arguments.length)
    (hweights : ¬ n.operation.Weightless) : Answered (n.outputLayout inputs) := by
  unfold outputLayout
  generalize n.operation = op at hinputs hweights
  cases op with
  | inputLayout l => exact answered_ok _
  | data l v =>
    unfold dataLayout
    dsimp only
    split
    · exact answered_invalid _
    · exact answered_ok _
  | convolution c =>
    refine answered_convolutionLayout c fun hcount => ?_
    by_contra hone
    exact hweights ⟨List.length_eq_zero_iff.mp (show c.split = 0 by omega),
      List.length_eq_zero_iff.mp (by omega)⟩
  | fullyConnected c =>
    exact answered_expectInputs fun hcount => answered_inputAt (by omega) fun _ =>
      answered_inputAt hcount fun _ => answered_ok _
  | pooling p => exact answered_poolingLayout p
  | activation a => exact answered_sameAsInput
  | eltwise e => exact answered_eltwiseLayout
  | reorder r =>
    exact answered_expectInputs fun hcount => answered_inputAt hcount fun _ => answered_ok _
  | softmax s => exact answered_sameAsInput
  | concatenation c => exact answered_concatenationLayout c.axis
  | batchNorm b => exact answered_expectInputs fun _ => answered_sameAsInput
  | scale s => exact answered_expectInputs fun _ => answered_sameAsInput
  | fusedConvBnScale f =>
    refine answered_convolutionLayout f.conv fun _ => ?_
    -- A fused convolution has its statistics as further inputs.
    simp only [Operation.arguments, Convolution.arguments, List.length_append, List.length_cons,
      List.length_nil] at hinputs
    omega

/-- The rule of a convolution with neither weights nor bias counts its input and reads weights. -/
theorem outputLayout_weightless (hinputs : inputs.length = n.operation.arguments.length)
    (hweights : n.operation.Weightless) :
    n.outputLayout inputs = .error (.fault (.missingInput 1)) := by
  unfold outputLayout
  generalize n.operation = op at hinputs hweights
  cases op with
  | convolution c =>
    obtain ⟨hw, hb⟩ := hweights
    simp only [Operation.arguments, Convolution.arguments, hw, hb, List.append_nil,
      List.length_cons, List.length_nil] at hinputs
    obtain ⟨input, rfl⟩ := List.length_eq_one_iff.mp hinputs
    simp only [convolutionLayout, Convolution.split, hw, hb]
    rfl
  | _ => exact hweights.elim

/-- **The rule of a node has an answer unless it is a convolution with neither weights nor bias.** -/
theorem outputLayout_eq_fault_iff (hinputs : inputs.length = n.operation.arguments.length)
    (f : Fault) : n.outputLayout inputs = .error (.fault f) ↔
      f = .missingInput 1 ∧ n.operation.Weightless := by
  by_cases hweights : n.operation.Weightless
  · rw [outputLayout_weightless hinputs hweights, and_iff_left hweights, Except.error.injEq,
      CompileError.fault.injEq, eq_comm]
  · exact iff_of_false (answered_outputLayout hinputs hweights f) fun h => hweights h.2

end Node

/-! ## Divisors -/

open Machine (sub? sub?_of_le div? div?_of_pos)

/-- As `windowPositions?`, in arithmetic where a difference below zero and a quotient by zero fail. -/
def checkedPositions (input window stride dilation padding : Nat) (rounding : WindowRounding) :
    Option (Option Nat) :=
  if stride = 0 || dilation = 0 || window = 0 then return none
  else do
    let taps ← sub? window 1
    if input + 2 * padding < taps * dilation + 1 then return none
    else
      let span ← sub? (input + 2 * padding) (taps * dilation + 1)
      match rounding with
      | .drop => return some ((← div? span stride) + 1)
      | .cover =>
        let last ← sub? stride 1
        return some ((← div? (span + last) stride) + 1)

theorem checkedPositions_eq (input window stride dilation padding : Nat)
    (rounding : WindowRounding) :
    checkedPositions input window stride dilation padding rounding =
      some (windowPositions? input window stride dilation padding rounding) := by
  unfold checkedPositions windowPositions? windowReach
  split
  case isTrue => rfl
  case isFalse hpos =>
    simp only [Bool.or_eq_true, decide_eq_true_eq, not_or] at hpos
    have hwindow : 0 < window := Nat.pos_of_ne_zero hpos.2
    have hstride : 0 < stride := Nat.pos_of_ne_zero hpos.1.1
    rw [sub?_of_le hwindow, Option.bind_eq_bind, Option.bind_some]
    split
    case isTrue => rfl
    case isFalse hfits =>
      rw [sub?_of_le (Nat.le_of_not_lt hfits), Option.bind_some]
      cases rounding with
      | drop =>
        dsimp only
        rw [div?_of_pos hstride]
        rfl
      | cover =>
        dsimp only
        rw [sub?_of_le hstride, Option.bind_some, div?_of_pos hstride]
        rfl

namespace Layout

/-- As `blockUp`, with checks. -/
def checkedBlockUp (n block : Nat) : Option Nat := do
  let last ← sub? block 1
  return (← div? (n + last) block) * block

theorem checkedBlockUp_eq {n block : Nat} (h : 0 < block) :
    checkedBlockUp n block = some (blockUp n block) := by
  rw [checkedBlockUp, sub?_of_le h, Option.bind_eq_bind, Option.bind_some,
    div?_of_pos h]
  rfl

/-- As `bufferSize`, with checks. -/
def checkedBufferSize (l : Layout) : Option Nat := do
  let s := l.size
  match l.format with
  | .osIyxOsv16 | .bsXBsv16 | .osIOsv16 => return (← checkedBlockUp s.batch 16) * s.feature * s.x * s.y
  | .bsXsXsv8Bsv8 | .osIsv8Osv8 =>
    return (← checkedBlockUp s.batch 8) * (← checkedBlockUp (s.feature * s.x * s.y) 8)
  | .bf8Xy16 =>
    return s.batch * (← checkedBlockUp s.feature 8) * (← checkedBlockUp (s.x * s.y) 16)
  | .iyXsOsXsv2Osv16Ao32 | .iyXsOsXsv2Osv8Ao32 =>
    return (← checkedBlockUp s.batch 32) * s.feature * (← checkedBlockUp s.x 2) * s.y
  | _ => return l.paddedSize.count

theorem checkedBufferSize_eq (l : Layout) : l.checkedBufferSize = some l.bufferSize := by
  obtain ⟨element, format, size, padding⟩ := l
  cases format <;> simp [checkedBufferSize, bufferSize, checkedBlockUp_eq]

end Layout

/-! ## All layouts of a graph -/

/-- The primitive of an id is a convolution with neither weights nor bias. -/
def Topology.Weightless (t : Topology) (id : String) : Prop :=
  ∃ prim ∈ t.primitives, prim.id = id ∧ prim.operation.Weightless

namespace Program

variable {t : Topology} {p : Program} {before after : List String} {id : String}

/-- What a node reads stands before it. -/
theorem Topological.mem_of_mem_depsOf (h : p.Topological (before ++ id :: after)) {d : String}
    (hd : d ∈ p.depsOf id) : d ∈ before := by
  have hid : id ∉ before := (Order.nodup_split_iff.mp h.nodup).1
  have hlt := (h.before id d hd).idxOf_lt h.nodup
  by_contra hnot
  rw [List.idxOf_append_of_notMem hnot, List.idxOf_append_of_notMem hid, List.idxOf_cons_self] at hlt
  omega

/-- **Where what comes before has layouts, a node has one unless its rule fails.** -/
theorem Built.freshLayout_eq_fault_iff (ht : t.Distinct) (h : Built t .builtin p)
    (hids : p.order.ids = before ++ id :: after)
    (hbefore : ∀ j ∈ before, ∃ l, p.freshLayout j = .ok l) (f : Fault) :
    p.freshLayout id = .error (.fault f) ↔ f = .missingInput 1 ∧ t.Weightless id := by
  have htop : p.Topological (before ++ id :: after) := hids ▸ h.topological
  obtain ⟨n, hn⟩ := Option.isSome_iff_exists.mp ((htop.mem id).mp (by simp))
  have hprim : t.get? id = some n.primitive := by
    rw [← h.primitives, primitiveOf, hn]
    rfl
  have hdeps : n.dependencies = n.operation.arguments := by
    have haligned := congrFun h.aligned id
    rwa [depsOf_of_node? hn, argsOf_of_node? hn] at haligned
  have hlaid : ∀ d ∈ n.dependencies, ∃ l, p.freshLayout d = .ok l := fun d hd =>
    hbefore d (htop.mem_of_mem_depsOf (depsOf_of_node? hn ▸ hd))
  obtain ⟨inputs, hinputs⟩ := exists_mapM_iff.mpr hlaid
  have hlength : inputs.length = n.operation.arguments.length := by
    rw [← (mapM_eq_ok_iff.mp hinputs).length_eq, hdeps]
  have hrule : p.freshLayout id = n.outputLayout inputs := by
    rw [freshLayout_eq hn, hinputs, h.behaviours]
    change n.rule .builtin inputs = _
    rw [n.rule_eq, Behaviours.find, if_pos (by cases n.kind <;> rfl)]
    rfl
  have hweightless : n.operation.Weightless ↔ t.Weightless id := by
    constructor
    · intro hop
      exact ⟨n.primitive, List.mem_of_find?_eq_some hprim, by simpa using List.find?_some hprim, hop⟩
    · rintro ⟨prim, hmem, rfl, hop⟩
      obtain rfl : prim = n.primitive :=
        Option.some.inj ((ht.get?_of_mem hmem).symm.trans hprim)
      exact hop
  rw [hrule, n.outputLayout_eq_fault_iff hlength, hweightless]

end Program

/-- **Where computing all layouts has no answer.**  Let a graph be built from a topology.  Computing all its
layouts succeeds or stops with an error to report, unless the first node in processing order that has no
layout is a convolution with neither weights nor bias: its rule then reads an input that is not there, and
nothing else ever does.  In arithmetic that fails at a difference below zero and at a quotient by zero, the
positions of a window and the sizes of buffers, which are all that rules subtract and divide for, are what
they are without. -/
theorem layoutAll_faults_iff {t : Topology} (ht : t.Distinct) {p : Program}
    (h : Program.ofTopology t .builtin = .ok p) :
    (∀ f, (Edit.layoutAll.run.run p).1 = .error (.fault f) ↔ f = .missingInput 1 ∧
      ∃ before id after, p.order.ids = before ++ id :: after ∧
        (∀ j ∈ before, ∃ l, p.freshLayout j = .ok l) ∧ t.Weightless id) ∧
    (∀ input window stride dilation padding rounding,
      checkedPositions input window stride dilation padding rounding =
        some (windowPositions? input window stride dilation padding rounding)) ∧
    ∀ l : Layout, l.checkedBufferSize = some l.bufferSize := by
  have hbuilt := Program.built_of_ofTopology ht h
  refine ⟨fun f => ?_, checkedPositions_eq, Layout.checkedBufferSize_eq⟩
  rw [Edit.layoutAll_eq_error_iff hbuilt.coherent]
  constructor
  · rintro ⟨before, id, after, hids, hbefore, hfault⟩
    obtain ⟨hf, hid⟩ := (hbuilt.freshLayout_eq_fault_iff ht hids hbefore f).mp hfault
    exact ⟨hf, before, id, after, hids, hbefore, hid⟩
  · rintro ⟨hf, before, id, after, hids, hbefore, hid⟩
    exact ⟨before, id, after, hids, hbefore,
      (hbuilt.freshLayout_eq_fault_iff ht hids hbefore f).mpr ⟨hf, hid⟩⟩

/-- An input, and a convolution of it that is given nothing else. -/
def Topology.weightless : Topology :=
  ⟨[⟨"x", Padding.none, .inputLayout (.dense .f32 .bfyx ⟨1, 1, 4, 4⟩)⟩,
    ⟨"c", Padding.none, .convolution ⟨"x", [], [], ⟨1, 1⟩, ⟨1, 1⟩, ⟨0, 0⟩, none, Activation.none⟩⟩]⟩

theorem Topology.distinct_weightless : Topology.weightless.Distinct := by
  unfold Topology.Distinct
  decide

/-- The convolution is the first node without a layout, so there is no answer. -/
theorem layoutAll_faults_iff_weightless : Topology.weightless.Distinct ∧
    ∃ p, Program.ofTopology .weightless .builtin = .ok p ∧ p.order.ids = ["x", "c"] ∧
      (∀ f, (Edit.layoutAll.run.run p).1 = .error (.fault f) ↔ f = .missingInput 1 ∧
        ∃ before id after, p.order.ids = before ++ id :: after ∧
          (∀ j ∈ before, ∃ l, p.freshLayout j = .ok l) ∧ Topology.weightless.Weightless id) := by
  obtain ⟨p, hp, hids⟩ : ∃ p, Program.ofTopology .weightless .builtin = .ok p ∧
      p.order.ids = ["x", "c"] := ⟨_, rfl, by decide +kernel⟩
  exact ⟨Topology.distinct_weightless, p, hp, hids,
    (layoutAll_faults_iff Topology.distinct_weightless hp).1⟩

/-- Not all topologies with a graph have layouts or an error to report. -/
theorem layoutAll_unanswered : ¬ ∀ (t : Topology) (p : Program), t.Distinct →
    Program.ofTopology t .builtin = .ok p →
      ∀ f, (Edit.layoutAll.run.run p).1 ≠ .error (.fault f) := by
  intro hall
  obtain ⟨p, hp, hfault⟩ : ∃ p, Program.ofTopology .weightless .builtin = .ok p ∧
      (Edit.layoutAll.run.run p).1 = .error (.fault (.missingInput 1)) :=
    ⟨_, rfl, by decide +kernel⟩
  exact hall .weightless p Topology.distinct_weightless hp (.missingInput 1) hfault

end NetPlan
