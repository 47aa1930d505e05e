import NetPlan.Kernel.Builtin.Concatenation
import NetPlan.Proofs.Host.Fault
import NetPlan.Proofs.Host.Reference
import NetPlan.Proofs.Kernel.Reads

/-!
# Proofs/Host/Slices — concatenations, slice by slice

The parts of a concatenation lie behind each other along its axis, and each begins where those
before it end (`sliceStart`).  The layout rule, the kernel and the reference evaluator all count
along on their own; they come to the same:

* `Kernel.Builtin.launches_concatenationParts` — the launch for a part starts at its slice;
* `Host.get_appended` — the evaluator has the elements of a part in its slice;
* `exists_slice`, `slice_inj` — each number below the sum lies in one slice, and at one place in it;
* `concatenation_slices` — the slices in the kernel, on the host and in the output.
-/

namespace NetPlan

/-! ## Slices of a sum -/

section Slices

/-- Where a slice begins: behind those before it. -/
def sliceStart (extents : List Nat) (k : Nat) : Nat := (extents.take k).sum

theorem sliceStart_zero (extents : List Nat) : sliceStart extents 0 = 0 := rfl

theorem sliceStart_cons_succ (n : Nat) (extents : List Nat) (k : Nat) :
    sliceStart (n :: extents) (k + 1) = n + sliceStart extents k := by
  rw [sliceStart, List.take_succ_cons, List.sum_cons, sliceStart]

/-- The last slice ends with the sum. -/
theorem sliceStart_length (extents : List Nat) : sliceStart extents extents.length = extents.sum := by
  rw [sliceStart, List.take_length]

/-- Each slice ends within the sum. -/
theorem sliceStart_add_le : ∀ {extents : List Nat} {k n : Nat}, extents[k]? = some n →
    sliceStart extents k + n ≤ extents.sum
  | m :: extents, 0, n, h => by
      obtain rfl : m = n := Option.some.inj h
      rw [List.sum_cons, sliceStart_zero, Nat.zero_add]
      exact Nat.le_add_right ..
  | m :: extents, k + 1, n, h => by
      have hrest : sliceStart extents k + n ≤ extents.sum := sliceStart_add_le h
      rw [sliceStart_cons_succ, List.sum_cons, Nat.add_assoc]
      exact Nat.add_le_add_left hrest m

/-- **Each number below the sum** lies in a slice. -/
theorem exists_slice : ∀ {extents : List Nat} {i : Nat}, i < extents.sum →
    ∃ k n j, extents[k]? = some n ∧ j < n ∧ j + sliceStart extents k = i
  | m :: extents, i, h => by
      rw [List.sum_cons] at h
      rcases Nat.lt_or_ge i m with hi | hi
      · exact ⟨0, m, i, rfl, hi, rfl⟩
      · have hrest : i - m < extents.sum := by omega
        obtain ⟨k, n, j, hk, hj, hsum⟩ := exists_slice hrest
        refine ⟨k + 1, n, j, hk, hj, ?_⟩
        rw [sliceStart_cons_succ]
        omega

/-- **It lies in no other slice**, and at no other place in it. -/
theorem slice_inj : ∀ {extents : List Nat} {k k' n n' j j' : Nat}, extents[k]? = some n →
    extents[k']? = some n' → j < n → j' < n' →
    j + sliceStart extents k = j' + sliceStart extents k' → k = k' ∧ j = j'
  | m :: extents, 0, 0, _, _, j, j', _, _, _, _, h => ⟨rfl, h⟩
  | m :: extents, 0, k' + 1, n, n', j, j', hk, hk', hj, hj', h => by
      obtain rfl : m = n := Option.some.inj hk
      rw [sliceStart_cons_succ, sliceStart_zero] at h
      omega
  | m :: extents, k + 1, 0, n, n', j, j', hk, hk', hj, hj', h => by
      obtain rfl : m = n' := Option.some.inj hk'
      rw [sliceStart_cons_succ, sliceStart_zero] at h
      omega
  | m :: extents, k + 1, k' + 1, n, n', j, j', hk, hk', hj, hj', h => by
      rw [sliceStart_cons_succ, sliceStart_cons_succ] at h
      rw [List.getElem?_cons_succ] at hk hk'
      obtain ⟨rfl, hjj⟩ := slice_inj hk hk' hj hj' (by omega)
      exact ⟨rfl, hjj⟩

end Slices

/-! ## Positions moved along an axis -/

namespace Coord

variable {c c' : Coord} {axis : Axis} {offset : Nat} {s output : Shape}

/-- A position moved along an axis. -/
def shift (c : Coord) (axis : Axis) (offset : Nat) : Coord := c.set axis (c.get axis + offset)

theorem get_shift_self (c : Coord) (axis : Axis) (offset : Nat) :
    (c.shift axis offset).get axis = c.get axis + offset :=
  get_set_self ..

theorem get_shift_of_ne (c : Coord) (offset : Nat) {a : Axis} (h : a ≠ axis) :
    (c.shift axis offset).get a = c.get a :=
  get_set_of_ne _ _ h

theorem shift_inj (h : c.shift axis offset = c'.shift axis offset) : c = c' := by
  refine ext_get fun a => ?_
  have hget := congrArg (·.get a) h
  by_cases ha : a = axis
  · subst ha
    simpa only [get_shift_self, Nat.add_right_cancel_iff] using hget
  · simpa only [get_shift_of_ne _ _ ha] using hget

/-- A part that fits into an output off an axis fits in where there is room along it. -/
theorem inside_shift (hoff : ∀ a, a ≠ axis → s.get a = output.get a)
    (hroom : offset + s.get axis ≤ output.get axis) (hc : c.inside s = true) :
    (c.shift axis offset).inside output = true := by
  rw [inside_iff] at hc
  have haxis := hc axis
  exact inside_set (fun a ha => hoff a ha ▸ hc a) (by omega)

end Coord

/-! ## On the host -/

namespace Host

variable {axis : Axis} {offset : Nat} {input out out' : HostTensor}

/-- Writing some elements of an input, moved along the axis, has them there and leaves the rest. -/
theorem get_placed : ∀ {cs : List Coord} {out out' : HostTensor},
    (∀ c ∈ cs, (c.shift axis offset).inside out.size = true) →
    cs.foldlM (fun out c => do
      HostTensor.set out (c.shift axis offset) (← input.get c)) out = .ok out' →
    out'.size = out.size ∧ (∀ c ∈ cs, out'.get (c.shift axis offset) = input.get c) ∧
      ∀ d, d.inside out.size = true → (∀ c ∈ cs, c.shift axis offset ≠ d) →
        out'.get d = out.get d
  | [], out, out', _, h => by
      cases h
      exact ⟨rfl, fun c hc => absurd hc List.not_mem_nil, fun _ _ _ => rfl⟩
  | c :: cs, out, out', hroom, h => by
      obtain ⟨hc, hcs⟩ := List.forall_mem_cons.mp hroom
      rw [List.foldlM_cons] at h
      obtain ⟨out₁, hstep, hrest⟩ := bind_eq_ok_iff.mp h
      obtain ⟨v, hv, hset⟩ := bind_eq_ok_iff.mp hstep
      obtain ⟨hsize₁, hself, hother⟩ := HostTensor.get_set hset hc
      obtain ⟨hsize, hat, hframe⟩ := get_placed (hsize₁ ▸ hcs) hrest
      refine ⟨hsize.trans hsize₁, List.forall_mem_cons.mpr ⟨?_, hat⟩, fun d hd hne => ?_⟩
      · by_cases hagain : c ∈ cs
        · exact hat c hagain
        · have hlater : ∀ c' ∈ cs, c'.shift axis offset ≠ c.shift axis offset :=
            fun c' hc' heq => hagain ((Coord.shift_inj heq : c' = c) ▸ hc')
          rw [hframe _ (hsize₁ ▸ hc) hlater, hself, hv]
      · obtain ⟨hnec, hnecs⟩ := List.forall_mem_cons.mp hne
        rw [hframe d (hsize₁ ▸ hd) hnecs, hother d hd hnec.symm]

/-- **An input that is placed** is in its slice, and all else is as it was. -/
theorem get_place (hoff : ∀ a, a ≠ axis → input.size.get a = out.size.get a)
    (hroom : offset + input.size.get axis ≤ out.size.get axis)
    (h : place axis offset input out = .ok out') :
    out'.size = out.size ∧
    (∀ c, c.inside input.size = true → out'.get (c.shift axis offset) = input.get c) ∧
    ∀ d, d.inside out.size = true →
      (d.get axis < offset ∨ offset + input.size.get axis ≤ d.get axis) →
        out'.get d = out.get d := by
  obtain ⟨hsize, hat, hframe⟩ := get_placed
    (fun c hc => Coord.inside_shift hoff hroom (Coord.mem_all.mp hc)) h
  refine ⟨hsize, fun c hc => hat c (Coord.mem_all.mpr hc), fun d hd hout =>
    hframe d hd fun c hc heq => ?_⟩
  have hlt := Coord.inside_iff.mp (Coord.mem_all.mp hc) axis
  rw [← heq, Coord.get_shift_self] at hout
  omega

/-- **Inputs that are placed behind each other** are in their slices, and what stands before them is
as it was. -/
theorem get_appended : ∀ {inputs : List HostTensor} {out out' : HostTensor} {offset covered : Nat},
    (∀ t ∈ inputs, ∀ a, a ≠ axis → t.size.get a = out.size.get a) →
    offset + (inputs.map (·.size.get axis)).sum ≤ out.size.get axis →
    inputs.foldlM (append axis) (out, offset) = .ok (out', covered) →
    out'.size = out.size ∧
    (∀ (k : Nat) (t : HostTensor), inputs[k]? = some t → ∀ c, c.inside t.size = true →
      out'.get (c.shift axis (offset + sliceStart (inputs.map (·.size.get axis)) k)) = t.get c) ∧
    ∀ d, d.inside out.size = true → d.get axis < offset → out'.get d = out.get d
  | [], out, out', offset, covered, _, _, h => by
      cases h
      exact ⟨rfl, fun k t hk => (nomatch hk), fun _ _ _ => rfl⟩
  | t :: inputs, out, out', offset, covered, hoff, hroom, h => by
      obtain ⟨hofft, hoffs⟩ := List.forall_mem_cons.mp hoff
      rw [List.map_cons, List.sum_cons, ← Nat.add_assoc] at hroom
      have hroomt : offset + t.size.get axis ≤ out.size.get axis :=
        le_trans (Nat.le_add_right _ _) hroom
      rw [List.foldlM_cons] at h
      obtain ⟨_, hstep, hrest⟩ := bind_eq_ok_iff.mp h
      obtain ⟨out₁, hplace, heq⟩ := bind_eq_ok_iff.mp hstep
      cases heq
      obtain ⟨hsize₁, hat₁, hframe₁⟩ := get_place hofft hroomt hplace
      obtain ⟨hsize, hat, hframe⟩ := get_appended (hsize₁ ▸ hoffs) (hsize₁ ▸ hroom) hrest
      refine ⟨hsize.trans hsize₁, fun k t' hk c hc => ?_, fun d hd hlt => ?_⟩
      · cases k with
        | zero =>
          -- the later inputs stand behind the slice of this one
          obtain rfl : t = t' := Option.some.inj hk
          have hlt := Coord.inside_iff.mp hc axis
          have hin := Coord.inside_shift hofft hroomt hc
          change out'.get (c.shift axis offset) = _
          rw [hframe _ (hsize₁ ▸ hin) (by rw [Coord.get_shift_self]; omega), hat₁ c hc]
        | succ k =>
          rw [List.map_cons, sliceStart_cons_succ, ← Nat.add_assoc]
          exact hat k t' hk c hc
      · rw [hframe d (hsize₁ ▸ hd) (by omega), hframe₁ d hd (Or.inl hlt)]

/-- **Inputs that fill an output** are concatenated, each in its slice. -/
theorem get_concatenation {inputs : List HostTensor} {output : Shape}
    (hin : ∀ t ∈ inputs, t.Full) (hoff : ∀ t ∈ inputs, ∀ a, a ≠ axis → t.size.get a = output.get a)
    (hsum : (inputs.map (·.size.get axis)).sum = output.get axis) :
    ∃ out, concatenationValues axis inputs output = .ok out ∧ out.size = output ∧
      ∀ (k : Nat) (t : HostTensor), inputs[k]? = some t → ∀ c, c.inside t.size = true →
        out.get (c.shift axis (sliceStart (inputs.map (·.size.get axis)) k)) = t.get c := by
  have hroom : 0 + (inputs.map (·.size.get axis)).sum ≤ (HostTensor.zeros output).size.get axis := by
    rw [Nat.zero_add, hsum]
    exact le_refl _
  obtain ⟨out, hout⟩ := exists_appended 0 hin hoff (full_zeros output) hroom
  obtain ⟨hsize, hat, -⟩ := get_appended hoff hroom hout
  refine ⟨out, bind_eq_ok_iff.mpr ⟨_, hout, ?_⟩, hsize, fun k t hk c hc => ?_⟩
  · rw [Nat.zero_add, hsum]
    exact if_neg (not_not_intro rfl)
  · rw [← hat k t hk c hc, Nat.zero_add]

end Host

/-! ## In the kernel -/

namespace Kernel

/-- A launch that copies an input to an offset along an axis. -/
structure Launch.Copies (l : Launch) (input : Nat) (axis : Axis) (offset : Nat) : Prop where
  arguments : l.arguments = [.input input, .output]
  axis : l.defines.get? "CONCAT_AXIS" = some axis.name.toUpper
  offset : l.defines.get? "OUTPUT_AXIS_OFFSET" = some (toString offset)

namespace Builtin

theorem launches_singleLaunch {kind : Kind} {name layer : String} {defines : Defines}
    {groups : WorkGroups} {arguments : List Argument} {cost : Single} {plan : Plan}
    (h : singleLaunch kind name layer defines groups arguments cost = .ok plan) :
    plan.launches = [⟨entryPoint name layer, defines, groups, arguments, layer⟩] := by
  unfold singleLaunch at h
  split at h
  · cases h
    rfl
  · cases h

variable {layer : String} {o : Operands} {axis : Axis}

theorem launches_concatenationPart {index offset : Nat} {input : DataTensor} {plan : Plan}
    (h : concatenationPart layer o axis index offset input = .ok plan) :
    ∃ launch, plan.launches = [launch] ∧ launch.Copies index axis offset := by
  refine ⟨_, launches_singleLaunch h, rfl, ?_, ?_⟩ <;>
    simp [Defines.get?, Defines.num, List.reverse_append]

/-- **The launch for a part** starts at its slice. -/
theorem launches_concatenationParts : ∀ {inputs : List DataTensor} {index offset : Nat}
    {parts : List Plan}, concatenationParts layer o axis index offset inputs = .ok parts →
    (parts.flatMap (·.launches)).length = inputs.length ∧
    ∀ (k : Nat) (t : DataTensor), inputs[k]? = some t →
      ∃ launch, (parts.flatMap (·.launches))[k]? = some launch ∧
        launch.Copies (index + k) axis (offset + sliceStart (inputs.map (·.extent axis)) k)
  | [], index, offset, parts, h => by
      cases h
      exact ⟨rfl, fun k t hk => (nomatch hk)⟩
  | t :: inputs, index, offset, parts, h => by
      obtain ⟨part, hpart, h⟩ := bind_eq_ok_iff.mp h
      obtain ⟨parts', hparts, h⟩ := bind_eq_ok_iff.mp h
      cases h
      obtain ⟨launch, hlaunch, hcopies⟩ := launches_concatenationPart hpart
      obtain ⟨hlength, hat⟩ := launches_concatenationParts hparts
      rw [List.flatMap_cons, hlaunch]
      refine ⟨congrArg Nat.succ hlength, fun k t' hk => ?_⟩
      cases k with
      | zero => exact ⟨launch, rfl, hcopies⟩
      | succ k =>
        have hindex : index + (k + 1) = index + 1 + k := by omega
        rw [hindex, List.map_cons, sliceStart_cons_succ, ← Nat.add_assoc offset]
        exact hat k t' hk

theorem isNone_of_checkConcatenation {u : Unit} (h : checkConcatenation o axis = .ok u) :
    o.activation.isNone = true := by
  unfold checkConcatenation at h
  dsimp only at h
  split at h
  · cases h
  split at h
  · cases h
  case isFalse hnone => simpa using hnone

/-- The plan for a concatenation has the launches of all its parts, and no fused activation. -/
theorem planConcatenation_eq_ok {options : Options} {plans : List Plan}
    (h : planConcatenation ⟨layer, .concatenation o axis⟩ options = .ok plans) :
    o.activation.isNone = true ∧ ∃ plan parts, plans = [plan] ∧
      concatenationParts layer o axis 0 0 o.inputs = .ok parts ∧
      plan.launches = parts.flatMap (·.launches) := by
  obtain ⟨_, hcheck, h⟩ := bind_eq_ok_iff.mp h
  obtain ⟨parts, hparts, h⟩ := bind_eq_ok_iff.mp h
  refine ⟨isNone_of_checkConcatenation hcheck, ?_⟩
  cases parts with
  | nil => cases h
  | cons first rest =>
    cases h
    exact ⟨_, first :: rest, rfl, hparts, rfl⟩

end Builtin

end Kernel

/-! ## Concatenations -/

section Concatenation

variable {n : Node} {ls : List Layout} {output : Layout} {r : Concatenation}
  {request : Kernel.Request}

/-- The operands of a node have the sizes of the layouts. -/
theorem sizes_of_operands {o : Kernel.Operands} (h : n.operands ls output = .ok o) :
    o.activation = n.activation ∧ o.inputs.map (·.size) = ls.map (·.size) := by
  obtain ⟨tensors, htensors, h⟩ := bind_eq_ok_iff.mp h
  obtain ⟨result, -, h⟩ := bind_eq_ok_iff.mp h
  cases h
  refine ⟨rfl, ?_⟩
  rw [← List.forall₂_eq_eq_eq, List.forall₂_map_left_iff, List.forall₂_map_right_iff]
  exact (mapM_eq_ok_iff.mp htensors).flip.imp fun t l h =>
    (Node.dataTensor_eq_ok (Node.blame_eq_ok h)).1

theorem request?_concatenation (hop : n.operation = .concatenation r)
    (h : n.request? ls output = .ok (some request)) :
    ∃ o, request = ⟨n.id, .concatenation o r.axis⟩ ∧ n.operands ls output = .ok o := by
  obtain ⟨w, hw, h⟩ := bind_eq_ok_iff.mp h
  unfold Node.work? at hw
  rw [hop] at hw
  obtain ⟨o, ho, hw⟩ := bind_eq_ok_iff.mp hw
  cases hw
  cases h
  exact ⟨o, rfl, ho⟩

/-- **Each element of an output** is one element of one part. -/
theorem existsUnique_part {parts : List Shape} {output : Shape} {axis : Axis}
    (hoff : ∀ s ∈ parts, ∀ a, a ≠ axis → s.get a = output.get a)
    (hsum : (parts.map (·.get axis)).sum = output.get axis) {d : Coord}
    (hd : d.inside output = true) :
    ∃! p : Nat × Coord, ∃ s, parts[p.1]? = some s ∧ p.2.inside s = true ∧
      p.2.shift axis (sliceStart (parts.map (·.get axis)) p.1) = d := by
  rw [Coord.inside_iff] at hd
  obtain ⟨k, n, j, hk, hj, hstart⟩ := exists_slice (hsum ▸ hd axis)
  obtain ⟨s, hs, rfl⟩ := Option.map_eq_some_iff.mp (List.getElem?_map.symm.trans hk)
  refine ⟨(k, d.set axis j), ⟨s, hs, Coord.inside_set (fun a ha => ?_) hj, ?_⟩, ?_⟩
  · rw [hoff s (List.mem_of_getElem? hs) a ha]
    exact hd a
  · refine Coord.ext_get fun a => ?_
    by_cases ha : a = axis
    · subst ha
      rw [Coord.get_shift_self, Coord.get_set_self, hstart]
    · rw [Coord.get_shift_of_ne _ _ ha, Coord.get_set_of_ne _ _ ha]
  · rintro ⟨k', c⟩ ⟨s', hs', hc, rfl⟩
    dsimp only at hs' hc hstart ⊢
    have hk' : (parts.map (·.get axis))[k']? = some (s'.get axis) := by
      rw [List.getElem?_map, hs', Option.map_some]
    rw [Coord.get_shift_self] at hstart
    obtain ⟨rfl, rfl⟩ := slice_inj hk hk' hj (Coord.inside_iff.mp hc axis) hstart
    refine Prod.ext rfl (Coord.ext_get fun a => ?_)
    by_cases ha : a = axis
    · subst ha
      exact (Coord.get_set_self ..).symm
    · rw [Coord.get_set_of_ne _ _ ha, Coord.get_shift_of_ne _ _ ha]

/-- **The slices of a concatenation.**  Where the layout rule and the kernel accept the inputs, there
is one launch per input, which copies it to where the extents before it end; the last slice ends
with the output; the reference evaluator succeeds and has each element of an input in the same
place; and each element of the output is one element of one input. -/
theorem concatenation_slices (options : Kernel.Options) {plans : List Kernel.Plan}
    (hop : n.operation = .concatenation r) (hout : n.outputLayout ls = .ok output)
    (hrequest : n.request? ls output = .ok (some request))
    (hplans : Kernel.Builtin.concatenationRef.plan request options = .ok plans) :
    let start := sliceStart (ls.map (·.size.get r.axis))
    (∃ plan, plans = [plan] ∧ plan.launches.length = ls.length ∧
      ∀ k < ls.length, ∃ launch, plan.launches[k]? = some launch ∧
        launch.Copies k r.axis (start k)) ∧
    start ls.length = output.size.get r.axis ∧
    (∀ ts : List HostTensor, ts.map (·.size) = ls.map (·.size) → (∀ t ∈ ts, t.Full) →
      ∃ out, Host.concatenationValues r.axis ts output.size = .ok out ∧
        Host.evaluateDense n ts output.size = .ok out ∧ out.size = output.size ∧
        ∀ (k : Nat) (t : HostTensor), ts[k]? = some t → ∀ c, c.inside t.size = true →
          (c.shift r.axis (start k)).inside output.size = true ∧
          out.get (c.shift r.axis (start k)) = t.get c) ∧
    ∀ d, d.inside output.size = true → ∃! p : Nat × Coord, ∃ l, ls[p.1]? = some l ∧
      p.2.inside l.size = true ∧ p.2.shift r.axis (start p.1) = d := by
  intro start
  obtain ⟨o, rfl, ho⟩ := request?_concatenation hop hrequest
  obtain ⟨hact, plan, parts, rfl, hparts, hlaunches⟩ :=
    Kernel.Builtin.planConcatenation_eq_ok
      (show Kernel.Builtin.planConcatenation _ options = .ok plans from hplans)
  obtain ⟨hactivation, hsizes⟩ := sizes_of_operands ho
  obtain ⟨hoff, hsum⟩ := hop ▸ Node.shapes_of_outputLayout hout
  have hlength : o.inputs.length = ls.length := by
    simpa only [List.length_map] using congrArg List.length hsizes
  have hstart : start = sliceStart ((ls.map (·.size)).map (·.get r.axis)) := by
    rw [List.map_map]
    rfl
  have hextents : o.inputs.map (·.extent r.axis) = (ls.map (·.size)).map (·.get r.axis) := by
    rw [← hsizes, List.map_map]
    rfl
  refine ⟨⟨plan, rfl, ?_⟩, ?_, fun ts hts hfull => ?_, fun d hd => ?_⟩
  · obtain ⟨hcount, hat⟩ := Kernel.Builtin.launches_concatenationParts hparts
    rw [hlaunches]
    refine ⟨hcount.trans hlength, fun k hk => ?_⟩
    obtain ⟨launch, hlaunch, hcopies⟩ :=
      hat k _ (List.getElem?_eq_getElem (hlength ▸ hk))
    rw [Nat.zero_add, Nat.zero_add, hextents, ← hstart] at hcopies
    exact ⟨launch, hlaunch, hcopies⟩
  · rw [hstart, ← hsum, ← sliceStart_length, List.length_map, List.length_map]
  · have hoffs : ∀ t ∈ ts, ∀ a, a ≠ r.axis → t.size.get a = output.size.get a :=
      fun t ht => hoff _ (hts ▸ List.mem_map_of_mem ht)
    have hmap : ts.map (·.size.get r.axis) = (ls.map (·.size)).map (·.get r.axis) := by
      rw [← hts, List.map_map]
      rfl
    obtain ⟨out, hvalues, hsize, hat⟩ := Host.get_concatenation hfull hoffs (hmap ▸ hsum)
    rw [hmap, ← hstart] at hat
    refine ⟨out, hvalues, Host.evaluateDense_eq_ok_iff_mapM.mpr ⟨out, ?_, hsize, ?_⟩, hsize,
      fun k t hk c hc => ⟨?_, hat k t hk c hc⟩⟩
    · unfold Host.operationValues
      rw [hop]
      exact hvalues
    · rw [Activation.apply_of_isNone (hactivation ▸ hact), HostTensor.mapM_ok]
    · have hextent : ((ls.map (·.size)).map (·.get r.axis))[k]? = some (t.size.get r.axis) := by
        rw [← hmap, List.getElem?_map, hk, Option.map_some]
      have hslice := sliceStart_add_le hextent
      rw [hsum, ← hstart] at hslice
      exact Coord.inside_shift (hoffs t (List.mem_of_getElem? hk)) hslice hc
  · have hunique := existsUnique_part hoff hsum hd
    simpa only [hstart, List.getElem?_map, Option.map_eq_some_iff, exists_exists_and_eq_and]
      using hunique

/-- The same input on both sides of another: the last of three launches starts at 2 + 1. -/
theorem concatenation_slices_twice :
    ∃ plan launch out,
      Kernel.Builtin.concatenationRef.plan ⟨"n", .concatenation
        ⟨.none, [.dense .f32 .bfyx ⟨1, 1, 2, 1⟩, .dense .f32 .bfyx ⟨1, 1, 1, 1⟩,
          .dense .f32 .bfyx ⟨1, 1, 2, 1⟩], .dense .f32 .bfyx ⟨1, 1, 5, 1⟩⟩ .x⟩ .default
        = .ok [plan] ∧
      plan.launches[2]? = some launch ∧ launch.Copies 2 .x 3 ∧
      Host.evaluateDense (.ofPrimitive ⟨"n", .none, .concatenation ⟨["a", "b", "a"], .x⟩⟩)
        [⟨⟨1, 1, 2, 1⟩, #[.zero, .one]⟩, ⟨⟨1, 1, 1, 1⟩, #[.zero]⟩, ⟨⟨1, 1, 2, 1⟩, #[.zero, .one]⟩]
        ⟨1, 1, 5, 1⟩ = .ok out ∧
      out.get ⟨0, 0, 4, 0⟩ = .ok .one := by
  let n : Node := .ofPrimitive ⟨"n", .none, .concatenation ⟨["a", "b", "a"], .x⟩⟩
  let ls : List Layout := [.dense .f32 .bfyx ⟨1, 1, 2, 1⟩, .dense .f32 .bfyx ⟨1, 1, 1, 1⟩,
    .dense .f32 .bfyx ⟨1, 1, 2, 1⟩]
  have hout : n.outputLayout ls = .ok (.dense .f32 .bfyx ⟨1, 1, 5, 1⟩) := rfl
  obtain ⟨⟨plan, hplan, -, hlaunch⟩, -, hvalues, -⟩ :=
    concatenation_slices .default rfl hout rfl rfl
  obtain ⟨launch, hat, hcopies⟩ := hlaunch 2 (by decide)
  obtain ⟨out, -, hout, -, hget⟩ := hvalues
    [⟨⟨1, 1, 2, 1⟩, #[.zero, .one]⟩, ⟨⟨1, 1, 1, 1⟩, #[.zero]⟩, ⟨⟨1, 1, 2, 1⟩, #[.zero, .one]⟩] rfl
    (by decide)
  exact ⟨plan, launch, out, hplan ▸ rfl, hat, hcopies, hout, (hget 2 _ rfl ⟨0, 0, 1, 0⟩ rfl).2⟩

end Concatenation

end NetPlan
