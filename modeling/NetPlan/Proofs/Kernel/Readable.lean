import Mathlib.Algebra.Group.Nat.Defs
import Mathlib.Logic.Function.Basic
import NetPlan.Kernel.Request.Encoding

/-!
# Proofs/Kernel/Readable — the byte form of work can be read back

A byte form has no marks between its parts: numbers and tags have a fixed width, and a list gives its length
first.  That is enough to read it from the front, and to know where it ends.

* `Readable` — a reader gives a value back and what stands behind it, if the amounts of the value fit;
* `Readable.ofFields` — several parts one after another are read one after another, so all of this goes
  through by the shape of the work;
* `encode_work_eq_iff` — so two requests have the same byte form exactly if they are the same but for the
  layer.
-/

namespace NetPlan.Kernel

/-- What stands in front of some bytes, and the bytes behind it. -/
abbrev Reader (α : Type) := List UInt8 → Option (α × List UInt8)

/-- A type whose byte form can be read back. -/
class Readable (α : Type) [Encode α] where
  /-- Values whose amounts fit the byte form. -/
  fits : α → Prop
  read : Reader α
  read_encode : ∀ (a : α) (rest : List UInt8), fits a → read (encode a ++ rest) = some (a, rest)

export Readable (fits read read_encode)

variable {α β : Type} [Encode α] [Encode β]

/-- **No two values that fit have the same byte form.** -/
theorem encode_inj [Readable α] {a b : α} (ha : fits a) (hb : fits b) (h : encode a = encode b) :
    a = b := by
  have hread : some (a, ([] : List UInt8)) = some (b, []) := by
    rw [← read_encode a [] ha, ← read_encode b [] hb, h]
  exact (Prod.mk.inj (Option.some.inj hread)).1

/-! ## Numbers -/

/-- Reads a number of so many bytes, lowest first. -/
def readNumber : Nat → Reader Nat
  | 0, bytes => some (0, bytes)
  | _ + 1, [] => none
  | width + 1, byte :: bytes =>
    (readNumber width bytes).map fun (n, rest) => (byte.toNat + 256 * n, rest)

theorem readNumber_littleEndian : ∀ (width n : Nat) (rest : List UInt8), n < 256 ^ width →
    readNumber width (littleEndian width n ++ rest) = some (n, rest)
  | 0, n, rest, h => by
      obtain rfl : n = 0 := Nat.lt_one_iff.mp h
      rfl
  | width + 1, n, rest, h => by
      have hlow : (n % 256).toUInt8.toNat = n % 256 :=
        UInt8.toNat_ofNat_of_lt' (Nat.mod_lt n (by decide))
      have hhigh : n / 256 < 256 ^ width := Nat.div_lt_of_lt_mul (Nat.pow_succ' ▸ h)
      have hsplit : n % 256 + 256 * (n / 256) = n := Nat.mod_add_div n 256
      rw [littleEndian, List.cons_append, readNumber, readNumber_littleEndian width _ rest hhigh,
        Option.map_some, hlow]
      exact congrArg (fun n => some (n, rest)) hsplit

instance : Readable Nat where
  fits n := n < 2 ^ 64
  read := readNumber 8
  read_encode n rest h := readNumber_littleEndian 8 n rest h

instance : Readable Single where
  fits _ := True
  read bytes := (readNumber 4 bytes).map fun (n, rest) => (⟨n.toUInt32⟩, rest)
  read_encode a rest _ := by
    have hfits : a.bits.toNat < 256 ^ 4 := a.bits.toNat_lt
    rw [show encode a = littleEndian 4 a.bits.toNat from rfl, readNumber_littleEndian 4 _ rest hfits,
      Option.map_some]
    exact congrArg (fun bits : UInt32 => some ((⟨bits⟩ : Single), rest)) UInt32.ofNat_toNat

/-! ## Tags -/

/-- A named value is the one whose byte form stands in front. -/
@[reducible]
def Readable.ofNamed [Named α] (hlength : ∀ a : α, (encode a).length = 4)
    (hfind : ∀ a : α, Named.all.find? (fun b : α => encode b = encode a) = some a) : Readable α where
  fits _ := True
  read bytes := (Named.all.find? fun a : α => encode a = bytes.take 4).map (·, bytes.drop 4)
  read_encode a rest _ := by
    rw [List.take_left' (hlength a), List.drop_left' (hlength a), hfind, Option.map_some]

instance : Readable Element := .ofNamed (by rintro ⟨⟩ <;> rfl) (by rintro ⟨⟩ <;> rfl)

instance : Readable WeightElement := .ofNamed (by rintro ⟨⟩ <;> rfl) (by rintro ⟨⟩ <;> rfl)

instance : Readable DataLayout := .ofNamed (by rintro ⟨⟩ <;> rfl) (by rintro ⟨⟩ <;> rfl)

instance : Readable WeightLayout := .ofNamed (by rintro ⟨⟩ <;> rfl) (by rintro ⟨⟩ <;> rfl)

instance : Readable ActivationFunction := .ofNamed (by rintro ⟨⟩ <;> rfl) (by rintro ⟨⟩ <;> rfl)

instance : Readable PoolKind := .ofNamed (by rintro ⟨⟩ <;> rfl) (by rintro ⟨⟩ <;> rfl)

instance : Readable PoolRounding := .ofNamed (by rintro ⟨⟩ <;> rfl) (by rintro ⟨⟩ <;> rfl)

instance : Readable PoolDivider := .ofNamed (by rintro ⟨⟩ <;> rfl) (by rintro ⟨⟩ <;> rfl)

instance : Readable SoftmaxAxis := .ofNamed (by rintro ⟨⟩ <;> rfl) (by rintro ⟨⟩ <;> rfl)

instance : Readable Axis := .ofNamed (by rintro ⟨⟩ <;> rfl) (by rintro ⟨⟩ <;> rfl)

instance : Readable EltwiseMode := .ofNamed (by rintro ⟨⟩ <;> rfl) (by rintro ⟨⟩ <;> rfl)

/-! ## Lists -/

/-- Reads so many values, one after another. -/
def readMany [Readable α] : Nat → Reader (List α)
  | 0, bytes => some ([], bytes)
  | count + 1, bytes => do
    let (a, bytes) ← read bytes
    let (as, bytes) ← readMany count bytes
    return (a :: as, bytes)

theorem readMany_flatMap [Readable α] (rest : List UInt8) : ∀ as : List α, (∀ a ∈ as, fits a) →
    readMany as.length (as.flatMap encode ++ rest) = some (as, rest)
  | [], _ => rfl
  | a :: as, h => by
      obtain ⟨ha, has⟩ := List.forall_mem_cons.mp h
      rw [List.flatMap_cons, List.append_assoc, List.length_cons, readMany, read_encode a _ ha,
        Option.bind_eq_bind, Option.bind_some]
      dsimp only
      rw [readMany_flatMap rest as has]
      rfl

instance [Readable α] : Readable (List α) where
  fits as := fits as.length ∧ ∀ a ∈ as, fits a
  read bytes := do
    let (count, bytes) ← read bytes
    readMany count bytes
  read_encode as rest h := by
    rw [show encode as = encode as.length ++ as.flatMap encode from rfl, List.append_assoc,
      read_encode _ _ h.1]
    exact readMany_flatMap rest as h.2

/-! ## Parts one after another -/

instance : Encode (α × β) := ⟨fun a => encode a.1 ++ encode a.2⟩

instance [Readable α] [Readable β] : Readable (α × β) where
  fits a := fits a.1 ∧ fits a.2
  read bytes := do
    let (a, bytes) ← read bytes
    let (b, bytes) ← read bytes
    return ((a, b), bytes)
  read_encode a rest h := by
    rw [show encode a = encode a.1 ++ encode a.2 from rfl, List.append_assoc, read_encode a.1 _ h.1,
      Option.bind_eq_bind, Option.bind_some]
    dsimp only
    rw [read_encode a.2 rest h.2]
    rfl

/-- A value is read as its fields and built from them. -/
@[reducible]
def Readable.ofFields [Readable β] (fields : α → β) (build : β → α) (hbuild : ∀ a, build (fields a) = a)
    (hencode : ∀ a, encode a = encode (fields a)) : Readable α where
  fits a := fits (fields a)
  read bytes := (read bytes).map fun (b, rest) => (build b, rest)
  read_encode a rest h := by
    rw [hencode, read_encode (fields a) rest h, Option.map_some]
    exact congrArg (fun a => some (a, rest)) (hbuild a)

instance : Readable Planar :=
  .ofFields (fun p => (p.x, p.y)) (fun (x, y) => ⟨x, y⟩) (fun _ => rfl) fun _ => rfl

instance : Readable Activation :=
  .ofFields (fun a => ((a.function, a.m), a.n)) (fun ((function, m), n) => ⟨function, m, n⟩)
    (fun _ => rfl) fun _ => rfl

/-- Axis by axis, the two edges of the padding stand side by side. -/
instance : Readable DataTensor :=
  .ofFields
    (fun t => (((((((((t.element, t.layout), t.size.x), t.size.y), t.size.feature), t.size.batch),
      (t.padding.lower.x, t.padding.upper.x)), (t.padding.lower.y, t.padding.upper.y)),
      (t.padding.lower.feature, t.padding.upper.feature)),
      (t.padding.lower.batch, t.padding.upper.batch)))
    (fun (((((((((element, layout), x), y), feature), batch), (xl, xu)), (yl, yu)), (fl, fu)), (bl, bu)) =>
      ⟨element, layout, ⟨batch, feature, x, y⟩, ⟨⟨bl, fl, xl, yl⟩, ⟨bu, fu, xu, yu⟩⟩⟩)
    (fun _ => rfl) fun _ => rfl

instance : Readable WeightTensor :=
  .ofFields (fun w => (((((w.element, w.layout), w.outputs), w.inputs), w.x), w.y))
    (fun (((((element, layout), outputs), inputs), x), y) => ⟨element, layout, outputs, inputs, x, y⟩)
    (fun _ => rfl) fun _ => rfl

instance : Readable Operands :=
  .ofFields (fun o => ((o.activation, o.inputs), o.output))
    (fun ((activation, inputs), output) => ⟨activation, inputs, output⟩) (fun _ => rfl) fun _ => rfl

instance : Readable Filter :=
  .ofFields (fun f => (f.weights, f.bias)) (fun (weights, bias) => ⟨weights, bias⟩) (fun _ => rfl)
    fun _ => rfl

instance : Readable ConvolutionWork :=
  .ofFields
    (fun w => ((((((w.operands, w.filter), w.window), w.stride), w.dilation), w.padding), w.split))
    (fun ((((((operands, filter), window), stride), dilation), padding), split) =>
      ⟨operands, filter, window, stride, dilation, padding, split⟩)
    (fun _ => rfl) fun _ => rfl

instance : Readable FullyConnectedWork :=
  .ofFields (fun w => (w.operands, w.filter)) (fun (operands, filter) => ⟨operands, filter⟩)
    (fun _ => rfl) fun _ => rfl

instance : Readable PoolingWork :=
  .ofFields
    (fun w => ((((((w.operands, w.kind), w.rounding), w.divider), w.window), w.stride), w.padding))
    (fun ((((((operands, kind), rounding), divider), window), stride), padding) =>
      ⟨operands, kind, rounding, divider, window, stride, padding⟩)
    (fun _ => rfl) fun _ => rfl

instance : Readable EltwiseWork :=
  .ofFields (fun w => ((w.operands, w.mode), w.coefficients))
    (fun ((operands, mode), coefficients) => ⟨operands, mode, coefficients⟩) (fun _ => rfl) fun _ => rfl

instance : Readable ReorderWork :=
  .ofFields (fun w => (w.operands, w.subtract)) (fun (operands, subtract) => ⟨operands, subtract⟩)
    (fun _ => rfl) fun _ => rfl

/-! ## Work -/

namespace Work

/-- The amounts of the work fit. -/
def Fits : Work → Prop
  | .convolution w => fits w
  | .fullyConnected w => fits w
  | .pooling w => fits w
  | .activation o => fits o
  | .eltwise w => fits w
  | .reorder w => fits w
  | .weightsReorder source target => fits (source, target)
  | .softmax o axis => fits (o, axis)
  | .concatenation o axis => fits (o, axis)
  | .batchNorm o epsilon => fits (o, epsilon)
  | .scale o => fits o
  | .fusedConvBnScale w epsilon => fits (w, epsilon)

/-- A reader of something the work is made of. -/
def readAs [Readable α] (build : α → Work) : Reader Work := fun bytes =>
  (read bytes).map fun (a, rest) => (build a, rest)

theorem readAs_encode [Readable α] (build : α → Work) {a : α} (h : fits a) (rest : List UInt8) :
    readAs build (encode a ++ rest) = some (build a, rest) := by
  rw [readAs, read_encode a rest h, Option.map_some]

/-- The reader for the kind of work that a tag stands for. -/
def payload : Nat → Reader Work
  | 0 => readAs .convolution
  | 1 => readAs .fullyConnected
  | 2 => readAs .pooling
  | 3 => readAs .activation
  | 4 => readAs .eltwise
  | 5 => readAs .reorder
  | 6 => readAs (Function.uncurry Work.weightsReorder)
  | 7 => readAs (Function.uncurry Work.softmax)
  | 8 => readAs (Function.uncurry Work.concatenation)
  | 9 => readAs (Function.uncurry Work.batchNorm)
  | 10 => readAs .scale
  | 11 => readAs (Function.uncurry Work.fusedConvBnScale)
  | _ => fun _ => none

/-- What stands behind a tag is read as the tag says. -/
theorem readTag {n : Nat} (hn : n < 256 ^ 4) (bytes : List UInt8) :
    (readNumber 4 (tag n ++ bytes)).bind (fun (n, bytes) => payload n bytes) = payload n bytes := by
  rw [tag, readNumber_littleEndian 4 n bytes hn, Option.bind_some]

end Work

instance : Readable Work where
  fits := Work.Fits
  read bytes := (readNumber 4 bytes).bind fun (n, bytes) => Work.payload n bytes
  read_encode work rest h := by
    obtain ⟨n, bytes, hn, hencode, hpayload⟩ : ∃ (n : Nat) (bytes : List UInt8), n < 256 ^ 4 ∧
        encode work = tag n ++ bytes ∧ Work.payload n (bytes ++ rest) = some (work, rest) := by
      cases work with
      | convolution w => exact ⟨0, _, by decide, rfl, Work.readAs_encode .convolution h rest⟩
      | fullyConnected w => exact ⟨1, _, by decide, rfl, Work.readAs_encode .fullyConnected h rest⟩
      | pooling w => exact ⟨2, _, by decide, rfl, Work.readAs_encode .pooling h rest⟩
      | activation o => exact ⟨3, _, by decide, rfl, Work.readAs_encode .activation h rest⟩
      | eltwise w => exact ⟨4, _, by decide, rfl, Work.readAs_encode .eltwise h rest⟩
      | reorder w => exact ⟨5, _, by decide, rfl, Work.readAs_encode .reorder h rest⟩
      | weightsReorder source target =>
        exact ⟨6, encode (source, target), by decide, List.append_assoc _ _ _,
          Work.readAs_encode (Function.uncurry Work.weightsReorder) h rest⟩
      | softmax o axis =>
        exact ⟨7, encode (o, axis), by decide, List.append_assoc _ _ _,
          Work.readAs_encode (Function.uncurry Work.softmax) h rest⟩
      | concatenation o axis =>
        exact ⟨8, encode (o, axis), by decide, List.append_assoc _ _ _,
          Work.readAs_encode (Function.uncurry Work.concatenation) h rest⟩
      | batchNorm o epsilon =>
        exact ⟨9, encode (o, epsilon), by decide, List.append_assoc _ _ _,
          Work.readAs_encode (Function.uncurry Work.batchNorm) h rest⟩
      | scale o => exact ⟨10, _, by decide, rfl, Work.readAs_encode .scale h rest⟩
      | fusedConvBnScale w epsilon =>
        exact ⟨11, encode (w, epsilon), by decide, List.append_assoc _ _ _,
          Work.readAs_encode (Function.uncurry Work.fusedConvBnScale) h rest⟩
    rw [hencode, List.append_assoc, Work.readTag hn, hpayload]

/-! ## Requests -/

/-- **The byte form of a request leaves out the layer, and nothing else.**  Two requests whose sizes are
below `2 ^ 64` have the same bytes digested for their fingerprints exactly if they are equal once they are
given the same layer. -/
theorem encode_work_eq_iff {r q : Request} (hr : fits r.work) (hq : fits q.work) :
    encode r.work = encode q.work ↔ { r with layer := q.layer } = q := by
  constructor
  · intro h
    rw [encode_inj hr hq h]
  · intro h
    rw [← h]

/-- A weighted sum over one number. -/
def weighted (layer : String) (coefficients : List Single) : Request :=
  let number : DataTensor := .dense .f32 .bf ⟨1, 1, 1, 1⟩
  ⟨layer, .eltwise ⟨⟨.none, [number], number⟩, .sum, coefficients⟩⟩

theorem fits_weighted (layer : String) {coefficients : List Single}
    (h : coefficients.length < 2 ^ 64) : fits (weighted layer coefficients).work := by
  have hzero : fits 0 := Nat.two_pow_pos 64
  have hone : fits 1 := Nat.one_lt_two_pow (by decide)
  have hnone : fits (0, 0) := ⟨hzero, hzero⟩
  have hnumber : fits (DataTensor.dense .f32 .bf ⟨1, 1, 1, 1⟩) :=
    ⟨⟨⟨⟨⟨⟨⟨⟨⟨trivial, trivial⟩, hone⟩, hone⟩, hone⟩, hone⟩, hnone⟩, hnone⟩, hnone⟩, hnone⟩
  have hinputs : fits [DataTensor.dense .f32 .bf ⟨1, 1, 1, 1⟩] :=
    ⟨hone, List.forall_mem_singleton.mpr hnumber⟩
  exact ⟨⟨⟨⟨⟨⟨trivial, trivial⟩, trivial⟩, hinputs⟩, hnumber⟩, trivial⟩, h, fun _ _ => trivial⟩

/-- The layer does not count; a coefficient does, though it is the neutral one. -/
theorem encode_work_eq_iff_weighted :
    fits (weighted "a" []).work ∧ fits (weighted "b" []).work ∧ fits (weighted "b" [.one]).work ∧
    encode (weighted "a" []).work = encode (weighted "b" []).work ∧
    encode (weighted "a" []).work ≠ encode (weighted "b" [.one]).work := by
  have ha : fits (weighted "a" []).work := fits_weighted "a" (by decide)
  have hb : fits (weighted "b" []).work := fits_weighted "b" (by decide)
  have hone : fits (weighted "b" [.one]).work := fits_weighted "b" (by decide)
  refine ⟨ha, hb, hone, (encode_work_eq_iff ha hb).mpr rfl, fun h => ?_⟩
  have hsame := (encode_work_eq_iff ha hone).mp h
  exact absurd hsame (by decide)

end NetPlan.Kernel
