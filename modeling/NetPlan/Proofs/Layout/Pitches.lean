import Mathlib.Algebra.BigOperators.Ring.List
import Mathlib.Tactic.Ring
import NetPlan.Graph.Operand
import NetPlan.Proofs.Host.Placement

/-!
# Proofs/Layout/Pitches — a buffer in the graph and the tensor a kernel is told of

The graph puts the padded indices of an element together outermost axis first; a kernel starts at
the first element of the tensor and goes along each axis by its pitch, a product of extents from the
innermost axis outwards.  Both come to the same place:

* `digits_reverse` — a number given by digits is the sum of its digits times their weights;
* `plainOffset_eq_place` — so a kernel finds each element of a plain buffer where the graph puts it;
* `dataTensor_addresses` — also where a fully connected layer takes the buffer as a matrix.
-/

namespace NetPlan

section Digits

variable {α : Type} {radix d : α → Nat}

theorem foldl_mul (axes : List α) : ∀ p : Nat,
    axes.foldl (fun p b => p * radix b) p = p * axes.foldl (fun p b => p * radix b) 1 := by
  induction axes with
  | nil => simp
  | cons a axes ih =>
    intro p
    rw [List.foldl_cons, List.foldl_cons, ih, ih (1 * radix a), Nat.one_mul, Nat.mul_assoc]

variable [DecidableEq α]

/-- The weight of a digit: the product of what lies inside it, innermost first. -/
def weight (radix : α → Nat) (axes : List α) (a : α) : Nat :=
  (axes.takeWhile (· ≠ a)).foldl (fun p b => p * radix b) 1

theorem weight_cons_self (a : α) (axes : List α) : weight radix (a :: axes) a = 1 := by
  simp [weight]

theorem weight_cons_of_ne {a b : α} (axes : List α) (h : a ≠ b) :
    weight radix (a :: axes) b = radix a * weight radix axes b := by
  rw [weight, List.takeWhile_cons_of_pos (by simpa using h), List.foldl_cons, foldl_mul,
    Nat.one_mul]
  rfl

/-- **Digits and weights.**  Digits are put together from the end of the list, weights multiply up
from its start. -/
theorem digits_reverse : ∀ {axes : List α}, axes.Nodup →
    digits radix d axes.reverse 0 = (axes.map fun a => d a * weight radix axes a).sum
  | [], _ => rfl
  | a :: axes, h => by
      obtain ⟨hnot, h⟩ := List.nodup_cons.mp h
      have hrest : (axes.map fun b => d b * weight radix (a :: axes) b)
          = axes.map fun b => radix a * (d b * weight radix axes b) := by
        refine List.map_congr_left fun b hb => ?_
        rw [weight_cons_of_ne axes (ne_of_mem_of_not_mem hb hnot).symm, Nat.mul_left_comm]
      calc digits radix d (a :: axes).reverse 0
        _ = digits radix d axes.reverse 0 * radix a + d a := by
            rw [List.reverse_cons, digits, List.foldl_append]
            rfl
        _ = ((a :: axes).map fun b => d b * weight radix (a :: axes) b).sum := by
            rw [digits_reverse h, List.map_cons, List.sum_cons, weight_cons_self, hrest,
              List.sum_map_mul_left, Nat.mul_one, Nat.mul_comm, Nat.add_comm]

end Digits

namespace DataTensor

/-- Where a kernel finds an element: from the first one along each axis by its pitch. -/
def place (t : DataTensor) (c : Coord) : Nat :=
  t.offset + c.b * t.pitch .batch + c.f * t.pitch .feature + c.x * t.pitch .x + c.y * t.pitch .y

/-- Every arrangement orders the four axes. -/
theorem perm_order (d : DataLayout) : d.order.Perm [.x, .y, .feature, .batch] := by
  cases d <;> decide

theorem pitch_eq_weight (t : DataTensor) (a : Axis) :
    t.pitch a = weight t.paddedExtent t.layout.order a := rfl

theorem place_eq_digits (t : DataTensor) (c : Coord) :
    t.place c = digits t.paddedExtent (fun a => c.get a + t.padding.lower.get a)
      t.layout.order.reverse 0 := by
  have hnodup : t.layout.order.Nodup := (perm_order _).nodup_iff.mpr (by decide)
  rw [digits_reverse hnodup, ((perm_order _).map _).sum_eq]
  simp only [← pitch_eq_weight, List.map_cons, List.map_nil, List.sum_cons, List.sum_nil, place,
    offset, Coord.get, Shape.get]
  ring

theorem bufferCount_eq (t : DataTensor) (l : Layout) (hsize : t.size = l.size)
    (hpadding : t.padding = l.padding) : t.bufferCount = l.paddedSize.count := by
  simp only [bufferCount, paddedExtent, Padding.total, Shape.get, hsize, hpadding,
    Layout.paddedSize, Shape.add, Shape.count]
  ring

end DataTensor

namespace Layout

variable {l : Layout} {c : Coord} {d : DataLayout} {order : List Axis}

/-- A plain format names its axes from the other end than the arrangement of kernels. -/
theorem order_eq_reverse {f : Format} (hd : f.dataLayout? = some d) (ho : f.order? = some order) :
    order = d.order.reverse := by
  cases f <;> cases hd <;> cases ho <;> rfl

/-- **Both ways to find an element** come to the same place. -/
theorem plainOffset_eq_place (hd : l.format.dataLayout? = some d)
    (ho : l.format.order? = some order) (c : Coord) :
    l.plainOffset order c = DataTensor.place ⟨l.element, d, l.size, l.padding⟩ c := by
  have hextent : l.paddedSize.get
      = DataTensor.paddedExtent ⟨l.element, d, l.size, l.padding⟩ := by
    funext a
    cases a <;> exact Nat.add_assoc ..
  rw [plainOffset_eq, DataTensor.place_eq_digits, hextent, order_eq_reverse hd ho]

/-- The formats of data without blocks. -/
def plainFormats : List Format := [.bfyx, .yxfb, .byxf, .fyxb]

/-- A plain buffer as data has its elements where the graph puts them. -/
theorem exists_dataTensor (h : l.format ∈ plainFormats) :
    ∃ t, l.dataTensor = .ok t ∧ t.bufferCount = l.bufferSize ∧
      ∀ c, c.inside l.size = true → l.offset? c = some (t.place c) := by
  have hformats : ∀ f ∈ plainFormats, f.dataLayout?.isSome = true ∧ f.order?.isSome = true := by
    decide
  obtain ⟨d, hd⟩ := Option.isSome_iff_exists.mp (hformats _ h).1
  obtain ⟨order, ho⟩ := Option.isSome_iff_exists.mp (hformats _ h).2
  refine ⟨⟨l.element, d, l.size, l.padding⟩, by simp only [dataTensor, hd], ?_, fun c hc => ?_⟩
  · rw [bufferSize_of_order ho]
    exact DataTensor.bufferCount_eq _ l rfl rfl
  · simp only [offset?, hc, ho, ← plainOffset_eq_place hd ho c]
    rfl

/-- The column of an element where its buffer is taken as a matrix with a row per batch. -/
def flatIndex (l : Layout) (c : Coord) : Nat :=
  if l.format = .yxfb then (c.y * l.size.x + c.x) * l.size.feature + c.f
  else (c.f * l.size.y + c.y) * l.size.x + c.x

theorem paddedSize_of_dense (hp : l.padding = .none) : l.paddedSize = l.size := by
  rw [paddedSize, hp]
  rfl

/-- In a dense buffer the indices are put together without borders. -/
theorem offset?_of_dense (hp : l.padding = .none) (ho : l.format.order? = some order)
    (hc : c.inside l.size = true) :
    l.offset? c = some (digits l.size.get c.get order 0) := by
  have hindex : (fun a => c.get a + l.padding.lower.get a) = c.get := by
    funext a
    rw [hp]
    cases a <;> rfl
  simp only [offset?, hc, ho, plainOffset_eq, paddedSize_of_dense hp, hindex]
  rfl

/-- A matrix without borders, by rows or by columns. -/
theorem place_matrix (e : Element) (rows columns row column : Nat) :
    (DataTensor.dense e .bf ⟨rows, columns, 1, 1⟩).place ⟨row, column, 0, 0⟩
        = row * columns + column ∧
      (DataTensor.dense e .fb ⟨rows, columns, 1, 1⟩).place ⟨row, column, 0, 0⟩
        = column * rows + row := by
  rw [DataTensor.place_eq_digits, DataTensor.place_eq_digits]
  simp [digits, DataTensor.dense, DataLayout.order, DataTensor.paddedExtent, Padding.total,
    Padding.none, Shape.zero, Shape.get, Coord.get]

/-- A dense buffer as a matrix has its elements where the graph puts them. -/
theorem exists_flatInput (hp : l.padding = .none) (h : l.format = .bfyx ∨ l.format = .yxfb) :
    ∃ g, l.flatInput = .ok g ∧ g.bufferCount = l.bufferSize ∧
      ∀ c, c.inside l.size = true →
        l.offset? c = some (g.place ⟨c.b, l.flatIndex c, 0, 0⟩) := by
  have hnone : l.padding.isNone = true := by rw [hp]; rfl
  have hcount (order : List Axis) (ho : l.format.order? = some order) (d : DataLayout) :
      (DataTensor.dense l.element d ⟨l.size.batch, l.size.feature * l.size.x * l.size.y, 1, 1⟩
        ).bufferCount = l.bufferSize := by
    rw [bufferSize_of_order ho, paddedSize_of_dense hp]
    simp only [DataTensor.bufferCount, DataTensor.paddedExtent, DataTensor.dense, Padding.total,
      Padding.none, Shape.zero, Shape.get, Shape.count]
    ring
  rcases h with hf | hf
  · have ho : l.format.order? = some [.batch, .feature, .y, .x] := by rw [hf]; rfl
    refine ⟨_, by simp only [flatInput, flatLayout?, hnone, hf]; rfl, hcount _ ho .bf,
      fun c hc => ?_⟩
    rw [offset?_of_dense hp ho hc, (place_matrix ..).1, flatIndex, hf, Option.some.injEq]
    simp only [digits, List.foldl_cons, List.foldl_nil, Coord.get, Shape.get, reduceCtorEq,
      if_false]
    ring
  · have ho : l.format.order? = some [.y, .x, .feature, .batch] := by rw [hf]; rfl
    refine ⟨_, by simp only [flatInput, flatLayout?, hnone, hf]; rfl, hcount _ ho .fb,
      fun c hc => ?_⟩
    rw [offset?_of_dense hp ho hc, (place_matrix ..).2, flatIndex, if_pos hf, Option.some.injEq]
    simp only [digits, List.foldl_cons, List.foldl_nil, Coord.get, Shape.get]
    ring

/-- **Kernels find the elements of a buffer where the graph puts them**, and take as many of it.  A
dense buffer they may also take as a matrix with a row per batch. -/
theorem dataTensor_addresses (h : l.format ∈ plainFormats) :
    (∃ t, l.dataTensor = .ok t ∧ t.bufferCount = l.bufferSize ∧
      ∀ c, c.inside l.size = true → l.offset? c = some (t.offset + c.b * t.pitch .batch
        + c.f * t.pitch .feature + c.x * t.pitch .x + c.y * t.pitch .y)) ∧
    (l.padding = .none → l.format = .bfyx ∨ l.format = .yxfb →
      ∃ g, l.flatInput = .ok g ∧ g.bufferCount = l.bufferSize ∧
        ∀ c, c.inside l.size = true → l.offset? c = some (g.offset + c.b * g.pitch .batch
          + l.flatIndex c * g.pitch .feature)) := by
  refine ⟨exists_dataTensor h, fun hp hf => ?_⟩
  obtain ⟨g, hg, hsize, hplace⟩ := exists_flatInput hp hf
  refine ⟨g, hg, hsize, fun c hc => ?_⟩
  simp only [hplace c hc, DataTensor.place, Nat.zero_mul, Nat.add_zero]

/-- A buffer with borders of different widths, and a dense one as a matrix by columns. -/
theorem dataTensor_addresses_bordered :
    (∃ t, dataTensor ⟨.f32, .byxf, ⟨2, 3, 4, 1⟩, ⟨0, 1, 0, 2⟩, ⟨1, 0, 3, 0⟩⟩ = .ok t ∧
      t.bufferCount = 252 ∧
      t.offset + 1 * t.pitch .batch + 2 * t.pitch .feature + 3 * t.pitch .x + 0 * t.pitch .y
        = 155) ∧
    ∃ g, (dense .f16 .yxfb ⟨2, 3, 2, 2⟩).flatInput = .ok g ∧ g.bufferCount = 24 ∧
      g.offset + 1 * g.pitch .batch + 8 * g.pitch .feature = 17 := by
  obtain ⟨⟨t, ht, htsize, htplace⟩, -⟩ := dataTensor_addresses
    (l := ⟨.f32, .byxf, ⟨2, 3, 4, 1⟩, ⟨0, 1, 0, 2⟩, ⟨1, 0, 3, 0⟩⟩) (by decide)
  obtain ⟨-, hflat⟩ := dataTensor_addresses (l := dense .f16 .yxfb ⟨2, 3, 2, 2⟩) (by decide)
  obtain ⟨g, hg, hgsize, hgplace⟩ := hflat rfl (Or.inr rfl)
  refine ⟨⟨t, ht, htsize, ?_⟩, g, hg, hgsize, ?_⟩
  · exact (Option.some.inj (htplace ⟨1, 2, 3, 0⟩ (by decide))).symm
  · exact (Option.some.inj (hgplace ⟨1, 2, 0, 1⟩ (by decide))).symm

end Layout

end NetPlan
