import TensorGraph.Proofs.Operator.Formulas

/-!
# Tensors stacked along an axis

Each value gets a new axis of length one, and values are joined along it, one more at a time. The slices
of such a stack are the values.
-/

namespace TensorGraph

open Inference Layout List Tensor

variable {α : Type} {axis : Nat} {index lens : List Nat} {t a b : Tensor α}
  {parts : List (Tensor α)}

namespace Tensor

/-- The slice of a tensor at a position along an axis, with the axis dropped. -/
structure IsSlice (part t : Tensor α) (axis position : Nat) : Prop where
  elem : part.shape.elem = t.shape.elem
  lens : part.lens = t.lens.eraseIdx axis
  get : ∀ index, InRange index part.lens → t.get (index.insertIdx axis position) = part.get index

/-- A tensor whose slices along an axis are these. -/
structure Stacked (axis : Nat) (parts : List (Tensor α)) (t : Tensor α) : Prop where
  len : t.lens[axis]? = some parts.length
  slice : ∀ position part, parts[position]? = some part → IsSlice part t axis position

end Tensor

namespace Inference

theorem insertUnits_eq_self {axes places : List Nat} {layout widened : Layout}
    (hfree : ∀ place ∈ places, place ∉ axes) (hlength : places.length = layout.length)
    (hrun : insertUnits axes places layout = .ok widened) : widened = layout := by
  induction places generalizing layout widened with
  | nil =>
    cases hrun
    exact (length_eq_zero_iff.1 hlength.symm).symm
  | cons place places ih =>
    rw [forall_mem_cons] at hfree
    rcases insertUnits_cons_eq_ok hrun with ⟨hplace, -⟩ | ⟨-, next, rest, inner, rfl, hinner, rfl⟩
    · exact absurd hplace hfree.1
    · rw [ih hfree.2 (Nat.succ.inj hlength) hinner]

/-- One unit axis is inserted at its place. -/
theorem insertUnits_singleton {axis start : Nat} {layout widened : Layout}
    (hplace : axis ≤ layout.length)
    (hrun : insertUnits [start + axis] (List.range' start (layout.length + 1)) layout =
      .ok widened) :
    ∃ stride, widened = layout.insertIdx axis ⟨1, stride⟩ := by
  induction layout generalizing axis start widened with
  | nil =>
    obtain rfl := Nat.le_zero.1 hplace
    rcases insertUnits_cons_eq_ok hrun with ⟨-, stride, inner, hinner, -, rfl⟩ | ⟨hplace, -⟩
    · cases hinner
      exact ⟨stride, rfl⟩
    · simp at hplace
  | cons next rest ih =>
    rw [length_cons, range'_succ] at hrun
    rcases insertUnits_cons_eq_ok hrun with
      ⟨hhere, stride, inner, hinner, -, rfl⟩ | ⟨hlater, _, _, inner, heq, hinner, rfl⟩
    · obtain rfl : axis = 0 := by simpa using hhere
      refine ⟨stride, ?_⟩
      rw [insertIdx_zero, insertUnits_eq_self _ (by simp) hinner]
      intro place hmem
      have := mem_range'_1.1 hmem
      simp only [mem_singleton]
      omega
    · cases heq
      obtain ⟨axis, rfl⟩ : ∃ k, axis = k + 1 := ⟨axis - 1, by simp at hlater; omega⟩
      rw [show start + (axis + 1) = start + 1 + axis by omega] at hinner
      obtain ⟨stride, rfl⟩ := ih (Nat.le_of_succ_le_succ hplace) hinner
      exact ⟨stride, rfl⟩

end Inference

theorem Layout.position_insertIdx {layout : Layout} (position : Nat) (unit : Axis)
    (hlength : index.length = layout.length) (hplace : axis ≤ layout.length) :
    Layout.position (layout.insertIdx axis unit) (index.insertIdx axis position) =
      position * unit.stride + layout.position index := by
  induction axis generalizing layout index with
  | zero => rw [insertIdx_zero, insertIdx_zero, position_cons]
  | succ axis ih =>
    cases layout with
    | nil => cases hplace
    | cons first rest =>
      cases index with
      | nil => cases hlength
      | cons i index =>
        rw [insertIdx_succ_cons, insertIdx_succ_cons, position_cons, position_cons,
          ih (Nat.succ.inj hlength) (Nat.le_of_succ_le_succ hplace)]
        omega

theorem inRange_insertIdx {position len : Nat} (hrange : InRange index lens)
    (hplace : axis ≤ lens.length) (hposition : position < len) :
    InRange (index.insertIdx axis position) (lens.insertIdx axis len) := by
  induction axis generalizing index lens with
  | zero => exact .cons hposition hrange
  | succ axis ih =>
    cases hrange with
    | nil => cases hplace
    | cons hfirst hrest => exact .cons hfirst (ih hrest (Nat.le_of_succ_le_succ hplace))

variable [Scalar α]

/-- A value with a new axis is a stack of one. -/
theorem stacked_unsqueeze (hrun : (Operator.unsqueeze [axis]).apply [a] [] = .ok t) :
    Tensor.Stacked axis [a] t := by
  obtain ⟨out, hinfer, hrun⟩ := bind_eq_ok_iff.1 hrun
  obtain ⟨elem, layout, widened, hinputs, hbelow, -, hinsert, rfl⟩ :=
    unsqueezeShape_eq_ok (Outcome.liftShape_eq_ok_iff.1 hinfer)
  have hshape : a.shape = .strided elem layout := (List.cons.inj hinputs).1
  have hplace : axis ≤ layout.length := Nat.le_of_lt_succ (hbelow axis (by simp))
  obtain ⟨stride, rfl⟩ : ∃ stride, widened = layout.insertIdx axis ⟨1, stride⟩ := by
    rw [range_eq_range', ← Nat.zero_add axis] at hinsert
    exact insertUnits_singleton hplace hinsert
  obtain ⟨_, _, n, hout, hspace, -, rfl⟩ :=
    ofBuffer_eq_ok_iff.1 (Outcome.lift_eq_ok_iff.1 hrun)
  cases hout
  have hlens : (Tensor.strided elem (layout.insertIdx axis ⟨1, stride⟩) a.data).lens =
      a.lens.insertIdx axis 1 := by
    rw [lens_of_shape hshape]
    exact map_insertIdx _ _ _ _
  refine ⟨?_, ?_⟩
  · rw [hlens, getElem?_insertIdx_self, if_pos]
    · rfl
    · simpa [lens_of_shape hshape] using hplace
  · intro position part hpart
    obtain ⟨rfl, rfl⟩ : position = 0 ∧ part = a := by
      cases position with
      | zero => exact ⟨rfl, (Option.some.inj hpart).symm⟩
      | succ position => cases hpart
    refine ⟨by rw [hshape]; rfl, by rw [hlens, eraseIdx_insertIdx_self], ?_⟩
    intro index hrange
    have hlength : index.length = layout.length := by
      rw [hrange.length_eq, lens_of_shape hshape, length_lens]
    -- Both are read at one position, which the space of the wider layout covers.
    have hinside : InRange (index.insertIdx axis 0)
        (Layout.lens (layout.insertIdx axis ⟨1, stride⟩)) := by
      rw [Layout.lens, map_insertIdx]
      rw [lens_of_shape hshape] at hrange
      exact inRange_insertIdx hrange (by simpa using hplace) Nat.one_pos
    have hwide := offset_of_inRange hspace hinside
    rw [position_insertIdx 0 ⟨1, stride⟩ hlength hplace, Nat.zero_mul, Nat.zero_add] at hwide
    have hread : part.shape.offset index = .ok (layout.position index) := by
      rw [Shape.offset, hshape]
      exact offset_eq_ok_iff.2 ⟨rfl, (offset_eq_ok_iff.1 hwide).2⟩
    rw [Tensor.get, Tensor.get, hread]
    exact congrArg (· >>= _) hwide

/-- A tabulated dense tensor is read as it was tabulated. -/
theorem Tensor.get_tabulate {out : Shape} {elem : ElementType} {value : List Nat → Checked α}
    (hdense : out.IsDense elem lens) (hrun : Tensor.tabulate out value = .ok t)
    (hrange : InRange index lens) : t.get index = value index := by
  obtain ⟨axes, rfl, rfl, hdense'⟩ := id hdense
  obtain ⟨_, _, n, heq, -, -, -, hvalues⟩ := tabulate_eq_ok hrun
  cases heq
  have hnonempty : Nonempty α := ⟨Scalar.zero⟩
  choose! f hf using hvalues
  have hholds := (computes_tabulate hdense hf).holds hrun
  rw [hholds.valid.get_eq hholds.shape_eq hrange, hf index hrange, value_reading,
    hholds.entry_eq index hrange]
  rw [lens_of_shape hholds.shape_eq]
  exact hrange

theorem Inference.eq_of_resolveAxis_natCast {op : String} {rank place : Nat}
    (hrun : resolveAxis op (axis : Int) rank = .ok place) : place = axis := by
  unfold resolveAxis at hrun
  dsimp only at hrun
  rw [if_neg (Int.not_lt.2 (Int.natCast_nonneg axis))] at hrun
  split_ifs at hrun
  · cases hrun
  · cases hrun
    rfl

section Join

open Evaluation

variable {place len position : Nat}

omit [Scalar α] in
theorem locate_first (hlen : a.lens[place]? = some len)
    (hposition : index[place]? = some position) (hlt : position < len) :
    locate place (a :: parts) index = .ok (some (a, index)) := by
  rw [locate, fetch_eq_ok_iff.2 hlen, fetch_eq_ok_iff.2 hposition]
  exact if_pos hlt

omit [Scalar α] in
theorem locate_later (hlen : a.lens[place]? = some len)
    (hposition : index[place]? = some position) (hle : len ≤ position) :
    locate place (a :: parts) index = locate place parts (index.set place (position - len)) := by
  rw [locate, fetch_eq_ok_iff.2 hlen, fetch_eq_ok_iff.2 hposition]
  exact if_neg (Nat.not_lt.2 hle)

end Join

theorem set_insertIdx_self (hplace : axis ≤ index.length) (position position' : Nat) :
    (index.insertIdx axis position).set axis position' = index.insertIdx axis position' := by
  rw [← insertIdx_eraseIdx_self, eraseIdx_insertIdx_self]
  rw [length_insertIdx_of_le_length hplace]
  omega

theorem AgreeOutside.eraseIdx_eq {other : List Nat} (hagree : AgreeOutside axis lens other) :
    lens.eraseIdx axis = other.eraseIdx axis := by
  ext1 k
  rw [getElem?_eraseIdx, getElem?_eraseIdx]
  split_ifs with hk
  · exact hagree.2 k (Nat.ne_of_lt hk)
  · exact hagree.2 (k + 1) (by omega)

/-- What a join of two tensors along a common axis has found out. -/
theorem concat_pair_eq_ok {m n : Nat} (hm : a.lens[axis]? = some m)
    (hn : b.lens[axis]? = some n) (hrun : (Operator.concat (axis : Int)).apply [a, b] [] = .ok t) :
    Evaluation.joinValue axis t.shape [a, b] = .ok t ∧
      t.shape.IsDense a.shape.elem (a.lens.set axis (m + n)) ∧
      b.shape.elem = a.shape.elem ∧ b.lens.eraseIdx axis = a.lens.eraseIdx axis := by
  obtain ⟨out, hinfer, hrun⟩ := Operator.apply_eq_ok_iff.1 hrun
  obtain ⟨_, _, place, lens, hinputs, helem, hjoin, hdense, -, hevaluate⟩ :=
    Operator.concat_evaluates hinfer
  obtain ⟨rfl, rfl⟩ := List.cons.inj hinputs
  obtain ⟨first, rest, hparts, -, hplace, hagree, -, rfl⟩ := joinLens_eq_ok_iff.1 hjoin
  cases hparts
  obtain rfl := eq_of_resolveAxis_natCast hplace
  have hsum : Word.total ((Tensor.shapes [a, b]).map (·.lens.getD place 0)) = m + n := by
    have hlens (s : Tensor α) : s.shape.lens = s.lens := rfl
    simp [Tensor.shapes, hlens, getD_eq_getElem?_getD, hm, hn, Word.total]
  rw [hevaluate, Outcome.lift_eq_ok_iff] at hrun
  have hshape : t.shape = out := by
    obtain ⟨_, _, _, -, -, -, hshape, -⟩ := tabulate_eq_ok hrun
    exact hshape
  have hothers : b.lens.eraseIdx place = a.lens.eraseIdx place :=
    (hagree b.shape (by simp [Tensor.shapes])).eraseIdx_eq
  rw [hsum] at hdense
  subst hshape
  exact ⟨hrun, hdense, helem _ (by simp [Tensor.shapes]), hothers⟩

/-- Stacks that are joined along their axis are a stack. -/
theorem stacked_concat {xs ys : List (Tensor α)} (ha : Tensor.Stacked axis xs a)
    (hb : Tensor.Stacked axis ys b) (hrun : (Operator.concat (axis : Int)).apply [a, b] [] = .ok t) :
    Tensor.Stacked axis (xs ++ ys) t := by
  obtain ⟨hjoined, hdense, helem, hothers⟩ := concat_pair_eq_ok ha.len hb.len hrun
  have hrank : axis < a.lens.length := (List.getElem?_eq_some_iff.1 ha.len).1
  have hlens : t.lens = a.lens.set axis (xs.length + ys.length) := hdense.lens_eq
  have helems : t.shape.elem = a.shape.elem := by
    obtain ⟨axes, hshape, -, -⟩ := hdense
    rw [hshape]
    rfl
  refine ⟨?_, ?_⟩
  · rw [hlens, getElem?_set_self hrank, length_append]
  · intro position part hpart
    have hbound : position < xs.length + ys.length := by
      rw [← length_append]
      exact (List.getElem?_eq_some_iff.1 hpart).1
    have hinside : ∀ {index}, InRange index (a.lens.eraseIdx axis) → axis ≤ index.length ∧
        (index.insertIdx axis position)[axis]? = some position ∧
        InRange (index.insertIdx axis position) (a.lens.set axis (xs.length + ys.length)) := by
      intro index hrange
      have hplace : axis ≤ (a.lens.eraseIdx axis).length := by
        rw [length_eraseIdx_of_lt hrank]
        exact Nat.le_sub_one_of_lt hrank
      have hplace' : axis ≤ index.length := hrange.length_eq ▸ hplace
      refine ⟨hplace', by rw [getElem?_insertIdx_self, if_pos hplace'], ?_⟩
      rw [← insertIdx_eraseIdx_self (Nat.ne_of_lt hrank)]
      exact inRange_insertIdx hrange hplace hbound
    rw [getElem?_append] at hpart
    split_ifs at hpart with hfirst
    · obtain ⟨helem', hlens', hget⟩ := ha.slice position part hpart
      refine ⟨helem'.trans helems.symm, ?_, ?_⟩
      · rw [hlens', hlens, eraseIdx_set_eq]
      · intro index hrange
        obtain ⟨-, hfound, hwide⟩ := hinside (hlens' ▸ hrange)
        rw [get_tabulate hdense hjoined hwide, locate_first ha.len hfound hfirst]
        exact hget index hrange
    · obtain ⟨helem', hlens', hget⟩ := hb.slice _ part hpart
      refine ⟨helem'.trans (helem.trans helems.symm), ?_, ?_⟩
      · rw [hlens', hlens, eraseIdx_set_eq, hothers]
      · intro index hrange
        obtain ⟨hplace, hfound, hwide⟩ := hinside (hothers ▸ hlens' ▸ hrange)
        rw [get_tabulate hdense hjoined hwide, locate_later ha.len hfound (Nat.not_lt.1 hfirst),
          set_insertIdx_self hplace,
          locate_first hb.len (by rw [getElem?_insertIdx_self, if_pos hplace]) (by omega)]
        exact hget index hrange

end TensorGraph
