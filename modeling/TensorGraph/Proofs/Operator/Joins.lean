import TensorGraph.Proofs.Operator.Pliancy
import TensorGraph.Scalar.Binary32

/-!
# Joins

Every index of the joined value lies in the segment of one part. So it does not matter whether some parts
are joined before the others.
-/

namespace TensorGraph

open Inference List

variable {α : Type} {place : Nat} {index lens : List Nat} {t : Tensor α}

/-! ## Segments -/

/-- An index that is moved along an axis. -/
def shift (place distance : Nat) (index : List Nat) : List Nat :=
  index.modify place (· + distance)

theorem shift_zero (place : Nat) (index : List Nat) : shift place 0 index = index :=
  modify_id place index

theorem getD_shift (hplace : place < index.length) (distance : Nat) :
    (shift place distance index).getD place 0 = index.getD place 0 + distance := by
  simp [shift, getD_eq_getElem?_getD, hplace]

theorem set_shift (hplace : place < index.length) (distance more : Nat) :
    (shift place (distance + more) index).set place (index.getD place 0 + more) =
      shift place more index := by
  refine ext_getElem? fun k => ?_
  by_cases hk : k = place
  · subst hk
    simp [shift, hplace]
  · simp [shift, getElem?_set_ne (Ne.symm hk), Ne.symm hk]

theorem shift_set (hplace : place < index.length) {len : Nat} (hle : len ≤ index.getD place 0) :
    shift place len (index.set place (index.getD place 0 - len)) = index := by
  refine ext_getElem? fun k => ?_
  by_cases hk : k = place
  · subst hk
    rw [getD_eq_getElem?_getD, getElem?_eq_getElem hplace, Option.getD_some] at hle
    simp [shift, hplace, Nat.sub_add_cancel hle]
  · simp [shift, getElem?_set_ne (Ne.symm hk), Ne.symm hk]

theorem shift_shift (place distance more : Nat) (index : List Nat) :
    shift place more (shift place distance index) = shift place (more + distance) index := by
  rw [shift, shift, modify_modify_eq, shift]
  congr 1
  funext i
  exact (Nat.add_assoc i distance more).trans (by rw [Nat.add_comm distance])

theorem getD_shift_of_ne {k : Nat} (hk : k ≠ place) (distance : Nat) :
    (shift place distance index).getD k 0 = index.getD k 0 := by
  simp [shift, getD_eq_getElem?_getD, Ne.symm hk]

theorem InRange.getD_lt (hrange : InRange index lens) (hplace : place < lens.length) :
    index.getD place 0 < lens.getD place 0 := by
  have hinside := (inRange_iff_getElem.1 hrange).2 place _ (getElem?_eq_getElem hplace)
  simpa [getD_eq_getElem?_getD, hplace] using hinside

/-- Lengths that agree outside an axis admit the same positions outside of it. -/
theorem AgreeOutside.inRange {other index' : List Nat} (hagree : AgreeOutside place other lens)
    (hrange : InRange index other) (hlength : index'.length = index.length)
    (hsame : ∀ k, k ≠ place → index'.getD k 0 = index.getD k 0)
    (hinside : index'.getD place 0 < lens.getD place 0) : InRange index' lens := by
  obtain ⟨hlength', hentries⟩ := inRange_iff_getElem.1 hrange
  refine inRange_iff_getElem.2 ⟨hlength.trans (hlength'.trans hagree.1), fun k len hlen => ?_⟩
  by_cases hk : k = place
  · subst hk
    simpa [getD_eq_getElem?_getD, hlen] using hinside
  · rw [hsame k hk]
    exact hentries k len (hagree.2 k hk ▸ hlen)

theorem AgreeOutside.symm {other : List Nat} (hagree : AgreeOutside place lens other) :
    AgreeOutside place other lens :=
  ⟨hagree.1.symm, fun k hk => (hagree.2 k hk).symm⟩

theorem volume_set_le {a b : Nat} (hle : a ≤ b) (lens : List Nat) (place : Nat) :
    volume (lens.set place a) ≤ volume (lens.set place b) := by
  induction lens generalizing place with
  | nil => exact Nat.le_refl _
  | cons len lens ih =>
    cases place with
    | zero => exact Nat.mul_le_mul_right _ hle
    | succ place => exact Nat.mul_le_mul_left _ (ih place)

namespace Tensor

/-- How far the parts reach along an axis, one after another. -/
def extent (place : Nat) (parts : List (Tensor α)) : Nat :=
  Word.total (parts.map (·.lens.getD place 0))

theorem extent_cons (place : Nat) (part : Tensor α) (parts : List (Tensor α)) :
    extent place (part :: parts) = part.lens.getD place 0 + extent place parts := rfl

theorem extent_append (place : Nat) (front back : List (Tensor α)) :
    extent place (front ++ back) = extent place front + extent place back := by
  induction front with
  | nil => exact (Nat.zero_add _).symm
  | cons part front ih => rw [cons_append, extent_cons, ih, extent_cons, Nat.add_assoc]

/-- Every index below the end of the parts lies in the segment of a part. -/
theorem exists_segment {parts : List (Tensor α)} (hplace : place < index.length)
    (hinside : index.getD place 0 < extent place parts) :
    ∃ before part after inner, parts = before ++ part :: after ∧
      inner.getD place 0 < part.lens.getD place 0 ∧
      shift place (extent place before) inner = index := by
  induction parts generalizing index with
  | nil => exact absurd hinside (Nat.not_lt_zero _)
  | cons part parts ih =>
    by_cases hbelow : index.getD place 0 < part.lens.getD place 0
    · exact ⟨[], part, parts, index, rfl, hbelow, shift_zero place index⟩
    · obtain ⟨before, part', after, inner, rfl, hinner, hshift⟩ :=
        @ih (index.set place (index.getD place 0 - part.lens.getD place 0)) (by simpa using hplace) (by
          rw [extent_cons] at hinside
          rw [getD_eq_getElem?_getD, getElem?_set_self hplace, Option.getD_some]
          omega)
      refine ⟨part :: before, part', after, inner, rfl, hinner, ?_⟩
      rw [extent_cons, ← shift_shift, hshift, shift_set hplace (Nat.le_of_not_lt hbelow)]

end Tensor

namespace Evaluation

/-- An index in the segment of a part is located in it. -/
theorem locate_shift {before after : List (Tensor α)} {part : Tensor α}
    (hplace : place < index.length)
    (hbelow : ∀ other ∈ before ++ part :: after, place < other.lens.length)
    (hinside : index.getD place 0 < part.lens.getD place 0) :
    locate place (before ++ part :: after) (shift place (Tensor.extent place before) index) =
      .ok (some (part, index)) := by
  induction before with
  | nil =>
    have hpart := hbelow part mem_cons_self
    rw [nil_append, Tensor.extent, map_nil, Word.total, shift_zero, locate, Layout.fetch_of_lt hpart,
      ok_bind, Layout.fetch_of_lt hplace, ok_bind, if_pos hinside]
    rfl
  | cons other before ih =>
    obtain ⟨hother, hrest⟩ := forall_mem_cons.1 hbelow
    have hlength : place < (shift place (Tensor.extent place (other :: before)) index).length := by
      rwa [shift, length_modify]
    have hback : index.getD place 0 + (other.lens.getD place 0 + Tensor.extent place before) -
        other.lens.getD place 0 = index.getD place 0 + Tensor.extent place before := by omega
    rw [cons_append, locate, Layout.fetch_of_lt hother, ok_bind, Layout.fetch_of_lt hlength, ok_bind,
      getD_shift hplace, Tensor.extent_cons, if_neg (by omega), hback, set_shift hplace]
    exact ih hrest

end Evaluation

/-! ## What a join holds -/

namespace Tensor

/-- The parts one after another along an axis: each fills its segment, and there is nothing else. -/
structure Joins (place : Nat) (parts : List (Tensor α)) (t : Tensor α) : Prop where
  place_lt : place < t.lens.length
  lens_eq : ∃ first rest, parts = first :: rest ∧
    t.lens = first.lens.set place (extent place parts)
  /-- Each part is found where the parts before it end. -/
  segment : ∀ {before part after}, parts = before ++ part :: after →
    ∀ {index}, InRange index part.lens →
      InRange (shift place (extent place before) index) t.lens ∧
        ∃ value, part.get index = .ok value ∧
          t.get (shift place (extent place before) index) = .ok value
  /-- Every entry is one of a part. -/
  cover : ∀ {index}, InRange index t.lens → ∃ before part after inner,
    parts = before ++ part :: after ∧ InRange inner part.lens ∧
      shift place (extent place before) inner = index ∧
      Evaluation.locate place parts index = .ok (some (part, inner))

/-- Joining some parts first makes no difference. -/
theorem Joins.nested {front back : List (Tensor α)} {u v : Tensor α}
    (hfront : t.Joins place front) (hnested : u.Joins place (t :: back))
    (hall : v.Joins place (front ++ back)) :
    u.lens = v.lens ∧ ∀ index, InRange index v.lens → u.get index = v.get index := by
  obtain ⟨first, rest, rfl, hlens⟩ := hfront.lens_eq
  obtain ⟨_, _, hcons, hlens'⟩ := hnested.lens_eq
  obtain ⟨rfl, rfl⟩ := List.cons.inj hcons
  obtain ⟨_, _, hcons, hlens''⟩ := hall.lens_eq
  obtain ⟨rfl, rfl⟩ := List.cons.inj hcons
  have hextent : t.lens.getD place 0 = extent place (first :: rest) := by
    have hplace := hfront.place_lt
    rw [hlens, length_set] at hplace
    rw [hlens, getD_eq_getElem?_getD, getElem?_set_self hplace, Option.getD_some]
  refine ⟨?_, fun index hrange => ?_⟩
  · rw [hlens', hlens, set_set, hlens'', extent_cons, hextent, ← extent_append]
  · obtain ⟨before, part, after, inner, heq, hinner, rfl, -⟩ := hall.cover hrange
    obtain ⟨-, value, hpart, hvalue⟩ := hall.segment heq hinner
    rw [hvalue]
    have hlate (before' : List (Tensor α)) (hbefore : before = first :: rest ++ before')
        (hback : back = before' ++ part :: after) :
        u.get (shift place (extent place before) inner) = .ok value := by
      have hsplit : t :: back = t :: before' ++ part :: after := by rw [hback, cons_append]
      obtain ⟨-, value', hpart', hget⟩ := hnested.segment hsplit hinner
      cases hpart.symm.trans hpart'
      rwa [extent_cons, hextent, ← extent_append, ← hbefore] at hget
    -- The part is one of those that are joined first, or one of the others.
    rcases append_eq_append_iff.1 heq with ⟨before', hbefore, hback⟩ | ⟨_ | ⟨_, after'⟩, hsplit, hback⟩
    · exact hlate before' hbefore hback
    · exact hlate [] (by simpa using hsplit.symm) hback.symm
    · obtain ⟨rfl, -⟩ := List.cons.inj hback
      obtain ⟨hrange', value', hpart', hget⟩ := hfront.segment hsplit hinner
      cases hpart.symm.trans hpart'
      obtain ⟨-, value', hget', hjoined⟩ := hnested.segment (nil_append (t :: back)).symm hrange'
      cases hget.symm.trans hget'
      rwa [extent, map_nil, Word.total, shift_zero] at hjoined

theorem Joins.length_eq {first : Tensor α} {rest : List (Tensor α)}
    (hjoins : t.Joins place (first :: rest)) : t.lens.length = first.lens.length := by
  obtain ⟨_, _, hcons, hlens⟩ := hjoins.lens_eq
  obtain ⟨rfl, -⟩ := List.cons.inj hcons
  rw [hlens, length_set]

/-- When tensors are joined, and where. -/
theorem joinLens_shapes_iff {op : String} {axis : Int} {parts : List (Tensor α)} :
    joinLens op (shapes parts) axis = .ok (place, lens) ↔
      ∃ first rest, parts = first :: rest ∧
        (∀ part ∈ parts, ∃ elem axes, part.shape = .strided elem axes) ∧
        resolveAxis op axis first.shape.rank = .ok place ∧
        (∀ part ∈ parts, AgreeOutside place part.lens first.lens) ∧
        extent place parts < Word.limit ∧
        lens = first.lens.set place (extent place parts) := by
  have htotal : Word.total ((parts.map shape).map (·.lens.getD place 0)) = extent place parts := by
    rw [map_map]
    rfl
  rw [joinLens_eq_ok_iff, shapes_eq_map, htotal]
  simp only [forall_mem_map]
  constructor
  · rintro ⟨_, _, hs, hfound⟩
    obtain ⟨first, rest, rfl, rfl, rfl⟩ := map_eq_cons_iff.1 hs
    exact ⟨first, rest, rfl, hfound⟩
  · rintro ⟨first, rest, rfl, hfound⟩
    exact ⟨first.shape, rest.map shape, rfl, hfound⟩

variable [Scalar α]

/-- Joining what inference accepts gives such a value. -/
theorem joins_of_holds {op : String} {axis : Int} {parts : List (Tensor α)}
    {out : Shape} (hvalid : ∀ part ∈ parts, part.Valid)
    (hjoin : joinLens op (shapes parts) axis = .ok (place, out.lens))
    (hholds : t.Holds out (Reading.join place (parts.map reading))) : t.Joins place parts := by
  obtain ⟨hplace, hparts, hextent⟩ := parts_of_joinLens hjoin
  have hlens : t.lens = out.lens := congrArg Shape.lens hholds.shape_eq
  have hagree : ∀ part ∈ parts, AgreeOutside place part.lens out.lens := by
    intro part hmem
    obtain ⟨elem, axes, hshape, hagree⟩ := hparts part hmem
    rwa [lens_of_shape hshape]
  have hbelow : ∀ part ∈ parts, place < part.lens.length :=
    fun part hmem => (hagree part hmem).1 ▸ hplace
  rw [← extent] at hextent
  refine ⟨hlens ▸ hplace, ?_, ?_, ?_⟩
  · obtain ⟨first, rest, hfirst, -, -, -, -, hset⟩ := joinLens_shapes_iff.1 hjoin
    exact ⟨first, rest, hfirst, hlens.trans hset⟩
  · intro before part after heq index hrange
    have hmem : part ∈ parts := heq ▸ mem_append_right before mem_cons_self
    have hlength : place < index.length := hrange.length_eq ▸ hbelow part hmem
    have hinside := hrange.getD_lt (hbelow part hmem)
    have hshift : InRange (shift place (extent place before) index) out.lens := by
      refine (hagree part hmem).inRange hrange (length_modify ..)
        (fun k hk => getD_shift_of_ne hk _) ?_
      rw [getD_shift hlength, hextent, heq, extent_append, extent_cons]
      omega
    refine ⟨hlens ▸ hshift, _, ?_, hholds.get_eq hshift⟩
    obtain ⟨hlength', hentries⟩ := inRange_iff_getElem.1 hshift
    rw [← Evaluation.get_located hplace (fun part hmem => ⟨hvalid part hmem, hparts part hmem⟩)
      hlength' fun k len _ hlen => hentries k len hlen, heq,
      Evaluation.locate_shift hlength (heq ▸ hbelow) hinside]
    rfl
  · intro index hrange
    rw [hlens] at hrange
    have hinside := hrange.getD_lt hplace
    rw [hextent] at hinside
    obtain ⟨before, part, after, inner, heq, hinner, rfl⟩ :=
      exists_segment (hrange.length_eq ▸ hplace) hinside
    have hmem : part ∈ parts := heq ▸ mem_append_right before mem_cons_self
    have hlength : inner.length = (shift place (extent place before) inner).length :=
      (length_modify ..).symm
    refine ⟨before, part, after, inner, heq, ?_, rfl, ?_⟩
    · exact (hagree part hmem).symm.inRange hrange hlength
        (fun k hk => (getD_shift_of_ne hk _).symm) hinner
    · rw [heq]
      exact Evaluation.locate_shift (hlength ▸ hrange.length_eq ▸ hplace) (heq ▸ hbelow) hinner

end Tensor

namespace Operator

open Tensor

variable [Scalar α] {axis : Int} {front back parts : List (Tensor α)} {elem : ElementType}
  {out : Shape}

/-- Join some parts, then the result with the others. -/
def concatInSteps (axis : Int) (front back : List (Tensor α)) : Outcome EvalError (Tensor α) := do
  let nested ← (concat axis).apply front []
  (concat axis).apply (nested :: back) []

theorem joins_of_apply (hvalid : ∀ part ∈ parts, part.Valid)
    (hrun : (concat axis).apply parts [] = .ok t) :
    t.Valid ∧ ∃ place, t.Joins place parts ∧
      resolveAxis (concat axis : Operator α).name axis t.lens.length = .ok place := by
  obtain ⟨out, hinfer, hrun⟩ := apply_eq_ok_iff.1 hrun
  obtain ⟨place, lens, hjoin, hdense, hresolve, hcomputes⟩ := concat_computes hinfer hvalid
  have hholds := hcomputes.holds hrun
  obtain rfl := hholds.shape_eq
  exact ⟨hholds.valid, place, joins_of_holds hvalid (hdense.lens_eq ▸ hjoin) hholds, hresolve⟩

/-- Parts of one type that are not all empty are joined if there is room. -/
theorem exists_apply_concat (hvalid : ∀ part ∈ parts, part.Valid)
    (helem : ∀ part ∈ parts, part.shape.elem = elem)
    (hjoin : joinLens (concat axis : Operator α).name (shapes parts) axis = .ok (place, lens))
    (hfilled : ∃ part ∈ parts, 0 ∉ part.lens) (hroom : volume lens ≤ largestBuffer) :
    0 ∉ lens ∧ ∃ t axes, (concat axis).apply parts [] = .ok t ∧ t.Valid ∧
      t.shape = .strided elem axes ∧ axes.lens = lens := by
  have hpos : 0 ∉ lens := by
    obtain ⟨part, hmem, hpart⟩ := hfilled
    exact notMem_joinLens hjoin hmem hpart
  have hfits : volume lens < Word.limit := Nat.lt_of_le_of_lt hroom (by decide)
  have helems : ∀ s ∈ shapes parts, s.elem = elem := by
    rw [shapes_eq_map, forall_mem_map]
    exact helem
  have hsame : allEqual ((shapes parts).map Shape.elem) = true :=
    allEqual_map_iff.2 fun s hs t ht => (helems s hs).trans (helems t ht).symm
  obtain ⟨out, hinfer⟩ := exists_concatShape hpos hfits hjoin hsame
  obtain ⟨first, _, _, _, hs, -, hjoin', hdense⟩ := concatShape_eq_ok hinfer
  cases hjoin.symm.trans hjoin'
  rw [helems first (hs ▸ mem_cons_self)] at hdense
  obtain ⟨_, _, hjoin', -, -, hcomputes⟩ := @concat_computes α _ parts [] out [] axis hinfer hvalid
  cases hjoin.symm.trans hjoin'
  obtain ⟨t, hrun⟩ := hcomputes.exists_iff.2 hroom
  have hholds := hcomputes.holds hrun
  obtain ⟨axes, rfl, hlens, -⟩ := hdense
  exact ⟨hpos, t, axes, apply_eq_ok_iff.2 ⟨_, hinfer, hrun⟩, hholds.valid, hholds.shape_eq, hlens⟩

/-- What can be joined at once can also be joined in two steps, if the first one is not empty. -/
theorem exists_concatInSteps (hvalid : ∀ part ∈ front ++ back, part.Valid)
    (hinfer : (concat axis : Operator α).infer (shapes (front ++ back)) [] = .ok out)
    (hroom : volume out.lens ≤ largestBuffer) (hfilled : ∃ part ∈ front, 0 ∉ part.lens) :
    ∃ joined, concatInSteps axis front back = .ok joined := by
  obtain ⟨part, hmem, hpart⟩ := hfilled
  obtain ⟨first, front, rfl⟩ := exists_cons_of_ne_nil (ne_nil_of_mem hmem)
  obtain ⟨_, _, place, lens, hs, helems, hjoin, hdense⟩ := concatShape_eq_ok hinfer
  obtain ⟨rfl, rfl⟩ := List.cons.inj hs
  have helem : ∀ part ∈ first :: front ++ back, part.shape.elem = first.shape.elem := by
    rw [shapes_eq_map, forall_mem_map] at helems
    exact forall_mem_cons.2 ⟨rfl, helems⟩
  rw [hdense.lens_eq] at hroom
  obtain ⟨_, _, hfirst, hstrided, hplace, hagree, hfits, rfl⟩ := joinLens_shapes_iff.1 hjoin
  obtain ⟨rfl, rfl⟩ := List.cons.inj hfirst
  have hrank : first.shape.rank = first.lens.length := by
    obtain ⟨_, _, hshape⟩ := hstrided first mem_cons_self
    rw [lens_of_shape hshape, Layout.length_lens, hshape, Shape.rank_strided]
  have hle : extent place (first :: front) ≤ extent place (first :: front ++ back) := by
    rw [extent_append]
    exact Nat.le_add_right _ _
  have hfront : joinLens (concat axis : Operator α).name (shapes (first :: front)) axis =
      .ok (place, first.lens.set place (extent place (first :: front))) :=
    joinLens_shapes_iff.2 ⟨first, front, rfl, fun part hmem => hstrided part (mem_append_left _ hmem),
      hplace, fun part hmem => hagree part (mem_append_left _ hmem), Nat.lt_of_le_of_lt hle hfits, rfl⟩
  obtain ⟨hpos, t, axes, hnested, htvalid, hshape, haxes⟩ := exists_apply_concat
    (fun part hmem => hvalid part (mem_append_left _ hmem))
    (fun part hmem => helem part (mem_append_left _ hmem)) hfront ⟨part, hmem, hpart⟩
    (Nat.le_trans (volume_set_le hle _ _) hroom)
  have hlens : t.lens = first.lens.set place (extent place (first :: front)) :=
    (lens_of_shape hshape).trans haxes
  have hback : joinLens (concat axis : Operator α).name (shapes (t :: back)) axis =
      .ok (place, first.lens.set place (extent place (first :: front ++ back))) := by
    have hextent : extent place (t :: back) = extent place (first :: front ++ back) := by
      have hbelow : place < first.lens.length := hrank ▸ resolveAxis_lt hplace
      rw [extent_cons, hlens, getD_eq_getElem?_getD, getElem?_set_self hbelow, Option.getD_some,
        ← extent_append]
    refine joinLens_shapes_iff.2 ⟨t, back, rfl, ?_, ?_, ?_, hextent ▸ hfits, ?_⟩
    · exact forall_mem_cons.2 ⟨⟨_, axes, hshape⟩,
        fun part hmem => hstrided part (mem_append_right _ hmem)⟩
    · rwa [hshape, Shape.rank_strided, ← Layout.length_lens, haxes, length_set, ← hrank]
    · rw [hlens]
      exact forall_mem_cons.2 ⟨hlens ▸ ⟨rfl, fun _ _ => rfl⟩,
        fun part hmem => (hagree part (mem_append_right _ hmem)).set⟩
    · rw [hlens, set_set, hextent]
  obtain ⟨-, joined, -, hjoined, -⟩ := exists_apply_concat
    (forall_mem_cons.2 ⟨htvalid, fun part hmem => hvalid part (mem_append_right _ hmem)⟩)
    (forall_mem_cons.2 ⟨by rw [hshape, Shape.elem_strided], fun part hmem => helem part (mem_append_right _ hmem)⟩) hback
    ⟨t, mem_cons_self, hlens ▸ hpos⟩ hroom
  exact ⟨joined, bind_eq_ok_iff.2 ⟨t, hnested, hjoined⟩⟩

theorem concatInSteps_eq {joined : Tensor α} (hvalid : ∀ part ∈ front ++ back, part.Valid)
    (hrun : (concat axis).apply (front ++ back) [] = .ok t)
    (hsteps : concatInSteps axis front back = .ok joined) :
    joined.lens = t.lens ∧ ∀ index, InRange index t.lens → joined.get index = t.get index := by
  obtain ⟨nested, hnested, hjoined⟩ := bind_eq_ok_iff.1 hsteps
  obtain ⟨hvalid', place', hfront, hplace'⟩ :=
    joins_of_apply (fun part hmem => hvalid part (mem_append_left _ hmem)) hnested
  obtain ⟨-, place'', hback, hplace''⟩ := joins_of_apply
    (forall_mem_cons.2 ⟨hvalid', fun part hmem => hvalid part (mem_append_right _ hmem)⟩) hjoined
  obtain ⟨-, place, hall, hplace⟩ := joins_of_apply hvalid hrun
  -- All three values have the rank of the first part, so the axis is the same.
  obtain ⟨first, rest, rfl, -⟩ := hfront.lens_eq
  rw [hfront.length_eq, ← hall.length_eq, hplace, Except.ok.injEq] at hplace'
  rw [hback.length_eq, hfront.length_eq, ← hall.length_eq, hplace, Except.ok.injEq] at hplace''
  subst hplace' hplace''
  exact hfront.nested hback hall

/-- A join whose shape is inferred is computed exactly when there is room for it. It holds the parts
one after another along the axis, and joining some of them first gives the same entries. -/
theorem concat_lossless (hvalid : ∀ part ∈ parts, part.Valid)
    (hinfer : (concat axis : Operator α).infer (shapes parts) [] = .ok out) :
    ((∃ t, (concat axis).evaluate out parts [] = .ok t) ↔ volume out.lens ≤ largestBuffer) ∧
      ∀ t, (concat axis).evaluate out parts [] = .ok t → t.shape = out ∧
        (∃ place, resolveAxis (concat axis : Operator α).name axis out.lens.length = .ok place ∧
          t.Joins place parts) ∧
        ∀ front back, parts = front ++ back →
          ((∃ part ∈ front, 0 ∉ part.lens) → ∃ joined, concatInSteps axis front back = .ok joined) ∧
          ∀ joined, concatInSteps axis front back = .ok joined → joined.lens = t.lens ∧
            ∀ index, InRange index t.lens → joined.get index = t.get index := by
  obtain ⟨place, lens, -, hdense, -, hcomputes⟩ := concat_computes hinfer hvalid
  rw [hdense.lens_eq]
  refine ⟨hcomputes.exists_iff, fun t hrun => ?_⟩
  have happly : (concat axis).apply parts [] = .ok t := apply_eq_ok_iff.2 ⟨out, hinfer, hrun⟩
  obtain ⟨-, place', hjoins, hresolve⟩ := joins_of_apply hvalid happly
  obtain rfl := (hcomputes.holds hrun).shape_eq
  refine ⟨rfl, ⟨place', hdense.lens_eq ▸ hresolve, hjoins⟩, ?_⟩
  rintro front back rfl
  refine ⟨exists_concatInSteps hvalid hinfer ?_, fun joined => concatInSteps_eq hvalid happly⟩
  exact hdense.lens_eq.symm ▸ hcomputes.exists_iff.1 ⟨t, hrun⟩

/-- A matrix stored by columns, one without columns and one that stores its only row once. -/
def unevenParts : List (Tensor Float32) :=
  [.strided .float32 [⟨2, 1⟩, ⟨2, 2⟩] #[1, 2, 3, 4], .strided .float32 [⟨2, 1⟩, ⟨0, 2⟩] #[],
    .strided .float32 [⟨2, 0⟩, ⟨1, 1⟩] #[9]]

theorem concat_lossless_unevenParts :
    ∃ t joined, (concat (-1)).evaluate (.strided .float32 [⟨2, 1⟩, ⟨3, 2⟩]) unevenParts [] = .ok t ∧
      concatInSteps (-1) (unevenParts.take 2) (unevenParts.drop 2) = .ok joined ∧
      ∃ value, t.get [1, 2] = .ok value ∧ joined.get [1, 2] = .ok value ∧
        (Tensor.strided .float32 [⟨2, 0⟩, ⟨1, 1⟩] #[(9 : Float32)]).get [1, 0] = .ok value := by
  have hvalid : ∀ part ∈ unevenParts, part.Valid := by
    simp only [unevenParts, forall_mem_cons]
    exact ⟨.strided rfl (by decide), .strided rfl (by decide), .strided rfl (by decide), by simp⟩
  have hinfer : (concat (-1) : Operator Float32).infer (shapes unevenParts) [] =
      .ok (.strided .float32 [⟨2, 1⟩, ⟨3, 2⟩]) := by rfl
  obtain ⟨hexists, hall⟩ := concat_lossless hvalid hinfer
  obtain ⟨t, hrun⟩ := hexists.2 (by decide)
  obtain ⟨hshape, ⟨place, hplace, hjoins⟩, hsteps⟩ := hall t hrun
  obtain rfl : 1 = place := Except.ok.inj hplace
  obtain ⟨hexists, hsame⟩ := hsteps _ _ (take_append_drop 2 unevenParts).symm
  obtain ⟨joined, hjoined⟩ := hexists ⟨_, mem_cons_self, by decide⟩
  obtain ⟨hrange, value, hpart, hvalue⟩ := hjoins.segment
    (take_append_drop 2 unevenParts).symm (by decide : InRange [1, 0] _)
  refine ⟨t, joined, hrun, hjoined, value, hvalue, ?_, hpart⟩
  exact ((hsame joined hjoined).2 _ hrange).trans hvalue

/-- One value that is repeated more often than a buffer can hold it. -/
theorem not_concat_evaluates :
    ¬ ∀ (axis : Int) (parts : List (Tensor Float32)) (out : Shape), (∀ part ∈ parts, part.Valid) →
      (concat axis : Operator Float32).infer (shapes parts) [] = .ok out →
      ∃ t, (concat axis).evaluate out parts [] = .ok t := by
  intro hclaim
  have hvalid : ∀ part ∈ [(.strided .float32 [⟨4611686018427387904, 0⟩] #[1] : Tensor Float32)],
      part.Valid := by simpa using .strided rfl (by decide)
  have hinfer : (concat 0 : Operator Float32).infer [.strided .float32 [⟨4611686018427387904, 0⟩]] [] =
      .ok (.strided .float32 [⟨4611686018427387904, 1⟩]) := by rfl
  obtain ⟨_, _, -, hdense, -, hcomputes⟩ := concat_computes hinfer hvalid
  have hroom := hcomputes.exists_iff.1 (hclaim 0 _ _ hvalid hinfer)
  rw [← hdense.lens_eq] at hroom
  exact absurd hroom (by decide)

end Operator

end TensorGraph
