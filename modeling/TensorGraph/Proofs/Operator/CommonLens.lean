import TensorGraph.Proofs.Operator.Acceptance
import TensorGraph.Scalar.Binary32

/-!
# Common lengths

Joining lengths axis by axis has a universal property: what both spread to is what their join spreads to.
Everything about the common lengths of several shapes follows from it.
-/

namespace TensorGraph

open Inference List

namespace Inference.Spreads

variable {lens other out : List Nat}

theorem refl (lens : List Nat) : Spreads lens lens := forall₂_same.2 fun _ _ => .inl rfl

theorem antisymm (hspreads : Spreads lens other) (hback : Spreads other lens) : lens = other := by
  induction hspreads with
  | nil => rfl
  | cons hfirst _ ih =>
    obtain ⟨hfirst', hrest'⟩ := forall₂_cons.1 hback
    rw [ih hrest']
    congr 1
    omega

theorem replicate_one_iff {rank : Nat} : Spreads (replicate rank 1) out ↔ out.length = rank := by
  refine ⟨fun hspreads => by rw [← hspreads.length_eq, length_replicate], ?_⟩
  rintro rfl
  exact forall₂_iff_get.2 ⟨length_replicate, fun i _ _ => .inr (by simp)⟩

end Inference.Spreads

namespace Shape

variable {xs ys lens : List Nat}

/-- What two lengths spread to is what their join spreads to. -/
theorem exists_joinLen_iff {a b len : Nat} :
    (∃ joined, joinLen a b = some joined ∧ (joined = len ∨ joined = 1)) ↔
      (a = len ∨ a = 1) ∧ (b = len ∨ b = 1) := by
  unfold joinLen
  split_ifs with hone hsame
  · simp [hone]
  · simp only [Option.some.injEq, exists_eq_left']
    omega
  · simp only [false_and, exists_false, false_iff]
    omega

theorem length_joinLens {joined : List Nat} (hjoin : joinLens xs ys = some joined)
    (hlength : ys.length = xs.length) : joined.length = xs.length := by
  rw [← (mapM_eq_some_iff.1 hjoin).length_eq, length_zip, hlength, Nat.min_self]

theorem exists_joinLens_iff (hlength : ys.length = xs.length) :
    (∃ joined, joinLens xs ys = some joined ∧ Spreads joined lens) ↔
      Spreads xs lens ∧ Spreads ys lens := by
  unfold joinLens Spreads
  simp only [mapM_eq_some_iff]
  induction xs generalizing ys lens with
  | nil =>
    obtain rfl := eq_nil_of_length_eq_zero hlength
    simp
  | cons a xs ih =>
    obtain _ | ⟨b, ys⟩ := ys
    · cases hlength
    obtain _ | ⟨len, lens⟩ := lens
    · simp
    have hfirst := @exists_joinLen_iff a b len
    have hrest := @ih ys lens (Nat.succ.inj hlength)
    rw [zip_cons_cons, forall₂_cons, forall₂_cons, and_and_and_comm, ← hfirst, ← hrest]
    constructor
    · rintro ⟨_, hall, hspreads⟩
      obtain ⟨joined, rest, hjoin, hjoins, rfl⟩ := forall₂_cons_left_iff.1 hall
      obtain ⟨hlen, hlens⟩ := forall₂_cons.1 hspreads
      exact ⟨⟨joined, hjoin, hlen⟩, rest, hjoins, hlens⟩
    · rintro ⟨⟨joined, hjoin, hlen⟩, rest, hjoins, hlens⟩
      exact ⟨joined :: rest, .cons hjoin hjoins, .cons hlen hlens⟩

/-- What all rows spread to is what their join spreads to. -/
theorem exists_foldlM_joinLens_iff {rows : List (List Nat)}
    (hrows : ∀ row ∈ rows, row.length = xs.length) :
    (∃ joined, rows.foldlM joinLens xs = some joined ∧ Spreads joined lens) ↔
      Spreads xs lens ∧ ∀ row ∈ rows, Spreads row lens := by
  induction rows generalizing xs with
  | nil => simp
  | cons row rows ih =>
    rw [forall_mem_cons] at hrows
    rw [forall_mem_cons, ← and_assoc, ← exists_joinLens_iff hrows.1, foldlM_cons]
    constructor
    · rintro ⟨joined, hrun, hspreads⟩
      obtain ⟨middle, hmiddle, hrun⟩ := Option.bind_eq_some_iff.1 hrun
      have hlength := length_joinLens hmiddle hrows.1
      obtain ⟨hfirst, hrest⟩ := (ih (hlength ▸ hrows.2)).1 ⟨joined, hrun, hspreads⟩
      exact ⟨⟨middle, hmiddle, hfirst⟩, hrest⟩
    · rintro ⟨⟨middle, hmiddle, hfirst⟩, hrest⟩
      have hlength := length_joinLens hmiddle hrows.1
      obtain ⟨joined, hrun, hspreads⟩ := (ih (hlength ▸ hrows.2)).2 ⟨hfirst, hrest⟩
      exact ⟨joined, Option.bind_eq_some_iff.2 ⟨middle, hmiddle, hrun⟩, hspreads⟩

theorem spreads_padLens_iff : Spreads (padLens lens.length xs) lens ↔
    xs.length ≤ lens.length ∧ Spreads xs (lens.drop (lens.length - xs.length)) := by
  constructor
  · intro hspreads
    have hlength := hspreads.length_eq
    rw [padLens, length_append, length_replicate] at hlength
    have hinner := forall₂_drop (lens.length - xs.length) hspreads
    rw [padLens, drop_left' length_replicate] at hinner
    exact ⟨by omega, hinner⟩
  · rintro ⟨hrank, hinner⟩
    have houter := @Spreads.replicate_one_iff (lens.take (lens.length - xs.length))
      (lens.length - xs.length)
    rw [length_take, Nat.min_eq_left (Nat.sub_le ..), eq_self, iff_true] at houter
    have hall := rel_append houter hinner
    dsimp only at hall
    rwa [take_append_drop] at hall

end Shape

namespace Operator

variable {α : Type} {lens : List Nat} {shapes : List Shape} {elem : ElementType}

/-- Broadcasting to these lengths is accepted. -/
def Broadcasts (α : Type) (lens : List Nat) (s : Shape) : Prop :=
  ∃ out, (broadcast lens : Operator α).infer [s] [] = .ok out

/-- Broadcasting accepts a shape if its lengths spread, with ones in front. -/
theorem broadcasts_iff {axes : Layout} :
    Broadcasts α lens (.strided elem axes) ↔ Spreads (Shape.padLens lens.length axes.lens) lens := by
  rw [Shape.spreads_padLens_iff, Layout.length_lens]
  constructor
  · rintro ⟨out, hinfer⟩
    obtain ⟨_, layout, inner, heq, hrank, hinner, -⟩ := broadcastShape_iff.1 hinfer
    cases heq
    exact ⟨hrank, (exists_broadcastAxes?_iff (by rw [length_drop]; omega)).1 ⟨inner, hinner⟩⟩
  · rintro ⟨hrank, hspreads⟩
    obtain ⟨inner, hinner⟩ :=
      (exists_broadcastAxes?_iff (by rw [length_drop]; omega)).2 hspreads
    exact ⟨_, broadcastShape_iff.2 ⟨elem, axes, inner, rfl, hrank, hinner, rfl⟩⟩

/-- What all shapes spread to, at the greatest rank among them, is what their common lengths spread
to. -/
theorem exists_commonLens_iff {rank : Nat} (hrank : (shapes.map Shape.rank).max? = some rank) :
    (∃ common, Shape.commonLens shapes = some common ∧ Spreads common lens) ↔
      lens.length = rank ∧ ∀ s ∈ shapes, Spreads (Shape.padLens lens.length s.lens) lens := by
  have hrows : ∀ row ∈ shapes.map fun s => Shape.padLens rank s.lens,
      row.length = (replicate rank 1).length := by
    intro row hmem
    obtain ⟨s, hs, rfl⟩ := mem_map.1 hmem
    have hle := (max?_eq_some_iff.1 hrank).2 _ (mem_map_of_mem hs)
    have hlens : s.lens.length ≤ s.rank := by
      cases s <;> simp [Shape.lens, Shape.axes, Shape.rank, Layout.lens]
    rw [Shape.padLens, length_append, length_replicate, length_replicate]
    omega
  have hjoin := @Shape.exists_foldlM_joinLens_iff _ lens _ hrows
  rw [foldlM_map, Spreads.replicate_one_iff, forall_mem_map] at hjoin
  rw [Shape.commonLens, hrank]
  exact hjoin.trans (and_congr_right fun hlength => by rw [hlength])

/-- Common lengths are lengths that every shape with known lengths can be broadcast to. -/
theorem broadcasts_commonLens (hcommon : Shape.commonLens shapes = some lens)
    {axes : Layout} (hmem : .strided elem axes ∈ shapes) : Broadcasts α lens (.strided elem axes) := by
  obtain ⟨rank, hrank, -⟩ := Option.bind_eq_some_iff.1 hcommon
  exact broadcasts_iff.2 (((exists_commonLens_iff hrank).1 ⟨lens, hcommon, .refl lens⟩).2 _ hmem)

/-- Common lengths exist exactly if all shapes can be broadcast to some lengths of the greatest rank
among them. They are such lengths, all others can be reached from them, and the order of the shapes does
not matter. -/
theorem commonLens_least (α : Type) {rank : Nat} (hrank : (shapes.map Shape.rank).max? = some rank)
    (hstrided : ∀ s ∈ shapes, ∃ elem axes, s = .strided elem axes) :
    ((∃ common, Shape.commonLens shapes = some common) ↔
      ∃ lens, lens.length = rank ∧ ∀ s ∈ shapes, Broadcasts α lens s) ∧
    (∀ common, Shape.commonLens shapes = some common →
      common.length = rank ∧ (∀ s ∈ shapes, Broadcasts α common s) ∧
        ∀ lens, lens.length = rank → (∀ s ∈ shapes, Broadcasts α lens s) →
          ∀ elem axes, Layout.lens axes = common → Broadcasts α lens (.strided elem axes)) ∧
    ∀ others, others.Perm shapes → Shape.commonLens others = Shape.commonLens shapes := by
  have hiff (lens : List Nat) : (∃ common, Shape.commonLens shapes = some common ∧
      Spreads common lens) ↔ lens.length = rank ∧ ∀ s ∈ shapes, Broadcasts α lens s := by
    rw [exists_commonLens_iff hrank]
    refine and_congr_right fun _ => forall₂_congr fun s hmem => ?_
    obtain ⟨elem, axes, rfl⟩ := hstrided s hmem
    rw [broadcasts_iff, Shape.lens_strided]
  refine ⟨⟨?_, ?_⟩, fun common hcommon => ?_, fun others hperm => ?_⟩
  · rintro ⟨common, hcommon⟩
    exact ⟨common, (hiff common).1 ⟨common, hcommon, .refl common⟩⟩
  · rintro ⟨lens, haccepted⟩
    obtain ⟨common, hcommon, -⟩ := (hiff lens).2 haccepted
    exact ⟨common, hcommon⟩
  · obtain ⟨hlength, haccepted⟩ := (hiff common).1 ⟨common, hcommon, .refl common⟩
    refine ⟨hlength, haccepted, fun lens hlens hall elem axes haxes => ?_⟩
    obtain ⟨common', hcommon', hspreads⟩ := (hiff lens).2 ⟨hlens, hall⟩
    cases hcommon.symm.trans hcommon'
    rw [broadcasts_iff, haxes, hlens, ← hlength, Shape.padLens, Nat.sub_self]
    exact hspreads
  · have hrank' : (others.map Shape.rank).max? = some rank := by
      rw [max?_eq_some_iff] at hrank ⊢
      simpa only [(hperm.map Shape.rank).mem_iff] using hrank
    have hsame (lens : List Nat) : (∃ common, Shape.commonLens others = some common ∧
        Spreads common lens) ↔ ∃ common, Shape.commonLens shapes = some common ∧
          Spreads common lens := by
      simp only [exists_commonLens_iff hrank, exists_commonLens_iff hrank', hperm.mem_iff]
    cases hcommon : Shape.commonLens shapes with
    | none =>
      refine Option.eq_none_iff_forall_ne_some.2 fun other hother => ?_
      obtain ⟨_, hsome, -⟩ := (hsame other).1 ⟨other, hother, .refl other⟩
      cases hcommon.symm.trans hsome
    | some common =>
      obtain ⟨other, hother, hspreads⟩ := (hsame common).2 ⟨common, hcommon, .refl common⟩
      obtain ⟨_, hsome, hback⟩ := (hsame other).1 ⟨other, hother, .refl other⟩
      cases hcommon.symm.trans hsome
      rw [hother, hspreads.antisymm hback]

/-- Shapes of three ranks, with an empty axis above an axis of length one. -/
def mixedRanks : List Shape :=
  [.strided .float32 [⟨1, 3⟩, ⟨3, 1⟩], .strided .float32 [⟨2, 1⟩, ⟨0, 1⟩, ⟨1, 1⟩], .strided .int32 []]

theorem commonLens_mixedRanks :
    Shape.commonLens mixedRanks = some [2, 0, 3] ∧
      ∀ s ∈ mixedRanks, Broadcasts Float32 [2, 0, 3] s := by
  have hrank : (mixedRanks.map Shape.rank).max? = some 3 := by decide
  have hcommon : Shape.commonLens mixedRanks = some [2, 0, 3] := by decide
  have hleast := commonLens_least Float32 hrank (by simp [mixedRanks])
  exact ⟨hcommon, (hleast.2.1 _ hcommon).2.1⟩

end Operator

end TensorGraph
