import TensorGraph.Proofs.Graph.Growth
import TensorGraph.Proofs.Graph.History
import TensorGraph.Proofs.Graph.Rollback
import TensorGraph.Proofs.Operator.CommonLens

/-!
# Operators over common lengths

Operands are broadcast one after the other before an operator is added over them. When the operator is
refused in the end, the broadcasts stay.
-/

namespace TensorGraph

open List

variable {α : Type} {lens : List Nat} {g h : Graph α}

namespace Graph

/-- Appending broadcasts of these nodes, one after the other, makes one graph of another one. -/
inductive Widens (lens : List Nat) : Graph α → List NodeId → Graph α → Prop
  | done (g : Graph α) : Widens lens g [] g
  | add {g h : Graph α} {input : NodeId} {inputs : List NodeId} {added : Graph α × NodeId}
      (hadd : g.add (.broadcast lens) [input] [] = .ok added) (hrest : Widens lens added.1 inputs h) :
      Widens lens g (input :: inputs) h

/-- Broadcasts are put between the nodes that are there. -/
theorem Widens.nodes_sublist {inputs : List NodeId} (hwidens : Widens lens g inputs h) :
    g.nodes.Sublist h.nodes ∧ h.size = g.size + inputs.length := by
  induction hwidens with
  | done g => exact ⟨.refl _, rfl⟩
  | @add g h input inputs added hadd _ ih =>
    obtain ⟨out, -, hinsert⟩ := bind_eq_ok_iff.1 hadd
    cases hinsert
    obtain ⟨hsublist, hsize⟩ := ih
    rw [nodes_insertAt] at hsublist
    refine ⟨(sublist_insertIdx ..).trans hsublist, ?_⟩
    rw [hsize, size, nodes_insertAt, length_insertIdx_of_le_length g.appendPosition_le, length_cons,
      Nat.add_comm inputs.length, ← Nat.add_assoc]
    rfl

end Graph

namespace Edit

open Graph

/-- The operands that are broadcast before an operator is added: those of other than the common
lengths, up to the first one that cannot be broadcast. -/
def broadened (inputs : List NodeId) (shapes : List Shape) : List NodeId :=
  match Shape.commonLens shapes with
  | none => []
  | some lens =>
    (((inputs.zip shapes).filter fun operand => operand.2.lens ≠ lens).takeWhile
      fun operand => !operand.2.isDynamic && !operand.2.isTuple).map (·.1)

/-- An operator that is not added leaves the graph alone. -/
theorem add_eq (op : Operator α) (inputs : List NodeId) (modules : List (Graph α)) (g : Graph α) :
    add op inputs modules g = match g.add op inputs modules with
      | .ok added => .ok added.2 added.1
      | .error cause => .error cause g := by
  change EStateM.bind (liftM (g.add op inputs modules) : Edit α _) _ g = _
  cases g.add op inputs modules <;> rfl

/-- Going through a list ends where its first step stops, or else where going through the rest ends. -/
theorem finalState_mapM_cons {ε σ β γ : Type} (step : β → EStateM ε σ γ) (item : β) (items : List β)
    (s : σ) : finalState ((item :: items).mapM step s) = match step item s with
      | .ok _ t => finalState (items.mapM step t)
      | .error _ t => t := by
  rw [mapM_cons]
  change finalState (EStateM.bind (step item) (fun value => EStateM.bind (items.mapM step) _) s) = _
  unfold EStateM.bind
  cases step item s with
  | ok value t =>
    dsimp only
    cases items.mapM step t <;> rfl
  | error cause t => rfl

/-- A node can be broadcast if its shape can. -/
theorem exists_add_broadcast_iff {input : NodeId} {s : Shape} (hshape : g.shape input = .ok s) :
    (∃ added, g.add (.broadcast lens) [input] [] = .ok added) ↔ Operator.Broadcasts α lens s := by
  have hshapes : g.shapes [input] = .ok [s] := shapes_eq_ok_iff.2 (.cons hshape .nil)
  constructor
  · rintro ⟨added, hadd⟩
    obtain ⟨out, hout, -⟩ := bind_eq_ok_iff.1 hadd
    obtain ⟨shapes, hshapes', hinfer⟩ := inferOver_eq_ok_iff.1 hout
    cases hshapes.symm.trans hshapes'
    exact ⟨out, hinfer⟩
  · rintro ⟨out, hinfer⟩
    exact ⟨_, bind_eq_ok_iff.2 ⟨out, inferOver_eq_ok_iff.2 ⟨[s], hshapes, hinfer⟩, rfl⟩⟩

/-- Going through the operands appends their broadcasts, as far as it comes. -/
theorem mapM_widens (hindexed : g.Indexed) {operands : List (NodeId × Shape)}
    (hshapes : ∀ operand ∈ operands, g.shape operand.1 = .ok operand.2)
    (haccepted : ∀ operand ∈ operands, ∀ elem axes, operand.2 = .strided elem axes →
      Operator.Broadcasts α lens (.strided elem axes)) :
    Widens lens g (((operands.filter fun operand => operand.2.lens ≠ lens).takeWhile
      fun operand => !operand.2.isDynamic && !operand.2.isTuple).map (·.1))
      (finalState (operands.mapM (fun operand => if operand.2.lens = lens then pure operand.1
        else add (.broadcast lens) [operand.1] [] : NodeId × Shape → Edit α NodeId) g)) := by
  induction operands generalizing g with
  | nil => exact .done g
  | cons operand operands ih =>
    rw [forall_mem_cons] at hshapes haccepted
    rw [finalState_mapM_cons]
    by_cases hlens : operand.2.lens = lens
    · rw [if_pos hlens, filter_cons_of_neg (by simp [hlens])]
      exact ih hindexed hshapes.2 haccepted.2
    have hadd := @exists_add_broadcast_iff _ lens _ _ _ hshapes.1
    rw [if_neg hlens, filter_cons_of_pos (by simp [hlens]), takeWhile_cons, add_eq]
    cases hrun : g.add (.broadcast lens) [operand.1] [] with
    | ok added =>
      obtain ⟨out, hinfer⟩ := hadd.1 ⟨added, hrun⟩
      obtain ⟨elem, axes, -, hstrided, -⟩ := Inference.broadcastShape_iff.1 hinfer
      rw [if_pos (by rw [(List.cons.inj hstrided).1]; rfl)]
      obtain ⟨_, -, hinsert⟩ := bind_eq_ok_iff.1 hrun
      cases hinsert
      refine .add hrun (ih (hindexed.insertAt g.appendPosition_le) (fun other hmem => ?_) haccepted.2)
      exact (extends_insertAt hindexed g.appendPosition_le).shape (hshapes.2 other hmem)
    | error cause =>
      have hother : ¬ ∃ elem axes, operand.2 = .strided elem axes := by
        rintro ⟨elem, axes, hstrided⟩
        obtain ⟨added, hok⟩ := hadd.2 (hstrided ▸ haccepted.1 elem axes hstrided)
        cases hrun.symm.trans hok
      rw [if_neg]
      · exact .done g
      · cases hs : operand.2 with
        | strided elem axes => exact absurd ⟨elem, axes, hs⟩ hother
        | ranged => simp [Shape.isDynamic]
        | tuple => simp [Shape.isTuple]

/-- A refused operator leaves broadcasts of operands in the graph, and the graph is as before exactly if
there was nothing to broadcast. -/
theorem addCommon_refused_leaves (hindexed : g.Indexed) {op : Operator α} {inputs : List NodeId}
    {cause : GraphError} (hrun : addCommon op inputs g = .error (.refusal cause) h) :
    ∃ shapes, g.shapes inputs = .ok shapes ∧
      Widens ((Shape.commonLens shapes).getD []) g (broadened inputs shapes) h ∧
      g.nodes.Sublist h.nodes ∧ h.size = g.size + (broadened inputs shapes).length ∧
      (h = g ↔ broadened inputs shapes = []) := by
  obtain ⟨shapes, hshapes, hwidens⟩ : ∃ shapes, g.shapes inputs = .ok shapes ∧
      Widens ((Shape.commonLens shapes).getD []) g (broadened inputs shapes) h := by
    obtain hget | ⟨_, _, hget, hafter⟩ := stateBind_eq_error_iff.1 hrun
    · cases hget
    cases hget
    obtain hlift | ⟨shapes, _, hlift, hjoined⟩ := stateBind_eq_error_iff.1 hafter
    · cases hshapes : g.shapes inputs <;> rw [hshapes] at hlift <;> cases hlift
    obtain ⟨hshapes, rfl⟩ := Change.liftChecked_eq_ok_iff.1 hlift
    refine ⟨shapes, hshapes, ?_⟩
    unfold broadened
    cases hcommon : Shape.commonLens shapes with
    | none =>
      rw [hcommon] at hjoined
      cases hjoined
      exact .done _
    | some lens =>
      rw [hcommon] at hjoined
      have hall := shapes_eq_ok_iff.1 hshapes
      have hwidens := mapM_widens hindexed (fun _ hmem => (forall₂_iff_zip.1 hall).2 hmem)
        fun operand hmem elem axes hstrided =>
          Operator.broadcasts_commonLens hcommon (hstrided ▸ (of_mem_zip hmem).2)
      obtain hstep | ⟨args, middle, hargs, hlast⟩ := stateBind_eq_error_iff.1 hjoined
      · exact (congrArg (Widens lens _ _ <| finalState ·) hstep).mp hwidens
      · rw [add_eq] at hlast
        split at hlast <;> cases hlast
        exact (congrArg (Widens lens _ _ <| finalState ·) hargs).mp hwidens
  obtain ⟨hsublist, hsize⟩ := hwidens.nodes_sublist
  refine ⟨shapes, hshapes, hwidens, hsublist, hsize, ?_, fun hnil => ?_⟩
  · rintro rfl
    exact eq_nil_of_length_eq_zero (by omega)
  · rw [hnil] at hwidens
    cases hwidens
    rfl

/-- A row and a column of different element types. -/
def rowAndColumn : Graph Float32 :=
  ⟨"", [(1, ⟨.parameter "b" (.strided .float64 [⟨1, 3⟩, ⟨3, 1⟩]),
      .strided .float64 [⟨1, 3⟩, ⟨3, 1⟩], [], []⟩),
    (0, ⟨.parameter "a" (.strided .float32 [⟨2, 1⟩, ⟨1, 1⟩]),
      .strided .float32 [⟨2, 1⟩, ⟨1, 1⟩], [], []⟩)], [], 2⟩

/-- Both operands of a refused sum stay broadcast. -/
theorem rowAndColumn_stay_broadcast :
    ∃ cause h, addCommon (.binary .add) [0, 1] rowAndColumn = .error (.refusal cause) h ∧
      h.size = rowAndColumn.size + [0, 1].length := by
  refine ⟨_, _, rfl, ?_⟩
  obtain ⟨shapes, hshapes, -, -, hsize, -⟩ :=
    addCommon_refused_leaves (by decide) (rfl :
      addCommon (.binary .add) [0, 1] rowAndColumn = _)
  cases hshapes
  exact hsize

theorem not_addCommon_all_or_nothing :
    ¬ ∀ (g h : Graph Float32) (op : Operator Float32) (inputs : List NodeId) (cause : GraphError),
      g.Coherent → addCommon op inputs g = .error (.refusal cause) h → h = g := by
  intro hclaim
  have hsame := hclaim rowAndColumn _ (.binary .add) [0, 1] _ (by decide) rfl
  exact absurd (congrArg Graph.size hsame) (by decide)

end Edit

end TensorGraph
