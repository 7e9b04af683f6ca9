import TensorGraph.Einsum.Lowering
import TensorGraph.Proofs.Loop.Emission

/-!
# How lowerings are put together

`Assembles` follows the nodes that an emission may read from one instruction to the next.
-/

namespace TensorGraph

open List

variable {α β γ : Type} {used : List NodeId}

/-- An emission is put together from insertions. It may read some nodes and those that it has added, and
hands on what is seen of its result. -/
inductive Assembles : {β : Type} → List NodeId → Emit α β → (β → List NodeId) → Prop
  | pure {β : Type} {used : List NodeId} {view : β → List NodeId} {value : β}
      (hview : ∀ node ∈ view value, node ∈ used) : Assembles used (Pure.pure value) view
  /-- What the first part gives, the second may read. -/
  | bind {β γ : Type} {used : List NodeId} {view : β → List NodeId} {first : Emit α γ}
      {next : γ → Emit α β} {seen : γ → List NodeId} (hfirst : Assembles used first seen)
      (hnext : ∀ value, Assembles (seen value ++ used) (next value) view) :
      Assembles used (first >>= next) view
  | weaken {β : Type} {used wider : List NodeId} {view other : β → List NodeId}
      {emission : Emit α β} (hassembles : Assembles used emission view)
      (hused : ∀ node ∈ used, node ∈ wider)
      (hview : ∀ value, ∀ node ∈ other value, node ∈ view value) : Assembles wider emission other
  | graph {used : List NodeId} : Assembles used Emit.graph fun _ => []
  | checked {β : Type} {used : List NodeId} (computed : Checked β) :
      Assembles used (liftM computed) fun _ => []
  | refuse {β : Type} {used : List NodeId} (cause : GraphError) (view : β → List NodeId) :
      Assembles used (Emit.refuse cause) view
  | add {used : List NodeId} {op : Operator α} {inputs : List NodeId} (modules : List (Graph α))
      (hop : op.isReturns = false) (hinputs : ∀ input ∈ inputs, input ∈ used) :
      Assembles used (Emit.add op inputs modules) fun node => [node]
  | literal {used : List NodeId} (value : Tensor α) :
      Assembles used (Emit.literal value) fun node => [node]

namespace Assembles

/-- Nodes that are given one by one. -/
theorem mapM {f : γ → Emit α NodeId} {items : List γ}
    (hf : ∀ item ∈ items, Assembles used (f item) fun node => [node]) :
    Assembles used (items.mapM f) id := by
  induction items with
  | nil => exact .pure (by simp)
  | cons item items ih =>
    rw [forall_mem_cons] at hf
    rw [mapM_cons]
    refine .bind hf.1 fun node => ?_
    have hrest : Assembles ([node] ++ used) (items.mapM f) id :=
      (ih hf.2).weaken (fun _ hused => mem_append_right _ hused) fun _ _ hview => hview
    refine .bind hrest fun nodes => .pure fun other hother => ?_
    rcases mem_cons.1 hother with rfl | hother
    · simp
    · exact mem_append_left _ hother

theorem foldlM {f : β → γ → Emit α β} (view : β → List NodeId) {items : List γ}
    (hf : ∀ acc, ∀ item ∈ items, Assembles (view acc ++ used) (f acc item) view) (acc : β) :
    Assembles (view acc ++ used) (items.foldlM f acc) view := by
  induction items generalizing acc with
  | nil => exact .pure fun _ hview => mem_append_left _ hview
  | cons item items ih =>
    rw [foldlM_cons]
    refine .bind (hf acc item mem_cons_self) fun next => ?_
    have hrest := ih (fun acc item hitem => hf acc item (mem_cons_of_mem _ hitem)) next
    refine hrest.weaken (fun node hnode => ?_) fun _ _ hview => hview
    rcases mem_append.1 hnode with hnode | hnode
    · exact mem_append_left _ hnode
    · exact mem_append_right _ (mem_append_right _ hnode)

end Assembles

namespace Einsum

variable {node : NodeId} (hnode : node ∈ used)

theorem assembles_lensOf (node : NodeId) : Assembles used (lensOf node : Emit α (List Nat)) fun _ => [] :=
  .bind .graph fun _ => .bind (.checked _) fun _ => .pure (by simp)

include hnode

theorem assembles_transpose (order : List Nat) :
    Assembles used (emitTranspose node order : Emit α NodeId) fun node => [node] := by
  unfold emitTranspose
  split_ifs
  · exact .pure (by simpa using hnode)
  · exact .add _ rfl (by simpa using hnode)

theorem assembles_contiguous : Assembles used (emitContiguous node : Emit α NodeId) fun node => [node] := by
  refine .bind .graph fun _ => .bind (.checked _) fun _ => .bind (.checked _) fun standard => ?_
  split_ifs
  · exact .pure (by simpa using hnode)
  · exact .add _ rfl (by simpa using hnode)

theorem assembles_reshape (lens : List Nat) :
    Assembles used (emitReshape node lens : Emit α NodeId) fun node => [node] := by
  refine .bind (assembles_contiguous hnode) fun dense => .bind (assembles_lensOf dense) fun _ => ?_
  split_ifs
  · exact .pure (by simp)
  · exact .add _ rfl (by simp)

theorem assembles_unsqueeze (rank : Nat) :
    Assembles used (emitUnsqueeze node rank : Emit α NodeId) fun node => [node] := by
  refine .bind .graph fun _ => .bind (.checked _) fun _ => ?_
  dsimp only
  split_ifs
  · exact .pure (by simpa using hnode)
  · exact .add _ rfl (by simpa using hnode)

theorem assembles_reduceSum (axes : List Nat) :
    Assembles used (emitReduceSum node axes : Emit α NodeId) fun node => [node] := by
  unfold emitReduceSum
  split_ifs
  · exact .pure (by simpa using hnode)
  · exact .add _ rfl (by simpa using hnode)

theorem assembles_broadcast (lens : List Nat) :
    Assembles used (emitBroadcast node lens : Emit α NodeId) fun node => [node] := by
  refine .bind (assembles_lensOf node) fun _ => ?_
  split_ifs
  · exact .pure (by simpa using hnode)
  · exact .add _ rfl (by simpa using hnode)

theorem assembles_diagonal [Scalar α] (columns : List Nat) :
    Assembles used (emitDiagonal node columns : Emit α (NodeId × List Nat)) fun result => [result.1] := by
  unfold emitDiagonal
  cases firstRepeat? [] columns with
  | none => exact .pure (by simpa using hnode)
  | some column =>
    refine .bind (assembles_lensOf node) fun lens => .bind (.checked _) fun _ => ?_
    refine .bind (.checked _) fun len => ?_
    split
    · refine .bind (assembles_transpose (by simpa using hnode) _) fun moved => ?_
      refine .bind (assembles_lensOf moved) fun _ => .bind (assembles_reshape (by simp) _) fun flattened => ?_
      refine .bind (.literal _) fun picks => .bind (.add _ rfl (by simp)) fun diagonal => ?_
      exact .pure (by simp)
    · exact .refuse _ _

theorem assembles_align (columns : List Nat) (count : Nat) :
    Assembles used (emitAlign node columns count : Emit α NodeId) fun node => [node] :=
  .bind (assembles_unsqueeze hnode count) fun _ => assembles_transpose (by simp) _

omit hnode in
theorem assembles_contract (count : Nat) {left right : Operand} (hleft : left.node ∈ used)
    (hright : right.node ∈ used) (later : Nat → Bool) :
    Assembles used (emitContract count left right later : Emit α Operand) fun result => [result.node] := by
  refine .bind (assembles_reduceSum hleft _) fun l => .bind (assembles_transpose (by simp) _) fun l => ?_
  refine .bind (assembles_transpose (by simpa using .inr (.inr hright)) _) fun r => ?_
  refine .bind (assembles_lensOf _) fun lOwn => .bind (assembles_lensOf _) fun rOwn => ?_
  refine .bind (assembles_broadcast (by simp) _) fun l => ?_
  refine .bind (assembles_broadcast (by simp) _) fun r => ?_
  refine .bind (.checked _) fun batch => .bind (.checked _) fun inner => .bind (.checked _) fun _ => ?_
  refine .bind (assembles_reshape (by simp) _) fun l => .bind (.checked _) fun _ => ?_
  refine .bind (assembles_reshape (by simp) _) fun r => .bind (assembles_transpose (by simp) _) fun r => ?_
  refine .bind (.add _ rfl (by simp)) fun product => .bind (assembles_reshape (by simp) _) fun product => ?_
  refine .bind (.checked _) fun inverse => .bind (assembles_transpose (by simp) _) fun node => ?_
  exact .pure (by simp)

/-- The node of the result so far, if there is one. -/
def soFarNodes (soFar : Option Operand) : List NodeId := (soFar.map Operand.node).toList

theorem assembles_operand [Scalar α] (columns : Columns) (soFar : Option Operand) (own : List Nat)
    (position : Nat) :
    Assembles (soFarNodes soFar ++ used) (emitOperand columns soFar node own position : Emit α Operand)
      fun result => [result.node] := by
  refine .bind (assembles_diagonal (by simp [hnode]) _) fun ⟨node, own⟩ => ?_
  refine .bind (assembles_align (by simp) _ _) fun node => ?_
  refine .bind (assembles_reduceSum (by simp) _) fun node => ?_
  cases soFar with
  | none => exact .pure (by simp)
  | some left => exact assembles_contract _ (by simp [soFarNodes]) (by simp) _

omit hnode in
theorem assembles_columns [Scalar α] (columns : Columns) (args : List NodeId) :
    Assembles args (emitColumns columns args : Emit α NodeId) fun node => [node] := by
  refine Assembles.bind (Assembles.foldlM soFarNodes (fun soFar item hitem => ?_) none) fun result => ?_
  · obtain ⟨⟨arg, own⟩, position⟩ := item
    have harg : arg ∈ args := by
      obtain ⟨hmem, -⟩ := of_mem_zip (fst_mem_of_mem_zipIdx hitem)
      exact hmem
    change Assembles _ (some <$> emitOperand columns soFar arg own position) soFarNodes
    rw [map_eq_pure_bind]
    exact .bind (assembles_operand harg _ _ _ _) fun _ => .pure (by simp [soFarNodes])
  cases result with
  | none => exact .refuse _ _
  | some operand =>
    refine .bind (assembles_reduceSum (by simp [soFarNodes]) _) fun node => ?_
    refine .bind (assembles_transpose (by simp) _) fun node => ?_
    dsimp only
    split_ifs
    · exact .add _ rfl (by simp)
    · exact .pure (by simp)

end Einsum

namespace Loop

variable {loop : NodeId}

theorem assembles_cut {arg : NodeId} (harg : arg ∈ used) (input : ScanInput) (position : Nat) :
    Assembles used (emitCut arg input position : Emit α NodeId) fun node => [node] :=
  .bind (.checked _) fun _ => .bind (.add _ rfl (by simpa using harg)) fun _ => .add _ rfl (by simp)

theorem assembles_cuts (plan : Plan α) {scanned : List NodeId} (hscanned : ∀ arg ∈ scanned, arg ∈ used)
    (cuts : List NodeId) (iteration : Nat) :
    Assembles (cuts ++ used) (emitCuts plan scanned cuts iteration) id := by
  refine .bind (.mapM fun item hitem => ?_) fun own => .pure (by simp; tauto)
  obtain ⟨harg, -⟩ := of_mem_zip hitem
  exact assembles_cut (by simp [hscanned _ harg]) _ _

theorem assembles_component (hloop : loop ∈ used) (index : Nat) :
    Assembles used (emitComponent loop index : Emit α NodeId) fun node => [node] :=
  .add _ rfl (by simpa using hloop)

theorem assembles_scanned (hloop : loop ∈ used) (index : Nat) (output : ScanOutput) :
    Assembles used (emitScanned loop index output : Emit α NodeId) fun node => [node] :=
  .bind (assembles_component hloop index) fun _ => .add _ rfl (by simp)

theorem assembles_stack {stack : NodeId} (hloop : loop ∈ used) (hstack : stack ∈ used) (index : Nat)
    (output : ScanOutput) :
    Assembles used (emitStack loop index output stack : Emit α NodeId) fun node => [node] := by
  refine .bind (assembles_scanned hloop index output) fun next => .add _ rfl ?_
  split_ifs <;> simp [hstack]

theorem assembles_stacks (plan : Plan α) (hloop : loop ∈ used) (piles : List NodeId) (iteration : Nat) :
    Assembles (piles ++ used) (emitStacks plan loop piles iteration) id := by
  refine .mapM fun item hitem => ?_
  obtain ⟨⟨stack, output⟩, j⟩ := item
  obtain ⟨hstack, -⟩ := of_mem_zip (fst_mem_of_mem_zipIdx hitem)
  exact assembles_stack (by simp [hloop]) (by simp [hstack]) _ _

theorem assembles_plan (plan : Plan α) (args : List NodeId) : Assembles args (emitPlan plan args) id := by
  unfold emitPlan
  simp only [foldCountM_eq_foldlM]
  have hscanned : ∀ arg ∈ args.drop plan.states, arg ∈ args := fun _ => mem_of_mem_drop
  refine .bind (.foldlM id (fun cuts iteration _ => assembles_cuts plan hscanned cuts iteration)
    []) fun cuts => ?_
  refine .bind (.add _ rfl ?_) fun loop => ?_
  · intro input hinput
    rcases mem_append.1 hinput with hinput | hinput
    · exact mem_append_right _ (mem_of_mem_take hinput)
    · exact mem_append_left _ hinput
  refine .bind (.mapM fun index _ => assembles_component (by simp) index) fun states => ?_
  refine .bind (.mapM fun item _ => assembles_scanned (by simp) _ _) fun piles => ?_
  refine .bind (.foldlM id (fun piles iteration _ => assembles_stacks plan (by simp) piles
    iteration) piles) fun final => ?_
  exact .pure (by simp; tauto)

end Loop

end TensorGraph
