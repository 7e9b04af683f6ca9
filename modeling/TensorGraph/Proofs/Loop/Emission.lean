import TensorGraph.Loop.Lowering
import TensorGraph.Proofs.Graph.Growth

/-!
# The nodes of a lowered loop

What lowering a loop leaves in the graph: the slices of the scan inputs for every iteration, the loop over
them, its components, and the stacks of the scan outputs.
-/

namespace TensorGraph

open List

variable {α β γ : Type} {inputs : List NodeId} {modules : List (Graph α)} {output : ScanOutput}

/-- Whenever an emission into an indexed graph goes through, it has only added nodes, and what it
gives has a property in the grown graph. -/
def Appends (e : Emission α) (emission : Emit α β) (property : β → Graph α → Prop) : Prop :=
  e.graph.Indexed → ∀ ⦃value e'⦄, emission e = .ok value e' →
    e.graph.Extends e'.graph ∧ e'.graph.Indexed ∧ property value e'.graph

/-- A node applies an operator to these inputs. -/
def Graph.Applies (g : Graph α) (node : NodeId) (op : Operator α) (inputs : List NodeId)
    (modules : List (Graph α)) : Prop :=
  ∃ shape, g.find? node = some ⟨op, shape, inputs, modules⟩

theorem Graph.Applies.mono {g h : Graph α} {node : NodeId} {op : Operator α}
    (happlies : g.Applies node op inputs modules)
    (hextends : g.Extends h) : h.Applies node op inputs modules :=
  happlies.imp fun _ hfound => hextends hfound

namespace Appends

variable {e : Emission α} {property : β → Graph α → Prop}

theorem pure {value : β} (hvalue : property value e.graph) :
    Appends e (Pure.pure value) property := by
  rintro hindexed _ _ ⟨⟩
  exact ⟨.refl _, hindexed, hvalue⟩

theorem mono {emission : Emit α β} {after : β → Graph α → Prop} (happends : Appends e emission property)
    (hafter : ∀ value g, e.graph.Extends g → property value g → after value g) :
    Appends e emission after := by
  intro hindexed value e' hrun
  obtain ⟨hextends, hindexed, hvalue⟩ := happends hindexed hrun
  exact ⟨hextends, hindexed, hafter value _ hextends hvalue⟩

theorem bind {first : Emit α γ} {next : γ → Emit α β} {middle : γ → Graph α → Prop}
    (hfirst : Appends e first middle)
    (hnext : ∀ value (e' : Emission α), e.graph.Extends e'.graph → middle value e'.graph →
      Appends e' (next value) property) : Appends e (first >>= next) property := by
  intro hindexed result e'' hrun
  obtain ⟨value, e', hvalue, hrun⟩ := stateBind_eq_ok_iff.1 hrun
  obtain ⟨hextends, hindexed, hmiddle⟩ := hfirst hindexed hvalue
  obtain ⟨hextends', hafter⟩ := hnext value e' hextends hmiddle hindexed hrun
  exact ⟨hextends.trans hextends', hafter⟩

theorem checked_bind {computed : Checked γ} {next : γ → Emit α β}
    (hnext : ∀ value, computed = .ok value → Appends e (next value) property) :
    Appends e (liftM computed >>= next) property := by
  intro hindexed result e' hrun
  cases computed with
  | ok value => exact hnext value rfl hindexed hrun
  | error cause => cases hrun

theorem add {op : Operator α} :
    Appends e (Emit.add op inputs modules) fun node g => g.Applies node op inputs modules := by
  intro hindexed node e' hrun
  obtain ⟨g, _, hget, hrun⟩ := stateBind_eq_ok_iff.1 hrun
  cases hget
  obtain ⟨added, _, hadd, hrun⟩ := stateBind_eq_ok_iff.1 hrun
  cases hcomputed : e.graph.add op inputs modules with
  | error cause =>
    rw [hcomputed] at hadd
    cases hadd
  | ok added =>
    rw [hcomputed] at hadd
    cases hadd
    cases hrun
    obtain ⟨shape, -, hinsert⟩ := bind_eq_ok_iff.1 hcomputed
    cases hinsert
    exact ⟨Graph.extends_insertAt hindexed e.graph.appendPosition_le,
      hindexed.insertAt e.graph.appendPosition_le, shape,
      Graph.find?_inserted hindexed e.graph.appendPosition_le⟩

/-- What each step leaves for its item is there after the last step. -/
theorem mapM {f : γ → Emit α β} (property : γ → β → Graph α → Prop)
    (hmono : ∀ ⦃item value g h⦄, g.Extends h → property item value g → property item value h)
    {items : List γ}
    (hstep : ∀ item ∈ items, ∀ e' : Emission α, e.graph.Extends e'.graph →
      Appends e' (f item) (property item)) :
    Appends e (items.mapM f) fun values g =>
      Forall₂ (fun item value => property item value g) items values := by
  induction items generalizing e with
  | nil => exact pure .nil
  | cons item items ih =>
    rw [forall_mem_cons] at hstep
    rw [mapM_cons]
    refine bind (hstep.1 e (.refl _)) fun value e' hextends hvalue => ?_
    refine bind (ih fun item hitem e'' hextends' =>
      hstep.2 item hitem e'' (hextends.trans hextends')) fun values e'' hextends' hvalues => ?_
    exact pure (.cons (hmono hextends' hvalue) hvalues)

/-- What every step of a counting loop keeps holds at its end. -/
theorem foldCountM {step : β → Nat → Emit α β} (invariant : Nat → β → Graph α → Prop)
    {first count : Nat} (hstep : ∀ i, first ≤ i → ∀ state (e : Emission α),
      invariant i state e.graph → Appends e (step state i) (invariant (i + 1))) {state : β}
    (hstart : invariant first state e.graph) :
    Appends e (foldCountM step first count state) (invariant (first + count)) := by
  induction count generalizing first state e with
  | zero => exact pure hstart
  | succ count ih =>
    refine bind (hstep first (Nat.le_refl _) state e hstart) fun next e' _ hnext => ?_
    have hrest := ih (fun i hi => hstep i (by omega)) hnext
    rwa [Nat.add_right_comm] at hrest

end Appends

namespace Loop

open Graph

variable {g h : Graph α} {plan : Plan α} {iteration : Nat} {loop node : NodeId}

/-- A node that cuts a position out of a scan input. -/
def CutNode (g : Graph α) (arg : NodeId) (axis position : Nat) (node : NodeId) : Prop :=
  ∃ last cut, Word.addSigned (Word.toSigned position) 1 = .ok last ∧
    g.Applies cut (.slice [axis] [Word.toSigned position] [last]) [arg] [] ∧
    g.Applies node (.squeeze [axis]) [cut] []

/-- The nodes that an iteration reads of the scan inputs. -/
def CutNodes (g : Graph α) (plan : Plan α) (scanned : List NodeId) (iteration : Nat)
    (nodes : List NodeId) : Prop :=
  Forall₂
    (fun (item : NodeId × ScanInput) node =>
      CutNode g item.1 item.2.axis (item.2.position plan.iterations iteration) node)
    (scanned.zip plan.inputs) nodes

/-- A scan output of the loop with an axis to stack it along. -/
def ScannedNode (g : Graph α) (loop : NodeId) (index axis : Nat) (node : NodeId) : Prop :=
  ∃ component, g.Applies component (.tupleElem index) [loop] [] ∧
    g.Applies node (.unsqueeze [axis]) [component] []

/-- A stack of the scan outputs of the iterations up to this one. -/
def StackNode (g : Graph α) (plan : Plan α) (loop : NodeId) (output : ScanOutput) (j : Nat) :
    (iteration : Nat) → NodeId → Prop
  | 0, node => ScannedNode g loop (plan.states + j) output.axis node
  | iteration + 1, node => ∃ stack next, StackNode g plan loop output j iteration stack ∧
      ScannedNode g loop (plan.states + (iteration + 1) * plan.outputs.length + j) output.axis next ∧
      g.Applies node (.concat (output.axis : Int))
        (if output.prepended then [next, stack] else [stack, next]) []

/-- The nodes of a lowered loop: one loop over the states and the slices of every iteration. Its first
components and the stacks of the others are the results. -/
def LoopNodes (g : Graph α) (plan : Plan α) (args results : List NodeId) : Prop :=
  ∃ loop cuts states piles, results = states ++ piles ∧
    g.Applies loop (.scan plan.iterations plan.inputs.length plan.states)
      (args.take plan.states ++ cuts.flatten) [plan.body] ∧
    Forall₂ (CutNodes g plan (args.drop plan.states)) (List.range plan.iterations) cuts ∧
    Forall₂ (fun n node => g.Applies node (.tupleElem n) [loop] [])
      (List.range plan.states) states ∧
    Forall₂ (fun (item : ScanOutput × Nat) node =>
      StackNode g plan loop item.1 item.2 (plan.iterations - 1) node) plan.outputs.zipIdx piles

/-! ### They stay -/

variable (hextends : g.Extends h)

include hextends

theorem CutNode.mono {arg : NodeId} {axis position : Nat} (hnode : CutNode g arg axis position node) :
    CutNode h arg axis position node := by
  obtain ⟨last, cut, hlast, hcut, hnode⟩ := hnode
  exact ⟨last, cut, hlast, hcut.mono hextends, hnode.mono hextends⟩

theorem CutNodes.mono {scanned nodes : List NodeId}
    (hnodes : CutNodes g plan scanned iteration nodes) : CutNodes h plan scanned iteration nodes :=
  hnodes.imp fun _ _ hnode => hnode.mono hextends

theorem ScannedNode.mono {index axis : Nat} (hnode : ScannedNode g loop index axis node) :
    ScannedNode h loop index axis node := by
  obtain ⟨component, hcomponent, hnode⟩ := hnode
  exact ⟨component, hcomponent.mono hextends, hnode.mono hextends⟩

theorem StackNode.mono {j : Nat} (hnode : StackNode g plan loop output j iteration node) :
    StackNode h plan loop output j iteration node := by
  induction iteration generalizing node with
  | zero => exact ScannedNode.mono hextends hnode
  | succ iteration ih =>
    obtain ⟨stack, next, hstack, hnext, hnode⟩ := hnode
    exact ⟨stack, next, ih hstack, hnext.mono hextends, hnode.mono hextends⟩

omit hextends

/-! ### They are emitted -/

variable {e : Emission α}

theorem leaves_cut (arg : NodeId) (input : ScanInput) (position : Nat) :
    Appends e (emitCut arg input position) fun node g => CutNode g arg input.axis position node := by
  refine .checked_bind fun last hlast => ?_
  refine .bind .add fun cut e' _ hcut => ?_
  exact Appends.add.mono fun node g hextends hnode =>
    ⟨last, cut, hlast, hcut.mono hextends, hnode⟩

theorem leaves_cuts (plan : Plan α) (scanned cuts : List NodeId) (iteration : Nat) :
    Appends e (emitCuts plan scanned cuts iteration) fun nodes g =>
      ∃ own, nodes = cuts ++ own ∧ CutNodes g plan scanned iteration own := by
  refine .bind (.mapM
    (fun (item : NodeId × ScanInput) node g =>
      CutNode g item.1 item.2.axis (item.2.position plan.iterations iteration) node)
    (fun _ _ _ _ hextends hnode => CutNode.mono hextends hnode)
    fun item _ e' _ => leaves_cut item.1 item.2 _) ?_
  intro own e' _ hown
  exact .pure ⟨own, rfl, hown⟩

theorem leaves_scanned (loop : NodeId) (index : Nat) (output : ScanOutput) :
    Appends e (emitScanned loop index output) fun node g =>
      ScannedNode g loop index output.axis node := by
  refine .bind .add fun component e' _ hcomponent => ?_
  exact Appends.add.mono fun node g hextends hnode =>
    ⟨component, hcomponent.mono hextends, hnode⟩

theorem leaves_stack {stack : NodeId} {j : Nat}
    (hstack : StackNode e.graph plan loop output j iteration stack) :
    Appends e (emitStack loop (plan.states + (iteration + 1) * plan.outputs.length + j) output stack)
      fun node g => StackNode g plan loop output j (iteration + 1) node := by
  refine .bind (leaves_scanned _ _ _) fun next e' hextends hnext => ?_
  exact Appends.add.mono fun node g hextends' hnode =>
    ⟨stack, next, hstack.mono (hextends.trans hextends'), hnext.mono hextends', hnode⟩

/-- One more iteration on every stack. -/
theorem leaves_stacks {piles : List NodeId} (hpiles : Forall₂ (fun (item : ScanOutput × Nat) node =>
      StackNode e.graph plan loop item.1 item.2 iteration node) plan.outputs.zipIdx piles) :
    Appends e (emitStacks plan loop piles (iteration + 1)) fun nodes g =>
      Forall₂ (fun (item : ScanOutput × Nat) node =>
        StackNode g plan loop item.1 item.2 (iteration + 1) node) plan.outputs.zipIdx nodes := by
  have hlength : plan.outputs.length ≤ piles.length := by
    rw [← hpiles.length_eq, length_zipIdx]
  have hitems : (piles.zip plan.outputs).zipIdx.map (fun item => (item.1.2, item.2)) =
      plan.outputs.zipIdx := by
    conv_rhs => rw [← map_snd_zip hlength, zipIdx_map]
    rfl
  refine (Appends.mapM
    (fun (item : (NodeId × ScanOutput) × Nat) node g =>
      StackNode g plan loop item.1.2 item.2 (iteration + 1) node)
    (fun _ _ _ _ hextends hnode => StackNode.mono hextends hnode) ?_).mono ?_
  · rintro ⟨⟨stack, output⟩, j⟩ hitem e' hextends
    rw [mk_mem_zipIdx_iff_getElem?, getElem?_zip_eq_some] at hitem
    obtain ⟨⟨output', j'⟩, houtput, hstack⟩ := exists_getElem?_of_forall₂ hpiles hitem.1
    rw [getElem?_zipIdx, hitem.2, Option.map_some, Nat.zero_add] at houtput
    cases houtput
    exact leaves_stack (StackNode.mono hextends hstack)
  · intro nodes g _ hnodes
    rw [← hitems, forall₂_map_left_iff]
    exact hnodes

theorem leaves_plan (plan : Plan α) (args : List NodeId) :
    Appends e (emitPlan plan args) fun results g => LoopNodes g plan args results := by
  refine .bind (.foldCountM
    (fun i nodes g => ∃ cuts, nodes = cuts.flatten ∧
      Forall₂ (CutNodes g plan (args.drop plan.states)) (List.range i) cuts)
    ?_ ⟨[], rfl, .nil⟩) ?_
  · rintro i - _ e ⟨cuts, rfl, hcuts⟩
    refine (leaves_cuts plan _ _ i).mono ?_
    rintro _ g hextends ⟨own, rfl, hown⟩
    refine ⟨cuts ++ [own], by simp, ?_⟩
    rw [range_succ]
    exact rel_append (hcuts.imp fun _ _ hnodes => hnodes.mono hextends) (.cons hown .nil)
  rintro _ e₁ - ⟨cuts, rfl, hcuts⟩
  refine .bind .add fun loop e₂ hextends₂ hloop => ?_
  refine .bind (.mapM (fun n node g => Graph.Applies g node (.tupleElem n) [loop] [])
    (fun _ _ _ _ hextends hnode => Graph.Applies.mono hnode hextends)
    fun n _ e' _ => .add) ?_
  intro states e₃ hextends₃ hstates
  refine .bind (.mapM
    (fun (item : ScanOutput × Nat) node g => StackNode g plan loop item.1 item.2 0 node)
    (fun _ _ _ _ hextends hnode => StackNode.mono hextends hnode)
    fun item _ e' _ => leaves_scanned _ _ _) ?_
  intro firsts e₄ hextends₄ hfirsts
  refine .bind (.foldCountM
    (fun i piles g => Forall₂ (fun (item : ScanOutput × Nat) node =>
      StackNode g plan loop item.1 item.2 (i - 1) node) plan.outputs.zipIdx piles)
    ?_ hfirsts) ?_
  · intro i hi piles e hpiles
    obtain ⟨i, rfl⟩ : ∃ k, i = k + 1 := ⟨i - 1, by omega⟩
    exact leaves_stacks hpiles
  intro piles e₅ hextends₅ hpiles
  have hextends := (hextends₃.trans hextends₄).trans hextends₅
  refine .pure ⟨loop, cuts, states, piles, rfl, hloop.mono hextends, ?_, ?_, ?_⟩
  · rw [Nat.zero_add] at hcuts
    exact hcuts.imp fun _ _ hnodes => hnodes.mono (hextends₂.trans hextends)
  · exact hstates.imp fun _ _ hnode => hnode.mono (hextends₄.trans hextends₅)
  · rwa [Nat.add_sub_cancel_left] at hpiles

end Loop

end TensorGraph
