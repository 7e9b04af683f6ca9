import TensorGraph.Proofs.Graph.Store

/-!
# Cached shapes stay true

Every node outside the list of pending visits stays settled: its cached shape is the one that inference
gives. Nothing is asked about the order of visits, and the edges may even form a cycle.
-/

namespace TensorGraph.Graph

variable {α : Type} {g : Graph α} {instruction : Stored α} {node input : NodeId}
  {change : Instruction α (Graph α) → Instruction α (Graph α)}

/-- The cached shape is inferred from the cached shapes of the inputs, in argument order. -/
def Settled (g : Graph α) (instruction : Instruction α (Graph α)) : Prop :=
  ∃ shapes, g.shapes instruction.inputs = .ok shapes ∧
    instruction.op.infer shapes (signatures instruction.modules) = .ok instruction.shape

/-- Every instruction that does not wait for a visit is settled. -/
structure SettledOutside (g : Graph α) (pending : List NodeId) : Prop where
  indexed : g.Indexed
  /-- Whatever is not pending is settled. -/
  settled : ∀ node instruction, g.find? node = some instruction → node ∉ pending →
    g.Settled instruction

/-- A graph with ordered indices, all of whose instructions are settled. -/
structure Coherent (g : Graph α) : Prop extends Indexed g where
  settled : ∀ node instruction, g.find? node = some instruction → g.Settled instruction

theorem SettledOutside.coherent (hsettled : g.SettledOutside []) : g.Coherent where
  toIndexed := hsettled.indexed
  settled := fun node instruction hfound => hsettled.settled node instruction hfound (by simp)

theorem Coherent.settledOutside (hcoherent : g.Coherent) (pending : List NodeId) :
    g.SettledOutside pending where
  indexed := hcoherent.toIndexed
  settled := fun node instruction hfound _ => hcoherent.settled node instruction hfound

theorem SettledOutside.mono {pending pending' : List NodeId} (hsettled : g.SettledOutside pending)
    (hsubset : pending ⊆ pending') :
    g.SettledOutside pending' where
  indexed := hsettled.indexed
  settled := fun node instruction hfound hnot =>
    hsettled.settled node instruction hfound fun hmem => hnot (hsubset hmem)

theorem coherent_empty (name : String) : (empty name : Graph α).Coherent where
  toIndexed := indexed_empty name
  settled := by simp [empty, find?]

/-- Inference over nodes succeeds when their shapes are known and the operator accepts them. -/
theorem inferOver_eq_ok_iff {node? : Option NodeId} {op : Operator α} {inputs : List NodeId}
    {modules : List (Graph α)} {shape : Shape} :
    g.inferOver node? op inputs modules = .ok shape ↔
      ∃ shapes, g.shapes inputs = .ok shapes ∧ op.infer shapes (signatures modules) = .ok shape := by
  simp only [inferOver, liftM_checked, bind_eq_ok_iff, Outcome.ofChecked_eq_ok_iff,
    Outcome.widen_eq_ok_iff]

instance (g : Graph α) (instruction : Instruction α (Graph α)) : Decidable (g.Settled instruction) :=
  decidable_of_iff (g.inferOver none instruction.op instruction.inputs instruction.modules =
    .ok instruction.shape) inferOver_eq_ok_iff

instance (g : Graph α) : Decidable g.Coherent :=
  decidable_of_iff (g.Indexed ∧ ∀ node stored, g.find? node = some stored → g.Settled stored)
    ⟨fun h => ⟨h.1, h.2⟩, fun h => ⟨h.1, h.2⟩⟩

/-- Whether an instruction is settled depends on the shapes of its inputs only. -/
theorem Settled.congr {h : Graph α} (hsettled : g.Settled instruction)
    (hsame : ∀ input ∈ instruction.inputs, h.shape input = g.shape input) :
    h.Settled instruction := by
  obtain ⟨shapes, hshapes, hinfer⟩ := hsettled
  exact ⟨shapes, (shapes_congr hsame).trans hshapes, hinfer⟩

/-- Inference confirms the cached shape, whichever way the shapes of the inputs are given. -/
theorem Settled.infer_eq (hsettled : g.Settled instruction) {assigned : NodeId → Shape}
    (hassigned : ∀ input ∈ instruction.inputs, g.shape input = .ok (assigned input)) :
    instruction.op.infer (instruction.inputs.map assigned) (signatures instruction.modules) =
      .ok instruction.shape := by
  obtain ⟨shapes, hshapes, hinfer⟩ := hsettled
  have hread : g.shapes instruction.inputs = .ok (instruction.inputs.map assigned) := by
    rw [shapes_eq_ok_iff, List.forall₂_map_right_iff, List.forall₂_same]
    exact hassigned
  cases hshapes.symm.trans hread
  exact hinfer

/-- The inputs of a settled instruction are in the graph. -/
theorem Settled.input_mem_order (hsettled : g.Settled instruction)
    (hinput : input ∈ instruction.inputs) : input ∈ g.order := by
  obtain ⟨shapes, hshapes, -⟩ := hsettled
  exact mem_order_of_shapes hshapes hinput

theorem Coherent.mem_order_of_mem_inputs (hcoherent : g.Coherent)
    (hinput : input ∈ g.inputs node) : input ∈ g.order := by
  obtain ⟨instruction, hfound, hmem⟩ := exists_find?_of_mem_inputs hinput
  exact (hcoherent.settled _ _ hfound).input_mem_order hmem

theorem shape_modifyNode_self {stored : Stored α}
    (change : Instruction α (Graph α) → Instruction α (Graph α))
    (hstored : g.find? node = some stored) :
    (g.modifyNode node change).shape node = .ok (change stored).shape := by
  apply shape_eq_ok_iff.2
  rw [find?_modifyNode, if_pos rfl, hstored]
  exact ⟨change stored, rfl, rfl⟩

theorem shape_modifyNode_of_ne {other : NodeId} (hne : other ≠ node) :
    (g.modifyNode node change).shape other = g.shape other := by
  simp only [Graph.shape, Graph.instruction, find?_modifyNode, if_neg hne]

/-- Give one node a settled instruction: its consumers are pending then, and nothing else. -/
theorem SettledOutside.modifyNode {pending : List NodeId}
    (hbefore : g.SettledOutside (node :: pending)) (hfound : g.find? node = some instruction)
    (hnode : g.Settled (change instruction)) :
    (g.modifyNode node change).SettledOutside
      ((g.modifyNode node change).consumers node ++ pending) where
  indexed := hbefore.indexed.modifyNode
  settled := by
    intro other stored hstored hother
    rw [List.mem_append, not_or] at hother
    -- A node outside the list does not read the changed one, so it sees the shapes it saw before.
    have hunread : node ∉ stored.inputs := fun hreads =>
      hother.1 (mem_consumers_of_find? hstored hreads)
    have hsame : ∀ input ∈ stored.inputs,
        (g.modifyNode node change).shape input = g.shape input := fun input hinput =>
      shape_modifyNode_of_ne fun heq => hunread (heq ▸ hinput)
    rw [find?_modifyNode] at hstored
    by_cases heq : other = node
    · rw [if_pos heq, hfound, Option.map_some, Option.some.injEq] at hstored
      exact Settled.congr (hstored ▸ hnode) hsame
    · rw [if_neg heq] at hstored
      have hpending : other ∉ node :: pending := by simp [heq, hother.2]
      exact (hbefore.settled other stored hstored hpending).congr hsame

/-- Whatever keeps the shape of a node keeps everybody else settled. -/
theorem Coherent.modifyNode (hcoherent : g.Coherent) (hfound : g.find? node = some instruction)
    (hnode : g.Settled (change instruction))
    (hshape : (change instruction).shape = instruction.shape) :
    (g.modifyNode node change).Coherent where
  toIndexed := hcoherent.toIndexed.modifyNode
  settled := by
    intro other stored hstored
    have hsame : ∀ input, (g.modifyNode node change).shape input = g.shape input := by
      intro input
      by_cases hinput : input = node
      · subst hinput
        simp [Graph.shape, Graph.instruction, find?_modifyNode, hfound, hshape, Except.pure_eq_ok]
      · exact shape_modifyNode_of_ne hinput
    rw [find?_modifyNode] at hstored
    by_cases heq : other = node
    · rw [if_pos heq, hfound, Option.map_some, Option.some.injEq] at hstored
      exact Settled.congr (hstored ▸ hnode) fun input _ => hsame input
    · rw [if_neg heq] at hstored
      exact (hcoherent.settled other stored hstored).congr fun input _ => hsame input

end TensorGraph.Graph
