import Mathlib.Data.Finset.Card
import Mathlib.Data.Finset.Dedup
import TensorGraph.Proofs.Graph.Nesting
import TensorGraph.Proofs.Graph.Order

/-!
# Graphs without cycles

In an acyclic graph every node has a rank and reads nodes of lower rank, so all bounds above the rank of a
node give the same outcome.
-/

namespace TensorGraph.Graph

variable {α : Type} {g h : Graph α}

/-- No node is computed from itself. -/
def Acyclic (g : Graph α) : Prop :=
  ∀ node, ¬ Relation.TransGen (fun input node => input ∈ g.inputs node) node node

theorem acyclic_of_lt {rank : NodeId → Nat}
    (hlower : ∀ {input node}, input ∈ g.inputs node → rank input < rank node) : g.Acyclic := by
  have hbefore {first last : NodeId}
      (hpath : Relation.TransGen (fun input node => input ∈ g.inputs node) first last) :
      rank first < rank last := by
    induction hpath with
    | single hinput => exact hlower hinput
    | tail _ hinput ih => exact Nat.lt_trans ih (hlower hinput)
  intro node hcycle
  exact Nat.lt_irrefl _ (hbefore hcycle)

/-- Ranks are checked entry by entry. -/
theorem acyclic_of_nodes {rank : NodeId → Nat}
    (hlower : ∀ entry ∈ g.nodes, ∀ input ∈ entry.2.inputs, rank input < rank entry.1) :
    g.Acyclic := by
  apply acyclic_of_lt
  intro input node hinput
  obtain ⟨stored, hfound, hmem⟩ := exists_find?_of_mem_inputs hinput
  exact hlower _ (mem_nodes_of_find? hfound) input hmem

theorem Ordered.acyclic (hordered : g.Ordered) : g.Acyclic := acyclic_of_lt hordered.idxOf_lt

theorem Acyclic.not_mem_inputs (hacyclic : g.Acyclic) (node : NodeId) : node ∉ g.inputs node :=
  fun hreads => hacyclic node (.single hreads)

theorem Acyclic.of_inputs_eq (hacyclic : g.Acyclic) (hinputs : ∀ node, h.inputs node = g.inputs node) :
    h.Acyclic := by
  unfold Acyclic
  rw [funext hinputs]
  exact hacyclic

/-- A node ranks above everything it reads, and below the size of the graph. -/
structure Ranks (g : Graph α) (rank : NodeId → Nat) : Prop where
  lt_size : ∀ node ∈ g.order, rank node < g.size
  input_lt : ∀ {node input}, input ∈ g.inputs node → rank input < rank node

open Classical in
/-- The rank of a node is the number of nodes that it is computed from. -/
theorem Acyclic.exists_ranks (hacyclic : g.Acyclic)
    (hlive : ∀ {node input}, input ∈ g.inputs node → input ∈ g.order) : ∃ rank, g.Ranks rank := by
  let above (node : NodeId) := g.order.toFinset.filter fun other =>
    Relation.TransGen (fun input node => input ∈ g.inputs node) other node
  refine ⟨fun node => (above node).card, fun node hnode => ?_, fun {node input} hinput => ?_⟩
  · have hless : above node ⊂ g.order.toFinset := by
      refine Finset.filter_ssubset.2 ⟨node, List.mem_toFinset.2 hnode, hacyclic node⟩
    calc (above node).card < g.order.toFinset.card := Finset.card_lt_card hless
      _ ≤ g.order.length := List.toFinset_card_le _
      _ = g.size := List.length_map _
  · apply Finset.card_lt_card
    rw [Finset.ssubset_iff_of_subset]
    · refine ⟨input, Finset.mem_filter.2 ⟨List.mem_toFinset.2 (hlive hinput), .single hinput⟩,
        fun hself => ?_⟩
      exact hacyclic input (Finset.mem_filter.1 hself).2
    · intro other hother
      obtain ⟨hstored, hpath⟩ := Finset.mem_filter.1 hother
      exact Finset.mem_filter.2 ⟨hstored, hpath.tail hinput⟩

/-- Without cycles, following inputs comes to an end. -/
theorem Acyclic.wellFounded (hacyclic : g.Acyclic)
    (hlive : ∀ {node input}, input ∈ g.inputs node → input ∈ g.order) :
    WellFounded fun input node => input ∈ g.inputs node := by
  obtain ⟨rank, hranks⟩ := hacyclic.exists_ranks hlive
  exact Subrelation.wf hranks.input_lt (measure rank).wf

theorem Acyclic.of_extends (hacyclic : g.Acyclic) (hextends : h.Extends g) : h.Acyclic := by
  have hreads : ∀ input reader, input ∈ h.inputs reader → input ∈ g.inputs reader := by
    intro input reader hinput
    obtain ⟨stored, hfound, hreads⟩ := exists_find?_of_mem_inputs hinput
    rwa [inputs_of_find? (hextends hfound)]
  exact fun node hcycle => hacyclic node (Relation.TransGen.mono hreads node node hcycle)

section Values

variable [Scalar α] {run : Runner α} {bindings : Bindings α} {rank : NodeId → Nat}

/-- A part of a graph computes what the graph computes, with any bounds above the rank of a node. -/
theorem Ranks.valueWithin_eq (hranks : h.Ranks rank) (hcoherent : h.Coherent)
    (hextends : h.Extends g) {node : NodeId} (hlive : node ∈ h.order) {bound bound' : Nat}
    (hbound : rank node < bound) (hbound' : rank node < bound') :
    valueWithin run g bindings bound node = valueWithin run h bindings bound' node := by
  induction bound generalizing node bound' with
  | zero => exact absurd hbound (Nat.not_lt_zero _)
  | succ bound ih =>
    obtain ⟨bound', rfl⟩ : ∃ inner, bound' = inner + 1 := ⟨bound' - 1, by omega⟩
    obtain ⟨stored, hfound⟩ := exists_find?_of_mem_order hlive
    have hfind : h.find? node = g.find? node := hfound.trans (hextends hfound).symm
    refine valueWithin_succ_congr hfind (fun _ _ => rfl) fun other hother input hinput => ?_
    rw [← inputs_of_find? (hfind.trans hother)] at hinput
    have hlower := hranks.input_lt hinput
    exact ih (hcoherent.mem_order_of_mem_inputs hinput) (by omega) (by omega)

/-- A part of a graph that returns the same nodes gives the same outcome. -/
theorem Acyclic.run_eq_of_extends (hacyclic : h.Acyclic) (hcoherent : h.Coherent)
    (hextends : h.Extends g) (hsize : h.size ≤ g.size) (hresults : h.results = g.results)
    (bindings : Bindings α) : h.run bindings = g.run bindings := by
  obtain ⟨rank, hranks⟩ := hacyclic.exists_ranks hcoherent.mem_order_of_mem_inputs
  have hmodules : ∀ node stored, h.find? node = some stored →
      stored.modules.map (callableBy h.moduleRunner) =
        stored.modules.map (callableBy g.moduleRunner) := by
    intro node stored hfound
    rw [map_callableBy_moduleRunner hfound, map_callableBy_moduleRunner (hextends hfound)]
  have hvalues : ∀ node ∈ h.results, valueWithin h.moduleRunner h bindings (h.size + 1) node =
      valueWithin g.moduleRunner g bindings (g.size + 1) node := by
    intro node hnode
    have hlive := hcoherent.mem_order_of_mem_results hnode
    have hrank := hranks.lt_size node hlive
    rw [valueWithin_congr hmodules]
    exact (hranks.valueWithin_eq hcoherent hextends hlive (by omega) (by omega)).symm
  rw [run_eq_valuesWith, run_eq_valuesWith, valuesWith_eq_bind, valuesWith_eq_bind, ← hresults,
    mapM_congr_mem hvalues]

end Values

end TensorGraph.Graph
