import Mathlib.Data.List.Sort
import Mathlib.Data.String.Basic
import TensorGraph.Proofs.Graph.Store

/-!
# The parameters of a module

The names of the parameters in ascending order are determined by the nodes up to their order.
-/

namespace TensorGraph

open List

namespace Graph

variable {α : Type} {g : Graph α} {name : String} {node : NodeId}

/-- The name of a node that is a parameter. -/
def nameAt (g : Graph α) (node : NodeId) : Option String :=
  (g.find? node).bind (·.op.parameterName?)

theorem parameterName?_eq_some_iff {op : Operator α} :
    op.parameterName? = some name ↔ ∃ shape, op = .parameter name shape := by
  cases op <;> simp [Operator.parameterName?]

theorem nameAt_eq_some_iff :
    g.nameAt node = some name ↔
      ∃ instruction shape, g.find? node = some instruction ∧
        instruction.op = .parameter name shape := by
  rw [nameAt, Option.bind_eq_some_iff]
  constructor
  · rintro ⟨instruction, hfound, hname⟩
    obtain ⟨shape, hop⟩ := parameterName?_eq_some_iff.1 hname
    exact ⟨instruction, shape, hfound, hop⟩
  · rintro ⟨instruction, shape, hfound, hop⟩
    exact ⟨instruction, hfound, parameterName?_eq_some_iff.2 ⟨shape, hop⟩⟩

/-- The names of the parameters in insertion order. -/
theorem filterMap_nodes_eq (hindexed : g.Indexed) :
    g.nodes.filterMap (·.2.op.parameterName?) = g.order.filterMap g.nameAt := by
  rw [order, filterMap_map]
  apply filterMap_congr
  intro entry hmem
  have hfound : g.find? entry.1 = some entry.2 := (find?_eq_some_iff hindexed.nodup).2 hmem
  rw [Function.comp_apply, nameAt, hfound, Option.bind_some]

theorem parameterNames_perm (hindexed : g.Indexed) :
    g.parameterNames.Perm (g.order.filterMap g.nameAt) := by
  rw [← filterMap_nodes_eq hindexed]
  exact sorted_perm _ _

theorem parameterNames_sorted (g : Graph α) : g.parameterNames.SortedLE := by
  have hle (a b : String) : (!decide (b < a)) = true ↔ a ≤ b := by
    rw [Bool.not_eq_true', decide_eq_false_iff_not, not_lt]
  have hpairwise : g.parameterNames.Pairwise fun a b => (!decide (b < a)) = true := by
    apply sorted_pairwise
    · intro a b
      rw [hle, hle]
      exact le_total a b
    · intro a b c
      rw [hle, hle, hle]
      exact le_trans
  exact sortedLE_iff_pairwise.2 (hpairwise.imp (hle _ _).1)

/-- Two nodes have one name only where a name is listed twice. -/
theorem eq_of_nameAt (hindexed : g.Indexed) (hnames : g.parameterNames.Nodup) {node' : NodeId}
    (hnode : g.nameAt node = some name) (hnode' : g.nameAt node' = some name) : node = node' := by
  have hnodup := (parameterNames_perm hindexed).nodup_iff.1 hnames
  have hlive {node : NodeId} (hnode : g.nameAt node = some name) : node ∈ g.order := by
    obtain ⟨_, _, hfound, -⟩ := nameAt_eq_some_iff.1 hnode
    exact mem_order_of_find? hfound
  have hmem := hlive hnode
  have hmem' := hlive hnode'
  generalize g.order = items at hnodup hmem hmem'
  induction items with
  | nil => cases hmem
  | cons item items ih =>
    have hlisted {node : NodeId} (hnode : g.nameAt node = some name) (hmem : node ∈ items) :
        name ∈ items.filterMap g.nameAt := mem_filterMap.2 ⟨node, hmem, hnode⟩
    rw [filterMap_cons] at hnodup
    rcases mem_cons.1 hmem with rfl | hrest
    · rw [hnode] at hnodup
      rcases mem_cons.1 hmem' with rfl | hrest'
      · rfl
      · exact absurd (hlisted hnode' hrest') (nodup_cons.1 hnodup).1
    · rcases mem_cons.1 hmem' with rfl | hrest'
      · rw [hnode'] at hnodup
        exact absurd (hlisted hnode hrest) (nodup_cons.1 hnodup).1
      · apply ih _ hrest hrest'
        cases hname : g.nameAt item with
        | none => simpa [hname] using hnodup
        | some other =>
          rw [hname] at hnodup
          exact (nodup_cons.1 hnodup).2

theorem parameter?_eq_some (hindexed : g.Indexed) (hparameter : g.parameter? name = some node) :
    g.nameAt node = some name := by
  obtain ⟨entry, hentry, rfl⟩ := Option.map_eq_some_iff.1 hparameter
  have hfound : g.find? entry.1 = some entry.2 :=
    (find?_eq_some_iff hindexed.nodup).2 (mem_of_find?_eq_some hentry)
  rw [nameAt, hfound, Option.bind_some]
  simpa using find?_some hentry

theorem exists_parameter? (hname : name ∈ g.parameterNames) :
    ∃ node, g.parameter? name = some node := by
  obtain ⟨entry, hmem, hentry⟩ := mem_filterMap.1 ((sorted_perm _ _).mem_iff.1 hname)
  have hsome : (g.nodes.find? (·.2.op.parameterName? == some name)).isSome :=
    find?_isSome.2 ⟨entry, hmem, by simp [hentry]⟩
  obtain ⟨found, hfound⟩ := Option.isSome_iff_exists.1 hsome
  exact ⟨found.1, by rw [parameter?, hfound, Option.map_some]⟩

theorem signature_parameterNames (g : Graph α) :
    g.signature.parameterNames = g.parameterNames := by
  have hall : ∀ name ∈ g.parameterNames, ∃ shape,
      (do let declared ← g.find? (← g.parameter? name); return (name, declared.shape)) =
        some (name, shape) := by
    intro name hname
    obtain ⟨node, hnode⟩ := exists_parameter? hname
    obtain ⟨entry, hentry, rfl⟩ := Option.map_eq_some_iff.1 hnode
    obtain ⟨instruction, hfound⟩ := exists_find?_of_mem_order
      (mem_map_of_mem (mem_of_find?_eq_some hentry))
    exact ⟨instruction.shape, by simp [hnode, hfound]⟩
  change (g.parameterNames.filterMap fun name => do
    let declared ← g.find? (← g.parameter? name)
    return (name, declared.shape)).map Prod.fst = g.parameterNames
  generalize g.parameterNames = names at hall
  induction names with
  | nil => rfl
  | cons name names ih =>
    rw [forall_mem_cons] at hall
    obtain ⟨⟨shape, hname⟩, hrest⟩ := hall
    rw [filterMap_cons, hname, map_cons, ih hrest]

theorem signature_arity (g : Graph α) : g.signature.arity = g.parameterNames.length := by
  rw [← signature_parameterNames g, Signature.parameterNames, length_map]
  rfl

end Graph

end TensorGraph
