import Mathlib.Data.List.Nodup
import Mathlib.Data.List.Perm.Basic
import TensorGraph.Proofs.Outcomes

/-!
# What is stored under an index

What `find?` gives after each change of the store. `Indexed` says that no index is stored twice and that
free indices are free, and every change keeps it.
-/

namespace TensorGraph

/-- An instruction with modules that are graphs, as a graph stores it. -/
abbrev Stored (α : Type) : Type := Instruction α (Graph α)

namespace Graph

open List

variable {α : Type} {g h : Graph α} {node consumer other : NodeId} {instruction : Stored α}
  {nodes : List NodeId} {shapes : List Shape}

theorem find?_eq_none_iff : g.find? node = none ↔ node ∉ g.order := by
  simp only [find?, order, Option.map_eq_none_iff, find?_eq_none, mem_map, beq_iff_eq,
    not_exists, not_and]

theorem find?_isSome_iff : (g.find? node).isSome ↔ node ∈ g.order := by
  rw [← not_iff_not, Bool.not_eq_true, Option.isSome_eq_false_iff, Option.isNone_iff_eq_none,
    find?_eq_none_iff]

theorem mem_order_of_find? (hfound : g.find? node = some instruction) : node ∈ g.order :=
  find?_isSome_iff.1 (by simp [hfound])

instance {property : NodeId → Instruction α (Graph α) → Prop}
    [∀ node stored, Decidable (property node stored)] :
    Decidable (∀ node stored, g.find? node = some stored → property node stored) :=
  decidable_of_iff (∀ node ∈ g.order, ∀ stored ∈ g.find? node, property node stored)
    ⟨fun hall node stored hfound => hall node (mem_order_of_find? hfound) stored hfound,
      fun hall node _ => hall node⟩

theorem exists_find?_of_mem_order (hmem : node ∈ g.order) :
    ∃ instruction, g.find? node = some instruction :=
  Option.isSome_iff_exists.1 (find?_isSome_iff.2 hmem)

theorem contains_iff : g.contains node = true ↔ node ∈ g.order := by
  simp [contains]

theorem mem_nodes_of_find? (hfound : g.find? node = some instruction) :
    (node, instruction) ∈ g.nodes := by
  simp only [find?, Option.map_eq_some_iff] at hfound
  obtain ⟨⟨found, stored⟩, hfind, rfl⟩ := hfound
  have hkey : found = node := by simpa using find?_some hfind
  exact hkey ▸ mem_of_find?_eq_some hfind

/-- Where no index is stored twice, what is stored under an index is what `find?` gives. -/
theorem find?_eq_some_iff (hnodup : g.order.Nodup) :
    g.find? node = some instruction ↔ (node, instruction) ∈ g.nodes := by
  refine ⟨mem_nodes_of_find?, fun hmem => ?_⟩
  have hlive : node ∈ g.order := mem_map.2 ⟨_, hmem, rfl⟩
  obtain ⟨found, hfound⟩ := exists_find?_of_mem_order hlive
  have hsame := inj_on_of_nodup_map hnodup (mem_nodes_of_find? hfound) hmem rfl
  simp only [Prod.mk.injEq, true_and] at hsame
  rw [hfound, hsame]

theorem inputs_of_find? (hfound : g.find? node = some instruction) :
    g.inputs node = instruction.inputs := by
  simp [inputs, hfound]

theorem exists_find?_of_mem_inputs {input : NodeId} (hinput : input ∈ g.inputs node) :
    ∃ instruction, g.find? node = some instruction ∧ input ∈ instruction.inputs := by
  unfold inputs at hinput
  cases hfound : g.find? node with
  | none =>
    rw [hfound] at hinput
    cases hinput
  | some instruction =>
    rw [hfound] at hinput
    exact ⟨instruction, rfl, hinput⟩

theorem instruction_eq_ok_iff :
    g.instruction node = .ok instruction ↔ g.find? node = some instruction := by
  unfold Graph.instruction
  cases g.find? node <;> simp

theorem shape_eq_ok_iff {shape : Shape} :
    g.shape node = .ok shape ↔
      ∃ instruction, g.find? node = some instruction ∧ instruction.shape = shape := by
  simp only [Graph.shape, bind_eq_ok_iff, instruction_eq_ok_iff, Except.pure_eq_ok,
    Except.ok.injEq]

theorem op_eq_ok_iff {op : Operator α} :
    g.op node = .ok op ↔
      ∃ instruction, g.find? node = some instruction ∧ instruction.op = op := by
  simp only [Graph.op, bind_eq_ok_iff, instruction_eq_ok_iff, Except.pure_eq_ok, Except.ok.injEq]

theorem shape_of_find? (hfound : g.find? node = some instruction) :
    g.shape node = .ok instruction.shape := shape_eq_ok_iff.2 ⟨instruction, hfound, rfl⟩

theorem op_of_find? (hfound : g.find? node = some instruction) : g.op node = .ok instruction.op :=
  op_eq_ok_iff.2 ⟨instruction, hfound, rfl⟩

/-- The shapes of several nodes are known exactly when all of them are stored. -/
theorem shapes_eq_ok_iff :
    g.shapes nodes = .ok shapes ↔
      Forall₂ (fun node shape => g.shape node = .ok shape) nodes shapes :=
  mapM_eq_ok_iff

/-- The shapes of nodes depend on the cached shapes of these nodes only. -/
theorem shapes_congr (hsame : ∀ node ∈ nodes, h.shape node = g.shape node) :
    h.shapes nodes = g.shapes nodes :=
  mapM_congr_mem hsame

/-- Inference over nodes with known shapes is inference from these. -/
theorem inferOver_of_shapes {node? : Option NodeId} {op : Operator α} {inputs : List NodeId}
    {modules : List (Graph α)} (hshapes : g.shapes inputs = .ok shapes) :
    g.inferOver node? op inputs modules =
      (op.infer shapes (signatures modules)).widen (.shape node? op.name) := by
  rw [inferOver, hshapes]
  rfl

theorem mem_order_of_shapes (hshapes : g.shapes nodes = .ok shapes) (hmem : node ∈ nodes) :
    node ∈ g.order := by
  obtain ⟨shape, -, hshape⟩ := exists_mem_right_of_forall₂ (shapes_eq_ok_iff.1 hshapes) hmem
  obtain ⟨instruction, hfound, -⟩ := shape_eq_ok_iff.1 hshape
  exact mem_order_of_find? hfound

/-- Consumers are the stored nodes that read a node. -/
theorem mem_consumers_iff :
    consumer ∈ g.consumers node ↔
      ∃ instruction, (consumer, instruction) ∈ g.nodes ∧ node ∈ instruction.inputs := by
  unfold consumers
  rw [(sorted_perm _ _).mem_iff]
  simp

theorem mem_consumers_of_find? (hfound : g.find? consumer = some instruction)
    (hreads : node ∈ instruction.inputs) : consumer ∈ g.consumers node :=
  mem_consumers_iff.2 ⟨instruction, mem_nodes_of_find? hfound, hreads⟩

theorem mem_inputs_of_mem_consumers (hnodup : g.order.Nodup)
    (hconsumer : consumer ∈ g.consumers node) : node ∈ g.inputs consumer := by
  obtain ⟨instruction, hentry, hreads⟩ := mem_consumers_iff.1 hconsumer
  rwa [inputs_of_find? ((find?_eq_some_iff hnodup).2 hentry)]

theorem hasConsumers_eq_false_iff :
    g.hasConsumers node = false ↔
      ∀ entry ∈ g.nodes, node ∉ entry.2.inputs := by
  simp [hasConsumers]

/-- A node that is read has a reader. -/
theorem exists_reader (hnodup : g.order.Nodup) (hread : g.hasConsumers node = true) :
    ∃ reader instruction, g.find? reader = some instruction ∧ node ∈ instruction.inputs := by
  obtain ⟨entry, hmem, hcontains⟩ := any_eq_true.1 hread
  exact ⟨entry.1, entry.2, (find?_eq_some_iff hnodup).2 hmem, by simpa using hcontains⟩

/-- The stored indices are those that were given out and not given back, each once. -/
structure Indexed (g : Graph α) : Prop where
  nodup : g.order.Nodup
  vacant_nodup : g.vacant.Nodup
  vacant_lt : ∀ node ∈ g.vacant, node < g.fresh
  /-- An index is stored exactly when it was given out and not given back. -/
  mem_order_iff : ∀ node, node ∈ g.order ↔ node < g.fresh ∧ node ∉ g.vacant

theorem indexed_empty (name : String) : (empty name : Graph α).Indexed where
  nodup := nodup_nil
  vacant_nodup := nodup_nil
  vacant_lt := by simp [empty]
  mem_order_iff := by simp [empty, order]

theorem indexed_iff :
    g.Indexed ↔ g.order.Nodup ∧ g.vacant.Nodup ∧ (∀ node ∈ g.vacant, node < g.fresh) ∧
      (∀ node ∈ g.order, node < g.fresh ∧ node ∉ g.vacant) ∧
      ∀ node < g.fresh, node ∉ g.vacant → node ∈ g.order := by
  constructor
  · intro hindexed
    exact ⟨hindexed.nodup, hindexed.vacant_nodup, hindexed.vacant_lt,
      fun node => (hindexed.mem_order_iff node).1,
      fun node hlt hfree => (hindexed.mem_order_iff node).2 ⟨hlt, hfree⟩⟩
  · rintro ⟨hnodup, hvacant, hlt, hstored, hfree⟩
    exact ⟨hnodup, hvacant, hlt, fun node => ⟨hstored node, fun h => hfree node h.1 h.2⟩⟩

instance (g : Graph α) : Decidable g.Indexed := decidable_of_iff _ indexed_iff.symm

theorem Indexed.vacant_free (hindexed : g.Indexed) (hvacant : node ∈ g.vacant) :
    node ∉ g.order := fun hmem =>
  ((hindexed.mem_order_iff node).1 hmem).2 hvacant

theorem Indexed.order_lt (hindexed : g.Indexed) (hmem : node ∈ g.order) :
    node < g.fresh := ((hindexed.mem_order_iff node).1 hmem).1

section ModifyNode

variable {g : Graph α} {node : NodeId}
  {change : Instruction α (Graph α) → Instruction α (Graph α)}

@[simp]
theorem order_modifyNode : (g.modifyNode node change).order = g.order := by
  simp [modifyNode, order]

@[simp]
theorem vacant_modifyNode : (g.modifyNode node change).vacant = g.vacant := rfl

@[simp]
theorem fresh_modifyNode : (g.modifyNode node change).fresh = g.fresh := rfl

theorem find?_modifyNode (other : NodeId) :
    (g.modifyNode node change).find? other =
      if other = node then (g.find? node).map change else g.find? other := by
  unfold find? modifyNode
  rw [find?_map, Option.map_map]
  by_cases heq : other = node
  · subst heq
    rw [if_pos rfl, Option.map_map]
    cases hfind : g.nodes.find? (·.1 == other) with
    | none => simpa [Function.comp_def] using hfind
    | some entry =>
      have hkey : entry.1 = other := by simpa using find?_some hfind
      simp [Function.comp_def, hfind, hkey]
  · rw [if_neg heq]
    cases hfind : g.nodes.find? (·.1 == other) with
    | none => simpa [Function.comp_def] using hfind
    | some entry =>
      have hkey : entry.1 = other := by simpa using find?_some hfind
      have hne : entry.1 ≠ node := fun h => heq (hkey.symm.trans h)
      simp [Function.comp_def, hfind, hne]

theorem Indexed.modifyNode (hindexed : g.Indexed) : (g.modifyNode node change).Indexed where
  nodup := by simpa using hindexed.nodup
  vacant_nodup := hindexed.vacant_nodup
  vacant_lt := hindexed.vacant_lt
  mem_order_iff := by simpa using hindexed.mem_order_iff

end ModifyNode

section InsertAt

variable {g : Graph α} {instruction : Stored α} {position : Nat}

/-- The index that the next insertion takes. -/
def nextId (g : Graph α) : NodeId := g.vacant.headD g.fresh

theorem insertAt_snd : (g.insertAt instruction position).2 = g.nextId := by
  unfold insertAt nextId
  cases g.vacant <;> rfl

theorem nodes_insertAt :
    (g.insertAt instruction position).1.nodes =
      g.nodes.insertIdx position (g.nextId, instruction) := by
  unfold insertAt nextId
  cases g.vacant <;> rfl

theorem nextId_notMem (hindexed : g.Indexed) : g.nextId ∉ g.order := by
  unfold nextId
  cases hvacant : g.vacant with
  | nil =>
    intro hmem
    exact absurd (hindexed.order_lt hmem) (by simp)
  | cons first rest => exact hindexed.vacant_free (by simp [hvacant])

theorem ne_nextId (hindexed : g.Indexed) {node : NodeId} (hmem : node ∈ g.order) :
    node ≠ g.nextId := fun heq => nextId_notMem hindexed (heq ▸ hmem)

theorem order_insertAt :
    (g.insertAt instruction position).1.order = g.order.insertIdx position g.nextId := by
  unfold order
  rw [nodes_insertAt, map_insertIdx]

theorem mem_order_insertAt (hposition : position ≤ g.size) :
    other ∈ (g.insertAt instruction position).1.order ↔ other = g.nextId ∨ other ∈ g.order := by
  rw [order_insertAt, mem_insertIdx (by simpa [order, size] using hposition)]

theorem Indexed.insertAt (hindexed : g.Indexed) (hposition : position ≤ g.size) :
    (g.insertAt instruction position).1.Indexed where
  nodup := by
    rw [order_insertAt]
    refine (perm_insertIdx _ _ (by simpa [order, size] using hposition)).nodup_iff.2 ?_
    exact nodup_cons.2 ⟨nextId_notMem hindexed, hindexed.nodup⟩
  vacant_nodup := by
    have hnodup := hindexed.vacant_nodup
    unfold Graph.insertAt
    cases hvacant : g.vacant with
    | nil => simp
    | cons first rest => exact (nodup_cons.1 (hvacant ▸ hnodup)).2
  vacant_lt := by
    intro node hnode
    unfold Graph.insertAt at hnode ⊢
    cases hvacant : g.vacant with
    | nil => simp [hvacant] at hnode
    | cons first rest =>
      simp only [hvacant] at hnode ⊢
      exact hindexed.vacant_lt node (by simp [hvacant, hnode])
  mem_order_iff := by
    intro node
    rw [mem_order_insertAt hposition, hindexed.mem_order_iff, nextId]
    unfold Graph.insertAt
    cases hvacant : g.vacant with
    | nil =>
      simp only [headD_nil, not_mem_nil, not_false_eq_true, and_true]
      exact or_comm.trans Nat.lt_succ_iff_lt_or_eq.symm
    | cons first rest =>
      have hfirst : first < g.fresh := hindexed.vacant_lt first (by simp [hvacant])
      have hrest : first ∉ rest := (nodup_cons.1 (hvacant ▸ hindexed.vacant_nodup)).1
      by_cases heq : node = first
      · simp [heq, hfirst, hrest]
      · simp [heq]

theorem find?_insertAt (hindexed : g.Indexed) (hposition : position ≤ g.size) (other : NodeId) :
    (g.insertAt instruction position).1.find? other =
      if other = g.nextId then some instruction else g.find? other := by
  have hstored : (g.insertAt instruction position).1.order.Nodup :=
    (hindexed.insertAt hposition).nodup
  have hnodes : ∀ entry, entry ∈ (g.insertAt instruction position).1.nodes ↔
      entry = (g.nextId, instruction) ∨ entry ∈ g.nodes := by
    intro entry
    rw [nodes_insertAt, mem_insertIdx (by simpa [size] using hposition)]
  split_ifs with heq
  · rw [find?_eq_some_iff hstored, hnodes]
    exact .inl (by rw [heq])
  · ext found
    rw [find?_eq_some_iff hstored, hnodes, find?_eq_some_iff hindexed.nodup]
    simp [heq]

end InsertAt

section Erase

variable {g : Graph α} {node : NodeId}

theorem find?_erase (other : NodeId) :
    (g.erase node).find? other = if other = node then none else g.find? other := by
  unfold erase
  by_cases hlive : g.contains node = true
  · rw [if_pos hlive]
    unfold find?
    rw [find?_filter]
    split_ifs with heq
    · subst heq
      simp [find?_eq_none]
    · congr 2
      funext entry
      by_cases hkey : entry.1 = other
      · simp [hkey, heq]
      · simp [hkey]
  · rw [if_neg hlive]
    split_ifs with heq
    · subst heq
      rwa [find?_eq_none_iff, ← contains_iff]
    · rfl

theorem remove_eq_ok_iff :
    g.remove node = .ok h ↔ g.hasConsumers node = false ∧ h = g.erase node := by
  unfold remove
  cases g.hasConsumers node <;> simp [Outcome.refuse, Except.pure_eq_ok, eq_comm]

theorem mem_order_erase :
    other ∈ (g.erase node).order ↔ other ≠ node ∧ other ∈ g.order := by
  rw [← find?_isSome_iff, find?_erase, ← find?_isSome_iff]
  split_ifs with heq <;> simp [heq]

theorem order_erase_sublist : (g.erase node).order.Sublist g.order := by
  unfold erase
  split_ifs
  · exact filter_sublist.map _
  · exact .refl _

theorem Indexed.erase (hindexed : g.Indexed) : (g.erase node).Indexed := by
  have hsub : (g.erase node).order.Sublist g.order := order_erase_sublist
  by_cases hlive : g.contains node = true
  · have hvacant : (g.erase node).vacant = node :: g.vacant := by simp [Graph.erase, hlive]
    have hfresh : (g.erase node).fresh = g.fresh := by simp [Graph.erase, hlive]
    have hmem : node ∈ g.order := contains_iff.1 hlive
    refine ⟨hindexed.nodup.sublist hsub, ?_, ?_, ?_⟩
    · rw [hvacant]
      exact nodup_cons.2 ⟨fun h => hindexed.vacant_free h hmem, hindexed.vacant_nodup⟩
    · rw [hvacant, hfresh]
      intro other hother
      rcases mem_cons.1 hother with rfl | hother
      · exact hindexed.order_lt hmem
      · exact hindexed.vacant_lt other hother
    · intro other
      rw [mem_order_erase, hvacant, hfresh, hindexed.mem_order_iff, mem_cons, not_or]
      exact and_left_comm
  · simpa [Graph.erase, hlive] using hindexed

end Erase

theorem appendPosition_le (g : Graph α) : g.appendPosition ≤ g.size := by
  unfold appendPosition
  split_ifs <;> omega

end Graph

end TensorGraph
