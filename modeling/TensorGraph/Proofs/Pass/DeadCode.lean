import TensorGraph.Proofs.Pass.Steps

/-!
# Graphs without dead code

Taking out a spare node can only make its inputs spare, and those are taken out after it. So dropping dead
code leaves no spare node.
-/

namespace TensorGraph

open List

namespace Graph

variable {α : Type} {g h : Graph α} {node other : NodeId}

/-- No node is spare. -/
def Clean (g : Graph α) : Prop := ∀ node, ¬ g.Spare node

/-- What becomes spare when a node is taken out, it read. -/
theorem Spare.of_erase (hnodup : g.order.Nodup) (hkept : g.isKept node = false)
    (hspare : (g.erase node).Spare other) :
    other ≠ node ∧ (g.Spare other ∨ other ∈ g.inputs node) := by
  obtain ⟨hunread, hother⟩ := hspare
  have hne := (mem_order_erase.1 (mem_order_of_isKept hother)).1
  rw [isKept, last?_erase hkept, find?_erase, if_neg hne] at hother
  refine ⟨hne, or_iff_not_imp_right.2 fun hnot => ⟨?_, hother⟩⟩
  by_contra hread
  obtain ⟨reader, stored, hfound, hreads⟩ := exists_reader hnodup (by simpa using hread)
  by_cases hreader : reader = node
  · subst hreader
    rw [inputs_of_find? hfound] at hnot
    exact hnot hreads
  · rw [hasConsumers_eq_false_iff] at hunread
    have hstays : (g.erase node).find? reader = some stored := by
      rw [find?_erase, if_neg hreader, hfound]
    exact hunread _ (mem_nodes_of_find? hstays) hreads

/-- After unused nodes were taken out from some nodes on, no node is spare that was not so before, and none
of these nodes is. -/
theorem Removes.spare {nodes : List NodeId} {count : Nat} (hremoves : Removes g nodes count h)
    (hnodup : g.order.Nodup) (hspare : h.Spare other) :
    g.Spare other ∧ other ∉ nodes := by
  induction hremoves with
  | done => exact ⟨hspare, by simp⟩
  | stays hstays _ ih =>
    obtain ⟨hbefore, hnot⟩ := ih hnodup hspare
    refine ⟨hbefore, not_mem_cons_of_ne_of_not_mem ?_ hnot⟩
    rintro rfl
    exact hstays hbefore
  | erase hgone _ ih =>
    obtain ⟨hbefore, hnot⟩ := ih (hnodup.sublist order_erase_sublist) hspare
    rw [mem_append, not_or, mem_eraseDups] at hnot
    obtain ⟨hne, hcases⟩ := hbefore.of_erase hnodup hgone.2
    exact ⟨hcases.resolve_right hnot.1, not_mem_cons_of_ne_of_not_mem hne hnot.2⟩

end Graph

namespace Pass

open Graph Revision

variable {α : Type} {g h : Graph α}

/-- No node is spare after dead code was dropped. -/
theorem dropDeadCode_clean {w final : Workspace α} {total : Nat} (hnodup : w.graph.order.Nodup)
    (hrun : dropDeadCode w = .ok total final) : final.graph.Clean := by
  obtain ⟨_, h, hrun', hremoves⟩ := dropDeadCode_removes w.graph w.log
  cases hrun.symm.trans hrun'
  intro node hspare
  obtain ⟨hbefore, hnot⟩ := hremoves.spare hnodup hspare
  exact hnot (mem_reverse.2 (mem_order_of_isKept hbefore.2))

/-- Nothing but literals in front of the first node is new. -/
structure Padded (g h : Graph α) : Prop where
  name : h.name = g.name
  /-- The other nodes are the same ones. A graph without nodes stays so. -/
  nodes : ∃ front, h.nodes = front ++ g.nodes ∧
    (∀ entry ∈ front, entry.2.op.isLiteral = true ∧ entry.2.inputs = []) ∧
    (g.nodes = [] → front = [])

theorem padded_self (g : Graph α) : Padded g g := ⟨rfl, [], rfl, by simp, fun _ => rfl⟩

theorem Padded.embeds {k : Graph α} (hpadded : Padded g h) (hembeds : Embeds h k) : Padded g k := by
  induction hembeds with
  | refl => exact hpadded
  | @tail h _ _ hembed ih =>
    obtain ⟨hnonempty, value, rfl⟩ := hembed
    obtain ⟨hname, front, hnodes, hfront, hempty⟩ := ih
    refine ⟨?_, (h.nextId, ⟨.literal value, value.shape, [], []⟩) :: front, ?_, ?_, ?_⟩
    · rw [← hname, addLiteral, insertAt]
      cases h.vacant <;> rfl
    · rw [addLiteral, nodes_insertAt, hnodes]
      rfl
    · rw [forall_mem_cons]
      exact ⟨⟨rfl, rfl⟩, hfront⟩
    · intro hg
      rw [order, hnodes, hempty hg, hg] at hnonempty
      exact absurd rfl hnonempty

section Padded

variable (hpadded : Padded g h) (hnodup : h.order.Nodup)

include hpadded hnodup

/-- Whether a node stays does not depend on the literals in front. -/
theorem Padded.isKept_eq {node : NodeId} (hlive : node ∈ g.order) : h.isKept node = g.isKept node := by
  obtain ⟨-, front, hnodes, -, -⟩ := hpadded
  rw [order, hnodes, map_append] at hnodup
  have hnew : front.find? (·.1 == node) = none := by
    rw [find?_eq_none]
    intro entry hentry heq
    have hmem : node ∈ front.map (·.1) := mem_map.2 ⟨entry, hentry, by simpa using heq⟩
    exact (nodup_append.1 hnodup).2.2 node hmem node hlive rfl
  have hlast : h.last? = g.last? := by
    rw [last?, order, hnodes, map_append, ← order,
      getLast?_append_of_ne_nil _ (ne_nil_of_mem hlive), last?]
  have hfind : h.find? node = g.find? node := by
    rw [Graph.find?, hnodes, find?_append, hnew]
    rfl
  rw [isKept, isKept, hlast, hfind]

/-- Behind the literals is a clean graph, so only they can be spare. -/
theorem Padded.erase (hclean : g.Clean) {node : NodeId} (hspare : h.Spare node) :
    Padded g (h.erase node) := by
  have hnew : node ∉ g.order := by
    intro hlive
    apply hclean node
    rw [Spare, ← hpadded.isKept_eq hnodup hlive]
    refine ⟨?_, hspare.2⟩
    obtain ⟨-, front, hnodes, -, -⟩ := hpadded
    rw [hasConsumers_eq_false_iff]
    intro entry hentry
    exact hasConsumers_eq_false_iff.1 hspare.1 entry (hnodes ▸ mem_append_right _ hentry)
  obtain ⟨hname, front, hnodes, hfront, hempty⟩ := hpadded
  rw [Graph.erase, if_pos (Graph.contains_iff.2 (mem_order_of_isKept hspare.2))]
  refine ⟨hname, front.filter (·.1 != node), ?_, ?_, ?_⟩
  · have hkept : g.nodes.filter (·.1 != node) = g.nodes := by
      rw [filter_eq_self]
      intro entry hentry
      rw [bne_iff_ne]
      rintro rfl
      exact hnew (mem_map_of_mem hentry)
    show h.nodes.filter (·.1 != node) = _
    rw [hnodes, filter_append, hkept]
  · exact fun entry hentry => hfront entry (mem_of_mem_filter hentry)
  · intro hg
    rw [hempty hg]
    rfl

/-- A clean graph is padded with nothing. -/
theorem Padded.nodes_eq (hcoherent : g.Coherent) (hclean : h.Clean) : h.nodes = g.nodes := by
  obtain ⟨-, front, hnodes, hfront, hempty⟩ := hpadded
  rw [hnodes, append_left_eq_self, eq_nil_iff_forall_not_mem]
  rintro ⟨node, stored⟩ hentry
  have hfound : h.find? node = some stored :=
    (find?_eq_some_iff hnodup).2 (hnodes ▸ mem_append_left _ hentry)
  rw [order, hnodes, map_append] at hnodup
  have hnew : node ∉ g.order := fun hlive =>
    (nodup_append.1 hnodup).2.2 node (mem_map_of_mem hentry) node hlive rfl
  apply hclean node
  constructor
  · rw [hasConsumers_eq_false_iff, hnodes]
    intro entry hmem hreads
    rcases mem_append.1 hmem with hmem | hmem
    · rw [(hfront entry hmem).2] at hreads
      cases hreads
    · have hreader := (find?_eq_some_iff hcoherent.nodup).2 hmem
      exact hnew ((hcoherent.settled _ _ hreader).input_mem_order hreads)
  · have hnonempty : g.nodes ≠ [] := by
      intro hg
      rw [hempty hg] at hentry
      cases hentry
    rw [isKept, hfound, Bool.or_eq_false_iff, beq_eq_false_iff_ne]
    constructor
    · intro hlast
      rw [last?, order, hnodes, map_append,
        getLast?_append_of_ne_nil _ (by simpa using hnonempty)] at hlast
      exact hnew (mem_of_getLast? hlast)
    · have hliteral := (hfront _ hentry).1
      cases hop : stored.op with
      | literal value => simp [hop, Operator.isParameter, Operator.isReturns]
      | _ =>
        rw [hop] at hliteral
        cases hliteral

end Padded

end Pass

end TensorGraph
