import TensorGraph.Proofs.Graph.Acyclicity
import TensorGraph.Proofs.Pass.DeadCode

/-!
# Which nodes are dead

A node is needed if it is a parameter or if readers lead from it to a node that ends the graph or to the
last node. In an acyclic graph nothing else is left.
-/

namespace TensorGraph

open Pass List

namespace Graph

variable {α : Type} {g h k : Graph α} {node other : NodeId} {count : Nat}

/-- A node that readers need not lead away from: it ends the graph, or it is the last one. -/
def IsFinal (g : Graph α) (node : NodeId) : Prop :=
  g.last? = some node ∨ ∃ stored, g.find? node = some stored ∧ stored.op.isReturns = true

/-- A node that has to stay. -/
inductive Needed (g : Graph α) (node : NodeId) : Prop
  | parameter {stored : Instruction α (Graph α)} (hfound : g.find? node = some stored)
      (hop : stored.op.isParameter = true) : Needed g node
  /-- So is what a final node is computed from. -/
  | feeds {final : NodeId} (hfinal : g.IsFinal final) (hfeeds : Feeds g node final) : Needed g node

theorem isKept_eq_true_iff (hlive : node ∈ g.order) :
    g.isKept node = true ↔ g.IsFinal node ∨
      ∃ stored, g.find? node = some stored ∧ stored.op.isParameter = true := by
  obtain ⟨stored, hfound⟩ := exists_find?_of_mem_order hlive
  simp only [isKept, IsFinal, hfound, Bool.or_eq_true, beq_iff_eq, Option.some.injEq, exists_eq_left']
  tauto

theorem IsFinal.mem_order (hfinal : g.IsFinal node) : node ∈ g.order := by
  rcases hfinal with hlast | ⟨stored, hfound, -⟩
  · exact mem_of_getLast? hlast
  · exact mem_order_of_find? hfound

theorem IsFinal.isKept (hfinal : g.IsFinal node) : g.isKept node = true :=
  (isKept_eq_true_iff hfinal.mem_order).2 (.inl hfinal)

theorem Needed.mem_order (hcoherent : g.Coherent) (hneeded : g.Needed node) : node ∈ g.order := by
  cases hneeded with
  | parameter hfound _ => exact mem_order_of_find? hfound
  | feeds hfinal hfeeds =>
    rcases hfeeds.cases_head with rfl | ⟨reader, hreads, -⟩
    · exact hfinal.mem_order
    · exact hcoherent.mem_order_of_mem_inputs hreads

/-- A parameter reads nothing. -/
theorem Coherent.inputs_eq_nil (hcoherent : g.Coherent) {stored : Stored α}
    (hfound : g.find? node = some stored) (hop : stored.op.isParameter = true) : stored.inputs = [] := by
  obtain ⟨shapes, hshapes, hinfer⟩ := hcoherent.settled node stored hfound
  obtain ⟨name, shape, hop⟩ := (isParameter_cases stored.op).resolve_right (by simp [hop])
  rw [hop] at hinfer
  cases shapes with
  | nil => exact forall₂_nil_right_iff.1 (shapes_eq_ok_iff.1 hshapes)
  | cons first rest => cases hinfer

/-- In a clean graph there is nothing to take out. -/
theorem Clean.eq_of_prunes (hclean : g.Clean) (hprunes : Prunes g count h) : count = 0 ∧ h = g := by
  cases hprunes with
  | refl => exact ⟨rfl, rfl⟩
  | step hspare _ => exact absurd hspare (hclean _)

theorem extends_erase (g : Graph α) (node : NodeId) : (g.erase node).Extends g := by
  intro other stored hfound
  rw [find?_erase] at hfound
  split_ifs at hfound
  exact hfound

theorem nodes_erase (hlive : node ∈ g.order) : (g.erase node).nodes = g.nodes.filter (·.1 != node) := by
  rw [erase, if_pos (Graph.contains_iff.2 hlive)]

theorem size_erase (hnodup : g.order.Nodup) (hlive : node ∈ g.order) :
    (g.erase node).size + 1 = g.size := by
  have hlength : (g.order.filter (· != node)).length + 1 = g.order.length := by
    rw [← hnodup.erase_eq_filter, length_erase_of_mem hlive]
    exact Nat.sub_add_cancel (length_pos_of_mem hlive)
  rwa [← order_erase, order, order, length_map, length_map] at hlength

namespace Prunes

variable (hprunes : Prunes g count h)

include hprunes

theorem coherent (hcoherent : g.Coherent) : h.Coherent :=
  hprunes.invariant (fun hbefore hunread _ => hbefore.erase hunread) hcoherent

theorem extends_start : h.Extends g := by
  induction hprunes with
  | refl g => exact .refl g
  | @step g _ node _ _ _ ih => exact ih.trans (extends_erase g node)

theorem nodes_sublist : h.nodes.Sublist g.nodes := by
  induction hprunes with
  | refl => exact .refl _
  | step hspare _ ih =>
    rw [nodes_erase (mem_order_of_isKept hspare.2)] at ih
    exact ih.trans filter_sublist

theorem last?_eq : h.last? = g.last? := by
  induction hprunes with
  | refl => rfl
  | step hspare _ ih => rw [ih, last?_erase hspare.2]

theorem results_eq (hcoherent : g.Coherent) : h.results = g.results := by
  induction hprunes with
  | refl => rfl
  | step hspare _ ih =>
    obtain ⟨later, hlater, hbefore⟩ := exists_later_of_isKept hcoherent.toIndexed hspare.2
    rw [ih (hcoherent.erase hspare.1), results_erase hcoherent.toIndexed hbefore hlater]

theorem size_add (hcoherent : g.Coherent) : h.size + count = g.size := by
  induction hprunes with
  | refl => rfl
  | step hspare _ ih =>
    rw [← size_erase hcoherent.nodup (mem_order_of_isKept hspare.2),
      ← ih (hcoherent.erase hspare.1), Nat.add_assoc]

end Prunes

/-- Nothing on the way to a node that stays is spare. -/
theorem feeds_erase {final : NodeId} (hspare : g.Spare other) (hfinal : final ≠ other)
    (hfeeds : Feeds g node final) : node ≠ other ∧ Feeds (g.erase other) node final := by
  induction hfeeds using Relation.ReflTransGen.head_induction_on with
  | refl => exact ⟨hfinal, .refl⟩
  | @head input reader hreads _ ih =>
    obtain ⟨hne, hrest⟩ := ih
    obtain ⟨stored, hfound, hmem⟩ := exists_find?_of_mem_inputs hreads
    constructor
    · rintro rfl
      exact hasConsumers_eq_false_iff.1 hspare.1 _ (mem_nodes_of_find? hfound) hmem
    · have hstays : (g.erase other).find? reader = some stored := by
        rw [find?_erase, if_neg hne, hfound]
      exact .head (by rwa [inputs_of_find? hstays]) hrest

theorem Needed.erase (hneeded : g.Needed node) (hspare : g.Spare other) :
    (g.erase other).Needed node := by
  have hkept : ∀ kept, g.isKept kept = true → kept ≠ other := by
    rintro kept hkept rfl
    rw [hspare.2] at hkept
    cases hkept
  cases hneeded with
  | parameter hfound hop =>
    have hne := hkept node
      ((isKept_eq_true_iff (mem_order_of_find? hfound)).2 (.inr ⟨_, hfound, hop⟩))
    exact .parameter ((find?_erase node).trans ((if_neg hne).trans hfound)) hop
  | @feeds final hfinal hfeeds =>
    have hne := hkept final hfinal.isKept
    refine .feeds ?_ (feeds_erase hspare hne hfeeds).2
    rcases hfinal with hlast | ⟨stored, hfound, hop⟩
    · exact .inl ((last?_erase hspare.2).trans hlast)
    · exact .inr ⟨stored, (find?_erase final).trans ((if_neg hne).trans hfound), hop⟩

/-- What is needed in a part with the same last node is needed in the whole. -/
theorem Needed.of_extends (hextends : h.Extends g) (hlast : h.last? = g.last?)
    (hneeded : h.Needed node) : g.Needed node := by
  cases hneeded with
  | parameter hfound hop => exact .parameter (hextends hfound) hop
  | @feeds final hfinal hfeeds =>
    have hreads : ∀ input reader, input ∈ h.inputs reader → input ∈ g.inputs reader := by
      intro input reader hinput
      obtain ⟨stored, hfound, hmem⟩ := exists_find?_of_mem_inputs hinput
      rwa [inputs_of_find? (hextends hfound)]
    refine @Needed.feeds _ g node final ?_ (Relation.ReflTransGen.mono hreads _ _ hfeeds)
    rcases hfinal with hfinal | ⟨stored, hfound, hop⟩
    · exact .inl (hlast ▸ hfinal)
    · exact .inr ⟨stored, hextends hfound, hop⟩

/-- Needed nodes are never taken out. -/
theorem Prunes.mem_order_of_needed (hprunes : Prunes g count h) (hcoherent : g.Coherent)
    (hneeded : g.Needed node) : node ∈ h.order := by
  induction hprunes with
  | refl => exact hneeded.mem_order hcoherent
  | step hspare _ ih => exact ih (hcoherent.erase hspare.1) (hneeded.erase hspare)

/-- Without spare nodes and cycles, following readers ends at a node that stays although nothing reads
it. -/
theorem Clean.needed (hclean : g.Clean) (hcoherent : g.Coherent) (hacyclic : g.Acyclic)
    (hlive : node ∈ g.order) : g.Needed node := by
  obtain ⟨rank, hranks⟩ := hacyclic.exists_ranks hcoherent.mem_order_of_mem_inputs
  induction hheight : g.size - rank node using Nat.strongRecOn generalizing node with
  | _ height ih =>
    subst hheight
    cases hread : g.hasConsumers node with
    | true =>
      obtain ⟨reader, stored, hfound, hmem⟩ := exists_reader hcoherent.nodup hread
      have hreads : node ∈ g.inputs reader := by rwa [inputs_of_find? hfound]
      have hlower := hranks.input_lt hreads
      have hbelow := hranks.lt_size reader (mem_order_of_find? hfound)
      cases ih _ (by omega) (mem_order_of_find? hfound) rfl with
      | parameter hfound' hop =>
        cases hfound.symm.trans hfound'
        rw [hcoherent.inputs_eq_nil hfound hop] at hmem
        cases hmem
      | feeds hfinal hfeeds => exact .feeds hfinal (.head hreads hfeeds)
    | false =>
      have hkept : g.isKept node = true := by
        by_contra hfree
        exact hclean node ⟨hread, Bool.not_eq_true _ ▸ hfree⟩
      rcases (isKept_eq_true_iff hlive).1 hkept with hfinal | ⟨stored, hfound, hop⟩
      · exact .feeds hfinal .refl
      · exact .parameter hfound hop

end Graph

namespace Pass

open Graph

variable {α : Type}

/-- Dropping dead code leaves exactly the needed nodes of an acyclic graph, whatever order they were
inserted in. They keep their instructions and their order. The number of nodes taken out is given, another
run takes out nothing, and for all values of the parameters the graph returns what it returned before, or
fails as it failed before. -/
theorem dropDeadCode_leaves_needed [Scalar α] {g : Graph α} (hcoherent : g.Coherent)
    (hacyclic : g.Acyclic) (log : List LogLine) :
    ∃ total h, dropDeadCode ⟨g, log⟩ = .ok total ⟨h, log⟩ ∧
      (∀ node, node ∈ h.order ↔ g.Needed node) ∧
      h.nodes.Sublist g.nodes ∧ h.size + total = g.size ∧
      dropDeadCode ⟨h, log⟩ = .ok 0 ⟨h, log⟩ ∧
      ∀ bindings, h.run bindings = g.run bindings := by
  obtain ⟨total, h, hrun, hremoves⟩ := dropDeadCode_removes g log
  have hprunes := hremoves.prunes
  have hcoherent' := hprunes.coherent hcoherent
  have hacyclic' := hacyclic.of_extends hprunes.extends_start
  have hclean : h.Clean := dropDeadCode_clean hcoherent.nodup hrun
  have hsize := hprunes.size_add hcoherent
  refine ⟨total, h, hrun, fun node => ⟨fun hlive => ?_, hprunes.mem_order_of_needed hcoherent⟩,
    hprunes.nodes_sublist, hsize, ?_, ?_⟩
  · exact (hclean.needed hcoherent' hacyclic' hlive).of_extends hprunes.extends_start hprunes.last?_eq
  · obtain ⟨total', h', hrun', hremoves'⟩ := dropDeadCode_removes h log
    obtain ⟨rfl, rfl⟩ := hclean.eq_of_prunes hremoves'.prunes
    exact hrun'
  · exact hacyclic'.run_eq_of_extends hcoherent' hprunes.extends_start (by omega)
      (hprunes.results_eq hcoherent)

end Pass

/-- A node reads one that was inserted after it, and two nodes lead nowhere. -/
def outOfOrder : Graph Float32 :=
  ⟨"",
    [(0, ⟨.parameter "a" (.strided .float32 [⟨2, 1⟩]), .strided .float32 [⟨2, 1⟩], [], []⟩),
     (1, ⟨.unary .exp, .strided .float32 [⟨2, 1⟩], [2], []⟩),
     (2, ⟨.unary .neg, .strided .float32 [⟨2, 1⟩], [0], []⟩),
     (3, ⟨.unary .relu, .strided .float32 [⟨2, 1⟩], [1], []⟩),
     (4, ⟨.binary .add, .strided .float32 [⟨2, 1⟩], [3, 2], []⟩),
     (5, ⟨.unary .neg, .strided .float32 [⟨2, 1⟩], [1], []⟩)],
    [], 6⟩

theorem acyclic_outOfOrder : outOfOrder.Acyclic := by
  have hlower : ∀ entry ∈ outOfOrder.nodes, ∀ input ∈ entry.2.inputs,
      [0, 2, 1, 3, 4, 5].idxOf input < [0, 2, 1, 3, 4, 5].idxOf entry.1 := by decide
  exact Graph.acyclic_of_nodes hlower

theorem Pass.dropDeadCode_outOfOrder :
    ∃ total h, dropDeadCode ⟨outOfOrder, []⟩ = .ok total ⟨h, []⟩ ∧ 2 ∈ h.order ∧ 4 ∉ h.order := by
  obtain ⟨total, h, hrun, hneeded, -⟩ :=
    dropDeadCode_leaves_needed (by decide) acyclic_outOfOrder []
  refine ⟨total, h, hrun, (hneeded 2).2 ?_, fun hlive => ?_⟩
  · have hfirst : 2 ∈ outOfOrder.inputs 1 := by decide
    have hsecond : 1 ∈ outOfOrder.inputs 5 := by decide
    exact .feeds (.inl rfl) (.head hfirst (.single hsecond))
  · -- Nothing reads the node, and it is none of those that stay then.
    cases (hneeded 4).1 hlive with
    | parameter hfound hop =>
      cases hfound
      cases hop
    | @feeds final hfinal hfeeds =>
      have hmem : final ∈ [4] := mem_of_feeds (by decide) mem_cons_self hfeeds
      obtain rfl := mem_singleton.1 hmem
      rcases hfinal with hlast | ⟨stored, hfound, hop⟩
      · cases hlast
      · cases hfound
        cases hop

end TensorGraph
