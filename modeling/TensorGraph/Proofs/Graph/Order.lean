import Mathlib.Data.List.Basic
import TensorGraph.Proofs.Graph.History

/-!
# The order of nodes

A graph is in order when every node comes after its inputs. Edits keep the order, and only rerouting can
change what is returned.
-/

namespace TensorGraph

open List

/-- Leaving items out of a list does not change which of two others comes first. -/
theorem idxOf_filter_lt {β : Type} [DecidableEq β] {keep : β → Bool} {first second : β}
    {items : List β} (hbefore : items.idxOf first < items.idxOf second) (hfirst : keep first = true)
    (hsecond : keep second = true) :
    (items.filter keep).idxOf first < (items.filter keep).idxOf second := by
  induction items with
  | nil => simp at hbefore
  | cons item items ih =>
    by_cases hitem : item = second
    · subst hitem
      rw [idxOf_cons_self] at hbefore
      exact absurd hbefore (Nat.not_lt_zero _)
    by_cases hitem' : item = first
    · subst hitem'
      rw [filter_cons_of_pos hfirst, idxOf_cons_self, idxOf_cons_ne _ hitem]
      exact Nat.succ_pos _
    · rw [idxOf_cons_ne _ hitem, idxOf_cons_ne _ hitem', Nat.succ_lt_succ_iff] at hbefore
      rw [filter_cons]
      split_ifs
      · rw [idxOf_cons_ne _ hitem, idxOf_cons_ne _ hitem', Nat.succ_lt_succ_iff]
        exact ih hbefore
      · exact ih hbefore

theorem getLast?_filter {β : Type} {keep : β → Bool} {items : List β} {last : β}
    (hlast : items.getLast? = some last) (hkeep : keep last = true) :
    (items.filter keep).getLast? = some last := by
  obtain ⟨front, rfl⟩ := getLast?_eq_some_iff.1 hlast
  rw [filter_append, filter_cons_of_pos hkeep, filter_nil,
    getLast?_append_of_ne_nil _ (cons_ne_nil _ _), getLast?_singleton]

namespace Graph

variable {α : Type} {g h : Graph α} {node last other : NodeId} {stored instruction : Stored α}

/-- Every node comes after its inputs. -/
def Ordered (g : Graph α) : Prop :=
  ∀ ⦃node instruction⦄, g.find? node = some instruction →
    ∀ input ∈ instruction.inputs, g.order.idxOf input < g.order.idxOf node

instance (g : Graph α) : Decidable g.Ordered :=
  inferInstanceAs (Decidable (∀ node stored, g.find? node = some stored →
    ∀ input ∈ stored.inputs, g.order.idxOf input < g.order.idxOf node))

theorem Ordered.idxOf_lt (hordered : g.Ordered) {input : NodeId} (hinput : input ∈ g.inputs node) :
    g.order.idxOf input < g.order.idxOf node := by
  obtain ⟨instruction, hfound, hreads⟩ := exists_find?_of_mem_inputs hinput
  exact hordered hfound input hreads

theorem idxOf_lt_size (hfound : g.find? node = some instruction) : g.order.idxOf node < g.size := by
  have hlt := idxOf_lt_length_iff.2 (mem_order_of_find? hfound)
  rwa [order, length_map] at hlt

/-! ## What is returned -/

theorem results_of_last_none (hlast : g.last? = none) : g.results = [] := by
  have hnodes : g.nodes = [] := by
    rw [last?, order, getLast?_eq_none_iff, map_eq_nil_iff] at hlast
    exact hlast
  rw [results, hnodes]
  rfl

theorem results_of_last (hindexed : g.Indexed)
    (hlast : g.last? = some last) (hfound : g.find? last = some instruction) :
    g.results = if instruction.op.isReturns then instruction.inputs else [last] := by
  rw [last?, order, getLast?_map, Option.map_eq_some_iff] at hlast
  obtain ⟨⟨id, stored⟩, hnodes, rfl⟩ := hlast
  have hstored := (find?_eq_some_iff hindexed.nodup).2 (mem_of_getLast? hnodes)
  cases hstored.symm.trans hfound
  rw [results, hnodes]

theorem exists_of_last (hlast : g.last? = some last) :
    ∃ instruction, g.find? last = some instruction :=
  exists_find?_of_mem_order (mem_of_getLast? hlast)

/-- No node comes after the last one. -/
theorem idxOf_le_last (hindexed : g.Indexed) (hlast : g.last? = some last) (hnode : node ∈ g.order) :
    g.order.idxOf node ≤ g.order.idxOf last := by
  obtain ⟨front, hfront⟩ := getLast?_eq_some_iff.1 hlast
  have hnotMem : last ∉ front := by
    have hnodup := hindexed.nodup
    rw [hfront, nodup_append_comm] at hnodup
    exact (nodup_cons.1 hnodup).1
  have hlt := idxOf_lt_length_iff.2 hnode
  rw [hfront, length_append, length_singleton] at hlt
  rw [hfront, idxOf_append_of_notMem hnotMem, idxOf_cons_self]
  exact Nat.le_of_lt_succ hlt

/-- Nothing reads the last node. -/
theorem Ordered.notMem_inputs_last (hordered : g.Ordered) (hindexed : g.Indexed)
    (hlast : g.last? = some last) (node : NodeId) : last ∉ g.inputs node := by
  intro hreads
  obtain ⟨instruction, hfound, -⟩ := exists_find?_of_mem_inputs hreads
  have hle := idxOf_le_last hindexed hlast (mem_order_of_find? hfound)
  exact absurd (hordered.idxOf_lt hreads) (Nat.not_lt.2 hle)

theorem Coherent.mem_order_of_mem_results (hcoherent : g.Coherent) (hmem : node ∈ g.results) :
    node ∈ g.order := by
  cases hlast : g.last? with
  | none =>
    rw [results_of_last_none hlast] at hmem
    cases hmem
  | some last =>
    obtain ⟨stored, hfound⟩ := exists_of_last hlast
    rw [results_of_last hcoherent.toIndexed hlast hfound] at hmem
    split_ifs at hmem
    · exact (hcoherent.settled _ _ hfound).input_mem_order hmem
    · rw [mem_singleton.1 hmem]
      exact mem_order_of_find? hfound

/-- The shapes of the returned values are those of the nodes that are returned. -/
theorem Coherent.shapes_results (hcoherent : g.Coherent) :
    g.shapes g.results = .ok g.outputShapes := by
  have hlive : ∀ node ∈ g.results, node ∈ g.order := fun _ hmem =>
    hcoherent.mem_order_of_mem_results hmem
  unfold outputShapes
  generalize g.results = nodes at hlive
  induction nodes with
  | nil => rfl
  | cons node nodes ih =>
    rw [forall_mem_cons] at hlive
    obtain ⟨instruction, hfound⟩ := exists_find?_of_mem_order hlive.1
    rw [Graph.shapes, mapM_cons, shape_of_find? hfound, ok_bind,
      ← Graph.shapes, ih hlive.2, filterMap_cons, hfound]
    rfl

theorem Coherent.outputShapes_eq (hg : g.Coherent) (hh : h.Coherent)
    (hshapes : h.shapes h.results = g.shapes g.results) : h.outputShapes = g.outputShapes := by
  rw [hg.shapes_results, hh.shapes_results] at hshapes
  exact Except.ok.inj hshapes

theorem exists_find?_of_order_eq (horder : h.order = g.order) {node : NodeId}
    (hfound : h.find? node = some stored) :
    ∃ before, g.find? node = some before :=
  exists_find?_of_mem_order (horder ▸ mem_order_of_find? hfound)

/-! ## Rerouting -/

section Reroute

variable {node old new : NodeId} (hrun : Edit.reroute node old new g = .ok () h)

include hrun

theorem reroute_order : h.order = g.order := by
  obtain ⟨_, _, -, -, -, hrun⟩ := Edit.reroute_eq_ok_iff.1 hrun
  rw [(Edit.install_sameWiring hrun).order, order_modifyNode]

/-- Where an instruction of a rerouted graph comes from. -/
theorem exists_of_reroute (hfound : h.find? other = some stored) :
    ∃ before, g.find? other = some before ∧ stored.op = before.op ∧
      stored.inputs = (if other = node then Edit.redirect old new before.inputs
        else before.inputs) ∧ stored.modules = before.modules := by
  obtain ⟨before, hbefore⟩ := exists_find?_of_order_eq (reroute_order hrun) hfound
  obtain ⟨after, hafter, hsame⟩ := Edit.reroute_find? hrun hbefore
  cases hfound.symm.trans hafter
  exact ⟨before, hbefore, hsame⟩

theorem Ordered.reroute (hordered : g.Ordered) (hbefore : g.order.idxOf new < g.order.idxOf old) :
    h.Ordered := by
  intro other stored hfound input hinput
  obtain ⟨before, hfound', -, hinputs, -⟩ := exists_of_reroute hrun hfound
  rw [reroute_order hrun]
  rw [hinputs] at hinput
  split_ifs at hinput with heq
  · obtain ⟨input', hinput', rfl⟩ := mem_map.1 hinput
    have hlt := hordered hfound' input' hinput'
    split_ifs with hold
    · exact Nat.lt_trans hbefore (hold ▸ hlt)
    · exact hlt
  · exact hordered hfound' input hinput

/-- What is returned stays, or changes as the inputs of the node do, if it ends the graph. -/
theorem reroute_results (hindexed : g.Indexed) (hindexed' : h.Indexed) :
    h.results = g.results ∨ h.results = Edit.redirect old new g.results ∧
      ∀ stored, g.find? node = some stored → stored.op.isReturns = true := by
  have hsame : h.last? = g.last? := by rw [last?, last?, reroute_order hrun]
  cases hlast : g.last? with
  | none => exact .inl (by rw [results_of_last_none hlast, results_of_last_none (hsame.trans hlast)])
  | some last =>
    obtain ⟨before, hfound⟩ := exists_of_last hlast
    obtain ⟨stored, hstored, hop, hinputs, -⟩ := Edit.reroute_find? hrun hfound
    rw [results_of_last hindexed hlast hfound,
      results_of_last hindexed' (hsame.trans hlast) hstored, hop]
    split_ifs with hreturns
    · rw [hinputs]
      split_ifs with heq
      · refine .inr ⟨rfl, fun own hown => ?_⟩
        cases hfound.symm.trans (heq ▸ hown)
        exact hreturns
      · exact .inl rfl
    · exact .inl rfl

/-- Rerouting a node that does not end the graph leaves alone what is returned. -/
theorem reroute_results_of_reads (hindexed : g.Indexed) (hindexed' : h.Indexed)
    (hfound : g.find? node = some instruction)
    (hop : instruction.op.isReturns = false) : h.results = g.results := by
  refine (reroute_results hrun hindexed hindexed').resolve_right fun hends => ?_
  rw [hends.2 instruction hfound] at hop
  cases hop

omit hrun in
theorem shapes_redirect (hsame : g.shape new = g.shape old) (nodes : List NodeId) :
    g.shapes (Edit.redirect old new nodes) = g.shapes nodes := by
  unfold Graph.shapes Edit.redirect
  induction nodes with
  | nil => rfl
  | cons node nodes ih =>
    rw [map_cons, mapM_cons, mapM_cons, ih]
    split_ifs with heq
    · rw [hsame, heq]
    · rfl

/-- Pointing arguments at a node of the same shape changes no shape. -/
theorem reroute_shape_eq (hcoherent : g.Coherent) (hsame : g.shape new = g.shape old)
    (other : NodeId) : h.shape other = g.shape other := by
  obtain ⟨stored, shape, hfound, -, hinfer, hrun⟩ := Edit.reroute_eq_ok_iff.1 hrun
  obtain ⟨shapes, hshapes, hinfer⟩ := inferOver_eq_ok_iff.1 hinfer
  obtain ⟨shapes', hshapes', hinfer'⟩ := hcoherent.settled _ _ hfound
  rw [shapes_redirect hsame, hshapes'] at hshapes
  cases hshapes
  obtain rfl : stored.shape = shape := Except.ok.inj (hinfer'.symm.trans hinfer)
  rcases Edit.install_eq_ok_iff.1 hrun with ⟨-, rfl⟩ | ⟨hne, -⟩
  · by_cases heq : other = node
    · simp [Graph.shape, Graph.instruction, find?_modifyNode, heq, hfound]
    · exact shape_modifyNode_of_ne heq
  · exact absurd rfl hne

end Reroute

/-- Some readers of a node read another one. -/
structure Redirected (start : Graph α) (old new : NodeId) (g : Graph α) : Prop where
  order_eq : g.order = start.order
  /-- Only inputs change, and only from the one node to the other. -/
  found : ∀ ⦃node before⦄, start.find? node = some before →
    ∃ stored, g.find? node = some stored ∧ stored.op = before.op ∧
      (stored.inputs = before.inputs ∨ stored.inputs = Edit.redirect old new before.inputs) ∧
      stored.modules = before.modules

namespace Redirected

variable {start : Graph α} {old new : NodeId}

theorem refl (start : Graph α) (old new : NodeId) : Redirected start old new start :=
  ⟨rfl, fun _ before hfound => ⟨before, hfound, rfl, .inl rfl, rfl⟩⟩

theorem reroute {node : NodeId} (hredirected : Redirected start old new g) (hne : new ≠ old)
    (hrun : Edit.reroute node old new g = .ok () h) : Redirected start old new h where
  order_eq := (reroute_order hrun).trans hredirected.order_eq
  found := by
    intro other before hfound
    obtain ⟨middle, hmiddle, hop, hinputs, hmodules⟩ := hredirected.found hfound
    obtain ⟨stored, hstored, hop', hinputs', hmodules'⟩ := Edit.reroute_find? hrun hmiddle
    refine ⟨stored, hstored, hop'.trans hop, ?_, hmodules'.trans hmodules⟩
    rw [hinputs']
    split_ifs
    · rcases hinputs with heq | heq <;> rw [heq]
      · exact .inr rfl
      · exact .inr (Edit.redirect_redirect hne _)
    · exact hinputs

/-- Where an instruction of a redirected graph comes from. -/
theorem exists_of_found (hredirected : Redirected start old new g) {node : NodeId}
    (hfound : g.find? node = some stored) :
    ∃ before, start.find? node = some before ∧ stored.op = before.op ∧
      (stored.inputs = before.inputs ∨ stored.inputs = Edit.redirect old new before.inputs) ∧
      stored.modules = before.modules := by
  obtain ⟨before, hbefore⟩ := exists_find?_of_order_eq hredirected.order_eq hfound
  obtain ⟨after, hafter, hsame⟩ := hredirected.found hbefore
  cases hfound.symm.trans hafter
  exact ⟨before, hbefore, hsame⟩

end Redirected

/-! ## Another operator -/

section ReplaceOperator

variable {node : NodeId} {op : Operator α} {inputs : List NodeId} {modules : List (Graph α)}
  (hrun : Edit.replaceOperator node op inputs modules g = .ok () h)

include hrun

theorem replaceOperator_order : h.order = g.order := by
  obtain ⟨_, _, -, -, hrun⟩ := Edit.replaceOperator_eq_ok_iff.1 hrun
  rw [(Edit.install_sameWiring hrun).order, order_modifyNode]

theorem replaceOperator_coherent (hcoherent : g.Coherent) : h.Coherent := by
  obtain ⟨stored, shape, hfound, hshape, hrun⟩ := Edit.replaceOperator_eq_ok_iff.1 hrun
  exact Edit.install_coherent hcoherent hfound (inferOver_eq_ok_iff.1 hshape) hrun

/-- The node has the new operator, inputs and modules, and all other nodes have what they had. -/
theorem replaceOperator_cases {before : Stored α}
    (hfound : h.find? other = some stored) (hbefore : g.find? other = some before) :
    other = node ∧ stored.op = op ∧ stored.inputs = inputs ∧ stored.modules = modules ∨
      other ≠ node ∧ stored.op = before.op ∧ stored.inputs = before.inputs ∧
        stored.modules = before.modules := by
  obtain ⟨_, _, -, -, hrun⟩ := Edit.replaceOperator_eq_ok_iff.1 hrun
  obtain ⟨after, hafter, hwiring⟩ := Edit.install_find? hrun hbefore
  cases hfound.symm.trans hafter
  split_ifs at hwiring with heq
  · exact .inl ⟨heq, by simpa [wiring] using hwiring⟩
  · exact .inr ⟨heq, by simpa [wiring] using hwiring⟩

theorem Ordered.replaceOperator (hordered : g.Ordered)
    (hbefore : ∀ input ∈ inputs, g.order.idxOf input < g.order.idxOf node) : h.Ordered := by
  intro other stored hfound input hinput
  rw [replaceOperator_order hrun]
  obtain ⟨before, hfound'⟩ := exists_find?_of_order_eq (replaceOperator_order hrun) hfound
  rcases replaceOperator_cases hrun hfound hfound' with ⟨rfl, -, hinputs, -⟩ | ⟨-, -, hinputs, -⟩
  · exact hbefore input (hinputs ▸ hinput)
  · exact hordered hfound' input (hinputs ▸ hinput)

/-- What is returned stays, unless the node ends the graph before or after. -/
theorem replaceOperator_results (hindexed : g.Indexed) (hindexed' : h.Indexed)
    (hop : op.isReturns = false)
    (hown : ∀ ⦃before⦄, g.find? node = some before → before.op.isReturns = false) :
    h.results = g.results := by
  have hsame : h.last? = g.last? := by rw [last?, last?, replaceOperator_order hrun]
  cases hlast : g.last? with
  | none => rw [results_of_last_none hlast, results_of_last_none (hsame.trans hlast)]
  | some last =>
    obtain ⟨stored, hstored⟩ := exists_of_last (hsame.trans hlast)
    obtain ⟨before, hbefore⟩ := exists_of_last hlast
    rw [results_of_last hindexed hlast hbefore,
      results_of_last hindexed' (hsame.trans hlast) hstored]
    rcases replaceOperator_cases hrun hstored hbefore with ⟨rfl, hsame, -, -⟩ | ⟨-, hsame, hinputs, -⟩
    · rw [hsame, hop, hown hbefore]
      rfl
    · rw [hsame, hinputs]

end ReplaceOperator

/-! ## Literals -/

section AddLiteral

variable {value : Tensor α}

theorem order_addLiteral : (g.addLiteral value).1.order = g.nextId :: g.order := by
  rw [addLiteral, order_insertAt, insertIdx_zero]

theorem find?_addLiteral (hindexed : g.Indexed) (other : NodeId) :
    (g.addLiteral value).1.find? other =
      if other = g.nextId then some ⟨.literal value, value.shape, [], []⟩ else g.find? other :=
  find?_insertAt hindexed (Nat.zero_le _) other

theorem Ordered.addLiteral (hordered : g.Ordered) (hcoherent : g.Coherent) (value : Tensor α) :
    (g.addLiteral value).1.Ordered := by
  intro node instruction hfound input hinput
  rw [find?_addLiteral hcoherent.toIndexed] at hfound
  split_ifs at hfound with heq
  · cases hfound
    cases hinput
  · have hmem := (hcoherent.settled _ _ hfound).input_mem_order hinput
    rw [order_addLiteral, idxOf_cons_ne _ (ne_nextId hcoherent.toIndexed hmem).symm,
      idxOf_cons_ne _ (Ne.symm heq)]
    exact Nat.succ_lt_succ (hordered hfound input hinput)

theorem results_addLiteral {node : NodeId} (hnode : node ∈ g.order) :
    (g.addLiteral value).1.results = g.results := by
  obtain ⟨entry, hentry, -⟩ := mem_map.1 hnode
  rw [results, results, addLiteral, nodes_insertAt, insertIdx_zero,
    getLast?_cons_of_ne_nil (ne_nil_of_mem hentry)]

end AddLiteral

/-! ## Taking a node out -/

section Erase

variable {node : NodeId}

theorem order_erase : (g.erase node).order = g.order.filter (· != node) := by
  unfold erase
  split_ifs with hlive
  · rw [order, order, filter_map]
    rfl
  · rw [Graph.contains_iff] at hlive
    rw [eq_comm, filter_eq_self]
    intro other hother
    have hne : other ≠ node := fun heq => hlive (heq ▸ hother)
    simpa using hne

theorem Ordered.erase (hordered : g.Ordered) (hunread : g.hasConsumers node = false) :
    (g.erase node).Ordered := by
  intro other stored hfound input hinput
  rw [find?_erase] at hfound
  split_ifs at hfound with heq
  have hne : input ≠ node := by
    rintro rfl
    exact hasConsumers_eq_false_iff.1 hunread _ (mem_nodes_of_find? hfound) hinput
  rw [order_erase]
  exact idxOf_filter_lt (hordered hfound input hinput) (by simpa using hne) (by simpa using heq)

/-- Taking out a node that need not stay leaves the last node last. -/
theorem last?_erase (hkept : g.isKept node = false) : (g.erase node).last? = g.last? := by
  obtain ⟨hlast, -⟩ := Bool.or_eq_false_iff.1 hkept
  cases hfinal : g.last? with
  | none =>
    have hnone := hfinal
    rw [last?, getLast?_eq_none_iff] at hnone
    rw [last?, order_erase, hnone]
    rfl
  | some last =>
    have hne : last ≠ node := by simpa [hfinal] using hlast
    rw [last?, order_erase]
    exact getLast?_filter hfinal (by simpa using hne)

theorem exists_later_of_isKept (hindexed : g.Indexed) (hkept : g.isKept node = false) :
    ∃ other ∈ g.order, g.order.idxOf node < g.order.idxOf other := by
  have hlive := mem_order_of_isKept hkept
  obtain ⟨hlast, -⟩ := Bool.or_eq_false_iff.1 hkept
  cases hfinal : g.last? with
  | none =>
    rw [last?, getLast?_eq_none_iff] at hfinal
    rw [hfinal] at hlive
    cases hlive
  | some last =>
    have hne : last ≠ node := by simpa [hfinal] using hlast
    have hmem : last ∈ g.order := mem_of_getLast? hfinal
    refine ⟨last, hmem, Nat.lt_of_le_of_ne (idxOf_le_last hindexed hfinal hlive) fun heq => hne ?_⟩
    exact ((idxOf_inj hlive).1 heq).symm

theorem results_erase (hindexed : g.Indexed)
    (hbefore : g.order.idxOf node < g.order.idxOf other) (hother : other ∈ g.order) :
    (g.erase node).results = g.results := by
  cases hlast : g.last? with
  | none =>
    rw [last?, getLast?_eq_none_iff] at hlast
    rw [hlast] at hother
    cases hother
  | some last =>
    have hne : last ≠ node := by
      rintro rfl
      exact absurd hbefore (Nat.not_lt.2 (idxOf_le_last hindexed hlast hother))
    have hkept : (g.erase node).last? = some last := by
      rw [last?, order_erase]
      exact getLast?_filter hlast (by simpa using hne)
    obtain ⟨stored, hfound⟩ := exists_of_last hlast
    rw [results_of_last hindexed hlast hfound, results_of_last hindexed.erase hkept
      ((find?_erase last).trans ((if_neg hne).trans hfound))]

end Erase

end Graph

end TensorGraph
