import TensorGraph.Proofs.Graph.Growth
import TensorGraph.Proofs.Graph.Order

/-!
# Sequences of instructions

A graph can be read from its first node to its last when it is coherent, every node comes after its
inputs, and a node that ends the graph comes last.
-/

namespace TensorGraph

open List

section Insertions

variable {β : Type} [DecidableEq β] {items : List β} {first second item : β} {position : Nat}

/-- Inserting an item does not change which of two others comes first. -/
theorem idxOf_insertIdx_lt (hbefore : items.idxOf first < items.idxOf second) (hfirst : item ≠ first)
    (hsecond : item ≠ second) :
    (items.insertIdx position item).idxOf first < (items.insertIdx position item).idxOf second := by
  induction position generalizing items with
  | zero =>
    rw [insertIdx_zero, idxOf_cons_ne _ hfirst, idxOf_cons_ne _ hsecond]
    exact Nat.succ_lt_succ hbefore
  | succ position ih =>
    cases items with
    | nil => exact hbefore
    | cons head items =>
      rw [insertIdx_succ_cons]
      by_cases hhead : head = second
      · subst hhead
        rw [idxOf_cons_self] at hbefore
        exact absurd hbefore (Nat.not_lt_zero _)
      rw [idxOf_cons_ne _ hhead] at hbefore ⊢
      by_cases hhead' : head = first
      · subst hhead'
        rw [idxOf_cons_self]
        exact Nat.succ_pos _
      · rw [idxOf_cons_ne _ hhead'] at hbefore ⊢
        exact Nat.succ_lt_succ (ih (Nat.lt_of_succ_lt_succ hbefore))

/-- What comes before the position of an insertion comes before the inserted item. -/
theorem idxOf_insertIdx_lt_self (hnew : item ∉ items) (hbefore : items.idxOf first < position)
    (hposition : position ≤ items.length) :
    (items.insertIdx position item).idxOf first < (items.insertIdx position item).idxOf item := by
  induction position generalizing items with
  | zero => exact absurd hbefore (Nat.not_lt_zero _)
  | succ position ih =>
    cases items with
    | nil => exact absurd hposition (Nat.not_succ_le_zero _)
    | cons head items =>
      obtain ⟨hhead, hnew⟩ := not_or.1 (mt mem_cons.2 hnew)
      rw [insertIdx_succ_cons, idxOf_cons_ne _ (Ne.symm hhead)]
      by_cases hhead' : head = first
      · subst hhead'
        rw [idxOf_cons_self]
        exact Nat.succ_pos _
      · rw [idxOf_cons_ne _ hhead'] at hbefore ⊢
        exact Nat.succ_lt_succ
          (ih hnew (Nat.lt_of_succ_lt_succ hbefore) (Nat.le_of_succ_le_succ hposition))

omit [DecidableEq β] in
/-- An item that is inserted further up leaves the last one last. -/
theorem getLast?_insertIdx (hposition : position < items.length) :
    (items.insertIdx position item).getLast? = items.getLast? := by
  induction position generalizing items with
  | zero => rw [insertIdx_zero, getLast?_cons_of_ne_nil (ne_nil_of_length_pos hposition)]
  | succ position ih =>
    cases items with
    | nil => rfl
    | cons head items =>
      have hposition := Nat.lt_of_succ_lt_succ hposition
      have hrest : (items.insertIdx position item) ≠ [] :=
        ne_nil_of_mem ((mem_insertIdx (Nat.le_of_lt hposition)).2 (.inl rfl))
      have hnonempty := ne_nil_of_length_pos (Nat.zero_lt_of_lt hposition)
      rw [insertIdx_succ_cons, getLast?_cons_of_ne_nil hrest, ih hposition,
        getLast?_cons_of_ne_nil hnonempty]

end Insertions

namespace Graph

variable {α : Type} {g h k : Graph α} {node : NodeId}

/-- A node of the graph ends it. -/
def Ends (g : Graph α) (node : NodeId) : Prop :=
  ∃ stored, g.find? node = some stored ∧ stored.op.isReturns = true

/-- A graph that can be read from its first node to its last. Coherence says that every node is listed
once. -/
structure Sequenced (g : Graph α) : Prop extends g.Coherent where
  ordered : g.Ordered
  ends_last : ∀ ⦃node⦄, g.Ends node → g.last? = some node

/-- The graph has grown, and no node that was added ends it. -/
structure Grows (g h : Graph α) : Prop where
  kept : g.Extends h
  ends : ∀ ⦃node⦄, h.Ends node → g.Ends node

theorem Grows.refl (g : Graph α) : g.Grows g := ⟨.refl g, fun _ hends => hends⟩

theorem Grows.trans (hfirst : g.Grows h) (hsecond : h.Grows k) : g.Grows k :=
  ⟨hfirst.kept.trans hsecond.kept, fun _ hends => hfirst.ends (hsecond.ends hends)⟩

/-- An insertion of something that does not end the graph. -/
theorem Indexed.grows_insertAt (hindexed : g.Indexed) (stored : Instruction α (Graph α))
    (hop : stored.op.isReturns = false) {position : Nat} (hposition : position ≤ g.size) :
    g.Grows (g.insertAt stored position).1 ∧
      ¬ (g.insertAt stored position).1.Ends (g.insertAt stored position).2 := by
  refine ⟨⟨extends_insertAt hindexed hposition, ?_⟩, ?_⟩
  · rintro other ⟨current, hfound, hreturns⟩
    rw [find?_insertAt hindexed hposition] at hfound
    split_ifs at hfound
    · cases hfound
      rw [hop] at hreturns
      cases hreturns
    · exact ⟨current, hfound, hreturns⟩
  · rintro ⟨current, hfound, hreturns⟩
    rw [find?_inserted hindexed hposition] at hfound
    cases hfound
    rw [hop] at hreturns
    cases hreturns

namespace Sequenced

variable (hsequenced : g.Sequenced)

include hsequenced

theorem endsInReturns_eq (hends : g.Ends node) : g.endsInReturns = true := by
  obtain ⟨stored, hfound, hreturns⟩ := hends
  have hlast := hsequenced.ends_last ⟨stored, hfound, hreturns⟩
  rw [last?, order, getLast?_map, Option.map_eq_some_iff] at hlast
  obtain ⟨⟨id, current⟩, hnodes, rfl⟩ := hlast
  have hcurrent := (find?_eq_some_iff hsequenced.nodup).2 (mem_of_getLast? hnodes)
  cases hcurrent.symm.trans hfound
  rw [endsInReturns, hnodes]
  exact hreturns

/-- An operator goes after every node that does not end the graph. -/
theorem idxOf_lt_appendPosition (hlive : node ∈ g.order) (hends : ¬ g.Ends node) :
    g.order.idxOf node < g.appendPosition := by
  have hsize : g.order.length = g.size := by rw [order, length_map, size]
  have hlt : g.order.idxOf node < g.size := hsize ▸ idxOf_lt_length_iff.2 hlive
  unfold appendPosition
  split_ifs with hreturns
  · unfold endsInReturns at hreturns
    cases hnodes : g.nodes.getLast? with
    | none =>
      rw [hnodes] at hreturns
      cases hreturns
    | some entry =>
      obtain ⟨last, stored⟩ := entry
      rw [hnodes] at hreturns
      have hlast : g.last? = some last := by
        rw [last?, order, getLast?_map, hnodes]
        rfl
      have hfound := (find?_eq_some_iff hsequenced.nodup).2 (mem_of_getLast? hnodes)
      have hne : node ≠ last := by
        rintro rfl
        exact hends ⟨stored, hfound, hreturns⟩
      have hle := idxOf_le_last hsequenced.toIndexed hlast hlive
      have hlt' : g.order.idxOf last < g.size := idxOf_lt_size hfound
      have hother : g.order.idxOf node ≠ g.order.idxOf last := fun heq =>
        hne ((idxOf_inj hlive).1 heq)
      omega
  · exact hlt

/-- An operator over nodes that do not end the graph. -/
theorem add {op : Operator α} {inputs : List NodeId} {modules : List (Graph α)}
    {added : Graph α × NodeId} (hadd : g.add op inputs modules = .ok added)
    (hop : op.isReturns = false) (hinputs : ∀ input ∈ inputs, ¬ g.Ends input) :
    added.1.Sequenced ∧ g.Grows added.1 ∧ ¬ added.1.Ends added.2 := by
  have hcoherent := add_coherent hsequenced.toCoherent hadd
  obtain ⟨shape, hshape, hinsert⟩ := bind_eq_ok_iff.1 hadd
  cases hinsert
  have hposition := g.appendPosition_le
  have hnew := nextId_notMem hsequenced.toIndexed
  obtain ⟨hgrows, hends⟩ := hsequenced.toIndexed.grows_insertAt
    ⟨op, shape, inputs, modules⟩ hop hposition
  refine ⟨⟨hcoherent, ?_, ?_⟩, hgrows, hends⟩
  · intro node stored hfound input hinput
    rw [find?_insertAt hsequenced.toIndexed hposition] at hfound
    rw [order_insertAt]
    split_ifs at hfound with heq
    · cases hfound
      rw [heq]
      obtain ⟨shapes, hshapes, -⟩ := inferOver_eq_ok_iff.1 hshape
      have hlive := mem_order_of_shapes hshapes hinput
      refine idxOf_insertIdx_lt_self hnew
        (hsequenced.idxOf_lt_appendPosition hlive (hinputs input hinput)) ?_
      simpa [order, size] using hposition
    · have hlive := (hsequenced.settled _ _ hfound).input_mem_order hinput
      exact idxOf_insertIdx_lt (hsequenced.ordered hfound input hinput)
        (fun hsame => hnew (hsame ▸ hlive)) (Ne.symm heq)
  · intro node hends
    have hends' := hgrows.ends hends
    have hlast := hsequenced.ends_last hends'
    have hsize : g.order.length = g.size := by rw [order, length_map, size]
    have hpos := length_pos_of_mem (mem_of_getLast? hlast)
    rw [last?, order_insertAt, getLast?_insertIdx]
    · exact hlast
    · rw [appendPosition, if_pos (hsequenced.endsInReturns_eq hends')]
      omega

theorem addLiteral (value : Tensor α) :
    (g.addLiteral value).1.Sequenced ∧ g.Grows (g.addLiteral value).1 ∧
      ¬ (g.addLiteral value).1.Ends (g.addLiteral value).2 := by
  obtain ⟨hgrows, hends⟩ := hsequenced.toIndexed.grows_insertAt
    ⟨.literal value, value.shape, [], []⟩ rfl (Nat.zero_le _)
  refine ⟨⟨coherent_addLiteral hsequenced.toCoherent value,
    hsequenced.ordered.addLiteral hsequenced.toCoherent value, ?_⟩, hgrows, hends⟩
  intro node hends
  have hends' := hgrows.ends hends
  have hlast := hsequenced.ends_last hends'
  obtain ⟨stored, hfound, -⟩ := hends'
  rw [last?, order_addLiteral,
    getLast?_cons_of_ne_nil (ne_nil_of_mem (mem_order_of_find? hfound))]
  exact hlast

end Sequenced

end Graph

end TensorGraph
