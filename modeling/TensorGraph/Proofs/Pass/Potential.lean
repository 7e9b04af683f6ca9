import Mathlib.Algebra.BigOperators.Group.Finset.Piecewise
import Mathlib.Algebra.BigOperators.Ring.Finset
import Mathlib.Algebra.Order.BigOperators.Group.Finset
import Mathlib.Algebra.Order.BigOperators.Group.List
import Mathlib.Tactic.GCongr
import Mathlib.Tactic.Linarith
import Mathlib.Tactic.Ring
import TensorGraph.Proofs.Pass.Steps

/-!
# A potential that steps lower

A rewired node reads from further up, so the heights of its inputs add up to less, or it becomes a fused
join. Both are put together in one number, which every rewiring lowers and no step raises.
-/

namespace TensorGraph

open List

namespace Graph

open Pass

variable {α : Type} {g h : Graph α} {node : NodeId} {stored : Stored α}
  {keep : Instruction α (Graph α) → Bool}

/-! ## Measures of a graph -/

/-- Whether a node computes something, and is not a value that is held. -/
def computes (g : Graph α) (node : NodeId) : Bool := (g.find? node).any (!·.op.isLiteral)

/-- Whether a node is elementwise. -/
def elementwiseAt (g : Graph α) (node : NodeId) : Bool := (g.find? node).any (·.op.isPointwise)

/-- The number of inputs of a node that fusion can take over: an elementwise node or a join. -/
def widthAt (g : Graph α) (node : NodeId) : Nat :=
  if (g.find? node).any fun stored => stored.op.isPointwise || stored.op.concatAxis?.isSome then
    (g.inputs node).length
  else 0

/-- The number of nodes up to a node that compute something. -/
def height (g : Graph α) (node : NodeId) : Nat :=
  (g.order.toFinset.filter fun other =>
    g.computes other = true ∧ g.order.idxOf other ≤ g.order.idxOf node).card

/-- The heights of a node's inputs together. -/
def load (g : Graph α) (node : NodeId) : Nat := ((g.inputs node).map g.height).sum

/-- The number of nodes that compute something. -/
def work (g : Graph α) : Nat := (g.order.toFinset.filter (g.computes · = true)).card

/-- The number of elementwise nodes. -/
def elementwiseCount (g : Graph α) : Nat := (g.order.toFinset.filter (g.elementwiseAt · = true)).card

/-- The number of inputs that fusion can take over. -/
def width (g : Graph α) : Nat := ∑ node ∈ g.order.toFinset, g.widthAt node

/-- The heights of all inputs together. -/
def totalLoad (g : Graph α) : Nat := ∑ node ∈ g.order.toFinset, g.load node

/-- For each elementwise node, more than the inputs add that it gets as a fused join. -/
def stock (g : Graph α) : Nat := g.elementwiseCount * (g.work * (g.width + 1) ^ 2 + 1)

/-- What rewiring lowers. -/
def potential (g : Graph α) : Nat := g.totalLoad + g.stock

theorem computes_of_find? (hfound : g.find? node = some stored) :
    g.computes node = !stored.op.isLiteral := by
  rw [computes, hfound, Option.any_some]

theorem elementwiseAt_of_find? (hfound : g.find? node = some stored) :
    g.elementwiseAt node = stored.op.isPointwise := by
  rw [elementwiseAt, hfound, Option.any_some]

theorem widthAt_of_find? (hfound : g.find? node = some stored) :
    g.widthAt node = if stored.op.isPointwise || stored.op.concatAxis?.isSome then
      stored.inputs.length else 0 := by
  rw [widthAt, hfound, Option.any_some, inputs_of_find? hfound]

theorem mem_order_of_any (hany : (g.find? node).any keep = true) : node ∈ g.order := by
  obtain ⟨stored, hfound, -⟩ := (Option.any_eq_true _ _).1 hany
  exact mem_order_of_find? hfound

theorem mem_order_of_inputs_ne_nil (hinputs : g.inputs node ≠ []) : node ∈ g.order := by
  obtain ⟨input, hinput⟩ := exists_mem_of_ne_nil _ hinputs
  obtain ⟨stored, hfound, -⟩ := exists_find?_of_mem_inputs hinput
  exact mem_order_of_find? hfound

theorem mem_order_of_load (hload : g.load node ≠ 0) : node ∈ g.order :=
  mem_order_of_inputs_ne_nil fun hnil => hload (by rw [load, hnil]; rfl)

theorem mem_order_of_widthAt (hwidth : g.widthAt node ≠ 0) : node ∈ g.order := by
  refine mem_order_of_inputs_ne_nil fun hnil => hwidth ?_
  rw [widthAt, hnil, length_nil, ite_self]

theorem height_le_work (g : Graph α) (node : NodeId) : g.height node ≤ g.work :=
  Finset.card_le_card (Finset.monotone_filter_right _ fun _ _ hboth => hboth.1)

/-- A node that computes something is higher than what comes before it. -/
theorem height_lt {other : NodeId} (hcomputes : g.computes node = true)
    (hbefore : g.order.idxOf other < g.order.idxOf node) : g.height other < g.height node := by
  apply Finset.card_lt_card
  rw [Finset.ssubset_iff_of_subset]
  · refine ⟨node, ?_, ?_⟩
    · rw [Finset.mem_filter]
      exact ⟨mem_toFinset.2 (mem_order_of_any hcomputes), hcomputes, Nat.le_refl _⟩
    · rw [Finset.mem_filter]
      exact fun hself => Nat.not_le.2 hbefore hself.2.2
  · exact Finset.monotone_filter_right _ fun _ _ hboth =>
      ⟨hboth.1, Nat.le_trans hboth.2 (Nat.le_of_lt hbefore)⟩

theorem load_le_work (g : Graph α) (node : NodeId) :
    g.load node ≤ (g.inputs node).length * g.work := by
  calc g.load node ≤ ((g.inputs node).map g.height).length • g.work :=
        sum_le_card_nsmul _ _ fun height hmem => by
          obtain ⟨input, -, rfl⟩ := mem_map.1 hmem
          exact g.height_le_work input
    _ = (g.inputs node).length * g.work := by simp

theorem widthAt_le_width (hlive : node ∈ g.order) : g.widthAt node ≤ g.width :=
  Finset.single_le_sum (fun _ _ => Nat.zero_le _) (mem_toFinset.2 hlive)

/-! ## The size of the potential -/

theorem sum_inputs_eq (hnodup : g.order.Nodup) :
    ∑ node ∈ g.order.toFinset, (g.inputs node).length = g.edgeCount := by
  rw [sum_toFinset _ hnodup, order, map_map, edgeCount, length_flatMap]
  congr 1
  refine map_congr_left fun entry hentry => ?_
  rw [Function.comp_apply, inputs_of_find? ((find?_eq_some_iff hnodup).2 hentry)]

theorem card_filter_order_le (g : Graph α) (keep : NodeId → Prop) [DecidablePred keep] :
    (g.order.toFinset.filter keep).card ≤ g.size := by
  calc (g.order.toFinset.filter keep).card ≤ g.order.toFinset.card := Finset.card_filter_le _ _
    _ ≤ g.order.length := toFinset_card_le _
    _ = g.size := by rw [order, length_map, size]

theorem potential_le_pow (hnodup : g.order.Nodup) :
    g.potential + 2 ≤ (g.size + g.edgeCount + 2) ^ 4 := by
  have hwork : g.work ≤ g.size := g.card_filter_order_le _
  have hcount : g.elementwiseCount ≤ g.size := g.card_filter_order_le _
  have hwidth : g.width ≤ g.edgeCount := by
    rw [← sum_inputs_eq hnodup]
    refine Finset.sum_le_sum fun node _ => ?_
    unfold widthAt
    split_ifs
    · exact Nat.le_refl _
    · exact Nat.zero_le _
  have htotal : g.totalLoad ≤ g.edgeCount * g.size := by
    calc g.totalLoad ≤ ∑ node ∈ g.order.toFinset, (g.inputs node).length * g.work :=
          Finset.sum_le_sum fun node _ => g.load_le_work node
      _ = g.edgeCount * g.work := by rw [← Finset.sum_mul, sum_inputs_eq hnodup]
      _ ≤ g.edgeCount * g.size := Nat.mul_le_mul_left _ hwork
  have hstock : g.stock ≤ g.size * (g.size * (g.edgeCount + 1) ^ 2 + 1) := by
    unfold stock
    gcongr
  unfold potential
  generalize g.size = size at *
  generalize g.edgeCount = edges at *
  calc g.totalLoad + g.stock + 2
      ≤ edges * size + size * (size * (edges + 1) ^ 2 + 1) + 2 := by gcongr
    _ ≤ (size + edges + 2) ^ 4 := by nlinarith [sq_nonneg size]

/-! ## Comparing graphs -/

/-- An instruction stays what it is, with as many inputs, or becomes one that fusion cannot take over. -/
def Eases (stored before : Stored α) : Prop :=
  stored.op = before.op ∧ stored.inputs.length = before.inputs.length ∨
    before.op.isLiteral = false ∧ stored.op.isPointwise = false ∧ stored.op.concatAxis? = none

/-- No node of the second graph counts for more. -/
structure Lighter (g h : Graph α) : Prop where
  computes : ∀ node, h.computes node = true → g.computes node = true
  elementwise : ∀ node, h.elementwiseAt node = true → g.elementwiseAt node = true
  width : ∀ node, h.widthAt node ≤ g.widthAt node

theorem lighter_of_find?
    (hcases : ∀ ⦃node stored⦄, h.find? node = some stored →
      (∃ before, g.find? node = some before ∧ Eases stored before) ∨
        stored.op.isLiteral = true ∧ stored.inputs = []) : Lighter g h := by
  refine ⟨fun node hnode => ?_, fun node hnode => ?_, fun node => ?_⟩
  · obtain ⟨stored, hfound, hkind⟩ := (Option.any_eq_true _ _).1 hnode
    refine (Option.any_eq_true _ _).2 ?_
    rcases hcases hfound with ⟨before, hbefore, ⟨hop, -⟩ | ⟨hliteral, -⟩⟩ | ⟨hliteral, -⟩
    · exact ⟨before, hbefore, hop ▸ hkind⟩
    · exact ⟨before, hbefore, by rw [hliteral]; rfl⟩
    · rw [hliteral] at hkind
      cases hkind
  · obtain ⟨stored, hfound, hkind⟩ := (Option.any_eq_true _ _).1 hnode
    refine (Option.any_eq_true _ _).2 ?_
    rcases hcases hfound with ⟨before, hbefore, ⟨hop, -⟩ | ⟨-, hpointwise, -⟩⟩ | ⟨hliteral, -⟩
    · exact ⟨before, hbefore, hop ▸ hkind⟩
    · cases hpointwise.symm.trans hkind
    · rw [eq_pointwise_of_isPointwise hkind] at hliteral
      cases hliteral
  · cases hfound : h.find? node with
    | none => simp [widthAt, hfound]
    | some stored =>
      rw [widthAt_of_find? hfound]
      rcases hcases hfound with
        ⟨before, hbefore, ⟨hop, hlength⟩ | ⟨-, hpointwise, hconcat⟩⟩ | ⟨-, hinputs⟩
      · rw [widthAt_of_find? hbefore, hop, hlength]
      · simp [hpointwise, hconcat]
      · simp [hinputs]

section Comparison

variable (hlighter : Lighter g h)

include hlighter

theorem height_le (hbefore : ∀ other, h.computes other = true →
      h.order.idxOf other ≤ h.order.idxOf node → g.order.idxOf other ≤ g.order.idxOf node) :
    h.height node ≤ g.height node := by
  refine Finset.card_le_card fun other hother => ?_
  rw [Finset.mem_filter] at hother ⊢
  obtain ⟨-, hself, hle⟩ := hother
  have hself' := hlighter.computes other hself
  exact ⟨mem_toFinset.2 (mem_order_of_any hself'), hself', hbefore other hself hle⟩

theorem work_le : h.work ≤ g.work := by
  refine Finset.card_le_card fun node hnode => ?_
  rw [Finset.mem_filter] at hnode ⊢
  have hself := hlighter.computes node hnode.2
  exact ⟨mem_toFinset.2 (mem_order_of_any hself), hself⟩

theorem elementwiseCount_le : h.elementwiseCount ≤ g.elementwiseCount := by
  refine Finset.card_le_card fun node hnode => ?_
  rw [Finset.mem_filter] at hnode ⊢
  have hself := hlighter.elementwise node hnode.2
  exact ⟨mem_toFinset.2 (mem_order_of_any hself), hself⟩

theorem width_le : h.width ≤ g.width := by
  calc h.width ≤ ∑ node ∈ h.order.toFinset, g.widthAt node :=
        Finset.sum_le_sum fun node _ => hlighter.width node
    _ ≤ g.width := Finset.sum_le_sum_of_ne_zero fun node _ hne =>
        mem_toFinset.2 (mem_order_of_widthAt hne)

theorem stock_le : h.stock ≤ g.stock := by
  have hwork := work_le hlighter
  have hwidth := width_le hlighter
  have hcount := elementwiseCount_le hlighter
  unfold stock
  gcongr

variable (hload : ∀ node, h.load node ≤ g.load node)

include hload

theorem potential_le : h.potential ≤ g.potential := by
  refine Nat.add_le_add ?_ (stock_le hlighter)
  calc h.totalLoad ≤ ∑ node ∈ h.order.toFinset, g.load node :=
        Finset.sum_le_sum fun node _ => hload node
    _ ≤ g.totalLoad := Finset.sum_le_sum_of_ne_zero fun node _ hne =>
        mem_toFinset.2 (mem_order_of_load hne)

theorem potential_lt (hlower : h.load node < g.load node) : h.potential < g.potential := by
  refine Nat.add_lt_add_of_lt_of_le ?_ (stock_le hlighter)
  calc h.totalLoad ≤ ∑ node ∈ g.order.toFinset, h.load node :=
        Finset.sum_le_sum_of_ne_zero fun other _ hne => mem_toFinset.2
          (mem_order_of_load fun hzero => hne (Nat.le_zero.1 (hzero ▸ hload other)))
    _ < g.totalLoad := by
        refine Finset.sum_lt_sum (fun other _ => hload other) ⟨node, ?_, hlower⟩
        exact mem_toFinset.2 (mem_order_of_load (Nat.ne_zero_of_lt hlower))

end Comparison

/-- Nodes may go, and literals may come, as long as inputs stay behind the same nodes. -/
theorem potential_le_of_find?
    (hsame : ∀ {node stored}, h.find? node = some stored → g.find? node = some stored ∨
      stored.op.isLiteral = true ∧ stored.inputs = [])
    (hbefore : ∀ {node stored input other}, g.find? node = some stored → input ∈ stored.inputs →
      other ∈ h.order → other ∈ g.order → h.order.idxOf other ≤ h.order.idxOf input →
        g.order.idxOf other ≤ g.order.idxOf input) : h.potential ≤ g.potential := by
  have hlighter : Lighter g h := lighter_of_find? fun node stored hfound =>
    (hsame hfound).imp_left fun hfound' => ⟨stored, hfound', .inl ⟨rfl, rfl⟩⟩
  refine potential_le hlighter fun node => ?_
  cases hfound : h.find? node with
  | none => simp [load, inputs, hfound]
  | some stored =>
    rw [load, inputs_of_find? hfound]
    rcases hsame hfound with hfound' | ⟨-, hinputs⟩
    · rw [load, inputs_of_find? hfound']
      refine sum_le_sum fun input hinput => height_le hlighter fun other hother hle => ?_
      exact hbefore hfound' hinput (mem_order_of_any hother)
        (mem_order_of_any (hlighter.computes other hother)) hle
    · simp [hinputs]

/-- Taking out a node that nothing reads. -/
theorem potential_erase_le (hunread : g.hasConsumers node = false) :
    (g.erase node).potential ≤ g.potential := by
  apply potential_le_of_find?
  · intro other stored hfound
    rw [find?_erase] at hfound
    split_ifs at hfound
    exact .inl hfound
  · intro reader stored input other hfound hinput hlive _ hle
    have hinput' : input ≠ node := by
      rintro rfl
      exact hasConsumers_eq_false_iff.1 hunread _ (mem_nodes_of_find? hfound) hinput
    have hother := (mem_order_erase.1 hlive).1
    by_contra hlt
    refine Nat.not_lt.2 hle ?_
    rw [order_erase]
    exact idxOf_filter_lt (Nat.not_le.1 hlt) (by simpa using hinput') (by simpa using hother)

/-- Embedding a value. -/
theorem potential_addLiteral_le (hcoherent : g.Coherent) (value : Tensor α) :
    (g.addLiteral value).1.potential ≤ g.potential := by
  apply potential_le_of_find?
  · intro other stored hfound
    rw [find?_addLiteral hcoherent.toIndexed] at hfound
    split_ifs at hfound
    · cases hfound
      exact .inr ⟨rfl, rfl⟩
    · exact .inl hfound
  · intro reader stored input other hfound hinput _ hlive hle
    have hinput' := (hcoherent.settled _ _ hfound).input_mem_order hinput
    have hne {item : NodeId} (hmem : item ∈ g.order) := (ne_nextId hcoherent.toIndexed hmem).symm
    rw [order_addLiteral, idxOf_cons_ne _ (hne hlive), idxOf_cons_ne _ (hne hinput')] at hle
    exact Nat.le_of_succ_le_succ hle

end Graph

namespace Pass

open Graph

variable {α : Type} {g h : Graph α}

/-! ## Rewiring -/

section Rewiring

variable (horder : h.order = g.order)
  (heases : ∀ {node stored before}, h.find? node = some stored → g.find? node = some before →
    Eases stored before)

include horder heases

theorem lighter_of_eases : Lighter g h := by
  refine lighter_of_find? fun node stored hfound => ?_
  obtain ⟨before, hbefore⟩ := exists_find?_of_order_eq horder hfound
  exact .inl ⟨before, hbefore, heases hfound hbefore⟩

theorem load_le_of_eases {node : NodeId} {stored : Stored α} (hfound : h.find? node = some stored) :
    h.load node ≤ (stored.inputs.map g.height).sum := by
  rw [load, inputs_of_find? hfound]
  exact sum_le_sum fun input _ =>
    height_le (lighter_of_eases horder heases) fun other _ hle => by rwa [horder] at hle

/-- A node that reads from further up. -/
theorem potential_lt_of_lower
    (hloads : ∀ {node stored before}, h.find? node = some stored → g.find? node = some before →
      (stored.inputs.map g.height).sum ≤ (before.inputs.map g.height).sum)
    {node : NodeId} {stored before : Stored α} (hfound : h.find? node = some stored)
    (hfound' : g.find? node = some before)
    (hlower : (stored.inputs.map g.height).sum < (before.inputs.map g.height).sum) :
    h.potential < g.potential := by
  refine potential_lt (lighter_of_eases horder heases) (fun other => ?_)
    (show h.load node < g.load node from ?_)
  · cases hother : h.find? other with
    | none => simp [load, inputs, hother]
    | some stored =>
      obtain ⟨before, hbefore⟩ := exists_find?_of_order_eq horder hother
      refine (load_le_of_eases horder heases hother).trans ?_
      rw [load, inputs_of_find? hbefore]
      exact hloads hother hbefore
  · refine (load_le_of_eases horder heases hfound).trans_lt ?_
    rwa [load, inputs_of_find? hfound']

end Rewiring

/-- A fused join has no more inputs than the joins and elementwise nodes of the graph can give it. -/
theorem length_fused_le {node : NodeId} {position : Nat} {fusion : Fusion α}
    {own : Stored α} (hown : g.find? node = some own) (hop : own.op = .pointwise)
    (hplan : planFusedJoin g node position = .ok (some fusion)) :
    fusion.inputs.length ≤ (g.width + 1) ^ 2 := by
  obtain ⟨own', joined, _, _, _, fed, hown', -, hposition, -, -, hjoined, hjoin, hfed, hinputs, -⟩ :=
    planFusedJoin_eq_ok hplan
  cases hown.symm.trans hown'
  have hwidth : ∀ {node stored}, g.find? node = some stored →
      (stored.op.isPointwise || stored.op.concatAxis?.isSome) = true →
      stored.inputs.length ≤ g.width := by
    intro node stored hfound hkind
    have hle := widthAt_le_width (mem_order_of_find? hfound)
    rwa [widthAt_of_find? hfound, if_pos hkind] at hle
  have hself : own.inputs.length ≤ g.width := hwidth hown (by rw [hop]; rfl)
  have hparts : joined.inputs.length ≤ g.width := hwidth hjoined (by rw [hjoin]; rfl)
  -- The node reads the join, so there is something that fusion can take over.
  have hpos : 0 < g.width := Nat.lt_of_lt_of_le
    (length_pos_of_mem (mem_of_getElem? hposition)) hself
  have hentry : ∀ entry ∈ fed, entry.2.length ≤ g.width := by
    intro entry hmem
    obtain ⟨part, -, hpart⟩ := exists_mem_right_of_forall₂ hfed.flip hmem
    cases hpart with
    | pointwise _ hfound hop' _ => exact hwidth hfound (by rw [hop']; rfl)
    | passing _ => exact hpos
  have hflat : (fed.flatMap (·.2)).length ≤ fed.length * g.width := by
    rw [length_flatMap]
    have hsum := sum_le_card_nsmul (fed.map fun entry => entry.2.length) g.width
      fun length hlength => by
        obtain ⟨entry, hmem, rfl⟩ := mem_map.1 hlength
        exact hentry entry hmem
    simpa using hsum
  have hlength : fed.length ≤ g.width := hfed.length_eq ▸ hparts
  rw [hinputs, length_append]
  calc (fed.flatMap (·.2)).length + (own.inputs.eraseIdx position).length
      ≤ g.width * g.width + g.width := Nat.add_le_add
        (Nat.le_trans hflat (Nat.mul_le_mul_right _ hlength))
        (Nat.le_trans (length_eraseIdx_le _ _) hself)
    _ ≤ (g.width + 1) ^ 2 := by nlinarith

section Fusion

variable {node : NodeId} {position : Nat} {fusion : Fusion α} {own : Stored α}
  (hown : g.find? node = some own) (hop : own.op = .pointwise)
  (hplan : planFusedJoin g node position = .ok (some fusion))
  (hrun : Edit.replaceOperator node (.fusedConcat fusion.axis) fusion.inputs fusion.modules g =
    .ok () h)

include hown hop hrun

theorem fused_eases {other : NodeId} {stored before : Stored α}
    (hfound : h.find? other = some stored) (hfound' : g.find? other = some before) :
    Eases stored before := by
  rcases replaceOperator_cases hrun hfound hfound' with ⟨rfl, hop', -⟩ | ⟨-, hop', hinputs, -⟩
  · cases hown.symm.trans hfound'
    refine .inr ?_
    rw [hop, hop']
    exact ⟨rfl, rfl, rfl⟩
  · exact .inl ⟨hop', congrArg length hinputs⟩

/-- There is one elementwise node less, and no node is wider. -/
theorem stock_fused_lt : h.stock + g.work * (g.width + 1) ^ 2 < g.stock := by
  have horder := replaceOperator_order hrun
  have hlighter := lighter_of_eases horder (fused_eases hown hop hrun)
  have hwork := work_le hlighter
  have hwidth := width_le hlighter
  have hstays : ∀ other, h.elementwiseAt other = true →
      other ≠ node ∧ g.elementwiseAt other = true := by
    intro other hother
    obtain ⟨stored, hfound, hpointwise⟩ := (Option.any_eq_true _ _).1 hother
    obtain ⟨before, hbefore⟩ := exists_find?_of_order_eq horder hfound
    rcases replaceOperator_cases hrun hfound hbefore with ⟨-, hop', -⟩ | ⟨hne, hop', -⟩
    · rw [hop'] at hpointwise
      cases hpointwise
    · exact ⟨hne, (Option.any_eq_true _ _).2 ⟨before, hbefore, hop' ▸ hpointwise⟩⟩
  have hcount : h.elementwiseCount < g.elementwiseCount := by
    apply Finset.card_lt_card
    rw [Finset.ssubset_iff_of_subset]
    · refine ⟨node, ?_, fun hself => (hstays node (Finset.mem_filter.1 hself).2).1 rfl⟩
      rw [Finset.mem_filter, elementwiseAt_of_find? hown, hop]
      exact ⟨mem_toFinset.2 (mem_order_of_find? hown), rfl⟩
    · rw [horder]
      exact Finset.monotone_filter_right _ fun other _ hother => (hstays other hother).2
  unfold stock
  calc h.elementwiseCount * (h.work * (h.width + 1) ^ 2 + 1) + g.work * (g.width + 1) ^ 2
      ≤ h.elementwiseCount * (g.work * (g.width + 1) ^ 2 + 1) + g.work * (g.width + 1) ^ 2 := by
        gcongr
    _ < (h.elementwiseCount + 1) * (g.work * (g.width + 1) ^ 2 + 1) := by
        rw [Nat.succ_mul]
        omega
    _ ≤ g.elementwiseCount * (g.work * (g.width + 1) ^ 2 + 1) := by
        gcongr
        exact hcount

include hplan

/-- The inputs of the fused join add less than there was in stock for it. -/
theorem potential_fused_lt : h.potential < g.potential := by
  have horder := replaceOperator_order hrun
  have heases := @fused_eases _ _ _ _ _ _ hown hop hrun
  have hload : ∀ other, h.load other ≤
      g.load other + if other = node then g.work * (g.width + 1) ^ 2 else 0 := by
    intro other
    cases hfound : h.find? other with
    | none => simp [load, inputs, hfound]
    | some stored =>
      obtain ⟨before, hbefore⟩ := exists_find?_of_order_eq horder hfound
      rcases replaceOperator_cases hrun hfound hbefore with ⟨heq, -, hinputs, -⟩ | ⟨-, -, hinputs, -⟩
      · rw [if_pos heq]
        apply Nat.le_add_left_of_le
        calc h.load other ≤ (h.inputs other).length * h.work := load_le_work h other
          _ ≤ (g.width + 1) ^ 2 * g.work := by
              rw [inputs_of_find? hfound, hinputs]
              exact Nat.mul_le_mul (length_fused_le hown hop hplan)
                (work_le (lighter_of_eases horder heases))
          _ = g.work * (g.width + 1) ^ 2 := Nat.mul_comm _ _
      · apply Nat.le_add_right_of_le
        refine (load_le_of_eases horder heases hfound).trans ?_
        rw [hinputs, load, inputs_of_find? hbefore]
  have htotal : h.totalLoad ≤ g.totalLoad + g.work * (g.width + 1) ^ 2 := by
    calc h.totalLoad = ∑ other ∈ g.order.toFinset, h.load other := by rw [totalLoad, horder]
      _ ≤ ∑ other ∈ g.order.toFinset,
          (g.load other + if other = node then g.work * (g.width + 1) ^ 2 else 0) :=
            Finset.sum_le_sum fun other _ => hload other
      _ = g.totalLoad + g.work * (g.width + 1) ^ 2 := by
          rw [Finset.sum_add_distrib, Finset.sum_ite_eq',
            if_pos (mem_toFinset.2 (mem_order_of_find? hown)), totalLoad]
  have hstock := stock_fused_lt hown hop hrun
  unfold potential
  omega

end Fusion

section Lower

variable {old new : NodeId} {stored : Stored α} (hold : g.find? old = some stored)
  (hliteral : stored.op.isLiteral = false) (hbefore : g.order.idxOf new < g.order.idxOf old)

include hold hliteral hbefore

theorem height_lt_of_find? : g.height new < g.height old :=
  height_lt (by rw [computes_of_find? hold, hliteral]; rfl) hbefore

/-- A reader that is pointed further up. -/
theorem potential_reroute_lt {reader : NodeId} (hrun : Edit.reroute reader old new g = .ok () h) :
    h.potential < g.potential := by
  have hlower := height_lt_of_find? hold hliteral hbefore
  have hredirect : ∀ input, g.height (if input = old then new else input) ≤ g.height input := by
    intro input
    split_ifs with heq
    · exact heq ▸ Nat.le_of_lt hlower
    · exact Nat.le_refl _
  obtain ⟨current, _, hcurrent, hreads, -⟩ := Edit.reroute_eq_ok_iff.1 hrun
  obtain ⟨after, hafter, -, hinputs, -⟩ := Edit.reroute_find? hrun hcurrent
  refine potential_lt_of_lower (reroute_order hrun) ?_ ?_ hafter hcurrent ?_
  · intro node stored before hfound hfound'
    obtain ⟨_, hbefore', hop, hinputs, -⟩ := exists_of_reroute hrun hfound
    cases hfound'.symm.trans hbefore'
    refine .inl ⟨hop, ?_⟩
    rw [hinputs]
    split_ifs
    · exact length_map _
    · rfl
  · intro node stored before hfound hfound'
    obtain ⟨_, hbefore', -, hinputs, -⟩ := exists_of_reroute hrun hfound
    cases hfound'.symm.trans hbefore'
    rw [hinputs]
    split_ifs
    · rw [Edit.redirect, map_map]
      exact sum_le_sum fun input _ => hredirect input
    · exact Nat.le_refl _
  · rw [hinputs, if_pos rfl, Edit.redirect, map_map]
    refine sum_lt_sum _ _ (fun input _ => hredirect input) ⟨old, hreads, ?_⟩
    simpa using hlower

/-- A transposition that reads from further up. -/
theorem potential_turn_lt {node : NodeId} {own : Stored α} {order order' : List Nat}
    (hown : g.find? node = some own) (hop : own.op = .transpose order) (hinputs : own.inputs = [old])
    (hrun : Edit.replaceOperator node (.transpose order') [new] [] g = .ok () h) :
    h.potential < g.potential := by
  have hlower := height_lt_of_find? hold hliteral hbefore
  obtain ⟨after, hafter⟩ := exists_find?_of_order_eq (replaceOperator_order hrun).symm hown
  refine potential_lt_of_lower (replaceOperator_order hrun) ?_ ?_ hafter hown ?_
  · intro other stored before hfound hfound'
    rcases replaceOperator_cases hrun hfound hfound' with ⟨rfl, hop', -⟩ | ⟨-, hop', hinputs', -⟩
    · cases hown.symm.trans hfound'
      refine .inr ?_
      rw [hop, hop']
      exact ⟨rfl, rfl, rfl⟩
    · exact .inl ⟨hop', congrArg length hinputs'⟩
  · intro other stored before hfound hfound'
    rcases replaceOperator_cases hrun hfound hfound' with ⟨rfl, -, hinputs', -⟩ | ⟨-, -, hinputs', -⟩
    · cases hown.symm.trans hfound'
      rw [hinputs, hinputs']
      simpa using Nat.le_of_lt hlower
    · rw [hinputs']
  · rcases replaceOperator_cases hrun hafter hown with ⟨-, -, hinputs', -⟩ | ⟨hne, -⟩
    · rw [hinputs, hinputs']
      simpa using hlower
    · exact absurd rfl hne

end Lower

/-- Rewiring lowers the potential. -/
theorem Rewiring.potential_lt (hrewiring : Rewiring g h) : h.potential < g.potential := by
  cases hrewiring with
  | reroute hold hliteral hbefore hrun => exact potential_reroute_lt hold hliteral hbefore hrun
  | turn hown hop hinputs hold hliteral hbefore hrun =>
    exact potential_turn_lt hold hliteral hbefore hown hop hinputs hrun
  | fuse hown hop hplan hrun => exact potential_fused_lt hown hop hplan hrun

theorem Step.potential_le (hstep : Step g h) (hcoherent : g.Coherent) :
    h.potential ≤ g.potential := by
  cases hstep with
  | rewire hrewiring => exact Nat.le_of_lt hrewiring.potential_lt
  | erase hunread _ => exact potential_erase_le hunread
  | embed value _ => exact potential_addLiteral_le hcoherent value

theorem potential_le_of_steps (hsteps : Steps g h) (hcoherent : g.Coherent) (hordered : g.Ordered) :
    h.potential ≤ g.potential := by
  induction hsteps with
  | refl => exact Nat.le_refl _
  | tail hsteps hstep ih =>
    obtain ⟨hcoherent', -⟩ := coherent_ordered_of_steps hsteps hcoherent hordered
    exact Nat.le_trans (hstep.potential_le hcoherent') ih

theorem Rewrites.potential_lt (hrewrites : Rewrites g h) (hcoherent : g.Coherent)
    (hordered : g.Ordered) : h.potential < g.potential := by
  obtain ⟨m, k, hfirst, hrewiring, hlast⟩ := hrewrites
  obtain ⟨hcoherent', hordered'⟩ := coherent_ordered_of_steps hfirst hcoherent hordered
  obtain ⟨hcoherent'', hordered''⟩ := hrewiring.coherent_ordered hcoherent' hordered'
  calc h.potential ≤ k.potential := potential_le_of_steps hlast hcoherent'' hordered''
    _ < m.potential := hrewiring.potential_lt
    _ ≤ g.potential := potential_le_of_steps hfirst hcoherent hordered

end Pass

end TensorGraph
