import TensorGraph.Proofs.Einsum.Definition
import TensorGraph.Proofs.Frontend.Wiring
import TensorGraph.Proofs.Pass.Steps

/-!
# Everything keeps the sequence

A graph that can be read from its first node to its last stays one under every pass and under the lowering
of front end nodes.
-/

namespace TensorGraph

/-- The name and the shape that an operator declares. -/
def Operator.declaration? {α : Type} : Operator α → Option (String × Shape)
  | .parameter name shape => some (name, shape)
  | _ => none

namespace Graph

variable {α : Type} {g h : Graph α}

/-- What a node declares, if it is a parameter. -/
def declarationAt? (g : Graph α) (node : NodeId) : Option (NodeId × String × Shape) :=
  (g.find? node).bind fun stored => stored.op.declaration?.map (node, ·)

/-- The parameters in insertion order, each with its node, its name and its declared shape. -/
def declarations (g : Graph α) : List (NodeId × String × Shape) := g.order.filterMap g.declarationAt?

theorem declarationAt?_of_find? {node : NodeId} {stored : Stored α}
    (hfound : g.find? node = some stored) :
    g.declarationAt? node = stored.op.declaration?.map (node, ·) := by
  rw [declarationAt?, hfound]
  rfl

theorem declarations_addLiteral (hindexed : g.Indexed) (value : Tensor α) :
    (g.addLiteral value).1.declarations = g.declarations := by
  have hnew : (g.addLiteral value).1.declarationAt? g.nextId = none := by
    rw [declarationAt?, find?_addLiteral hindexed, if_pos rfl]
    rfl
  rw [declarations, order_addLiteral, List.filterMap_cons, hnew]
  refine List.filterMap_congr fun node hnode => ?_
  rw [declarationAt?, declarationAt?, find?_addLiteral hindexed, if_neg (ne_nextId hindexed hnode)]

theorem declarations_erase {node : NodeId} (hkept : g.isKept node = false) :
    (g.erase node).declarations = g.declarations := by
  have hown : g.declarationAt? node = none := by
    obtain ⟨-, hown⟩ := Bool.or_eq_false_iff.1 hkept
    unfold declarationAt?
    cases hfound : g.find? node with
    | none => rfl
    | some stored =>
      rw [hfound] at hown
      have hparameter := (Bool.or_eq_false_iff.1 hown).1
      cases hop : stored.op with
      | parameter name shape =>
        rw [hop] at hparameter
        cases hparameter
      | _ => simp [hop, Operator.declaration?]
  rw [declarations, declarations, order_erase, List.filterMap_filter]
  refine List.filterMap_congr fun other _ => ?_
  by_cases hother : other = node
  · rw [hother, hown]
    simp
  · simp [hother, declarationAt?, find?_erase]

end Graph

namespace Pass

open Graph

variable {α : Type} {g h : Graph α}

/-- Rewiring does not touch which nodes end the graph or declare a parameter. -/
theorem Rewiring.exists_before (hrewiring : Rewiring g h) {node : NodeId}
    {stored : Stored α} (hfound : h.find? node = some stored) :
    ∃ before, g.find? node = some before ∧ stored.op.isReturns = before.op.isReturns ∧
      stored.op.declaration? = before.op.declaration? := by
  cases hrewiring with
  | reroute _ _ _ hrun =>
    obtain ⟨before, hbefore, hop, -, -⟩ := exists_of_reroute hrun hfound
    exact ⟨before, hbefore, by rw [hop], by rw [hop]⟩
  | turn hown hop _ _ _ _ hrun | fuse hown hop _ hrun =>
    obtain ⟨before, hbefore⟩ := exists_find?_of_order_eq (replaceOperator_order hrun) hfound
    refine ⟨before, hbefore, ?_⟩
    rcases replaceOperator_cases hrun hfound hbefore with ⟨rfl, hop', -, -⟩ | ⟨-, hop', -, -⟩
    · cases hown.symm.trans hbefore
      rw [hop, hop']
      exact ⟨rfl, rfl⟩
    · rw [hop']
      exact ⟨rfl, rfl⟩

theorem Rewiring.declarations_eq (hrewiring : Rewiring g h) : h.declarations = g.declarations := by
  rw [declarations, declarations, hrewiring.order_eq]
  refine List.filterMap_congr fun node hnode => ?_
  rw [← hrewiring.order_eq] at hnode
  obtain ⟨stored, hfound⟩ := exists_find?_of_mem_order hnode
  obtain ⟨before, hbefore, -, hsame⟩ := hrewiring.exists_before hfound
  rw [declarationAt?_of_find? hfound, declarationAt?_of_find? hbefore, hsame]

/-- The last node is the same, and so is a node that ends the graph. -/
theorem Step.last_ends (hstep : Step g h) (hindexed : g.Indexed) :
    h.last? = g.last? ∧ ∀ node, h.Ends node → g.Ends node := by
  cases hstep with
  | rewire hrewiring =>
    refine ⟨by rw [last?, last?, hrewiring.order_eq], ?_⟩
    rintro node ⟨stored, hfound, hreturns⟩
    obtain ⟨before, hbefore, hsame, -⟩ := hrewiring.exists_before hfound
    exact ⟨before, hbefore, hsame ▸ hreturns⟩
  | erase _ hkept =>
    refine ⟨last?_erase hkept, ?_⟩
    rintro node ⟨stored, hfound, hreturns⟩
    rw [find?_erase] at hfound
    split_ifs at hfound
    exact ⟨stored, hfound, hreturns⟩
  | embed value hnonempty =>
    refine ⟨?_, fun node hends => ?_⟩
    · rw [last?, order_addLiteral, List.getLast?_cons_of_ne_nil hnonempty, last?]
    · exact (hindexed.grows_insertAt _ rfl (Nat.zero_le _)).1.ends hends

theorem Step.sequenced (hstep : Step g h) (hsequenced : g.Sequenced) :
    h.Sequenced ∧ h.last? = g.last? ∧ h.declarations = g.declarations := by
  obtain ⟨hcoherent, hordered⟩ :=
    hstep.coherent_ordered hsequenced.toCoherent hsequenced.ordered
  obtain ⟨hlast, hends⟩ := hstep.last_ends hsequenced.toIndexed
  refine ⟨⟨hcoherent, hordered, fun node hnode => ?_⟩, hlast, ?_⟩
  · rw [hlast]
    exact hsequenced.ends_last (hends node hnode)
  · cases hstep with
    | rewire hrewiring => exact hrewiring.declarations_eq
    | erase _ hkept => exact declarations_erase hkept
    | embed value _ => exact declarations_addLiteral hsequenced.toIndexed value

theorem sequenced_of_steps (hsteps : Steps g h) (hsequenced : g.Sequenced) :
    h.Sequenced ∧ h.last? = g.last? ∧ h.declarations = g.declarations := by
  induction hsteps with
  | refl => exact ⟨hsequenced, rfl, rfl⟩
  | tail _ hstep ih =>
    obtain ⟨hsequenced', hlast, hdeclarations⟩ := ih
    obtain ⟨hsequenced'', hlast', hdeclarations'⟩ := hstep.sequenced hsequenced'
    exact ⟨hsequenced'', hlast'.trans hlast, hdeclarations'.trans hdeclarations⟩

end Pass

open Graph

/-- A graph that can be read from its first node to its last stays one. Every pass that goes through,
and every pipeline of them, also keeps the last node and the parameters. A lowered einsum or scan node
over nodes that do not end the graph keeps every instruction that was there. -/
theorem passes_and_lowerings_keep_sequence {α : Type} [Scalar α] {g : Graph α}
    (hsequenced : g.Sequenced) :
    (∀ settings pass log report final, Pass.Structural pass →
      Pass.run settings pass ⟨g, log⟩ = .ok report final →
        final.graph.Sequenced ∧ final.graph.last? = g.last? ∧
          final.graph.declarations = g.declarations) ∧
    (∀ equation args node h, (∀ arg ∈ args, ¬ g.Ends arg) →
      Einsum.lower equation args g = .ok node h → h.Sequenced ∧ g.Extends h) ∧
    ∀ node args results h, (∀ arg ∈ args, ¬ g.Ends arg) →
      Loop.lower node args g = .ok results h → h.Sequenced ∧ g.Extends h := by
  refine ⟨?_, ?_, ?_⟩
  · intro settings pass log report final hpass hrun
    exact Pass.sequenced_of_steps
      (hpass.steps hsequenced.toCoherent hsequenced.ordered hrun) hsequenced
  · intro equation args node h hargs hrun
    obtain ⟨hsequenced', hgrows⟩ := Einsum.lower_sequenced hsequenced hargs hrun
    exact ⟨hsequenced', hgrows.kept⟩
  · intro node args results h hargs hrun
    obtain ⟨hsequenced', hgrows⟩ := Loop.lower_sequenced hsequenced hargs hrun
    exact ⟨hsequenced', hgrows.kept⟩

/-- A matrix that is transposed, made contiguous and transposed back before it is returned. -/
def turnedTwice : Graph (Positioned ℕ) where
  name := "turned"
  nodes :=
    [(0, ⟨.parameter "a" (.strided .float32 [⟨2, 2⟩, ⟨2, 1⟩]),
        .strided .float32 [⟨2, 2⟩, ⟨2, 1⟩], [], []⟩),
     (1, ⟨.transpose [1, 0], .strided .float32 [⟨2, 1⟩, ⟨2, 2⟩], [0], []⟩),
     (2, ⟨.contiguous, .strided .float32 [⟨2, 2⟩, ⟨2, 1⟩], [1], []⟩),
     (3, ⟨.transpose [1, 0], .strided .float32 [⟨2, 1⟩, ⟨2, 2⟩], [2], []⟩),
     (4, ⟨.returns, .ofParts [.strided .float32 [⟨2, 1⟩, ⟨2, 2⟩]], [3], []⟩)]
  vacant := []
  fresh := 5

/-- A scan node that gives the rows of a matrix back as they are. -/
def rowScan : FrameworkNode (Positioned ℕ) where
  name := "rows"
  opType := "Scan"
  attributes :=
    [("body", .graph 0 ((Graph.empty "body").addParameter "x" (.strided .float32 [⟨2, 1⟩])).1),
     ("num_scan_inputs", .int 1)]

theorem sequenced_turnedTwice : turnedTwice.Sequenced where
  toCoherent := by decide
  ordered := by decide
  ends_last := by
    rintro node ⟨stored, hfound, hreturns⟩
    have hends : ∀ entry ∈ turnedTwice.nodes, entry.2.op.isReturns = true →
        turnedTwice.last? = some entry.1 := by decide
    exact hends (node, stored) (mem_nodes_of_find? hfound) hreturns

/-- The state of a computation that went through. -/
def stateAfter? {ε σ β : Type} : EStateM.Result ε σ β → Option σ
  | .ok _ s => some s
  | .error _ _ => none

theorem exists_of_stateAfter? {ε σ β : Type} {result : EStateM.Result ε σ β} {s : σ}
    (hafter : stateAfter? result = some s) : ∃ value, result = .ok value s := by
  cases result with
  | ok value t =>
    cases hafter
    exact ⟨value, rfl⟩
  | error cause t => cases hafter

/-- The pipeline lets the end of the graph read the parameter; an einsum and a scan node over nodes in
the middle go before the end. -/
theorem sequence_kept_in_turnedTwice :
    (∃ report final, Pass.run ⟨false, 1, false⟩ Pass.generic ⟨turnedTwice, []⟩ = .ok report final ∧
      final.graph.order = [0, 4] ∧ final.graph.Sequenced ∧
        final.graph.declarations = turnedTwice.declarations) ∧
    (∃ node h, Einsum.lower "ij,jk->ik" [2, 0] turnedTwice = .ok node h ∧
      h.last? = some 4 ∧ h.Sequenced ∧ turnedTwice.Extends h) ∧
    ∃ results h, Loop.lower rowScan [3] turnedTwice = .ok results h ∧
      h.last? = some 4 ∧ h.Sequenced ∧ turnedTwice.Extends h := by
  obtain ⟨hpasses, heinsum, hscan⟩ := passes_and_lowerings_keep_sequence sequenced_turnedTwice
  have hends : ∀ arg ∈ [0, 2, 3], ¬ turnedTwice.Ends arg := by
    rintro arg hmem ⟨stored, hfound, hreturns⟩
    have hlast := sequenced_turnedTwice.ends_last ⟨stored, hfound, hreturns⟩
    cases hlast
    revert hmem
    decide
  refine ⟨?_, ?_, ?_⟩
  · obtain ⟨final, hfinal, horder⟩ := Option.map_eq_some_iff.1
      (show (stateAfter? (Pass.run ⟨false, 1, false⟩ Pass.generic ⟨turnedTwice, []⟩)).map
        (·.graph.order) = some [0, 4] by decide +kernel)
    obtain ⟨report, hrun⟩ := exists_of_stateAfter? hfinal
    obtain ⟨hsequenced, -, hdeclarations⟩ :=
      hpasses _ _ _ _ _ Pass.structural_generic hrun
    exact ⟨report, final, hrun, horder, hsequenced, hdeclarations⟩
  · obtain ⟨h, hafter, hlast⟩ := Option.map_eq_some_iff.1
      (show (stateAfter? (Einsum.lower "ij,jk->ik" [2, 0] turnedTwice)).map (·.last?) =
        some (some 4) by decide +kernel)
    obtain ⟨node, hrun⟩ := exists_of_stateAfter? hafter
    exact ⟨node, h, hrun, hlast, heinsum _ _ _ _ (by simpa using ⟨hends 2 (by simp), hends 0 (by simp)⟩)
      hrun⟩
  · obtain ⟨h, hafter, hlast⟩ := Option.map_eq_some_iff.1
      (show (stateAfter? (Loop.lower rowScan [3] turnedTwice)).map (·.last?) = some (some 4) by
        decide +kernel)
    obtain ⟨results, hrun⟩ := exists_of_stateAfter? hafter
    exact ⟨results, h, hrun, hlast, hscan _ _ _ _ (by simpa using hends 3 (by simp)) hrun⟩

end TensorGraph
