import TensorGraph.Proofs.Frontend.Assembly
import TensorGraph.Proofs.Graph.Sequence

/-!
# What lowered instructions read

When no argument of a lowered node ends the graph, no instruction is put over a node that does.
-/

namespace TensorGraph

open Graph

variable {α β γ : Type} {used args : List NodeId}

/-- An emission that goes through, and that may read some nodes that do not end the graph, leaves the
graph a sequence and gives nodes that do not end it either. -/
def Wires (used : List NodeId) (emission : Emit α β) (view : β → List NodeId) : Prop :=
  ∀ ⦃e e' : Emission α⦄ ⦃value : β⦄, e.graph.Sequenced → (∀ node ∈ used, ¬ e.graph.Ends node) →
    emission e = .ok value e' →
      e'.graph.Sequenced ∧ e.graph.Grows e'.graph ∧ ∀ node ∈ view value, ¬ e'.graph.Ends node

/-- Inserting keeps a graph a sequence as long as nothing reads a node that ends it. -/
theorem Assembles.wires {emission : Emit α β} {view : β → List NodeId}
    (hassembles : Assembles used emission view) : Wires used emission view := by
  induction hassembles with
  | pure hview =>
    intro e e' _ hsequenced hused hrun
    cases hrun
    exact ⟨hsequenced, .refl _, fun node hnode => hused node (hview node hnode)⟩
  | bind _ _ ihFirst ihNext =>
    intro e e' result hsequenced hused hrun
    obtain ⟨value, middle, hrun, hrun'⟩ := stateBind_eq_ok_iff.1 hrun
    obtain ⟨hsequenced', hgrows, hseen⟩ := ihFirst hsequenced hused hrun
    have hboth : ∀ node ∈ _ ++ _, ¬ middle.graph.Ends node := fun node hnode =>
      (List.mem_append.1 hnode).elim (hseen node) fun hnode hends =>
        hused node hnode (hgrows.ends hends)
    obtain ⟨hsequenced'', hgrows', hview⟩ := ihNext value hsequenced' hboth hrun'
    exact ⟨hsequenced'', hgrows.trans hgrows', hview⟩
  | weaken _ hused hview ih =>
    intro e e' value hsequenced hwider hrun
    obtain ⟨hsequenced', hgrows, hseen⟩ :=
      ih hsequenced (fun node hnode => hwider node (hused node hnode)) hrun
    exact ⟨hsequenced', hgrows, fun node hnode => hseen node (hview value node hnode)⟩
  | graph =>
    intro e e' value hsequenced _ hrun
    cases hrun
    exact ⟨hsequenced, .refl _, by simp⟩
  | checked computed =>
    intro e e' value hsequenced _ hrun
    cases computed with
    | error cause => cases hrun
    | ok value =>
      cases hrun
      exact ⟨hsequenced, .refl _, by simp⟩
  | refuse cause view =>
    intro e e' value _ _ hrun
    cases hrun
  | @add used op inputs modules hop hinputs =>
    intro e e' node hsequenced hused hrun
    obtain ⟨_, _, hget, hrun⟩ := stateBind_eq_ok_iff.1 hrun
    cases hget
    obtain ⟨added, middle, hadd, hrun⟩ := stateBind_eq_ok_iff.1 hrun
    cases hadded : e.graph.add op inputs modules with
    | error cause =>
      rw [hadded] at hadd
      cases hadd
    | ok own =>
      rw [hadded] at hadd
      cases hadd
      cases hrun
      obtain ⟨hsequenced', hgrows, hends⟩ :=
        hsequenced.add hadded hop fun input hinput => hused input (hinputs input hinput)
      exact ⟨hsequenced', hgrows, by simpa using hends⟩
  | literal value =>
    intro e e' node hsequenced _ hrun
    cases hrun
    obtain ⟨hsequenced', hgrows, hends⟩ := hsequenced.addLiteral value
    exact ⟨hsequenced', hgrows, by simpa using hends⟩

/-- An emission that is carried out on a graph. -/
theorem Assembles.commit {emission : Emit α β} {view : β → List NodeId}
    (hassembles : Assembles used emission view) {g h : Graph α}
    (hsequenced : g.Sequenced) (hused : ∀ node ∈ used, ¬ g.Ends node) {value : β}
    (hrun : Emit.commit emission g = .ok value h) : h.Sequenced ∧ g.Grows h := by
  obtain ⟨e, hemitted, rfl⟩ := Emit.commit_eq_ok_iff.1 hrun
  obtain ⟨hsequenced', hgrows, -⟩ := hassembles.wires hsequenced hused hemitted
  exact ⟨hsequenced', hgrows⟩

/-- A lowered einsum over nodes that do not end the graph. -/
theorem Einsum.lower_sequenced [Scalar α] {equation : String} {node : NodeId} {g h : Graph α}
    (hsequenced : g.Sequenced) (hargs : ∀ arg ∈ args, ¬ g.Ends arg)
    (hrun : lower equation args g = .ok node h) : h.Sequenced ∧ g.Grows h := by
  obtain ⟨parsed, -, hrun⟩ := Change.lift_bind_eq_ok_iff.1 hrun
  rw [stateGet_bind] at hrun
  obtain ⟨shapes, -, hrun⟩ := Change.liftChecked_bind_eq_ok_iff.1 hrun
  obtain ⟨columns, -, hemitted⟩ := Change.lift_bind_eq_ok_iff.1 hrun
  exact (assembles_columns columns args).commit hsequenced hargs (Change.widen_eq_ok_iff.1 hemitted)

/-- A lowered scan node over nodes that do not end the graph. -/
theorem Loop.lower_sequenced {node : FrameworkNode α} {g h : Graph α}
    (hsequenced : g.Sequenced) (hargs : ∀ arg ∈ args, ¬ g.Ends arg) {results : List NodeId}
    (hrun : lower node args g = .ok results h) : h.Sequenced ∧ g.Grows h := by
  rw [lower, stateGet_bind] at hrun
  obtain ⟨plan, -, hemitted⟩ := Change.lift_bind_eq_ok_iff.1 hrun
  exact (assembles_plan plan args).commit hsequenced hargs (Change.widen_eq_ok_iff.1 hemitted)

end TensorGraph
