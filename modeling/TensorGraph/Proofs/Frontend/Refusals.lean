import TensorGraph.Proofs.Einsum.Definition
import TensorGraph.Proofs.Frontend.Assembly
import TensorGraph.Proofs.Graph.History
import TensorGraph.Proofs.Graph.Rollback

/-!
# Refused lowerings

Everything that a lowering adds goes through two insertions. What these keep, both lowerings keep,
wherever they stop.
-/

namespace TensorGraph

variable {α : Type} {property : Emission α → Prop}

/-- What the insertions keep, an emission keeps that is put together from them. -/
theorem Assembles.keeps {β : Type} {used : List NodeId} {emission : Emit α β} {view : β → List NodeId}
    (hassembles : Assembles used emission view) (hstable : Emission.Stable property) :
    Keeps property emission := by
  induction hassembles with
  | pure | graph | refuse => exact fun _ he => he
  | bind _ _ ihFirst ihNext => exact ihFirst.bind ihNext
  | weaken _ _ _ ih => exact ih
  | checked computed =>
    intro e he
    cases computed <;> exact he
  | @add used op inputs modules =>
    intro e he
    show property (finalState (EStateM.bind (liftM (e.graph.add op inputs modules)) Emit.noted e))
    cases hadd : e.graph.add op inputs modules with
    | ok added => exact hstable.add he hadd
    | error cause => exact he
  | literal value => exact fun _ he => hstable.literal value he

theorem Einsum.restores_lower [Scalar α] (equation : String) (args : List NodeId) :
    Restores (lower equation args : Change EinsumError α NodeId) := by
  refine .outcome_bind fun parsed => .get_bind fun g => .checked_bind fun shapes => ?_
  refine .outcome_bind fun columns => ?_
  exact .widen (.commit fun _ => (assembles_columns columns args).keeps) _

theorem Loop.restores_lower (node : FrameworkNode α) (args : List NodeId) :
    Restores (lower node args : Change (LoopError α) α (List NodeId)) := by
  refine .get_bind fun g => .outcome_bind fun plan => ?_
  exact .widen (.commit fun _ => (assembles_plan plan args).keeps) _

/-- A refused einsum or scan node leaves no trace: the graph holds the same instructions under the
same indices in the same order, and whatever is inserted later gets the indices that it would have got
without the refused call. -/
theorem refused_lowering_leaves_no_trace [Scalar α] {g h : Graph α} (hlinked : g.Linked)
    (hrefused : (∃ equation args cause, Einsum.lower equation args g = .error (.refusal cause) h) ∨
      ∃ node args cause, Loop.lower node args g = .error (.refusal cause) h) :
    h.name = g.name ∧ h.nodes = g.nodes ∧
      ∀ insertions, Insertion.answers h insertions = Insertion.answers g insertions := by
  have hsame : g.SameStore h := by
    rcases hrefused with ⟨equation, args, cause, hrun⟩ | ⟨node, args, cause, hrun⟩
    · exact Einsum.restores_lower equation args hlinked hrun
    · exact Loop.restores_lower node args hlinked hrun
  exact ⟨hsame.name, hsame.nodes, Insertion.answers_sameStore hsame⟩

/-- Whether a computation was refused. -/
def isRefused {ε σ β : Type} : EStateM.Result (Stop ε) σ β → Bool
  | .error (.refusal _) _ => true
  | _ => false

theorem exists_refusal {ε σ β : Type} {result : EStateM.Result (Stop ε) σ β}
    (hrefused : isRefused result = true) : ∃ cause s, result = .error (.refusal cause) s := by
  rcases result with ⟨value, s⟩ | ⟨cause | cause, s⟩
  · cases hrefused
  · cases hrefused
  · exact ⟨cause, s, rfl⟩

/-- A matrix and a vector of two element types, with an index in between that was given back. -/
def mixedArguments : Graph (Positioned ℕ) where
  name := "mixed"
  nodes :=
    [(2, ⟨.parameter "b" (.strided .int32 [⟨2, 1⟩]), .strided .int32 [⟨2, 1⟩], [], []⟩),
     (0, ⟨.parameter "a" (.strided .float32 [⟨2, 2⟩, ⟨2, 1⟩]),
        .strided .float32 [⟨2, 2⟩, ⟨2, 1⟩], [], []⟩)]
  vacant := [1]
  fresh := 3

theorem linked_mixedArguments : mixedArguments.Linked :=
  (by decide : mixedArguments.Coherent).linked

/-- A scan node whose body takes longer vectors than the slices of the matrix. -/
def longerScan : FrameworkNode (Positioned ℕ) where
  name := "longer"
  opType := "Scan"
  attributes :=
    [("body", .graph 0 ((Graph.empty "body").addParameter "x" (.strided .float32 [⟨3, 1⟩])).1),
     ("num_scan_inputs", .int 1)]

/-- The einsum is refused at its product, after the diagonal was embedded and gathered; the scan node
is refused after all slices were cut. -/
theorem no_trace_in_mixedArguments :
    (∃ cause h, Einsum.lower "ii,i->i" [0, 2] mixedArguments = .error (.refusal cause) h ∧
      h.nodes = mixedArguments.nodes ∧ ∀ insertions,
        Insertion.answers h insertions = Insertion.answers mixedArguments insertions) ∧
    ∃ cause h, Loop.lower longerScan [0] mixedArguments = .error (.refusal cause) h ∧
      h.nodes = mixedArguments.nodes ∧ ∀ insertions,
        Insertion.answers h insertions = Insertion.answers mixedArguments insertions := by
  have heinsum : isRefused (Einsum.lower "ii,i->i" [0, 2] mixedArguments) = true := by
    decide +kernel
  have hscan : isRefused (Loop.lower longerScan [0] mixedArguments) = true := by decide +kernel
  obtain ⟨cause, h, hrun⟩ := exists_refusal heinsum
  obtain ⟨cause', h', hrun'⟩ := exists_refusal hscan
  exact ⟨⟨cause, h, hrun, (refused_lowering_leaves_no_trace linked_mixedArguments
      (.inl ⟨_, _, cause, hrun⟩)).2⟩,
    cause', h', hrun', (refused_lowering_leaves_no_trace linked_mixedArguments
      (.inr ⟨_, _, cause', hrun'⟩)).2⟩

end TensorGraph
