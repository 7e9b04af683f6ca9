import TensorGraph.Graph.Emission
import TensorGraph.Proofs.Graph.Coherence

/-!
# Taking an emission back

A graph hands out indices from an endless supply, first those that are free and then the unused ones.
`SameStore` compares graphs as far as insertions can tell them apart.
-/

namespace TensorGraph

open List

/-- Filtering does not see an item that is put in and does not pass. -/
theorem filter_insertIdx_of_neg {β : Type} {keep : β → Bool} {item : β} (hitem : ¬ keep item = true)
    {items : List β} {position : Nat} :
    (items.insertIdx position item).filter keep = items.filter keep := by
  induction position generalizing items with
  | zero => rw [insertIdx_zero, filter_cons_of_neg hitem]
  | succ position ih =>
    cases items with
    | nil => rfl
    | cons first rest => rw [insertIdx_succ_cons, filter_cons, filter_cons, ih]

namespace Graph

variable {α : Type} {g h k : Graph α} {node : NodeId} {stored : Stored α}
  {position : Nat}

/-- The index that an insertion takes after this many others. -/
def supply (g : Graph α) (count : Nat) : NodeId :=
  g.vacant[count]?.getD (g.fresh + (count - g.vacant.length))

theorem supply_zero : g.supply 0 = g.nextId := by
  unfold supply nextId
  cases g.vacant <;> simp

/-- An insertion takes the first index of the supply and leaves the others. -/
theorem supply_insertAt (count : Nat) :
    (g.insertAt stored position).1.supply count = g.supply (count + 1) := by
  unfold supply insertAt
  cases g.vacant with
  | nil => simp [Nat.add_assoc, Nat.add_comm 1]
  | cons first rest => simp

/-- An index that is given back is the next one to be taken. -/
theorem supply_erase_zero (hlive : node ∈ g.order) : (g.erase node).supply 0 = node := by
  rw [erase, if_pos (Graph.contains_iff.2 hlive), supply]
  rfl

theorem supply_erase_succ (hlive : node ∈ g.order) (count : Nat) :
    (g.erase node).supply (count + 1) = g.supply count := by
  rw [erase, if_pos (Graph.contains_iff.2 hlive), supply, supply]
  simp

/-- The same name, the same instructions under the same indices in the same order, and the same supply
of indices. -/
structure SameStore (g h : Graph α) : Prop where
  name : h.name = g.name
  nodes : h.nodes = g.nodes
  supply : ∀ count, h.supply count = g.supply count

namespace SameStore

theorem refl (g : Graph α) : g.SameStore g := ⟨rfl, rfl, fun _ => rfl⟩

theorem trans (hfirst : g.SameStore h) (hsecond : h.SameStore k) : g.SameStore k where
  name := hsecond.name.trans hfirst.name
  nodes := hsecond.nodes.trans hfirst.nodes
  supply := fun count => (hsecond.supply count).trans (hfirst.supply count)

variable (hsame : g.SameStore h)

include hsame

theorem nextId_eq : h.nextId = g.nextId := by
  rw [← supply_zero, hsame.supply, supply_zero]

theorem insertAt : (g.insertAt stored position).1.SameStore (h.insertAt stored position).1 where
  name := by
    unfold Graph.insertAt
    cases g.vacant <;> cases h.vacant <;> exact hsame.name
  nodes := by rw [nodes_insertAt, nodes_insertAt, hsame.nodes, hsame.nextId_eq]
  supply := by
    intro count
    rw [supply_insertAt, supply_insertAt, hsame.supply]

theorem erase : (g.erase node).SameStore (h.erase node) := by
  have horder : h.order = g.order := by rw [order, order, hsame.nodes]
  by_cases hlive : node ∈ g.order
  · refine ⟨?_, ?_, ?_⟩
    · rw [Graph.erase, Graph.erase, if_pos (Graph.contains_iff.2 hlive),
        if_pos (Graph.contains_iff.2 (horder ▸ hlive))]
      exact hsame.name
    · rw [Graph.erase, Graph.erase, if_pos (Graph.contains_iff.2 hlive),
        if_pos (Graph.contains_iff.2 (horder ▸ hlive)), hsame.nodes]
    · intro count
      cases count with
      | zero => rw [supply_erase_zero hlive, supply_erase_zero (horder ▸ hlive)]
      | succ count =>
        rw [supply_erase_succ hlive, supply_erase_succ (horder ▸ hlive), hsame.supply]
  · rw [Graph.erase, Graph.erase, if_neg (mt Graph.contains_iff.1 hlive),
      if_neg (mt Graph.contains_iff.1 (horder ▸ hlive))]
    exact hsame

/-- What is computed from the instructions is the same. -/
theorem inferOver_eq (node? : Option NodeId) (op : Operator α) (inputs : List NodeId)
    (modules : List (Graph α)) :
    h.inferOver node? op inputs modules = g.inferOver node? op inputs modules := by
  unfold inferOver Graph.shapes Graph.shape Graph.instruction find?
  rw [hsame.nodes]

theorem shapes_eq (inputs : List NodeId) : h.shapes inputs = g.shapes inputs := by
  unfold Graph.shapes Graph.shape Graph.instruction find?
  rw [hsame.nodes]

theorem size_eq : h.size = g.size := by rw [size, size, hsame.nodes]

theorem appendPosition_eq : h.appendPosition = g.appendPosition := by
  unfold appendPosition endsInReturns
  rw [hsame.nodes, hsame.size_eq]

theorem hasConsumers_eq (node : NodeId) : h.hasConsumers node = g.hasConsumers node := by
  unfold hasConsumers
  rw [hsame.nodes]

end SameStore

/-- What the store of a graph sees to by itself: indices are in order, and arguments are in the
graph. -/
structure Linked (g : Graph α) : Prop extends Indexed g where
  input_live : ∀ entry ∈ g.nodes, ∀ input ∈ entry.2.inputs, input ∈ g.order

theorem Coherent.linked (hcoherent : g.Coherent) : g.Linked where
  toIndexed := hcoherent.toIndexed
  input_live := by
    rintro ⟨node, stored⟩ hentry input hinput
    have hfound := (find?_eq_some_iff hcoherent.nodup).2 hentry
    exact (hcoherent.settled node stored hfound).input_mem_order hinput

theorem Linked.insertAt (hlinked : g.Linked) (hposition : position ≤ g.size)
    (hinputs : ∀ input ∈ stored.inputs, input ∈ g.order) :
    (g.insertAt stored position).1.Linked where
  toIndexed := hlinked.toIndexed.insertAt hposition
  input_live := by
    intro entry hentry input hinput
    rw [nodes_insertAt, mem_insertIdx (by simpa [size] using hposition)] at hentry
    rw [mem_order_insertAt hposition]
    right
    rcases hentry with rfl | hentry
    · exact hinputs input hinput
    · exact hlinked.input_live entry hentry input hinput

/-- Nothing reads a node that has just been inserted. -/
theorem Linked.hasConsumers_inserted (hlinked : g.Linked) (hposition : position ≤ g.size)
    (hinputs : ∀ input ∈ stored.inputs, input ∈ g.order) :
    (g.insertAt stored position).1.hasConsumers g.nextId = false := by
  rw [hasConsumers_eq_false_iff]
  intro entry hentry hreads
  rw [nodes_insertAt, mem_insertIdx (by simpa [size] using hposition)] at hentry
  apply nextId_notMem hlinked.toIndexed
  rcases hentry with rfl | hentry
  · exact hinputs _ hreads
  · exact hlinked.input_live entry hentry _ hreads

/-- An instruction that is inserted and taken out again leaves nothing behind. -/
theorem Indexed.sameStore_erase_insertAt (hindexed : g.Indexed) (hposition : position ≤ g.size) :
    g.SameStore ((g.insertAt stored position).1.erase g.nextId) := by
  have hlive : g.nextId ∈ (g.insertAt stored position).1.order :=
    (mem_order_insertAt hposition).2 (.inl rfl)
  refine ⟨?_, ?_, ?_⟩
  · rw [Graph.erase, if_pos (Graph.contains_iff.2 hlive)]
    unfold Graph.insertAt
    cases g.vacant <;> rfl
  · -- The inserted node is the only one that is filtered out.
    have hothers : ∀ entry ∈ g.nodes, (entry.1 != g.nextId) = true := by
      intro entry hentry
      rw [bne_iff_ne]
      intro heq
      exact nextId_notMem hindexed (heq ▸ mem_map_of_mem hentry)
    rw [Graph.erase, if_pos (Graph.contains_iff.2 hlive)]
    show ((g.insertAt stored position).1.nodes.filter fun entry => entry.1 != g.nextId) = g.nodes
    rw [nodes_insertAt, filter_insertIdx_of_neg (by simp), filter_eq_self.2 hothers]
  · intro count
    cases count with
    | zero => rw [supply_erase_zero hlive, supply_zero]
    | succ count => rw [supply_erase_succ hlive, supply_insertAt]

end Graph

section Keeps

variable {α β γ : Type} {property : Emission α → Prop}

/-- An emission as one more node leaves it. -/
def Emission.push (e : Emission α) (added : Graph α × NodeId) : Emission α :=
  ⟨added.1, added.2 :: e.added⟩

/-- A property of emissions that appending an operator and embedding a value keep. -/
structure Emission.Stable (property : Emission α → Prop) : Prop where
  add : ∀ {e op inputs modules added}, property e → e.graph.add op inputs modules = .ok added →
    property (e.push added)
  literal : ∀ {e} (value : Tensor α), property e → property (e.push (e.graph.addLiteral value))

/-- Where a computation ends, whether it goes through or stops. -/
def finalState {ε σ : Type} : EStateM.Result ε σ β → σ
  | .ok _ s => s
  | .error _ s => s

/-- A computation keeps a property of its state, also when it stops. -/
def Keeps {ε σ : Type} (property : σ → Prop) (run : EStateM ε σ β) : Prop :=
  ∀ s, property s → property (finalState (run s))

namespace Keeps

variable {ε σ : Type} {kept : σ → Prop}

theorem bind {first : EStateM ε σ γ} {next : γ → EStateM ε σ β} (hfirst : Keeps kept first)
    (hnext : ∀ value, Keeps kept (next value)) : Keeps kept (first >>= next) := by
  intro s hs
  have hafter := hfirst s hs
  show kept (finalState (EStateM.bind first next s))
  unfold EStateM.bind
  cases hrun : first s with
  | ok value t =>
    rw [hrun] at hafter
    exact hnext value t hafter
  | error cause t =>
    rw [hrun] at hafter
    exact hafter

end Keeps

end Keeps

section Undo

open Graph

variable {α β γ ε δ : Type} {g h : Graph α} {e : Emission α}

/-- What is taken back depends on nothing that insertions cannot see. -/
theorem Graph.SameStore.undo (hsame : g.SameStore h) (added : List NodeId) :
    (Emit.undo g added).SameStore (Emit.undo h added) := by
  induction added generalizing g h with
  | nil => exact hsame
  | cons node rest ih =>
    apply ih
    simp only [Graph.remove, hsame.hasConsumers_eq]
    cases g.hasConsumers node with
    | true => exact hsame
    | false => exact hsame.erase

/-- Taking the added nodes out gives a graph back, as far as insertions can tell. -/
structure Emission.Recovers (g : Graph α) (e : Emission α) : Prop where
  linked : e.graph.Linked
  restored : g.SameStore (Emit.undo e.graph e.added)

/-- One more node is taken out before all others, and nothing reads it. -/
theorem Emission.Recovers.push {stored : Stored α} {position : Nat}
    (hrecovers : e.Recovers g) (hposition : position ≤ e.graph.size)
    (hinputs : ∀ input ∈ stored.inputs, input ∈ e.graph.order) :
    (e.push (e.graph.insertAt stored position)).Recovers g where
  linked := hrecovers.linked.insertAt hposition hinputs
  restored := by
    have hremove : (e.graph.insertAt stored position).1.remove e.graph.nextId =
        .ok ((e.graph.insertAt stored position).1.erase e.graph.nextId) := by
      rw [Graph.remove, hrecovers.linked.hasConsumers_inserted hposition hinputs]
      rfl
    have hundo : Emit.undo (e.push (e.graph.insertAt stored position)).graph
          (e.push (e.graph.insertAt stored position)).added =
        Emit.undo ((e.graph.insertAt stored position).1.erase e.graph.nextId) e.added := by
      simp only [Emission.push, Emit.undo, foldl_cons, insertAt_snd, hremove]
    rw [hundo]
    exact hrecovers.restored.trans
      ((hrecovers.linked.toIndexed.sameStore_erase_insertAt hposition).undo e.added)

theorem Emission.stable_recovers (g : Graph α) : Emission.Stable (Emission.Recovers g) where
  add := by
    intro e op inputs modules added hrecovers hadd
    obtain ⟨shape, hshape, hinsert⟩ := bind_eq_ok_iff.1 hadd
    cases hinsert
    obtain ⟨shapes, hshapes, -⟩ := inferOver_eq_ok_iff.1 hshape
    exact hrecovers.push e.graph.appendPosition_le fun _ hinput =>
      mem_order_of_shapes hshapes hinput
  literal := by
    intro e value hrecovers
    exact hrecovers.push (Nat.zero_le _) (by simp)

/-- A change that stops leaves a graph that insertions cannot tell from the one before. -/
def Restores (change : Change ε α β) : Prop :=
  ∀ ⦃g cause h⦄, g.Linked → change g = .error cause h → g.SameStore h

namespace Restores

/-- An emission that is put together from insertions is taken back when it stops. -/
theorem commit {emission : Emit α β}
    (hkeeps : ∀ property, Emission.Stable property → Keeps property emission) :
    Restores (Emit.commit emission) := by
  intro g cause h hlinked hrun
  have hfinal := hkeeps _ (Emission.stable_recovers g) ⟨g, []⟩ ⟨hlinked, .refl g⟩
  unfold Emit.commit at hrun
  cases hemission : emission ⟨g, []⟩ with
  | ok value e =>
    rw [hemission] at hrun
    cases hrun
  | error stop e =>
    rw [hemission] at hrun hfinal
    cases hrun
    exact hfinal.restored

theorem widen {change : Change ε α β} (hrestores : Restores change) (wrap : ε → δ) :
    Restores (change.widen wrap) := by
  intro g cause h hlinked hrun
  unfold Change.widen at hrun
  cases hchange : change g with
  | ok value k =>
    rw [hchange] at hrun
    cases hrun
  | error stop k =>
    rw [hchange] at hrun
    cases stop <;> cases hrun <;> exact hrestores hlinked hchange

/-- What only looks at the graph comes first. -/
theorem outcome_bind {computed : Outcome ε γ} {next : γ → Change ε α β}
    (hnext : ∀ value, Restores (next value)) :
    Restores (liftM computed >>= next : Change ε α β) := by
  intro g cause h hlinked hrun
  cases computed with
  | ok value => exact hnext value hlinked hrun
  | error stop =>
    cases hrun
    exact .refl g

theorem checked_bind {computed : Checked γ} {next : γ → Change ε α β}
    (hnext : ∀ value, Restores (next value)) :
    Restores (liftM computed >>= next : Change ε α β) := by
  intro g cause h hlinked hrun
  cases computed with
  | ok value => exact hnext value hlinked hrun
  | error stop =>
    cases hrun
    exact .refl g

theorem get_bind {next : Graph α → Change ε α β} (hnext : ∀ g, Restores (next g)) :
    Restores (get >>= next : Change ε α β) :=
  fun g _ _ hlinked hrun => hnext g hlinked hrun

end Restores

end Undo

/-- One call that inserts a node. -/
inductive Insertion (α : Type)
  | parameter (name : String) (shape : Shape)
  | literal (value : Tensor α)
  | add (op : Operator α) (inputs : List NodeId) (modules : List (Graph α))
  | returns (inputs : List NodeId)

namespace Insertion

open Graph

variable {α : Type} {g h : Graph α}

/-- What an insertion makes of a graph, with the index of the new node. -/
def insert (g : Graph α) : Insertion α → Outcome GraphError (Graph α × NodeId)
  | .parameter name shape => return g.addParameter name shape
  | .literal value => return g.addLiteral value
  | .add op inputs modules => g.add op inputs modules
  | .returns inputs => g.addReturns inputs

/-- The answers to a sequence of insertions: the index of the new node, or why there is none. -/
def answers : Graph α → List (Insertion α) → List (Outcome GraphError NodeId)
  | _, [] => []
  | g, insertion :: rest =>
    match insertion.insert g with
    | .ok (g, node) => .ok node :: answers g rest
    | .error cause => .error cause :: answers g rest

/-- What an insertion puts where depends on nothing but the instructions. -/
theorem insert_sameStore (hsame : g.SameStore h) (insertion : Insertion α) :
    (∃ cause, insertion.insert g = .error cause ∧ insertion.insert h = .error cause) ∨
      ∃ stored position, insertion.insert g = .ok (g.insertAt stored position) ∧
        insertion.insert h = .ok (h.insertAt stored position) := by
  cases insertion with
  | parameter name shape | literal value => exact .inr ⟨_, _, rfl, rfl⟩
  | add op inputs modules =>
    simp only [insert, Graph.add, hsame.inferOver_eq, hsame.appendPosition_eq]
    cases g.inferOver none op inputs modules with
    | ok shape => exact .inr ⟨_, _, rfl, rfl⟩
    | error cause => exact .inl ⟨cause, rfl, rfl⟩
  | returns inputs =>
    simp only [insert, Graph.addReturns, hsame.shapes_eq, hsame.size_eq]
    cases g.shapes inputs with
    | ok shapes => exact .inr ⟨_, _, rfl, rfl⟩
    | error cause => exact .inl ⟨.fault cause, rfl, rfl⟩

/-- Insertions cannot tell graphs with the same store apart. -/
theorem answers_sameStore (hsame : g.SameStore h) (insertions : List (Insertion α)) :
    answers h insertions = answers g insertions := by
  induction insertions generalizing g h with
  | nil => rfl
  | cons insertion rest ih =>
    rcases insert_sameStore hsame insertion with ⟨cause, hg, hh⟩ | ⟨stored, position, hg, hh⟩
    · simp only [answers, hg, hh, ih hsame]
    · have hid : (h.insertAt stored position).2 = (g.insertAt stored position).2 := by
        rw [insertAt_snd, insertAt_snd, hsame.nextId_eq]
      simp only [answers, hg, hh, hid, ih hsame.insertAt]

end Insertion

end TensorGraph
