import TensorGraph.Proofs.Graph.Edits

/-!
# Whole histories of a graph

A graph is made by commands, each of which may be refused. After any history that meets no fault the graph
is coherent.
-/

namespace TensorGraph

open List

variable {α : Type} {g : Graph α} {instruction : Stored α}

namespace Graph

variable {g : Graph α} {node : NodeId}

/-! ## Insertion and removal -/

/-- Inserting a settled instruction keeps a graph coherent: nobody reads the new index yet. -/
theorem Coherent.insertAt {position : Nat}
    (hcoherent : g.Coherent) (hposition : position ≤ g.size) (hsettled : g.Settled instruction) :
    (g.insertAt instruction position).1.Coherent where
  toIndexed := hcoherent.toIndexed.insertAt hposition
  settled := by
    have hsame : ∀ input ∈ g.order,
        (g.insertAt instruction position).1.shape input = g.shape input := by
      intro input hinput
      simp only [Graph.shape, Graph.instruction, find?_insertAt hcoherent.toIndexed hposition,
        if_neg (ne_nextId hcoherent.toIndexed hinput)]
    intro node stored hstored
    rw [find?_insertAt hcoherent.toIndexed hposition] at hstored
    have hbefore : g.Settled stored := by
      split_ifs at hstored with heq
      · cases hstored
        exact hsettled
      · exact hcoherent.settled node stored hstored
    exact hbefore.congr fun input hinput => hsame input (hbefore.input_mem_order hinput)

/-- Taking out a node that nobody reads keeps a graph coherent. -/
theorem Coherent.erase (hcoherent : g.Coherent) (hunread : g.hasConsumers node = false) :
    (g.erase node).Coherent where
  toIndexed := hcoherent.toIndexed.erase
  settled := by
    intro other stored hstored
    rw [find?_erase] at hstored
    split_ifs at hstored with heq
    refine (hcoherent.settled other stored hstored).congr fun input hinput => ?_
    have hne : input ≠ node := by
      rintro rfl
      exact hasConsumers_eq_false_iff.1 hunread _ (mem_nodes_of_find? hstored) hinput
    simp only [Graph.shape, Graph.instruction, find?_erase, if_neg hne]

/-- Nothing reads the node, and it need not stay. -/
def Spare (g : Graph α) (node : NodeId) : Prop :=
  g.hasConsumers node = false ∧ g.isKept node = false

/-- Spare nodes are taken out one after another, so many in all. -/
inductive Prunes : Graph α → Nat → Graph α → Prop
  | refl (g : Graph α) : Prunes g 0 g
  | step {g h : Graph α} {node : NodeId} {count : Nat} (hspare : g.Spare node)
      (hrest : Prunes (g.erase node) count h) : Prunes g (count + 1) h

section Prunes

variable {g h k : Graph α} {count more : Nat}

/-- What taking out a spare node keeps, taking out any number of them keeps. -/
theorem Prunes.invariant {motive : Graph α → Prop}
    (herase : ∀ {g : Graph α} {node : NodeId}, motive g → g.hasConsumers node = false →
      g.isKept node = false → motive (g.erase node))
    (hprunes : Prunes g count h) (hbefore : motive g) : motive h := by
  induction hprunes with
  | refl => exact hbefore
  | step hspare _ ih => exact ih (herase hbefore hspare.1 hspare.2)

end Prunes

/-- From some nodes on, spare nodes are taken out, so many in all. Where one is taken out, its inputs are
visited next. -/
inductive Removes : Graph α → List NodeId → Nat → Graph α → Prop
  | done (g : Graph α) : Removes g [] 0 g
  | stays {g h : Graph α} {node : NodeId} {nodes : List NodeId} {count : Nat}
      (hstays : ¬ g.Spare node) (hrest : Removes g nodes count h) : Removes g (node :: nodes) count h
  | erase {g h : Graph α} {node : NodeId} {nodes : List NodeId} {count : Nat} (hspare : g.Spare node)
      (hrest : Removes (g.erase node) ((g.inputs node).eraseDups ++ nodes) count h) :
      Removes g (node :: nodes) (count + 1) h

section Removes

variable {g h k : Graph α} {nodes others : List NodeId} {count more bound : Nat}

theorem Removes.append (hfirst : Removes g nodes count h) (hsecond : Removes h others more k) :
    Removes g (nodes ++ others) (count + more) k := by
  induction hfirst with
  | done => rwa [Nat.zero_add]
  | stays hstays _ ih => exact .stays hstays (ih hsecond)
  | erase hspare _ ih =>
    rw [Nat.add_right_comm, cons_append]
    refine .erase hspare ?_
    rw [← append_assoc]
    exact ih hsecond

theorem Removes.prunes (hremoves : Removes g nodes count h) : Prunes g count h := by
  induction hremoves with
  | done g => exact .refl g
  | stays _ _ ih => exact ih
  | erase hspare _ ih => exact .step hspare ih

/-- A node that need not stay is in the graph. -/
theorem mem_order_of_isKept (hkept : g.isKept node = false) : node ∈ g.order := by
  by_contra hmissing
  rw [isKept, find?_eq_none_iff.2 hmissing, Bool.or_true] at hkept
  cases hkept

theorem size_erase_lt (hlive : node ∈ g.order) : (g.erase node).size < g.size := by
  obtain ⟨stored, hfound⟩ := exists_find?_of_mem_order hlive
  rw [erase, if_pos (Graph.contains_iff.2 hlive), size, size]
  apply length_filter_lt_length_iff_exists.2
  exact ⟨(node, stored), mem_nodes_of_find? hfound, by simp⟩

theorem Removes.size_le (hremoves : Removes g nodes count h) : h.size ≤ g.size := by
  induction hremoves with
  | done => exact Nat.le_refl _
  | stays _ _ ih => exact ih
  | erase hspare _ ih =>
    exact Nat.le_trans ih (Nat.le_of_lt (size_erase_lt (mem_order_of_isKept hspare.2)))

/-- The bound on the depth is no limit for a graph of smaller size. -/
theorem removeUnusedWithin_removes (hbound : g.size < bound) :
    Removes g [node] (removeUnusedWithin bound g node).2 (removeUnusedWithin bound g node).1 := by
  induction bound generalizing g node with
  | zero => exact absurd hbound (Nat.not_lt_zero _)
  | succ bound ih =>
    rw [removeUnusedWithin]
    split_ifs with hstays
    · refine .stays (fun hspare => ?_) (.done g)
      rw [hspare.1, hspare.2] at hstays
      cases hstays
    rw [Bool.or_eq_true, not_or, Bool.not_eq_true, Bool.not_eq_true] at hstays
    -- The inputs are worked off one after another, and the numbers add up.
    have hfold : ∀ (inputs : List NodeId) (state : Graph α × Nat), state.1.size < bound →
        let final := inputs.foldl (fun (state : Graph α × Nat) input =>
          ((removeUnusedWithin bound state.1 input).1,
            state.2 + (removeUnusedWithin bound state.1 input).2)) state
        ∃ more, final.2 = more + state.2 ∧ Removes state.1 inputs more final.1 := by
      intro inputs
      induction inputs with
      | nil => exact fun state _ => ⟨0, (Nat.zero_add _).symm, .done _⟩
      | cons input inputs ihInputs =>
        intro state hsize
        have hfirst : Removes state.1 [input] _ _ := ih hsize
        obtain ⟨more, hmore, hrest⟩ := ihInputs ((removeUnusedWithin bound state.1 input).1,
          state.2 + (removeUnusedWithin bound state.1 input).2) (Nat.lt_of_le_of_lt hfirst.size_le hsize)
        refine ⟨(removeUnusedWithin bound state.1 input).2 + more, hmore.trans ?_, hfirst.append hrest⟩
        rw [Nat.add_right_comm, Nat.add_comm state.2, Nat.add_comm more, Nat.add_right_comm]
    obtain ⟨more, hmore, hremoves⟩ := hfold (g.inputs node).eraseDups (g.erase node, 1)
      (Nat.lt_of_lt_of_le (size_erase_lt (mem_order_of_isKept hstays.2)) (Nat.le_of_lt_succ hbound))
    refine hmore ▸ .erase hstays ?_
    rwa [append_nil]

theorem removeUnused_removes (g : Graph α) (node : NodeId) :
    Removes g [node] (g.removeUnused node).2 (g.removeUnused node).1 :=
  removeUnusedWithin_removes (Nat.lt_succ_self _)

theorem removeUnused_invariant {motive : Graph α → Prop}
    (herase : ∀ {g : Graph α} {node : NodeId}, motive g → g.hasConsumers node = false →
      g.isKept node = false → motive (g.erase node)) (hbefore : motive g) :
    motive (g.removeUnused node).1 :=
  (removeUnused_removes g node).prunes.invariant herase hbefore

end Removes

end Graph

/-! ## Changes that keep a property -/

/-- The graph that a change leaves has a property, unless the change met a fault. -/
def Kept {ε β : Type} (property : Graph α → Prop) :
    EStateM.Result (Stop ε) (Graph α) β → Prop
  | .ok _ g => property g
  | .error (.refusal _) g => property g
  | .error (.fault _) _ => True

section Kept

variable {ε β γ : Type} {property : Graph α → Prop} {g : Graph α}

theorem Kept.bind {first : Change ε α β} {next : β → Change ε α γ}
    (hfirst : Kept property (first g))
    (hnext : ∀ value h, first g = .ok value h → property h → Kept property (next value h)) :
    Kept property ((first >>= next) g) := by
  change Kept property (EStateM.bind first next g)
  unfold EStateM.bind
  cases hrun : first g with
  | ok value h => exact hnext value h hrun (by rwa [hrun] at hfirst)
  | error stop h =>
    rw [hrun] at hfirst
    cases stop <;> exact hfirst

theorem Kept.lift_bind {computed : Outcome ε β} {next : β → Change ε α γ} (hproperty : property g)
    (hnext : ∀ value, computed = .ok value → Kept property (next value g)) :
    Kept property (((liftM computed : Change ε α β) >>= next) g) := by
  rcases computed with (cause | cause) | value
  · trivial
  · exact hproperty
  · exact hnext value rfl

theorem Kept.liftChecked_bind {computed : Checked β} {next : β → Change ε α γ} (hproperty : property g)
    (hnext : ∀ value, computed = .ok value → Kept property (next value g)) :
    Kept property (((liftM computed : Change ε α β) >>= next) g) :=
  @Kept.lift_bind _ _ _ _ _ _ (Outcome.ofChecked computed) _ hproperty fun value hvalue =>
    hnext value (Outcome.ofChecked_eq_ok_iff.1 hvalue)

/-- All or nothing: only a change that succeeds has to be looked at. -/
theorem Kept.transaction {change : Change ε α β} (hproperty : property g)
    (hsuccess : ∀ value h, change g = .ok value h → property h) :
    Kept property (Change.transaction change g) := by
  cases hrun : Change.transaction change g with
  | ok value h => exact hsuccess value h (Edit.transaction_eq_ok_iff.1 hrun)
  | error stop h =>
    rw [Edit.transaction_eq_error hrun]
    cases stop <;> simp [Kept, hproperty]

/-- Going through a list keeps what every step keeps. -/
theorem Kept.mapM {step : β → Change ε α γ}
    (hstep : ∀ item g, property g → Kept property (step item g)) (items : List β)
    (hproperty : property g) : Kept property (items.mapM step g) := by
  induction items generalizing g with
  | nil => exact hproperty
  | cons item items ih =>
    rw [mapM_cons]
    exact .bind (hstep item g hproperty) fun _ h _ hfirst =>
      .bind (ih hfirst) fun _ _ _ hrest => hrest

end Kept

/-! ## Commands -/

/-- One call that builds or edits a graph. -/
inductive Command (α : Type)
  | parameter (name : String) (shape : Shape)
  | literal (value : Tensor α)
  | add (op : Operator α) (inputs : List NodeId) (modules : List (Graph α))
  | returns (inputs : List NodeId)
  | common (op : Operator α) (inputs : List NodeId)
  | replaceArgument (node old new : NodeId)
  | replaceInstruction (old new : NodeId)
  | replaceOperator (node : NodeId) (op : Operator α) (inputs : List NodeId)
      (modules : List (Graph α))
  | reinfer (node : NodeId)
  | remove (node : NodeId)
  | removeUnused (node : NodeId)

namespace Command

/-- What a command does to a graph. -/
def edit : Command α → Edit α Unit
  | .parameter name shape => modify fun g => (g.addParameter name shape).1
  | .literal value => do let _ ← Edit.addLiteral value
  | .add op inputs modules => do let _ ← Edit.add op inputs modules
  | .returns inputs => do set (← (← get).addReturns inputs).1
  | .common op inputs => do let _ ← Edit.addCommon op inputs
  | .replaceArgument node old new => Edit.replaceArgument node old new
  | .replaceInstruction old new => Edit.replaceInstruction old new
  | .replaceOperator node op inputs modules => Edit.replaceOperator node op inputs modules
  | .reinfer node => Edit.reinfer node
  | .remove node => Edit.remove node
  | .removeUnused node => modify fun g => (g.removeUnused node).1

/-- The graph after a command that was carried out or refused. -/
def perform (g : Graph α) (command : Command α) : Checked (Graph α) :=
  match command.edit g with
  | .ok _ h => .ok h
  | .error (.refusal _) h => .ok h
  | .error (.fault cause) _ => .error cause

end Command

open Graph

theorem coherent_addParameter (hcoherent : g.Coherent) (name : String) (shape : Shape) :
    (g.addParameter name shape).1.Coherent :=
  hcoherent.insertAt (Nat.zero_le _) ⟨[], rfl, rfl⟩

theorem coherent_addLiteral (hcoherent : g.Coherent) (value : Tensor α) :
    (g.addLiteral value).1.Coherent :=
  hcoherent.insertAt (Nat.zero_le _) ⟨[], rfl, rfl⟩

theorem add_coherent (hcoherent : g.Coherent) {op : Operator α} {inputs : List NodeId}
    {modules : List (Graph α)} {added : Graph α × NodeId}
    (hadd : g.add op inputs modules = .ok added) : added.1.Coherent := by
  obtain ⟨shape, hshape, hinsert⟩ := bind_eq_ok_iff.1 hadd
  cases hinsert
  exact hcoherent.insertAt g.appendPosition_le (inferOver_eq_ok_iff.1 hshape)

theorem kept_add (hcoherent : g.Coherent) (op : Operator α) (inputs : List NodeId)
    (modules : List (Graph α)) : Kept Coherent (Edit.add op inputs modules g) := by
  rw [Edit.add, stateGet_bind]
  exact .lift_bind hcoherent fun added hadd => add_coherent hcoherent hadd

theorem kept_addCommon (hcoherent : g.Coherent) (op : Operator α) (inputs : List NodeId) :
    Kept Coherent (Edit.addCommon op inputs g) := by
  rw [Edit.addCommon, stateGet_bind]
  refine .liftChecked_bind hcoherent fun shapes _ => ?_
  cases Shape.commonLens shapes with
  | none => exact hcoherent
  | some lens =>
    refine .bind (.mapM (fun item h hcoherent => ?_) _ hcoherent) fun args h _ hcoherent =>
      kept_add hcoherent op args []
    obtain ⟨input, shape⟩ := item
    change Kept Coherent ((if shape.lens = lens then pure input
      else Edit.add (.broadcast lens) [input] [] : Edit α NodeId) h)
    split_ifs
    · exact hcoherent
    · exact kept_add hcoherent _ _ _

/-- What every rerouting keeps, replacing a node keeps. -/
theorem kept_replaceInstruction {motive : Graph α → Prop} {old new : NodeId}
    (hreroute : ∀ {consumer : NodeId} {g h : Graph α}, motive g →
      Edit.reroute consumer old new g = .ok () h → motive h) (hbefore : motive g) :
    Kept motive (Edit.replaceInstruction old new g) := by
  refine .transaction hbefore fun _ final hrun => ?_
  rw [stateGet_bind] at hrun
  refine forM_invariant (fun {consumer h next} hkept hstep => ?_) hbefore hrun
  split_ifs at hstep
  · cases hstep
    exact hkept
  · exact hreroute hkept hstep

theorem replaceInstruction_invariant {motive : Graph α → Prop} {old new : NodeId} {h : Graph α}
    (hreroute : ∀ {consumer : NodeId} {g h : Graph α}, motive g →
      Edit.reroute consumer old new g = .ok () h → motive h) (hbefore : motive g)
    (hrun : Edit.replaceInstruction old new g = .ok () h) : motive h := by
  have hkept := kept_replaceInstruction hreroute hbefore
  rwa [hrun] at hkept

/-- Re-inference has nothing to do in a coherent graph, and looking for a missing node is a fault. -/
theorem kept_reinfer (hcoherent : g.Coherent) (node : NodeId) :
    Kept Coherent (Edit.reinfer node g) := by
  by_cases hlive : node ∈ g.order
  · obtain ⟨instruction, hfound⟩ := exists_find?_of_mem_order hlive
    rw [Edit.reinfer_of_settled hfound (hcoherent.settled _ _ hfound)]
    exact hcoherent
  · have hmissing : g.instruction node = .error .missingNode := by
      simp [Graph.instruction, find?_eq_none_iff.2 hlive]
    obtain ⟨bound, hbound⟩ := Edit.exists_chainBound_eq g
    rw [Edit.reinfer, stateGet_bind, hbound, Edit.reinferWithin, stateGet_bind]
    refine .liftChecked_bind hcoherent fun instruction hinstruction => ?_
    cases hmissing.symm.trans hinstruction

/-- One command that returns leaves a coherent graph coherent. -/
theorem perform_coherent {final : Graph α} {command : Command α} (hcoherent : g.Coherent)
    (hrun : command.perform g = .ok final) : final.Coherent := by
  have hkept : Kept Coherent (command.edit g) := by
    cases command with
    | parameter name shape => exact coherent_addParameter hcoherent name shape
    | literal value => exact coherent_addLiteral hcoherent value
    | add op inputs modules => exact .bind (kept_add hcoherent op inputs modules) fun _ _ _ h => h
    | returns inputs =>
      rw [Command.edit, stateGet_bind]
      refine .liftChecked_bind hcoherent fun added hadd => ?_
      obtain ⟨shapes, hshapes, hinsert⟩ := bind_eq_ok_iff.1 hadd
      cases hinsert
      exact hcoherent.insertAt (Nat.le_refl _) ⟨shapes, hshapes, rfl⟩
    | common op inputs => exact .bind (kept_addCommon hcoherent op inputs) fun _ _ _ h => h
    | replaceArgument node old new =>
      exact .transaction hcoherent fun _ _ hrun => Edit.reroute_coherent hcoherent hrun
    | replaceInstruction old new =>
      exact kept_replaceInstruction (fun hbefore hrun => Edit.reroute_coherent hbefore hrun)
        hcoherent
    | replaceOperator node op inputs modules =>
      refine .transaction hcoherent fun _ _ hrun => ?_
      obtain ⟨stored, shape, hfound, hshape, hrun⟩ :=
        Edit.replaceOperator_eq_ok_iff.1 (Edit.transaction_eq_ok_iff.2 hrun)
      exact Edit.install_coherent hcoherent hfound (inferOver_eq_ok_iff.1 hshape) hrun
    | reinfer node => exact kept_reinfer hcoherent node
    | remove node =>
      rw [Command.edit, Edit.remove, stateGet_bind]
      refine .lift_bind hcoherent fun removed hremove => ?_
      obtain ⟨hunread, rfl⟩ := remove_eq_ok_iff.1 hremove
      exact hcoherent.erase hunread
    | removeUnused node =>
      exact removeUnused_invariant (fun hbefore hunread _ => hbefore.erase hunread) hcoherent
  unfold Command.perform at hrun
  cases hedit : command.edit g with
  | ok value h => simp_all [Kept]
  | error stop h => cases stop <;> simp_all [Kept]

/-! ## Histories -/

/-- The graph after a history of commands, each carried out or refused. -/
def Command.history (name : String) (commands : List (Command α)) : Checked (Graph α) :=
  commands.foldlM perform (Graph.empty name)

theorem history_coherent {name : String} {commands : List (Command α)}
    (hhistory : Command.history name commands = .ok g) : g.Coherent := by
  unfold Command.history at hhistory
  have hstart : (Graph.empty name : Graph α).Coherent := coherent_empty name
  generalize Graph.empty name = start at hhistory hstart
  induction commands generalizing start with
  | nil =>
    cases hhistory
    exact hstart
  | cons command commands ih =>
    rw [foldlM_cons] at hhistory
    obtain ⟨next, hnext, hrest⟩ := bind_eq_ok_iff.1 hhistory
    exact ih next hrest (perform_coherent hstart hnext)

/-- An argument: the target reads the source in this position. -/
structure Edge where
  source : NodeId
  target : NodeId
  position : Nat

namespace Graph

variable {g : Graph α}

/-- The arguments of an instruction under an index. -/
def argumentEdges (entry : NodeId × Instruction α (Graph α)) : List Edge :=
  entry.2.inputs.zipIdx.map fun (source, position) => ⟨source, entry.1, position⟩

theorem target_of_mem_argumentEdges {entry : NodeId × Instruction α (Graph α)} {edge : Edge}
    (hedge : edge ∈ argumentEdges entry) : edge.target = entry.1 := by
  obtain ⟨_, -, rfl⟩ := mem_map.1 hedge
  rfl

/-- All arguments in the graph. -/
def edges (g : Graph α) : List Edge := g.nodes.flatMap argumentEdges

/-- The arguments of one node, picked out of all. -/
def incoming (g : Graph α) (node : NodeId) : List Edge :=
  g.edges.filter (·.target = node)

/-- With every index stored once, the incoming arguments of a node are its own ones. -/
theorem incoming_eq (hindexed : g.Indexed) {node : NodeId}
    (hfound : g.find? node = some instruction) :
    g.incoming node = argumentEdges (node, instruction) := by
  have hmem := mem_nodes_of_find? hfound
  have hnodup := hindexed.nodup
  unfold incoming edges
  unfold order at hnodup
  generalize g.nodes = nodes at hmem hnodup
  have hother : ∀ entry : NodeId × Instruction α (Graph α), entry.1 ≠ node →
      (argumentEdges entry).filter (·.target = node) = [] := by
    intro entry hne
    rw [filter_eq_nil_iff]
    exact fun edge hedge => by simpa [target_of_mem_argumentEdges hedge] using hne
  have hown : (argumentEdges (node, instruction)).filter (·.target = node) =
      argumentEdges (node, instruction) := by
    rw [filter_eq_self]
    exact fun edge hedge => by simp [target_of_mem_argumentEdges hedge]
  induction nodes with
  | nil => cases hmem
  | cons entry nodes ih =>
    rw [map_cons, nodup_cons] at hnodup
    rw [flatMap_cons, filter_append]
    rcases mem_cons.1 hmem with rfl | hmem
    · have hrest : (nodes.flatMap argumentEdges).filter (·.target = node) = [] := by
        rw [filter_flatMap, flatMap_eq_nil_iff]
        intro entry hentry
        exact hother entry fun heq => hnodup.1 (mem_map.2 ⟨entry, hentry, heq⟩)
      rw [hown, hrest, append_nil]
    · have hne : entry.1 ≠ node := fun heq => hnodup.1 (heq ▸ mem_map_of_mem hmem)
      rw [hother entry hne, nil_append, ih hmem hnodup.2]

/-- What holds of a graph between commands. -/
structure WellStored (g : Graph α) : Prop where
  /-- The order lists every index at most once. -/
  order_nodup : g.order.Nodup
  /-- The order lists exactly the indices that hold an instruction. -/
  order_live : ∀ node, node ∈ g.order ↔ (g.find? node).isSome
  /-- These are the indices that were given out and not given back. -/
  order_given : ∀ node, node ∈ g.order ↔ node < g.fresh ∧ node ∉ g.vacant
  /-- Every argument comes from a node of the graph. -/
  incoming_live : ∀ node ∈ g.order, ∀ edge ∈ g.incoming node, edge.source ∈ g.order
  /-- The positions of the arguments of a node are consecutive from zero, each taken once. -/
  incoming_positions : ∀ node ∈ g.order,
    (g.incoming node).map (·.position) = List.range (g.incoming node).length
  /-- Every cached shape is the one inferred from the shapes of the arguments, in order, and the
  signatures of the modules. -/
  shape_inferred : ∀ node instruction, g.find? node = some instruction →
    ∃ shapes, g.shapes ((g.incoming node).map (·.source)) = .ok shapes ∧
      instruction.op.infer shapes (signatures instruction.modules) = .ok instruction.shape
  /-- Inferring a shape again succeeds and changes nothing. -/
  reinfer_eq_self : ∀ node ∈ g.order, Edit.reinfer node g = .ok () g

theorem map_source_incoming (hindexed : g.Indexed) {node : NodeId}
    (hfound : g.find? node = some instruction) :
    (g.incoming node).map (·.source) = instruction.inputs := by
  rw [incoming_eq hindexed hfound, argumentEdges, map_map]
  exact zipIdx_map_fst 0 instruction.inputs

theorem Coherent.wellStored (hcoherent : g.Coherent) : g.WellStored where
  order_nodup := hcoherent.nodup
  order_live := fun node => find?_isSome_iff.symm
  order_given := hcoherent.mem_order_iff
  incoming_live := by
    intro node hlive edge hedge
    obtain ⟨instruction, hfound⟩ := exists_find?_of_mem_order hlive
    refine (hcoherent.settled node instruction hfound).input_mem_order ?_
    rw [← map_source_incoming hcoherent.toIndexed hfound]
    exact mem_map_of_mem hedge
  incoming_positions := by
    intro node hlive
    obtain ⟨instruction, hfound⟩ := exists_find?_of_mem_order hlive
    rw [incoming_eq hcoherent.toIndexed hfound, argumentEdges, map_map, length_map,
      length_zipIdx, range_eq_range']
    exact zipIdx_map_snd 0 instruction.inputs
  shape_inferred := by
    intro node instruction hfound
    rw [map_source_incoming hcoherent.toIndexed hfound]
    exact hcoherent.settled node instruction hfound
  reinfer_eq_self := by
    intro node hlive
    obtain ⟨instruction, hfound⟩ := exists_find?_of_mem_order hlive
    exact Edit.reinfer_of_settled hfound (hcoherent.settled node instruction hfound)

end Graph

/-- A history with a refused removal, a bypass, the removal of what the bypass left unread, and an
index that is given out again. -/
def bypassHistory : List (Command Unit) :=
  [.parameter "x" (.strided .float32 [⟨2, 1⟩, ⟨3, 2⟩]),
   .add .contiguous [0] [],
   .add (.unary .neg) [1] [],
   .remove 1,
   .replaceArgument 2 1 0,
   .removeUnused 1,
   .literal (.scalar ())]

end TensorGraph
