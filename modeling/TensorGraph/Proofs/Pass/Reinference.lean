import TensorGraph.Proofs.Graph.Acyclicity
import TensorGraph.Proofs.Pass.Outputs

/-!
# Shapes after a replaced argument

In topological order each node is inferred once; `refresh` does that. The edit follows the readers depth
first instead. If it succeeds, it leaves what inference in topological order leaves.
-/

namespace TensorGraph

open Graph List

variable {α : Type} {stored : Stored α} {assigned : NodeId → Shape}

namespace Graph

variable {g h k : Graph α} {node old new other : NodeId} {nodes : List NodeId}

/-! ## Inference in topological order -/

/-- Infer the shape of one node again. -/
def refreshNode (g : Graph α) (node : NodeId) : Outcome GraphError (Graph α) := do
  let instruction ← g.instruction node
  let shape ← g.inferOver (some node) instruction.op instruction.inputs instruction.modules
  return g.setShape node shape

/-- Infer the shapes of nodes again, one after another. -/
def refresh (g : Graph α) (nodes : List NodeId) : Outcome GraphError (Graph α) :=
  nodes.foldlM refreshNode g

/-- A node and all nodes downstream of it in topological order. -/
structure Downstream (g : Graph α) (node : NodeId) (nodes : List NodeId) : Prop where
  nodup : nodes.Nodup
  mem_iff : ∀ other, other ∈ nodes ↔ Pass.Feeds g node other
  ordered : nodes.Pairwise fun earlier later => later ∉ g.inputs earlier

/-- No reader leads out of a list. -/
def ReaderClosed (g : Graph α) (nodes : List NodeId) : Prop :=
  ∀ input ∈ nodes, ∀ reader, input ∈ g.inputs reader → reader ∈ nodes

theorem ReaderClosed.tail (hclosed : g.ReaderClosed (node :: nodes))
    (hlater : ∀ later ∈ nodes, later ∉ g.inputs node) : g.ReaderClosed nodes := by
  intro input hinput reader hreads
  rcases mem_cons.1 (hclosed input (mem_cons_of_mem _ hinput) reader hreads) with rfl | hmem
  · exact absurd hreads (hlater input hinput)
  · exact hmem

theorem SameWiring.readerClosed (hsame : g.SameWiring h) (hclosed : g.ReaderClosed nodes) :
    h.ReaderClosed nodes := by
  intro input hinput reader hreads
  rw [hsame.inputs_eq] at hreads
  exact hclosed input hinput reader hreads

theorem Downstream.readerClosed (hdown : g.Downstream node nodes) : g.ReaderClosed nodes := by
  intro input hinput reader hreads
  exact (hdown.mem_iff reader).2 (((hdown.mem_iff input).1 hinput).tail hreads)

/-- Nodes are downstream if each reads an earlier one of them and all their readers are among them. -/
theorem downstream_of_nodes (hnodup : (node :: nodes).Nodup)
    (hreads : ∀ other ∈ nodes, ∃ input ∈ g.inputs other, input < other ∧ input ∈ node :: nodes)
    (hclosed : ∀ entry ∈ g.nodes, ∀ input ∈ entry.2.inputs, input ∈ node :: nodes →
      entry.1 ∈ node :: nodes)
    (hordered : (node :: nodes).Pairwise fun earlier later => later ∉ g.inputs earlier) :
    g.Downstream node (node :: nodes) := by
  refine ⟨hnodup, fun other => ⟨fun hmem => ?_, Pass.mem_of_feeds hclosed mem_cons_self⟩, hordered⟩
  induction other using Nat.strongRecOn with
  | _ other ih =>
    rcases mem_cons.1 hmem with rfl | hmem
    · exact .refl
    · obtain ⟨input, hinput, hlt, hmem⟩ := hreads other hmem
      exact (ih input hlt hmem).tail hinput

theorem refreshNode_eq_ok_iff :
    g.refreshNode node = .ok h ↔ ∃ stored shape, g.find? node = some stored ∧
      g.inferOver (some node) stored.op stored.inputs stored.modules = .ok shape ∧
      h = g.setShape node shape := by
  unfold refreshNode
  simp only [bind_eq_ok_iff, Outcome.lift_eq_ok_iff, instruction_eq_ok_iff]
  constructor
  · rintro ⟨stored, hfound, shape, hshape, hset⟩
    exact ⟨stored, shape, hfound, hshape, (Except.ok.inj hset).symm⟩
  · rintro ⟨stored, shape, hfound, hshape, rfl⟩
    exact ⟨stored, hfound, shape, hshape, rfl⟩

theorem refreshNode_settles (hsettled : g.SettledOutside (node :: nodes))
    (hreaders : ∀ reader, node ∈ g.inputs reader → reader ∈ nodes)
    (hrun : g.refreshNode node = .ok h) : g.SameWiring h ∧ h.SettledOutside nodes := by
  obtain ⟨stored, shape, hfound, hshape, rfl⟩ := refreshNode_eq_ok_iff.1 hrun
  have hsame := sameWiring_setShape g node shape
  refine ⟨hsame, (hsettled.modifyNode hfound (inferOver_eq_ok_iff.1 hshape)).mono ?_⟩
  intro reader hreader
  rcases mem_append.1 hreader with hreader | hmem
  · exact hreaders reader (hsame.mem_inputs_of_mem_consumers hsettled.indexed.nodup hreader)
  · exact hmem

/-- Inferring pending shapes in order settles everything. -/
theorem coherent_of_refresh (hacyclic : g.Acyclic) (hsettled : g.SettledOutside nodes)
    (hclosed : g.ReaderClosed nodes)
    (hordered : nodes.Pairwise fun earlier later => later ∉ g.inputs earlier)
    (hrun : g.refresh nodes = .ok h) : g.SameWiring h ∧ h.Coherent := by
  induction nodes generalizing g with
  | nil =>
    cases hrun
    exact ⟨.refl _, hsettled.coherent⟩
  | cons node nodes ih =>
    rw [refresh, foldlM_cons] at hrun
    obtain ⟨next, hnext, hrest⟩ := bind_eq_ok_iff.1 hrun
    obtain ⟨hlater, hpairwise⟩ := pairwise_cons.1 hordered
    have hreaders : ∀ reader, node ∈ g.inputs reader → reader ∈ nodes := by
      intro reader hreads
      rcases mem_cons.1 (hclosed node mem_cons_self reader hreads) with rfl | hmem
      · exact absurd hreads (hacyclic.not_mem_inputs _)
      · exact hmem
    obtain ⟨hsame, hsettled'⟩ := refreshNode_settles hsettled hreaders hnext
    obtain ⟨hsame', hcoherent⟩ := ih (hacyclic.of_inputs_eq hsame.inputs_eq) hsettled'
      (hsame.readerClosed (hclosed.tail hlater)) (by simpa only [hsame.inputs_eq] using hpairwise)
      hrest
    exact ⟨hsame.trans hsame', hcoherent⟩

/-- Inferring shapes in order arrives at a coherent graph of the same wiring, if there is one. -/
theorem refresh_of_coherent (hsame : g.SameWiring h) (hcoherent : h.Coherent) (hacyclic : g.Acyclic)
    (hlive : ∀ node ∈ nodes, node ∈ g.order)
    (hordered : nodes.Pairwise fun earlier later => later ∉ g.inputs earlier)
    (hagree : ∀ other ∉ nodes, h.shape other = g.shape other) : g.refresh nodes = .ok h := by
  induction nodes generalizing g with
  | nil =>
    have hnodup : g.order.Nodup := hsame.order ▸ hcoherent.nodup
    rw [hsame.eq_of_shape hnodup fun node => hagree node not_mem_nil]
    rfl
  | cons node nodes ih =>
    obtain ⟨hlater, hpairwise⟩ := pairwise_cons.1 hordered
    rw [forall_mem_cons] at hlive
    obtain ⟨stored, hfound⟩ := exists_find?_of_mem_order hlive.1
    obtain ⟨stored', hfound', hop, hinputs, hmodules⟩ := hsame.exists_find? hfound
    obtain ⟨shapes, hshapes, hinfer⟩ := hcoherent.settled _ _ hfound'
    -- What the node reads comes before it, so it has its final shape already.
    have hread : g.shapes stored.inputs = .ok shapes := by
      rw [← hshapes, hinputs]
      apply shapes_congr
      intro input hinput
      rw [← inputs_of_find? hfound] at hinput
      refine (hagree input fun hmem => ?_).symm
      rcases mem_cons.1 hmem with rfl | hmem
      · exact hacyclic.not_mem_inputs _ hinput
      · exact hlater input hmem hinput
    rw [hop, hmodules] at hinfer
    have hstep : g.refreshNode node = .ok (g.setShape node stored'.shape) :=
      refreshNode_eq_ok_iff.2 ⟨stored, stored'.shape, hfound,
        inferOver_eq_ok_iff.2 ⟨shapes, hread, hinfer⟩, rfl⟩
    have hset := sameWiring_setShape g node stored'.shape
    rw [refresh, foldlM_cons, hstep, ok_bind]
    apply ih (hset.symm.trans hsame) (hacyclic.of_inputs_eq hset.inputs_eq)
    · rw [hset.order]
      exact hlive.2
    · simpa only [hset.inputs_eq] using hpairwise
    · intro other hother
      by_cases heq : other = node
      · subst heq
        rw [shape_of_find? hfound', setShape, shape_modifyNode_self _ hfound]
      · rw [setShape, shape_modifyNode_of_ne heq]
        exact hagree other (by simp [heq, hother])

/-! ## A node that waits for its shape -/

/-- A graph without cycles that is coherent but for the shape of one node. -/
structure Awaits (g : Graph α) (node : NodeId) : Prop where
  acyclic : g.Acyclic
  live : ∀ {reader input}, input ∈ g.inputs reader → input ∈ g.order
  mem : node ∈ g.order
  settled : g.SettledOutside [node]

section Awaits

variable (hawaits : g.Awaits node)

include hawaits

theorem Awaits.nodup : g.order.Nodup := hawaits.settled.indexed.nodup

theorem Awaits.mem_order (hfeeds : Pass.Feeds g node other) : other ∈ g.order := by
  rcases hfeeds.cases_tail with rfl | ⟨_, -, hreads⟩
  · exact hawaits.mem
  · obtain ⟨stored, hfound, -⟩ := exists_find?_of_mem_inputs hreads
    exact mem_order_of_find? hfound

open Classical in
/-- Sorting by rank gives a topological order. -/
theorem Awaits.exists_downstream : ∃ nodes, g.Downstream node nodes := by
  obtain ⟨rank, hranks⟩ := hawaits.acyclic.exists_ranks hawaits.live
  let below := g.order.filter fun other => Pass.Feeds g node other
  let le (a b : NodeId) : Bool := decide (rank a ≤ rank b)
  have hperm := sorted_perm le below
  have htotal : ∀ a b, le a b = true ∨ le b a = true := by
    simpa [le] using fun a b => Nat.le_total (rank a) (rank b)
  have htrans : ∀ a b c, le a b = true → le b c = true → le a c = true := by
    simpa [le] using fun a b c => @Nat.le_trans (rank a) (rank b) (rank c)
  have hsorted := sorted_pairwise htotal htrans below
  refine ⟨sorted le below, hperm.nodup_iff.2 (hawaits.nodup.filter _), fun other => ?_, ?_⟩
  · rw [hperm.mem_iff, mem_filter, decide_eq_true_iff]
    exact ⟨And.right, fun hfeeds => ⟨hawaits.mem_order hfeeds, hfeeds⟩⟩
  · refine hsorted.imp fun {earlier later} hle hreads => ?_
    have hlower := hranks.input_lt hreads
    have hranked := of_decide_eq_true hle
    omega

/-- A coherent graph of the same wiring has the same shapes outside what is downstream. -/
theorem Awaits.shape_eq (hsame : g.SameWiring h) (hcoherent : h.Coherent)
    (hunfed : ¬ Pass.Feeds g node other) : h.shape other = g.shape other := by
  induction other using (hawaits.acyclic.wellFounded hawaits.live).induction with
  | _ other ih =>
    cases hfound : g.find? other with
    | none => simp only [Graph.shape, Graph.instruction, hfound, hsame.find?_eq_none hfound]
    | some stored =>
      have hne : other ∉ [node] := fun hmem => hunfed (mem_singleton.1 hmem ▸ .refl)
      obtain ⟨shapes, hshapes, hinfer⟩ := hawaits.settled.settled _ _ hfound hne
      obtain ⟨stored', hfound', hop, hinputs, hmodules⟩ := hsame.exists_find? hfound
      obtain ⟨shapes', hshapes', hinfer'⟩ := hcoherent.settled _ _ hfound'
      have hread : h.shapes stored.inputs = g.shapes stored.inputs := by
        apply shapes_congr
        intro input hinput
        rw [← inputs_of_find? hfound] at hinput
        exact ih input hinput fun hfeeds => hunfed (hfeeds.tail hinput)
      rw [hinputs, hread] at hshapes'
      cases hshapes.symm.trans hshapes'
      rw [hop, hmodules, hinfer] at hinfer'
      rw [shape_of_find? hfound, shape_eq_ok_iff]
      exact ⟨stored', hfound', (Except.ok.inj hinfer').symm⟩

/-- Inference in topological order finds the one coherent graph of the same wiring. -/
theorem Awaits.refresh_eq_ok_iff (hdown : g.Downstream node nodes) :
    g.refresh nodes = .ok h ↔ g.SameWiring h ∧ h.Coherent := by
  constructor
  · have hself : [node] ⊆ nodes := by simpa using (hdown.mem_iff node).2 .refl
    exact coherent_of_refresh hawaits.acyclic (hawaits.settled.mono hself) hdown.readerClosed
      hdown.ordered
  · rintro ⟨hsame, hcoherent⟩
    refine refresh_of_coherent hsame hcoherent hawaits.acyclic (fun other hother => ?_) hdown.ordered
      fun other hother => hawaits.shape_eq hsame hcoherent fun hfeeds => ?_
    · exact hawaits.mem_order ((hdown.mem_iff other).1 hother)
    · exact hother ((hdown.mem_iff other).2 hfeeds)

end Awaits

/-! ## Pointing a node elsewhere -/

/-- The graph in which a node reads `new` in place of `old`, with all shapes as they are cached. -/
def repoint (g : Graph α) (node old new : NodeId) : Graph α :=
  g.modifyNode node fun instruction =>
    { instruction with inputs := Edit.redirect old new instruction.inputs }

section Repoint

variable (g) (node old new)

theorem order_repoint : (g.repoint node old new).order = g.order := order_modifyNode

theorem shape_repoint (other : NodeId) : (g.repoint node old new).shape other = g.shape other := by
  by_cases heq : other = node
  · subst heq
    simp only [Graph.shape, Graph.instruction, repoint, find?_modifyNode, if_pos]
    cases g.find? other <;> rfl
  · exact shape_modifyNode_of_ne heq

theorem inferOver_repoint (node? : Option NodeId) (op : Operator α) (inputs : List NodeId)
    (modules : List (Graph α)) :
    (g.repoint node old new).inferOver node? op inputs modules =
      g.inferOver node? op inputs modules := by
  rw [inferOver, inferOver, shapes_congr fun input _ => shape_repoint g node old new input]

theorem inputs_repoint (other : NodeId) :
    (g.repoint node old new).inputs other =
      if other = node then Edit.redirect old new (g.inputs other) else g.inputs other := by
  simp only [inputs, repoint, find?_modifyNode]
  split_ifs with heq
  · subst heq
    cases g.find? other <;> rfl
  · rfl

end Repoint

/-- Rerouting installs the new edges together with the new shape of the node. -/
theorem setShape_repoint (hnodup : g.order.Nodup)
    (hfound : g.find? node = some stored) (shape : Shape) :
    (g.repoint node old new).setShape node shape = g.modifyNode node fun instruction =>
      { instruction with inputs := Edit.redirect old new stored.inputs, shape := shape } := by
  simp only [setShape, repoint, modifyNode, map_map, Graph.mk.injEq, true_and, and_true]
  apply map_congr_left
  rintro ⟨id, instruction⟩ hentry
  by_cases heq : id = node
  · subst heq
    cases ((find?_eq_some_iff hnodup).2 hentry).symm.trans hfound
    simp
  · simp [heq]

/-- Pointing a node of a coherent graph elsewhere leaves its shape to be inferred, and no other. -/
theorem Coherent.awaits_repoint (hcoherent : g.Coherent) (hreads : old ∈ g.inputs node)
    (hnew : new ∈ g.order) (hacyclic : (g.repoint node old new).Acyclic) :
    (g.repoint node old new).Awaits node where
  acyclic := hacyclic
  live := by
    intro reader input hinput
    rw [order_repoint]
    rw [inputs_repoint] at hinput
    split_ifs at hinput
    · obtain ⟨before, hbefore, rfl⟩ := mem_map.1 hinput
      split_ifs
      · exact hnew
      · exact hcoherent.mem_order_of_mem_inputs hbefore
    · exact hcoherent.mem_order_of_mem_inputs hinput
  mem := by
    obtain ⟨stored, hfound, -⟩ := exists_find?_of_mem_inputs hreads
    rw [order_repoint]
    exact mem_order_of_find? hfound
  settled :=
    { indexed := hcoherent.toIndexed.modifyNode
      settled := by
        intro other stored hfound hother
        rw [repoint, find?_modifyNode, if_neg (by simpa using hother)] at hfound
        exact (hcoherent.settled other stored hfound).congr fun input _ =>
          shape_repoint g node old new input }

/-! ## Shapes on the way -/

/-- A shape that a node may have while a change of `node` is passed on: the one it has at first, or
what is inferred from shapes on the way. An input that is read twice has one shape at a time. -/
inductive Transient (g : Graph α) (node : NodeId) : NodeId → Shape → Prop
  | cached {other : NodeId} {shape : Shape} (hshape : g.shape other = .ok shape) :
      Transient g node other shape
  | inferred {other : NodeId} {stored : Instruction α (Graph α)} {shape : Shape}
      (assigned : NodeId → Shape) (hfeeds : Pass.Feeds g node other)
      (hfound : g.find? other = some stored)
      (hinputs : ∀ input ∈ stored.inputs, Transient g node input (assigned input))
      (hinfer : stored.op.infer (stored.inputs.map assigned) (signatures stored.modules) =
        .ok shape) : Transient g node other shape

/-- A node downstream of `node` stops at shapes that its inputs may have on the way. -/
inductive StopsOnTheWay (g : Graph α) (node : NodeId) (stop : Stop GraphError) : Prop
  | intro {other : NodeId} {stored : Instruction α (Graph α)} (assigned : NodeId → Shape)
      (hfeeds : Pass.Feeds g node other) (hfound : g.find? other = some stored)
      (hinputs : ∀ input ∈ stored.inputs, g.Transient node input (assigned input))
      (hinfer : (stored.op.infer (stored.inputs.map assigned) (signatures stored.modules)).widen
        (GraphError.shape (some other) stored.op.name) = .error stop) : StopsOnTheWay g node stop

/-- A graph while a change is passed on. -/
structure Transitional (g : Graph α) (node : NodeId) (k : Graph α) : Prop where
  wiring : g.SameWiring k
  transient : ∀ {other shape}, k.shape other = .ok shape → g.Transient node other shape

theorem Transitional.exists_assigned (hway : g.Transitional node k) {inputs : List NodeId}
    (hlive : ∀ input ∈ inputs, input ∈ g.order) :
    ∃ assigned, k.shapes inputs = .ok (inputs.map assigned) ∧
      ∀ input ∈ inputs, g.Transient node input (assigned input) := by
  have hcached : ∀ input, ∃ shape, input ∈ inputs → k.shape input = .ok shape := by
    intro input
    by_cases hinput : input ∈ inputs
    · obtain ⟨stored, hfound⟩ := exists_find?_of_mem_order (hway.wiring.order ▸ hlive input hinput)
      exact ⟨stored.shape, fun _ => shape_of_find? hfound⟩
    · exact ⟨Shape.scalar .float32, fun hmem => absurd hmem hinput⟩
  choose assigned hassigned using hcached
  refine ⟨assigned, ?_, fun input hinput => hway.transient (hassigned input hinput)⟩
  rw [shapes_eq_ok_iff, forall₂_map_right_iff, forall₂_same]
  exact hassigned

section Way

variable (hawaits : g.Awaits node)

include hawaits

/-- One inference on the way: its shape is one on the way, and so is the cause if it stops. -/
theorem Transitional.infer (hway : g.Transitional node k) (hfeeds : Pass.Feeds g node other)
    (hfound : k.find? other = some stored) :
    (∀ shape, k.inferOver (some other) stored.op stored.inputs stored.modules = .ok shape →
      g.Transitional node (k.setShape other shape)) ∧
    ∀ stop, k.inferOver (some other) stored.op stored.inputs stored.modules = .error stop →
      g.StopsOnTheWay node stop := by
  obtain ⟨before, hbefore, hop, hinputs, hmodules⟩ := hway.wiring.symm.exists_find? hfound
  have hlive : ∀ input ∈ stored.inputs, input ∈ g.order := by
    intro input hinput
    rw [← hinputs, ← inputs_of_find? hbefore] at hinput
    exact hawaits.live hinput
  obtain ⟨assigned, hshapes, htransient⟩ := hway.exists_assigned hlive
  rw [inferOver_of_shapes hshapes, ← hop, ← hinputs, ← hmodules]
  rw [← hinputs] at htransient
  refine ⟨fun shape hinfer => ⟨hway.wiring.trans (sameWiring_setShape k other shape), ?_⟩,
    fun stop hinfer => ⟨assigned, hfeeds, hbefore, htransient, hinfer⟩⟩
  intro third shape' hshape'
  by_cases heq : third = other
  · subst heq
    rw [setShape, shape_modifyNode_self _ hfound] at hshape'
    cases hshape'
    exact .inferred assigned hfeeds hbefore htransient (Outcome.widen_eq_ok_iff.1 hinfer)
  · rw [setShape, shape_modifyNode_of_ne heq] at hshape'
    exact hway.transient hshape'

/-- A visit goes on to nodes of higher rank only, so its bound suffices. -/
theorem Transitional.reinferWithin {rank : NodeId → Nat} (hranks : g.Ranks rank) {bound : Nat}
    (hway : g.Transitional node k) (hfeeds : Pass.Feeds g node other)
    (hbound : g.size ≤ bound + rank other) :
    Concludes (g.Transitional node) (g.StopsOnTheWay node) (Edit.reinferWithin bound other k) := by
  have hother := hawaits.mem_order hfeeds
  induction bound generalizing other k with
  | zero =>
    have hrank := hranks.lt_size other hother
    omega
  | succ bound ih =>
    obtain ⟨stored, hfound⟩ := exists_find?_of_mem_order (hway.wiring.order ▸ hother)
    obtain ⟨hgoes, hstops⟩ := hway.infer hawaits hfeeds hfound
    have hconsumers : ∀ shape, k.inferOver (some other) stored.op stored.inputs stored.modules =
        .ok shape → Concludes (g.Transitional node) (g.StopsOnTheWay node)
          ((k.consumers other).forM (Edit.reinferWithin bound) (k.setShape other shape)) := by
      intro shape hinfer
      refine forM_concludes (fun reader hreader middle hmiddle => ?_) (hgoes shape hinfer)
      have hreads := hway.wiring.mem_inputs_of_mem_consumers hawaits.nodup hreader
      have hlower := hranks.input_lt hreads
      have hfeeds' : Pass.Feeds g node reader := hfeeds.tail hreads
      exact ih hmiddle hfeeds' (by omega) (hawaits.mem_order hfeeds')
    rw [Edit.reinferWithin, stateGet_bind, instruction_eq_ok_iff.2 hfound]
    refine @Change.lift_bind_concludes _ _ _ _ _ _ (k.inferOver ..) _ _ hstops fun shape hinfer => ?_
    split_ifs
    · exact hconsumers shape hinfer
    · exact hway

/-- A changed shape is passed on to all readers. -/
theorem Transitional.reinferConsumers (hway : g.Transitional node k) :
    Concludes (g.Transitional node) (g.StopsOnTheWay node) (Edit.reinferConsumers node k) := by
  obtain ⟨rank, hranks⟩ := hawaits.acyclic.exists_ranks hawaits.live
  refine forM_concludes (fun reader hreader middle hmiddle => ?_) hway
  apply hmiddle.reinferWithin hawaits hranks
  · exact .single (hway.wiring.mem_inputs_of_mem_consumers hawaits.nodup hreader)
  · rw [Edit.chainBound, hway.wiring.size_eq]
    omega

end Way

/-- Rerouting leaves a graph on the way, or it stops on the way. -/
theorem Coherent.reroute_concludes (hcoherent : g.Coherent) (hreads : old ∈ g.inputs node)
    (hawaits : (g.repoint node old new).Awaits node) :
    Concludes ((g.repoint node old new).Transitional node)
      ((g.repoint node old new).StopsOnTheWay node) (Edit.reroute node old new g) := by
  obtain ⟨stored, hfound, hmem⟩ := exists_find?_of_mem_inputs hreads
  have hpointed : (g.repoint node old new).find? node =
      some { stored with inputs := Edit.redirect old new stored.inputs } := by
    rw [repoint, find?_modifyNode, if_pos rfl, hfound]
    rfl
  have hstart : (g.repoint node old new).Transitional node (g.repoint node old new) :=
    ⟨.refl _, .cached⟩
  obtain ⟨hgoes, hstops⟩ := hstart.infer hawaits .refl hpointed
  simp only [inferOver_repoint, setShape_repoint hcoherent.nodup hfound] at hgoes hstops
  rw [Edit.reroute_of_find? hfound hmem]
  refine Change.lift_bind_concludes hstops fun shape hinfer => ?_
  rw [Edit.install, stateGet_bind, stateSet_bind]
  split_ifs
  · exact (hgoes shape hinfer).reinferConsumers hawaits
  · exact hgoes shape hinfer

/-! ## Where changes do not meet -/

/-- No node reads two nodes whose cached shapes are not their final ones. -/
def Unmixed (g : Graph α) (final : NodeId → Checked Shape) : Prop :=
  ∀ ⦃reader first second⦄, first ∈ g.inputs reader → second ∈ g.inputs reader →
    g.shape first ≠ final first → g.shape second ≠ final second → first = second

/-- Final shapes that a graph with a changed node can be given, such that changes do not meet. -/
structure Settles (g : Graph α) (node : NodeId) (final : NodeId → Checked Shape) : Prop where
  /-- What the node is computed from keeps its shape. -/
  above : ∀ input ∈ g.inputs node, final input = g.shape input
  /-- Inference from final shapes confirms them. -/
  infer : ∀ {other stored} {assigned : NodeId → Shape}, g.find? other = some stored →
    (∀ input ∈ stored.inputs, final input = .ok (assigned input)) →
    ∃ shape, stored.op.infer (stored.inputs.map assigned) (signatures stored.modules) = .ok shape ∧
      final other = .ok shape
  unmixed : g.Unmixed final

/-- A coherent graph has final shapes. -/
theorem Awaits.settles (hawaits : g.Awaits node) (hsame : g.SameWiring h) (hcoherent : h.Coherent)
    (hunmixed : g.Unmixed h.shape) : g.Settles node h.shape where
  above := fun input hinput =>
    hawaits.shape_eq hsame hcoherent fun hfeeds => hawaits.acyclic node (.tail' hfeeds hinput)
  infer := by
    intro other stored assigned hfound hassigned
    obtain ⟨stored', hfound', hop, hinputs, hmodules⟩ := hsame.exists_find? hfound
    rw [← hinputs] at hassigned
    have hinfer := (hcoherent.settled _ _ hfound').infer_eq hassigned
    rw [hop, hinputs, hmodules] at hinfer
    exact ⟨_, hinfer, shape_of_find? hfound'⟩
  unmixed := hunmixed

section Settles

variable {final : NodeId → Checked Shape}

/-- If at most one input has changed, inputs of old and final shapes are all old or all final. -/
theorem Unmixed.forall_or_forall (hunmixed : g.Unmixed final) (heither : ∀ input ∈ g.inputs other,
      g.shape input = .ok (assigned input) ∨ final input = .ok (assigned input)) :
    (∀ input ∈ g.inputs other, g.shape input = .ok (assigned input)) ∨
      ∀ input ∈ g.inputs other, final input = .ok (assigned input) := by
  by_cases hold : ∀ input ∈ g.inputs other, g.shape input = .ok (assigned input)
  · exact .inl hold
  push Not at hold
  obtain ⟨changed, hchanged, hnot⟩ := hold
  have hfinal := (heither changed hchanged).resolve_left hnot
  refine .inr fun input hinput => ?_
  by_cases hsame : g.shape input = final input
  · rw [← hsame]
    exact (heither input hinput).elim id hsame.trans
  · rw [← hunmixed hchanged hinput (hfinal ▸ hnot) hsame]
    exact hfinal

variable (hawaits : g.Awaits node) (hsettles : g.Settles node final)

include hawaits hsettles

/-- A node accepts inputs that each have the old or the final shape, and gets one of the two itself. -/
theorem Settles.exists_infer (hfound : g.find? other = some stored)
    (heither : ∀ input ∈ stored.inputs,
      g.shape input = .ok (assigned input) ∨ final input = .ok (assigned input)) :
    ∃ shape, stored.op.infer (stored.inputs.map assigned) (signatures stored.modules) = .ok shape ∧
      (g.shape other = .ok shape ∨ final other = .ok shape) := by
  have hread := inputs_of_find? hfound
  have hnew : (∀ input ∈ stored.inputs, final input = .ok (assigned input)) →
      ∃ shape, stored.op.infer (stored.inputs.map assigned) (signatures stored.modules) = .ok shape ∧
        (g.shape other = .ok shape ∨ final other = .ok shape) := by
    intro hassigned
    obtain ⟨shape, hinfer, hshape⟩ := hsettles.infer hfound hassigned
    exact ⟨shape, hinfer, .inr hshape⟩
  by_cases heq : other = node
  · -- What the changed node reads is not downstream of it, so it is final from the start.
    subst heq
    refine hnew fun input hinput => (heither input hinput).elim (fun hold => ?_) id
    rw [hsettles.above input (hread ▸ hinput)]
    exact hold
  · have hcases := hsettles.unmixed.forall_or_forall (hread.symm ▸ heither)
    rw [hread] at hcases
    rcases hcases with hold | hfinal
    · have hsettled := hawaits.settled.settled _ _ hfound (by simpa using heq)
      exact ⟨_, hsettled.infer_eq hold, .inl (shape_of_find? hfound)⟩
    · exact hnew hfinal

/-- Every shape on the way is the old or the final one. -/
theorem Settles.transient {shape : Shape} (htransient : g.Transient node other shape) :
    g.shape other = .ok shape ∨ final other = .ok shape := by
  induction htransient with
  | cached hshape => exact .inl hshape
  | inferred assigned _ hfound _ hinfer ih =>
    obtain ⟨shape, hinfer', heither⟩ := hsettles.exists_infer hawaits hfound ih
    cases hinfer'.symm.trans hinfer
    exact heither

theorem Settles.not_stopsOnTheWay (stop : Stop GraphError) : ¬ g.StopsOnTheWay node stop := by
  rintro ⟨assigned, -, hfound, hinputs, hinfer⟩
  obtain ⟨shape, hinfer', -⟩ := hsettles.exists_infer hawaits hfound fun input hinput =>
    hsettles.transient hawaits (hinputs input hinput)
  rw [hinfer'] at hinfer
  cases hinfer

end Settles

end Graph

namespace Edit

variable {g : Graph α} {node old new : NodeId}

/-- Where changes do not meet, rerouting succeeds. -/
theorem reroute_of_settles (hcoherent : g.Coherent) (hreads : old ∈ g.inputs node)
    (hawaits : (g.repoint node old new).Awaits node) {final : NodeId → Checked Shape}
    (hsettles : (g.repoint node old new).Settles node final) :
    ∃ h, reroute node old new g = .ok () h ∧ (g.repoint node old new).SameWiring h := by
  have hconcludes := hcoherent.reroute_concludes hreads hawaits
  cases hrun : reroute node old new g with
  | ok value h =>
    rw [hrun] at hconcludes
    exact ⟨h, rfl, hconcludes.wiring⟩
  | error stop middle =>
    rw [hrun] at hconcludes
    exact absurd hconcludes (hsettles.not_stopsOnTheWay hawaits stop)

/-- A replacement that succeeds leaves what inference in topological order leaves, and it succeeds
where that does and changes do not meet. One that fails changes nothing, and shapes on the way are
the reason. -/
theorem replaceArgument_refreshes (hcoherent : g.Coherent) (hreads : old ∈ g.inputs node)
    (hnew : new ∈ g.order) (hacyclic : (g.repoint node old new).Acyclic) :
    (∃ nodes, (g.repoint node old new).Downstream node nodes) ∧
      ∀ nodes, (g.repoint node old new).Downstream node nodes →
        (∀ h, replaceArgument node old new g = .ok () h →
          (g.repoint node old new).refresh nodes = .ok h) ∧
        (∀ h, (g.repoint node old new).refresh nodes = .ok h →
          (g.repoint node old new).Unmixed h.shape → replaceArgument node old new g = .ok () h) ∧
        ∀ stop h, replaceArgument node old new g = .error stop h →
          h = g ∧ (g.repoint node old new).StopsOnTheWay node stop := by
  have hawaits := hcoherent.awaits_repoint hreads hnew hacyclic
  have hconcludes := hcoherent.reroute_concludes hreads hawaits
  refine ⟨hawaits.exists_downstream, fun nodes hdown => ?_⟩
  have hrefresh : ∀ h, replaceArgument node old new g = .ok () h →
      (g.repoint node old new).refresh nodes = .ok h := by
    intro h hrun
    rw [replaceArgument, transaction_eq_ok_iff] at hrun
    rw [hrun] at hconcludes
    exact (hawaits.refresh_eq_ok_iff hdown).2 ⟨hconcludes.wiring, reroute_coherent hcoherent hrun⟩
  refine ⟨hrefresh, fun h hrun hunmixed => ?_, fun stop h hrun => ?_⟩
  · obtain ⟨hsame, hcoherent'⟩ := (hawaits.refresh_eq_ok_iff hdown).1 hrun
    obtain ⟨h', hrun', -⟩ := reroute_of_settles hcoherent hreads hawaits
      (hawaits.settles hsame hcoherent' hunmixed)
    have hreplace : replaceArgument node old new g = .ok () h' := transaction_eq_ok_iff.2 hrun'
    cases (hrefresh h' hreplace).symm.trans hrun
    exact hreplace
  · obtain ⟨middle, hstop⟩ := exists_of_transaction_eq_error hrun
    rw [hstop] at hconcludes
    exact ⟨transaction_eq_error hrun, hconcludes⟩

end Edit

/-! ## Two branches that meet again -/

/-- A negated matrix, and its sum with itself in a forced layout. -/
def forcedSummand : Graph Float32 :=
  ⟨"",
    [(1, ⟨.parameter "b" (.strided .float32 [⟨2, 1⟩, ⟨3, 2⟩]),
       .strided .float32 [⟨2, 1⟩, ⟨3, 2⟩], [], []⟩),
     (0, ⟨.parameter "a" (.strided .float32 [⟨2, 3⟩, ⟨3, 1⟩]),
       .strided .float32 [⟨2, 3⟩, ⟨3, 1⟩], [], []⟩),
     (2, ⟨.unary .neg, .strided .float32 [⟨2, 3⟩, ⟨3, 1⟩], [0], []⟩),
     (3, ⟨.contiguous, .strided .float32 [⟨2, 3⟩, ⟨3, 1⟩], [2], []⟩),
     (4, ⟨.binary .add, .strided .float32 [⟨2, 3⟩, ⟨3, 1⟩], [2, 3], []⟩)],
    [], 5⟩

theorem downstream_forcedSummand : (forcedSummand.repoint 2 0 1).Downstream 2 [2, 3, 4] :=
  downstream_of_nodes (by decide) (by decide) (by decide) (by decide)

/-- Forcing the layout takes the change off one branch, so the two branches may meet. -/
theorem Edit.replaceArgument_forcedSummand :
    ∃ h, replaceArgument 2 0 1 forcedSummand = .ok () h ∧
      h.shape 2 = .ok (.strided .float32 [⟨2, 1⟩, ⟨3, 2⟩]) ∧
      h.shape 4 = .ok (.strided .float32 [⟨2, 3⟩, ⟨3, 1⟩]) := by
  have hreads : 0 ∈ forcedSummand.inputs 2 := by decide
  have hnew : 1 ∈ forcedSummand.order := by decide
  have hacyclic : (forcedSummand.repoint 2 0 1).Acyclic := @acyclic_of_nodes _ _ id (by decide)
  obtain ⟨-, hall⟩ := replaceArgument_refreshes (by decide) hreads hnew hacyclic
  obtain ⟨-, hsucceeds, -⟩ := hall _ downstream_forcedSummand
  obtain ⟨h, hrefresh, hfirst, hsecond, hthird, hfourth⟩ :
      ∃ h, (forcedSummand.repoint 2 0 1).refresh [2, 3, 4] = .ok h ∧
        h.shape 1 = (forcedSummand.repoint 2 0 1).shape 1 ∧
        h.shape 2 = .ok (.strided .float32 [⟨2, 1⟩, ⟨3, 2⟩]) ∧
        h.shape 3 = (forcedSummand.repoint 2 0 1).shape 3 ∧
        h.shape 4 = .ok (.strided .float32 [⟨2, 3⟩, ⟨3, 1⟩]) := ⟨_, rfl, rfl, rfl, rfl, rfl⟩
  have hread : ∀ entry ∈ (forcedSummand.repoint 2 0 1).nodes, ∀ input ∈ entry.2.inputs,
      input ∈ [1, 2, 3] := by decide
  have honly : ∀ {reader input}, input ∈ (forcedSummand.repoint 2 0 1).inputs reader →
      (forcedSummand.repoint 2 0 1).shape input ≠ h.shape input → input = 2 := by
    intro reader input hinput hchanged
    obtain ⟨stored, hfound, hmem⟩ := exists_find?_of_mem_inputs hinput
    have hcases := hread _ (mem_nodes_of_find? hfound) input hmem
    simp only [mem_cons, not_mem_nil, or_false] at hcases
    rcases hcases with rfl | rfl | rfl
    · exact absurd hfirst.symm hchanged
    · rfl
    · exact absurd hthird.symm hchanged
  refine ⟨h, hsucceeds h hrefresh ?_, hsecond, hfourth⟩
  intro reader first second hinput hinput' hchanged hchanged'
  exact (honly hinput hchanged).trans (honly hinput' hchanged').symm

/-- Two branches from one value meet in a sum. -/
def diamond : Graph Float32 :=
  ⟨"",
    [(1, ⟨.parameter "b" (.strided .float32 [⟨4, 5⟩, ⟨5, 1⟩]),
       .strided .float32 [⟨4, 5⟩, ⟨5, 1⟩], [], []⟩),
     (0, ⟨.parameter "a" (.strided .float32 [⟨2, 3⟩, ⟨3, 1⟩]),
       .strided .float32 [⟨2, 3⟩, ⟨3, 1⟩], [], []⟩),
     (2, ⟨.unary .neg, .strided .float32 [⟨2, 3⟩, ⟨3, 1⟩], [0], []⟩),
     (3, ⟨.unary .exp, .strided .float32 [⟨2, 3⟩, ⟨3, 1⟩], [2], []⟩),
     (4, ⟨.unary .relu, .strided .float32 [⟨2, 3⟩, ⟨3, 1⟩], [2], []⟩),
     (5, ⟨.binary .add, .strided .float32 [⟨2, 3⟩, ⟨3, 1⟩], [3, 4], []⟩)],
    [], 6⟩

theorem downstream_diamond : (diamond.repoint 2 0 1).Downstream 2 [2, 3, 4, 5] :=
  downstream_of_nodes (by decide) (by decide) (by decide) (by decide)

/-- The first branch brings its new shape to the sum while the second still has its old one. The sum
refuses these, though it would accept the new shapes of both. -/
theorem Edit.not_replaceArgument_eq_ok_iff_refresh :
    ¬ ∀ (g : Graph Float32) (node old new : NodeId) (nodes : List NodeId), g.Coherent → g.Acyclic →
      old ∈ g.inputs node → new ∈ g.order → (g.repoint node old new).Acyclic →
      (g.repoint node old new).Downstream node nodes →
      ∀ h, replaceArgument node old new g = .ok () h ↔
        (g.repoint node old new).refresh nodes = .ok h := by
  intro hclaim
  have hacyclic : diamond.Acyclic := @acyclic_of_nodes _ _ id (by decide)
  have hacyclic' : (diamond.repoint 2 0 1).Acyclic := @acyclic_of_nodes _ _ id (by decide)
  have hrun := (hclaim diamond 2 0 1 [2, 3, 4, 5] (by decide) hacyclic (by decide) (by decide)
    hacyclic' downstream_diamond _).2 rfl
  have hrefused : replaceArgument 2 0 1 diamond = .error (.refusal (.shape (some 5) "add"
    (.invalid "add" (.mixedLengths
      [.strided .float32 [⟨4, 5⟩, ⟨5, 1⟩], .strided .float32 [⟨2, 3⟩, ⟨3, 1⟩]])))) diamond := by rfl
  rw [hrun] at hrefused
  cases hrefused

end TensorGraph
