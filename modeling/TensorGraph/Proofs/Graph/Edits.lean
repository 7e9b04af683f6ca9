import TensorGraph.Proofs.Graph.Coherence

/-!
# What edits do to a graph

Each edit is taken apart once: what it must have found, and which graph it leaves. Re-inference changes
cached shapes and nothing else, which `SameWiring` says.
-/

namespace TensorGraph

open List

variable {α : Type}

namespace Graph

/-- What an instruction does and what it reads, without its shape. -/
def wiring (instruction : Instruction α (Graph α)) :
    Operator α × List NodeId × List (Graph α) :=
  (instruction.op, instruction.inputs, instruction.modules)

/-- Two graphs that differ in cached shapes at most. -/
structure SameWiring (g h : Graph α) : Prop where
  name : h.name = g.name
  order : h.order = g.order
  vacant : h.vacant = g.vacant
  fresh : h.fresh = g.fresh
  wiring : ∀ node, (h.find? node).map wiring = (g.find? node).map wiring

theorem SameWiring.refl (g : Graph α) : g.SameWiring g := ⟨rfl, rfl, rfl, rfl, fun _ => rfl⟩

theorem SameWiring.trans {g h k : Graph α} (hfirst : g.SameWiring h) (hsecond : h.SameWiring k) :
    g.SameWiring k where
  name := hsecond.name.trans hfirst.name
  order := hsecond.order.trans hfirst.order
  vacant := hsecond.vacant.trans hfirst.vacant
  fresh := hsecond.fresh.trans hfirst.fresh
  wiring := fun node => (hsecond.wiring node).trans (hfirst.wiring node)

theorem sameWiring_setShape (g : Graph α) (node : NodeId) (shape : Shape) :
    g.SameWiring (g.setShape node shape) where
  name := rfl
  order := order_modifyNode
  vacant := rfl
  fresh := rfl
  wiring := by
    intro other
    rw [setShape, find?_modifyNode]
    split_ifs with heq
    · rw [heq, Option.map_map]
      rfl
    · rfl

theorem SameWiring.symm {g h : Graph α} (hsame : g.SameWiring h) : h.SameWiring g where
  name := hsame.name.symm
  order := hsame.order.symm
  vacant := hsame.vacant.symm
  fresh := hsame.fresh.symm
  wiring := fun node => (hsame.wiring node).symm

section SameWiring

variable {g h : Graph α} {node : NodeId}

theorem SameWiring.size_eq (hsame : g.SameWiring h) : h.size = g.size := by
  have hlength := congrArg List.length hsame.order
  rwa [Graph.order, Graph.order, length_map, length_map] at hlength

theorem SameWiring.exists_find? (hsame : g.SameWiring h) {stored : Stored α}
    (hfound : g.find? node = some stored) :
    ∃ stored', h.find? node = some stored' ∧ stored'.op = stored.op ∧
      stored'.inputs = stored.inputs ∧ stored'.modules = stored.modules := by
  have hwiring := hsame.wiring node
  rw [hfound, Option.map_some, Option.map_eq_some_iff] at hwiring
  obtain ⟨stored', hfound', heq⟩ := hwiring
  simp only [Graph.wiring, Prod.mk.injEq] at heq
  exact ⟨stored', hfound', heq⟩

theorem SameWiring.find?_eq_none (hsame : g.SameWiring h) (hnone : g.find? node = none) :
    h.find? node = none := by
  simpa [hnone] using hsame.wiring node

theorem SameWiring.inputs_eq (hsame : g.SameWiring h) (node : NodeId) :
    h.inputs node = g.inputs node := by
  cases hfound : g.find? node with
  | none => rw [inputs, inputs, hfound, hsame.find?_eq_none hfound]
  | some stored =>
    obtain ⟨stored', hfound', -, hinputs, -⟩ := hsame.exists_find? hfound
    rw [inputs_of_find? hfound, inputs_of_find? hfound', hinputs]

theorem SameWiring.mem_inputs_of_mem_consumers (hsame : g.SameWiring h) (hnodup : g.order.Nodup)
    {consumer : NodeId} (hconsumer : consumer ∈ h.consumers node) : node ∈ g.inputs consumer := by
  rw [← hsame.inputs_eq]
  exact Graph.mem_inputs_of_mem_consumers (hsame.order ▸ hnodup) hconsumer

theorem filterMap_order (hnodup : g.order.Nodup) :
    g.order.filterMap (fun id => (g.find? id).map (id, ·)) = g.nodes := by
  rw [order, filterMap_map]
  conv_rhs => rw [← filterMap_some (l := g.nodes)]
  apply filterMap_congr
  rintro ⟨id, stored⟩ hentry
  rw [Function.comp_apply, (find?_eq_some_iff hnodup).2 hentry]
  rfl

/-- Cached shapes are all that graphs of the same wiring can differ in. -/
theorem SameWiring.eq_of_shape (hsame : g.SameWiring h) (hnodup : g.order.Nodup)
    (hshape : ∀ node, h.shape node = g.shape node) : h = g := by
  have hfind : ∀ node, h.find? node = g.find? node := by
    intro node
    cases hfound : g.find? node with
    | none => exact hsame.find?_eq_none hfound
    | some stored =>
      obtain ⟨stored', hfound', hop, hinputs, hmodules⟩ := hsame.exists_find? hfound
      have hcached := hshape node
      rw [shape_of_find? hfound, shape_of_find? hfound',
        Except.ok.injEq] at hcached
      rw [hfound', Option.some.injEq]
      cases stored
      cases stored'
      rw [Instruction.mk.injEq]
      exact ⟨hop, hcached, hinputs, hmodules⟩
  have hnodes : h.nodes = g.nodes := by
    rw [← filterMap_order hnodup, ← filterMap_order (hsame.order ▸ hnodup), hsame.order]
    simp only [hfind]
  obtain ⟨name, nodes, vacant, fresh⟩ := g
  obtain ⟨name', nodes', vacant', fresh'⟩ := h
  obtain rfl : nodes' = nodes := hnodes
  obtain rfl : name' = name := hsame.name
  obtain rfl : vacant' = vacant := hsame.vacant
  obtain rfl : fresh' = fresh := hsame.fresh
  rfl

end SameWiring

end Graph

namespace Edit

open Graph

variable {g final h : Graph α} {node old new : NodeId} {bound : Nat} {stored : Stored α}
  {ε β : Type} {change : Change ε α β}

/-- One visit: the shape is inferred again, and a change is passed on to every consumer. -/
theorem reinferWithin_succ_eq_ok_iff :
    reinferWithin (bound + 1) node g = .ok () final ↔
      ∃ instruction shape, g.find? node = some instruction ∧
        g.inferOver (some node) instruction.op instruction.inputs instruction.modules =
          .ok shape ∧
        ((shape = instruction.shape ∧ final = g) ∨
          (shape ≠ instruction.shape ∧
            (g.consumers node).forM (reinferWithin bound) (g.setShape node shape) =
              .ok () final)) := by
  rw [reinferWithin, stateGet_bind, Change.liftChecked_bind_eq_ok_iff]
  simp only [instruction_eq_ok_iff, Change.lift_bind_eq_ok_iff]
  constructor
  · rintro ⟨instruction, hfound, shape, hshape, hrun⟩
    refine ⟨instruction, shape, hfound, hshape, ?_⟩
    split_ifs at hrun with hchanged
    · exact .inr ⟨hchanged, hrun⟩
    · cases hrun
      exact .inl ⟨not_not.1 hchanged, rfl⟩
  · rintro ⟨instruction, shape, hfound, hshape, hrun⟩
    refine ⟨instruction, hfound, shape, hshape, ?_⟩
    rcases hrun with ⟨hsame, rfl⟩ | ⟨hchanged, hrun⟩
    · rw [if_neg (not_not.2 hsame)]
      rfl
    · rw [if_pos hchanged]
      exact hrun

/-- If every visit takes its node off the list of pending ones, a round of visits takes off all. -/
theorem forM_settles {visit : NodeId → Edit α Unit}
    (hvisit : ∀ {node : NodeId} {pending : List NodeId} {g final : Graph α},
      g.SettledOutside (node :: pending) → visit node g = .ok () final →
        final.SettledOutside pending) {nodes pending : List NodeId}
    (hbefore : g.SettledOutside (nodes ++ pending)) (hrun : nodes.forM visit g = .ok () final) :
    final.SettledOutside pending := by
  induction nodes generalizing g with
  | nil =>
    cases hrun
    exact hbefore
  | cons node nodes ih =>
    obtain ⟨middle, hfirst, hrest⟩ := forM_cons_eq_ok_iff.1 hrun
    exact ih (hvisit hbefore hfirst) hrest

/-- Visiting a pending node takes it off the list, whatever else is pending. -/
theorem reinferWithin_settles {pending : List NodeId} (hbefore : g.SettledOutside (node :: pending))
    (hrun : reinferWithin bound node g = .ok () final) : final.SettledOutside pending := by
  induction bound generalizing node pending g final with
  | zero => cases hrun
  | succ bound ih =>
    obtain ⟨instruction, shape, hfound, hshape, hrun⟩ := reinferWithin_succ_eq_ok_iff.1 hrun
    obtain ⟨shapes, hshapes, hinfer⟩ := inferOver_eq_ok_iff.1 hshape
    rcases hrun with ⟨rfl, rfl⟩ | ⟨hchanged, hrun⟩
    · -- Nothing has changed, so the node itself is settled and the others are as before.
      refine ⟨hbefore.indexed, fun other stored hstored hother => ?_⟩
      by_cases heq : other = node
      · subst heq
        cases hfound.symm.trans hstored
        exact ⟨shapes, hshapes, hinfer⟩
      · exact hbefore.settled other stored hstored (by simp [heq, hother])
    · have hmiddle : (g.setShape node shape).SettledOutside _ :=
        hbefore.modifyNode hfound ⟨shapes, hshapes, hinfer⟩
      have hconsumers : (g.setShape node shape).consumers node = g.consumers node := by
        simp [Graph.consumers, setShape, Graph.modifyNode, filter_map, Function.comp_def,
          apply_ite]
      rw [← setShape, hconsumers] at hmiddle
      exact forM_settles ih hmiddle hrun

/-- Re-inference changes cached shapes and nothing else. -/
theorem reinferWithin_sameWiring (hrun : reinferWithin bound node g = .ok () final) :
    g.SameWiring final := by
  induction bound generalizing node g final with
  | zero => cases hrun
  | succ bound ih =>
    obtain ⟨instruction, shape, -, -, hrun⟩ := reinferWithin_succ_eq_ok_iff.1 hrun
    rcases hrun with ⟨-, rfl⟩ | ⟨-, hrun⟩
    · exact .refl _
    · exact forM_invariant (fun hbefore hvisit => hbefore.trans (ih hvisit))
        (sameWiring_setShape g node shape) hrun

/-- A chain of re-inference may always take a first step. -/
theorem exists_chainBound_eq (g : Graph α) : ∃ bound, chainBound g = bound + 1 :=
  Nat.exists_eq_add_one.2 (Nat.add_pos_right _ (by decide))

/-- A settled node is left alone by re-inference. -/
theorem reinfer_of_settled {instruction : Stored α}
    (hfound : g.find? node = some instruction) (hsettled : g.Settled instruction) :
    reinfer node g = .ok () g := by
  obtain ⟨shapes, hshapes, hinfer⟩ := hsettled
  obtain ⟨bound, hbound⟩ := exists_chainBound_eq g
  refine stateBind_eq_ok_iff.2 ⟨g, g, rfl, ?_⟩
  rw [hbound]
  exact reinferWithin_succ_eq_ok_iff.2 ⟨instruction, instruction.shape, hfound,
    inferOver_eq_ok_iff.2 ⟨shapes, hshapes, hinfer⟩, .inl ⟨rfl, rfl⟩⟩

theorem reinferConsumers_eq_ok (hrun : reinferConsumers node g = .ok () final) :
    ∃ bound, (g.consumers node).forM (reinferWithin bound) g = .ok () final :=
  ⟨chainBound g, hrun⟩

/-- Change an instruction, and pass a change of its shape on to the consumers. -/
def install (node : NodeId) (change : Instruction α (Graph α) → Instruction α (Graph α))
    (stored : Instruction α (Graph α)) : Edit α Unit := do
  set ((← get).modifyNode node change)
  if (change stored).shape ≠ stored.shape then reinferConsumers node

section Install

variable {node : NodeId} {change : Instruction α (Graph α) → Instruction α (Graph α)}
  {stored : Stored α} {g final : Graph α}

theorem install_eq_ok_iff :
    install node change stored g = .ok () final ↔
      ((change stored).shape = stored.shape ∧ final = g.modifyNode node change) ∨
        ((change stored).shape ≠ stored.shape ∧
          reinferConsumers node (g.modifyNode node change) = .ok () final) := by
  rw [install, stateGet_bind, stateSet_bind]
  by_cases hsame : (change stored).shape = stored.shape
  · rw [if_neg (not_not.2 hsame)]
    simp [hsame, pure, EStateM.pure, eq_comm]
  · rw [if_pos hsame]
    simp [hsame]

/-- After a successful change the wiring is that of the changed graph: what follows re-infers. -/
theorem install_sameWiring (hrun : install node change stored g = .ok () final) :
    (g.modifyNode node change).SameWiring final := by
  rcases install_eq_ok_iff.1 hrun with ⟨-, rfl⟩ | ⟨-, hrun⟩
  · exact .refl _
  · obtain ⟨bound, hrun⟩ := reinferConsumers_eq_ok hrun
    exact forM_invariant (fun hbefore hvisit => hbefore.trans (reinferWithin_sameWiring hvisit))
      (.refl _) hrun

/-- Changing an instruction to a settled one leaves a coherent graph coherent, if it succeeds. -/
theorem install_coherent (hcoherent : g.Coherent) (hfound : g.find? node = some stored)
    (hsettled : g.Settled (change stored))
    (hrun : install node change stored g = .ok () final) : final.Coherent := by
  rcases install_eq_ok_iff.1 hrun with ⟨hsame, rfl⟩ | ⟨-, hrun⟩
  · exact hcoherent.modifyNode hfound hsettled hsame
  · have hmiddle := (hcoherent.settledOutside [node]).modifyNode hfound hsettled
    obtain ⟨bound, hrun⟩ := reinferConsumers_eq_ok hrun
    exact (forM_settles reinferWithin_settles hmiddle hrun).coherent

end Install

/-- The inputs of a node after its arguments that read `old` were pointed at `new`. -/
def redirect (old new : NodeId) (inputs : List NodeId) : List NodeId :=
  inputs.map fun input => if input = old then new else input

theorem redirect_redirect (hne : new ≠ old) (nodes : List NodeId) :
    redirect old new (redirect old new nodes) = redirect old new nodes := by
  rw [redirect, redirect, map_map]
  apply map_congr_left
  intro node _
  dsimp only [Function.comp_apply]
  by_cases heq : node = old
  · rw [if_pos heq, if_neg hne]
  · rw [if_neg heq, if_neg heq]

theorem redirect_of_notMem {nodes : List NodeId} (hfree : old ∉ nodes) :
    redirect old new nodes = nodes := by
  rw [redirect]
  apply (map_congr_left _).trans (map_id nodes)
  intro node hmem
  have hne : node ≠ old := fun heq => hfree (heq ▸ hmem)
  exact if_neg hne

/-- Rerouting infers the shape of its node, and installs the result. -/
theorem reroute_of_find? (hfound : g.find? node = some stored) (hreads : old ∈ stored.inputs) :
    reroute node old new g =
      ((liftM (g.inferOver (some node) stored.op (redirect old new stored.inputs) stored.modules) :
        Edit α Shape) >>= fun shape => install node (fun instruction =>
          { instruction with inputs := redirect old new stored.inputs, shape := shape }) stored) g := by
  rw [reroute, stateGet_bind]
  simp only [hfound, contains_eq_mem, hreads, decide_true, Bool.not_true, Bool.false_eq_true, if_false]
  unfold redirect
  cases g.inferOver (some node) stored.op _ stored.modules <;> rfl

/-- What rerouting finds, and what it installs. -/
theorem reroute_eq_ok_iff :
    reroute node old new g = .ok () final ↔
      ∃ stored shape, g.find? node = some stored ∧ old ∈ stored.inputs ∧
        g.inferOver (some node) stored.op (redirect old new stored.inputs) stored.modules =
          .ok shape ∧
        install node (fun instruction =>
          { instruction with inputs := redirect old new stored.inputs, shape := shape })
          stored g = .ok () final := by
  constructor
  · intro hrun
    cases hfound : g.find? node with
    | none =>
      rw [reroute, stateGet_bind, hfound] at hrun
      cases hrun
    | some stored =>
      by_cases hreads : old ∈ stored.inputs
      · rw [reroute_of_find? hfound hreads] at hrun
        obtain ⟨shape, hshape, hrun⟩ := Change.lift_bind_eq_ok_iff.1 hrun
        exact ⟨stored, shape, rfl, hreads, hshape, hrun⟩
      · rw [reroute, stateGet_bind, hfound] at hrun
        simp only [contains_eq_mem, hreads, decide_false, Bool.not_false, if_true] at hrun
        cases hrun
  · rintro ⟨stored, shape, hfound, hreads, hshape, hrun⟩
    rw [reroute_of_find? hfound hreads]
    exact Change.lift_bind_eq_ok_iff.2 ⟨shape, hshape, hrun⟩

theorem reroute_coherent (hcoherent : g.Coherent) (hrun : reroute node old new g = .ok () final) :
    final.Coherent := by
  obtain ⟨stored, shape, hfound, -, hshape, hrun⟩ := reroute_eq_ok_iff.1 hrun
  exact install_coherent hcoherent hfound (inferOver_eq_ok_iff.1 hshape) hrun

/-- An installed change is seen at its node, and nowhere else. -/
theorem install_find? {other : NodeId} {change : Instruction α (Graph α) → Instruction α (Graph α)}
    {current : Stored α}
    (hrun : install node change current g = .ok () h) (hfound : g.find? other = some stored) :
    ∃ stored', h.find? other = some stored' ∧
      wiring stored' = wiring (if other = node then change stored else stored) := by
  have hsame := (install_sameWiring hrun).wiring other
  rw [find?_modifyNode] at hsame
  split_ifs at hsame ⊢ with heq
  · rw [← heq, hfound, Option.map_some, Option.map_some, Option.map_eq_some_iff] at hsame
    exact hsame
  · rw [hfound, Option.map_some, Option.map_eq_some_iff] at hsame
    exact hsame

/-- Rerouting changes the inputs of its node, and no operator and no module. -/
theorem reroute_find? {other : NodeId} (hrun : reroute node old new g = .ok () h)
    (hfound : g.find? other = some stored) :
    ∃ stored', h.find? other = some stored' ∧ stored'.op = stored.op ∧
      stored'.inputs = (if other = node then redirect old new stored.inputs
        else stored.inputs) ∧ stored'.modules = stored.modules := by
  obtain ⟨current, shape, hcurrent, -, -, hrun⟩ := reroute_eq_ok_iff.1 hrun
  obtain ⟨stored', hstored', hwiring⟩ := install_find? hrun hfound
  refine ⟨stored', hstored', ?_⟩
  split_ifs at hwiring ⊢ with heq
  · subst heq
    cases hcurrent.symm.trans hfound
    simpa [wiring] using hwiring
  · simpa [wiring] using hwiring

/-- A change that is undone as a whole when it stops gives what it would give otherwise. -/
theorem transaction_eq_ok_iff {value : β} :
    Change.transaction change g = .ok value final ↔ change g = .ok value final := by
  unfold Change.transaction
  cases change g <;> simp

theorem transaction_eq_error {cause : Stop ε}
    (hstop : Change.transaction change g = .error cause final) : final = g := by
  unfold Change.transaction at hstop
  cases hrun : change g with
  | ok value middle => simp [hrun] at hstop
  | error stopped middle =>
    simp only [hrun, EStateM.Result.error.injEq] at hstop
    exact hstop.2.symm

theorem exists_of_transaction_eq_error {cause : Stop ε}
    (hstop : Change.transaction change g = .error cause final) :
    ∃ middle, change g = .error cause middle := by
  unfold Change.transaction at hstop
  cases hrun : change g with
  | ok value middle => simp [hrun] at hstop
  | error stopped middle =>
    simp only [hrun, EStateM.Result.error.injEq] at hstop
    exact ⟨middle, hstop.1 ▸ rfl⟩

/-- What giving a node another operator finds, and what it installs. -/
theorem replaceOperator_eq_ok_iff {op : Operator α} {inputs : List NodeId}
    {modules : List (Graph α)} :
    replaceOperator node op inputs modules g = .ok () final ↔
      ∃ stored shape, g.find? node = some stored ∧
        g.inferOver (some node) op inputs modules = .ok shape ∧
        install node (fun _ => ⟨op, shape, inputs, modules⟩) stored g = .ok () final := by
  rw [replaceOperator, transaction_eq_ok_iff, stateGet_bind, Change.lift_bind_eq_ok_iff]
  simp only [Change.liftChecked_bind_eq_ok_iff, instruction_eq_ok_iff]
  constructor
  · rintro ⟨shape, hshape, stored, hfound, hrun⟩
    exact ⟨stored, shape, hfound, hshape, hrun⟩
  · rintro ⟨stored, shape, hfound, hshape, hrun⟩
    exact ⟨shape, hshape, stored, hfound, hrun⟩

end Edit

end TensorGraph
