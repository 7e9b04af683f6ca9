import TensorGraph.Proofs.Graph.Loops

/-!
# Rewritten graphs that keep values

A rewritten graph follows the original one when each of its nodes stands for a node of the original graph
and computes its value, up to the layout. How the steps of a pass keep a property of all instructions is
said once for all passes.
-/

namespace TensorGraph.Pass

open Graph List

variable {α : Type} {t : Tensor α} {inputs : List NodeId} {args outs : List (Tensor α)}

/-! ## Properties that steps keep -/

/-- A coherent graph in order, with properties of all instructions and of what is returned. -/
structure Throughout (property : NodeId → Instruction α (Graph α) → Prop)
    (returned : List NodeId → Prop) (h : Graph α) : Prop extends Coherent h where
  ordered : h.Ordered
  instructions : ∀ ⦃node stored⦄, h.find? node = some stored → property node stored
  results : returned h.results

/-- Inputs and results may be exchanged for related ones. -/
structure Exchanges (property : NodeId → Instruction α (Graph α) → Prop)
    (returned : List NodeId → Prop) (related : NodeId → NodeId → Prop) : Prop where
  refl : ∀ node, related node node
  instruction : ∀ ⦃node before stored⦄, property node before → stored.op = before.op →
    stored.modules = before.modules → Forall₂ related stored.inputs before.inputs →
    property node stored
  results : ∀ ⦃nodes before⦄, returned before → Forall₂ related nodes before → returned nodes

namespace Throughout

variable {property property' : NodeId → Instruction α (Graph α) → Prop}
  {returned returned' : List NodeId → Prop} {related : NodeId → NodeId → Prop} {h k : Graph α}
  {node old new : NodeId} (hall : Throughout property returned h)

include hall

theorem mono (hproperty : ∀ ⦃node stored⦄, property node stored → property' node stored)
    (hreturned : ∀ ⦃nodes⦄, returned nodes → returned' nodes) : Throughout property' returned' h where
  toCoherent := hall.toCoherent
  ordered := hall.ordered
  instructions := fun _ _ hfound => hproperty (hall.instructions hfound)
  results := hreturned hall.results

/-- Taking out a node that nothing reads and that is not the last one. -/
theorem erase {other : NodeId} (hunread : h.hasConsumers node = false)
    (hbefore : h.order.idxOf node < h.order.idxOf other) (hother : other ∈ h.order) :
    Throughout property returned (h.erase node) where
  toCoherent := hall.toCoherent.erase hunread
  ordered := hall.ordered.erase hunread
  instructions := by
    intro other stored hfound
    rw [find?_erase] at hfound
    split_ifs at hfound
    exact hall.instructions hfound
  results := by
    rw [results_erase hall.toIndexed hbefore hother]
    exact hall.results

theorem removeUnused (node : NodeId) : Throughout property returned (h.removeUnused node).1 := by
  refine removeUnused_invariant (fun hall hunread hkept => ?_) hall
  obtain ⟨other, hother, hbefore⟩ := exists_later_of_isKept hall.toIndexed hkept
  exact hall.erase hunread hbefore hother

variable (hexchanges : Exchanges property returned related)

include hexchanges

/-- Pointing an argument at an earlier node that is related to the old one. -/
theorem reroute {reader : NodeId} (hrelated : related new old)
    (hbefore : h.order.idxOf new < h.order.idxOf old)
    (hrun : Edit.reroute reader old new h = .ok () k) : Throughout property returned k := by
  have hcoherent := Edit.reroute_coherent hall.toCoherent hrun
  have hredirect (nodes : List NodeId) : Forall₂ related (Edit.redirect old new nodes) nodes := by
    rw [Edit.redirect, forall₂_map_left_iff, forall₂_same]
    intro node _
    split_ifs with heq
    · exact heq ▸ hrelated
    · exact hexchanges.refl node
  refine ⟨hcoherent, hall.ordered.reroute hrun hbefore, fun node stored hfound => ?_, ?_⟩
  · obtain ⟨before, hbefore, hop, hinputs, hmodules⟩ := exists_of_reroute hrun hfound
    apply hexchanges.instruction (hall.instructions hbefore) hop hmodules
    rw [hinputs]
    split_ifs
    · exact hredirect _
    · exact forall₂_same.2 fun input _ => hexchanges.refl input
  · rcases reroute_results hrun hall.toIndexed hcoherent.toIndexed with heq | ⟨heq, -⟩
    · rw [heq]
      exact hall.results
    · rw [heq]
      exact hexchanges.results hall.results (hredirect _)

/-- Letting all readers of a node read an earlier one that is related to it. -/
theorem replaceInstruction (hrelated : related new old)
    (hbefore : h.order.idxOf new < h.order.idxOf old)
    (hrun : Edit.replaceInstruction old new h = .ok () k) : Throughout property returned k := by
  refine (replaceInstruction_invariant
    (motive := fun k => Throughout property returned k ∧ k.order = h.order) ?_ ⟨hall, rfl⟩ hrun).1
  rintro reader k final ⟨hall, horder⟩ hrun
  refine ⟨hall.reroute hexchanges hrelated (by rwa [horder]) hrun, ?_⟩
  rw [reroute_order hrun, horder]

/-- Giving a node another operator that has the property. -/
theorem replaceOperator {op : Operator α} {modules : List (Graph α)}
    {own : Stored α} (hown : h.find? node = some own)
    (hreturns : own.op.isReturns = false) (hreturns' : op.isReturns = false)
    (hbefore : ∀ input ∈ inputs, h.order.idxOf input < h.order.idxOf node)
    (hproperty : ∀ stored, stored.op = op → stored.inputs = inputs → stored.modules = modules →
      property node stored)
    (hrun : Edit.replaceOperator node op inputs modules h = .ok () k) :
    Throughout property returned k := by
  have hcoherent := replaceOperator_coherent hrun hall.toCoherent
  refine ⟨hcoherent, hall.ordered.replaceOperator hrun hbefore, fun other stored hfound => ?_, ?_⟩
  · obtain ⟨before, hfound'⟩ := exists_find?_of_order_eq (replaceOperator_order hrun) hfound
    rcases replaceOperator_cases hrun hfound hfound' with
      ⟨rfl, hop, hinputs, hmodules⟩ | ⟨-, hop, hinputs, hmodules⟩
    · exact hproperty stored hop hinputs hmodules
    · apply hexchanges.instruction (hall.instructions hfound') hop hmodules
      rw [hinputs]
      exact forall₂_same.2 fun input _ => hexchanges.refl input
  · have hstays : ∀ ⦃before⦄, h.find? node = some before → before.op.isReturns = false := by
      intro before hbefore
      cases hown.symm.trans hbefore
      exact hreturns
    rw [replaceOperator_results hrun hall.toIndexed hcoherent.toIndexed hreturns' hstays]
    exact hall.results

end Throughout

variable [Scalar α] {g : Graph α} {bindings : Bindings α} {node : NodeId}

/-! ## Standing for a node -/

/-- A tensor is what a node yields, up to the layout. -/
def Gives (g : Graph α) (bindings : Bindings α) (node : NodeId) (a : Tensor α) : Prop :=
  ∃ t, Yields g.moduleRunner g bindings node t ∧ t.Twin a

/-- Wherever a node has a value, another one has the same value up to the layout. -/
def Stands (g : Graph α) (source node : NodeId) : Prop :=
  ∀ ⦃bindings t⦄, g.Admits bindings → Yields g.moduleRunner g bindings node t →
    Gives g bindings source t

theorem Stands.refl (hplain : g.Plain) (node : NodeId) : Stands g node node := by
  intro bindings t hadmits hyields
  exact ⟨t, hyields, .refl (hplain.yields_sound hadmits hyields).1⟩

theorem Stands.gives {source : NodeId} (hstands : Stands g source node)
    (hadmits : g.Admits bindings) {a : Tensor α} (hgives : Gives g bindings node a) :
    Gives g bindings source a := by
  obtain ⟨t, hyields, htwin⟩ := hgives
  obtain ⟨s, hs, htwin'⟩ := hstands hadmits hyields
  exact ⟨s, hs, htwin'.trans htwin⟩

theorem Stands.trans {first second third : NodeId} (hfirst : Stands g first second)
    (hsecond : Stands g second third) : Stands g first third := by
  intro bindings t hadmits hyields
  exact hfirst.gives hadmits (hsecond hadmits hyields)

theorem stands_of_relays (hplain : g.Plain) {source : NodeId} (hrelays : g.Relays source node) :
    Stands g source node := by
  intro bindings t hadmits hyields
  exact hplain.looped.exists_yields_of_relays hadmits hrelays hyields

/-- An instruction gives a value, up to the layout, on the values of what its inputs stand for. -/
def Answers (g : Graph α) (origin : NodeId → NodeId) (bindings : Bindings α)
    (stored : Instruction α (Graph α)) (t : Tensor α) : Prop :=
  ∃ olds, Forall₂ (fun input => Yields g.moduleRunner g bindings (origin input)) stored.inputs
      olds ∧
    ∀ ⦃args out⦄, Forall₂ Tensor.Twin olds args →
      stored.op.infer (Tensor.shapes args) (signatures stored.modules) = .ok out →
      Delivers g.Roomy (fun u => t.Twin u ∧ u.shape = out)
        (stored.op.apply args (stored.modules.map callable))

/-- How an instruction comes by the value of the node that it stands for. -/
inductive Derives (g : Graph α) (origin : NodeId → NodeId)
    (answers : Bindings α → Instruction α (Graph α) → Tensor α → Prop) (node : NodeId)
    (stored : Instruction α (Graph α)) : Prop
  | parameter {old : Instruction α (Graph α)} {name : String} {shape : Shape}
      (hfound : g.find? (origin node) = some old) (hold : old.op = .parameter name shape)
      (hop : stored.op = .parameter name shape) : Derives g origin answers node stored
  | applied (hop : stored.op.isParameter = false)
      (hanswers : ∀ ⦃bindings t⦄, g.Admits bindings →
        Yields g.moduleRunner g bindings (origin node) t → answers bindings stored t) :
      Derives g origin answers node stored

theorem Derives.imp {origin : NodeId → NodeId} {stored : Stored α}
    {answers answers' : Bindings α → Instruction α (Graph α) → Tensor α → Prop}
    (himp : ∀ ⦃bindings stored t⦄, answers bindings stored t → answers' bindings stored t)
    (hderives : Derives g origin answers node stored) : Derives g origin answers' node stored := by
  cases hderives with
  | parameter hfound hold hop => exact .parameter hfound hold hop
  | applied hop hanswers =>
    exact .applied hop fun _ _ hadmits hyields => himp (hanswers hadmits hyields)

/-- Every node of the second graph stands for a node of the first one. -/
abbrev Follows (g h : Graph α) (origin : NodeId → NodeId) : Prop :=
  Throughout (Derives g origin (Answers g origin))
    (Forall₂ (fun result => Stands g (origin result)) · g.results) h

/-! ## Plain instructions -/

/-- A plain instruction gives a value on some tensors that its inputs give. -/
structure Recomputes (g : Graph α) (origin : NodeId → NodeId) (bindings : Bindings α)
    (stored : Instruction α (Graph α)) (t : Tensor α) : Prop where
  plain : PlainInstruction stored
  /-- Where there is room in the original graph there is room here. -/
  roomy : g.Roomy → stored.op.Roomy t.lens
  computed : ∃ args u, Forall₂ (fun input => Gives g bindings (origin input)) stored.inputs args ∧
    stored.op.apply args (stored.modules.map callable) = .ok u ∧ t.Twin u

/-- Given tensors are twins of the values of the nodes that give them. -/
theorem exists_yields_of_gives {origin : NodeId → NodeId}
    (hgives : Forall₂ (fun input => Gives g bindings (origin input)) inputs args) :
    ∃ olds, Forall₂ (fun input => Yields g.moduleRunner g bindings (origin input)) inputs olds ∧
      Forall₂ Tensor.Twin olds args := by
  induction hgives with
  | nil => exact ⟨[], .nil, .nil⟩
  | cons hfirst _ ih =>
    obtain ⟨old, hold, htwin⟩ := hfirst
    obtain ⟨olds, holds, htwins⟩ := ih
    exact ⟨old :: olds, .cons hold holds, .cons htwin htwins⟩

/-- What a plain instruction computes on some tensors it computes on all twins of them. -/
theorem Recomputes.answers {origin : NodeId → NodeId} {stored : Stored α}
    (hrecomputes : Recomputes g origin bindings stored t) :
    Answers g origin bindings stored t := by
  obtain ⟨hplain, hroomy, args, u, hgives, hrun, htwin⟩ := hrecomputes
  obtain ⟨olds, holds, hargs⟩ := exists_yields_of_gives hgives
  refine ⟨olds, holds, fun others out hothers hinfer => ?_⟩
  have htwins : Forall₂ Tensor.Twin args others :=
    forall₂_of_common (fun _ _ _ harg hother => harg.symm.trans hother) hargs hothers
  have hlens : u.lens = t.lens := htwin.alike.lens_eq.symm
  rw [← map_signature_callable] at hinfer
  refine (Operator.apply_alike hplain.tame htwins hinfer hrun).mono ?_ ?_
  · intro hroom
    rw [hlens]
    exact hroomy hroom
  · rintro v ⟨htwin', hshape⟩
    exact ⟨htwin.trans htwin', hshape⟩

/-- Reading nodes that stand for the inputs. -/
theorem Recomputes.congr {origin origin' : NodeId → NodeId} {stored stored' : Stored α}
    (hadmits : g.Admits bindings) (hrecomputes : Recomputes g origin bindings stored t)
    (hop : stored'.op = stored.op) (hmodules : stored'.modules = stored.modules)
    (hinputs : Forall₂ (fun input before => Stands g (origin' input) (origin before)) stored'.inputs
      stored.inputs) : Recomputes g origin' bindings stored' t := by
  obtain ⟨hplain, hroomy, args, u, hgives, hrun, htwin⟩ := hrecomputes
  rw [← hop, ← hmodules] at hrun
  rw [← hop] at hroomy
  refine ⟨⟨hop ▸ hplain.proper, ?_⟩, hroomy, args, u, ?_, hrun, htwin⟩
  · rw [hop, hmodules]
    exact hplain.modules
  · apply forall₂_of_common _ hinputs.flip hgives
    intro before input arg hstands hgives
    exact Stands.gives hstands hadmits hgives

/-- A node of a plain graph that reads nodes which stand for its inputs computes its own value. -/
theorem derives_kept (hplain : g.Plain) {origin : NodeId → NodeId}
    {old stored : Stored α} (hfound : g.find? (origin node) = some old)
    (hop : stored.op = old.op) (hmodules : stored.modules = old.modules)
    (hinputs : Forall₂ (fun input => Stands g (origin input)) stored.inputs old.inputs) :
    Derives g origin (Recomputes g origin) node stored := by
  rcases isParameter_cases old.op with ⟨name, shape, hold⟩ | hparameter
  · exact .parameter hfound hold (hop.trans hold)
  · refine .applied (hop ▸ hparameter) fun bindings t hadmits hyields => ?_
    have hsound {node : NodeId} {t : Tensor α} (hyields : Yields g.moduleRunner g bindings node t) :=
      hplain.yields_sound hadmits hyields
    obtain ⟨args, hargs, hrun⟩ := hyields.exists_args hfound hparameter
    rw [map_callableBy_moduleRunner hfound] at hrun
    have hself : Recomputes g id bindings old t := by
      refine ⟨hplain.plain hfound, fun hroomy => ?_, args, t, ?_, hrun, .refl (hsound hyields).1⟩
      · obtain ⟨_, hfound', hshape⟩ := shape_eq_ok_iff.1 (hsound hyields).2
        cases hfound.symm.trans hfound'
        rw [Tensor.lens, ← hshape]
        exact hroomy hfound
      · exact hargs.imp fun _ arg hyields => ⟨arg, hyields, .refl (hsound hyields).1⟩
    exact hself.congr hadmits hop hmodules hinputs

/-! ## Values along the order -/

section InOrder

variable {h : Graph α} (hcoherent : h.Coherent) (hordered : h.Ordered)
  {bindings : Bindings α} (alive : NodeId → Prop) (property : NodeId → Tensor α → Prop) {sure : Prop}
  (hparameter : ∀ {node stored name shape}, h.find? node = some stored →
    stored.op = .parameter name shape → alive node →
    (∀ u, bindings.find? name = some u → property node u) ∧
      (sure → ∃ u, bindings.find? name = some u))
  (happly : ∀ {node stored}, h.find? node = some stored → stored.op.isParameter = false →
    alive node → (∀ input ∈ stored.inputs, alive input) ∧
      ∀ {args}, Forall₂ property stored.inputs args → Delivers sure (property node)
        (stored.op.apply args (stored.modules.map callable)))

include hcoherent hordered hparameter happly

/-- What holds node by node holds of a value computed along the order. -/
theorem valueWithin_inOrder {depth : Nat} (hdepth : nodesDepth h.nodes ≤ depth) {node : NodeId}
    (hlive : node ∈ h.order) (halive : alive node) {memo : Memo α} (hmemo : memo.All property) :
    Delivers sure (fun result => property node result.1 ∧ Memo.All property result.2)
      (valueWithin (runWithin depth) h bindings (h.size + 1) node memo) := by
  have hready {node : NodeId} (hnode : node ∈ h.order ∧ alive node) :
      ∃ stored, h.find? node = some stored ∧
        ((∃ name shape, stored.op = .parameter name shape ∧
            (∀ u, bindings.find? name = some u → property node u) ∧
            (sure → ∃ u, bindings.find? name = some u)) ∨
          stored.op.isParameter = false ∧
            (∀ input ∈ stored.inputs, (input ∈ h.order ∧ alive input) ∧
              h.order.idxOf input < h.order.idxOf node) ∧
            ∀ {args}, Forall₂ property stored.inputs args →
              Delivers sure (property node) (stored.op.apply args
                (stored.modules.map (callableBy (runWithin depth))))) := by
    obtain ⟨hlive, halive⟩ := hnode
    obtain ⟨stored, hfound⟩ := exists_find?_of_mem_order hlive
    refine ⟨stored, hfound, ?_⟩
    rcases isParameter_cases stored.op with ⟨name, shape, hop⟩ | hop
    · exact .inl ⟨name, shape, hop, hparameter hfound hop halive⟩
    · obtain ⟨hinputs, hvalue⟩ := happly hfound hop halive
      rw [map_callableBy hdepth hfound]
      refine .inr ⟨hop, fun input hinput => ⟨⟨?_, hinputs input hinput⟩, ?_⟩, hvalue⟩
      · exact (hcoherent.settled _ _ hfound).input_mem_order hinput
      · exact hordered hfound input hinput
  obtain ⟨stored, hfound⟩ := exists_find?_of_mem_order hlive
  exact valueWithin_ranked hready ⟨hlive, halive⟩ (Nat.lt_succ_of_lt (idxOf_lt_size hfound)) hmemo

/-- What a graph returns is related to other values, if what holds node by node is. -/
theorem run_inOrder {related : Tensor α → Tensor α → Prop}
    (houts : Forall₂ (fun result out => alive result ∧ ∀ u, property result u → related out u)
      h.results outs) : Delivers sure (Forall₂ related outs) (h.run bindings) := by
  rw [run_eq_valuesWith, valuesWith_eq_bind]
  have hstart : Memo.All property [] := nofun
  have hvalues := mapM_delivers (fun node hmem _ hmemo =>
    valueWithin_inOrder hcoherent hordered alive property hparameter happly (Nat.le_refl _)
      (hcoherent.mem_order_of_mem_results hmem)
      ((exists_mem_right_of_forall₂ houts hmem).elim fun _ hout => hout.2.1) hmemo) hstart
  exact hvalues.bind fun computed hcomputed => .ok
    (forall₂_of_common (fun _ _ _ hout hvalue => hout.2 _ hvalue) houts hcomputed.1)

end InOrder

/-! ## Values -/

/-- A tensor is the value that a node stands for, in the layout of the rewritten graph. -/
structure Agrees (g h : Graph α) (origin : NodeId → NodeId) (bindings : Bindings α) (node : NodeId)
    (u : Tensor α) : Prop where
  twin : ∀ ⦃t⦄, Yields g.moduleRunner g bindings (origin node) t → t.Twin u
  shape_eq : h.shape node = .ok u.shape

section Values

variable {g h : Graph α} {origin : NodeId → NodeId} {bindings : Bindings α} {node : NodeId}
  {stored : Stored α} (hfollows : Follows g h origin) (hadmits : g.Admits bindings)

include hfollows hadmits

/-- An operator on agreeing arguments gives an agreeing value. -/
theorem Follows.apply_agrees (hfound : h.find? node = some stored)
    (hop : stored.op.isParameter = false)
    (hyields : Yields g.moduleRunner g bindings (origin node) t)
    (hargs : Forall₂ (Agrees g h origin bindings) stored.inputs args) :
    Delivers g.Roomy (Agrees g h origin bindings node)
      (stored.op.apply args (stored.modules.map callable)) := by
  obtain ⟨shapes, hshapes, hinfer⟩ := hfollows.settled _ _ hfound
  have hcached : h.shape node = .ok stored.shape := shape_of_find? hfound
  obtain ⟨hlength, hzip⟩ := forall₂_iff_zip.1 hargs
  cases (shapes_of_zip hlength fun hmem => (hzip hmem).shape_eq).symm.trans hshapes
  have hstep {t : Tensor α} (hyields : Yields g.moduleRunner g bindings (origin node) t) :
      Delivers g.Roomy (fun u => t.Twin u ∧ u.shape = stored.shape)
        (stored.op.apply args (stored.modules.map callable)) := by
    cases hfollows.instructions hfound with
    | parameter _ _ hop' =>
      rw [hop'] at hop
      cases hop
    | applied _ hanswers =>
      obtain ⟨olds, holds, hanswer⟩ := hanswers hadmits hyields
      apply hanswer _ hinfer
      exact forall₂_of_common (fun _ _ _ hold hagrees => hagrees.twin hold) holds hargs
  refine ⟨fun hrun => ⟨fun t ht => ((hstep ht).post hrun).1, ?_⟩, (hstep hyields).runs⟩
  rw [((hstep hyields).post hrun).2]
  exact hcached

/-- A parameter that is bound agrees with its binding. -/
theorem Follows.parameter_agrees {name : String} {shape : Shape}
    (hfound : h.find? node = some stored) (hop : stored.op = .parameter name shape) :
    (∀ ⦃t⦄, Yields g.moduleRunner g bindings (origin node) t → bindings.find? name = some t) ∧
      ∀ ⦃u⦄, bindings.find? name = some u → Agrees g h origin bindings node u := by
  cases hfollows.instructions hfound with
  | applied hop' _ =>
    rw [hop] at hop'
    cases hop'
  | parameter hold hop' hsame =>
    cases hop.symm.trans hsame
    refine ⟨fun t ht => ht.find?_eq hold hop', fun u hu => ?_⟩
    obtain ⟨hshape, hvalid⟩ := hadmits hold hop' hu
    constructor
    · intro t ht
      cases (ht.find?_eq hold hop').symm.trans hu
      exact .refl hvalid
    · rw [hshape]
      exact hfollows.shape_parameter hfound hop

/-- The inputs of a node stand for nodes with a value if the node itself does. -/
theorem Follows.exists_yields_input (hyields : Yields g.moduleRunner g bindings (origin node) t)
    (hfound : h.find? node = some stored) (hop : stored.op.isParameter = false) {input : NodeId}
    (hinput : input ∈ stored.inputs) :
    ∃ s, Yields g.moduleRunner g bindings (origin input) s := by
  cases hfollows.instructions hfound with
  | parameter _ _ hop' =>
    rw [hop'] at hop
    cases hop
  | applied _ hanswers =>
    obtain ⟨olds, holds, -⟩ := hanswers hadmits hyields
    obtain ⟨old, -, hold⟩ := exists_mem_right_of_forall₂ holds hinput
    exact ⟨old, hold⟩

/-- What a graph returns that follows another one. -/
theorem Follows.run_twins (hrun : g.run bindings = .ok outs) :
    Delivers g.Roomy (Forall₂ Tensor.Twin outs) (h.run bindings) := by
  refine run_inOrder hfollows.toCoherent hfollows.ordered
    (fun node => ∃ t, Yields g.moduleRunner g bindings (origin node) t)
    (Agrees g h origin bindings) ?_ ?_ ?_
  · rintro node stored name shape hfound hop ⟨t, hyields⟩
    obtain ⟨hbound, hagrees⟩ := hfollows.parameter_agrees hadmits hfound hop
    exact ⟨fun u hu => hagrees hu, fun _ => ⟨t, hbound hyields⟩⟩
  · rintro node stored hfound hop ⟨t, hyields⟩
    exact ⟨fun input hinput => hfollows.exists_yields_input hadmits hyields hfound hop hinput,
      fun hargs => hfollows.apply_agrees hadmits hfound hop hyields hargs⟩
  · rw [run_eq_valuesWith] at hrun
    refine forall₂_of_common ?_ hfollows.results.flip (valuesWith_yields hrun)
    intro _ _ _ hstands hyields
    obtain ⟨s, hs, htwin⟩ := hstands hadmits hyields
    exact ⟨⟨s, hs⟩, fun u hagrees => htwin.symm.trans (hagrees.twin hs)⟩

end Values

end TensorGraph.Pass
