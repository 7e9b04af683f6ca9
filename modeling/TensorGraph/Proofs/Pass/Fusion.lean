import TensorGraph.Proofs.Pass.Following
import TensorGraph.Proofs.Pass.Marking
import TensorGraph.Proofs.Pass.Moves

/-!
# Fused joins keep values

Each feeding module gives the entries of one part of the old join, so the joined value is the old one in
another layout, and the marked module gives on it what the old module gave on the old one.
-/

namespace TensorGraph

open Inference List Tensor

namespace Graph

variable {α : Type}

/-- All shapes of a graph have this element type. -/
def OfElem (g : Graph α) (elem : ElementType) : Prop :=
  ∀ ⦃node stored⦄, g.find? node = some stored → stored.shape.elem = elem

instance (g : Graph α) (elem : ElementType) : Decidable (g.OfElem elem) :=
  inferInstanceAs (Decidable (∀ node stored, g.find? node = some stored → stored.shape.elem = elem))

/-- A coherent module with distinct names for its parameters, which ends by returning values. -/
structure Named (m : Graph α) : Prop extends Coherent m where
  names_nodup : m.parameterNames.Nodup
  ends : m.endsInReturns = true

instance (m : Graph α) : Decidable m.Named :=
  decidable_of_iff (m.Coherent ∧ m.parameterNames.Nodup ∧ m.endsInReturns = true)
    ⟨fun h => ⟨h.1, h.2.1, h.2.2⟩, fun h => ⟨h.1, h.2, h.3⟩⟩

/-- A plain graph with one element type, also in its modules. -/
structure Uniform [Scalar α] (g : Graph α) (elem : ElementType) : Prop extends Plain g where
  ofElem : g.OfElem elem
  /-- So have all shapes in modules, the parameters of which can be told apart. -/
  modules : ∀ ⦃node stored⦄, g.find? node = some stored →
    ∀ m ∈ stored.modules, m.Named ∧ m.OfElem elem

instance [Scalar α] (g : Graph α) (elem : ElementType) : Decidable (g.Uniform elem) :=
  decidable_of_iff (g.Plain ∧ g.OfElem elem ∧ ∀ node stored, g.find? node = some stored →
      ∀ m ∈ stored.modules, m.Named ∧ m.OfElem elem)
    ⟨fun h => ⟨h.1, h.2.1, h.2.2⟩, fun h => ⟨h.1, h.2, h.3⟩⟩

/-- The element type of what a module with these outputs returns first. -/
theorem OfElem.moduleElem_eq {m : Graph α} {elem : ElementType} (helem : m.OfElem elem) {op : String}
    {signature : Signature} (hsame : signature.outputs = m.outputShapes) {found : ElementType}
    (hfound : moduleElem op signature = .ok found) : found = elem := by
  obtain ⟨first, rest, houtputs, rfl⟩ := moduleElem_eq_ok hfound
  have hmem : first ∈ m.outputShapes := by
    rw [← hsame, houtputs]
    exact mem_cons_self
  obtain ⟨node, -, hshape⟩ := mem_filterMap.1 hmem
  obtain ⟨stored, hstored, rfl⟩ := Option.map_eq_some_iff.1 hshape
  exact helem hstored

end Graph

namespace Pass

open Graph

variable {α : Type} [Scalar α] {g marked : Graph α} {elem : ElementType}
  {fed : List (Graph α × List NodeId)}

/-! ## The relation -/

/-- A module and the nodes it reads feed a part of a join: the module of an elementwise node, or one
that passes the part on. -/
inductive FedBy (g : Graph α) (part : NodeId) : Graph α × List NodeId → Prop
  | pointwise {stored : Instruction α (Graph α)} {module : Graph α} (name : String)
      (hfound : g.find? part = some stored) (hop : stored.op = .pointwise)
      (hmodules : stored.modules = [module]) :
      FedBy g part ({ module with name := name }, stored.inputs)
  | passing {name : String} {elem : ElementType} {module : Graph α}
      (hmodule : passingModule name elem = .ok module) : FedBy g part (module, [part])

/-- An instruction is the one of the original graph, or a fused join made of it and of a join that it
reads. -/
inductive Merged (g : Graph α) (node : NodeId) (stored : Instruction α (Graph α)) : Prop
  | kept {old : Instruction α (Graph α)} (hfound : g.find? node = some old)
      (hop : stored.op = old.op) (hinputs : stored.inputs = old.inputs)
      (hmodules : stored.modules = old.modules) : Merged g node stored
  | fused {old joined : Instruction α (Graph α)} {post marked : Graph α} {join : NodeId}
      {position : Nat} {name : String} {axis : Int} {fed : List (Graph α × List NodeId)}
      (hfound : g.find? node = some old) (hold : old.op = .pointwise)
      (hpost : old.modules = [post]) (hposition : old.inputs[position]? = some join)
      (hname : post.parameterNames[position]? = some name)
      (hmark : markParameter post name = .ok (some marked))
      (hjoined : g.find? join = some joined) (hjoin : joined.op = .concat axis)
      (hfed : Forall₂ (FedBy g) joined.inputs fed)
      (hop : stored.op = .fusedConcat axis)
      (hinputs : stored.inputs = fed.flatMap (·.2) ++ old.inputs.eraseIdx position)
      (hmodules : stored.modules = fed.map (·.1) ++ [marked]) : Merged g node stored

/-- Every node of the second graph is one of the first, or a fused join made of it, and the same nodes
are returned. -/
abbrev Fused (g h : Graph α) : Prop := Throughout (Merged g) (· = g.results) h

/-! ## Feeding modules -/

variable {stored : Stored α} {module : Graph α} {name : String}

/-- How an elementwise node comes by its value. -/
theorem exists_call {bindings : Bindings α} {node : NodeId} {t : Tensor α}
    (hfound : g.find? node = some stored) (hop : stored.op = .pointwise)
    (hmodules : stored.modules = [module]) (hyields : Yields g.moduleRunner g bindings node t) :
    ∃ args v out, Forall₂ (Yields g.moduleRunner g bindings) stored.inputs args ∧
      (Operator.pointwise : Operator α).infer (Tensor.shapes args) [module.signature] = .ok out ∧
      module.callable.call args = .ok v ∧ Evaluation.relaid out v = .ok t := by
  obtain ⟨args, hargs, hrun⟩ := hyields.exists_args hfound (by rw [hop]; rfl)
  rw [map_callableBy_moduleRunner hfound, hop, hmodules] at hrun
  obtain ⟨out, hinfer, hrun⟩ := Operator.apply_eq_ok_iff.1 hrun
  obtain ⟨_, hfetch, hrun⟩ := bind_eq_ok_iff.1 hrun
  cases hfetch
  obtain ⟨v, hcall, hrelaid⟩ := bind_eq_ok_iff.1 hrun
  exact ⟨args, v, out, hargs, hinfer, hcall, Outcome.lift_eq_ok_iff.1 hrelaid⟩

/-- One part of a join with what feeds it. -/
structure Feed (α : Type) where
  part : Tensor α
  module : Graph α
  inputs : List NodeId
  group : List (Tensor α)

/-- The module makes the part of the values of the nodes it reads, in whatever layout they come. -/
structure Feed.Supplies (feed : Feed α) (g : Graph α) (bindings : Bindings α) : Prop where
  yields : Forall₂ (Yields g.moduleRunner g bindings) feed.inputs feed.group
  arity_eq : feed.module.signature.arity = feed.group.length
  lens_eq : ∀ a ∈ feed.group, a.lens = feed.part.lens
  call : ∀ ⦃group : List (Tensor α)⦄, Forall₂ Tensor.Twin feed.group group →
    Delivers g.Roomy feed.part.SameEntries (feed.module.callable.call group)

section Feeding

variable {g : Graph α} (hplain : g.Plain) {bindings : Bindings α} (hadmits : g.Admits bindings)
  {node : NodeId} {t : Tensor α} (hyields : Yields g.moduleRunner g bindings node t)

include hplain hadmits hyields

variable {stored : Stored α}

/-- Where there is room, the value of an elementwise node is not empty. -/
theorem pos_of_roomy (hfound : g.find? node = some stored) (hop : stored.op = .pointwise)
    (hroomy : g.Roomy) : 0 ∉ t.lens := by
  have hself := hroomy hfound
  rw [hop] at hself
  obtain ⟨-, hshape⟩ := hplain.yields_sound hadmits hyields
  obtain ⟨_, hfound', hshape⟩ := shape_eq_ok_iff.1 hshape
  cases hfound.symm.trans hfound'
  rwa [Tensor.lens, ← hshape]

theorem supplies_of_pointwise {module : Graph α} (name : String)
    (hfound : g.find? node = some stored) (hop : stored.op = .pointwise)
    (hmodules : stored.modules = [module]) :
    ∃ group, (⟨t, { module with name := name }, stored.inputs, group⟩ : Feed α).Supplies g
      bindings := by
  obtain ⟨args, v, out, hargs, hinfer, hcall, hrelaid⟩ := exists_call hfound hop hmodules hyields
  obtain ⟨harity, hfirst⟩ := Callable.call_eq_ok hcall
  obtain ⟨⟨elem, -, hdense⟩, hlens⟩ := Operator.pointwise_lens hinfer
  obtain ⟨_, _, _, -, -, -, hshape, -⟩ := tabulate_eq_ok hrelaid
  have hself : t.lens = out.lens := by rw [Tensor.lens, hshape]
  have hmodule : module.Elementwise := by
    rcases (hplain.plain hfound).modules with hnone | ⟨-, hall⟩
    · rw [hmodules] at hnone
      cases hnone
    · exact hall module (hmodules ▸ mem_cons_self)
  refine ⟨args, hargs, harity, fun a hmem => ?_, fun group htwins => ?_⟩
  · obtain ⟨_, axes, hstrided, haxes⟩ := hlens a hmem
    rw [lens_of_shape hstrided, haxes, hself]
  · have hargs' := Operator.pointwise_twinAt htwins hinfer
    have hsame : ({ module with name := name } : Graph α).signature.arity = group.length :=
      harity.trans htwins.length_eq
    rw [Callable.call_of_arity hsame]
    have hrenames : Renames module { module with name := name } id id := renames_of_nodes rfl
    apply (hmodule.firstOutput hrenames (Bindings.related_zip hargs').find? hfirst).mono
    · intro hroomy
      rw [← hself]
      exact pos_of_roomy hplain hadmits hyields hfound hop hroomy
    · intro v' htwin
      obtain ⟨own, axes, hv, haxes⟩ := htwin.strided
      rw [← haxes] at hdense
      exact (sameEntries_of_relaid htwin.valid hv hdense hrelaid).trans
        (htwin.toTwin.sameEntries ⟨own, axes, hv⟩)

theorem FedBy.supplies {fed : Graph α × List NodeId} (hfeeds : FedBy g node fed)
    (hstrided : ∃ elem axes, t.shape = .strided elem axes) :
    ∃ group, (⟨t, fed.1, fed.2, group⟩ : Feed α).Supplies g bindings := by
  cases hfeeds with
  | pointwise name hfound hop hmodules =>
    exact supplies_of_pointwise hplain hadmits hyields name hfound hop hmodules
  | passing hmodule =>
    -- A module that passes its parameter on gives its argument.
    cases hmodule
    refine ⟨[t], .cons hyields .nil, rfl, by simp, fun group htwins => ?_⟩
    obtain ⟨u, rfl, htwin⟩ := exists_of_forall₂_one htwins
    exact .ok (htwin.sameEntries hstrided)

end Feeding

/-- Every part of a join has what feeds it. -/
theorem exists_fed (hplain : g.Plain) {bindings : Bindings α} (hadmits : g.Admits bindings)
    {inputs : List NodeId} {parts : List (Tensor α)}
    (hfed : Forall₂ (FedBy g) inputs fed)
    (hparts : Forall₂ (Yields g.moduleRunner g bindings) inputs parts)
    (hstrided : ∀ part ∈ parts, ∃ elem axes, part.shape = .strided elem axes) :
    ∃ feeds : List (Feed α), parts = feeds.map Feed.part ∧
      fed = feeds.map (fun feed => (feed.module, feed.inputs)) ∧
      ∀ feed ∈ feeds, feed.Supplies g bindings := by
  induction hfed generalizing parts with
  | nil =>
    cases hparts
    exact ⟨[], rfl, rfl, by simp⟩
  | @cons input item inputs fed hfeeds _ ih =>
    obtain ⟨part, parts, hpart, hrest, rfl⟩ := forall₂_cons_left_iff.1 hparts
    rw [forall_mem_cons] at hstrided
    obtain ⟨group, hsupplies⟩ := hfeeds.supplies hplain hadmits hpart hstrided.1
    obtain ⟨feeds, rfl, rfl, hall⟩ := ih hrest hstrided.2
    exact ⟨⟨part, item.1, item.2, group⟩ :: feeds, rfl, rfl,
      forall_mem_cons.2 ⟨hsupplies, hall⟩⟩

/-! ## All feeding modules of a join -/

section Fusing

variable {g : Graph α} {bindings : Bindings α} {feeds : List (Feed α)}
  (hfeeds : ∀ feed ∈ feeds, feed.Supplies g bindings) {groups : List (List (Tensor α))}

include hfeeds

theorem yields_of_fed :
    Forall₂ (Yields g.moduleRunner g bindings)
      ((feeds.map fun feed => (feed.module, feed.inputs)).flatMap (·.2))
      (feeds.map Feed.group).flatten := by
  induction feeds with
  | nil => exact .nil
  | cons feed feeds ih =>
    rw [forall_mem_cons] at hfeeds
    rw [map_cons, flatMap_cons, map_cons, flatten_cons]
    exact rel_append hfeeds.1.yields (ih hfeeds.2)

/-- Which modules take how many of the inputs. -/
theorem arity_of_fed (hgroups : Forall₂ (Forall₂ Tensor.Twin) (feeds.map Feed.group) groups) :
    Forall₂ (fun module group => module.signature.arity = group.length)
      ((feeds.map Feed.module).map callable) groups := by
  rw [map_map, forall₂_map_left_iff]
  rw [forall₂_map_left_iff] at hgroups
  exact forall₂_imp_mem hgroups fun feed hfeed group htwins =>
    (hfeeds feed hfeed).arity_eq.trans htwins.length_eq

/-- Every feeding module gives the entries of its part. -/
theorem calls_of_fed (hgroups : Forall₂ (Forall₂ Tensor.Twin) (feeds.map Feed.group) groups) :
    Forall₂ (fun item part => Delivers g.Roomy part.SameEntries (item.2.call item.1))
      (groups.zip ((feeds.map Feed.module).map callable))
      (feeds.map Feed.part) := by
  induction feeds generalizing groups with
  | nil =>
    cases hgroups
    exact .nil
  | cons feed feeds ih =>
    obtain ⟨group, groups, hgroup, hrest, rfl⟩ := forall₂_cons_left_iff.1 hgroups
    rw [forall_mem_cons] at hfeeds
    exact .cons (hfeeds.1.call hgroup) (ih hfeeds.2 hrest)

variable {op : String} {axis : Int} {found : Nat × List Nat}

/-- The join that inference finds is the one of the parts: what stands for a part has its lengths. -/
theorem joinLens_of_fed (hgroups : Forall₂ (Forall₂ Tensor.Twin) (feeds.map Feed.group) groups)
    {heads : List Shape} (hheads : Forall₂ (fun group head => group.head? = some head)
      (groups.map Tensor.shapes) heads) {op' : String} {found' : Nat × List Nat}
    (hjoin : joinLens op (Tensor.shapes (feeds.map Feed.part)) axis = .ok found)
    (hjoin' : joinLens op' heads axis = .ok found') : found' = found := by
  obtain ⟨_, _⟩ := found'
  obtain ⟨_, _, -, hstrided, -⟩ := joinLens_eq_ok_iff.1 hjoin'
  have hlens : Forall₂ (fun s s' => s'.lens = s.lens ∧ ∃ elem axes, s' = .strided elem axes)
      (Tensor.shapes (feeds.map Feed.part)) heads := by
    rw [shapes_eq_map, map_map, forall₂_map_left_iff]
    rw [forall₂_map_left_iff] at hgroups hheads
    have hfed := (forall₂_and_left _ _).2 ⟨hfeeds, hgroups⟩
    have hself := (forall₂_and_left _ _).2 ⟨hstrided, hheads.flip⟩
    apply forall₂_of_common _ hfed.flip hself.flip
    rintro group feed head ⟨hsupplies, htwins⟩ ⟨hstrided, hhead⟩
    rw [shapes_eq_map, head?_map] at hhead
    obtain ⟨b, hb, rfl⟩ := Option.map_eq_some_iff.1 hhead
    obtain ⟨a, ha, htwin⟩ := exists_mem_right_of_forall₂ htwins.flip (mem_of_head? hb)
    exact ⟨htwin.alike.lens_eq.symm.trans (hsupplies.lens_eq a ha), hstrided⟩
  exact Except.ok.inj (hjoin'.symm.trans (joinLens_of_lens op' hlens hjoin))

/-- What inference must have found for a fused join. -/
theorem infer_of_fed {rest : List (Tensor α)}
    (hgroups : Forall₂ (Forall₂ Tensor.Twin) (feeds.map Feed.group) groups)
    {out : Shape} (hjoin : joinLens op (Tensor.shapes (feeds.map Feed.part)) axis = .ok found)
    (hinfer : (Operator.fusedConcat axis : Operator α).infer
      (Tensor.shapes (groups.flatten ++ rest)) (signatures (feeds.map Feed.module ++ [marked])) =
        .ok out) :
    ∃ plan elem, planFusion (groups.flatten ++ rest).length
        (signatures (feeds.map Feed.module ++ [marked])) = .ok plan ∧
      (marked.signature.parameterNames.filter takesJoined).length = 1 ∧
      moduleElem (Operator.fusedConcat axis : Operator α).name marked.signature =
        .ok elem ∧ out.IsDense elem found.2 := by
  have hshape : fusedConcatShape (Operator.fusedConcat axis : Operator α).name axis
      (Tensor.shapes (groups.flatten ++ rest))
      (signatures (feeds.map Feed.module ++ [marked])) = .ok out := hinfer
  have hsignatures : signatures (feeds.map Feed.module ++ [marked]) =
      signatures (feeds.map Feed.module) ++ [marked.signature] := by
    rw [signatures, signatures, map_append, map_singleton]
  have hshapes : Tensor.shapes (groups.flatten ++ rest) =
      (groups.map Tensor.shapes).flatten ++ Tensor.shapes rest := by
    have hmap : (Tensor.shapes : List (Tensor α) → List Shape) = List.map Tensor.shape :=
      funext shapes_eq_map
    rw [hmap, map_append, map_flatten]
  obtain ⟨plan, heads, place, lens, post, elem, hplan, hheads, hjoin', hlast, helem, hdense⟩ :=
    fusedConcatShape_eq_ok hshape
  rw [shapes_eq_map, length_map] at hplan
  rw [hsignatures, getLast?_append_of_ne_nil _ (cons_ne_nil _ _),
    getLast?_singleton] at hlast
  cases hlast
  refine ⟨plan, elem, hplan, ?_⟩
  rw [hsignatures] at hplan
  obtain ⟨rfl, hone, hsome⟩ := planFusion_eq_ok hplan
  have harity : Forall₂ (fun signature group => signature.arity = group.length)
      (signatures (feeds.map Feed.module)) (groups.map Tensor.shapes) := by
    have hcalls := arity_of_fed hfeeds hgroups
    rw [forall₂_map_left_iff] at hcalls
    rw [signatures, forall₂_map_left_iff, forall₂_map_right_iff]
    apply hcalls.imp
    intro module group harity
    rw [shapes_eq_map, length_map]
    exact harity
  rw [hshapes] at hheads
  have hheads' := heads_of_dealInputs harity hsome hheads
  cases joinLens_of_fed hfeeds hgroups hheads' hjoin hjoin'
  exact ⟨hone, helem, hdense⟩

end Fusing

/-! ## Fused nodes -/

/-- With twins of the arguments, the joined one under its mark, the marked module gives what the module
gave. -/
theorem marked_delivers {post : Graph α} (hnamed : post.Named) (hpost : post.Elementwise)
    (hmark : markParameter post name = .ok (some marked)) {position : Nat}
    (hname : post.parameterNames[position]? = some name)
    (hone : (marked.signature.parameterNames.filter takesJoined).length = 1)
    {args rest : List (Tensor α)} {v t value joined : Tensor α} {out out' : Shape}
    (hinfer : (Operator.pointwise : Operator α).infer (Tensor.shapes args) [post.signature] = .ok out)
    (hcall : post.callable.call args = .ok v) (hrelaid : Evaluation.relaid out v = .ok t)
    (hvalue : args[position]? = some value) (hjoined : value.Twin joined)
    (hrest : Forall₂ Tensor.Twin (args.eraseIdx position) rest) (hdense : out.IsDense elem out.lens)
    (hdense' : out'.IsDense elem out.lens) (op : String) :
    Delivers (0 ∉ out.lens) (fun u => t.Twin u ∧ u.shape = out')
      (Evaluation.bindPost op joined marked.signature.parameterNames rest >>= fun bindings =>
        marked.callable.firstOutput bindings >>= fun value =>
          liftM (Evaluation.relaid out' value)) := by
  obtain ⟨old, new, hmarks⟩ := markParameter_marks hnamed.toCoherent hmark
  have hrenames := hmarks.renames hnamed.toCoherent hnamed.names_nodup hnamed.ends
  obtain ⟨-, hlens⟩ := Operator.pointwise_lens hinfer
  obtain ⟨harity, hfirst⟩ := Callable.call_eq_ok hcall
  change post.signature.arity = _ at harity
  change post.callable.firstOutput (post.signature.parameterNames.zip _) = _ at hfirst
  rw [signature_arity] at harity
  rw [signature_parameterNames] at hfirst
  rw [signature_parameterNames] at hone ⊢
  have hjoined' : value.TwinAt out.lens joined :=
    ⟨hjoined, hlens value (mem_of_getElem? hvalue)⟩
  have hrest' : Forall₂ (Tensor.TwinAt out.lens) (args.eraseIdx position) rest :=
    forall₂_imp_mem hrest fun a hmem _ htwin => ⟨htwin, hlens a (mem_of_mem_eraseIdx hmem)⟩
  obtain ⟨bindings, hbindings, hfind⟩ := hmarks.exists_bindings hnamed.toCoherent
    hnamed.names_nodup hone hname harity hvalue hjoined' hrest' op
  rw [hbindings, ok_bind]
  apply (hpost.firstOutput hrenames hfind hfirst).bind
  intro v' htwin
  exact Evaluation.relaid_twin htwin hdense hdense' hrelaid _ _

section Uniform

variable {g : Graph α} {elem : ElementType} (huniform : g.Uniform elem) {bindings : Bindings α}
  (hadmits : g.Admits bindings)

include huniform hadmits

variable {join : NodeId} {joined : Stored α} {axis : Int}

/-- How a join comes by its value. -/
theorem exists_join (hjoined : g.find? join = some joined) (hjoin : joined.op = .concat axis)
    {value : Tensor α} (hyields : Yields g.moduleRunner g bindings join value) :
    ∃ parts place lens, Forall₂ (Yields g.moduleRunner g bindings) joined.inputs parts ∧
      (∀ part ∈ parts, ∃ elem axes, part.shape = .strided elem axes) ∧
      joinLens (Operator.concat axis : Operator α).name (Tensor.shapes parts) axis =
        .ok (place, lens) ∧
      value.shape.IsDense elem lens ∧ volume lens ≤ Tensor.largestBuffer ∧
      value.Holds value.shape (Reading.join place (parts.map Tensor.reading)) := by
  have hsound {node : NodeId} {t : Tensor α} (hyields : Yields g.moduleRunner g bindings node t) :=
    huniform.yields_sound hadmits hyields
  obtain ⟨parts, hparts, hrun⟩ := hyields.exists_args hjoined (by rw [hjoin]; rfl)
  have hnone : joined.modules = [] := by
    apply (huniform.plain hjoined).modules.resolve_right
    rintro ⟨hpointwise, -⟩
    rw [hjoin] at hpointwise
    cases hpointwise
  rw [hjoin, hnone] at hrun
  obtain ⟨out, hinfer, hrun⟩ := Operator.apply_eq_ok_iff.1 hrun
  have hvalid : ∀ part ∈ parts, part.Valid := by
    intro part hmem
    obtain ⟨_, -, hpart⟩ := exists_mem_right_of_forall₂ hparts.flip hmem
    exact (hsound hpart).1
  obtain ⟨place, lens, hlens, hdense, -, hcomputes⟩ := Operator.concat_computes hinfer hvalid
  have hholds := hcomputes.holds hrun
  obtain rfl : value.shape = out := hholds.shape_eq
  have helem : value.shape.elem = elem := by
    obtain ⟨stored, hstored, hshape⟩ := shape_eq_ok_iff.1 (hsound hyields).2
    rw [← hshape]
    exact huniform.ofElem hstored
  obtain ⟨_, _, -, hstrided, -⟩ := joinLens_eq_ok_iff.1 hlens
  refine ⟨parts, place, lens, hparts, fun part hmem => hstrided _ ?_, hlens, helem ▸ hdense,
    hcomputes.exists_iff.1 ⟨value, hrun⟩, hholds⟩
  rw [shapes_eq_map]
  exact mem_map_of_mem hmem

/-- On the values of the original graph a fused join gives the value of the node that it was made
of. -/
theorem answers_of_fused {node : NodeId} {stored old : Stored α}
    {post : Graph α} {position : Nat} {name : String}
    (hfound : g.find? node = some old) (hold : old.op = .pointwise) (hpost : old.modules = [post])
    (hposition : old.inputs[position]? = some join)
    (hname : post.parameterNames[position]? = some name)
    (hmark : markParameter post name = .ok (some marked)) (hjoined : g.find? join = some joined)
    (hjoin : joined.op = .concat axis) (hfed : Forall₂ (FedBy g) joined.inputs fed)
    (hop : stored.op = .fusedConcat axis)
    (hinputs : stored.inputs = fed.flatMap (·.2) ++ old.inputs.eraseIdx position)
    (hmodules : stored.modules = fed.map (·.1) ++ [marked]) {t : Tensor α}
    (hyields : Yields g.moduleRunner g bindings node t) : Answers g id bindings stored t := by
  obtain ⟨args, v, out, hargs, hinfer, hcall, hrelaid⟩ := exists_call hfound hold hpost hyields
  obtain ⟨value, hvalue, hjoinYields⟩ := exists_getElem?_of_forall₂ hargs.flip hposition
  obtain ⟨parts, place, lens, hparts, hstrided, hlens, hdense, hfits, hholds⟩ :=
    exists_join huniform hadmits hjoined hjoin hjoinYields
  obtain ⟨feeds, rfl, rfl, hfeeds⟩ := exists_fed huniform.toPlain hadmits hfed hparts hstrided
  refine ⟨(feeds.map Feed.group).flatten ++ args.eraseIdx position, ?_, ?_⟩
  · rw [hinputs]
    exact rel_append (yields_of_fed hfeeds) (forall₂_eraseIdx hargs position)
  intro inputs out' htwins hinfer'
  obtain ⟨groups, rest, rfl, hgroups, hrest⟩ := forall₂_flatten_append htwins
  have hmodules' : stored.modules = feeds.map Feed.module ++ [marked] := by
    rw [hmodules, map_map]
    rfl
  rw [hop, hmodules'] at hinfer' ⊢
  obtain ⟨plan, elem', hplan, hone, helem', hdense'⟩ :=
    infer_of_fed hfeeds hgroups hlens hinfer'
  have hpostMem : post ∈ old.modules := hpost ▸ mem_cons_self
  obtain ⟨hnamed, hofElem⟩ := huniform.modules hfound post hpostMem
  have helementwise : post.Elementwise := by
    rcases (huniform.plain hfound).modules with hnone | ⟨-, hall⟩
    · rw [hpost] at hnone
      cases hnone
    · exact hall post hpostMem
  -- Both shapes have the element type of the graph and the lengths of the joined value.
  obtain ⟨⟨own, hown, hdenseOut⟩, hlensArgs⟩ := Operator.pointwise_lens hinfer
  obtain rfl : own = elem := hofElem.moduleElem_eq rfl hown
  obtain rfl : elem' = own := by
    obtain ⟨_, _, hmarks⟩ := markParameter_marks hnamed.toCoherent hmark
    exact hofElem.moduleElem_eq (hmarks.outputShapes_eq hnamed.toCoherent hnamed.ends) helem'
  have hvalueLens : lens = out.lens := by
    obtain ⟨_, axes, hshape, haxes⟩ := hlensArgs value (mem_of_getElem? hvalue)
    rw [← haxes, ← lens_of_shape hshape, Tensor.lens, hdense.lens_eq]
  subst hvalueLens
  have helemOut : out'.elem = elem' := by
    obtain ⟨axes, rfl, -⟩ := hdense'
    rfl
  have hpos : g.Roomy → 0 ∉ out.lens := by
    intro hroomy
    have hself := pos_of_roomy huniform.toPlain hadmits hyields hfound hold hroomy
    obtain ⟨_, _, _, -, -, -, hshape, -⟩ := tabulate_eq_ok hrelaid
    rwa [Tensor.lens, hshape] at hself
  rw [← map_signature_callable] at hinfer' hplan
  rw [Operator.apply, Outcome.liftShape_eq_ok_iff.2 hinfer', ok_bind]
  rw [map_append, map_singleton] at hplan ⊢
  change Delivers _ _ (Evaluation.fusedConcatValue _ axis out' _ _)
  rw [Evaluation.fusedConcatValue_eq (arity_of_fed hfeeds hgroups) hplan, helemOut]
  apply (Evaluation.joinCalls_twin (calls_of_fed hfeeds hgroups) hlens hdense hfits hholds
    hpos).bind
  intro value' htwin
  exact (marked_delivers hnamed helementwise hmark hname hone hinfer hcall hrelaid hvalue htwin
    hrest hdenseOut hdense' _).mono hpos fun _ hboth => hboth

end Uniform

theorem Merged.derives (huniform : g.Uniform elem) {node : NodeId} (hmerged : Merged g node stored)
    :
    Derives g id (Answers g id) node stored := by
  cases hmerged with
  | kept hfound hop hinputs hmodules =>
    refine (derives_kept huniform.toPlain hfound hop hmodules ?_).imp fun _ _ _ hrecomputes =>
      hrecomputes.answers
    rw [hinputs]
    exact forall₂_same.2 fun input _ => .refl huniform.toPlain input
  | fused hfound hold hpost hposition hname hmark hjoined hjoin hfed hop hinputs hmodules =>
    apply Derives.applied (by rw [hop]; rfl)
    intro bindings t hadmits hyields
    exact answers_of_fused huniform hadmits hfound hold hpost hposition hname hmark hjoined hjoin
      hfed hop hinputs hmodules hyields

theorem Fused.follows {h : Graph α} (huniform : g.Uniform elem) (hfused : Fused g h) :
    Follows g h id :=
  hfused.mono (fun _ _ hmerged => hmerged.derives huniform) fun _ heq =>
    heq ▸ forall₂_same.2 fun node _ => .refl huniform.toPlain node

end Pass

end TensorGraph
