import TensorGraph.Proofs.Graph.ElementwiseModules
import TensorGraph.Proofs.Graph.Nesting
import TensorGraph.Proofs.Graph.Order

/-!
# Values in a plain graph

For bindings in the declared shapes, the value of a node of a plain graph has the cached shape.
-/

namespace TensorGraph

open List

namespace Graph

variable {α : Type} [Scalar α] {g : Graph α} {instruction : Stored α} {node : NodeId}

/-- A proper operator whose modules, if any, are run on whole tensors and are elementwise. -/
structure PlainInstruction (instruction : Instruction α (Graph α)) : Prop where
  proper : instruction.op.Proper
  modules : instruction.modules = [] ∨
    instruction.op.isPointwise = true ∧ ∀ m ∈ instruction.modules, m.Elementwise

/-- A coherent graph in order, with no modules other than elementwise ones. -/
structure Plain (g : Graph α) : Prop extends Coherent g where
  ordered : g.Ordered
  plain : ∀ ⦃node instruction⦄, g.find? node = some instruction → PlainInstruction instruction

instance : DecidablePred (@PlainInstruction α) := fun stored =>
  decidable_of_iff (stored.op.Proper ∧ (stored.modules = [] ∨
      stored.op.isPointwise = true ∧ ∀ m ∈ stored.modules, m.Elementwise))
    ⟨fun h => ⟨h.1, h.2⟩, fun h => ⟨h.1, h.2⟩⟩

instance (g : Graph α) : Decidable g.Plain :=
  decidable_of_iff (g.Coherent ∧ g.Ordered ∧
      ∀ node stored, g.find? node = some stored → PlainInstruction stored)
    ⟨fun h => ⟨h.1, h.2.1, h.2.2⟩, fun h => ⟨h.1, h.2, h.3⟩⟩

/-- Bindings in the declared shapes, with buffers that are long enough. -/
def Admits (g : Graph α) (bindings : Bindings α) : Prop :=
  ∀ ⦃node instruction name shape t⦄, g.find? node = some instruction →
    instruction.op = .parameter name shape → bindings.find? name = some t →
    t.shape = shape ∧ t.Valid

/-- What a parameter declares. -/
def declared? : Operator α → Option (String × Shape)
  | .parameter name shape => some (name, shape)
  | _ => none

instance {property : String → Shape → Prop} [∀ name shape, Decidable (property name shape)]
    (op : Operator α) : Decidable (∀ name shape, op = .parameter name shape → property name shape) :=
  decidable_of_iff (∀ declared ∈ declared? op, property declared.1 declared.2)
    (by cases op <;> simp [declared?])

instance (g : Graph α) (bindings : Bindings α) : Decidable (g.Admits bindings) :=
  decidable_of_iff (∀ node stored, g.find? node = some stored → ∀ name shape,
      stored.op = .parameter name shape → ∀ t ∈ bindings.find? name, t.shape = shape ∧ t.Valid)
    ⟨fun h _ _ _ _ _ hfound hop hbound => h _ _ hfound _ _ hop _ hbound,
      fun h _ _ hfound _ _ hop _ hbound => h hfound hop hbound⟩

/-- There is room for every value in every layout. -/
def Roomy (g : Graph α) : Prop :=
  ∀ ⦃node instruction⦄, g.find? node = some instruction →
    instruction.op.Roomy instruction.shape.lens

instance (g : Graph α) : Decidable g.Roomy :=
  inferInstanceAs (Decidable (∀ node stored, g.find? node = some stored →
    stored.op.Roomy stored.shape.lens))

theorem map_signature_callable (modules : List (Graph α)) :
    (modules.map callable).map Callable.signature = signatures modules := by
  rw [map_map]
  rfl

theorem PlainInstruction.tame (hplain : PlainInstruction instruction) :
    instruction.op.Tame (instruction.modules.map callable) := by
  refine ⟨hplain.proper, hplain.modules.imp (fun hnone => by rw [hnone, map_nil]) ?_⟩
  rintro ⟨hpointwise, helementwise⟩
  exact ⟨hpointwise, forall_mem_map.2 fun m hmem => (helementwise m hmem).steady⟩

section Values

variable {g : Graph α} {run : Runner α} {bindings : Bindings α} {node : NodeId} {t : Tensor α}

omit [Scalar α] in
/-- The cached shapes of the inputs are those of the arguments. -/
theorem shapes_of_zip {inputs : List NodeId} {args : List (Tensor α)}
    (hlength : inputs.length = args.length)
    (hshapes : ∀ {input arg}, (input, arg) ∈ inputs.zip args → g.shape input = .ok arg.shape) :
    g.shapes inputs = .ok (Tensor.shapes args) := by
  rw [shapes_eq_ok_iff, Tensor.shapes_eq_map, forall₂_map_right_iff]
  exact forall₂_iff_zip.2 ⟨hlength, hshapes⟩

omit [Scalar α] in
/-- The shape cached for a parameter is the declared one. -/
theorem Coherent.shape_parameter (hcoherent : g.Coherent) {name : String} {shape : Shape}
    (hfound : g.find? node = some instruction) (hop : instruction.op = .parameter name shape) :
    g.shape node = .ok shape := by
  obtain ⟨shapes, -, hinfer⟩ := hcoherent.settled node instruction hfound
  rw [hop] at hinfer
  obtain ⟨_, -, hpure⟩ := bind_eq_ok_iff.1 hinfer
  cases hpure
  exact shape_of_find? hfound

/-- The value of a node has the cached shape. -/
theorem Plain.yields_sound (hplain : g.Plain) (hadmits : g.Admits bindings)
    (hyields : Yields g.moduleRunner g bindings node t) : t.Valid ∧ g.shape node = .ok t.shape := by
  induction hyields with
  | parameter hfound hop hbound =>
    obtain ⟨hshape, hvalid⟩ := hadmits hfound hop hbound
    exact ⟨hvalid, hshape ▸ hplain.toCoherent.shape_parameter hfound hop⟩
  | @apply node instruction args t hfound hop hlength hargs happly ih =>
    have hshapes := shapes_of_zip hlength fun hmem => (ih hmem).2
    have hvalid : ∀ a ∈ args, a.Valid := by
      have hall := forall₂_iff_zip.2 ⟨hlength, ih⟩
      intro a hmem
      obtain ⟨input, -, hself⟩ := exists_mem_right_of_forall₂ hall.flip hmem
      exact hself.1
    rw [map_callableBy_moduleRunner hfound] at happly
    obtain ⟨hvalid, hinfer⟩ := Operator.apply_sound (hplain.plain hfound).tame hvalid happly
    rw [map_signature_callable] at hinfer
    obtain ⟨shapes, hsettled, hinfer'⟩ := hplain.settled _ _ hfound
    cases hshapes.symm.trans hsettled
    have hshape := Except.ok.inj (hinfer.symm.trans hinfer')
    exact ⟨hvalid, shape_eq_ok_iff.2 ⟨_, hfound, hshape.symm⟩⟩

end Values

/-- A node is another one, or forces the standard layout of a node that relays it. -/
inductive Relays (g : Graph α) (source : NodeId) : NodeId → Prop
  | refl : Relays g source source
  | force {node input : NodeId} {instruction : Instruction α (Graph α)}
      (hfound : g.find? node = some instruction) (hop : instruction.op = .contiguous)
      (hinputs : instruction.inputs = [input]) (hrelays : Relays g source input) :
      Relays g source node

omit [Scalar α] in
theorem Relays.trans {source middle : NodeId} (hfirst : g.Relays source middle)
    (hsecond : g.Relays middle node) : g.Relays source node := by
  induction hsecond with
  | refl => exact hfirst
  | force hfound hop hinputs _ ih => exact .force hfound hop hinputs ih

end Graph

end TensorGraph
