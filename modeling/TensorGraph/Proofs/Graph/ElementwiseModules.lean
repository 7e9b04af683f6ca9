import TensorGraph.Proofs.Graph.Evaluation
import TensorGraph.Proofs.Operator.Pliancy

/-!
# Elementwise modules

A module of elementwise operators accepts every layout of lengths that are not zero, so it gives alike
results on alike arguments.
-/

namespace TensorGraph

open Inference List Tensor

variable {α : Type} [Scalar α]

namespace Operator

variable {op : Operator α} {lens : List Nat} {t : Tensor α}

/-- What an elementwise module may consist of. -/
def isElementwise : Operator α → Bool
  | .parameter .. | .identity | .unary _ | .binary _ | .returns => true
  | _ => false

/-- Elementwise operators keep the lengths. -/
theorem elementwise_lens {inputs : List (Tensor α)} {out : Shape} (hop : op.isElementwise = true)
    (hinfer : op.infer (Tensor.shapes inputs) [] = .ok out)
    (hrun : op.evaluate out inputs [] = .ok t)
    (hinputs : ∀ a ∈ inputs, ∃ elem axes, a.shape = .strided elem axes ∧ axes.lens = lens) :
    ∃ elem axes, out = .strided elem axes ∧ axes.lens = lens := by
  cases op with
  | identity =>
    obtain ⟨a, rfl, rfl⟩ := exists_of_shapes_eq_one (oneInput_iff.1 hinfer)
    exact hinputs a mem_cons_self
  | unary fn =>
    obtain ⟨a, elem, axes, rfl, hshape, dense, rfl, hlens, -⟩ := unaryShape_static hinfer
    obtain ⟨_, _, hshape', rfl⟩ := hinputs a mem_cons_self
    cases hshape.symm.trans hshape'
    exact ⟨elem, dense, rfl, hlens⟩
  | binary fn =>
    obtain ⟨a, b, elem, xs, ys, rfl, hshape, -, -, dense, rfl, hlens, -⟩ :=
      binaryShape_static hinfer
    obtain ⟨_, _, hshape', rfl⟩ := hinputs a mem_cons_self
    cases hshape.symm.trans hshape'
    exact ⟨elem, dense, rfl, hlens⟩
  | parameter name shape => cases hrun
  | returns => cases hrun
  | _ => cases hop

/-- On twins of these lengths, elementwise operators give twins of these lengths. -/
theorem elementwise_twinAt {args args' : List (Tensor α)} (hop : op.isElementwise = true)
    (htwins : Forall₂ (Tensor.TwinAt lens) args args') (hrun : op.apply args [] = .ok t) :
    Delivers (0 ∉ lens) (t.TwinAt lens) (op.apply args' []) := by
  have hproper : op.Proper := by cases op <;> trivial
  have hroomy : op.Roomy t.lens := by cases op <;> trivial
  have hpliant : op.isPliant = true := by
    cases op with
    | reshape | unsqueeze => cases hop
    | _ => rfl
  have hpair : Forall₂ Tensor.Twin args args' := htwins.imp fun _ _ h => h.toTwin
  obtain ⟨-, hinfer⟩ := apply_sound hproper.tame (valid_of_twins hpair) hrun
  obtain ⟨out, hout, hevaluate⟩ := apply_eq_ok_iff.1 hrun
  cases hinfer.symm.trans hout
  have hstrided := elementwise_lens hop hinfer hevaluate fun a hmem =>
    (exists_mem_right_of_forall₂ htwins hmem).elim fun _ hb => hb.2.strided
  constructor
  · intro u hrun'
    obtain ⟨out', hinfer', -⟩ := apply_eq_ok_iff.1 hrun'
    exact ⟨((apply_alike hproper.tame hpair hinfer' hrun).post hrun').1, hstrided⟩
  · intro hpos
    obtain ⟨elem, axes, hshape, rfl⟩ := hstrided
    exact (apply_peers_of_filled (hpair.imp fun _ _ => .of_twin) hpliant hproper.tame hrun
      ((filled_iff_of_shape hshape).2 hpos)).runs hroomy

end Operator

namespace Callable

variable {c : Callable α} {args : List (Tensor α)}

omit [Scalar α]

theorem call_of_arity (harity : c.signature.arity = args.length) :
    c.call args = c.firstOutput (c.signature.parameterNames.zip args) :=
  if_neg (not_not.2 harity)

theorem call_eq_ok {t : Tensor α} (hcall : c.call args = .ok t) :
    c.signature.arity = args.length ∧
      c.firstOutput (c.signature.parameterNames.zip args) = .ok t := by
  obtain ⟨harity, hcall⟩ := ite_error_eq_ok_iff.1 hcall
  exact ⟨not_not.1 harity, hcall⟩

end Callable

namespace Bindings

omit [Scalar α]

variable {related : Tensor α → Tensor α → Prop}

/-- Values for the same names in the same order, related one by one. -/
def Related (related : Tensor α → Tensor α → Prop) : Bindings α → Bindings α → Prop :=
  Forall₂ fun entry entry' => entry.1 = entry'.1 ∧ related entry.2 entry'.2

theorem related_zip {names : List String} {args args' : List (Tensor α)}
    (hargs : Forall₂ related args args') : Related related (names.zip args) (names.zip args') := by
  induction hargs generalizing names with
  | nil => simp [Related]
  | cons hfirst _ ih =>
    cases names with
    | nil => exact .nil
    | cons name names => exact .cons ⟨rfl, hfirst⟩ ih

variable {bindings bindings' : Bindings α}

theorem Related.filter (hrelated : Related related bindings bindings') (name : String) :
    Related related (bindings.filter (·.1 == name)) (bindings'.filter (·.1 == name)) := by
  induction hrelated with
  | nil => exact .nil
  | @cons entry entry' _ _ hfirst _ ih =>
    rw [filter_cons, filter_cons, ← hfirst.1]
    split
    · exact .cons hfirst ih
    · exact ih

theorem Related.find? (hrelated : Related related bindings bindings') {name : String} {t : Tensor α}
    (hfound : bindings.find? name = some t) :
    ∃ t', bindings'.find? name = some t' ∧ related t t' := by
  have hfiltered := hrelated.filter name
  unfold Bindings.find? at hfound ⊢
  generalize bindings.filter (·.1 == name) = chosen at hfiltered hfound
  generalize bindings'.filter (·.1 == name) = chosen' at hfiltered ⊢
  obtain ⟨entry, hlast, rfl⟩ := Option.map_eq_some_iff.1 hfound
  have hreversed := forall₂_reverse_iff.2 hfiltered
  rw [getLast?_eq_head?_reverse] at hlast ⊢
  generalize chosen.reverse = backward at hreversed hlast
  generalize chosen'.reverse = backward' at hreversed ⊢
  cases hreversed with
  | nil => cases hlast
  | cons hfirst _ =>
    cases hlast
    exact ⟨_, rfl, hfirst.2⟩

end Bindings

namespace Graph

variable {m : Graph α}

/-- Every node is a parameter, an elementwise operator or the end of the graph. -/
def Elementwise (m : Graph α) : Prop :=
  ∀ ⦃node instruction⦄, m.find? node = some instruction →
    instruction.op.isElementwise = true ∧ instruction.modules = []

instance (m : Graph α) : Decidable m.Elementwise :=
  inferInstanceAs (Decidable (∀ node stored, m.find? node = some stored →
    stored.op.isElementwise = true ∧ stored.modules = []))

variable {m' : Graph α} {image : NodeId → NodeId} {rename : String → String} {lens : List Nat}
  {bindings bindings' : Bindings α}

/-- A run of a renamed module on related bindings follows a run that gives values. -/
theorem Elementwise.run (hm : m.Elementwise) (hrenames : Renames m m' image rename)
    {values : List (Tensor α)} (hbindings : ∀ {name t}, bindings.find? name = some t →
      ∃ t', bindings'.find? (rename name) = some t' ∧ t.TwinAt lens t')
    (hrun : m.run bindings = .ok values) :
    Delivers (0 ∉ lens) (fun values' => Forall₂ (Tensor.TwinAt lens) values values')
      (m'.run bindings') := by
  rw [run_eq_valuesWith] at hrun ⊢
  refine valuesWith_lockstep hrenames hbindings (fun hfound hargs hrun => ?_) hrun
  obtain ⟨hop, hmodules⟩ := hm hfound
  rw [hmodules] at hrun ⊢
  exact Operator.elementwise_twinAt hop hargs hrun

/-- The first value that a renamed module returns. -/
theorem Elementwise.firstOutput (hm : m.Elementwise) (hrenames : Renames m m' image rename)
    {t : Tensor α} (hbindings : ∀ {name t}, bindings.find? name = some t →
      ∃ t', bindings'.find? (rename name) = some t' ∧ t.TwinAt lens t')
    (hrun : m.callable.firstOutput bindings = .ok t) :
    Delivers (0 ∉ lens) (t.TwinAt lens) (m'.callable.firstOutput bindings') := by
  obtain ⟨values, hvalues, hfirst⟩ := bind_eq_ok_iff.1 hrun
  refine (hm.run hrenames hbindings hvalues).bind fun values' htwins => ?_
  cases htwins with
  | nil => cases hfirst
  | cons htwin _ =>
    cases hfirst
    exact .ok htwin

/-- An elementwise module gives alike results on alike arguments. -/
theorem Elementwise.steady (hm : m.Elementwise) : m.callable.Steady := by
  intro lens args args' t htwins hcall
  obtain ⟨harity, hcall⟩ := Callable.call_eq_ok hcall
  rw [Callable.call_of_arity (harity.trans htwins.length_eq)]
  exact hm.firstOutput (renames_of_nodes rfl) (Bindings.related_zip htwins).find? hcall

end Graph

end TensorGraph
