import TensorGraph.Proofs.Graph.Plain
import TensorGraph.Scalar.Binary32

/-!
# Inference is sound for evaluation

Evaluation infers every shape a second time, from the values it meets. `Conforms` is kept by every step of
the evaluator: the step does not refuse a shape, and what it gives has a stated property.
-/

namespace TensorGraph

open Inference List Tensor

section Conforms

variable {β γ σ : Type}

/-- A computation that does not refuse a shape and gives nothing but values with a property. -/
structure Conforms (property : β → Prop) (computed : Outcome EvalError β) : Prop where
  accepts : ∀ cause, computed ≠ .error (.refusal (.shape cause))
  post : ∀ {value}, computed = .ok value → property value

namespace Conforms

variable {property : β → Prop} {after : γ → Prop}

theorem ok {value : β} (hvalue : property value) : Conforms property (.ok value) where
  accepts := fun _ heq => nomatch heq
  post := fun heq => Except.ok.inj heq ▸ hvalue

theorem fault (cause : Fault) : Conforms property (.error (.fault cause)) where
  accepts := fun _ heq => nomatch heq
  post := fun heq => nomatch heq

theorem refuse {cause : EvalError} (hother : ∀ shapeCause, cause ≠ .shape shapeCause) :
    Conforms property (.error (.refusal cause)) where
  accepts := by
    intro shapeCause heq
    cases heq
    exact hother shapeCause rfl
  post := fun heq => nomatch heq

theorem mono {property' : β → Prop} {computed : Outcome EvalError β}
    (hconforms : Conforms property computed) (hproperty : ∀ value, property value → property' value) :
    Conforms property' computed :=
  ⟨hconforms.accepts, fun heq => hproperty _ (hconforms.post heq)⟩

/-- Checked computations have no way to refuse. -/
theorem lift {computed : Checked β} (hpost : ∀ value, computed = .ok value → property value) :
    Conforms property (liftM computed : Outcome EvalError β) := by
  cases computed with
  | ok value => exact .ok (hpost value rfl)
  | error cause => exact .fault cause

theorem bind {first : Outcome EvalError β} {next : β → Outcome EvalError γ}
    (hfirst : Conforms property first)
    (hnext : ∀ value, property value → Conforms after (next value)) :
    Conforms after (first >>= next) := by
  cases first with
  | ok value => exact hnext value (hfirst.post rfl)
  | error stop =>
    constructor
    · intro cause heq
      cases heq
      exact hfirst.accepts cause rfl
    · intro value heq
      cases heq

/-- Going through a list with a state that stays good. -/
theorem mapM {step : β → StateT σ (Outcome EvalError) γ} {good : σ → Prop}
    {related : β → γ → Prop} {items : List β}
    (hstep : ∀ item ∈ items, ∀ state, good state →
      Conforms (fun result => related item result.1 ∧ good result.2) (step item state))
    {state : σ} (hgood : good state) :
    Conforms (fun result => Forall₂ related items result.1 ∧ good result.2)
      (items.mapM step state) := by
  induction items generalizing state with
  | nil => exact .ok ⟨.nil, hgood⟩
  | cons item items ih =>
    rw [forall_mem_cons] at hstep
    rw [stateT_mapM_cons]
    apply (hstep.1 state hgood).bind
    intro first hfirst
    apply (ih hstep.2 hfirst.2).bind
    intro rest hrest
    exact .ok ⟨.cons hfirst.1 hrest.1, hrest.2⟩

end Conforms

end Conforms

variable {α : Type} [Scalar α] {t : Tensor α}

namespace Tensor

omit [Scalar α] in
/-- A buffer under a shape has this shape. -/
theorem shape_of_ofBuffer {shape : Shape} {data : Array α}
    (hrun : ofBuffer shape data = .ok t) : t.shape = shape := by
  obtain ⟨elem, axes, n, rfl, -, -, rfl⟩ := ofBuffer_eq_ok_iff.1 hrun
  rfl

theorem shape_of_tabulate {shape : Shape} {value : List Nat → Checked α}
    (hrun : tabulate shape value = .ok t) : t.shape = shape := by
  obtain ⟨_, _, _, -, -, -, hshape, -⟩ := tabulate_eq_ok hrun
  exact hshape

omit [Scalar α] in
/-- Forcing the standard layout gives the standard shape, whether or not anything is moved. -/
theorem shape_of_contiguous {a : Tensor α} {out : Shape} (hout : a.shape.asStandard = .ok out)
    (hrun : a.contiguous = .ok t) : t.shape = out := by
  obtain ⟨standard, hstandard, hrun⟩ := bind_eq_ok_iff.1 hrun
  cases standard with
  | false =>
    obtain ⟨shape, hshape, hrun⟩ := bind_eq_ok_iff.1 hrun
    obtain ⟨values, -, hrun⟩ := bind_eq_ok_iff.1 hrun
    rw [shape_of_ofBuffer hrun]
    exact Except.ok.inj (hshape.symm.trans hout)
  | true =>
    cases hrun
    cases t with
    | tuple parts => cases hstandard
    | strided elem axes data =>
      obtain ⟨rfl, hlayout⟩ := Shape.standard_eq_ok hout
      have hself := Layout.isStandard_eq_ok_true_iff.1 hstandard
      exact congrArg (Shape.strided elem) (Except.ok.inj (hself.symm.trans hlayout))

end Tensor

namespace Operator

variable {inputs : List (Tensor α)} {out : Shape}

omit [Scalar α] in
/-- A value that is computed from the first input. -/
theorem conforms_first {compute : Tensor α → Checked (Tensor α)}
    (hshape : ∀ a t, compute a = .ok t → t.shape = out) :
    Conforms (fun t => t.shape = out)
      ((liftM (fetch inputs 0) : Outcome EvalError _) >>= fun a => liftM (compute a)) := by
  apply Conforms.bind (.lift fun _ _ => trivial)
  intro a _
  exact .lift (hshape a)

omit [Scalar α] in
/-- A value that is computed from the first two inputs. -/
theorem conforms_pair {compute : Tensor α → Tensor α → Checked (Tensor α)}
    (hshape : ∀ a b t, compute a b = .ok t → t.shape = out) :
    Conforms (fun t => t.shape = out)
      ((liftM (fetch inputs 0) : Outcome EvalError _) >>= fun a =>
        (liftM (fetch inputs 1) : Outcome EvalError _) >>= fun b => liftM (compute a b)) := by
  apply Conforms.bind (.lift fun _ _ => trivial)
  intro a _
  apply Conforms.bind (.lift fun _ _ => trivial)
  intro b _
  exact .lift (hshape a b)

theorem shape_of_reduceSum {axes : List Nat} {a : Tensor α}
    (hrun : Evaluation.reduceSumValue axes out a = .ok t) : t.shape = out := by
  obtain ⟨lens, -, hrun⟩ := bind_eq_ok_iff.1 hrun
  exact shape_of_tabulate hrun

theorem shape_of_dot {a b : Tensor α} (hrun : Evaluation.dotValue out a b = .ok t) :
    t.shape = out := by
  obtain ⟨count, -, hrun⟩ := bind_eq_ok_iff.1 hrun
  split at hrun
  · cases hrun
  · exact shape_of_tabulate hrun

/-- The ranges are resolved against the same shape twice. -/
theorem slice_conforms {axes : List Nat} {starts ends : List Int}
    (hinfer : (slice axes starts ends : Operator α).infer (Tensor.shapes inputs) [] = .ok out) :
    Conforms (fun t => t.shape = out) ((slice axes starts ends).evaluate out inputs []) := by
  obtain ⟨elem, layout, ranges, hs, hranges, -⟩ := sliceShape_iff.1 hinfer
  obtain ⟨a, rfl, ha⟩ := exists_of_shapes_eq_one hs
  rw [← ha] at hranges
  show Conforms _ (Evaluation.sliceValue _ axes starts ends out a)
  rw [Evaluation.sliceValue, Outcome.liftShape_eq_ok_iff.2 hranges, ok_bind]
  apply Conforms.bind (.lift fun _ _ => trivial)
  intro start _
  exact .lift fun t hrun => shape_of_ofBuffer hrun

/-- The axis is resolved against the same rank twice. -/
theorem gather_conforms {axis : Int}
    (hinfer : (gather axis : Operator α).infer (Tensor.shapes inputs) [] = .ok out) :
    Conforms (fun t => t.shape = out) ((gather axis).evaluate out inputs []) := by
  obtain ⟨elem, data, elem', picks, place, hs, hplace, -⟩ := gatherShape_iff.1 hinfer
  obtain ⟨a, b, rfl, ha, -⟩ := exists_of_shapes_eq_two hs
  have hrank : a.shape.rank = data.length := by rw [ha, Shape.rank_strided]
  rw [← hrank] at hplace
  show Conforms _ (Evaluation.gatherValue _ axis out a b)
  rw [Evaluation.gatherValue, Outcome.liftShape_eq_ok_iff.2 hplace, ok_bind]
  apply Conforms.bind (.lift fun _ _ => trivial)
  intro len _
  apply Conforms.bind (.lift fun t hrun => shape_of_tabulate hrun)
  intro t hshape
  apply Conforms.bind (.lift fun _ _ => trivial)
  intro last? _
  cases last? with
  | none => exact .ok hshape
  | some position => exact .refuse fun _ heq => nomatch heq

theorem concat_conforms {axis : Int}
    (hinfer : (concat axis : Operator α).infer (Tensor.shapes inputs) [] = .ok out) :
    Conforms (fun t => t.shape = out) ((concat axis).evaluate out inputs []) := by
  obtain ⟨_, _, _, _, -, -, -, -, -, hevaluate⟩ := concat_evaluates hinfer
  rw [hevaluate]
  exact .lift fun t hrun => shape_of_tabulate hrun

theorem tupleElem_conforms {index : Nat}
    (hinfer : (tupleElem index : Operator α).infer (Tensor.shapes inputs) [] = .ok out) :
    Conforms (fun t => t.shape = out) ((tupleElem index).evaluate out inputs []) := by
  obtain ⟨parts, part, rfl, hpart, hshape⟩ := exists_component hinfer
  rw [tupleElem_eq_ok_iff.2 hpart]
  exact .ok hshape

/-- What an operator gives in the inferred shape has this shape, and what inference has resolved is
not refused now. -/
theorem evaluate_conforms {op : Operator α}
    (hinfer : op.infer (Tensor.shapes inputs) [] = .ok out) :
    Conforms (fun t => t.shape = out) (op.evaluate out inputs []) := by
  cases op with
  | parameter name shape | returns => exact .refuse fun _ heq => nomatch heq
  | literal value =>
    obtain ⟨_, -, hpure⟩ := bind_eq_ok_iff.1 hinfer
    cases hpure
    exact .ok rfl
  | identity =>
    obtain ⟨a, rfl, rfl⟩ := exists_of_shapes_eq_one (oneInput_iff.1 hinfer)
    exact .ok rfl
  | contiguous =>
    obtain ⟨s, hs, -, hstandard⟩ := contiguousShape_iff.1 hinfer
    obtain ⟨a, rfl, rfl⟩ := exists_of_shapes_eq_one hs
    exact .lift fun t hrun => shape_of_contiguous hstandard hrun
  | unary fn => exact conforms_first fun a t hrun => shape_of_tabulate hrun
  | binary fn => exact conforms_pair fun a b t hrun => shape_of_tabulate hrun
  | reduceSum axes => exact conforms_first fun a t hrun => shape_of_reduceSum hrun
  | dot => exact conforms_pair fun a b t hrun => shape_of_dot hrun
  | reshape dims =>
    apply Conforms.bind (.lift fun _ _ => trivial)
    intro a _
    apply Conforms.bind (.lift fun _ _ => trivial)
    intro dense _
    exact .lift fun t hrun => shape_of_ofBuffer hrun
  | transpose order | squeeze axes | unsqueeze axes | broadcast lens =>
    exact conforms_first fun a t hrun => shape_of_ofBuffer hrun
  | slice axes starts ends => exact slice_conforms hinfer
  | gather axis => exact gather_conforms hinfer
  | concat axis => exact concat_conforms hinfer
  | tupleElem index => exact tupleElem_conforms hinfer
  -- The remaining operators ask for modules.
  | pointwise => cases hinfer
  | fusedConcat axis =>
    have hfused : fusedConcatShape _ axis (Tensor.shapes inputs) [] = .ok out := hinfer
    obtain ⟨_, _, _, _, _, _, -, -, -, hlast, -⟩ := fusedConcatShape_eq_ok hfused
    cases hlast
  | scan iterations scanInputs stateVars =>
    obtain ⟨_, hbody, -⟩ := scanShape_eq_ok hinfer
    cases hbody

/-- An operator that accepted these shapes accepts the values, and gives the shape it inferred. -/
theorem apply_conforms {op : Operator α} (hinfer : op.infer (Tensor.shapes inputs) [] = .ok out) :
    Conforms (fun t => t.shape = out) (op.apply inputs []) := by
  show Conforms _ ((liftM (op.infer (Tensor.shapes inputs) []) : Outcome EvalError Shape) >>=
    fun out => op.evaluate out inputs [])
  rw [Outcome.liftShape_eq_ok_iff.2 hinfer, ok_bind]
  exact evaluate_conforms hinfer

end Operator

namespace Graph

/-- No instruction holds a module. -/
def Bare (g : Graph α) : Prop :=
  ∀ ⦃node instruction⦄, g.find? node = some instruction → instruction.modules = []

instance (g : Graph α) : Decidable g.Bare :=
  inferInstanceAs (Decidable (∀ node stored, g.find? node = some stored → stored.modules = []))

/-- Whatever a parameter is bound to has the shape that is declared for it. -/
def BoundAsDeclared (g : Graph α) (bindings : Bindings α) : Prop :=
  ∀ ⦃node instruction name shape t⦄, g.find? node = some instruction →
    instruction.op = .parameter name shape → bindings.find? name = some t → t.shape = shape

instance (g : Graph α) (bindings : Bindings α) : Decidable (g.BoundAsDeclared bindings) :=
  decidable_of_iff (∀ node stored, g.find? node = some stored → ∀ name shape,
      stored.op = .parameter name shape → ∀ t ∈ bindings.find? name, t.shape = shape)
    ⟨fun h _ _ _ _ _ hfound hop hbound => h _ _ hfound _ _ hop _ hbound,
      fun h _ _ hfound _ _ hop _ hbound => h hfound hop hbound⟩

/-- A tensor has the shape that is cached for a node. -/
def FitsAt (g : Graph α) (node : NodeId) (t : Tensor α) : Prop := g.shape node = .ok t.shape

/-- The values computed so far have the cached shapes. -/
def MemoFits (g : Graph α) (memo : Memo α) : Prop := ∀ entry ∈ memo, g.FitsAt entry.1 entry.2

variable {run : Runner α} {g : Graph α} {bindings : Bindings α} {bound : Nat} {node : NodeId}
  {memo : Memo α}

omit [Scalar α] in
theorem MemoFits.cons (hmemo : g.MemoFits memo) (ht : g.FitsAt node t) :
    g.MemoFits ((node, t) :: memo) :=
  forall_mem_cons.2 ⟨ht, hmemo⟩

omit [Scalar α] in
theorem shapes_of_fits {nodes : List NodeId} {values : List (Tensor α)}
    (hfits : Forall₂ g.FitsAt nodes values) :
    g.shapes nodes = .ok (Tensor.shapes values) := by
  obtain ⟨hlength, hzip⟩ := forall₂_iff_zip.1 hfits
  exact shapes_of_zip hlength hzip

/-- One step: values of the cached shapes are taken to a value of the cached shape. -/
theorem apply_fits (hcoherent : g.Coherent) (hbare : g.Bare)
    {instruction : Stored α} (hfound : g.find? node = some instruction)
    {args : List (Tensor α)} (hargs : Forall₂ g.FitsAt instruction.inputs args) :
    Conforms (g.FitsAt node)
      (instruction.op.apply args (instruction.modules.map (callableBy run))) := by
  obtain ⟨shapes, hshapes, hinfer⟩ := hcoherent.settled node instruction hfound
  cases hshapes.symm.trans (shapes_of_fits hargs)
  rw [hbare hfound] at hinfer ⊢
  apply (Operator.apply_conforms hinfer).mono
  intro t ht
  exact shape_eq_ok_iff.2 ⟨instruction, hfound, ht.symm⟩

/-- Whole evaluations: along every chain of inputs the values keep the cached shapes. -/
theorem valueWithin_fits (hcoherent : g.Coherent) (hbare : g.Bare)
    (hbound : g.BoundAsDeclared bindings) (hmemo : g.MemoFits memo) :
    Conforms (fun result => g.FitsAt node result.1 ∧ g.MemoFits result.2)
      (valueWithin run g bindings bound node memo) := by
  induction bound generalizing node memo with
  | zero => exact .fault .endless
  | succ bound ih =>
    cases hlookup : memo.lookup node with
    | some t =>
      rw [valueWithin_of_lookup hlookup]
      exact .ok ⟨hmemo _ (mem_of_lookup hlookup), hmemo⟩
    | none =>
      cases hfound : g.find? node with
      | none =>
        rw [valueWithin_missing hlookup hfound]
        exact .fault .missingNode
      | some instruction =>
        rcases isParameter_cases instruction.op with ⟨name, shape, hop⟩ | hop
        · rw [valueWithin_parameter hlookup hfound hop]
          cases ht : bindings.find? name with
          | none => exact .refuse fun _ heq => nomatch heq
          | some t =>
            have hshape : g.FitsAt node t := by
              rw [FitsAt, hbound hfound hop ht]
              exact hcoherent.shape_parameter hfound hop
            exact .ok ⟨hshape, hmemo.cons hshape⟩
        · rw [valueWithin_apply hlookup hfound hop]
          apply (Conforms.mapM (fun input _ memo hmemo => ih hmemo) hmemo).bind
          intro args hargs
          apply (apply_fits hcoherent hbare hfound hargs.1).bind
          intro t ht
          exact .ok ⟨ht, hargs.2.cons ht⟩

/-- The values of several nodes have the cached shapes. -/
theorem valuesWith_fits (hcoherent : g.Coherent) (hbare : g.Bare)
    (hbound : g.BoundAsDeclared bindings) (nodes : List NodeId) :
    Conforms (Forall₂ g.FitsAt nodes) (g.valuesWith run bindings nodes) := by
  rw [valuesWith_eq_bind]
  have hstart : g.MemoFits [] := by simp [MemoFits]
  apply (Conforms.mapM (fun node _ memo hmemo => valueWithin_fits hcoherent hbare hbound hmemo)
    hstart).bind
  intro values hvalues
  exact .ok hvalues.1

end Graph

/-- In a coherent graph without modules, with parameters bound to values of the declared shapes,
evaluating a node refuses no shape and gives a value of the cached shape; running the graph refuses
no shape and gives values of the output shapes. -/
theorem evaluation_keeps_shapes {g : Graph α} {bindings : Bindings α} (hcoherent : g.Coherent)
    (hbare : g.Bare) (hbound : g.BoundAsDeclared bindings) :
    (∀ node, (∀ cause, g.value bindings node ≠ .error (.refusal (.shape cause))) ∧
      ∀ t, g.value bindings node = .ok t → g.shape node = .ok t.shape) ∧
    (∀ cause, g.run bindings ≠ .error (.refusal (.shape cause))) ∧
      ∀ outs, g.run bindings = .ok outs → outs.map Tensor.shape = g.outputShapes := by
  constructor
  · intro node
    have hstart : g.MemoFits [] := by simp [Graph.MemoFits]
    have hvalue : Conforms (g.FitsAt node) (g.value bindings node) := by
      apply (Graph.valueWithin_fits hcoherent hbare hbound hstart).bind
      intro result hresult
      exact .ok hresult.1
    exact ⟨hvalue.accepts, fun t => hvalue.post⟩
  · rw [Graph.run_eq_valuesWith]
    have hrun : Conforms _ (g.valuesWith g.moduleRunner bindings g.results) :=
      Graph.valuesWith_fits hcoherent hbare hbound g.results
    refine ⟨hrun.accepts, fun outs houts => ?_⟩
    have hshapes := hcoherent.shapes_results.symm.trans (Graph.shapes_of_fits (hrun.post houts))
    rw [← shapes_eq_map]
    exact (Except.ok.inj hshapes).symm

/-- The shape of a pair of a matrix and a row. -/
def pairShape : Shape :=
  .ofParts [.strided .float32 [⟨2, 3⟩, ⟨3, 1⟩], .strided .float32 [⟨3, 1⟩]]

/-- The matrix of a pair, turned, laid out anew and cut. -/
def turnedMatrix : Graph Float32 :=
  ⟨"",
    [(0, ⟨.parameter "p" pairShape, pairShape, [], []⟩),
     (1, ⟨.tupleElem 0, .strided .float32 [⟨2, 3⟩, ⟨3, 1⟩], [0], []⟩),
     (2, ⟨.transpose [1, 0], .strided .float32 [⟨3, 1⟩, ⟨2, 3⟩], [1], []⟩),
     (3, ⟨.concat (-1), .strided .float32 [⟨3, 1⟩, ⟨4, 3⟩], [2, 2], []⟩),
     (4, ⟨.slice [0] [1] [3], .strided .float32 [⟨2, 1⟩, ⟨4, 3⟩], [3], []⟩)],
    [], 5⟩

/-- A value for the pair. -/
def onePair : Bindings Float32 :=
  [("p", .tuple [.strided .float32 [⟨2, 3⟩, ⟨3, 1⟩] #[1, 2, 3, 4, 5, 6],
    .strided .float32 [⟨3, 1⟩] #[7, 8, 9]])]

theorem keepsShapes_turnedMatrix :
    ∃ t, turnedMatrix.value onePair 4 = .ok t ∧ t.shape = .strided .float32 [⟨2, 1⟩, ⟨4, 3⟩] := by
  obtain ⟨t, ht⟩ := isOk_eq_true_iff.1
    (by decide +kernel : (turnedMatrix.value onePair 4).isOk = true)
  have hshape := ((evaluation_keeps_shapes (by decide) (by decide) (by decide)).1 4).2 t ht
  exact ⟨t, ht, (Except.ok.inj hshape).symm⟩

end TensorGraph
