import TensorGraph.Proofs.Pass.Fusion
import TensorGraph.Proofs.Pass.Preservation

/-!
# Fusing joins preserves values

Where there is room for every value in every layout, the fused graph gives values whenever the original
one does.
-/

namespace TensorGraph

open Graph Revision List

variable {α : Type}

namespace Pass

variable {g : Graph α}

/-! ## Fusing again -/

theorem fused_self (hcoherent : g.Coherent) (hordered : g.Ordered) : Fused g g where
  toCoherent := hcoherent
  ordered := hordered
  instructions := fun _ _ hfound => .kept hfound rfl rfl rfl
  results := rfl

theorem Merged.congr {node : NodeId} {stored stored' : Stored α}
    (hmerged : Merged g node stored) (hop : stored'.op = stored.op)
    (hinputs : stored'.inputs = stored.inputs) (hmodules : stored'.modules = stored.modules) :
    Merged g node stored' := by
  cases hmerged with
  | kept hfound hop' hinputs' hmodules' =>
    exact .kept hfound (hop.trans hop') (hinputs.trans hinputs') (hmodules.trans hmodules')
  | fused hfound hold hpost hposition hname hmark hjoined hjoin hfed hop' hinputs' hmodules' =>
    exact .fused hfound hold hpost hposition hname hmark hjoined hjoin hfed (hop.trans hop')
      (hinputs.trans hinputs') (hmodules.trans hmodules')

theorem fused_exchanges (g : Graph α) : Exchanges (Merged g) (· = g.results) Eq where
  refl := fun _ => rfl
  instruction := fun _ _ _ hmerged hop hmodules hinputs =>
    hmerged.congr hop (forall₂_eq_eq_eq ▸ hinputs) hmodules
  results := fun _ _ hresults hnodes => (forall₂_eq_eq_eq ▸ hnodes : _ = _).trans hresults

section Trans

variable {g h : Graph α} (hfused : Fused g h) {node : NodeId}

include hfused

variable {stored : Stored α}

/-- What is no fused join has been kept. -/
theorem Fused.exists_kept (hfound : h.find? node = some stored)
    (hop : ∀ axis, stored.op ≠ .fusedConcat axis) :
    ∃ old, g.find? node = some old ∧ old.op = stored.op ∧ old.inputs = stored.inputs ∧
      old.modules = stored.modules := by
  cases hfused.instructions hfound with
  | kept hold hop hinputs hmodules => exact ⟨_, hold, hop.symm, hinputs.symm, hmodules.symm⟩
  | fused _ _ _ _ _ _ _ _ _ hop' => exact absurd hop' (hop _)

theorem Fused.fedBy {part : NodeId} {fed : Graph α × List NodeId} (hfed : FedBy h part fed) :
    FedBy g part fed := by
  cases hfed with
  | pointwise name hfound hop hmodules =>
    obtain ⟨old, hold, hop', hinputs, hmodules'⟩ :=
      hfused.exists_kept hfound (by rw [hop]; intro axis heq; cases heq)
    rw [← hinputs]
    exact .pointwise name hold (hop'.trans hop) (hmodules'.trans hmodules)
  | passing hmodule => exact .passing hmodule

/-- What is fused is made of nodes that have been kept. -/
theorem Fused.merged_trans (hmerged : Merged h node stored) :
    Merged g node stored := by
  cases hmerged with
  | kept hfound hop hinputs hmodules =>
    exact (hfused.instructions hfound).congr hop hinputs hmodules
  | fused hfound hold hpost hposition hname hmark hjoined hjoin hfed hop hinputs hmodules =>
    obtain ⟨old, hfound', hold', hinputs', hmodules'⟩ :=
      hfused.exists_kept hfound (by rw [hold]; intro axis heq; cases heq)
    obtain ⟨joined, hjoined', hjoin', hparts, -⟩ :=
      hfused.exists_kept hjoined (by rw [hjoin]; intro axis heq; cases heq)
    rw [← hinputs'] at hposition hinputs
    rw [← hparts] at hfed
    exact .fused hfound' (hold'.trans hold) (hmodules'.trans hpost) hposition hname hmark hjoined'
      (hjoin'.trans hjoin) (hfed.imp fun _ _ hfed => hfused.fedBy hfed) hop hinputs hmodules

theorem Fused.trans {k : Graph α} (hfused' : Fused h k) : Fused g k :=
  hfused'.mono (fun _ _ hmerged => Fused.merged_trans hfused hmerged) fun _ heq => heq.trans hfused.results

end Trans

/-! ## Plans -/

variable {op : Operator α} {part : NodeId} {fed : Graph α × List NodeId} {w final : Workspace α}
  {fused : Nat}

theorem eq_pointwise_of_isPointwise (hop : op.isPointwise = true) :
    op = .pointwise := by
  cases op with
  | pointwise => rfl
  | _ => cases hop

theorem eq_concat_of_concatAxis? {axis : Int} (hop : op.concatAxis? = some axis) :
    op = .concat axis := by
  cases op with
  | concat axis' => rw [Option.some.inj hop]
  | _ => cases hop

theorem feedingModule_eq_ok {node : NodeId} {position : Nat}
    (hrun : feedingModule g node position part = .ok fed) : FedBy g part fed := by
  obtain ⟨stored, hstored, hrun⟩ := bind_eq_ok_iff.1 hrun
  rw [Outcome.lift_eq_ok_iff, instruction_eq_ok_iff] at hstored
  split at hrun
  · rename_i module hop hmodules
    cases hrun
    exact .pointwise _ hstored (eq_pointwise_of_isPointwise hop) hmodules
  · obtain ⟨module, hmodule, hpure⟩ := bind_eq_ok_iff.1 hrun
    cases hpure
    exact .passing hmodule

/-- What reads the inputs of a part's module comes after them. -/
theorem FedBy.idxOf_le (hordered : g.Ordered) (hfed : FedBy g part fed) :
    ∀ input ∈ fed.2, g.order.idxOf input ≤ g.order.idxOf part := by
  intro input hinput
  cases hfed with
  | pointwise name hfound hop hmodules => exact Nat.le_of_lt (hordered hfound input hinput)
  | passing hmodule => rw [mem_singleton.1 hinput]

section Plans

variable {g : Graph α} {node : NodeId} {position : Nat} {fusion : Fusion α}
  (hplan : planFusedJoin g node position = .ok (some fusion))

include hplan

/-- What a plan is made of. -/
theorem planFusedJoin_eq_ok :
    ∃ own joined post marked name fed, g.find? node = some own ∧ own.modules = [post] ∧
      own.inputs[position]? = some fusion.join ∧ post.parameterNames[position]? = some name ∧
      markParameter post name = .ok (some marked) ∧ g.find? fusion.join = some joined ∧
      joined.op = .concat fusion.axis ∧ Forall₂ (FedBy g) joined.inputs fed ∧
      fusion.inputs = fed.flatMap (·.2) ++ own.inputs.eraseIdx position ∧
      fusion.modules = fed.map (·.1) ++ [marked] := by
  obtain ⟨own, hown, hplan⟩ := bind_eq_ok_iff.1 hplan
  obtain ⟨join, hjoin, hplan⟩ := bind_eq_ok_iff.1 hplan
  obtain ⟨op, hop, hplan⟩ := bind_eq_ok_iff.1 hplan
  rw [Outcome.lift_eq_ok_iff] at hown hjoin hop
  obtain ⟨joined, hjoined, rfl⟩ := op_eq_ok_iff.1 hop
  split at hplan
  · rename_i axis post haxis hmodules
    by_cases hcount : post.parameterNames.length ≠ own.inputs.length
    · rw [if_pos hcount] at hplan
      cases hplan
    rw [if_neg hcount] at hplan
    obtain ⟨fed, hfed, hplan⟩ := bind_eq_ok_iff.1 hplan
    obtain ⟨name, hname, hplan⟩ := bind_eq_ok_iff.1 hplan
    rw [Outcome.lift_eq_ok_iff, Layout.fetch_eq_ok_iff] at hname
    obtain ⟨marked?, hmark, hplan⟩ := bind_eq_ok_iff.1 hplan
    cases marked? with
    | none => cases hplan
    | some marked =>
      cases hplan
      refine ⟨own, joined, post, marked, name, fed, instruction_eq_ok_iff.1 hown, hmodules,
        Layout.fetch_eq_ok_iff.1 hjoin, hname, hmark, hjoined, eq_concat_of_concatAxis? haxis, ?_,
        rfl, rfl⟩
      have hparts : (g.inputs join).zipIdx.map Prod.fst = joined.inputs := by
        rw [zipIdx_map_fst, inputs_of_find? hjoined]
      rw [← hparts, forall₂_map_left_iff]
      exact (mapM_eq_ok_iff.1 hfed).imp fun _ _ hfeeding => feedingModule_eq_ok hfeeding
  · cases hplan

/-- What a fused node reads comes before it. -/
theorem planFusedJoin_ordered (hordered : g.Ordered) :
    ∀ input ∈ fusion.inputs, g.order.idxOf input < g.order.idxOf node := by
  obtain ⟨own, joined, _, _, _, fed, hown, -, hposition, -, -, hjoined, -, hfed, hinputs, -⟩ :=
    planFusedJoin_eq_ok hplan
  have hjoin := hordered hown fusion.join (mem_of_getElem? hposition)
  intro input hinput
  rw [hinputs, mem_append] at hinput
  rcases hinput with hinput | hinput
  · obtain ⟨entry, hentry, hinput⟩ := mem_flatMap.1 hinput
    obtain ⟨part, hpart, hfed⟩ := exists_mem_right_of_forall₂ hfed.flip hentry
    calc g.order.idxOf input ≤ g.order.idxOf part := FedBy.idxOf_le hordered hfed input hinput
      _ < g.order.idxOf fusion.join := hordered hjoined part hpart
      _ < g.order.idxOf node := hjoin
  · exact hordered hown input (mem_of_mem_eraseIdx hinput)

/-- Putting the fused join in the place of the node. -/
theorem kept_replaceFused (hcoherent : g.Coherent) (hordered : g.Ordered)
    {own : Stored α} (hown : g.find? node = some own) (hop : own.op = .pointwise) :
    Kept (Fused g)
      (Edit.replaceOperator node (.fusedConcat fusion.axis) fusion.inputs fusion.modules g) := by
  apply Kept.transaction (fused_self hcoherent hordered)
  intro _ h hrun
  replace hrun := Edit.transaction_eq_ok_iff.2 hrun
  refine (fused_self hcoherent hordered).replaceOperator (fused_exchanges g) hown (by rw [hop]; rfl) rfl
    (planFusedJoin_ordered hplan hordered) (fun stored hop' hinputs' hmodules' => ?_) hrun
  obtain ⟨_, joined, post, marked, name, fed, hown', hpost, hposition, hname, hmark, hjoined, hjoin,
    hfed, hinputs, hmodules⟩ := planFusedJoin_eq_ok hplan
  cases hown.symm.trans hown'
  exact .fused hown hop hpost hposition hname hmark hjoined hjoin hfed hop' (hinputs'.trans hinputs)
    (hmodules'.trans hmodules)

end Plans

/-! ## Steps -/

/-- An elementwise node becomes a fused join, and the join is taken out if nothing else reads it. -/
inductive Fuses (g : Graph α) (node : NodeId) : Graph α → Prop
  | idle : Fuses g node g
  | fuse {own : Instruction α (Graph α)} {position : Nat} {fusion : Fusion α} {h : Graph α}
      (hown : g.find? node = some own) (hop : own.op = .pointwise)
      (hplan : planFusedJoin g node position = .ok (some fusion))
      (hrun : Edit.replaceOperator node (.fusedConcat fusion.axis) fusion.inputs fusion.modules g =
        .ok () h) : Fuses g node (h.removeUnused fusion.join).1

theorem fuseJoin_fuses {node : NodeId} {position : Nat} {own : Stored α}
    (hown : w.graph.find? node = some own) (hop : own.op = .pointwise)
    {outcome : Except GraphError Bool} (hrun : fuseJoin node position w = .ok outcome final) :
    Fuses w.graph node final.graph := by
  rw [fuseJoin, graph_bind_eq_ok_iff] at hrun
  obtain ⟨planned, hplanned, hrun⟩ := lift_bind_eq_ok_iff.1 hrun
  rcases planned with cause | _ | fusion
  · cases hrun
    exact .idle
  · cases hrun
    exact .idle
  · obtain ⟨outcome, middle, hattempt, hrun⟩ := stateBind_eq_ok_iff.1 hrun
    rcases attempt_eq_ok hattempt with ⟨value, rfl, hedit⟩ | ⟨cause, rfl, hedit⟩
    · obtain ⟨_, _, hremoved, hrun⟩ := stateBind_eq_ok_iff.1 hrun
      cases hrun
      rw [removeUnused_eq_ok hremoved]
      exact .fuse hown hop (Outcome.attempt_eq_ok_iff.1 hplanned) hedit
    · cases hrun
      rw [Edit.transaction_eq_error hedit]
      exact .idle

theorem fuseAt_fuses {node : NodeId} {count : Nat} (hrun : fuseAt node w = .ok count final) :
    Fuses w.graph node final.graph := by
  rw [fuseAt, graph_bind_eq_ok_iff] at hrun
  by_cases hlive : (!w.graph.contains node) = true
  · rw [if_pos hlive] at hrun
    cases hrun
    exact .idle
  rw [if_neg hlive] at hrun
  obtain ⟨op, hop, hrun⟩ := lift_bind_eq_ok_iff.1 hrun
  obtain ⟨own, hown, rfl⟩ := op_eq_ok_iff.1 hop
  by_cases hpointwise : (!own.op.isPointwise) = true
  · rw [if_pos hpointwise] at hrun
    cases hrun
    exact .idle
  rw [if_neg hpointwise] at hrun
  obtain ⟨position?, -, hrun⟩ := lift_bind_eq_ok_iff.1 hrun
  cases position? with
  | none =>
    cases hrun
    exact .idle
  | some position =>
    obtain ⟨outcome, middle, hfused, hrun⟩ := stateBind_eq_ok_iff.1 hrun
    have hfuses := fuseJoin_fuses hown
      (eq_pointwise_of_isPointwise (by simpa using hpointwise)) hfused
    cases outcome with
    | ok done =>
      cases hrun
      exact hfuses
    | error cause =>
      obtain ⟨_, _, hlogged, hrun⟩ := (Question.log _ _).bind_eq_ok hrun
      cases hrun
      rwa [hlogged]

/-- What every step keeps, fusing the joins of a graph keeps. -/
theorem fuseConcats_invariant {property : Graph α → Prop}
    (hstep : ∀ {g h : Graph α} {node : NodeId}, property g → Fuses g node h → property h)
    (hbefore : property w.graph) (hrun : fuseConcats w = .ok fused final) :
    property final.graph := by
  rw [fuseConcats, graph_bind_eq_ok_iff] at hrun
  refine foldlM_invariant (motive := fun _ k => property k.graph) ?_ hbefore hrun
  intro node count k count' next _ hkept hround
  obtain ⟨added, _, hat, hround⟩ := stateBind_eq_ok_iff.1 hround
  cases hround
  exact hstep hkept (fuseAt_fuses hat)

/-- Fusing the joins of a graph leaves a graph that is fused from it. -/
theorem fuseConcats_fused (hcoherent : w.graph.Coherent) (hordered : w.graph.Ordered)
    (hrun : fuseConcats w = .ok fused final) :
    Fused w.graph final.graph := by
  refine fuseConcats_invariant (fun {h k node} hfused hfuses => ?_) (fused_self hcoherent hordered) hrun
  cases hfuses with
  | idle => exact hfused
  | fuse hown hop hplan hedit =>
    have hkept := kept_replaceFused hplan hfused.toCoherent hfused.ordered hown hop
    rw [hedit] at hkept
    exact (Fused.trans hfused hkept).removeUnused _

end Pass

variable [Scalar α]

/-- The shape of a parameter of a module. -/
def oneValue : Shape := .strided .float32 [⟨1, 1⟩]

/-- The module that negates its parameter. -/
def negating : Graph Float32 :=
  ⟨"neg",
    [(0, ⟨.parameter "x0" oneValue, oneValue, [], []⟩),
     (1, ⟨.unary .neg, oneValue, [0], []⟩),
     (2, ⟨.returns, .tuple .float32 [oneValue], [1], []⟩)],
    [], 3⟩

/-- The module that adds its parameters. -/
def adding : Graph Float32 :=
  ⟨"add",
    [(1, ⟨.parameter "x1" oneValue, oneValue, [], []⟩),
     (0, ⟨.parameter "x0" oneValue, oneValue, [], []⟩),
     (2, ⟨.binary .add, oneValue, [0, 1], []⟩),
     (3, ⟨.returns, .tuple .float32 [oneValue], [2], []⟩)],
    [], 4⟩

/-- One tensor is negated and joined with another, a third one is added, and a column is cut out. The
layouts are those of the parameters and of the four nodes. -/
def joinedSum (a b c negated joined sum column : Layout) : Graph Float32 :=
  ⟨"",
    [(2, ⟨.parameter "c" (.strided .float32 c), .strided .float32 c, [], []⟩),
     (1, ⟨.parameter "b" (.strided .float32 b), .strided .float32 b, [], []⟩),
     (0, ⟨.parameter "a" (.strided .float32 a), .strided .float32 a, [], []⟩),
     (3, ⟨.pointwise, .strided .float32 negated, [0], [negating]⟩),
     (4, ⟨.concat 0, .strided .float32 joined, [3, 1], []⟩),
     (5, ⟨.pointwise, .strided .float32 sum, [4, 2], [adding]⟩),
     (6, ⟨.slice [1, 2] [0, 0] [1, 1], .strided .float32 column, [5], []⟩)],
    [], 7⟩

/-- Values for the parameters. -/
def threeTensors (a b c : Layout) (as bs cs : Array Float32) : Bindings Float32 :=
  [("a", .strided .float32 a as), ("b", .strided .float32 b bs), ("c", .strided .float32 c cs)]

/-- The number of joins that are fused, and whether the fused graph returns values. -/
def fusedRun (g : Graph Float32) (bindings : Bindings Float32) : Option (Nat × Bool) :=
  match Pass.fuseConcats ⟨g, []⟩ with
  | .ok fused final => some (fused, (final.graph.run bindings).isOk)
  | .error _ _ => none

theorem exists_of_fusedRun {g : Graph Float32} {bindings : Bindings Float32} {fused : Nat}
    {returns : Bool} (hfused : fusedRun g bindings = some (fused, returns)) :
    ∃ final, Pass.fuseConcats ⟨g, []⟩ = .ok fused final ∧
      (final.graph.run bindings).isOk = returns := by
  unfold fusedRun at hfused
  cases hpass : Pass.fuseConcats ⟨g, []⟩ with
  | ok count final =>
    rw [hpass] at hfused
    cases hfused
    exact ⟨final, rfl, rfl⟩
  | error cause final =>
    rw [hpass] at hfused
    cases hfused

/-- Two by two entries stored by rows. -/
def byRows : Layout := [⟨1, 4⟩, ⟨2, 2⟩, ⟨2, 1⟩]

/-- Two by two entries stored by columns. -/
def byColumns : Layout := [⟨1, 4⟩, ⟨2, 1⟩, ⟨2, 2⟩]

/-- Twice two by two entries. -/
def twofold : Layout := [⟨2, 4⟩, ⟨2, 2⟩, ⟨2, 1⟩]

/-- One column of them. -/
def firstColumn : Layout := [⟨2, 4⟩, ⟨1, 2⟩, ⟨1, 1⟩]

/-- Sixteen values for the parameters. -/
def sixteen : Bindings Float32 :=
  threeTensors byRows byColumns twofold #[1, 2, 3, 4] #[5, 6, 7, 8] #[1, 2, 4, 8, 16, 32, 64, 128]

/-- No entries, with lengths the product of which takes more than 64 bits. -/
def vast : Layout := [⟨0, 1⟩, ⟨4294967296, 4⟩, ⟨4294967296, 2⟩]

/-- The layout that results on such lengths have when the long axes come first. -/
def vastSum : Layout := [⟨0, 1⟩, ⟨4294967296, 0⟩, ⟨4294967296, 0⟩]

/-- A column of no entries. -/
def noColumn : Layout := [⟨0, 1⟩, ⟨1, 0⟩, ⟨1, 0⟩]

end TensorGraph
