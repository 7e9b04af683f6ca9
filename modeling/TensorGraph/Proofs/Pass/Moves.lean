import Mathlib.Logic.Relation
import TensorGraph.Pass.Contiguous
import TensorGraph.Proofs.Graph.Order
import TensorGraph.Proofs.Pass.Revisions

/-!
# What the elimination of contiguous nodes does to a graph

A sweep bypasses inputs one at a time and then folds candidates one at a time; everything else it does is
ask questions and write the log.
-/

namespace TensorGraph

open List

namespace Pass

open Revision Graph

variable {α : Type} [Scalar α] {settings : Settings} {target : String}
  {consider : Graph α → NodeId → Checked Bool} {node arg source candidate : NodeId}
  {g h start : Graph α} {sweep next : Sweep} {w final : Workspace α} {trace : Bool}
  {inputs : List Shape} {instruction : Stored α} {final? : Option NodeId} {value : Tensor α}
  {stats : EliminationStats}

/-! ## Speculation -/

/-- A node and everything below it accept other input shapes, as speculation sees it. -/
inductive Accepts (g : Graph α) : NodeId → List Shape → Prop
  | settles {node : NodeId} {inputs : List Shape} {instruction : Instruction α (Graph α)}
      {shape : Shape} (hfound : g.find? node = some instruction)
      (hinfer : instruction.op.infer inputs (Graph.signatures instruction.modules) = .ok shape)
      (hsettled : shape.isStandard = .ok true ∨ shape = instruction.shape) : Accepts g node inputs
  | passes {node : NodeId} {inputs : List Shape} {instruction : Instruction α (Graph α)}
      {shape : Shape} {below : NodeId → List Shape} (hfound : g.find? node = some instruction)
      (hinfer : instruction.op.infer inputs (Graph.signatures instruction.modules) = .ok shape)
      (hread : g.consumers node ≠ [])
      (hbelow : ∀ consumer ∈ g.consumers node,
        shapesWith g consumer node shape = .ok (below consumer))
      (haccepts : ∀ consumer ∈ g.consumers node, Accepts g consumer (below consumer)) :
      Accepts g node inputs

theorem acceptsWithin_question (trace : Bool) (bound : Nat) (node : NodeId) (inputs : List Shape)
    (modules : List Signature) :
    Question (acceptsWithin trace bound node inputs modules : Revision α Bool) := by
  induction bound generalizing node inputs modules with
  | zero => exact .lift _
  | succ bound ih =>
    unfold acceptsWithin
    refine .bind .graph fun g => .bind (.lift _) fun instruction => .bind (.lift _) ?_
    intro inferred
    cases inferred with
    | error cause =>
      exact .ite (.bind (.lineOf node) fun _ => .bind (.log _ _) fun _ => .pure false)
        (.pure false)
    | ok shape =>
      refine .ite (.pure false) (.bind (.lift _) fun standard => .ite (.pure true) ?_)
      refine .ite (.pure true) (.ite (.pure false) (.allM (fun consumer => ?_) _))
      exact .bind (.lift _) fun _ => .bind (.lift _) fun _ => ih _ _ _

/-- What speculation within a bound has found out when it accepts. -/
theorem accepts_of_acceptsWithin {bound : Nat} (hfound : w.graph.find? node = some instruction)
    (hrun : acceptsWithin trace bound node inputs (Graph.signatures instruction.modules) w =
      .ok true final) : Accepts w.graph node inputs := by
  induction bound generalizing node inputs instruction w final with
  | zero => cases hrun
  | succ bound ih =>
    unfold acceptsWithin at hrun
    rw [graph_bind_eq_ok_iff] at hrun
    obtain ⟨current, hcurrent, hrun⟩ := lift_bind_eq_ok_iff.1 hrun
    obtain rfl : current = instruction :=
      Option.some.inj ((Graph.instruction_eq_ok_iff.1 hcurrent).symm.trans hfound)
    obtain ⟨inferred, hattempt, hrun⟩ := lift_bind_eq_ok_iff.1 hrun
    cases inferred with
    | error cause =>
      dsimp only at hrun
      split_ifs at hrun
      · obtain ⟨_, _, -, hrun⟩ := stateBind_eq_ok_iff.1 hrun
        obtain ⟨_, _, -, hrun⟩ := stateBind_eq_ok_iff.1 hrun
        cases hrun
      · cases hrun
    | ok shape =>
      have hinfer := Outcome.attempt_eq_ok_iff.1 hattempt
      dsimp only at hrun
      by_cases hdynamic : shape.isDynamic = true
      · rw [if_pos hdynamic] at hrun
        cases hrun
      rw [if_neg hdynamic] at hrun
      obtain ⟨standard, hstandard, hrun⟩ := lift_bind_eq_ok_iff.1 hrun
      cases standard with
      | true => exact .settles hfound hinfer (.inl hstandard)
      | false =>
      rw [if_neg Bool.false_ne_true] at hrun
      by_cases hsame : shape = current.shape
      · exact .settles hfound hinfer (.inr hsame)
      rw [if_neg hsame] at hrun
      by_cases hnone : (w.graph.consumers node).isEmpty = true
      · rw [if_pos hnone] at hrun
        cases hrun
      rw [if_neg hnone] at hrun
      have hall := Question.exists_of_allM (fun consumer => .bind (.lift _) fun _ =>
        .bind (.lift _) fun _ => acceptsWithin_question trace bound _ _ _) hrun
      have hbelow : ∀ consumer ∈ w.graph.consumers node, ∃ shapes,
          shapesWith w.graph consumer node shape = .ok shapes ∧
            Accepts w.graph consumer shapes := by
        intro consumer hmem
        obtain ⟨w', final', hgraph, hcheck⟩ := hall consumer hmem
        obtain ⟨below, hbelow, hcheck⟩ := lift_bind_eq_ok_iff.1 hcheck
        obtain ⟨shapes, hshapes, hcheck⟩ := lift_bind_eq_ok_iff.1 hcheck
        refine ⟨shapes, hshapes, ?_⟩
        rw [← hgraph] at hbelow ⊢
        exact ih (Graph.instruction_eq_ok_iff.1 hbelow) hcheck
      choose! shapes hshapes haccepts using hbelow
      exact .passes hfound hinfer (by simpa using hnone) hshapes haccepts

theorem canRetarget_question (trace : Bool) (node : NodeId) (inputs : List Shape)
    (modules : List Signature) :
    Question (canRetarget trace node inputs modules : Revision α Bool) := by
  refine .bind .graph fun g => .bind (.tryCatch ?_ fun _ => ?_) fun early => ?_
  · exact .bind (acceptsWithin_question trace _ node inputs modules) fun _ => .pure _
  · exact .bind (.log _ _) fun _ => .pure _
  · cases early <;> exact .pure _

/-- What speculation has found out when it accepts. -/
theorem accepts_of_canRetarget (hfound : w.graph.find? node = some instruction)
    (hrun : canRetarget trace node inputs (Graph.signatures instruction.modules) w =
      .ok true final) : Accepts w.graph node inputs := by
  rw [canRetarget, graph_bind_eq_ok_iff] at hrun
  obtain ⟨early, middle, htried, hrun⟩ := stateBind_eq_ok_iff.1 hrun
  generalize Edit.chainBound w.graph = bound at htried
  rcases tryCatch_eq_ok htried with htried | ⟨cause, failed, -, hcaught⟩
  · obtain ⟨accepted, _, haccepted, hreturned⟩ := stateBind_eq_ok_iff.1 htried
    cases hreturned
    cases hrun
    exact accepts_of_acceptsWithin hfound haccepted
  · obtain ⟨_, _, -, hreturned⟩ := stateBind_eq_ok_iff.1 hcaught
    cases hreturned
    cases hrun

/-! ## Moves -/

/-- A node of the graph has the operator that is to be eliminated. -/
def Targeted (target : String) (g : Graph α) (node : NodeId) : Prop :=
  ∃ stored, g.find? node = some stored ∧ stored.op.name = target

omit [Scalar α] in
/-- Only one operator has the name. -/
theorem eq_contiguous_of_name {op : Operator α} (hname : op.name = "contiguous") :
    op = .contiguous := by
  cases op with
  | contiguous => rfl
  | unary fn => cases fn <;> simp [Operator.name, UnaryFn.name] at hname
  | binary fn => cases fn <;> simp [Operator.name, BinaryFn.name] at hname
  | _ => simp [Operator.name] at hname

/-- A node of the graph does not end it. -/
def Reads (g : Graph α) (node : NodeId) : Prop :=
  ∃ op, g.op node = .ok op ∧ op.isReturns = false

/-- An argument of a reader is pointed past a targeted node, at its first input. -/
structure Bypass (target : String) (g : Graph α) (node arg source : NodeId) (h : Graph α) :
    Prop where
  targeted : Targeted target g arg
  first : ∃ rest, g.inputs arg = source :: rest
  reader : Reads g node
  accepted : ∃ shape shapes, g.shape source = .ok shape ∧
    shapesWith g node arg shape = .ok shapes ∧ Accepts g node shapes
  rerouted : Edit.reroute node arg source g = .ok () h

omit [Scalar α] in
/-- What the bypassed node reads comes before it. -/
theorem Bypass.source_before (hbypass : Bypass target g node arg source h) (hordered : g.Ordered) :
    g.order.idxOf source < g.order.idxOf arg := by
  obtain ⟨rest, hfirst⟩ := hbypass.first
  exact hordered.idxOf_lt (hfirst ▸ mem_cons_self)

/-- Some argument is pointed past a targeted node. -/
def Bypassed (target : String) (g h : Graph α) : Prop :=
  ∃ node arg source, Bypass target g node arg source h

omit [Scalar α] in
theorem Reads.reroute {old new other : NodeId} (hreads : Reads g other)
    (hrun : Edit.reroute node old new g = .ok () h) : Reads h other := by
  obtain ⟨op, hop, hreturns⟩ := hreads
  obtain ⟨stored, hfound, rfl⟩ := op_eq_ok_iff.1 hop
  obtain ⟨stored', hfound', heq, -, -⟩ := Edit.reroute_find? hrun hfound
  exact ⟨stored'.op, op_of_find? hfound', by rw [heq, hreturns]⟩

omit [Scalar α] in
theorem Targeted.reroute {old new other : NodeId} (htargeted : Targeted target g other)
    (hrun : Edit.reroute node old new g = .ok () h) :
    Targeted target h other := by
  obtain ⟨stored, hfound, hname⟩ := htargeted
  obtain ⟨stored', hfound', hop, -, -⟩ := Edit.reroute_find? hrun hfound
  exact ⟨stored', hfound', by rw [hop, hname]⟩

/-- Speculation on reading past a targeted node, at its first input, gave this answer. -/
structure Asked (trace : Bool) (target : String) (w : Workspace α) (node arg source : NodeId)
    (answer : Bool) : Prop where
  targeted : Targeted target w.graph arg
  first : ∃ rest, w.graph.inputs arg = source :: rest
  answered : ∃ instruction shape shapes final, w.graph.find? node = some instruction ∧
    w.graph.shape source = .ok shape ∧ shapesWith w.graph node arg shape = .ok shapes ∧
    canRetarget trace node shapes (Graph.signatures instruction.modules) w = .ok answer final

/-- The ways in which the visit of an input ends. -/
inductive VisitEnds (trace : Bool) (target : String) (node arg : NodeId) (sweep : Sweep)
    (w : Workspace α) : Sweep → Graph α → Prop
  /-- The input is not targeted, or reads nothing. -/
  | other (hother : ∀ source rest, Targeted target w.graph arg →
      w.graph.inputs arg ≠ source :: rest) : VisitEnds trace target node arg sweep w sweep w.graph
  /-- The reader is pointed past the input. -/
  | bypassed {source : NodeId} {h : Graph α} (hasked : Asked trace target w node arg source true)
      (hrun : Edit.replaceArgument node arg source w.graph = .ok () h) :
      VisitEnds trace target node arg sweep w { sweep with removed := sweep.removed + 1 } h
  /-- Speculation accepts the bypass, but it is refused. -/
  | refused {source : NodeId} {cause : GraphError}
      (hasked : Asked trace target w node arg source true)
      (hrun : Edit.replaceArgument node arg source w.graph = .error (.refusal cause) w.graph) :
      VisitEnds trace target node arg sweep w sweep w.graph
  /-- The input is noted for folding. -/
  | noted {source : NodeId} (hasked : Asked trace target w node arg source false)
      (heval : w.graph.canEval source = .ok true) (hnew : arg ∉ sweep.candidates) :
      VisitEnds trace target node arg sweep w
        { sweep with candidates := sweep.candidates ++ [arg] } w.graph
  /-- The input stays as it is. -/
  | passed {source : NodeId} (hasked : Asked trace target w node arg source false)
      (hknown : w.graph.canEval source = .ok true → arg ∈ sweep.candidates) :
      VisitEnds trace target node arg sweep w sweep w.graph

theorem Asked.bypass (hasked : Asked trace target w node arg source true)
    (hreads : Reads w.graph node) (hrerouted : Edit.reroute node arg source w.graph = .ok () h) :
    Bypass target w.graph node arg source h := by
  obtain ⟨instruction, shape, shapes, _, hfound, hshape, hshapes, hanswer⟩ := hasked.answered
  exact ⟨hasked.targeted, hasked.first, hreads,
    ⟨shape, shapes, hshape, hshapes, accepts_of_canRetarget hfound hanswer⟩, hrerouted⟩

theorem visitInput_ends (hrun : visitInput settings target node sweep arg w = .ok next final) :
    VisitEnds settings.trace target node arg sweep w next final.graph := by
  unfold visitInput at hrun
  rw [graph_bind_eq_ok_iff] at hrun
  obtain ⟨op, hop, hrun⟩ := lift_bind_eq_ok_iff.1 hrun
  obtain ⟨stored, hstored, rfl⟩ := op_eq_ok_iff.1 hop
  by_cases hname : stored.op.name ≠ target
  · rw [if_pos hname] at hrun
    cases hrun
    refine .other ?_
    rintro source rest ⟨stored', hstored', hname'⟩
    cases hstored.symm.trans hstored'
    exact absurd hname' hname
  rw [if_neg hname] at hrun
  cases hinputs : w.graph.inputs arg with
  | nil =>
    rw [hinputs] at hrun
    cases hrun
    exact .other fun source rest _ => by simp [hinputs]
  | cons source rest =>
    rw [hinputs] at hrun
    obtain ⟨instruction, hinstruction, hrun⟩ := lift_bind_eq_ok_iff.1 hrun
    obtain ⟨shape, hshape, hrun⟩ := lift_bind_eq_ok_iff.1 hrun
    obtain ⟨shapes, hshapes, hrun⟩ := lift_bind_eq_ok_iff.1 hrun
    obtain ⟨answer, middle, hanswer, hrun⟩ := stateBind_eq_ok_iff.1 hrun
    have hgraph := (canRetarget_question _ _ _ _).graph_eq hanswer
    have hasked : Asked settings.trace target w node arg source answer :=
      ⟨⟨stored, hstored, not_not.1 hname⟩, ⟨rest, hinputs⟩, instruction, shape, shapes, middle,
        instruction_eq_ok_iff.1 hinstruction, hshape, hshapes, hanswer⟩
    cases answer with
    | true =>
      -- The lines of the trace change nothing but the log.
      obtain ⟨before, hsame, hrun⟩ : ∃ before : Workspace α, before.graph = w.graph ∧
          ((next = { sweep with removed := sweep.removed + 1 } ∧
              Edit.replaceArgument node arg source before.graph = .ok () final.graph) ∨
            (next = sweep ∧ ∃ cause, Edit.replaceArgument node arg source before.graph =
              .error (.refusal cause) final.graph)) := by
        rw [if_pos rfl] at hrun
        by_cases htrace : settings.trace = true
        · rw [if_pos htrace] at hrun
          obtain ⟨_, first, hfirst, hrun⟩ := (Question.lineOf _).bind_eq_ok hrun
          obtain ⟨_, second, hsecond, hrun⟩ := (Question.log _ _).bind_eq_ok hrun
          obtain ⟨_, third, hthird, hrun⟩ := (Question.lineOf _).bind_eq_ok hrun
          obtain ⟨_, fourth, hfourth, hrun⟩ := (Question.log _ _).bind_eq_ok hrun
          exact ⟨fourth, by rw [hfourth, hthird, hsecond, hfirst, hgraph], reported_eq_ok hrun⟩
        · rw [if_neg htrace] at hrun
          exact ⟨middle, hgraph, reported_eq_ok hrun⟩
      rw [hsame] at hrun
      rcases hrun with ⟨rfl, hedit⟩ | ⟨rfl, cause, hedit⟩
      · exact .bypassed hasked hedit
      · have hkept := Edit.transaction_eq_error hedit
        rw [hkept] at hedit ⊢
        exact .refused hasked hedit
    | false =>
      rw [if_neg Bool.false_ne_true] at hrun
      obtain ⟨evaluable, heval, hrun⟩ := lift_bind_eq_ok_iff.1 hrun
      by_cases hnote : (evaluable && !sweep.candidates.contains arg) = true
      · rw [if_pos hnote] at hrun
        cases hrun
        obtain ⟨rfl, hnew⟩ := Bool.and_eq_true_iff.1 hnote
        rw [hgraph]
        exact .noted hasked heval (by simpa using hnew)
      · rw [if_neg hnote] at hrun
        cases hrun
        rw [hgraph]
        refine .passed hasked fun heval' => ?_
        cases heval.symm.trans heval'
        simpa using hnote

/-- A node is skipped, or its inputs are visited one after another. -/
theorem visitNode_eq_ok
    (hrun : visitNode settings target consider final? sweep node w = .ok next final) :
    (next = sweep ∧ final = w ∧
        ¬ (node ∈ w.graph.order ∧ Reads w.graph node ∧
          (final? = some node ∨ w.graph.hasConsumers node = true) ∧
          consider w.graph node = .ok true)) ∨
      Reads w.graph node ∧
        (w.graph.inputs node).eraseDups.foldlM (visitInput settings target node) sweep w =
          .ok next final := by
  unfold visitNode at hrun
  rw [graph_bind_eq_ok_iff] at hrun
  by_cases hlive : (!w.graph.contains node) = true
  · rw [if_pos hlive] at hrun
    cases hrun
    refine .inl ⟨rfl, rfl, fun ⟨hmem, _⟩ => ?_⟩
    rw [Graph.contains_iff.2 hmem] at hlive
    cases hlive
  rw [if_neg hlive] at hrun
  obtain ⟨op, hop, hrun⟩ := lift_bind_eq_ok_iff.1 hrun
  by_cases hreturns : op.isReturns = true
  · rw [if_pos hreturns] at hrun
    cases hrun
    refine .inl ⟨rfl, rfl, ?_⟩
    rintro ⟨-, ⟨op', hop', hreads⟩, -⟩
    cases hop.symm.trans hop'
    rw [hreturns] at hreads
    cases hreads
  rw [if_neg hreturns] at hrun
  by_cases hidle : (final? != some node && !w.graph.hasConsumers node) = true
  · rw [if_pos hidle] at hrun
    cases hrun
    refine .inl ⟨rfl, rfl, ?_⟩
    rintro ⟨-, -, rfl | hread, -⟩ <;> simp_all
  rw [if_neg hidle] at hrun
  obtain ⟨considered, hconsidered, hrun⟩ := lift_bind_eq_ok_iff.1 hrun
  cases considered with
  | false =>
    cases hrun
    refine .inl ⟨rfl, rfl, fun ⟨_, _, _, hconsidered'⟩ => ?_⟩
    cases hconsidered.symm.trans hconsidered'
  | true => exact .inr ⟨⟨op, hop, by simpa using hreturns⟩, hrun⟩

/-- What holds after a part of the way through the graph. -/
structure Surveyed (target : String) (start : Graph α) (candidates : List NodeId) (g : Graph α) :
    Prop where
  bypassed : Relation.ReflTransGen (Bypassed target) start g
  nodup : candidates.Nodup
  targeted : ∀ candidate ∈ candidates, Targeted target g candidate

theorem visitInput_surveyed
    (hbefore : Surveyed target start sweep.candidates w.graph ∧ Reads w.graph node)
    (hrun : visitInput settings target node sweep arg w = .ok next final) :
    Surveyed target start next.candidates final.graph ∧ Reads final.graph node := by
  obtain ⟨hsurveyed, hreads⟩ := hbefore
  have hends := visitInput_ends hrun
  generalize final.graph = h at hends
  cases hends with
  | other _ | refused _ _ | passed _ _ => exact ⟨hsurveyed, hreads⟩
  | bypassed hasked hedit =>
    have hbypass := hasked.bypass hreads (Edit.transaction_eq_ok_iff.1 hedit)
    refine ⟨⟨hsurveyed.bypassed.tail ⟨_, _, _, hbypass⟩, hsurveyed.nodup, ?_⟩,
      hreads.reroute hbypass.rerouted⟩
    exact fun candidate hmem => (hsurveyed.targeted candidate hmem).reroute hbypass.rerouted
  | noted hasked _ hnew =>
    refine ⟨⟨hsurveyed.bypassed, ?_, ?_⟩, hreads⟩
    · rw [nodup_append_comm]
      exact nodup_cons.2 ⟨hnew, hsurveyed.nodup⟩
    · intro candidate hmem
      rcases mem_append.1 hmem with hmem | hmem
      · exact hsurveyed.targeted candidate hmem
      · rw [mem_singleton.1 hmem]
        exact hasked.targeted

theorem visitNode_surveyed (hbefore : Surveyed target start sweep.candidates w.graph)
    (hrun : visitNode settings target consider final? sweep node w = .ok next final) :
    Surveyed target start next.candidates final.graph := by
  rcases visitNode_eq_ok hrun with ⟨rfl, rfl, -⟩ | ⟨hreads, hvisits⟩
  · exact hbefore
  have hafter : Surveyed target start next.candidates final.graph ∧ Reads final.graph node :=
    foldlM_invariant (fun _ hkept hstep => visitInput_surveyed hkept hstep) ⟨hbefore, hreads⟩ hvisits
  exact hafter.1

/-! ## Folding -/

/-- What becomes of a graph in which a literal is to take the place of a candidate: the literal is
added, the candidate's readers are pointed at it and the candidate is taken out, or as much of this
as is not refused. -/
def Spliced (candidate : NodeId) (value : Tensor α) (g h : Graph α) : Prop :=
  h = (g.addLiteral value).1 ∨
    ∃ k, Edit.replaceInstruction candidate g.nextId (g.addLiteral value).1 = .ok () k ∧
      (h = k ∨ k.hasConsumers candidate = false ∧ h = k.erase candidate)

omit [Scalar α] in
theorem addLiteral_eq_ok :
    Edit.addLiteral value g = .ok g.nextId (g.addLiteral value).1 := by
  rw [← insertAt_snd]
  rfl

omit [Scalar α] in
theorem kept_spliceLiteral (candidate : NodeId) (value : Tensor α) (g : Graph α) :
    Kept (Spliced candidate value g) (spliceLiteral candidate value g) := by
  refine .bind (.inl rfl) fun literal m hliteral hadded => ?_
  cases addLiteral_eq_ok.symm.trans hliteral
  refine .bind (.transaction hadded fun _ k hrun => ?_) fun _ k hrun hspliced => ?_
  · exact .inr ⟨k, Edit.transaction_eq_ok_iff.2 hrun, .inl rfl⟩
  · rw [Edit.remove, stateGet_bind]
    refine .lift_bind hspliced fun removed hremove => ?_
    exact .inr ⟨k, hrun, .inr (remove_eq_ok_iff.1 hremove)⟩

/-- Folding a candidate leaves the graph alone, because the candidate has no value or is not read, or
it splices the value in, as far as this is not refused. -/
theorem foldCandidate_eq_ok {value? : Except EvalError (Tensor α)} {count : Nat}
    (hrun : foldCandidate settings candidate value? w = .ok count final) :
    (count = 0 ∧ final.graph = w.graph ∧
        (w.graph.hasConsumers candidate = true → ∀ value, value? ≠ .ok value)) ∨
      ∃ value, value? = .ok value ∧ w.graph.hasConsumers candidate = true ∧
        (count = 1 ∧ spliceLiteral candidate value w.graph = .ok () final.graph ∨
          count = 0 ∧ ∃ cause,
            spliceLiteral candidate value w.graph = .error (.refusal cause) final.graph) := by
  unfold foldCandidate at hrun
  cases value? with
  | error cause =>
    obtain ⟨_, _, hlogged, hrun⟩ := (Question.log _ _).bind_eq_ok hrun
    cases hrun
    exact .inl ⟨rfl, hlogged, fun _ _ => nofun⟩
  | ok value =>
    dsimp only at hrun
    rw [graph_bind_eq_ok_iff] at hrun
    by_cases hread : (!w.graph.hasConsumers candidate) = true
    · rw [if_pos hread] at hrun
      cases hrun
      refine .inl ⟨rfl, rfl, fun hread' => ?_⟩
      rw [hread'] at hread
      cases hread
    rw [if_neg hread] at hrun
    refine .inr ⟨value, rfl, by simpa using hread, ?_⟩
    by_cases htrace : settings.trace = true
    · rw [if_pos htrace] at hrun
      obtain ⟨_, first, hfirst, hrun⟩ := (Question.lineOf _).bind_eq_ok hrun
      obtain ⟨_, second, hsecond, hrun⟩ := (Question.log _ _).bind_eq_ok hrun
      rw [← hfirst, ← hsecond]
      exact reported_eq_ok hrun
    · rw [if_neg htrace] at hrun
      exact reported_eq_ok hrun

omit [Scalar α] in
/-- What adding the literal, pointing a reader at it and taking the candidate out keep, splicing
keeps. The literal comes before the candidate, and the candidate before some reader. -/
theorem Spliced.invariant (hspliced : Spliced candidate value g h)
    (hindexed : g.Indexed) (hordered : g.Ordered) (hlive : candidate ∈ g.order)
    (hread : g.hasConsumers candidate = true) {motive : Graph α → Prop}
    (hadded : motive (g.addLiteral value).1) (hrerouted : ∀ {m next reader}, motive m →
      m.order.idxOf g.nextId < m.order.idxOf candidate →
      Edit.reroute reader candidate g.nextId m = .ok () next → motive next)
    (herased : ∀ {m reader}, motive m → m.hasConsumers candidate = false →
      m.order.idxOf candidate < m.order.idxOf reader → reader ∈ m.order →
      motive (m.erase candidate)) : motive h := by
  have hne : ∀ other ∈ g.order, g.nextId ≠ other := fun _ hmem => (ne_nextId hindexed hmem).symm
  rcases hspliced with rfl | ⟨k, hreplaced, hfinal⟩
  · exact hadded
  have hvisit {reader : NodeId} {m next : Graph α}
      (hkept : motive m ∧ m.order = g.nextId :: g.order)
      (hstep : Edit.reroute reader candidate g.nextId m = .ok () next) :
      motive next ∧ next.order = g.nextId :: g.order := by
    refine ⟨hrerouted hkept.1 ?_ hstep, (reroute_order hstep).trans hkept.2⟩
    rw [hkept.2, idxOf_cons_self, idxOf_cons_ne _ (hne candidate hlive)]
    exact Nat.succ_pos _
  obtain ⟨hkept, horder⟩ :=
    replaceInstruction_invariant hvisit ⟨hadded, order_addLiteral⟩ hreplaced
  rcases hfinal with rfl | ⟨hunread, rfl⟩
  · exact hkept
  · obtain ⟨reader, stored, hfound, hreads⟩ := exists_reader hindexed.nodup hread
    have hreader := mem_order_of_find? hfound
    have hbefore : k.order.idxOf candidate < k.order.idxOf reader := by
      rw [horder, idxOf_cons_ne _ (hne candidate hlive), idxOf_cons_ne _ (hne reader hreader)]
      exact Nat.succ_lt_succ (hordered hfound candidate hreads)
    refine herased hkept hunread hbefore ?_
    rw [horder]
    exact mem_cons_of_mem _ hreader

/-- Candidates are folded one after another, with the values that they have at the start. -/
inductive Folds (start : Graph α) : List NodeId → Graph α → Graph α → Prop
  | done {g : Graph α} : Folds start [] g g
  | skip {candidate : NodeId} {rest : List NodeId} {g h : Graph α} (hrest : Folds start rest g h) :
      Folds start (candidate :: rest) g h
  | splice {candidate : NodeId} {rest : List NodeId} {value : Tensor α} {g m h : Graph α}
      (hvalue : candidateValue start candidate = .ok value)
      (hread : g.hasConsumers candidate = true) (hspliced : Spliced candidate value g m)
      (hrest : Folds start rest m h) : Folds start (candidate :: rest) g h

/-- A list is the concatenation of its runs. -/
theorem flatten_runsOf {β : Type} {length count : Nat} (hlength : 0 < length) {items : List β}
    (hcount : items.length ≤ count) : (runsOf length count items).flatten = items := by
  induction count generalizing items with
  | zero =>
    rw [length_eq_zero_iff.1 (Nat.le_zero.1 hcount)]
    rfl
  | succ count ih =>
    cases items with
    | nil => rfl
    | cons item items =>
      have hrest : ((item :: items).drop length).length ≤ count := by
        rw [length_drop]
        omega
      rw [runsOf, flatten_cons, ih hrest, take_append_drop]
      simp

/-- The runs in which workers take the candidates. -/
def shares (workers : Nat) (candidates : List NodeId) : List (List NodeId) :=
  let used := max 1 (min workers candidates.length)
  runsOf ((candidates.length + used - 1) / used) candidates.length candidates

theorem flatten_shares (workers : Nat) (candidates : List NodeId) :
    (shares workers candidates).flatten = candidates := by
  cases candidates with
  | nil => rfl
  | cons candidate candidates =>
    refine flatten_runsOf (Nat.div_pos ?_ ?_) (Nat.le_refl _) <;> rw [length_cons] <;> omega

/-- Candidates that can be evaluated without a fault, though some may have no value. -/
def Faultfree (g : Graph α) (candidates : List NodeId) : Prop :=
  ∀ candidate ∈ candidates, ∀ cause, candidateValue g candidate ≠ .error (.fault cause)

/-- A worker hands in all values of its run, or none if there is a fault. -/
theorem runValues_ok_iff (g : Graph α) (run : List NodeId) :
    Forall₂ (fun candidate value? => ∀ value, value? = .ok value ↔
      candidateValue g candidate = .ok value ∧ Faultfree g run) run (runValues g run) := by
  unfold runValues
  cases hrun : run.mapM fun candidate => (candidateValue g candidate).attempt with
  | ok values =>
    have hattempts := mapM_eq_ok_iff.1 hrun
    have hfree : Faultfree g run := by
      intro candidate hmem cause hfault
      obtain ⟨value?, -, hattempt⟩ := exists_mem_right_of_forall₂ hattempts hmem
      rw [hfault] at hattempt
      cases hattempt
    refine hattempts.imp fun candidate value? hattempt value => ?_
    rw [and_iff_left hfree, ← Outcome.attempt_eq_ok_iff, hattempt, Except.ok.injEq]
  | error cause =>
    -- Without a fault each attempt would have had a result.
    have hfaults : ¬ Faultfree g run := by
      intro hfree
      have hall : ∀ candidate ∈ run, ∃ value?, (candidateValue g candidate).attempt = .ok value? := by
        intro candidate hmem
        rcases hcomputed : candidateValue g candidate with (cause | cause) | value
        · exact absurd hcomputed (hfree candidate hmem cause)
        · exact ⟨.error cause, rfl⟩
        · exact ⟨.ok value, rfl⟩
      obtain ⟨values, hvalues⟩ := exists_forall₂ hall
      cases hrun.symm.trans (mapM_eq_ok_iff.2 hvalues)
    rw [forall₂_map_right_iff, forall₂_same]
    exact fun candidate _ value => ⟨nofun, fun hvalue => absurd hvalue.2 hfaults⟩

/-- A candidate gets its value, unless the evaluation of some candidate of its run faults. -/
def Gets (workers : Nat) (g : Graph α) (candidates : List NodeId) (candidate : NodeId)
    (value? : Except EvalError (Tensor α)) : Prop :=
  ∃ run ∈ shares workers candidates, candidate ∈ run ∧
    ∀ value, value? = .ok value ↔ candidateValue g candidate = .ok value ∧ Faultfree g run

theorem candidateValues_gets (workers : Nat) (g : Graph α) (candidates : List NodeId) :
    Forall₂ (Gets workers g candidates) candidates (candidateValues workers g candidates) := by
  have hruns : Forall₂ (Gets workers g candidates) (shares workers candidates).flatten
      (candidateValues workers g candidates) := forall₂_flatMap fun run hrun =>
    forall₂_imp_mem (runValues_ok_iff g run) fun _ hmem _ hvalue => ⟨run, hrun, hmem, hvalue⟩
  rwa [flatten_shares] at hruns

theorem folds_of_foldlM {candidates : List NodeId} {values : List (Except EvalError (Tensor α))}
    {count total : Nat} (hcomputed : Forall₂ (fun candidate value? => ∀ value, value? = .ok value →
      candidateValue start candidate = .ok value) candidates values)
    (hrun : ((candidates.zip values).foldlM
      (fun folded (candidate, value?) =>
        return folded + (← foldCandidate settings candidate value?)) count : Revision α Nat) w =
      .ok total final) :
    Folds start candidates w.graph final.graph := by
  induction hcomputed generalizing count w with
  | nil =>
    cases hrun
    exact .done
  | @cons candidate _ _ _ hfirst _ ih =>
    rw [zip_cons_cons, foldlM_cons] at hrun
    obtain ⟨next, middle, hround, hrest⟩ := stateBind_eq_ok_iff.1 hrun
    obtain ⟨added, _, hfold, hreturned⟩ := stateBind_eq_ok_iff.1 hround
    cases hreturned
    have hfolds := ih hrest
    rcases foldCandidate_eq_ok hfold with ⟨-, hkept, -⟩ | ⟨value, rfl, hread, hspliced⟩
    · rw [← hkept]
      exact .skip hfolds
    have hleft := kept_spliceLiteral candidate value w.graph
    refine .splice (hfirst _ rfl) hread ?_ hfolds
    rcases hspliced with ⟨-, hspliced⟩ | ⟨-, _, hspliced⟩ <;> rwa [hspliced] at hleft

/-! ## Whole sweeps -/

/-- What a sweep does: bypasses first, then folding of the targeted nodes that it has noted. -/
def Swept (target : String) (g h : Graph α) : Prop :=
  ∃ candidates m, Surveyed target g candidates m ∧ Folds m candidates m h

/-- Go through the graph once in insertion order. -/
def survey (settings : Settings) (target : String) (consider : Graph α → NodeId → Checked Bool) :
    Revision α Sweep := do
  let g ← Revision.graph
  g.order.foldlM (visitNode settings target consider g.last?) ⟨0, []⟩

theorem survey_eq_ok (hrun : survey settings target consider w = .ok sweep final) :
    Surveyed target w.graph sweep.candidates final.graph := by
  rw [survey, graph_bind_eq_ok_iff] at hrun
  have hstart : Surveyed target w.graph (Sweep.mk 0 []).candidates w.graph :=
    ⟨.refl, .nil, by simp⟩
  exact foldlM_invariant (fun _ hkept hstep => visitNode_surveyed hkept hstep) hstart hrun

/-- A sweep is a survey, and then folding. -/
theorem sweepContiguous_eq_ok
    (hrun : sweepContiguous settings target consider w = .ok stats final) :
    Swept target w.graph final.graph := by
  change (survey settings target consider >>= _) w = _ at hrun
  obtain ⟨sweep, middle, hsurvey, hrun⟩ := stateBind_eq_ok_iff.1 hrun
  obtain ⟨folded, _, hfolds, hrun⟩ := stateBind_eq_ok_iff.1 hrun
  cases hrun
  rw [foldCandidates, graph_bind_eq_ok_iff] at hfolds
  exact ⟨sweep.candidates, middle.graph, survey_eq_ok hsurvey,
    folds_of_foldlM ((candidateValues_gets _ _ _).imp fun _ _ ⟨_, _, _, hvalue⟩ value heq =>
      ((hvalue value).1 heq).1) hfolds⟩

/-- The elimination is two sweeps. -/
theorem eliminateContiguous_eq_ok (hrun : eliminateContiguous settings target w = .ok stats final) :
    ∃ m, Swept target w.graph m ∧ Swept target m final.graph := by
  obtain ⟨_, middle, hfirst, hrun⟩ := stateBind_eq_ok_iff.1 hrun
  obtain ⟨_, _, hsecond, hrun⟩ := stateBind_eq_ok_iff.1 hrun
  cases hrun
  exact ⟨middle.graph, sweepContiguous_eq_ok hfirst, sweepContiguous_eq_ok hsecond⟩

end Pass

end TensorGraph
