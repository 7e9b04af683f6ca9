import TensorGraph.Proofs.Pass.Speculation

/-!
# When nothing is left to eliminate

Running again is without effect exactly when the graph is exhausted: whatever speculation accepts is
refused when it is tried, and whatever has to stay has no value of its own.
-/

namespace TensorGraph

open List

namespace Pass

open Revision Graph

variable {α : Type} [Scalar α] {g : Graph α} {cause : GraphError}

/-! ## Answers -/

omit [Scalar α] in
theorem saysYes_eq_of_question {question : Revision α Bool} (hquestion : Question question)
    {w w' : Workspace α} (hgraph : w.graph = w'.graph) : question.saysYes w = question.saysYes w' := by
  obtain ⟨answer, hanswer⟩ := hquestion
  unfold saysYes
  rcases hanswer w with ⟨_, _, hrun, -, hgiven⟩ | ⟨_, _, hrun, -, hgiven⟩ <;>
    rcases hanswer w' with ⟨_, _, hrun', -, hgiven'⟩ | ⟨_, _, hrun', -, hgiven'⟩ <;>
    rw [hgraph, hgiven'] at hgiven <;> cases hgiven <;> rw [hrun, hrun']

/-- Speculation always answers, and the answer depends on the graph alone. -/
theorem canRetarget_rests (trace : Bool) (node : NodeId) (inputs : List Shape)
    (modules : List Signature) :
    Rests g (canRetarget trace node inputs modules : Revision α Bool) fun answer =>
      answer = (canRetarget trace node inputs modules : Revision α Bool).saysYes ⟨g, []⟩ := by
  have hanswers : Rests g (canRetarget trace node inputs modules : Revision α Bool)
      fun _ => True := by
    refine .graph_bind (.bind (Question.rests_tryCatch ?_ fun _ => ?_) fun early _ => ?_)
    · exact .bind (acceptsWithin_question trace _ node inputs modules) fun _ => .pure _
    · exact .log_bind (.pure trivial)
    · cases early <;> exact .pure trivial
  intro w hgraph
  obtain ⟨answer, final, hrun, hfinal, -⟩ := hanswers hgraph
  refine ⟨answer, final, hrun, hfinal, ?_⟩
  rw [← saysYes_eq_of_question (canRetarget_question trace node inputs modules) hgraph, saysYes, hrun]

/-! ## Exhausted graphs -/

omit [Scalar α] in
/-- The inputs of these nodes are looked at: they are read, or last, and do not end the graph. -/
def Visited (g : Graph α) (node : NodeId) : Prop :=
  Reads g node ∧ (g.last? = some node ∨ g.hasConsumers node = true)

omit [Scalar α] in
/-- A visited node reads a targeted node, which reads a source. -/
structure Offered (target : String) (g : Graph α) (node arg source : NodeId) : Prop where
  visited : Visited g node
  reads : arg ∈ g.inputs node
  targeted : Targeted target g arg
  first : ∃ rest, g.inputs arg = source :: rest

/-- Speculation on reading past an argument answers with yes. -/
def Speculates (trace : Bool) (g : Graph α) (node arg source : NodeId) : Prop :=
  ∃ instruction shape shapes, g.find? node = some instruction ∧ g.shape source = .ok shape ∧
    shapesWith g node arg shape = .ok shapes ∧
    (canRetarget trace node shapes (signatures instruction.modules)).saysYes ⟨g, []⟩ = true

variable {node arg : NodeId} {h : Graph α}

theorem speculates_iff (trace : Bool) {source : NodeId} {instruction : Stored α}
    {shape : Shape} {shapes : List Shape} (hfound : g.find? node = some instruction)
    (hshape : g.shape source = .ok shape) (hshapes : shapesWith g node arg shape = .ok shapes) :
    Speculates trace g node arg source ↔
      (canRetarget trace node shapes (signatures instruction.modules)).saysYes ⟨g, []⟩ = true := by
  constructor
  · rintro ⟨instruction', shape', shapes', hfound', hshape', hshapes', hyes⟩
    cases hfound.symm.trans hfound'
    cases hshape.symm.trans hshape'
    cases hshapes.symm.trans hshapes'
    exact hyes
  · intro hyes
    exact ⟨instruction, shape, shapes, hfound, hshape, hshapes, hyes⟩

/-- Nothing can be bypassed or folded. -/
structure Exhausted (trace : Bool) (target : String) (g : Graph α) : Prop where
  /-- What speculation accepts is refused when it is tried. -/
  refused : ∀ ⦃node arg source⦄, Offered target g node arg source →
    Speculates trace g node arg source →
    ∃ cause, Edit.replaceArgument node arg source g = .error (.refusal cause) g
  /-- What has to stay has no value of its own. -/
  valueless : ∀ ⦃node arg source⦄, Offered target g node arg source →
    ¬ Speculates trace g node arg source → g.canEval source = .ok true →
    ∀ value, candidateValue g arg ≠ .ok value

/-- A sweep has bypassed nothing so far, and noted only nodes without a value. -/
structure Vain (g : Graph α) (sweep : Sweep) : Prop where
  removed : sweep.removed = 0
  valueless : ∀ candidate ∈ sweep.candidates, ∀ value, candidateValue g candidate ≠ .ok value

section Idle

variable {settings : Settings} {target : String} (hcoherent : g.Coherent)

include hcoherent

variable {node arg : NodeId} {sweep : Sweep} {consider : Graph α → NodeId → Checked Bool}

omit [Scalar α] in
theorem exists_shape_of_mem_inputs {input : NodeId} (hinput : input ∈ g.inputs node) :
    ∃ shape, g.shape input = .ok shape := by
  obtain ⟨instruction, hfound⟩ := exists_find?_of_mem_order (hcoherent.mem_order_of_mem_inputs hinput)
  exact ⟨_, shape_of_find? hfound⟩

omit [Scalar α] in
theorem exists_shapesWith (node changed : NodeId) (shape : Shape) :
    ∃ shapes, shapesWith g node changed shape = .ok shapes := by
  have hall : ∀ input ∈ g.inputs node, ∃ other,
      (if input = changed then .ok shape else g.shape input) = Except.ok other := by
    intro input hinput
    split_ifs
    · exact ⟨shape, rfl⟩
    · exact exists_shape_of_mem_inputs hcoherent hinput
  obtain ⟨shapes, hshapes⟩ := exists_forall₂ hall
  exact ⟨shapes, mapM_eq_ok_iff.2 hshapes⟩

omit hcoherent in
theorem tryBypass_rests {source : NodeId}
    (hrefused : Edit.replaceArgument node arg source g = .error (.refusal cause) g)
    (hvain : Vain g sweep) :
    Rests g (do
      match ← Revision.attempt (Edit.replaceArgument node arg source) with
      | .ok _ => return { sweep with removed := sweep.removed + 1 }
      | .error cause =>
        Revision.warn s!"eliminate_contiguous: {cause.message}"
        return sweep) (Vain g) := by
  have hattempt : Rests g (Revision.attempt (Edit.replaceArgument node arg source))
      (· = .error cause) := by
    rintro w rfl
    refine ⟨.error cause, w, ?_, rfl, rfl⟩
    unfold Revision.attempt
    rw [hrefused]
  refine .bind hattempt ?_
  rintro _ rfl
  exact .log_bind (.pure hvain)

omit hcoherent in
theorem lineOf_rests (hprints : ∀ node ∈ g.order, ∃ line, g.line node = .ok line)
    (hnode : node ∈ g.order) : Rests g (Revision.lineOf node) fun _ => True := by
  obtain ⟨line, hline⟩ := hprints node hnode
  exact .graph_bind (.lift_bind hline (.pure trivial))

variable (hexhausted : Exhausted settings.trace target g)
  (hprints : settings.trace = true → ∀ node ∈ g.order, ∃ line, g.line node = .ok line)

include hexhausted hprints

/-- Visiting an input of an exhausted graph bypasses nothing. -/
theorem visitInput_rests (hvisited : Visited g node) (hreads : arg ∈ g.inputs node)
    (hvain : Vain g sweep) :
    Rests g (visitInput settings target node sweep arg) (Vain g) := by
  obtain ⟨stored, hstored⟩ := exists_find?_of_mem_order (hcoherent.mem_order_of_mem_inputs hreads)
  refine .graph_bind (.lift_bind (op_of_find? hstored) ?_)
  by_cases hname : stored.op.name ≠ target
  · rw [if_pos hname]
    exact .pure hvain
  rw [if_neg hname]
  cases hinputs : g.inputs arg with
  | nil => exact .pure hvain
  | cons source rest =>
    have hsource : source ∈ g.inputs arg := hinputs ▸ mem_cons_self
    have hoffered : Offered target g node arg source :=
      ⟨hvisited, hreads, ⟨stored, hstored, not_not.1 hname⟩, rest, hinputs⟩
    obtain ⟨instruction, hinstruction, -⟩ := exists_find?_of_mem_inputs hreads
    obtain ⟨shape, hshape⟩ := exists_shape_of_mem_inputs hcoherent hsource
    obtain ⟨shapes, hshapes⟩ := exists_shapesWith hcoherent node arg shape
    have hspeculates := speculates_iff settings.trace hinstruction hshape hshapes
    refine .lift_bind (instruction_eq_ok_iff.2 hinstruction) (.lift_bind hshape
      (.lift_bind hshapes (.bind (canRetarget_rests _ _ _ _) fun answer hanswer => ?_)))
    rw [← hanswer] at hspeculates
    cases answer with
    | true =>
      obtain ⟨cause, hrefused⟩ := hexhausted.refused hoffered (hspeculates.2 rfl)
      rw [if_pos rfl]
      by_cases htrace : settings.trace = true
      · rw [if_pos htrace]
        exact .bind (lineOf_rests (hprints htrace) (mem_order_of_find? hstored)) fun _ _ =>
          .log_bind (.bind (lineOf_rests (hprints htrace) (mem_order_of_find? hinstruction))
            fun _ _ => .log_bind (tryBypass_rests hrefused hvain))
      · rw [if_neg htrace]
        exact tryBypass_rests hrefused hvain
    | false =>
      have hdeclined : ¬ Speculates settings.trace g node arg source :=
        fun hyes => Bool.false_ne_true (hspeculates.1 hyes)
      rw [if_neg Bool.false_ne_true]
      have hlive := hcoherent.mem_order_of_mem_inputs hsource
      obtain ⟨before, hbefore⟩ := exists_find?_of_mem_order hlive
      have heval : g.canEval source = .ok ((g.dependencies source).all g.hasOwnValue) :=
        bind_eq_ok_iff.2 ⟨before, instruction_eq_ok_iff.2 hbefore, rfl⟩
      refine .lift_bind heval ?_
      by_cases hnoted : ((g.dependencies source).all g.hasOwnValue &&
          !sweep.candidates.contains arg) = true
      · rw [if_pos hnoted]
        refine .pure ⟨hvain.removed, ?_⟩
        rw [(Bool.and_eq_true_iff.1 hnoted).1] at heval
        intro candidate hcandidate
        rcases mem_append.1 hcandidate with hcandidate | hcandidate
        · exact hvain.valueless candidate hcandidate
        · rw [mem_singleton.1 hcandidate]
          exact hexhausted.valueless hoffered hdeclined heval
      · rw [if_neg hnoted]
        exact .pure hvain

theorem visitNode_rests (hnode : node ∈ g.order)
    (hconsider : ∃ answer, consider g node = .ok answer) (hvain : Vain g sweep) :
    Rests g (visitNode settings target consider g.last? sweep node) (Vain g) := by
  obtain ⟨instruction, hfound⟩ := exists_find?_of_mem_order hnode
  obtain ⟨answer, hanswer⟩ := hconsider
  refine .graph_bind ?_
  rw [Graph.contains_iff.2 hnode]
  refine .lift_bind (op_of_find? hfound) ?_
  by_cases hreturns : instruction.op.isReturns = true
  · rw [if_pos hreturns]
    exact .pure hvain
  rw [if_neg hreturns]
  by_cases hidle : (g.last? != some node && !g.hasConsumers node) = true
  · rw [if_pos hidle]
    exact .pure hvain
  rw [if_neg hidle]
  refine .lift_bind hanswer ?_
  cases answer with
  | false => exact .pure hvain
  | true =>
    have hvisited : Visited g node := by
      refine ⟨⟨instruction.op, op_of_find? hfound, by simpa using hreturns⟩, ?_⟩
      by_contra hneither
      rw [not_or] at hneither
      simp [hneither] at hidle
    refine .foldlM (fun arg harg value hvalue => ?_) hvain
    exact visitInput_rests hcoherent hexhausted hprints hvisited (mem_eraseDups.1 harg) hvalue

omit hcoherent hexhausted hprints in
/-- Candidates without a value are not folded. -/
theorem foldCandidates_rests {candidates : List NodeId}
    (hvalueless : ∀ candidate ∈ candidates, ∀ value, candidateValue g candidate ≠ .ok value) :
    Rests g (foldCandidates settings candidates) (· = 0) := by
  refine .graph_bind (.foldlM ?_ rfl)
  rintro ⟨candidate, value?⟩ hmem _ rfl
  cases value? with
  | ok value =>
    obtain ⟨_, _, _, hvalue⟩ := (forall₂_iff_zip.1 (candidateValues_gets _ _ _)).2 hmem
    exact absurd ((hvalue value).1 rfl).1 (hvalueless candidate (of_mem_zip hmem).1 value)
  | error cause =>
    have hfold : Rests g (foldCandidate settings candidate (.error cause)) (· = 0) :=
      .log_bind (.pure rfl)
    exact .bind hfold fun count hcount => .pure (by rw [hcount])

/-- A sweep through an exhausted graph does nothing. -/
theorem sweepContiguous_rests (hconsider : ∀ node ∈ g.order, ∃ answer, consider g node = .ok answer)
    :
    Rests g (sweepContiguous settings target consider) (· = ⟨0, 0⟩) := by
  have hvisits : Rests g (g.order.foldlM (visitNode settings target consider g.last?) ⟨0, []⟩)
      (Vain g) :=
    .foldlM (fun node hnode _ hvain =>
      visitNode_rests hcoherent hexhausted hprints hnode (hconsider node hnode) hvain) ⟨rfl, by simp⟩
  refine .graph_bind (.bind hvisits fun sweep hvain => ?_)
  refine .bind (foldCandidates_rests hvain.valueless) ?_
  rintro _ rfl
  rw [hvain.removed]
  exact .pure rfl

end Idle

/-! ## Sweeps that did nothing -/

omit [Scalar α] in
/-- A targeted node that depends on embedded values only. -/
structure Embedded (target : String) (g : Graph α) (arg : NodeId) : Prop where
  targeted : Targeted target g arg
  /-- What it reads first depends on embedded values only. -/
  source : ∃ source rest, g.inputs arg = source :: rest ∧ g.canEval source = .ok true

omit [Scalar α] in
/-- Between two points of a sweep nothing was bypassed. -/
structure Idle (target : String) (sweep next : Sweep) (g h : Graph α) : Prop where
  graph : h = g
  removed : next.removed = sweep.removed
  candidates : sweep.candidates ⊆ next.candidates
  /-- Candidates that were noted depend on embedded values only. -/
  embedded : ∀ candidate ∈ next.candidates,
    candidate ∈ sweep.candidates ∨ Embedded target g candidate

omit [Scalar α] in
theorem Idle.of_eq {target : String} (hsame : h = g) (sweep : Sweep) :
    Idle target sweep sweep g h :=
  ⟨hsame, rfl, List.Subset.refl _, fun _ hmem => .inl hmem⟩

omit [Scalar α] in
theorem Idle.trans {target : String} {sweep middle next : Sweep} {k : Graph α}
    (hfirst : Idle target sweep middle g h) (hsecond : Idle target middle next h k) :
    Idle target sweep next g k where
  graph := hsecond.graph.trans hfirst.graph
  removed := hsecond.removed.trans hfirst.removed
  candidates := List.Subset.trans hfirst.candidates hsecond.candidates
  embedded := by
    intro candidate hmem
    rcases hsecond.embedded candidate hmem with hmem | hembedded
    · exact hfirst.embedded candidate hmem
    · exact .inr (hfirst.graph ▸ hembedded)

omit [Scalar α] in
/-- A loop has bypassed something, or was idle and left each item with its property. -/
theorem foldlM_busy_or_idle {ι : Type} {target : String} {step : Sweep → ι → Revision α Sweep}
    (property : Graph α → ι → List NodeId → Prop)
    (hmono : ∀ ⦃g item candidates candidates'⦄, candidates ⊆ candidates' →
      property g item candidates → property g item candidates')
    (hstep : ∀ ⦃item sweep next w final⦄, step sweep item w = .ok next final →
      sweep.removed < next.removed ∨
        Idle target sweep next w.graph final.graph ∧ property w.graph item next.candidates)
    {items : List ι} {sweep next : Sweep} {w final : Workspace α}
    (hrun : items.foldlM step sweep w = .ok next final) :
    sweep.removed < next.removed ∨
      Idle target sweep next w.graph final.graph ∧ ∀ item ∈ items, property w.graph item next.candidates := by
  induction items generalizing sweep w with
  | nil =>
    cases hrun
    exact .inr ⟨.of_eq rfl _, by simp⟩
  | cons item items ih =>
    rw [foldlM_cons] at hrun
    obtain ⟨middle, w', hfirst, hrest⟩ := stateBind_eq_ok_iff.1 hrun
    rcases hstep hfirst with hbusy | ⟨hidle, hitem⟩ <;>
      rcases ih hrest with hbusy' | ⟨hidle', hitems⟩
    · exact .inl (hbusy.trans hbusy')
    · exact .inl (hidle'.removed ▸ hbusy)
    · exact .inl (hidle.removed ▸ hbusy')
    · refine .inr ⟨hidle.trans hidle', ?_⟩
      rw [forall_mem_cons, ← hidle.graph]
      rw [← hidle.graph] at hitem
      exact ⟨hmono hidle'.candidates hitem, hitems⟩

/-- An input was looked at and could not be bypassed. -/
def Declined (trace : Bool) (target : String) (node : NodeId) (g : Graph α) (arg : NodeId)
    (candidates : List NodeId) : Prop :=
  ∀ source, Targeted target g arg → (∃ rest, g.inputs arg = source :: rest) →
    (Speculates trace g node arg source →
      ∃ cause, Edit.replaceArgument node arg source g = .error (.refusal cause) g) ∧
    (¬ Speculates trace g node arg source → g.canEval source = .ok true → arg ∈ candidates)

theorem Declined.mono {trace : Bool} {target : String} {candidates candidates' : List NodeId}
    (hsubset : candidates ⊆ candidates') (hdeclined : Declined trace target node g arg candidates) :
    Declined trace target node g arg candidates' := by
  intro source htargeted hfirst
  obtain ⟨hrefused, hnoted⟩ := hdeclined source htargeted hfirst
  exact ⟨hrefused, fun hno heval => hsubset (hnoted hno heval)⟩

section Busy

variable {settings : Settings} {target : String} {sweep next : Sweep} {w final : Workspace α}

variable {trace answer : Bool} {node arg source candidate : NodeId} {candidates : List NodeId}
  {count : Nat}

theorem Asked.speculates_iff (hasked : Asked trace target w node arg source answer) :
    Speculates trace w.graph node arg source ↔ answer = true := by
  obtain ⟨instruction, shape, shapes, _, hfound, hshape, hshapes, hanswer⟩ := hasked.answered
  obtain ⟨_, _, hanswer', -, hyes⟩ := canRetarget_rests trace node shapes
    (signatures instruction.modules) (show w.graph = w.graph from rfl)
  cases hanswer.symm.trans hanswer'
  rw [Pass.speculates_iff trace hfound hshape hshapes, hyes]

theorem Asked.declined (hasked : Asked trace target w node arg source answer)
    (hyes : answer = true → ∃ cause,
      Edit.replaceArgument node arg source w.graph = .error (.refusal cause) w.graph)
    (hno : answer = false → w.graph.canEval source = .ok true → arg ∈ candidates) :
    Declined trace target node w.graph arg candidates := by
  rintro source' - ⟨rest', hinputs'⟩
  obtain ⟨rest, hinputs⟩ := hasked.first
  cases hinputs.symm.trans hinputs'
  rw [hasked.speculates_iff, Bool.not_eq_true]
  exact ⟨hyes, hno⟩

theorem visitInput_busy_or_idle
    (hrun : visitInput settings target node sweep arg w = .ok next final) :
    sweep.removed < next.removed ∨ Idle target sweep next w.graph final.graph ∧
      Declined settings.trace target node w.graph arg next.candidates := by
  have hends := visitInput_ends hrun
  generalize final.graph = h at hends
  cases hends with
  | other hother =>
    refine .inr ⟨.of_eq rfl _, ?_⟩
    rintro source htargeted ⟨rest, hinputs⟩
    exact absurd hinputs (hother source rest htargeted)
  | bypassed _ _ => exact .inl (Nat.lt_succ_self _)
  | refused hasked hedit =>
    refine .inr ⟨.of_eq rfl _, hasked.declined (fun _ => ⟨_, hedit⟩) nofun⟩
  | noted hasked heval _ =>
    refine .inr ⟨⟨rfl, rfl, subset_append_left _ _, fun candidate hmem => ?_⟩,
      hasked.declined nofun fun _ _ => by simp⟩
    rcases mem_append.1 hmem with hmem | hmem
    · exact .inl hmem
    · obtain rfl := mem_singleton.1 hmem
      obtain ⟨rest, hinputs⟩ := hasked.first
      exact .inr ⟨hasked.targeted, _, rest, hinputs, heval⟩
  | passed hasked hknown =>
    exact .inr ⟨.of_eq rfl _, hasked.declined nofun fun _ => hknown⟩

/-- The inputs of a node were looked at, if it was considered, and could not be bypassed. -/
def Passed (trace : Bool) (target : String) (consider : Graph α → NodeId → Checked Bool)
    (final? : Option NodeId) (g : Graph α) (node : NodeId) (candidates : List NodeId) : Prop :=
  g.last? = final? → node ∈ g.order → Visited g node → consider g node = .ok true →
    ∀ arg ∈ g.inputs node, Declined trace target node g arg candidates

theorem visitNode_busy_or_idle {consider : Graph α → NodeId → Checked Bool} {final? : Option NodeId}
    (hrun : visitNode settings target consider final? sweep node w = .ok next final) :
    sweep.removed < next.removed ∨ Idle target sweep next w.graph final.graph ∧
      Passed settings.trace target consider final? w.graph node next.candidates := by
  rcases visitNode_eq_ok hrun with ⟨rfl, rfl, hskipped⟩ | ⟨-, hvisits⟩
  · refine .inr ⟨.of_eq rfl _, ?_⟩
    rintro rfl hnode ⟨hreads, hread⟩ hconsidered
    exact absurd ⟨hnode, hreads, hread, hconsidered⟩ hskipped
  · rcases foldlM_busy_or_idle (Declined settings.trace target node)
      (fun _ _ _ _ => Declined.mono) (fun _ _ _ _ _ => visitInput_busy_or_idle) hvisits with
      hbusy | ⟨hkept, hinputs⟩
    · exact .inl hbusy
    · exact .inr ⟨hkept, fun _ _ _ _ arg harg => hinputs arg (mem_eraseDups.2 harg)⟩

omit [Scalar α] in
/-- A literal that could not take the place of a candidate stays. -/
theorem size_of_spliceLiteral_refused {value : Tensor α} {h : Graph α}
    (hrun : spliceLiteral candidate value g = .error (.refusal cause) h) :
    h.size = g.size + 1 := by
  have hsize (m : Graph α) (horder : m.order = g.nextId :: g.order) : m.size = g.size + 1 := by
    have hlength := congrArg List.length horder
    rwa [length_cons, order, order, length_map, length_map] at hlength
  rcases stateBind_eq_error_iff.1 hrun with hrun | ⟨literal, m, hliteral, hrun⟩
  · cases addLiteral_eq_ok.symm.trans hrun
  cases addLiteral_eq_ok.symm.trans hliteral
  rcases stateBind_eq_error_iff.1 hrun with hrun | ⟨_, k, hreplaced, hrun⟩
  · rw [Edit.transaction_eq_error hrun]
    exact hsize _ order_addLiteral
  · have horder : k.order = g.nextId :: g.order :=
      @replaceInstruction_invariant _ _ (fun m => m.order = g.nextId :: g.order) _ _ _
        (fun hkept hstep => (reroute_order hstep).trans hkept) order_addLiteral hreplaced
    rw [Edit.remove, stateGet_bind] at hrun
    cases hremoved : k.remove candidate with
    | ok m =>
      rw [hremoved] at hrun
      cases hrun
    | error stop =>
      rw [hremoved] at hrun
      cases hrun
      exact hsize _ horder

/-- Folding a candidate counts it, or adds a node, or leaves the graph alone because the candidate has
no value or is not read. -/
theorem foldCandidate_busy_or_idle {value? : Except EvalError (Tensor α)}
    (hrun : foldCandidate settings candidate value? w = .ok count final) :
    0 < count ∨ count = 0 ∧ (w.graph.size < final.graph.size ∨ final.graph = w.graph ∧
      (w.graph.hasConsumers candidate = true → ∀ value, value? ≠ .ok value)) := by
  rcases foldCandidate_eq_ok hrun with ⟨hnone, hidle⟩ | ⟨value, -, -, ⟨rfl, -⟩ | ⟨hnone, cause, hrefused⟩⟩
  · exact .inr ⟨hnone, .inr hidle⟩
  · exact .inl Nat.one_pos
  · rw [size_of_spliceLiteral_refused hrefused]
    exact .inr ⟨hnone, .inl (Nat.lt_succ_self _)⟩

theorem foldlM_foldCandidate_busy_or_idle {items : List (NodeId × Except EvalError (Tensor α))}
    {start : Nat} (hrun : (items.foldlM (fun folded (candidate, value?) =>
      return folded + (← foldCandidate settings candidate value?)) start : Revision α Nat) w =
        .ok count final) :
    start < count ∨ start = count ∧ (w.graph.size < final.graph.size ∨
      final.graph = w.graph ∧ ∀ item ∈ items,
        w.graph.hasConsumers item.1 = true → ∀ value, item.2 ≠ .ok value) := by
  induction items generalizing start w with
  | nil =>
    cases hrun
    exact .inr ⟨rfl, .inr ⟨rfl, by simp⟩⟩
  | cons item items ih =>
    rw [foldlM_cons] at hrun
    obtain ⟨next, middle, hfirst, hrest⟩ := stateBind_eq_ok_iff.1 hrun
    obtain ⟨added, _, hfold, hreturned⟩ := stateBind_eq_ok_iff.1 hfirst
    cases hreturned
    rcases ih hrest with hbusy | ⟨hcount, hlater⟩
    · exact .inl ((Nat.le_add_right _ _).trans_lt hbusy)
    rcases foldCandidate_busy_or_idle hfold with hbusy | ⟨hnone, hstep⟩
    · exact .inl (by omega)
    refine .inr ⟨by omega, ?_⟩
    rcases hstep with hgrown | ⟨hsame, hitem⟩ <;> rcases hlater with hgrown' | ⟨hsame', hitems⟩
    · exact .inl (hgrown.trans hgrown')
    · exact .inl (hsame' ▸ hgrown)
    · exact .inl (hsame ▸ hgrown')
    · rw [forall_mem_cons]
      rw [hsame] at hsame' hitems
      exact .inr ⟨hsame', hitem, hitems⟩

end Busy

/-- Evaluating a node that depends on embedded values only meets no fault. -/
def Faultless (target : String) (g : Graph α) : Prop :=
  ∀ ⦃arg⦄, Embedded target g arg → ∀ cause, candidateValue g arg ≠ .error (.fault cause)

/-- A sweep that counts nothing has added a node, or left the graph alone: then no considered input
could be bypassed, and no candidate has a value. -/
theorem sweep_grown_or_idle {settings : Settings} {target : String}
    {consider : Graph α → NodeId → Checked Bool} {w final : Workspace α}
    (hrun : sweepContiguous settings target consider w = .ok ⟨0, 0⟩ final) :
    w.graph.size < final.graph.size ∨ final.graph = w.graph ∧ ∃ candidates,
      (∀ candidate ∈ candidates, Embedded target w.graph candidate) ∧
      (∀ node ∈ w.graph.order, Passed settings.trace target consider w.graph.last? w.graph node
        candidates) ∧
      ∀ item ∈ candidates.zip (candidateValues settings.workers w.graph candidates),
        w.graph.hasConsumers item.1 = true → ∀ value, item.2 ≠ .ok value := by
  rw [sweepContiguous, graph_bind_eq_ok_iff] at hrun
  obtain ⟨sweep, middle, hvisits, hrun⟩ := stateBind_eq_ok_iff.1 hrun
  obtain ⟨folded, _, hfolds, hrun⟩ := stateBind_eq_ok_iff.1 hrun
  obtain ⟨hstats, rfl⟩ := EStateM.Result.ok.inj hrun
  obtain ⟨hremoved, rfl⟩ := EliminationStats.mk.inj hstats
  obtain ⟨hidle, hpassed⟩ := (foldlM_busy_or_idle
    (Passed settings.trace target consider w.graph.last?)
    (fun _ _ _ _ hsubset hpassed hlast hnode hvisited hconsidered arg harg =>
      (hpassed hlast hnode hvisited hconsidered arg harg).mono hsubset)
    (fun _ _ _ _ _ => visitNode_busy_or_idle) hvisits).resolve_left (by simp [hremoved])
  rw [foldCandidates, graph_bind_eq_ok_iff] at hfolds
  have hfolded := ((foldlM_foldCandidate_busy_or_idle hfolds).resolve_left (Nat.lt_irrefl 0)).2
  rw [hidle.graph] at hfolded
  refine hfolded.imp_right fun hrest =>
    ⟨hrest.1, sweep.candidates, fun candidate hcandidate => ?_, hpassed, hrest.2⟩
  exact (hidle.embedded candidate hcandidate).resolve_left (by simp)

/-- A full sweep that did nothing has shown that the graph is exhausted. -/
theorem exhausted_of_sweep {settings : Settings} {target : String} {w final : Workspace α}
    (hfaultless : Faultless target w.graph)
    (hrun : sweepContiguous settings target (fun _ _ => .ok true) w = .ok ⟨0, 0⟩ final)
    (hkept : final.graph = w.graph) : Exhausted settings.trace target w.graph := by
  obtain ⟨-, candidates, hembedded, hpassed, hvalues⟩ :=
    (sweep_grown_or_idle hrun).resolve_left (by rw [hkept]; exact Nat.lt_irrefl _)
  have hdeclined {node arg source : NodeId} (hoffered : Offered target w.graph node arg source) :
      Declined settings.trace target node w.graph arg candidates := by
    obtain ⟨op, hop, -⟩ := hoffered.visited.1
    obtain ⟨stored, hstored, -⟩ := op_eq_ok_iff.1 hop
    have hnode := mem_order_of_find? hstored
    exact hpassed node hnode rfl hnode hoffered.visited rfl arg hoffered.reads
  refine ⟨fun node arg source hoffered => ?_, fun node arg source hoffered hno heval value hvalue => ?_⟩
  · exact (hdeclined hoffered source hoffered.targeted hoffered.first).1
  · have hnoted := (hdeclined hoffered source hoffered.targeted hoffered.first).2 hno heval
    have hgets := candidateValues_gets settings.workers w.graph candidates
    have hall := forall₂_iff_zip.2 ⟨hgets.length_eq, fun hmem =>
      And.intro ((forall₂_iff_zip.1 hgets).2 hmem) (hvalues _ hmem)⟩
    obtain ⟨value?, -, ⟨run, hrun, -, hvalue?⟩, hnone⟩ := exists_mem_right_of_forall₂ hall hnoted
    refine hnone ?_ value ((hvalue? value).2 ⟨hvalue, fun other hother =>
      hfaultless (hembedded other ?_)⟩)
    · obtain ⟨stored, hstored, hreads⟩ := exists_find?_of_mem_inputs hoffered.reads
      exact any_eq_true.2 ⟨_, mem_nodes_of_find? hstored, by simpa using hreads⟩
    · rw [← flatten_shares settings.workers candidates]
      exact mem_flatten_of_mem hrun hother

omit [Scalar α] in
theorem exists_isEarly (hnode : node ∈ g.order) :
    ∃ answer, isEarly g node = .ok answer := by
  obtain ⟨stored, hstored⟩ := exists_find?_of_mem_order hnode
  unfold isEarly
  rw [op_of_find? hstored]
  by_cases hname : stored.op.name ≠ "slice"
  · exact ⟨true, if_pos hname⟩
  · rw [ok_bind, if_neg hname]
    cases g.inputs node with
    | nil => exact ⟨true, rfl⟩
    | cons source rest => exact ⟨_, rfl⟩

end Pass

/-- When running the elimination again is without effect: exactly if the graph that it left is
exhausted. It is if the second sweep did nothing. -/
theorem eliminateContiguous_again_iff {α : Type} [Scalar α] {g : Graph α} (hcoherent : g.Coherent)
    (hordered : g.Ordered) {settings : Settings} {log : List LogLine}
    {stats : Pass.EliminationStats} {w : Workspace α}
    (hpass : Pass.eliminateContiguous settings "contiguous" ⟨g, log⟩ = .ok stats w)
    (hfaultless : Pass.Faultless "contiguous" w.graph)
    (hprints : settings.trace = true → ∀ node ∈ w.graph.order, ∃ line, w.graph.line node = .ok line) :
    ((∃ w', Pass.eliminateContiguous settings "contiguous" w = .ok ⟨0, 0⟩ w' ∧ w'.graph = w.graph) ↔
      Pass.Exhausted settings.trace "contiguous" w.graph) ∧
    ∀ first middle, Pass.sweepContiguous settings "contiguous" Pass.isEarly ⟨g, log⟩ =
        .ok first middle →
      Pass.sweepContiguous settings "contiguous" (fun _ _ => .ok true) middle = .ok ⟨0, 0⟩ w →
      w.graph = middle.graph → Pass.Exhausted settings.trace "contiguous" w.graph := by
  obtain ⟨m, hfirst, hsecond⟩ := Pass.eliminateContiguous_eq_ok hpass
  obtain ⟨hcoherent', hordered'⟩ :=
    Pass.coherent_ordered_of_moves (hfirst.moves hcoherent hordered) hcoherent hordered
  obtain ⟨hcoherent'', -⟩ :=
    Pass.coherent_ordered_of_moves (hsecond.moves hcoherent' hordered') hcoherent' hordered'
  refine ⟨⟨?_, fun hexhausted => ?_⟩, fun first middle _ hsweep hkept => ?_⟩
  · rintro ⟨w', hagain, hkept⟩
    obtain ⟨early, middle, hearly, hagain⟩ := stateBind_eq_ok_iff.1 hagain
    obtain ⟨full, _, hfull, hagain⟩ := stateBind_eq_ok_iff.1 hagain
    obtain ⟨hstats, rfl⟩ := EStateM.Result.ok.inj hagain
    obtain ⟨hremoved, hfolded⟩ := Pass.EliminationStats.mk.inj hstats
    obtain ⟨removed, folded⟩ := early
    obtain ⟨removed', folded'⟩ := full
    obtain ⟨rfl, rfl⟩ := Nat.add_eq_zero_iff.1 hremoved
    obtain ⟨rfl, rfl⟩ := Nat.add_eq_zero_iff.1 hfolded
    -- A node that one sweep adds the other one does not take out again.
    have hsame : middle.graph = w.graph := by
      rcases Pass.sweep_grown_or_idle hearly with hgrown | ⟨hsame, -⟩
      · rcases Pass.sweep_grown_or_idle hfull with hgrown' | ⟨hsame', -⟩
        · exact absurd (hgrown.trans hgrown') (by rw [hkept]; exact Nat.lt_irrefl _)
        · rw [← hsame', hkept] at hgrown
          exact absurd hgrown (Nat.lt_irrefl _)
      · exact hsame
    rw [← hsame] at hfaultless hkept ⊢
    exact Pass.exhausted_of_sweep hfaultless hfull hkept
  · have hearly := Pass.sweepContiguous_rests hcoherent'' hexhausted hprints
      fun node hnode => Pass.exists_isEarly hnode
    have hfull : Revision.Rests w.graph
        (Pass.sweepContiguous settings "contiguous" fun _ _ => .ok true) (· = ⟨0, 0⟩) :=
      Pass.sweepContiguous_rests hcoherent'' hexhausted hprints fun node _ => ⟨true, rfl⟩
    have hboth : Revision.Rests w.graph
        (Pass.eliminateContiguous settings "contiguous" : Revision α _) (· = ⟨0, 0⟩) := by
      refine .bind hearly fun early hnone => .bind hfull fun full hnone' => ?_
      rw [hnone, hnone']
      exact .pure rfl
    obtain ⟨_, w', hagain, hkept, rfl⟩ := hboth rfl
    exact ⟨w', hagain, hkept⟩
  · rw [hkept] at hfaultless ⊢
    exact Pass.exhausted_of_sweep hfaultless hsweep hkept

/-! ## A run after which nothing is left -/

/-- A transposed matrix in the standard layout, flattened and summed up by columns. -/
def flattenedAndSummed : Graph Float32 :=
  ⟨"",
    [(0, ⟨.parameter "a" (.strided .float32 [⟨2, 3⟩, ⟨3, 1⟩]),
       .strided .float32 [⟨2, 3⟩, ⟨3, 1⟩], [], []⟩),
     (1, ⟨.transpose [1, 0], .strided .float32 [⟨3, 1⟩, ⟨2, 3⟩], [0], []⟩),
     (2, ⟨.contiguous, .strided .float32 [⟨3, 2⟩, ⟨2, 1⟩], [1], []⟩),
     (3, ⟨.reshape [6], .strided .float32 [⟨6, 1⟩], [2], []⟩),
     (4, ⟨.reduceSum [0], .strided .float32 [⟨1, 2⟩, ⟨2, 1⟩], [2], []⟩),
     (5, ⟨.returns, .ofParts [.strided .float32 [⟨6, 1⟩], .strided .float32 [⟨1, 2⟩, ⟨2, 1⟩]], [3, 4],
       []⟩)],
    [], 6⟩

/-- The sum reads past the forced layout, the flattened matrix cannot. -/
def flattenedAndBypassed : Graph Float32 :=
  ⟨"",
    [(0, ⟨.parameter "a" (.strided .float32 [⟨2, 3⟩, ⟨3, 1⟩]),
       .strided .float32 [⟨2, 3⟩, ⟨3, 1⟩], [], []⟩),
     (1, ⟨.transpose [1, 0], .strided .float32 [⟨3, 1⟩, ⟨2, 3⟩], [0], []⟩),
     (2, ⟨.contiguous, .strided .float32 [⟨3, 2⟩, ⟨2, 1⟩], [1], []⟩),
     (3, ⟨.reshape [6], .strided .float32 [⟨6, 1⟩], [2], []⟩),
     (4, ⟨.reduceSum [0], .strided .float32 [⟨1, 2⟩, ⟨2, 1⟩], [1], []⟩),
     (5, ⟨.returns, .ofParts [.strided .float32 [⟨6, 1⟩], .strided .float32 [⟨1, 2⟩, ⟨2, 1⟩]], [3, 4],
       []⟩)],
    [], 6⟩

theorem again_flattenedAndBypassed :
    Pass.eliminateContiguous ⟨false, 1, false⟩ "contiguous" ⟨flattenedAndSummed, []⟩ =
      .ok ⟨1, 0⟩ ⟨flattenedAndBypassed, []⟩ ∧
    (∃ w', Pass.eliminateContiguous ⟨false, 1, false⟩ "contiguous" ⟨flattenedAndBypassed, []⟩ =
      .ok ⟨0, 0⟩ w' ∧ w'.graph = flattenedAndBypassed) ∧
    Pass.Exhausted false "contiguous" flattenedAndBypassed := by
  have hpass : Pass.eliminateContiguous ⟨false, 1, false⟩ "contiguous" ⟨flattenedAndSummed, []⟩ =
      .ok ⟨1, 0⟩ ⟨flattenedAndBypassed, []⟩ := by rfl
  have hagain : ∃ w', Pass.eliminateContiguous ⟨false, 1, false⟩ "contiguous"
      ⟨flattenedAndBypassed, []⟩ = .ok ⟨0, 0⟩ w' ∧ w'.graph = flattenedAndBypassed :=
    ⟨⟨flattenedAndBypassed, []⟩, by rfl, rfl⟩
  have hfaultless : Pass.Faultless "contiguous" flattenedAndBypassed := by
    rintro arg ⟨⟨stored, hfound, hname⟩, source, rest, hinputs, heval⟩
    have hmem := Graph.mem_nodes_of_find? hfound
    simp only [flattenedAndBypassed, mem_cons, not_mem_nil, or_false, Prod.mk.injEq] at hmem
    rcases hmem with ⟨rfl, rfl⟩ | ⟨rfl, rfl⟩ | ⟨rfl, rfl⟩ | ⟨rfl, rfl⟩ | ⟨rfl, rfl⟩ | ⟨rfl, rfl⟩
    case inr.inr.inl =>
      cases hinputs
      exact absurd heval (by decide)
    all_goals exact absurd hname (by decide)
  exact ⟨hpass, hagain, (eliminateContiguous_again_iff (by decide) (by decide) hpass hfaultless
    (by simp)).1.1 hagain⟩

/-! ## Bypasses that wait for each other -/

/-- Three rearrangements of a cube through the standard layout, and the sums of neighbours. The layout
of a sum is the first of the layouts of its parts, so the first rearrangement has to wait for the
second one, and that one for the third. -/
def neighbours : List (Command Float32) :=
  [.parameter "a" (.strided .float32 [⟨2, 4⟩, ⟨2, 2⟩, ⟨2, 1⟩]),
   .add (.transpose [1, 2, 0]) [0] [], .add .contiguous [1] [], .add (.transpose [0, 2, 1]) [2] [],
   .add (.transpose [2, 0, 1]) [0] [], .add .contiguous [4] [], .add (.transpose [1, 0, 2]) [5] [],
   .add (.transpose [1, 0, 2]) [0] [], .add .contiguous [7] [], .add (.transpose [1, 0, 2]) [8] [],
   .add (.binary .add) [3, 6] [], .add (.binary .add) [6, 9] [], .returns [10, 11]]

/-- What a second run counts in the graph that commands build, if its nodes are in order. -/
def countsAgain (commands : List (Command Float32)) : Option Pass.EliminationStats :=
  match Command.history "" commands with
  | .error _ => none
  | .ok g =>
    if g.Ordered then
      match Pass.eliminateContiguous ⟨false, 1, false⟩ "contiguous" ⟨g, []⟩ with
      | .ok _ w =>
        match Pass.eliminateContiguous ⟨false, 1, false⟩ "contiguous" w with
        | .ok stats _ => some stats
        | .error _ _ => none
      | .error _ _ => none
    else none

theorem exists_of_countsAgain {commands : List (Command Float32)} {again : Pass.EliminationStats}
    (hcounts : countsAgain commands = some again) :
    ∃ (g : Graph Float32) (stats : Pass.EliminationStats) (w w' : Workspace Float32),
      g.Coherent ∧ g.Ordered ∧
      Pass.eliminateContiguous ⟨false, 1, false⟩ "contiguous" ⟨g, []⟩ = .ok stats w ∧
      Pass.eliminateContiguous ⟨false, 1, false⟩ "contiguous" w = .ok again w' := by
  unfold countsAgain at hcounts
  split at hcounts
  · cases hcounts
  · rename_i g hhistory
    split_ifs at hcounts with hordered
    split at hcounts
    · rename_i stats w hpass
      split at hcounts
      · rename_i stats' w' hagain
        cases hcounts
        exact ⟨g, stats, w, w', history_coherent hhistory, hordered, hpass, hagain⟩
      · cases hcounts
    · cases hcounts

/-- Running the elimination again need not be without effect. -/
theorem not_eliminateContiguous_idempotent :
    ¬ ∀ (g : Graph Float32) (settings : Settings) (log : List LogLine)
      (stats : Pass.EliminationStats) (w : Workspace Float32), g.Coherent → g.Ordered →
      Pass.eliminateContiguous settings "contiguous" ⟨g, log⟩ = .ok stats w →
      ∃ w', Pass.eliminateContiguous settings "contiguous" w = .ok ⟨0, 0⟩ w' ∧
        w'.graph = w.graph := by
  intro hclaim
  have hcounts : countsAgain neighbours = some ⟨1, 0⟩ := by decide +kernel
  obtain ⟨g, stats, w, w', hcoherent, hordered, hpass, hagain⟩ := exists_of_countsAgain hcounts
  obtain ⟨w'', hidle, -⟩ := hclaim _ _ _ _ _ hcoherent hordered hpass
  cases hagain.symm.trans hidle

end TensorGraph
