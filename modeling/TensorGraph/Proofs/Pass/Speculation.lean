import TensorGraph.Proofs.Pass.Reinference

/-!
# What speculation foresees

The replacement that is speculated on succeeds after a positive answer, unless two changed inputs meet in
a node, or something below a node that has become standard refuses. `Revised` gives every node the shape
that it has once everything above it is up to date.
-/

namespace TensorGraph

open Graph List

variable {α : Type} {shapes : List Shape} {instruction : Stored α}

/-- Whether a question about a workspace is answered with yes. -/
def Revision.saysYes (question : Revision α Bool) (w : Workspace α) : Bool :=
  match question w with
  | .ok answer _ => answer
  | .error _ _ => false

theorem Revision.exists_of_saysYes {question : Revision α Bool} {w : Workspace α}
    (hyes : question.saysYes w = true) : ∃ final, question w = .ok true final := by
  unfold saysYes at hyes
  cases hrun : question w with
  | ok answer final =>
    rw [hrun] at hyes
    obtain rfl : answer = true := hyes
    exact ⟨final, rfl⟩
  | error cause final =>
    rw [hrun] at hyes
    cases hyes

namespace Pass

/-! ## Revised shapes -/

/-- What a node reads after an argument of one node was pointed at another node. -/
def rewired (g : Graph α) (node arg source other : NodeId) : List NodeId :=
  if other = node then Edit.redirect arg source (g.inputs other) else g.inputs other

/-- The shape of a node once everything above it is up to date. -/
inductive Revised (g : Graph α) (node arg source : NodeId) : NodeId → Shape → Prop
  | infer {other : NodeId} {instruction : Instruction α (Graph α)} {shapes : List Shape}
      {shape : Shape} (hfound : g.find? other = some instruction)
      (hlength : (rewired g node arg source other).length = shapes.length)
      (hshapes : ∀ {input s}, (input, s) ∈ (rewired g node arg source other).zip shapes →
        Revised g node arg source input s)
      (hinfer : instruction.op.infer shapes (signatures instruction.modules) = .ok shape) :
      Revised g node arg source other shape

/-- A node whose revised shape is not the cached one. -/
def Moved (g : Graph α) (node arg source other : NodeId) : Prop :=
  ∃ shape, Revised g node arg source other shape ∧ g.shape other ≠ .ok shape

section Revised

variable {g : Graph α} {node arg source other : NodeId} {shape : Shape}

theorem Revised.of_forall₂ (hfound : g.find? other = some instruction)
    (hshapes : Forall₂ (Revised g node arg source) (rewired g node arg source other) shapes)
    (hinfer : instruction.op.infer shapes (signatures instruction.modules) = .ok shape) :
    Revised g node arg source other shape := by
  obtain ⟨hlength, hzip⟩ := forall₂_iff_zip.1 hshapes
  exact .infer hfound hlength hzip hinfer

theorem Revised.exists_shapes (hrevised : Revised g node arg source other shape) :
    ∃ instruction shapes, g.find? other = some instruction ∧
      Forall₂ (Revised g node arg source) (rewired g node arg source other) shapes ∧
      instruction.op.infer shapes (signatures instruction.modules) = .ok shape := by
  cases hrevised with
  | infer hfound hlength hshapes hinfer =>
    exact ⟨_, _, hfound, forall₂_iff_zip.2 ⟨hlength, hshapes⟩, hinfer⟩

/-- A node has no second revised shape. -/
theorem Revised.unique {shape' : Shape} (hrevised : Revised g node arg source other shape)
    (hrevised' : Revised g node arg source other shape') : shape = shape' := by
  induction hrevised generalizing shape' with
  | @infer other instruction shapes shape hfound hlength _ hinfer ih =>
    obtain ⟨_, shapes', hfound', hshapes', hinfer'⟩ := hrevised'.exists_shapes
    cases hfound.symm.trans hfound'
    rw [eq_of_forall₂ (forall₂_iff_zip.2 ⟨hlength, fun hmem _ => ih hmem⟩) hshapes'] at hinfer
    exact Except.ok.inj (hinfer.symm.trans hinfer')

end Revised

/-! ## What lies above the replacement -/

section Above

variable {g : Graph α} {node arg source : NodeId} (hcoherent : g.Coherent) (hacyclic : g.Acyclic)
  {input : NodeId}

include hacyclic in
/-- What a node reads is not computed from it. -/
theorem not_feeds_input (hinput : input ∈ g.inputs node) : ¬ Feeds g node input :=
  fun hfeeds => hacyclic node (.tail' hfeeds hinput)

include hcoherent hacyclic

/-- A node that is not computed from the reader keeps its shape. -/
theorem revised_of_not_feeds {other : NodeId} (hlive : other ∈ g.order)
    (hunfed : ¬ Feeds g node other) :
    ∃ shape, g.shape other = .ok shape ∧ Revised g node arg source other shape := by
  induction other using (hacyclic.wellFounded hcoherent.mem_order_of_mem_inputs).induction with
  | _ other ih =>
    obtain ⟨instruction, hfound⟩ := exists_find?_of_mem_order hlive
    obtain ⟨shapes, hshapes, hinfer⟩ := hcoherent.settled _ _ hfound
    have hne : other ≠ node := by
      rintro rfl
      exact hunfed .refl
    refine ⟨instruction.shape, shape_of_find? hfound, .of_forall₂ hfound ?_ hinfer⟩
    rw [rewired, if_neg hne, inputs_of_find? hfound]
    refine forall₂_imp_mem (shapes_eq_ok_iff.1 hshapes) fun input hinput shape hshape => ?_
    rw [← inputs_of_find? hfound] at hinput
    obtain ⟨stored, hstored, -⟩ := shape_eq_ok_iff.1 hshape
    obtain ⟨shape', hshape', hrevised⟩ := ih input hinput (mem_order_of_find? hstored)
      fun hfeeds => hunfed (hfeeds.tail hinput)
    cases hshape.symm.trans hshape'
    exact hrevised

variable (hreads : arg ∈ g.inputs node) (hsource : source ∈ g.inputs arg)

include hreads hsource

/-- Nothing that the reader reads afterwards has moved. -/
theorem revised_of_mem_rewired (hinput : input ∈ rewired g node arg source node) :
    ∃ shape, g.shape input = .ok shape ∧ Revised g node arg source input shape := by
  rw [rewired, if_pos rfl, Edit.redirect, mem_map] at hinput
  obtain ⟨before, hbefore, rfl⟩ := hinput
  split_ifs
  · apply revised_of_not_feeds hcoherent hacyclic (hcoherent.mem_order_of_mem_inputs hsource)
    intro hfeeds
    exact not_feeds_input hacyclic hreads (hfeeds.tail hsource)
  · exact revised_of_not_feeds hcoherent hacyclic (hcoherent.mem_order_of_mem_inputs hbefore)
      (not_feeds_input hacyclic hbefore)

theorem not_moved_of_mem_rewired (hinput : input ∈ rewired g node arg source node) :
    ¬ Moved g node arg source input := by
  rintro ⟨shape, hrevised, hmoved⟩
  obtain ⟨shape', hshape', hrevised'⟩ :=
    revised_of_mem_rewired hcoherent hacyclic hreads hsource hinput
  rw [hrevised.unique hrevised'] at hmoved
  exact hmoved hshape'

end Above

/-! ## What speculation covers -/

section Coverage

variable {other : NodeId}

/-- A node and everything below it accept other input shapes. Only an unchanged shape ends a path,
and the last node of a path need not be read. -/
inductive Tolerates (g : Graph α) : NodeId → List Shape → Prop
  | intro {node : NodeId} {inputs : List Shape} {instruction : Instruction α (Graph α)}
      {shape : Shape} {below : NodeId → List Shape} (hfound : g.find? node = some instruction)
      (hinfer : instruction.op.infer inputs (signatures instruction.modules) = .ok shape)
      (hbelow : shape ≠ instruction.shape → ∀ consumer ∈ g.consumers node,
        shapesWith g consumer node shape = .ok (below consumer))
      (htolerates : shape ≠ instruction.shape → ∀ consumer ∈ g.consumers node,
        Tolerates g consumer (below consumer)) : Tolerates g node inputs

/-- Speculation on a replacement looks at everything that the replacement changes: changes do not
meet, and whatever reads a node that has become standard goes along with it. -/
structure Foreseen (g : Graph α) (node arg source : NodeId) : Prop where
  apart : ∀ ⦃other first second⦄, first ∈ g.inputs other → second ∈ g.inputs other →
    Moved g node arg source first → Moved g node arg source second → first = second
  /-- Below a node that has become standard nothing refuses. -/
  below : ∀ ⦃other shape⦄, Revised g node arg source other shape → g.shape other ≠ .ok shape →
    shape.isStandard = .ok true → ∀ consumer ∈ g.consumers other, ∃ shapes,
      shapesWith g consumer other shape = .ok shapes ∧ Tolerates g consumer shapes

/-- A node has a revised shape, and if it moves its readers were asked about it. -/
def Covered (g : Graph α) (node arg source other : NodeId) : Prop :=
  ∃ shape, Revised g node arg source other shape ∧ (g.shape other ≠ .ok shape →
    ∀ consumer ∈ g.consumers other, ∃ shapes, shapesWith g consumer other shape = .ok shapes ∧
      (Accepts g consumer shapes ∨ Tolerates g consumer shapes))

variable {g : Graph α} {node arg source : NodeId} (hforeseen : Foreseen g node arg source)

include hforeseen in
/-- A node that was asked about the shapes it will read is covered. -/
theorem covered_of_asked
    (hshapes : Forall₂ (Revised g node arg source) (rewired g node arg source other) shapes)
    (hasked : Accepts g other shapes ∨ Tolerates g other shapes) :
    Covered g node arg source other := by
  rcases hasked with haccepts | htolerates
  · cases haccepts with
    | @settles _ _ instruction shape hfound hinfer hsettled =>
      have hrevised : Revised g node arg source other shape := .of_forall₂ hfound hshapes hinfer
      refine ⟨shape, hrevised, fun hmoved consumer hconsumer => ?_⟩
      rcases hsettled with hstandard | rfl
      · obtain ⟨below, hbelow, htolerates⟩ :=
          hforeseen.below hrevised hmoved hstandard consumer hconsumer
        exact ⟨below, hbelow, .inr htolerates⟩
      · exact absurd (shape_of_find? hfound) hmoved
    | passes hfound hinfer _ hbelow haccepts =>
      exact ⟨_, .of_forall₂ hfound hshapes hinfer, fun _ consumer hconsumer =>
        ⟨_, hbelow consumer hconsumer, .inl (haccepts consumer hconsumer)⟩⟩
  · cases htolerates with
    | @intro _ _ instruction shape _ hfound hinfer hbelow htolerates =>
      refine ⟨shape, .of_forall₂ hfound hshapes hinfer, fun hmoved consumer hconsumer => ?_⟩
      have hne : shape ≠ instruction.shape := fun heq =>
        hmoved (shape_eq_ok_iff.2 ⟨_, hfound, heq.symm⟩)
      exact ⟨_, hbelow hne consumer hconsumer, .inr (htolerates hne consumer hconsumer)⟩

include hforeseen in
/-- A node that does not read the replaced argument is covered when its inputs are: at most one of
them has moved, and then its readers were asked about it. -/
theorem covered_of_inputs (hcoherent : g.Coherent) (hlive : other ∈ g.order) (hne : other ≠ node)
    (hinputs : ∀ input ∈ g.inputs other, Covered g node arg source input) :
    Covered g node arg source other := by
  obtain ⟨instruction, hfound⟩ := exists_find?_of_mem_order hlive
  obtain ⟨shapes, hshapes, hinfer⟩ := hcoherent.settled _ _ hfound
  choose! revise hrevise hasked using hinputs
  have hall : Forall₂ (Revised g node arg source) (rewired g node arg source other)
      ((g.inputs other).map revise) := by
    rw [rewired, if_neg hne, forall₂_map_right_iff, forall₂_same]
    exact hrevise
  by_cases hmoved : ∃ input ∈ g.inputs other, Moved g node arg source input
  · obtain ⟨input, hinput, shape, hrevised, hchanged⟩ := hmoved
    obtain rfl := hrevised.unique (hrevise input hinput)
    have hreads : other ∈ g.consumers input :=
      mem_consumers_of_find? hfound (inputs_of_find? hfound ▸ hinput)
    obtain ⟨below, hbelow, hasked⟩ := hasked input hinput hchanged other hreads
    have hsame : shapesWith g other input (revise input) = .ok ((g.inputs other).map revise) := by
      rw [shapesWith, mapM_eq_ok_iff, forall₂_map_right_iff, forall₂_same]
      intro second hsecond
      by_cases heq : second = input
      · rw [if_pos heq, heq]
      · rw [if_neg heq]
        by_contra hchanged'
        exact heq (hforeseen.apart hsecond hinput ⟨_, hrevise second hsecond, hchanged'⟩
          ⟨_, hrevised, hchanged⟩)
    cases hbelow.symm.trans hsame
    exact covered_of_asked hforeseen hall hasked
  · have hkept : g.shapes (g.inputs other) = .ok ((g.inputs other).map revise) := by
      rw [shapes_eq_ok_iff, forall₂_map_right_iff, forall₂_same]
      intro input hinput
      by_contra hchanged
      exact hmoved ⟨input, hinput, _, hrevise input hinput, hchanged⟩
    rw [inputs_of_find? hfound] at hkept
    cases hshapes.symm.trans hkept
    rw [inputs_of_find? hfound] at hall
    refine ⟨instruction.shape, .of_forall₂ hfound hall hinfer, fun hmoved => ?_⟩
    exact absurd (shape_of_find? hfound) hmoved

include hforeseen in
/-- After a positive answer every node of the graph is covered. -/
theorem covered_of_accepts (hcoherent : g.Coherent) (hacyclic : g.Acyclic)
    (hreads : arg ∈ g.inputs node) (hsource : source ∈ g.inputs arg) {shape : Shape}
    (hshape : g.shape source = .ok shape)
    (hshapes : shapesWith g node arg shape = .ok shapes) (haccepts : Accepts g node shapes)
    (hlive : other ∈ g.order) : Covered g node arg source other := by
  induction other using (hacyclic.wellFounded hcoherent.mem_order_of_mem_inputs).induction with
  | _ other ih =>
    by_cases hne : other = node
    · subst hne
      refine covered_of_asked hforeseen ?_ (.inl haccepts)
      have hinputs : Forall₂ (fun input shape => g.shape input = .ok shape)
          (rewired g other arg source other) shapes := by
        rw [rewired, if_pos rfl, Edit.redirect, forall₂_map_left_iff]
        refine (mapM_eq_ok_iff.1 hshapes).imp fun input shape' hshape' => ?_
        split_ifs at hshape' ⊢
        · rw [hshape, hshape']
        · exact hshape'
      refine forall₂_imp_mem hinputs fun input hinput shape' hshape' => ?_
      obtain ⟨_, hself, hrevised⟩ :=
        revised_of_mem_rewired hcoherent hacyclic hreads hsource hinput
      cases hself.symm.trans hshape'
      exact hrevised
    · apply covered_of_inputs hforeseen hcoherent hlive hne
      intro input hinput
      obtain ⟨instruction, hfound, hmem⟩ := exists_find?_of_mem_inputs hinput
      exact ih input hinput ((hcoherent.settled _ _ hfound).input_mem_order hmem)

end Coverage

/-! ## The replacement -/

/-- The same nodes that do what they did, and read what they will read. -/
def Rewires (g : Graph α) (node arg source : NodeId) (h : Graph α) : Prop :=
  ∀ other, (h.find? other).map Graph.wiring = (g.find? other).map fun instruction =>
    (instruction.op, rewired g node arg source other, instruction.modules)

section Replacement

variable {g h : Graph α} {node arg source : NodeId} {other : NodeId}

theorem Rewires.find? (hwiring : Rewires g node arg source h)
    (hfound : g.find? other = some instruction) :
    ∃ stored, h.find? other = some stored ∧ stored.op = instruction.op ∧
      stored.inputs = rewired g node arg source other ∧ stored.modules = instruction.modules := by
  have hself := hwiring other
  rw [hfound, Option.map_some, Option.map_eq_some_iff] at hself
  obtain ⟨stored, hstored, heq⟩ := hself
  simp only [Graph.wiring, Prod.mk.injEq] at heq
  exact ⟨stored, hstored, heq⟩

/-- When a replacement is through, every node has its revised shape. -/
theorem Rewires.shape_of_coherent (hwiring : Rewires g node arg source h) (hcoherent : h.Coherent)
    {shape : Shape} (hrevised : Revised g node arg source other shape) :
    h.shape other = .ok shape := by
  induction hrevised with
  | @infer other instruction shapes shape hfound hlength _ hinfer ih =>
    obtain ⟨stored, hstored, hop, hinputs, hmodules⟩ := hwiring.find? hfound
    obtain ⟨shapes', hshapes', hinfer'⟩ := hcoherent.settled _ _ hstored
    have hread : h.shapes stored.inputs = .ok shapes := by
      rw [hinputs, shapes_eq_ok_iff]
      exact forall₂_iff_zip.2 ⟨hlength, fun hmem => ih hmem⟩
    cases hread.symm.trans hshapes'
    rw [hop, hmodules] at hinfer'
    exact shape_eq_ok_iff.2 ⟨stored, hstored, Except.ok.inj (hinfer'.symm.trans hinfer)⟩

theorem rewires_of_sameWiring (hsame : (g.repoint node arg source).SameWiring h) :
    Rewires g node arg source h := by
  intro other
  rw [hsame.wiring other, repoint, find?_modifyNode]
  split_ifs with heq
  · subst heq
    cases hfound : g.find? other with
    | none => rfl
    | some instruction => simp [Graph.wiring, rewired, inputs_of_find? hfound]
  · cases hfound : g.find? other with
    | none => rfl
    | some instruction => simp [Graph.wiring, rewired, heq, inputs_of_find? hfound]

/-- Over revised shapes a node infers its own, whichever way they are given. -/
theorem Revised.infer_eq {shape : Shape} (hrevised : Revised g node arg source other shape)
    {stored : Stored α}
    (hfound : (g.repoint node arg source).find? other = some stored) {assigned : NodeId → Shape}
    (hassigned : ∀ input ∈ stored.inputs, Revised g node arg source input (assigned input)) :
    stored.op.infer (stored.inputs.map assigned) (signatures stored.modules) = .ok shape := by
  obtain ⟨instruction, shapes, hbefore, hshapes, hinfer⟩ := hrevised.exists_shapes
  obtain ⟨_, hfound', hop, hinputs, hmodules⟩ := (rewires_of_sameWiring (.refl _)).find? hbefore
  cases hfound.symm.trans hfound'
  have hread : Forall₂ (fun input shape => ∀ shape', Revised g node arg source input shape' →
      shape = shape') stored.inputs (stored.inputs.map assigned) := by
    rw [forall₂_map_right_iff, forall₂_same]
    exact fun input hinput shape' => (hassigned input hinput).unique
  rw [← hinputs] at hshapes
  rw [hop, hmodules, eq_of_forall₂ hread hshapes]
  exact hinfer

/-- A shorter way to a value makes no cycle. -/
theorem acyclic_repoint (hacyclic : g.Acyclic) (hreads : arg ∈ g.inputs node)
    (hsource : source ∈ g.inputs arg) : (g.repoint node arg source).Acyclic := by
  have hpath : ∀ input reader, input ∈ (g.repoint node arg source).inputs reader →
      Relation.TransGen (fun input node => input ∈ g.inputs node) input reader := by
    intro input reader hinput
    rw [inputs_repoint] at hinput
    split_ifs at hinput with heq
    · subst heq
      obtain ⟨before, hbefore, rfl⟩ := mem_map.1 hinput
      split_ifs
      · exact .tail (.single hsource) hreads
      · exact .single hbefore
    · exact .single hinput
  exact fun other hcycle => hacyclic other (Relation.TransGen.closed hpath other other hcycle)

variable (hcoherent : g.Coherent) (hacyclic : g.Acyclic)
  (hreads : arg ∈ g.inputs node) (hsource : source ∈ g.inputs arg)
  (hforeseen : Foreseen g node arg source)
  (htotal : ∀ other ∈ g.order, ∃ shape, Revised g node arg source other shape)

include hcoherent hacyclic hreads hsource hforeseen htotal

/-- The revised shapes are such that changes do not meet. -/
theorem exists_settles : ∃ final, (g.repoint node arg source).Settles node final := by
  choose! revise hrevise using htotal
  have hlive := hcoherent.mem_order_of_mem_inputs hsource
  have hawaits := hcoherent.awaits_repoint hreads hlive (acyclic_repoint hacyclic hreads hsource)
  have hrevised : ∀ {reader input}, input ∈ (g.repoint node arg source).inputs reader →
      Revised g node arg source input (revise input) := by
    intro reader input hinput
    exact hrevise input (order_repoint g node arg source ▸ hawaits.live hinput)
  have habove : ∀ input ∈ (g.repoint node arg source).inputs node,
      .ok (revise input) = (g.repoint node arg source).shape input := by
    intro input hinput
    rw [shape_repoint]
    by_contra hchanged
    refine not_moved_of_mem_rewired hcoherent hacyclic hreads hsource ?_
      ⟨revise input, hrevised hinput, Ne.symm hchanged⟩
    rwa [inputs_repoint] at hinput
  refine ⟨fun other => .ok (revise other), habove, ?_, ?_⟩
  · intro other stored assigned hfound hassigned
    have hother := order_repoint g node arg source ▸ mem_order_of_find? hfound
    refine ⟨revise other, (hrevise other hother).infer_eq hfound fun input hinput => ?_, rfl⟩
    rw [← Except.ok.inj (hassigned input hinput)]
    rw [← inputs_of_find? hfound] at hinput
    exact hrevised hinput
  · intro reader first second hfirst hsecond hchanged hchanged'
    have hne : reader ≠ node := by
      rintro rfl
      exact hchanged (habove first hfirst).symm
    have hmoved : ∀ input ∈ (g.repoint node arg source).inputs reader,
        (g.repoint node arg source).shape input ≠ .ok (revise input) →
        Moved g node arg source input := by
      intro input hinput hinput'
      rw [shape_repoint] at hinput'
      exact ⟨revise input, hrevised hinput, hinput'⟩
    have hfirst' := hmoved first hfirst hchanged
    have hsecond' := hmoved second hsecond hchanged'
    rw [inputs_repoint, if_neg hne] at hfirst hsecond
    exact hforeseen.apart hfirst hsecond hfirst' hsecond'

/-- The replacement goes through. -/
theorem reroute_runs :
    ∃ final, Edit.reroute node arg source g = .ok () final ∧ Rewires g node arg source final := by
  have hlive := hcoherent.mem_order_of_mem_inputs hsource
  have hawaits := hcoherent.awaits_repoint hreads hlive (acyclic_repoint hacyclic hreads hsource)
  obtain ⟨final, hsettles⟩ := exists_settles hcoherent hacyclic hreads hsource hforeseen htotal
  obtain ⟨h, hrun, hsame⟩ := Edit.reroute_of_settles hcoherent hreads hawaits hsettles
  exact ⟨h, hrun, rewires_of_sameWiring hsame⟩

end Replacement

end Pass

/-- After a positive answer the replacement succeeds, and gives every node the shape that follows
from the new wiring, if speculation has looked at everything that changes. -/
theorem replaceArgument_of_canRetarget [Scalar α] {g : Graph α} (hcoherent : g.Coherent)
    (hacyclic : g.Acyclic) {node arg source : NodeId} {reader : Instruction α (Graph α)}
    (hreader : g.find? node = some reader) (hreads : arg ∈ reader.inputs)
    (hsource : source ∈ g.inputs arg) {shape : Shape} {shapes : List Shape}
    (hshape : g.shape source = .ok shape) (hshapes : Pass.shapesWith g node arg shape = .ok shapes)
    {trace : Bool} {log : List LogLine} {final : Workspace α}
    (hanswer : Pass.canRetarget trace node shapes (signatures reader.modules) ⟨g, log⟩ =
      .ok true final)
    (hforeseen : Pass.Foreseen g node arg source) :
    ∃ h, Edit.replaceArgument node arg source g = .ok () h ∧
      ∀ other, other ∈ g.order → ∃ revised, Pass.Revised g node arg source other revised ∧
        h.shape other = .ok revised := by
  have haccepts := Pass.accepts_of_canRetarget hreader hanswer
  rw [← inputs_of_find? hreader] at hreads
  have htotal : ∀ other ∈ g.order, ∃ revised, Pass.Revised g node arg source other revised := by
    intro other hlive
    obtain ⟨revised, hrevised, -⟩ := Pass.covered_of_accepts hforeseen hcoherent hacyclic hreads
      hsource hshape hshapes haccepts hlive
    exact ⟨revised, hrevised⟩
  obtain ⟨h, hrun, hwiring⟩ :=
    Pass.reroute_runs hcoherent hacyclic hreads hsource hforeseen htotal
  refine ⟨h, Edit.transaction_eq_ok_iff.2 hrun, fun other hlive => ?_⟩
  obtain ⟨revised, hrevised⟩ := htotal other hlive
  exact ⟨revised, hrevised,
    hwiring.shape_of_coherent (Edit.reroute_coherent hcoherent hrun) hrevised⟩

/-! ## A replacement that is foreseen -/

/-- The shapes that bypassing the forced layout gives to a matrix transposed again. -/
theorem shape_straightenedAgain {other : NodeId} {shape : Shape}
    (hrevised : Pass.Revised transposedAgain 3 2 1 other shape) :
    straightenedAgain.shape other = .ok shape := by
  have hwiring : Pass.Rewires transposedAgain 3 2 1 straightenedAgain := by
    intro other
    match other with
    | 0 | 1 | 2 | 3 | 4 => rfl
    | other + 5 => rfl
  exact hwiring.shape_of_coherent (by decide) hrevised

/-- The transposition that becomes standard is read by one node, which accepts that. -/
theorem foreseen_transposedAgain : Pass.Foreseen transposedAgain 3 2 1 where
  apart := by
    intro other first second hfirst hsecond _ _
    match other with
    | 0 => cases hfirst
    | 1 | 2 | 3 | 4 => exact (mem_singleton.1 hfirst).trans (mem_singleton.1 hsecond).symm
    | other + 5 => cases hfirst
  below := by
    intro other shape hrevised hmoved hstandard consumer hconsumer
    have hshape := shape_straightenedAgain hrevised
    match other with
    | 0 | 1 | 2 => exact absurd hshape hmoved
    | 3 =>
      cases hshape
      obtain rfl : consumer = 4 := mem_singleton.1 hconsumer
      have hunread : transposedAgain.consumers 4 = [] := rfl
      refine ⟨_, rfl, @Pass.Tolerates.intro _ _ _ _ _ _ (fun _ => []) rfl rfl ?_ ?_⟩ <;>
        rw [hunread] <;> simp
    | 4 =>
      have hunread : transposedAgain.consumers 4 = [] := rfl
      rw [hunread] at hconsumer
      cases hconsumer
    | other + 5 => cases hshape

theorem replaceArgument_transposedAgain :
    ∃ h, Edit.replaceArgument 3 2 1 transposedAgain = .ok () h ∧
      h.shape 3 = .ok (.strided .float32 [⟨2, 3⟩, ⟨3, 1⟩]) ∧
      h.shape 4 = .ok (.strided .float32 [⟨3, 1⟩, ⟨2, 3⟩]) := by
  obtain ⟨final, hanswer⟩ := Revision.exists_of_saysYes (by decide +kernel :
    (Pass.canRetarget false 3 [.strided .float32 [⟨3, 1⟩, ⟨2, 3⟩]] []).saysYes
      ⟨transposedAgain, []⟩ = true)
  have hreader : transposedAgain.find? 3 =
      some ⟨.transpose [1, 0], .strided .float32 [⟨2, 1⟩, ⟨3, 2⟩], [2], []⟩ := rfl
  have hsource : transposedAgain.shape 1 = .ok (.strided .float32 [⟨3, 1⟩, ⟨2, 3⟩]) := rfl
  have hread : Pass.shapesWith transposedAgain 3 2 (.strided .float32 [⟨3, 1⟩, ⟨2, 3⟩]) =
      .ok [.strided .float32 [⟨3, 1⟩, ⟨2, 3⟩]] := rfl
  obtain ⟨h, hrun, hshapes⟩ := replaceArgument_of_canRetarget (by decide)
    (by decide : transposedAgain.Ordered).acyclic hreader mem_cons_self (by decide) hsource hread hanswer
    foreseen_transposedAgain
  obtain ⟨shape, hrevised, hshape⟩ := hshapes 3 (by decide)
  obtain ⟨shape', hrevised', hshape'⟩ := hshapes 4 (by decide)
  cases shape_straightenedAgain hrevised
  cases shape_straightenedAgain hrevised'
  exact ⟨h, hrun, hshape, hshape'⟩

/-! ## Replacements that are not -/

/-- A matrix that is transposed again and flattened. -/
def flattenedAgain : Graph Float32 :=
  ⟨"",
    [(0, ⟨.parameter "a" (.strided .float32 [⟨2, 3⟩, ⟨3, 1⟩]),
       .strided .float32 [⟨2, 3⟩, ⟨3, 1⟩], [], []⟩),
     (1, ⟨.transpose [1, 0], .strided .float32 [⟨3, 1⟩, ⟨2, 3⟩], [0], []⟩),
     (2, ⟨.contiguous, .strided .float32 [⟨3, 2⟩, ⟨2, 1⟩], [1], []⟩),
     (3, ⟨.transpose [1, 0], .strided .float32 [⟨2, 1⟩, ⟨3, 2⟩], [2], []⟩),
     (4, ⟨.transpose [1, 0], .strided .float32 [⟨3, 2⟩, ⟨2, 1⟩], [3], []⟩),
     (5, ⟨.reshape [6], .strided .float32 [⟨6, 1⟩], [4], []⟩)],
    [], 6⟩

/-- Speculation stops at the transposition that becomes standard; the next one is not standard then,
and cannot be flattened. -/
theorem not_replaceArgument_of_canRetarget :
    ¬ ∀ (g : Graph Float32) (node arg source : NodeId) (reader : Instruction Float32 (Graph Float32))
      (shape : Shape) (shapes : List Shape) (log : List LogLine) (final : Workspace Float32),
      g.Coherent → g.Acyclic → g.find? node = some reader → arg ∈ reader.inputs →
      g.op arg = .ok .contiguous → g.inputs arg = [source] → g.shape source = .ok shape →
      Pass.shapesWith g node arg shape = .ok shapes →
      Pass.canRetarget false node shapes (signatures reader.modules) ⟨g, log⟩ = .ok true final →
      ∃ h, Edit.replaceArgument node arg source g = .ok () h := by
  intro hclaim
  have hordered : flattenedAgain.Ordered := by decide
  obtain ⟨final, hanswer⟩ := Revision.exists_of_saysYes (by decide +kernel :
    (Pass.canRetarget false 3 [.strided .float32 [⟨3, 1⟩, ⟨2, 3⟩]] []).saysYes
      ⟨flattenedAgain, []⟩ = true)
  obtain ⟨h, hrun⟩ := hclaim flattenedAgain 3 2 1 _ _ _ [] _ (by decide)
    hordered.acyclic rfl (mem_singleton.2 rfl) rfl rfl rfl rfl hanswer
  have hrefused : Edit.replaceArgument 3 2 1 flattenedAgain = .error (.refusal (.shape (some 5)
    "reshape" (.invalid "reshape" (.notStandard (.strided .float32 [⟨3, 1⟩, ⟨2, 3⟩])))))
      flattenedAgain := by rfl
  rw [hrun] at hrefused
  cases hrefused

end TensorGraph
