import Mathlib.Data.List.Chain
import TensorGraph.Proofs.Graph.Growth
import TensorGraph.Proofs.Pass.Moves
import TensorGraph.Scalar.Binary32

/-!
# What an elimination does to the layouts that a graph returns

Speculation does not see a node that two changed paths meet in, nor what becomes of a layout below a node
that has just become standard. Where neither happens above a returned value, its standard layout stays.
-/

namespace TensorGraph

open Graph List

variable {α : Type} {result : NodeId}

namespace Pass

variable {g h : Graph α}

/-! ## Changed shapes -/

/-- The cached shape of a node differs. -/
def Reshaped (g h : Graph α) (node : NodeId) : Prop := h.shape node ≠ g.shape node

/-- A value is computed from that of a node, or is that value. -/
def Feeds (g : Graph α) : NodeId → NodeId → Prop :=
  Relation.ReflTransGen fun input node => input ∈ g.inputs node

/-- What speculation does not see above a returned node. -/
inductive Overlooked (g h : Graph α) (result : NodeId) : Prop
  | meets {node first second : NodeId} (hfeeds : Feeds g node result)
      (hfirst : first ∈ g.inputs node) (hsecond : second ∈ g.inputs node) (hne : first ≠ second)
      (hreshaped : Reshaped g h first) (hreshaped' : Reshaped g h second) : Overlooked g h result
  | straightened {node : NodeId} {shape : Shape} (hfeeds : Feeds g node result)
      (hne : node ≠ result) (hreshaped : Reshaped g h node) (hshape : h.shape node = .ok shape)
      (hstandard : shape.isStandard = .ok true) : Overlooked g h result

/-- Nodes that do the same with inputs of the same shapes have one shape. -/
theorem shape_eq_of_shapes_eq (hg : g.Coherent) (hh : h.Coherent) {node : NodeId}
    {stored stored' : Stored α} (hfound : g.find? node = some stored)
    (hfound' : h.find? node = some stored') (hop : stored'.op = stored.op)
    (hmodules : stored'.modules = stored.modules)
    (hshapes : h.shapes stored'.inputs = g.shapes stored.inputs) : h.shape node = g.shape node := by
  obtain ⟨shapes, hsettled, hinfer⟩ := hg.settled _ _ hfound
  obtain ⟨shapes', hsettled', hinfer'⟩ := hh.settled _ _ hfound'
  rw [hop, hmodules] at hinfer'
  cases hsettled'.symm.trans (hshapes.trans hsettled)
  rw [shape_of_find? hfound, shape_of_find? hfound']
  rw [Except.ok.inj (hinfer'.symm.trans hinfer)]

/-- Nodes that do the same with inputs of the same forms have one form. -/
theorem form_eq_of_inputs (hg : g.Coherent) (hh : h.Coherent) {node : NodeId}
    {stored stored' : Stored α} (hfound : g.find? node = some stored)
    (hfound' : h.find? node = some stored') (hop : stored'.op = stored.op)
    (hmodules : stored'.modules = stored.modules) {rename : NodeId → NodeId}
    (hinputs : stored'.inputs = stored.inputs.map rename)
    (hforms : ∀ input ∈ stored.inputs, ∀ ⦃s s'⦄, g.shape input = .ok s →
      h.shape (rename input) = .ok s' → s'.form = s.form) :
    stored'.shape.form = stored.shape.form := by
  obtain ⟨shapes, hshapes, hinfer⟩ := hg.settled _ _ hfound
  obtain ⟨shapes', hshapes', hinfer'⟩ := hh.settled _ _ hfound'
  rw [hop, hmodules] at hinfer'
  refine Operator.infer_form ?_ hinfer hinfer'
  rw [hinputs, shapes_eq_ok_iff, forall₂_map_left_iff] at hshapes'
  rw [shapes_eq_ok_iff] at hshapes
  rw [← forall₂_eq_eq_eq, forall₂_map_left_iff, forall₂_map_right_iff]
  refine forall₂_of_common ?_ hshapes' ((forall₂_and_left _ _).2 ⟨fun _ hinput => hinput, hshapes⟩)
  exact fun input s' s hs' hs => hforms input hs.1 hs.2 hs'

theorem idxOf_le_of_feeds (hordered : g.Ordered) {first last : NodeId} (hfeeds : Feeds g first last) :
    g.order.idxOf first ≤ g.order.idxOf last := by
  induction hfeeds with
  | refl => exact Nat.le_refl _
  | tail _ hinput ih => exact Nat.le_of_lt (Nat.lt_of_le_of_lt ih (hordered.idxOf_lt hinput))

/-- What is computed from a node is among nodes that have all their readers among them. -/
theorem mem_of_feeds {nodes : List NodeId}
    (hclosed : ∀ entry ∈ g.nodes, ∀ input ∈ entry.2.inputs, input ∈ nodes → entry.1 ∈ nodes)
    {first last : NodeId} (hfirst : first ∈ nodes) (hfeeds : Feeds g first last) :
    last ∈ nodes := by
  induction hfeeds with
  | refl => exact hfirst
  | tail _ hinput ih =>
    obtain ⟨stored, hfound, hreads⟩ := exists_find?_of_mem_inputs hinput
    exact hclosed _ (mem_nodes_of_find? hfound) _ hreads ih

/-- Speculation passes a returned node only with the shape that it has. -/
theorem shape_of_passed (hcoherent : g.Coherent) (hordered : g.Ordered)
    (hresult : result ∈ g.results) {shape : Shape} (hread : g.consumers result ≠ [])
    (hbelow : ∀ consumer ∈ g.consumers result, ∃ below,
      shapesWith g consumer result shape = .ok below ∧ Accepts g consumer below) :
    g.shape result = .ok shape := by
  cases hlast : g.last? with
  | none =>
    rw [results_of_last_none hlast] at hresult
    cases hresult
  | some last =>
    have hunread := hordered.notMem_inputs_last hcoherent.toIndexed hlast
    have hnone : g.consumers last = [] := by
      rw [eq_nil_iff_forall_not_mem]
      intro consumer hmem
      exact hunread consumer (mem_inputs_of_mem_consumers hcoherent.nodup hmem)
    obtain ⟨stored, hfound⟩ := exists_of_last hlast
    rw [results_of_last hcoherent.toIndexed hlast hfound] at hresult
    split_ifs at hresult with hreturns
    · obtain ⟨below, hshapes, haccepts⟩ := hbelow last (mem_consumers_of_find? hfound hresult)
      obtain ⟨shapes, hcached, hinfer⟩ := hcoherent.settled _ _ hfound
      have hop : stored.op = .returns := by
        cases hop : stored.op <;> rw [hop] at hreturns <;> first | rfl | cases hreturns
      rw [hop] at hinfer
      have hshape : Shape.ofParts shapes = stored.shape := Except.ok.inj hinfer
      cases haccepts with
      | passes _ _ hread _ _ => exact absurd hnone hread
      | @settles _ _ _ tuple hfound' hinfer' hsettled =>
        cases hfound.symm.trans hfound'
        rw [hop] at hinfer'
        have htuple : Shape.ofParts below = tuple := Except.ok.inj hinfer'
        rcases hsettled with hstandard | hsame
        · rw [← htuple] at hstandard
          cases hstandard
        · rw [← htuple, ← hshape] at hsame
          obtain rfl : below = shapes := (Shape.tuple.inj hsame).2
          rw [shapesWith, inputs_of_find? hfound] at hshapes
          have hself := eq_of_mapM_eq_ok hshapes hcached hresult
          rw [if_pos rfl] at hself
          exact hself.symm
    · rw [mem_singleton.1 hresult] at hread
      exact absurd hnone hread

section Bypass

variable {g h : Graph α} {node arg source : NodeId} (hcoherent : g.Coherent) (hordered : g.Ordered)
  (hbypass : Bypass "contiguous" g node arg source h) {other : NodeId} {shape : Shape}

include hcoherent hbypass

/-- A node other than the reader is reshaped only through an input. -/
theorem Bypass.exists_reshaped_input (hne : other ≠ node) (hreshaped : Reshaped g h other) :
    ∃ input ∈ g.inputs other, Reshaped g h input := by
  by_contra hnone
  refine hreshaped ?_
  have hcoherent' := Edit.reroute_coherent hcoherent hbypass.rerouted
  cases hfound : g.find? other with
  | none =>
    have hmem := find?_eq_none_iff.1 hfound
    rw [← reroute_order hbypass.rerouted] at hmem
    simp [Graph.shape, Graph.instruction, hfound, find?_eq_none_iff.2 hmem]
  | some stored =>
    obtain ⟨stored', hfound', hop, hinputs, hmodules⟩ :=
      Edit.reroute_find? hbypass.rerouted hfound
    rw [if_neg hne] at hinputs
    refine shape_eq_of_shapes_eq hcoherent hcoherent' hfound hfound' hop hmodules ?_
    rw [hinputs]
    refine shapes_congr fun input hinput => by_contra fun hreshaped => hnone ⟨input, ?_, hreshaped⟩
    rwa [inputs_of_find? hfound]

include hordered

/-- Nothing before the reader is reshaped. -/
theorem Bypass.idxOf_le_of_reshaped (hreshaped : Reshaped g h other) :
    g.order.idxOf node ≤ g.order.idxOf other := by
  induction hrank : g.order.idxOf other using Nat.strongRecOn generalizing other with
  | _ rank ih =>
    subst hrank
    by_cases hne : other = node
    · exact Nat.le_of_eq (by rw [hne])
    · obtain ⟨input, hinput, hreshaped'⟩ := hbypass.exists_reshaped_input hcoherent hne hreshaped
      have hbefore := hordered.idxOf_lt hinput
      exact Nat.le_of_lt (Nat.lt_of_le_of_lt (ih _ hbefore hreshaped' rfl) hbefore)

theorem Bypass.shape_eq_of_lt (hbefore : g.order.idxOf other < g.order.idxOf node) :
    h.shape other = g.shape other :=
  by_contra fun hreshaped => Nat.not_le.2 hbefore
    (hbypass.idxOf_le_of_reshaped hcoherent hordered hreshaped)

/-- What the bypassed node reads has its form and keeps its shape. -/
theorem Bypass.source_form (hshape : g.shape arg = .ok shape) :
    ∃ shape', h.shape source = .ok shape' ∧ g.shape source = .ok shape' ∧
      shape'.form = shape.form := by
  obtain ⟨stored, hfound, hname⟩ := hbypass.targeted
  obtain ⟨rest, hfirst⟩ := hbypass.first
  rw [inputs_of_find? hfound] at hfirst
  obtain ⟨shapes, hshapes, hinfer⟩ := hcoherent.settled _ _ hfound
  rw [eq_contiguous_of_name hname] at hinfer
  obtain ⟨shape', rfl, -, hstandard⟩ := Operator.contiguousShape_iff.1 hinfer
  rw [hfirst, shapes_eq_ok_iff] at hshapes
  obtain ⟨hsource, -⟩ := forall₂_cons.1 hshapes
  obtain ⟨_, hfound', rfl⟩ := shape_eq_ok_iff.1 hshape
  cases hfound.symm.trans hfound'
  have hbefore : g.order.idxOf source < g.order.idxOf node := by
    obtain ⟨current, _, hcurrent, hreads, -⟩ := Edit.reroute_eq_ok_iff.1 hbypass.rerouted
    exact Nat.lt_trans (hbypass.source_before hordered) (hordered hcurrent arg hreads)
  rw [hbypass.shape_eq_of_lt hcoherent hordered hbefore]
  exact ⟨shape', hsource, hsource, (Shape.form_asStandard hstandard).symm⟩

/-- The reader gets the shapes that speculation started with. -/
theorem Bypass.accepts_reader :
    ∃ shapes, h.shapes (h.inputs node) = .ok shapes ∧ Accepts g node shapes := by
  obtain ⟨shape, shapes, hsource, hshapes, haccepts⟩ := hbypass.accepted
  refine ⟨shapes, ?_, haccepts⟩
  obtain ⟨stored, _, hfound, hreads, -⟩ := Edit.reroute_eq_ok_iff.1 hbypass.rerouted
  obtain ⟨stored', hfound', -, hinputs, -⟩ := Edit.reroute_find? hbypass.rerouted hfound
  rw [if_pos rfl] at hinputs
  rw [shapesWith, inputs_of_find? hfound] at hshapes
  rw [inputs_of_find? hfound', hinputs, shapes_eq_ok_iff, Edit.redirect, forall₂_map_left_iff]
  refine forall₂_imp_mem (mapM_eq_ok_iff.1 hshapes) fun input hinput shape' hshape' => ?_
  by_cases heq : input = arg
  · rw [if_pos heq] at hshape' ⊢
    obtain ⟨before, hbefore⟩ : ∃ before, g.shape arg = .ok before := by
      obtain ⟨found, hfound, -⟩ := hbypass.targeted
      exact ⟨found.shape, shape_of_find? hfound⟩
    obtain ⟨after, hafter, hsame, -⟩ := hbypass.source_form hcoherent hordered hbefore
    rw [hafter, ← hsame, hsource, hshape']
  · rw [if_neg heq] at hshape' ⊢
    rw [hbypass.shape_eq_of_lt hcoherent hordered (hordered hfound input hinput), hshape']

/-- A bypass changes layouts only, nowhere a form. -/
theorem Bypass.form_eq {shape' : Shape} (hshape : g.shape other = .ok shape)
    (hshape' : h.shape other = .ok shape') : shape'.form = shape.form := by
  induction hrank : g.order.idxOf other using Nat.strongRecOn generalizing other shape shape' with
  | _ rank ih =>
    subst hrank
    have hcoherent' := Edit.reroute_coherent hcoherent hbypass.rerouted
    obtain ⟨stored, hfound, rfl⟩ := shape_eq_ok_iff.1 hshape
    obtain ⟨stored', hfound', hop, hinputs, hmodules⟩ := Edit.reroute_find? hbypass.rerouted hfound
    cases (shape_of_find? hfound').symm.trans hshape'
    split_ifs at hinputs
    · refine form_eq_of_inputs hcoherent hcoherent' hfound hfound' hop hmodules hinputs
        fun input hinput s s' hs hs' => ?_
      split_ifs at hs' with heq
      · obtain ⟨_, hsource, -, hform⟩ := hbypass.source_form hcoherent hordered (heq ▸ hs)
        cases hs'.symm.trans hsource
        exact hform
      · exact ih _ (hordered hfound input hinput) hs hs' rfl
    · refine form_eq_of_inputs hcoherent hcoherent' hfound hfound' hop hmodules
        (hinputs.trans (map_id _).symm) fun input hinput s s' hs hs' => ?_
      exact ih _ (hordered hfound input hinput) hs hs' rfl

omit hordered in
/-- What speculation has found out about a node whose new inputs it knows. -/
theorem Bypass.shape_of_accepts {shapes : List Shape}
    (hshapes : h.shapes (h.inputs other) = .ok shapes) (haccepts : Accepts g other shapes) :
    ∃ shape, h.shape other = .ok shape ∧
      (shape.isStandard = .ok true ∨ g.shape other = .ok shape ∨
        g.consumers other ≠ [] ∧ ∀ consumer ∈ g.consumers other, ∃ below,
          shapesWith g consumer other shape = .ok below ∧ Accepts g consumer below) := by
  have hcoherent' := Edit.reroute_coherent hcoherent hbypass.rerouted
  have hself {stored : Stored α} {shape : Shape}
      (hfound : g.find? other = some stored)
      (hinfer : stored.op.infer shapes (signatures stored.modules) = .ok shape) :
      h.shape other = .ok shape := by
    obtain ⟨stored', hfound', hop, -, hmodules⟩ := Edit.reroute_find? hbypass.rerouted hfound
    obtain ⟨shapes', hshapes', hinfer'⟩ := hcoherent'.settled _ _ hfound'
    rw [inputs_of_find? hfound'] at hshapes
    cases hshapes.symm.trans hshapes'
    rw [hop, hmodules] at hinfer'
    exact shape_eq_ok_iff.2 ⟨stored', hfound', Except.ok.inj (hinfer'.symm.trans hinfer)⟩
  cases haccepts with
  | settles hfound hinfer hsettled =>
    refine ⟨_, hself hfound hinfer, ?_⟩
    rcases hsettled with hstandard | rfl
    · exact .inl hstandard
    · exact .inr (.inl (shape_of_find? hfound))
  | passes hfound hinfer hread hbelow haccepts =>
    exact ⟨_, hself hfound hinfer, .inr (.inr ⟨hread, fun consumer hmem =>
      ⟨_, hbelow consumer hmem, haccepts consumer hmem⟩⟩)⟩

/-- Where nothing is overlooked, speculation was asked about every reshaped node above the result,
with the shapes that the node really reads. -/
theorem Bypass.accepts_of_feeds (hclear : ¬ Overlooked g h result)
    (hfeeds : Feeds g other result) (hreshaped : Reshaped g h other) :
    ∃ shapes, h.shapes (h.inputs other) = .ok shapes ∧ Accepts g other shapes := by
  induction hrank : g.order.idxOf other using Nat.strongRecOn generalizing other with
  | _ rank ih =>
    subst hrank
    by_cases hne : other = node
    · rw [hne]
      exact hbypass.accepts_reader hcoherent hordered
    obtain ⟨input, hinput, hreshaped'⟩ := hbypass.exists_reshaped_input hcoherent hne hreshaped
    have hbefore := hordered.idxOf_lt hinput
    have hfeeds' : Feeds g input result := .head hinput hfeeds
    obtain ⟨shapes, hshapes, haccepts⟩ := ih _ hbefore hfeeds' hreshaped' rfl
    obtain ⟨shape, hshape, hcases⟩ := hbypass.shape_of_accepts hcoherent hshapes haccepts
    rcases hcases with hstandard | hsame | ⟨-, hbelow⟩
    · -- Speculation has stopped above the result.
      have hlast := idxOf_le_of_feeds hordered hfeeds
      have hne' : input ≠ result := by
        rintro rfl
        exact absurd hbefore (Nat.not_lt.2 hlast)
      exact absurd (.straightened hfeeds' hne' hreshaped' hshape hstandard) hclear
    · exact absurd (hshape.trans hsame.symm) hreshaped'
    · obtain ⟨stored, hfound, hreads⟩ := exists_find?_of_mem_inputs hinput
      obtain ⟨below, hbelow, haccepts⟩ := hbelow other (mem_consumers_of_find? hfound hreads)
      refine ⟨below, ?_, haccepts⟩
      obtain ⟨stored', hfound', -, hinputs, -⟩ := Edit.reroute_find? hbypass.rerouted hfound
      rw [if_neg hne] at hinputs
      rw [shapesWith, inputs_of_find? hfound] at hbelow
      rw [inputs_of_find? hfound', hinputs, ← hbelow, Graph.shapes]
      refine mapM_congr_mem fun third hthird => ?_
      split_ifs with heq
      · rw [heq, hshape]
      · refine by_contra fun hreshaped'' => hclear ?_
        rw [← inputs_of_find? hfound] at hthird
        exact .meets hfeeds hthird hinput heq hreshaped'' hreshaped'

/-- A bypass under which nothing is overlooked keeps the standard layout of a returned value. -/
theorem Bypass.shape_eq_of_standard (hresult : result ∈ g.results)
    (hshape : g.shape result = .ok shape) (hstandard : shape.isStandard = .ok true)
    (hclear : ¬ Overlooked g h result) : h.shape result = .ok shape := by
  by_contra hchanged
  have hreshaped : Reshaped g h result := fun hsame => hchanged (hsame.trans hshape)
  obtain ⟨shapes, hshapes, haccepts⟩ :=
    hbypass.accepts_of_feeds hcoherent hordered hclear .refl hreshaped
  obtain ⟨shape', hshape', hcases⟩ := hbypass.shape_of_accepts hcoherent hshapes haccepts
  rcases hcases with hstandard' | hsame | ⟨hread, hbelow⟩
  · have hform := hbypass.form_eq hcoherent hordered hshape hshape'
    rw [Shape.eq_of_form_eq_of_isStandard hform hstandard' hstandard] at hshape'
    exact hchanged hshape'
  · exact hreshaped (hshape'.trans hsame.symm)
  · exact hreshaped (hshape'.trans (shape_of_passed hcoherent hordered hresult hread hbelow).symm)

omit hordered in
theorem Bypass.results_eq : h.results = g.results := by
  have hcoherent' := Edit.reroute_coherent hcoherent hbypass.rerouted
  obtain ⟨op, hop, hreturns⟩ := hbypass.reader
  obtain ⟨stored, hfound, rfl⟩ := op_eq_ok_iff.1 hop
  exact reroute_results_of_reads hbypass.rerouted hcoherent.toIndexed hcoherent'.toIndexed hfound
    hreturns

omit hcoherent in
theorem Bypass.ordered : h.Ordered :=
  hordered.reroute hbypass.rerouted (hbypass.source_before hordered)

end Bypass

/-! ## Literals -/

/-- A literal is made for a node of another shape. -/
def Misfits (g h : Graph α) : Prop :=
  ∃ candidate value, Spliced candidate value g h ∧ g.shape candidate ≠ .ok value.shape

section Splice

variable {g h : Graph α} {candidate : NodeId} {value : Tensor α}

theorem outputShapes_addLiteral (hcoherent : g.Coherent) (hlive : candidate ∈ g.order) :
    (g.addLiteral value).1.outputShapes = g.outputShapes := by
  refine hcoherent.outputShapes_eq (coherent_addLiteral hcoherent value) ?_
  rw [results_addLiteral hlive]
  refine shapes_congr fun result hresult => ?_
  have hne := ne_nextId hcoherent.toIndexed (hcoherent.mem_order_of_mem_results hresult)
  simp only [Graph.shape, Graph.instruction, find?_addLiteral hcoherent.toIndexed, if_neg hne]

theorem outputShapes_reroute {reader old new : NodeId} (hcoherent : g.Coherent)
    (hrun : Edit.reroute reader old new g = .ok () h) (hsame : g.shape new = g.shape old) :
    h.outputShapes = g.outputShapes := by
  have hcoherent' := Edit.reroute_coherent hcoherent hrun
  have hshapes : ∀ nodes, h.shapes nodes = g.shapes nodes := fun nodes =>
    shapes_congr fun node _ => reroute_shape_eq hrun hcoherent hsame node
  refine hcoherent.outputShapes_eq hcoherent' ?_
  rcases reroute_results hrun hcoherent.toIndexed hcoherent'.toIndexed with heq | ⟨heq, -⟩
  · rw [heq, hshapes]
  · rw [heq, hshapes, shapes_redirect hsame]

theorem outputShapes_erase {reader : NodeId} (hcoherent : g.Coherent)
    (hunread : g.hasConsumers candidate = false)
    (hbefore : g.order.idxOf candidate < g.order.idxOf reader) (hreader : reader ∈ g.order) :
    (g.erase candidate).outputShapes = g.outputShapes := by
  refine hcoherent.outputShapes_eq (hcoherent.erase hunread) ?_
  have hresults := results_erase hcoherent.toIndexed hbefore hreader
  rw [hresults]
  refine shapes_congr fun result hresult => ?_
  have hne : result ≠ candidate := by
    rw [← hresults] at hresult
    exact (mem_order_erase.1 ((hcoherent.erase hunread).mem_order_of_mem_results hresult)).1
  simp only [Graph.shape, Graph.instruction, find?_erase, if_neg hne]

variable (hcoherent : g.Coherent) (hordered : g.Ordered) (hlive : candidate ∈ g.order)
  (hread : g.hasConsumers candidate = true) (hspliced : Spliced candidate value g h)

include hcoherent hordered hlive hread hspliced

theorem Spliced.coherent_ordered : h.Coherent ∧ h.Ordered := by
  refine hspliced.invariant (motive := fun k => k.Coherent ∧ k.Ordered) hcoherent.toIndexed hordered
    hlive hread ⟨coherent_addLiteral hcoherent value, hordered.addLiteral hcoherent value⟩ ?_ ?_
  · rintro m next reader ⟨hcoherent, hordered⟩ hbefore hrun
    exact ⟨Edit.reroute_coherent hcoherent hrun, hordered.reroute hrun hbefore⟩
  · rintro m reader ⟨hcoherent, hordered⟩ hunread - -
    exact ⟨hcoherent.erase hunread, hordered.erase hunread⟩

/-- A literal of the shape of the node whose place it takes changes no returned shape. -/
theorem Spliced.outputShapes_eq (hfits : g.shape candidate = .ok value.shape) :
    h.outputShapes = g.outputShapes := by
  suffices hkept : h.Coherent ∧ h.outputShapes = g.outputShapes ∧
      (candidate ∈ h.order → h.shape g.nextId = h.shape candidate) from hkept.2.1
  refine hspliced.invariant (motive := fun k => k.Coherent ∧ k.outputShapes = g.outputShapes ∧
    (candidate ∈ k.order → k.shape g.nextId = k.shape candidate)) hcoherent.toIndexed hordered
    hlive hread ?_ ?_ ?_
  · refine ⟨coherent_addLiteral hcoherent value, outputShapes_addLiteral hcoherent hlive,
      fun _ => ?_⟩
    have hextends : g.Extends (g.addLiteral value).1 :=
      extends_insertAt hcoherent.toIndexed (Nat.zero_le _)
    rw [hextends.shape hfits]
    exact shape_eq_ok_iff.2 ⟨_, (find?_addLiteral hcoherent.toIndexed _).trans (if_pos rfl), rfl⟩
  · rintro m next reader ⟨hcoherent, hkept, hsame⟩ hbefore hrun
    obtain ⟨stored, _, hfound, hreads, -⟩ := Edit.reroute_eq_ok_iff.1 hrun
    have hlive := (hcoherent.settled _ _ hfound).input_mem_order hreads
    refine ⟨Edit.reroute_coherent hcoherent hrun,
      (outputShapes_reroute hcoherent hrun (hsame hlive)).trans hkept, fun _ => ?_⟩
    rw [reroute_shape_eq hrun hcoherent (hsame hlive), reroute_shape_eq hrun hcoherent (hsame hlive)]
    exact hsame hlive
  · rintro m reader ⟨hcoherent, hkept, -⟩ hunread hbefore hreader
    exact ⟨hcoherent.erase hunread,
      (outputShapes_erase hcoherent hunread hbefore hreader).trans hkept,
      fun hmem => absurd rfl (mem_order_erase.1 hmem).1⟩

end Splice

/-! ## Traces -/

/-- One change of an elimination: a bypass, or splicing a literal in for a node that is read. -/
inductive Move (g h : Graph α) : Prop
  | bypass {node arg source : NodeId} (hbypass : Bypass "contiguous" g node arg source h)
  | splice {candidate : NodeId} {value : Tensor α} (hlive : candidate ∈ g.order)
      (hread : g.hasConsumers candidate = true) (hspliced : Spliced candidate value g h)

/-- A bypass changes what speculation does not see above the value returned at a position. -/
def Overlooks (position : Nat) (g h : Graph α) : Prop :=
  ∃ node arg source result, Bypass "contiguous" g node arg source h ∧
    g.results[position]? = some result ∧ Overlooked g h result

section Move

variable {g h : Graph α} (hcoherent : g.Coherent) (hordered : g.Ordered) (hmove : Move g h)

include hcoherent hordered hmove

theorem Move.coherent_ordered : h.Coherent ∧ h.Ordered := by
  cases hmove with
  | bypass hbypass =>
    exact ⟨Edit.reroute_coherent hcoherent hbypass.rerouted, hbypass.ordered hordered⟩
  | splice hlive hread hspliced =>
    exact hspliced.coherent_ordered hcoherent hordered hlive hread

/-- A move keeps the form of a returned value, and what is more, its layout if that is standard and
the move overlooks nothing. -/
theorem Move.exists_outputShape (hfits : ¬ Misfits g h) {position : Nat} {shape : Shape}
    (hshape : g.outputShapes[position]? = some shape) :
    ∃ shape', h.outputShapes[position]? = some shape' ∧ shape'.form = shape.form ∧
      (shape.isStandard = .ok true → ¬ Overlooks position g h → shape' = shape) := by
  have hcoherent' := (hmove.coherent_ordered hcoherent hordered).1
  cases hmove with
  | splice hlive hread hspliced =>
    have hsame := hspliced.outputShapes_eq hcoherent hordered hlive hread
      (by_contra fun hmisfit => hfits ⟨_, _, hspliced, hmisfit⟩)
    rw [hsame]
    exact ⟨shape, hshape, rfl, fun _ _ => rfl⟩
  | bypass hbypass =>
    have hresults := shapes_eq_ok_iff.1 hcoherent.shapes_results
    have hresults' := shapes_eq_ok_iff.1 hcoherent'.shapes_results
    rw [hbypass.results_eq hcoherent] at hresults'
    obtain ⟨result, hresult, hself⟩ := exists_getElem?_of_forall₂ hresults hshape
    obtain ⟨shape', hshape', hself'⟩ := exists_getElem?_of_forall₂ hresults'.flip hresult
    refine ⟨shape', hshape', hbypass.form_eq hcoherent hordered hself hself', ?_⟩
    intro hstandard hclear
    have hkept := hbypass.shape_eq_of_standard hcoherent hordered
      (mem_of_getElem? hresult) hself hstandard
      fun hoverlooked => hclear ⟨_, _, _, result, hbypass, hresult, hoverlooked⟩
    exact Except.ok.inj (hself'.symm.trans hkept)

end Move

section Runs

variable [Scalar α] {g h : Graph α}

theorem Folds.moves {start : Graph α} {candidates : List NodeId}
    (hfolds : Folds start candidates g h) (hcoherent : g.Coherent) (hordered : g.Ordered) :
    Relation.ReflTransGen Move g h := by
  induction hfolds with
  | done => exact .refl
  | skip _ ih => exact ih hcoherent hordered
  | splice _ hread hspliced _ ih =>
    obtain ⟨reader, stored, hfound, hreads⟩ := exists_reader hcoherent.nodup hread
    have hlive := (hcoherent.settled _ _ hfound).input_mem_order hreads
    have hmove := Move.splice hlive hread hspliced
    obtain ⟨hcoherent', hordered'⟩ := hmove.coherent_ordered hcoherent hordered
    exact .head hmove (ih hcoherent' hordered')

omit [Scalar α] in
theorem coherent_ordered_of_moves (hmoves : Relation.ReflTransGen Move g h)
    (hcoherent : g.Coherent) (hordered : g.Ordered) : h.Coherent ∧ h.Ordered := by
  induction hmoves with
  | refl => exact ⟨hcoherent, hordered⟩
  | tail _ hmove ih => exact hmove.coherent_ordered ih.1 ih.2

theorem Swept.moves (hswept : Swept "contiguous" g h) (hcoherent : g.Coherent)
    (hordered : g.Ordered) : Relation.ReflTransGen Move g h := by
  obtain ⟨candidates, m, hsurveyed, hfolds⟩ := hswept
  have hbypasses : Relation.ReflTransGen Move g m :=
    hsurveyed.bypassed.lift id fun _ _ ⟨_, _, _, hbypass⟩ => .bypass hbypass
  obtain ⟨hcoherent', hordered'⟩ := coherent_ordered_of_moves hbypasses hcoherent hordered
  exact hbypasses.trans (hfolds.moves hcoherent' hordered')

end Runs

/-- The graphs that moves go through, one after another. -/
structure Trace (g h : Graph α) where
  graphs : List (Graph α)
  chain : List.IsChain Move (g :: graphs)
  last : (g :: graphs).getLast? = some h

theorem exists_trace (hmoves : Relation.ReflTransGen Move g h) : Nonempty (Trace g h) := by
  obtain ⟨graphs, hchain, hlast⟩ := exists_isChain_cons_of_relationReflTransGen hmoves
  refine ⟨graphs, hchain, ?_⟩
  rw [getLast?_eq_some_getLast (cons_ne_nil _ _), hlast]

/-- Every literal has the shape of the node that it is made for. -/
def Trace.Fits {g h : Graph α} (trace : Trace g h) : Prop :=
  ∀ ⦃m m'⦄, [m, m'] <:+: g :: trace.graphs → ¬ Misfits m m'

/-- No bypass overlooks anything above the value returned at a position. -/
def Trace.Sees {g h : Graph α} (trace : Trace g h) (position : Nat) : Prop :=
  ∀ ⦃m m'⦄, [m, m'] <:+: g :: trace.graphs → ¬ Overlooks position m m'

/-- What a chain of moves does to a value that is returned. -/
theorem Trace.exists_outputShape (trace : Trace g h) (hcoherent : g.Coherent) (hordered : g.Ordered)
    (hfits : trace.Fits) {position : Nat} {shape : Shape}
    (hshape : g.outputShapes[position]? = some shape) :
    ∃ shape', h.outputShapes[position]? = some shape' ∧ shape'.form = shape.form ∧
      (shape.isStandard = .ok true → trace.Sees position → shape' = shape) := by
  obtain ⟨graphs, hchain, hlast⟩ := trace
  unfold Fits Sees at *
  dsimp only at *
  induction graphs generalizing g shape with
  | nil =>
    cases hlast
    exact ⟨shape, hshape, rfl, fun _ _ => rfl⟩
  | cons next graphs ih =>
    obtain ⟨hmove, hrest⟩ := isChain_cons_cons.1 hchain
    have hfirst : [g, next] <:+: g :: next :: graphs := ⟨[], graphs, rfl⟩
    have hlater {m m' : Graph α} (hpair : [m, m'] <:+: next :: graphs) :
        [m, m'] <:+: g :: next :: graphs := hpair.trans (infix_cons (infix_refl _))
    obtain ⟨hcoherent', hordered'⟩ := hmove.coherent_ordered hcoherent hordered
    obtain ⟨middle, hmiddle, hform, hkeeps⟩ :=
      hmove.exists_outputShape hcoherent hordered (hfits hfirst) hshape
    obtain ⟨shape', hshape', hform', hkeeps'⟩ :=
      ih hcoherent' hordered' hmiddle hrest (by rwa [getLast?_cons_cons] at hlast)
        (fun _ _ hpair => hfits (hlater hpair))
    refine ⟨shape', hshape', hform'.trans hform, fun hstandard hclear => ?_⟩
    obtain rfl := hkeeps hstandard (hclear hfirst)
    exact hkeeps' hstandard fun _ _ hpair => hclear (hlater hpair)

end Pass

/-- An elimination is a chain of moves. However it is traced: as long as literals have the shapes of
the nodes that they are made for, a returned value keeps a standard layout exactly if it keeps its
shape, and it keeps its shape if no bypass overlooks anything above it. -/
theorem eliminateContiguous_outputShapes [Scalar α] {g : Graph α} (hcoherent : g.Coherent)
    (hordered : g.Ordered) {settings : Settings} {log : List LogLine}
    {stats : Pass.EliminationStats} {final : Workspace α}
    (hpass : Pass.eliminateContiguous settings "contiguous" ⟨g, log⟩ = .ok stats final) :
    Nonempty (Pass.Trace g final.graph) ∧
      ∀ (trace : Pass.Trace g final.graph) ⦃position shape⦄,
        g.outputShapes[position]? = some shape → shape.isStandard = .ok true → trace.Fits →
        ∃ shape', final.graph.outputShapes[position]? = some shape' ∧
          (shape'.isStandard = .ok true ↔ shape' = shape) ∧
          (trace.Sees position → shape' = shape) := by
  obtain ⟨m, hfirst, hsecond⟩ := Pass.eliminateContiguous_eq_ok hpass
  have hmoves := hfirst.moves hcoherent hordered
  obtain ⟨hcoherent', hordered'⟩ := Pass.coherent_ordered_of_moves hmoves hcoherent hordered
  refine ⟨Pass.exists_trace (hmoves.trans (hsecond.moves hcoherent' hordered')),
    fun trace position shape hshape hstandard hfits => ?_⟩
  obtain ⟨shape', hshape', hform, hkeeps⟩ :=
    trace.exists_outputShape hcoherent hordered hfits hshape
  refine ⟨shape', hshape', ⟨fun hstandard' => ?_, ?_⟩, hkeeps hstandard⟩
  · exact Shape.eq_of_form_eq_of_isStandard hform hstandard' hstandard
  · rintro rfl
    exact hstandard

/-! ## A layout that is kept -/

/-- A matrix stored by columns that is forced into the standard layout before and after it is
negated. -/
def guardedNegation : Graph Float32 :=
  ⟨"",
    [(0, ⟨.parameter "a" (.strided .float32 [⟨2, 1⟩, ⟨3, 2⟩]),
       .strided .float32 [⟨2, 1⟩, ⟨3, 2⟩], [], []⟩),
     (1, ⟨.contiguous, .strided .float32 [⟨2, 3⟩, ⟨3, 1⟩], [0], []⟩),
     (2, ⟨.unary .neg, .strided .float32 [⟨2, 3⟩, ⟨3, 1⟩], [1], []⟩),
     (3, ⟨.contiguous, .strided .float32 [⟨2, 3⟩, ⟨3, 1⟩], [2], []⟩)],
    [], 4⟩

/-- The graph after the first forced layout was bypassed. -/
def bypassedNegation : Graph Float32 :=
  ⟨"",
    [(0, ⟨.parameter "a" (.strided .float32 [⟨2, 1⟩, ⟨3, 2⟩]),
       .strided .float32 [⟨2, 1⟩, ⟨3, 2⟩], [], []⟩),
     (1, ⟨.contiguous, .strided .float32 [⟨2, 3⟩, ⟨3, 1⟩], [0], []⟩),
     (2, ⟨.unary .neg, .strided .float32 [⟨2, 1⟩, ⟨3, 2⟩], [0], []⟩),
     (3, ⟨.contiguous, .strided .float32 [⟨2, 3⟩, ⟨3, 1⟩], [2], []⟩)],
    [], 4⟩

theorem outputShapes_bypassedNegation :
    Nonempty (Pass.Trace guardedNegation bypassedNegation) ∧
      ∀ (trace : Pass.Trace guardedNegation bypassedNegation) ⦃position shape⦄,
        guardedNegation.outputShapes[position]? = some shape → shape.isStandard = .ok true →
        trace.Fits →
        ∃ shape', bypassedNegation.outputShapes[position]? = some shape' ∧
          (shape'.isStandard = .ok true ↔ shape' = shape) ∧
          (trace.Sees position → shape' = shape) := by
  have hpass : Pass.eliminateContiguous ⟨false, 1, false⟩ "contiguous" ⟨guardedNegation, []⟩ =
      .ok ⟨1, 0⟩ ⟨bypassedNegation, []⟩ := by rfl
  exact eliminateContiguous_outputShapes (by decide) (by decide) hpass

/-! ## Layouts that are lost -/

/-- A transposed matrix that is forced into the standard layout and transposed twice more. -/
def transposedAgain : Graph Float32 :=
  ⟨"",
    [(0, ⟨.parameter "a" (.strided .float32 [⟨2, 3⟩, ⟨3, 1⟩]),
       .strided .float32 [⟨2, 3⟩, ⟨3, 1⟩], [], []⟩),
     (1, ⟨.transpose [1, 0], .strided .float32 [⟨3, 1⟩, ⟨2, 3⟩], [0], []⟩),
     (2, ⟨.contiguous, .strided .float32 [⟨3, 2⟩, ⟨2, 1⟩], [1], []⟩),
     (3, ⟨.transpose [1, 0], .strided .float32 [⟨2, 1⟩, ⟨3, 2⟩], [2], []⟩),
     (4, ⟨.transpose [1, 0], .strided .float32 [⟨3, 2⟩, ⟨2, 1⟩], [3], []⟩)],
    [], 5⟩

/-- After the bypass the second transposition is standard, so speculation has not looked at the third
one. -/
def straightenedAgain : Graph Float32 :=
  ⟨"",
    [(0, ⟨.parameter "a" (.strided .float32 [⟨2, 3⟩, ⟨3, 1⟩]),
       .strided .float32 [⟨2, 3⟩, ⟨3, 1⟩], [], []⟩),
     (1, ⟨.transpose [1, 0], .strided .float32 [⟨3, 1⟩, ⟨2, 3⟩], [0], []⟩),
     (2, ⟨.contiguous, .strided .float32 [⟨3, 2⟩, ⟨2, 1⟩], [1], []⟩),
     (3, ⟨.transpose [1, 0], .strided .float32 [⟨2, 3⟩, ⟨3, 1⟩], [1], []⟩),
     (4, ⟨.transpose [1, 0], .strided .float32 [⟨3, 1⟩, ⟨2, 3⟩], [3], []⟩)],
    [], 5⟩

/-- A standard layout that is returned need not stay standard. -/
theorem not_eliminateContiguous_keepsStandard :
    ¬ ∀ (g : Graph Float32) (settings : Settings) (log : List LogLine)
      (stats : Pass.EliminationStats) (final : Workspace Float32) (position : Nat) (shape : Shape),
      g.Coherent → g.Ordered →
      Pass.eliminateContiguous settings "contiguous" ⟨g, log⟩ = .ok stats final →
      g.outputShapes[position]? = some shape → shape.isStandard = .ok true →
      ∃ shape', final.graph.outputShapes[position]? = some shape' ∧
        shape'.isStandard = .ok true := by
  intro hclaim
  have hpass : Pass.eliminateContiguous ⟨false, 1, false⟩ "contiguous" ⟨transposedAgain, []⟩ =
      .ok ⟨1, 0⟩ ⟨straightenedAgain, []⟩ := by rfl
  obtain ⟨shape', hshape', hstandard⟩ := hclaim _ _ _ _ _ 0 (.strided .float32 [⟨3, 2⟩, ⟨2, 1⟩])
    (by decide) (by decide) hpass rfl (by decide)
  cases hshape'
  revert hstandard
  decide

end TensorGraph
