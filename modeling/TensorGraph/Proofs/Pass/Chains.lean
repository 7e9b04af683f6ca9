import TensorGraph.Proofs.Pass.Following
import TensorGraph.Proofs.Pass.Shortening

/-!
# Chains of reshapes and transpositions

A node of the shortened graph stands for the node of the same index in the original one. A walk along
reshapes finds nodes with the same values in the same row-major order, and a walk along transpositions a
node whose value is turned by the composed order.
-/

namespace TensorGraph.Pass

open Graph List

variable {α : Type} [Scalar α] {g h : Graph α} {node source input : NodeId} {stored own : Stored α}
  {order : List Nat} {op : Operator α} {bound : Nat} {chain rest : List NodeId}

/-- Every node of the second graph computes what it computes in the first one. -/
abbrev Shortened (g h : Graph α) : Prop :=
  Throughout (Derives g id (Recomputes g id)) (Forall₂ (Stands g) · g.results) h

theorem shortened_self (hplain : g.Plain) : Shortened g g where
  toCoherent := hplain.toCoherent
  ordered := hplain.ordered
  instructions := fun _ _ hfound =>
    derives_kept hplain hfound rfl rfl (forall₂_same.2 fun input _ => .refl hplain input)
  results := forall₂_same.2 fun node _ => .refl hplain node

theorem Shortened.follows (hshortened : Shortened g h) : Follows g h id :=
  hshortened.mono (fun _ _ hderives => hderives.imp fun _ _ _ hrecomputes => hrecomputes.answers)
    fun _ hresults => hresults

/-- Nodes may be read in place of those that they stand for. -/
theorem shortened_exchanges (hplain : g.Plain) :
    Exchanges (Derives g id (Recomputes g id)) (Forall₂ (Stands g) · g.results) (Stands g) where
  refl := .refl hplain
  instruction := by
    intro node before stored hderives hop hmodules hinputs
    cases hderives with
    | parameter hfound hold hop' => exact .parameter hfound hold (hop.trans hop')
    | applied hop' hrecomputes =>
      exact .applied (hop ▸ hop') fun _ _ hadmits hyields =>
        (hrecomputes hadmits hyields).congr hadmits hop hmodules hinputs
  results := by
    intro nodes before hresults hnodes
    apply forall₂_of_common _ hnodes.flip hresults
    intro _ _ _ hnew hnode
    exact Stands.trans hnew hnode

/-- Cached shapes of the shortened graph have the lengths of the values. -/
theorem Shortened.form_eq (hshortened : Shortened g h) {bindings : Bindings α}
    (hadmits : g.Admits bindings) (hfound : h.find? node = some stored) {t : Tensor α}
    (hyields : Yields g.moduleRunner g bindings node t) : stored.shape.form = t.shape.form := by
  -- The inputs of a node come earlier, so this is by induction along the order.
  induction hrank : h.order.idxOf node using Nat.strongRecOn generalizing node stored t with
  | ind rank ih =>
  obtain ⟨shapes, hshapes, hinfer⟩ := hshortened.settled _ _ hfound
  cases hshortened.instructions hfound with
  | parameter hold hop hop' =>
    obtain ⟨hshape, -⟩ := hadmits hold hop (hyields.find?_eq hold hop)
    rw [hop'] at hinfer
    obtain ⟨_, -, hpure⟩ := bind_eq_ok_iff.1 hinfer
    rw [← Except.ok.inj hpure, hshape]
  | applied hop hrecomputes =>
    obtain ⟨hplain, -, args, u, hgives, hrun, htwin⟩ := hrecomputes hadmits hyields
    have hvalid : ∀ a ∈ args, a.Valid := by
      intro a hmem
      obtain ⟨_, -, _, -, htwin⟩ := exists_mem_right_of_forall₂ hgives.flip hmem
      exact htwin.valid'
    obtain ⟨-, hinfer'⟩ := Operator.apply_sound hplain.tame hvalid hrun
    rw [map_signature_callable] at hinfer'
    have hforms : shapes.map Shape.form = (Tensor.shapes args).map Shape.form := by
      rw [Tensor.shapes_eq_map, map_map, ← forall₂_eq_eq_eq, forall₂_map_left_iff,
        forall₂_map_right_iff]
      have hinputs := (forall₂_and_left _ _).2
        ⟨fun input hinput => hinput, shapes_eq_ok_iff.1 hshapes⟩
      apply forall₂_of_common _ hinputs hgives
      rintro input shape a ⟨hinput, hshape⟩ ⟨s, hs, htwin⟩
      obtain ⟨before, hbefore, rfl⟩ := shape_eq_ok_iff.1 hshape
      have hearlier := hshortened.ordered hfound input hinput
      rw [ih _ (hrank ▸ hearlier) hbefore hs rfl]
      exact htwin.alike.form_eq.symm
    rw [Operator.infer_form hforms hinfer' hinfer, htwin.alike.form_eq]

omit [Scalar α] in
theorem bare_of_keepsRowMajor (hkeeps : keepsRowMajor op = true) :
    op.isParameter = false ∧ op.isPointwise = false := by
  cases op with
  | contiguous | reshape | squeeze | unsqueeze => exact ⟨rfl, rfl⟩
  | _ => cases hkeeps

section Nodes

variable {g h : Graph α} (hshortened : Shortened g h) {bindings : Bindings α}
  (hadmits : g.Admits bindings) {node : NodeId} {stored : Stored α}
  (hfound : h.find? node = some stored) {t : Tensor α}
  (hyields : Yields g.moduleRunner g bindings node t)

include hshortened hadmits hfound hyields

/-- A node that carries no modules gets its value from what its inputs give. -/
theorem Shortened.exists_args (hop : stored.op.isParameter = false)
    (hbare : stored.op.isPointwise = false) :
    ∃ args u, Forall₂ (Gives g bindings) stored.inputs args ∧
      (∀ a ∈ args, a.Valid) ∧ stored.op.apply args [] = .ok u ∧ u.Twin t := by
  cases hshortened.instructions hfound with
  | parameter _ _ hop' =>
    rw [hop'] at hop
    cases hop
  | applied _ hrecomputes =>
    obtain ⟨hplain, -, args, u, hgives, hrun, htwin⟩ := hrecomputes hadmits hyields
    have hnone : stored.modules = [] := by
      apply hplain.modules.resolve_right
      rintro ⟨hpointwise, -⟩
      rw [hbare] at hpointwise
      cases hpointwise
    rw [hnone, map_nil] at hrun
    refine ⟨args, u, hgives, fun a hmem => ?_, hrun, htwin.symm⟩
    obtain ⟨_, -, _, -, htwin⟩ := exists_mem_right_of_forall₂ hgives.flip hmem
    exact htwin.valid'

/-- A node that keeps the row-major order reads one node, with the same values in this order. -/
theorem Shortened.exists_sameOrder (hkeeps : keepsRowMajor stored.op = true) :
    ∃ input s, stored.inputs = [input] ∧ Yields g.moduleRunner g bindings input s ∧
      s.SameOrder t ∧ t.shape.isTuple = false := by
  obtain ⟨hop, hbare⟩ := bare_of_keepsRowMajor hkeeps
  obtain ⟨args, u, hgives, hvalid, hrun, htwin⟩ :=
    hshortened.exists_args hadmits hfound hyields hop hbare
  obtain ⟨a, rfl, hsame, hstrided⟩ := Operator.apply_sameOrder hkeeps hvalid hrun
  obtain ⟨input, rest, ⟨s, hs, htwin'⟩, hnil, hinputs⟩ := forall₂_cons_right_iff.1 hgives
  obtain rfl := forall₂_nil_right_iff.1 hnil
  refine ⟨input, s, hinputs, hs, htwin'.sameOrder.trans (hsame.trans htwin.sameOrder), ?_⟩
  rw [← Shape.isTuple_form, htwin.alike.form_eq, Shape.isTuple_form]
  exact hstrided

/-- A transposition reads one node and turns its value. -/
theorem Shortened.exists_turned {order : List Nat} (hop : stored.op = .transpose order) :
    ∃ input s, stored.inputs = [input] ∧ Yields g.moduleRunner g bindings input s ∧
      s.Turned order t := by
  obtain ⟨args, u, hgives, hvalid, hrun, htwin⟩ := hshortened.exists_args hadmits hfound hyields
    (by rw [hop]; rfl) (by rw [hop]; rfl)
  rw [hop] at hrun
  obtain ⟨out, hinfer, -⟩ := Operator.apply_eq_ok_iff.1 hrun
  obtain ⟨s, hs, -⟩ := Inference.transposeShape_eq_ok hinfer
  obtain ⟨a, rfl, -⟩ := Tensor.exists_of_shapes_eq_one hs
  obtain ⟨input, rest, ⟨s, hs, htwin'⟩, hnil, hinputs⟩ := forall₂_cons_right_iff.1 hgives
  obtain rfl := forall₂_nil_right_iff.1 hnil
  have hturned : a.Turned order t := ⟨u, hrun, htwin⟩
  exact ⟨input, s, hinputs, hs, hturned.of_twin htwin'⟩

end Nodes

/-- What a node that forces the standard layout reads stands for it. -/
theorem Shortened.stands_of_contiguous (hshortened : Shortened g h)
    (hfound : h.find? node = some stored) (hop : stored.op = .contiguous)
    (hinputs : stored.inputs = [input]) : Stands g input node := by
  intro bindings t hadmits hyields
  obtain ⟨args, u, hgives, hvalid, hrun, htwin⟩ := hshortened.exists_args hadmits hfound hyields
    (by rw [hop]; rfl) (by rw [hop]; rfl)
  rw [hinputs] at hgives
  obtain ⟨a, _, ⟨s, hs, htwin'⟩, hnil, rfl⟩ := forall₂_cons_left_iff.1 hgives
  obtain rfl := forall₂_nil_left_iff.1 hnil
  rw [hop] at hrun
  have hforced := Operator.contiguous_twin (hvalid a mem_cons_self) hrun
  exact ⟨s, hs, htwin'.trans (hforced.trans htwin)⟩

/-- Wherever a node has a value it is no tuple, and an earlier node has the same values in the same
row-major order. -/
structure Carries (g h : Graph α) (node source : NodeId) : Prop where
  earlier : h.order.idxOf source < h.order.idxOf node
  sameOrder : ∀ ⦃bindings t⦄, g.Admits bindings → Yields g.moduleRunner g bindings node t →
    ∃ s, Yields g.moduleRunner g bindings source s ∧ s.SameOrder t ∧ t.shape.isTuple = false

theorem Carries.trans {first second third : NodeId} (hfirst : Carries g h first second)
    (hsecond : Carries g h second third) :
    Carries g h first third where
  earlier := Nat.lt_trans hsecond.earlier hfirst.earlier
  sameOrder := by
    intro bindings t hadmits hyields
    obtain ⟨s, hs, hsame, hstrided⟩ := hfirst.sameOrder hadmits hyields
    obtain ⟨r, hr, hsame', -⟩ := hsecond.sameOrder hadmits hs
    exact ⟨r, hr, hsame'.trans hsame, hstrided⟩

theorem Shortened.carries (hshortened : Shortened g h)
    (hfound : h.find? node = some stored) (hkeeps : keepsRowMajor stored.op = true)
    (hinputs : stored.inputs = input :: rest) :
    Carries g h node input where
  earlier := hshortened.ordered hfound input (hinputs ▸ mem_cons_self)
  sameOrder := by
    intro bindings t hadmits hyields
    obtain ⟨input', s, hinputs', hs, hsame⟩ :=
      hshortened.exists_sameOrder hadmits hfound hyields hkeeps
    cases hinputs.symm.trans hinputs'
    exact ⟨s, hs, hsame⟩

theorem Shortened.carries_of_above (hshortened : Shortened g h)
    (habove : Relation.TransGen (Above h) node source) : Carries g h node source := by
  induction habove with
  | single hfirst =>
    obtain ⟨stored, rest, hfound, hkeeps, hinputs⟩ := hfirst
    exact hshortened.carries hfound hkeeps hinputs
  | tail _ hlast ih =>
    obtain ⟨stored, rest, hfound, hkeeps, hinputs⟩ := hlast
    exact ih.trans (hshortened.carries hfound hkeeps hinputs)

/-- Where the shape comes again, the earlier node stands for the later one. -/
theorem Shortened.stands_of_recurrence (hplain : g.Plain) (hshortened : Shortened g h)
    {start earlier : NodeId} (hcarries : Carries g h start earlier) {shape : Shape}
    (hstart : h.shape start = .ok shape) (hearlier : h.shape earlier = .ok shape) :
    Stands g earlier start := by
  intro bindings t hadmits hyields
  obtain ⟨s, hs, hsame, hstrided⟩ := hcarries.sameOrder hadmits hyields
  obtain ⟨stored, hfound, rfl⟩ := shape_eq_ok_iff.1 hstart
  obtain ⟨stored', hfound', hshape⟩ := shape_eq_ok_iff.1 hearlier
  have hform := hshortened.form_eq hadmits hfound hyields
  have hform' := hshortened.form_eq hadmits hfound' hs
  rw [hshape] at hform'
  refine ⟨s, hs, hsame.twin (hform.symm.trans hform') hstrided ?_ ?_⟩
  · exact (hplain.yields_sound hadmits hs).1
  · exact (hplain.yields_sound hadmits hyields).1

/-- Wherever a node has a value, it is the value of another node with its axes in this order. -/
def Turns (g : Graph α) (order : List Nat) (source node : NodeId) : Prop :=
  ∀ ⦃bindings t⦄, g.Admits bindings → Yields g.moduleRunner g bindings node t →
    ∃ s, Yields g.moduleRunner g bindings source s ∧ s.Turned order t

theorem Turns.of_stands {source' : NodeId} (hturns : Turns g order source node)
    (hstands : Stands g source' source) : Turns g order source' node := by
  intro bindings t hadmits hyields
  obtain ⟨s, hs, hturned⟩ := hturns hadmits hyields
  obtain ⟨s', hs', htwin⟩ := hstands hadmits hs
  exact ⟨s', hs', hturned.of_twin htwin⟩

theorem Turns.comp (hplain : g.Plain) {first second composed : List Nat} {middle : NodeId}
    (hfirst : Turns g first source middle) (hsecond : Turns g second middle node)
    (hcomposed : Permutation.reorder first second = .ok composed) :
    Turns g composed source node := by
  intro bindings t hadmits hyields
  obtain ⟨m, hm, hturned⟩ := hsecond hadmits hyields
  obtain ⟨s, hs, hturned'⟩ := hfirst hadmits hm
  have hvalid := (hplain.yields_sound hadmits hs).1
  exact ⟨s, hs, hturned'.comp hvalid hturned hcomposed⟩

theorem Turns.stands_of_isIdentity (hplain : g.Plain) (hturns : Turns g order source node)
    (hidentity : Permutation.isIdentity order = true) : Stands g source node := by
  intro bindings t hadmits hyields
  obtain ⟨s, hs, hturned⟩ := hturns hadmits hyields
  have hvalid := (hplain.yields_sound hadmits hs).1
  exact ⟨s, hs, hturned.twin_of_isIdentity hvalid hidentity⟩

section Transposes

variable {g h : Graph α} (hplain : g.Plain) (hshortened : Shortened g h) {node : NodeId}
  {stored : Stored α} {order : List Nat}

include hplain hshortened

/-- What is forced into the standard layout stands for what forces it. -/
theorem Shortened.stands_of_forces {above : NodeId}
    (hthrough : Relation.ReflTransGen (Forces h) node above) : Stands g above node := by
  induction hthrough with
  | refl => exact .refl hplain _
  | tail _ hforces ih =>
    obtain ⟨stored, hfound, hop, hinputs⟩ := hforces
    exact (hshortened.stands_of_contiguous hfound hop hinputs).trans ih

omit hplain in
theorem Shortened.turns {source : NodeId} (hfound : h.find? node = some stored)
    (hop : stored.op = .transpose order) (hinputs : stored.inputs = source :: rest) :
    Turns g order source node := by
  intro bindings t hadmits hyields
  obtain ⟨input, s, hinputs', hs, hturned⟩ :=
    hshortened.exists_turned hadmits hfound hyields hop
  cases hinputs.symm.trans hinputs'
  exact ⟨s, hs, hturned⟩

/-- A transposition is turned by nothing from itself. -/
theorem Shortened.turns_identity (hfound : h.find? node = some stored)
    (hop : stored.op = .transpose order) :
    Turns g (Permutation.identity stored.shape.rank) node node := by
  intro bindings t hadmits hyields
  obtain ⟨input, s, -, hs, hturned⟩ := hshortened.exists_turned hadmits hfound hyields hop
  have hvalid := (hplain.yields_sound hadmits hs).1
  obtain ⟨elem, axes, hshape⟩ := hturned.exists_strided hvalid
  have hrank : stored.shape.rank = axes.length := by
    rw [← Shape.rank_form, hshortened.form_eq hadmits hfound hyields, Shape.rank_form, hshape]
    rfl
  rw [hrank]
  exact ⟨t, hyields, Tensor.turned_identity
    (hplain.yields_sound hadmits hyields).1 hshape⟩

/-- The walk along transpositions composes how the lowest value is turned. -/
theorem Shortened.climb {chain : TransposeChain}
    (hclimb : Climb h node source own chain) : Turns g chain.order source node := by
  obtain ⟨order, hop⟩ := hclimb.turned
  obtain ⟨top, order', rest, htop, hturned, hinputs⟩ := hclimb.top
  refine transposeChain_invariant (motive := fun composed above => Turns g composed above node) ?_ ?_
    hclimb.walked (hshortened.turns_identity hplain hclimb.found hop) htop hturned hinputs
  · intro above stored order composed composed' input rest hfound hop hinputs hcomposed hturns
    exact (hshortened.turns hfound hop hinputs).comp hplain hturns hcomposed
  · intro input above composed hjoins hturns
    exact hturns.of_stands (hshortened.stands_of_forces hplain hjoins.through)

end Transposes

/-- Giving a transposition the order and the input that its value has. -/
theorem Shortened.replaceTranspose (hplain : g.Plain) (hshortened : Shortened g h)
    {order' : List Nat} (hturns : Turns g order source node)
    (hbefore : h.order.idxOf source < h.order.idxOf node)
    (hown : h.find? node = some own) (hop : own.op = .transpose order') {k : Graph α}
    (hrun : Edit.replaceOperator node (.transpose order) [source] [] h = .ok () k) :
    Shortened g k := by
  refine hshortened.replaceOperator (shortened_exchanges hplain) hown (by rw [hop]; rfl) rfl
    (by simpa using hbefore) (fun stored hop hinputs hmodules => ?_) hrun
  refine .applied (by rw [hop]; rfl) fun bindings t hadmits hyields => ?_
  obtain ⟨s, hs, u, hrun, htwin⟩ := hturns hadmits hyields
  have hvalid := (hplain.yields_sound hadmits hs).1
  refine ⟨⟨by rw [hop]; trivial, .inl hmodules⟩, fun _ => by rw [hop]; trivial, [s], u, ?_, ?_,
    htwin.symm⟩
  · rw [hinputs]
    exact .cons ⟨s, hs, .refl hvalid⟩ .nil
  · rw [hop, hmodules]
    exact hrun

end TensorGraph.Pass
