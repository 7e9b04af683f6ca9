import TensorGraph.Pass.Reshapes
import TensorGraph.Proofs.Graph.Order
import TensorGraph.Proofs.Operator.Inference
import TensorGraph.Proofs.Pass.Revisions

/-!
# What the shortening of chains does to a graph

The readers of the end of a chain are pointed further up, or the last transposition gets the composed
order.
-/

namespace TensorGraph.Pass

open Graph Revision List

variable {α : Type} {g h : Graph α} {node above : NodeId} {stored : Stored α} {op : Operator α}
  {order composed : List Nat} {bound : Nat} {chain : List NodeId}

theorem eq_contiguous_of_isContiguous (hop : isContiguous op = true) : op = .contiguous := by
  cases op with
  | contiguous => rfl
  | _ => cases hop

theorem eq_transpose_of_transposeOrder? (hop : op.transposeOrder? = some order) :
    op = .transpose order := by
  cases op with
  | transpose order' => rw [Option.some.inj hop]
  | _ => cases hop

theorem isLiteral_of_keepsRowMajor (hkeeps : keepsRowMajor op = true) : op.isLiteral = false := by
  cases op with
  | literal value => cases hkeeps
  | _ => rfl

/-! ## Chains that keep the row-major order -/

/-- A node that keeps the row-major order reads another one. -/
def Above (g : Graph α) (node input : NodeId) : Prop :=
  ∃ stored rest, g.find? node = some stored ∧ keepsRowMajor stored.op = true ∧
    stored.inputs = input :: rest

theorem idxOf_lt_of_above (hordered : g.Ordered) (habove : Relation.TransGen (Above g) node above) :
    g.order.idxOf above < g.order.idxOf node := by
  induction habove with
  | single hfirst =>
    obtain ⟨stored, rest, hfound, -, hinputs⟩ := hfirst
    exact hordered hfound _ (hinputs ▸ mem_cons_self)
  | tail _ hlast ih =>
    obtain ⟨stored, rest, hfound, -, hinputs⟩ := hlast
    exact Nat.lt_trans (hordered hfound _ (hinputs ▸ mem_cons_self)) ih

theorem idxOf_le_of_above (hordered : g.Ordered)
    (habove : Relation.ReflTransGen (Above g) node above) :
    g.order.idxOf above ≤ g.order.idxOf node := by
  rcases Relation.reflTransGen_iff_eq_or_transGen.1 habove with rfl | habove
  · exact Nat.le_refl _
  · exact Nat.le_of_lt (idxOf_lt_of_above hordered habove)

/-- A chain goes upward. -/
theorem chainAbove_pairwise (hrun : chainAboveWithin g bound node = .ok (some chain)) :
    chain.head? = some node ∧ chain.Pairwise (Relation.TransGen (Above g)) := by
  induction bound generalizing node chain with
  | zero => cases hrun
  | succ bound ih =>
    obtain ⟨op, hop, hrun⟩ := bind_eq_ok_iff.1 hrun
    obtain ⟨stored, hfound, rfl⟩ := op_eq_ok_iff.1 hop
    split_ifs at hrun with hkeeps
    · rw [inputs_of_find? hfound] at hrun
      cases hinputs : stored.inputs with
      | nil =>
        rw [hinputs] at hrun
        cases hrun
      | cons input rest =>
        rw [hinputs] at hrun
        obtain ⟨above, habove, hpure⟩ := bind_eq_ok_iff.1 hrun
        obtain ⟨chain', rfl, rfl⟩ := Option.map_eq_some_iff.1 (Except.ok.inj hpure)
        obtain ⟨hhead, hpairwise⟩ := ih habove
        obtain ⟨tail, rfl⟩ := head?_eq_some_iff.1 hhead
        have hfirst : Above g node input := ⟨stored, rest, hfound, hkeeps, hinputs⟩
        refine ⟨rfl, pairwise_cons.2 ⟨?_, hpairwise⟩⟩
        intro other hother
        rcases mem_cons.1 hother with rfl | hother
        · exact .single hfirst
        · exact .head hfirst ((pairwise_cons.1 hpairwise).1 other hother)
    · cases hrun
      exact ⟨rfl, pairwise_singleton _ _⟩

/-- A shape that comes again comes again further along the chain. -/
theorem recurrence?_eq_ok {related : NodeId → NodeId → Prop} (hchain : chain.Pairwise related)
    {start earlier : NodeId} (hrun : recurrence? g chain = .ok (some (start, earlier))) :
    start ∈ chain ∧ related start earlier ∧
      ∃ shape, g.shape start = .ok shape ∧ g.shape earlier = .ok shape := by
  obtain ⟨shaped, hshaped, hpure⟩ := bind_eq_ok_iff.1 hrun
  have hentries : Forall₂ (fun node entry => node = entry.1 ∧ g.shape entry.1 = .ok entry.2)
      chain shaped := by
    refine (mapM_eq_ok_iff.1 hshaped).imp fun node entry hentry => ?_
    obtain ⟨shape, hshape, hpure⟩ := bind_eq_ok_iff.1 hentry
    cases hpure
    exact ⟨rfl, hshape⟩
  have hnodes : chain = shaped.map (·.1) := by
    rw [← forall₂_eq_eq_eq, forall₂_map_right_iff]
    exact hentries.imp fun _ _ hentry => hentry.1
  have hshape : ∀ entry ∈ shaped, g.shape entry.1 = .ok entry.2 := by
    intro entry hmem
    obtain ⟨_, -, hentry⟩ := exists_mem_right_of_forall₂ hentries.flip hmem
    exact hentry.2
  obtain ⟨before, ⟨first, shape⟩, after, hsplit, hfirst, hnone⟩ :=
    findSome?_eq_some_iff.1 (Except.ok.inj hpure)
  obtain ⟨⟨other, shape'⟩, hfind, heq⟩ := Option.map_eq_some_iff.1 hfirst
  cases heq
  have hmem := mem_of_find?_eq_some hfind
  obtain ⟨hne, rfl⟩ : earlier ≠ start ∧ shape' = shape := by simpa using find?_some hfind
  rw [mem_reverse] at hmem
  refine ⟨by simp [hnodes, hsplit], ?_, shape', hshape (start, shape') (by simp [hsplit]),
    hshape _ hmem⟩
  rw [hsplit, mem_append, mem_cons] at hmem
  rcases hmem with hbefore | heq | hafter
  · -- Had the other node come below, its own shape would have come again at the first one.
    have hagain := hnone _ hbefore
    rw [Option.map_eq_none_iff, find?_eq_none] at hagain
    exact absurd (hagain (start, shape') (by simp [hsplit])) (by simpa using Ne.symm hne)
  · cases heq
    exact absurd rfl hne
  · rw [hnodes, hsplit, map_append, map_cons] at hchain
    have hbelow := (pairwise_cons.1 (pairwise_append.1 hchain).2.1).1
    exact hbelow earlier (mem_map_of_mem hafter)

/-! ## Chains of transpositions -/

/-- A node forces the standard layout of another one. -/
def Forces (g : Graph α) (node input : NodeId) : Prop :=
  ∃ stored, g.find? node = some stored ∧ stored.op = .contiguous ∧ stored.inputs = [input]

/-- The search for a transposition stays at a node, or goes to its input and up through contiguous
nodes. -/
theorem transposeAbove_eq_ok (hrun : transposeAboveWithin g bound node = .ok above) :
    above = node ∨ ∃ input stored, g.inputs node = [input] ∧ g.find? input = some stored ∧
      stored.op.isLiteral = false ∧ Relation.ReflTransGen (Forces g) input above := by
  induction bound generalizing node with
  | zero => cases hrun
  | succ bound ih =>
    rw [transposeAboveWithin] at hrun
    split at hrun
    · rename_i input hinputs
      obtain ⟨op, hop, hrun⟩ := bind_eq_ok_iff.1 hrun
      obtain ⟨stored, hfound, rfl⟩ := op_eq_ok_iff.1 hop
      split_ifs at hrun with hcontiguous htranspose
      · have hop := eq_contiguous_of_isContiguous hcontiguous
        refine .inr ⟨input, stored, hinputs, hfound, by rw [hop]; rfl, ?_⟩
        rcases ih hrun with rfl | ⟨input', _, hinputs', -, -, hthrough⟩
        · exact .refl
        · rw [inputs_of_find? hfound] at hinputs'
          exact .head ⟨stored, hfound, hop, hinputs'⟩ hthrough
      · cases hrun
        obtain ⟨order, horder⟩ := Option.isSome_iff_exists.1 htranspose
        refine .inr ⟨above, stored, hinputs, hfound, ?_, .refl⟩
        rw [eq_transpose_of_transposeOrder? horder]
        rfl
      · cases hrun
        exact .inl rfl
    · cases hrun
      exact .inl rfl

/-- One step of the walk along transpositions: it ends where no other transposition is found. -/
theorem transposeChain_eq_ok {chain : TransposeChain}
    (hrun : transposeChainWithin g (bound + 1) node composed = .ok (some chain)) :
    ∃ own order composed' above stored, g.find? node = some own ∧ own.op = .transpose order ∧
      Permutation.reorder order composed = .ok composed' ∧
      transposeAboveWithin g (g.size + 1) node = .ok above ∧ g.find? above = some stored ∧
      ((above = node ∨ stored.op.transposeOrder? = none) ∧ chain = ⟨above, composed'⟩ ∨
        above ≠ node ∧ (∃ order', stored.op = .transpose order') ∧
          transposeChainWithin g bound above composed' = .ok (some chain)) := by
  rw [transposeChainWithin] at hrun
  obtain ⟨op, hop, hrun⟩ := bind_eq_ok_iff.1 hrun
  obtain ⟨own, hown, rfl⟩ := op_eq_ok_iff.1 hop
  cases horder : own.op.transposeOrder? with
  | none =>
    rw [horder] at hrun
    cases hrun
  | some order =>
    rw [horder] at hrun
    obtain ⟨composed', hcomposed, hrun⟩ := bind_eq_ok_iff.1 hrun
    obtain ⟨above, habove, hrun⟩ := bind_eq_ok_iff.1 hrun
    obtain ⟨op, hop, hrun⟩ := bind_eq_ok_iff.1 hrun
    obtain ⟨stored, hstored, rfl⟩ := op_eq_ok_iff.1 hop
    refine ⟨own, order, composed', above, stored, hown, eq_transpose_of_transposeOrder? horder,
      hcomposed, habove, hstored, ?_⟩
    split_ifs at hrun with hend
    · cases hrun
      exact .inl ⟨by simpa using hend, rfl⟩
    · rw [Bool.or_eq_true, decide_eq_true_iff, not_or] at hend
      obtain ⟨order', horder'⟩ : ∃ order', stored.op.transposeOrder? = some order' :=
        Option.ne_none_iff_exists'.1 (by simpa using hend.2)
      exact .inr ⟨hend.1, ⟨order', eq_transpose_of_transposeOrder? horder'⟩, hrun⟩

/-- Contiguous nodes, if any, join what a transposition reads to another transposition. -/
structure Joins (g : Graph α) (input above : NodeId) : Prop where
  below : ∃ node stored order, g.find? node = some stored ∧ stored.op = .transpose order ∧
    stored.inputs = [input]
  through : Relation.ReflTransGen (Forces g) input above
  above : ∃ stored order, g.find? above = some stored ∧ stored.op = .transpose order

/-- What a walk along transpositions hands on from a transposition to its input, and through contiguous
nodes to the next transposition, it hands on to what the uppermost one reads. -/
theorem transposeChain_invariant {motive : List Nat → NodeId → Prop}
    (hturn : ∀ {node stored order composed composed' input rest}, g.find? node = some stored →
      stored.op = .transpose order → stored.inputs = input :: rest →
      Permutation.reorder order composed = .ok composed' → motive composed node →
      motive composed' input)
    (hjoin : ∀ {input above composed}, Joins g input above → motive composed input →
      motive composed above)
    {chain : TransposeChain}
    (hrun : transposeChainWithin g bound node composed = .ok (some chain))
    (hstart : motive composed node) {source : NodeId} {rest : List NodeId}
    (hfound : g.find? chain.top = some stored) (hop : stored.op = .transpose order)
    (hinputs : stored.inputs = source :: rest) : motive chain.order source := by
  induction bound generalizing node composed with
  | zero => cases hrun
  | succ bound ih =>
    obtain ⟨current, order', composed', above, _, hcurrent, hop', hcomposed, habove, hstored, hrest⟩ :=
      transposeChain_eq_ok hrun
    have hstays (heq : above = node) (hchain : chain = ⟨above, composed'⟩) :
        motive chain.order source := by
      subst heq hchain
      cases hfound.symm.trans hcurrent
      exact hturn hcurrent hop' hinputs hcomposed hstart
    rcases hrest with ⟨hend, hchain⟩ | ⟨hne, ⟨order'', hop''⟩, hrest⟩
    · rcases hend with heq | hend
      · exact hstays heq hchain
      · -- The walk ends at a contiguous node, which is no transposition.
        subst hchain
        cases hfound.symm.trans hstored
        rw [hop] at hend
        cases hend
    · obtain ⟨input, _, hinput, -, -, hthrough⟩ := (transposeAbove_eq_ok habove).resolve_left hne
      rw [inputs_of_find? hcurrent] at hinput
      have hjoins : Joins g input above :=
        ⟨⟨node, current, order', hcurrent, hop', hinput⟩, hthrough, _, order'', hstored, hop''⟩
      exact ih hrest (hjoin hjoins (hturn hcurrent hop' hinput hcomposed hstart))

theorem Forces.idxOf_lt {input : NodeId} (hforces : Forces g node input) (hordered : g.Ordered) :
    g.order.idxOf input < g.order.idxOf node := by
  obtain ⟨stored, hfound, -, hinputs⟩ := hforces
  exact hordered hfound input (hinputs ▸ mem_cons_self)

theorem idxOf_le_of_forces (hordered : g.Ordered)
    (hthrough : Relation.ReflTransGen (Forces g) node above) :
    g.order.idxOf above ≤ g.order.idxOf node := by
  induction hthrough with
  | refl => exact Nat.le_refl _
  | tail _ hforces ih => exact Nat.le_of_lt (Nat.lt_of_lt_of_le (hforces.idxOf_lt hordered) ih)

/-- The walk along transpositions stays at a node, or goes to its input and on upward. -/
theorem transposeChain_earlier (hordered : g.Ordered) {chain : TransposeChain}
    (hrun : transposeChainWithin g bound node composed = .ok (some chain)) :
    chain.top = node ∨ ∃ input stored, g.inputs node = [input] ∧ g.find? input = some stored ∧
      stored.op.isLiteral = false ∧ g.order.idxOf chain.top ≤ g.order.idxOf input := by
  induction bound generalizing node composed with
  | zero => cases hrun
  | succ bound ih =>
    obtain ⟨_, _, _, above, _, -, -, -, habove, -, hrest⟩ := transposeChain_eq_ok hrun
    rcases transposeAbove_eq_ok habove with rfl | ⟨input, stored, hinputs, hfound, hliteral, hthrough⟩
    · rcases hrest with ⟨-, rfl⟩ | ⟨hne, -⟩
      · exact .inl rfl
      · exact absurd rfl hne
    have hle := idxOf_le_of_forces hordered hthrough
    refine .inr ⟨input, stored, hinputs, hfound, hliteral, ?_⟩
    rcases hrest with ⟨-, rfl⟩ | ⟨-, -, hrest⟩
    · exact hle
    rcases ih hrest with heq | ⟨input', _, hinputs', -, -, hle'⟩
    · rwa [heq]
    · have hlt := hordered.idxOf_lt (hinputs' ▸ mem_cons_self : input' ∈ _)
      exact Nat.le_of_lt (Nat.lt_of_le_of_lt hle' (Nat.lt_of_lt_of_le hlt hle))

/-! ## Steps -/

/-- What is found on the way up from a transposition: the uppermost one, and what it reads. -/
structure Climb (g : Graph α) (node source : NodeId) (own : Instruction α (Graph α))
    (chain : TransposeChain) : Prop where
  found : g.find? node = some own
  turned : ∃ order, own.op = .transpose order
  ends : feedsTransposeWithin g (g.size + 1) node = .ok false
  /-- The walk ends here, with the composed order. -/
  walked : transposeChainWithin g (g.size + 1) node (Permutation.identity own.shape.rank) =
    .ok (some chain)
  top : ∃ top order rest, g.find? chain.top = some top ∧ top.op = .transpose order ∧
    top.inputs = source :: rest

section Climb

variable {source : NodeId} {own : Stored α} {chain : TransposeChain}
  (hclimb : Climb g node source own chain) (hordered : g.Ordered)

include hclimb hordered

theorem Climb.source_above : g.order.idxOf source < g.order.idxOf chain.top := by
  obtain ⟨top, _, rest, htop, -, hinputs⟩ := hclimb.top
  exact hordered htop source (hinputs ▸ mem_cons_self)

theorem Climb.top_le : g.order.idxOf chain.top ≤ g.order.idxOf node := by
  rcases transposeChain_earlier hordered hclimb.walked with heq | ⟨input, _, hinputs, -, -, hle⟩
  · exact Nat.le_of_eq (heq ▸ rfl)
  · exact Nat.le_of_lt (Nat.lt_of_le_of_lt hle (hordered.idxOf_lt (hinputs ▸ mem_cons_self)))

theorem Climb.source_earlier : g.order.idxOf source < g.order.idxOf node :=
  Nat.lt_of_lt_of_le (hclimb.source_above hordered) (hclimb.top_le hordered)

end Climb

/-- What is done at a node, and which node may then have become unused. -/
inductive Shortens (g : Graph α) (node : NodeId) : Option NodeId → Graph α → Prop
  | idle : Shortens g node none g
  /-- A chain comes back to an earlier shape. -/
  | collapse {start earlier : NodeId} {shape : Shape} {h : Graph α}
      (hbelow : Relation.ReflTransGen (Above g) node start)
      (habove : Relation.TransGen (Above g) start earlier) (hstart : g.shape start = .ok shape)
      (hearlier : g.shape earlier = .ok shape) (hread : g.hasConsumers start = true)
      (hrun : Edit.replaceInstruction start earlier g = .ok () h) : Shortens g node (some start) h
  /-- Transpositions cancel. -/
  | cancel {source : NodeId} {own : Instruction α (Graph α)} {chain : TransposeChain} {h : Graph α}
      (hclimb : Climb g node source own chain)
      (hidentity : Permutation.isIdentity chain.order = true) (hread : g.hasConsumers node = true)
      (hrun : Edit.replaceInstruction node source g = .ok () h) : Shortens g node (some node) h
  /-- Several transpositions become one. -/
  | turn {old source : NodeId} {own : Instruction α (Graph α)} {chain : TransposeChain}
      {rest : List NodeId} {h : Graph α} (hclimb : Climb g node source own chain)
      (hinputs : own.inputs = old :: rest) (hne : chain.top ≠ node)
      (hrun : Edit.replaceOperator node (.transpose chain.order) [source] [] g = .ok () h) :
      Shortens g node (some old) h

section Inversion

variable {w final : Workspace α} {unused? : Option NodeId}

theorem bypass_eq_ok {old new : NodeId} (hrun : bypass old new w = .ok unused? final) :
    (unused? = none ∧ final.graph = w.graph) ∨
      unused? = some old ∧ Edit.replaceInstruction old new w.graph = .ok () final.graph := by
  obtain ⟨outcome, middle, hattempt, hrun⟩ := stateBind_eq_ok_iff.1 hrun
  rcases attempt_eq_ok hattempt with ⟨value, rfl, hedit⟩ | ⟨cause, rfl, hedit⟩ <;> cases hrun
  · exact .inr ⟨rfl, hedit⟩
  · exact .inl ⟨rfl, Edit.transaction_eq_error hedit⟩

theorem collapseChain_eq_ok (hrun : collapseChain node w = .ok unused? final) :
    Shortens w.graph node unused? final.graph := by
  rw [collapseChain, graph_bind_eq_ok_iff] at hrun
  obtain ⟨goesOn, -, hrun⟩ := lift_bind_eq_ok_iff.1 hrun
  split_ifs at hrun
  · cases hrun
    exact .idle
  obtain ⟨chain?, hchain, hrun⟩ := lift_bind_eq_ok_iff.1 hrun
  cases chain? with
  | none =>
    cases hrun
    exact .idle
  | some chain =>
    obtain ⟨found?, hfound, hrun⟩ := lift_bind_eq_ok_iff.1 hrun
    rcases found? with _ | ⟨start, earlier⟩
    · cases hrun
      exact .idle
    dsimp only at hrun
    split_ifs at hrun with hread
    · rcases bypass_eq_ok hrun with ⟨rfl, hsame⟩ | ⟨rfl, hedit⟩
      · rw [hsame]
        exact .idle
      · obtain ⟨hhead, hpairwise⟩ := chainAbove_pairwise hchain
        obtain ⟨tail, rfl⟩ := head?_eq_some_iff.1 hhead
        obtain ⟨hmem, habove, shape, hstart, hearlier⟩ := recurrence?_eq_ok hpairwise hfound
        refine .collapse ?_ habove hstart hearlier hread hedit
        rcases mem_cons.1 hmem with rfl | hmem
        · exact .refl
        · exact ((pairwise_cons.1 hpairwise).1 start hmem).to_reflTransGen
    · cases hrun
      exact .idle

theorem composeTransposes_eq_ok (hrun : composeTransposes node w = .ok unused? final) :
    Shortens w.graph node unused? final.graph := by
  rw [composeTransposes, graph_bind_eq_ok_iff] at hrun
  obtain ⟨feeds, hends, hrun⟩ := lift_bind_eq_ok_iff.1 hrun
  cases feeds with
  | true =>
    cases hrun
    exact .idle
  | false =>
  rw [if_neg Bool.false_ne_true] at hrun
  obtain ⟨shape, hshape, hrun⟩ := lift_bind_eq_ok_iff.1 hrun
  obtain ⟨own, hown, rfl⟩ := shape_eq_ok_iff.1 hshape
  obtain ⟨chain?, hchain, hrun⟩ := lift_bind_eq_ok_iff.1 hrun
  cases chain? with
  | none =>
    cases hrun
    exact .idle
  | some chain =>
    obtain ⟨op, hop, hrun⟩ := lift_bind_eq_ok_iff.1 hrun
    obtain ⟨top, htop, rfl⟩ := op_eq_ok_iff.1 hop
    cases horder : top.op.transposeOrder? with
    | none =>
      rw [if_pos (by rw [horder]; rfl)] at hrun
      cases hrun
      exact .idle
    | some order =>
      rw [if_neg (by rw [horder]; simp), inputs_of_find? htop, inputs_of_find? hown] at hrun
      rcases hsource : top.inputs with _ | ⟨source, rest⟩ <;>
        rcases hold : own.inputs with _ | ⟨old, olds⟩ <;> rw [hsource, hold] at hrun
      case cons.cons =>
        obtain ⟨own', order', _, _, _, hown', hturned, -⟩ := transposeChain_eq_ok hchain
        cases hown.symm.trans hown'
        have hclimb : Climb w.graph node source own chain := ⟨hown, ⟨order', hturned⟩, hends, hchain,
          top, order, rest, htop, eq_transpose_of_transposeOrder? horder, hsource⟩
        dsimp only at hrun
        split_ifs at hrun with hidentity hread hne
        · rcases bypass_eq_ok hrun with ⟨rfl, hsame⟩ | ⟨rfl, hedit⟩
          · rw [hsame]
            exact .idle
          · exact .cancel hclimb hidentity hread hedit
        · cases hrun
          exact .idle
        · cases hrun
          exact .idle
        · obtain ⟨outcome, middle, hattempt, hrun⟩ := stateBind_eq_ok_iff.1 hrun
          rcases attempt_eq_ok hattempt with ⟨value, rfl, hedit⟩ | ⟨cause, rfl, hedit⟩ <;>
            cases hrun
          · exact .turn hclimb hold hne hedit
          · rw [Edit.transaction_eq_error hedit]
            exact .idle
      all_goals
        cases hrun
        exact .idle

theorem simplifyAt_eq_ok (hrun : simplifyAt node w = .ok unused? final) :
    Shortens w.graph node unused? final.graph := by
  rw [simplifyAt, graph_bind_eq_ok_iff] at hrun
  by_cases hlive : (!w.graph.contains node) = true
  · rw [if_pos hlive] at hrun
    cases hrun
    exact .idle
  rw [if_neg hlive] at hrun
  obtain ⟨op, -, hrun⟩ := lift_bind_eq_ok_iff.1 hrun
  split_ifs at hrun
  · cases hrun
    exact .idle
  · cases hrun
    exact .idle
  · exact collapseChain_eq_ok hrun
  · exact composeTransposes_eq_ok hrun
  · cases hrun
    exact .idle

/-- What is left when a node that may have become unused is taken out. -/
def cleared (unused? : Option NodeId) (h : Graph α) : Graph α :=
  match unused? with
  | none => h
  | some unused => (h.removeUnused unused).1

/-- Shorten the chain that ends at a node, take out what has become unused, and count. -/
def shortenAt (changes : Nat) (node : NodeId) : Revision α Nat := do
  match ← simplifyAt node with
  | none => return changes
  | some unused =>
    let _ ← Revision.removeUnused unused
    return changes + 1

theorem shortenChains_eq_ok_iff {changes : Nat} :
    shortenChains w = .ok changes final ↔ w.graph.order.foldlM shortenAt 0 w = .ok changes final :=
  Iff.rfl

theorem shortenAt_eq_ok {changes changes' : Nat}
    (hrun : shortenAt changes node w = .ok changes' final) :
    ∃ unused? h, Shortens w.graph node unused? h ∧ final.graph = cleared unused? h := by
  obtain ⟨unused?, middle, hat, hrun⟩ := stateBind_eq_ok_iff.1 hrun
  refine ⟨unused?, middle.graph, simplifyAt_eq_ok hat, ?_⟩
  cases unused? with
  | none =>
    cases hrun
    rfl
  | some unused =>
    obtain ⟨_, _, hremoved, hrun⟩ := stateBind_eq_ok_iff.1 hrun
    cases hrun
    exact removeUnused_eq_ok hremoved

end Inversion

end TensorGraph.Pass
