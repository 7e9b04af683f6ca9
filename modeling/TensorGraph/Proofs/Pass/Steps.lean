import TensorGraph.Pass.Pipeline
import TensorGraph.Proofs.Pass.ConcatFusion
import TensorGraph.Proofs.Pass.Outputs
import TensorGraph.Proofs.Pass.Simplification

/-!
# The steps that passes take

A step rewires a node, takes out a node that nothing reads and that need not stay, or embeds a value in
front of everything else. What a step keeps, every pass keeps.
-/

namespace TensorGraph.Pass

open Graph Revision List

variable {α : Type} {node : NodeId} {passes : List Pass} {reports : List PassReport}

/-! ## Steps -/

/-- A node does or reads something else, and reads it from further up. -/
inductive Rewiring (g h : Graph α) : Prop
  /-- A reader is pointed from a node that computes something at an earlier one. -/
  | reroute {reader old new : NodeId} {stored : Instruction α (Graph α)}
      (hold : g.find? old = some stored) (hliteral : stored.op.isLiteral = false)
      (hbefore : g.order.idxOf new < g.order.idxOf old)
      (hrun : Edit.reroute reader old new g = .ok () h) : Rewiring g h
  /-- A transposition gets another order, and an input before the one that computes its own. -/
  | turn {node old source : NodeId} {own stored : Instruction α (Graph α)} {order order' : List Nat}
      (hown : g.find? node = some own) (hop : own.op = .transpose order)
      (hinputs : own.inputs = [old]) (hold : g.find? old = some stored)
      (hliteral : stored.op.isLiteral = false)
      (hbefore : g.order.idxOf source < g.order.idxOf old)
      (hrun : Edit.replaceOperator node (.transpose order') [source] [] g = .ok () h) : Rewiring g h
  | fuse {node : NodeId} {position : Nat} {own : Instruction α (Graph α)} {fusion : Fusion α}
      (hown : g.find? node = some own) (hop : own.op = .pointwise)
      (hplan : planFusedJoin g node position = .ok (some fusion))
      (hrun : Edit.replaceOperator node (.fusedConcat fusion.axis) fusion.inputs fusion.modules g =
        .ok () h) : Rewiring g h

/-- One step of a pass. -/
inductive Step (g : Graph α) : Graph α → Prop
  | rewire {h : Graph α} (hrewiring : Rewiring g h) : Step g h
  | erase {node : NodeId} (hunread : g.hasConsumers node = false) (hkept : g.isKept node = false) :
      Step g (g.erase node)
  | embed (value : Tensor α) (hnonempty : g.order ≠ []) : Step g (g.addLiteral value).1

/-- Any number of steps. -/
abbrev Steps : Graph α → Graph α → Prop := Relation.ReflTransGen Step

/-- Steps of which at least one rewires. -/
def Rewrites (g h : Graph α) : Prop := ∃ m k, Steps g m ∧ Rewiring m k ∧ Steps k h

/-- Nothing but embedded values is new. -/
def Embeds : Graph α → Graph α → Prop :=
  Relation.ReflTransGen fun g h => g.order ≠ [] ∧ ∃ value, h = (g.addLiteral value).1

section Preservation

variable {g h k : Graph α}

theorem Rewiring.order_eq (hrewiring : Rewiring g h) : h.order = g.order := by
  cases hrewiring with
  | reroute _ _ _ hrun => exact reroute_order hrun
  | turn _ _ _ _ _ _ hrun | fuse _ _ _ hrun => exact replaceOperator_order hrun

theorem Rewiring.coherent_ordered (hrewiring : Rewiring g h) (hcoherent : g.Coherent)
    (hordered : g.Ordered) : h.Coherent ∧ h.Ordered := by
  cases hrewiring with
  | reroute _ _ hbefore hrun =>
    exact ⟨Edit.reroute_coherent hcoherent hrun, hordered.reroute hrun hbefore⟩
  | @turn node old source own _ _ _ hown _ hinputs _ _ hbefore hrun =>
    refine ⟨replaceOperator_coherent hrun hcoherent, hordered.replaceOperator hrun ?_⟩
    have hold := hordered hown old (hinputs ▸ mem_cons_self)
    simpa using Nat.lt_trans hbefore hold
  | fuse _ _ hplan hrun =>
    exact ⟨replaceOperator_coherent hrun hcoherent,
      hordered.replaceOperator hrun (planFusedJoin_ordered hplan hordered)⟩

theorem Step.coherent_ordered (hstep : Step g h) (hcoherent : g.Coherent) (hordered : g.Ordered) :
    h.Coherent ∧ h.Ordered := by
  cases hstep with
  | rewire hrewiring => exact hrewiring.coherent_ordered hcoherent hordered
  | erase hunread _ => exact ⟨hcoherent.erase hunread, hordered.erase hunread⟩
  | embed value _ =>
    exact ⟨coherent_addLiteral hcoherent value, hordered.addLiteral hcoherent value⟩

theorem coherent_ordered_of_steps (hsteps : Steps g h) (hcoherent : g.Coherent)
    (hordered : g.Ordered) : h.Coherent ∧ h.Ordered := by
  induction hsteps with
  | refl => exact ⟨hcoherent, hordered⟩
  | tail _ hstep ih => exact hstep.coherent_ordered ih.1 ih.2

theorem Rewiring.rewrites (hrewiring : Rewiring g h) : Rewrites g h := ⟨g, h, .refl, hrewiring, .refl⟩

theorem Rewrites.steps (hrewrites : Rewrites g h) : Steps g h := by
  obtain ⟨m, l, hfirst, hrewiring, hlast⟩ := hrewrites
  exact hfirst.trans (.head (.rewire hrewiring) hlast)

theorem Rewrites.trans_steps (hrewrites : Rewrites g h) (hsteps : Steps h k) : Rewrites g k := by
  obtain ⟨m, l, hfirst, hrewiring, hlast⟩ := hrewrites
  exact ⟨m, l, hfirst, hrewiring, hlast.trans hsteps⟩

theorem Rewrites.of_steps (hsteps : Steps g h) (hrewrites : Rewrites h k) : Rewrites g k := by
  obtain ⟨m, l, hfirst, hrewiring, hlast⟩ := hrewrites
  exact ⟨m, l, hsteps.trans hfirst, hrewiring, hlast⟩

theorem Embeds.steps (hembeds : Embeds g h) : Steps g h := by
  induction hembeds with
  | refl => exact .refl
  | tail _ hembed ih =>
    obtain ⟨hnonempty, value, rfl⟩ := hembed
    exact ih.tail (.embed value hnonempty)

/-- Values may have been embedded, or something has been rewired. -/
def Reworks (g h : Graph α) : Prop := Embeds g h ∨ Rewrites g h

theorem reworks_self (g : Graph α) : Reworks g g := .inl .refl

theorem Reworks.steps (hreworks : Reworks g h) : Steps g h :=
  hreworks.elim Embeds.steps Rewrites.steps

theorem Reworks.trans (hfirst : Reworks g h) (hsecond : Reworks h k) : Reworks g k := by
  rcases hfirst with hembeds | hrewrites
  · rcases hsecond with hembeds' | hrewrites
    · exact .inl (Relation.ReflTransGen.trans hembeds hembeds')
    · exact .inr (.of_steps hembeds.steps hrewrites)
  · exact .inr (hrewrites.trans_steps hsecond.steps)

theorem removeUnused_steps (g : Graph α) (node : NodeId) : Steps g (g.removeUnused node).1 :=
  removeUnused_invariant (fun {h _} (hsteps : Steps g h) hunread hkept =>
    hsteps.tail (.erase hunread hkept)) .refl

end Preservation

/-! ## Readers of a node -/

/-- When all readers of a node are pointed at an earlier one, some reader is. -/
theorem rewrites_of_replaceInstruction {g h : Graph α} {old new : NodeId}
    {stored : Stored α} (hcoherent : g.Coherent) (hordered : g.Ordered)
    (hold : g.find? old = some stored) (hliteral : stored.op.isLiteral = false)
    (hbefore : g.order.idxOf new < g.order.idxOf old) (hread : g.hasConsumers old = true)
    (hrun : Edit.replaceInstruction old new g = .ok () h) : Rewrites g h := by
  rw [Edit.replaceInstruction, Edit.transaction_eq_ok_iff, stateGet_bind] at hrun
  -- The first reader comes after the old node, so it is not the new one.
  obtain ⟨first, rest, hconsumers⟩ : ∃ first rest, g.consumers old = first :: rest := by
    obtain ⟨reader, instruction, hfound, hreads⟩ := exists_reader hcoherent.nodup hread
    exact exists_cons_of_ne_nil (ne_nil_of_mem (mem_consumers_of_find? hfound hreads))
  have hfirst : first ∈ g.consumers old := hconsumers ▸ mem_cons_self
  obtain ⟨instruction, hmem, hreads⟩ := mem_consumers_iff.1 hfirst
  have hlater := hordered ((find?_eq_some_iff hcoherent.nodup).2 hmem) old hreads
  have hne : first ≠ new := by
    rintro rfl
    exact Nat.lt_asymm hbefore hlater
  rw [hconsumers] at hrun
  obtain ⟨m, hstep, hrest⟩ := forM_cons_eq_ok_iff.1 hrun
  rw [if_neg hne] at hstep
  obtain ⟨stored', hold', hop, -, -⟩ := Edit.reroute_find? hstep hold
  have hvisit {reader : NodeId} {k next : Graph α}
      (hkept : Steps m k ∧ k.order = g.order ∧
        ∃ current, k.find? old = some current ∧ current.op = stored.op)
      (hstep : (if reader = new then pure () else Edit.reroute reader old new : Edit α Unit) k =
        .ok () next) :
      Steps m next ∧ next.order = g.order ∧
        ∃ current, next.find? old = some current ∧ current.op = stored.op := by
    obtain ⟨hsteps, horder, current, hcurrent, hsame⟩ := hkept
    split_ifs at hstep
    · cases hstep
      exact ⟨hsteps, horder, current, hcurrent, hsame⟩
    · obtain ⟨after, hafter, hsame', -, -⟩ := Edit.reroute_find? hstep hcurrent
      refine ⟨hsteps.tail (.rewire (.reroute hcurrent (hsame ▸ hliteral) ?_ hstep)),
        (reroute_order hstep).trans horder, after, hafter, hsame'.trans hsame⟩
      rwa [horder]
  have hstart : Steps m m ∧ m.order = g.order ∧
      ∃ current, m.find? old = some current ∧ current.op = stored.op :=
    ⟨.refl, reroute_order hstep, stored', hold', hop⟩
  obtain ⟨hsteps, -⟩ := forM_invariant hvisit hstart hrest
  exact ⟨g, m, .refl, .reroute hold hliteral hbefore hstep, hsteps⟩

/-! ## Shortening chains -/

/-- A settled transposition has one input. -/
theorem exists_input_of_transpose {g : Graph α} (hcoherent : g.Coherent)
    {own : Stored α} {order : List Nat} (hown : g.find? node = some own)
    (horder : own.op = .transpose order) : ∃ old, own.inputs = [old] := by
  obtain ⟨shapes, hshapes, hinfer⟩ := hcoherent.settled _ _ hown
  rw [horder] at hinfer
  obtain ⟨_, rfl, -⟩ := Inference.transposeShape_eq_ok hinfer
  obtain ⟨old, _, -, hnil, hinputs⟩ := forall₂_cons_right_iff.1 (shapes_eq_ok_iff.1 hshapes)
  rw [forall₂_nil_right_iff.1 hnil] at hinputs
  exact ⟨old, hinputs⟩

/-- A step in which something is done rewires something. -/
theorem Shortens.rewrites {g h : Graph α} {unused : NodeId} (hcoherent : g.Coherent)
    (hordered : g.Ordered) (hshortens : Shortens g node (some unused) h) : Rewrites g h := by
  cases hshortens with
  | collapse _ habove _ _ hread hrun =>
    obtain ⟨_, ⟨stored, _, hstored, hkeeps, -⟩, -⟩ := Relation.TransGen.head'_iff.1 habove
    exact rewrites_of_replaceInstruction hcoherent hordered hstored
      (isLiteral_of_keepsRowMajor hkeeps) (idxOf_lt_of_above hordered habove) hread hrun
  | cancel hclimb _ hread hrun =>
    obtain ⟨order, hop⟩ := hclimb.turned
    exact rewrites_of_replaceInstruction hcoherent hordered hclimb.found (by rw [hop]; rfl)
      (hclimb.source_earlier hordered) hread hrun
  | turn hclimb hinputs hne hrun =>
    obtain ⟨order, hop⟩ := hclimb.turned
    obtain ⟨old, hold⟩ := exists_input_of_transpose hcoherent hclimb.found hop
    cases hinputs.symm.trans hold
    obtain ⟨input, stored, hinput, hfound, hliteral, hle⟩ :=
      (transposeChain_earlier hordered hclimb.walked).resolve_left hne
    rw [inputs_of_find? hclimb.found, hold] at hinput
    cases hinput
    exact (Rewiring.turn hclimb.found hop hold hfound hliteral
      (Nat.lt_of_lt_of_le (hclimb.source_above hordered) hle) hrun).rewrites

theorem Shortens.reworks {g h : Graph α} {unused? : Option NodeId}
    (hcoherent : g.Coherent) (hordered : g.Ordered) (hshortens : Shortens g node unused? h) :
    Reworks g (cleared unused? h) := by
  cases unused? with
  | none =>
    cases hshortens
    exact reworks_self g
  | some unused =>
    exact .inr ((hshortens.rewrites hcoherent hordered).trans_steps (removeUnused_steps h unused))

theorem shortenChains_reworks {w final : Workspace α} {changes : Nat} (hcoherent : w.graph.Coherent)
    (hordered : w.graph.Ordered) (hrun : shortenChains w = .ok changes final) :
    Reworks w.graph final.graph := by
  rw [shortenChains_eq_ok_iff] at hrun
  refine foldlM_invariant (motive := fun _ k => Reworks w.graph k.graph) ?_ (reworks_self _) hrun
  intro node count k count' next _ hbefore hstep
  obtain ⟨hcoherent', hordered'⟩ := coherent_ordered_of_steps hbefore.steps hcoherent hordered
  obtain ⟨unused?, h, hshortens, hleft⟩ := shortenAt_eq_ok hstep
  rw [hleft]
  exact hbefore.trans (hshortens.reworks hcoherent' hordered')

/-! ## Fusing joins -/

theorem fuseConcats_reworks {w final : Workspace α} {fused : Nat}
    (hrun : fuseConcats w = .ok fused final) : Reworks w.graph final.graph := by
  refine fuseConcats_invariant (fun {g h node} hreworks hfuses => ?_) (reworks_self _) hrun
  cases hfuses with
  | idle => exact hreworks
  | fuse hown hop hplan hedit =>
    exact hreworks.trans (.inr ((Rewiring.fuse hown hop hplan hedit).rewrites.trans_steps
      (removeUnused_steps _ _)))

/-! ## Eliminating contiguous nodes -/

section Elimination

variable {g h : Graph α}

theorem Bypass.rewiring {arg source : NodeId}
    (hbypass : Bypass "contiguous" g node arg source h) (hordered : g.Ordered) : Rewiring g h := by
  obtain ⟨stored, hfound, hname⟩ := hbypass.targeted
  refine .reroute hfound ?_ (hbypass.source_before hordered) hbypass.rerouted
  rw [eq_contiguous_of_name hname]
  rfl

theorem reworks_of_bypasses (hbypasses : Relation.ReflTransGen (Bypassed "contiguous") g h)
    (hcoherent : g.Coherent) (hordered : g.Ordered) : Reworks g h := by
  induction hbypasses with
  | refl => exact reworks_self g
  | tail _ hbypassed ih =>
    obtain ⟨node, arg, source, hbypass⟩ := hbypassed
    obtain ⟨-, hordered'⟩ := coherent_ordered_of_steps ih.steps hcoherent hordered
    exact ih.trans (.inr (hbypass.rewiring hordered').rewrites)

section Splice

variable {candidate : NodeId} {value : Tensor α} (hspliced : Spliced candidate value g h)
  (hcoherent : g.Coherent) (hordered : g.Ordered) (hread : g.hasConsumers candidate = true)

include hspliced hcoherent hordered hread

/-- Splicing changes no other node's operator. -/
theorem Spliced.targeted_after {target : String} (hlive : candidate ∈ g.order) {other : NodeId}
    (hne : other ≠ candidate) (htargeted : Targeted target g other) : Targeted target h other := by
  refine hspliced.invariant (motive := fun k => Targeted target k other) hcoherent.toIndexed
    hordered hlive hread ?_ ?_ ?_
  · obtain ⟨stored, hfound, hname⟩ := htargeted
    exact ⟨stored, extends_insertAt hcoherent.toIndexed (Nat.zero_le _) hfound, hname⟩
  · exact fun hbefore _ hrun => hbefore.reroute hrun
  · rintro m reader ⟨stored, hfound, hname⟩ - - -
    exact ⟨stored, by rw [find?_erase, if_neg hne, hfound], hname⟩

theorem Spliced.reworks (htargeted : Targeted "contiguous" g candidate) : Reworks g h := by
  obtain ⟨stored, hfound, hname⟩ := htargeted
  have hop := eq_contiguous_of_name hname
  have hlive := mem_order_of_find? hfound
  have hembed : Step g (g.addLiteral value).1 := .embed value (ne_nil_of_mem hlive)
  rcases hspliced with rfl | ⟨k, hreplaced, hfinal⟩
  · exact .inl (.single ⟨ne_nil_of_mem hlive, value, rfl⟩)
  obtain ⟨hcoherent', hordered'⟩ := hembed.coherent_ordered hcoherent hordered
  have hextends : g.Extends (g.addLiteral value).1 :=
    extends_insertAt hcoherent.toIndexed (Nat.zero_le _)
  have hfound' := hextends hfound
  have hbefore : (g.addLiteral value).1.order.idxOf g.nextId <
      (g.addLiteral value).1.order.idxOf candidate := by
    rw [order_addLiteral, idxOf_cons_self,
      idxOf_cons_ne _ (ne_nextId hcoherent.toIndexed hlive).symm]
    exact Nat.succ_pos _
  obtain ⟨reader, instruction, hreader, hreads⟩ := exists_reader hcoherent.nodup hread
  have hreader' := hextends hreader
  have hread' : (g.addLiteral value).1.hasConsumers candidate = true := by
    by_contra hunread
    rw [Bool.not_eq_true, hasConsumers_eq_false_iff] at hunread
    exact hunread _ (mem_nodes_of_find? hreader') hreads
  have hrewrites : Rewrites g k := .of_steps (.single hembed)
    (rewrites_of_replaceInstruction hcoherent' hordered' hfound' (by rw [hop]; rfl) hbefore hread'
      hreplaced)
  rcases hfinal with rfl | ⟨hunread, rfl⟩
  · exact .inr hrewrites
  -- The candidate is not kept: it comes before a reader, and no rerouting changes what it does.
  have hkept : k.order = (g.addLiteral value).1.order ∧
      ∃ current, k.find? candidate = some current ∧ current.op = stored.op := by
    have hreroute {consumer : NodeId} {k next : Graph α}
        (hbefore : k.order = (g.addLiteral value).1.order ∧
          ∃ current, k.find? candidate = some current ∧ current.op = stored.op)
        (hrun : Edit.reroute consumer candidate g.nextId k = .ok () next) :
        next.order = (g.addLiteral value).1.order ∧
          ∃ current, next.find? candidate = some current ∧ current.op = stored.op := by
      obtain ⟨horder, current, hcurrent, hsame⟩ := hbefore
      obtain ⟨after, hafter, hsame', -, -⟩ := Edit.reroute_find? hrun hcurrent
      exact ⟨(reroute_order hrun).trans horder, after, hafter, hsame'.trans hsame⟩
    exact replaceInstruction_invariant hreroute ⟨rfl, stored, hfound', rfl⟩ hreplaced
  obtain ⟨horder, current, hcurrent, hsame⟩ := hkept
  refine .inr (hrewrites.trans_steps (.single (.erase hunread ?_)))
  rw [isKept, hcurrent, Bool.or_eq_false_iff, beq_eq_false_iff_ne]
  refine ⟨fun hlast => ?_, by simp only [hsame, hop, Operator.isParameter, Operator.isReturns,
    Bool.or_self]⟩
  rw [last?, horder] at hlast
  exact hordered'.notMem_inputs_last hcoherent'.toIndexed hlast reader
    (by rwa [inputs_of_find? hreader'])

end Splice

variable [Scalar α]

theorem Folds.reworks {start : Graph α} {candidates : List NodeId}
    (hfolds : Folds start candidates g h) (hcoherent : g.Coherent) (hordered : g.Ordered)
    (hnodup : candidates.Nodup)
    (htargeted : ∀ candidate ∈ candidates, Targeted "contiguous" g candidate) : Reworks g h := by
  induction hfolds with
  | done => exact reworks_self _
  | skip _ ih =>
    exact ih hcoherent hordered (nodup_cons.1 hnodup).2 (forall_mem_cons.1 htargeted).2
  | splice _ hread hspliced _ ih =>
    obtain ⟨hnew, hnodup⟩ := nodup_cons.1 hnodup
    obtain ⟨hfirst, hrest⟩ := forall_mem_cons.1 htargeted
    have hreworks := hspliced.reworks hcoherent hordered hread hfirst
    obtain ⟨hcoherent', hordered'⟩ :=
      coherent_ordered_of_steps hreworks.steps hcoherent hordered
    obtain ⟨_, hfound, -⟩ := hfirst
    refine hreworks.trans (ih hcoherent' hordered' hnodup fun other hmem => ?_)
    exact hspliced.targeted_after hcoherent hordered hread (mem_order_of_find? hfound)
      (fun heq => hnew (heq ▸ hmem)) (hrest other hmem)

theorem Swept.reworks (hswept : Swept "contiguous" g h) (hcoherent : g.Coherent)
    (hordered : g.Ordered) : Reworks g h := by
  obtain ⟨candidates, m, hsurveyed, hfolds⟩ := hswept
  have hreworks := reworks_of_bypasses hsurveyed.bypassed hcoherent hordered
  obtain ⟨hcoherent', hordered'⟩ := coherent_ordered_of_steps hreworks.steps hcoherent hordered
  exact hreworks.trans
    (hfolds.reworks hcoherent' hordered' hsurveyed.nodup hsurveyed.targeted)

theorem eliminateContiguous_reworks {settings : Settings} {stats : EliminationStats}
    {w final : Workspace α} (hcoherent : w.graph.Coherent) (hordered : w.graph.Ordered)
    (hrun : eliminateContiguous settings "contiguous" w = .ok stats final) :
    Reworks w.graph final.graph := by
  obtain ⟨m, hfirst, hsecond⟩ := eliminateContiguous_eq_ok hrun
  have hreworks := hfirst.reworks hcoherent hordered
  obtain ⟨hcoherent', hordered'⟩ := coherent_ordered_of_steps hreworks.steps hcoherent hordered
  exact hreworks.trans (hsecond.reworks hcoherent' hordered')

end Elimination

/-! ## Dropping dead code -/

/-- Dropping dead code takes out spare nodes and counts them. It never fails. -/
theorem dropDeadCode_removes (g : Graph α) (log : List LogLine) :
    ∃ total h, dropDeadCode ⟨g, log⟩ = .ok total ⟨h, log⟩ ∧ Removes g g.order.reverse total h := by
  have hfold : ∀ (nodes : List NodeId) (k : Graph α) (count : Nat), ∃ total h,
      (nodes.foldlM (fun total node => return total + (← Revision.removeUnused node)) count :
        Revision α Nat) ⟨k, log⟩ = .ok (count + total) ⟨h, log⟩ ∧ Removes k nodes total h := by
    intro nodes
    induction nodes with
    | nil => exact fun k count => ⟨0, k, rfl, .done k⟩
    | cons node nodes ih =>
      intro k count
      obtain ⟨total, h, hrun, hremoves⟩ := ih (k.removeUnused node).1
        (count + (k.removeUnused node).2)
      rw [Nat.add_assoc] at hrun
      exact ⟨_, h, hrun, (removeUnused_removes k node).append hremoves⟩
  obtain ⟨total, h, hrun, hremoves⟩ := hfold g.order.reverse g 0
  rw [Nat.zero_add] at hrun
  exact ⟨total, h, hrun, hremoves⟩

theorem dropDeadCode_invariant {property : Graph α → Prop}
    (herase : ∀ {g : Graph α} {node : NodeId}, property g → g.hasConsumers node = false →
      g.isKept node = false → property (g.erase node))
    {w final : Workspace α} {total : Nat} (hbefore : property w.graph)
    (hrun : dropDeadCode w = .ok total final) : property final.graph := by
  obtain ⟨_, h, hrun', hremoves⟩ := dropDeadCode_removes w.graph w.log
  cases hrun.symm.trans hrun'
  exact hremoves.prunes.invariant herase hbefore

theorem dropDeadCode_steps {w final : Workspace α} {total : Nat}
    (hrun : dropDeadCode w = .ok total final) : Steps w.graph final.graph :=
  dropDeadCode_invariant (fun {g _} (hsteps : Steps w.graph g) hunread hkept =>
    hsteps.tail (.erase hunread hkept)) .refl hrun

/-! ## Pipelines -/

/-- The passes that are made of the four structural ones, with contiguous nodes the only ones that
are eliminated. -/
inductive Structural : Pass → Prop
  | nothing : Structural .nothing
  | simplifyReshapes : Structural .simplifyReshapes
  | deadCode : Structural .deadCode
  | eliminateDefault : Structural eliminateDefault
  | fuseConcat : Structural .fuseConcat
  | looped {body : Pass} (hbody : Structural body) : Structural (.looped body)
  | timed {body : Pass} (hbody : Structural body) : Structural (.timed body)
  | sequence {passes : List Pass} (hpasses : ∀ pass ∈ passes, Structural pass) :
      Structural (.sequence passes)

theorem structural_generic : Structural generic := by
  refine .sequence fun pass hmem => ?_
  simp only [mem_cons, not_mem_nil, or_false] at hmem
  rcases hmem with rfl | rfl | rfl | rfl | rfl | rfl
  · exact .simplifyReshapes
  · exact .deadCode
  · exact .eliminateDefault
  · exact .deadCode
  · exact .fuseConcat
  · exact .deadCode

section Pipelines

variable [Scalar α] {settings : Settings} {w final : Workspace α} {pass : Pass}
  {report : PassReport}

/-- A repeated revision takes the steps of its rounds. -/
theorem repeatWithin_steps {body : Revision α Unit} {bound : Nat} {printed : String}
    (hbody : ∀ {w final : Workspace α}, w.graph.Coherent → w.graph.Ordered →
      body w = .ok () final → Steps w.graph final.graph) (hcoherent : w.graph.Coherent)
    (hordered : w.graph.Ordered) (hrun : repeatWithin body bound printed w = .ok () final) :
    Steps w.graph final.graph := by
  induction bound generalizing printed w with
  | zero => cases hrun
  | succ bound ih =>
    obtain ⟨_, middle, hround, hrun⟩ := stateBind_eq_ok_iff.1 hrun
    have hsteps := hbody hcoherent hordered hround
    rw [graph_bind_eq_ok_iff] at hrun
    obtain ⟨current, -, hrun⟩ := lift_bind_eq_ok_iff.1 hrun
    split_ifs at hrun
    · cases hrun
      exact hsteps
    · obtain ⟨hcoherent', hordered'⟩ := coherent_ordered_of_steps hsteps hcoherent hordered
      exact hsteps.trans (ih hcoherent' hordered' hrun)

theorem runAll_cons_eq_ok_iff :
    runAll settings (pass :: passes) w = .ok reports final ↔
      ∃ report rest middle, reports = report :: rest ∧ run settings pass w = .ok report middle ∧
        runAll settings passes middle = .ok rest final := by
  rw [runAll]
  constructor
  · intro hrun
    obtain ⟨report, middle, hfirst, hrun⟩ := stateBind_eq_ok_iff.1 hrun
    obtain ⟨rest, _, hrest, hrun⟩ := stateBind_eq_ok_iff.1 hrun
    cases hrun
    exact ⟨report, rest, middle, rfl, hfirst, hrest⟩
  · rintro ⟨report, rest, middle, rfl, hfirst, hrest⟩
    exact stateBind_eq_ok_iff.2 ⟨report, middle, hfirst,
      stateBind_eq_ok_iff.2 ⟨rest, final, hrest, rfl⟩⟩

/-- What each pass keeps, passes one after another keep. -/
theorem runAll_invariant {motive : Graph α → Prop}
    (hpasses : ∀ pass ∈ passes, ∀ {w final : Workspace α} {report : PassReport}, motive w.graph →
      run settings pass w = .ok report final → motive final.graph)
    (hbefore : motive w.graph) (hrun : runAll settings passes w = .ok reports final) :
    motive final.graph := by
  induction passes generalizing w reports with
  | nil =>
    rw [runAll] at hrun
    cases hrun
    exact hbefore
  | cons pass passes ih =>
    rw [forall_mem_cons] at hpasses
    obtain ⟨report, rest, middle, -, hfirst, hrest⟩ := runAll_cons_eq_ok_iff.1 hrun
    exact ih hpasses.2 (hpasses.1 hbefore hfirst) hrest

theorem run_deadCode_eq_ok (hrun : run settings .deadCode w = .ok report final) :
    ∃ total, dropDeadCode w = .ok total final := by
  rw [run] at hrun
  obtain ⟨total, _, hpassed, hrun⟩ := stateBind_eq_ok_iff.1 hrun
  cases hrun
  exact ⟨total, hpassed⟩

/-- The passes that change more than which nodes there are. -/
theorem run_reworks
    (hpass : pass = .simplifyReshapes ∨ pass = eliminateDefault ∨ pass = .fuseConcat)
    (hcoherent : w.graph.Coherent) (hordered : w.graph.Ordered)
    (hrun : run settings pass w = .ok report final) : Reworks w.graph final.graph := by
  rcases hpass with rfl | rfl | rfl
  · rw [run] at hrun
    obtain ⟨changes, _, hpassed, hrun⟩ := stateBind_eq_ok_iff.1 hrun
    cases hrun
    exact shortenChains_reworks hcoherent hordered hpassed
  · rw [eliminateDefault, run] at hrun
    obtain ⟨stats, _, hpassed, hrun⟩ := stateBind_eq_ok_iff.1 hrun
    cases hrun
    exact eliminateContiguous_reworks hcoherent hordered hpassed
  · rw [run] at hrun
    obtain ⟨fused, _, hpassed, hrun⟩ := stateBind_eq_ok_iff.1 hrun
    cases hrun
    exact fuseConcats_reworks hpassed

/-- A structural pass takes steps and nothing else. -/
theorem Structural.steps (hpass : Structural pass) (hcoherent : w.graph.Coherent)
    (hordered : w.graph.Ordered) (hrun : run settings pass w = .ok report final) :
    Steps w.graph final.graph := by
  induction hpass generalizing w final report with
  | nothing =>
    rw [run] at hrun
    cases hrun
    exact .refl
  | simplifyReshapes => exact (run_reworks (.inl rfl) hcoherent hordered hrun).steps
  | deadCode =>
    obtain ⟨total, hpassed⟩ := run_deadCode_eq_ok hrun
    exact dropDeadCode_steps hpassed
  | eliminateDefault => exact (run_reworks (.inr (.inl rfl)) hcoherent hordered hrun).steps
  | fuseConcat => exact (run_reworks (.inr (.inr rfl)) hcoherent hordered hrun).steps
  | looped _ ih =>
    rw [run, graph_bind_eq_ok_iff] at hrun
    obtain ⟨printed, -, hrun⟩ := lift_bind_eq_ok_iff.1 hrun
    obtain ⟨_, _, hrepeated, hrun⟩ := stateBind_eq_ok_iff.1 hrun
    cases hrun
    refine repeatWithin_steps (fun hcoherent hordered hround => ?_) hcoherent hordered hrepeated
    obtain ⟨report, _, hround, hreturned⟩ := stateBind_eq_ok_iff.1 hround
    cases hreturned
    exact ih hcoherent hordered hround
  | timed _ ih =>
    rw [run] at hrun
    obtain ⟨_, _, hlogged, hrun⟩ := (Question.log _ _).bind_eq_ok hrun
    rw [← hlogged] at hcoherent hordered ⊢
    exact ih hcoherent hordered hrun
  | sequence _ ih =>
    rw [run] at hrun
    obtain ⟨reports, _, hpassed, hrun⟩ := stateBind_eq_ok_iff.1 hrun
    cases hrun
    refine runAll_invariant (motive := Steps w.graph) (fun pass hmem k next report hsteps hrun => ?_)
      .refl hpassed
    obtain ⟨hcoherent', hordered'⟩ := coherent_ordered_of_steps hsteps hcoherent hordered
    exact hsteps.trans (ih pass hmem hcoherent' hordered' hrun)

end Pipelines

end TensorGraph.Pass
