import TensorGraph.Proofs.Pass.Following
import TensorGraph.Proofs.Pass.Moves

/-!
# Following nodes through an elimination

Every node of a graph that comes out of an elimination has the operator of a node of the original one and
reads nodes that stand for the old inputs, or it is a literal that holds the old value.
-/

namespace TensorGraph.Pass

open Graph List

variable {α : Type} [Scalar α] {g : Graph α} {origin : NodeId → NodeId} {stored : Stored α}
  {value : Tensor α}

/-- A tensor is the value of a node up to the layout, whenever the node has a value. -/
def Represents (g : Graph α) (node : NodeId) (value : Tensor α) : Prop :=
  ∀ ⦃bindings t⦄, g.Admits bindings → Yields g.moduleRunner g bindings node t → t.Twin value

/-- How an instruction comes from the node of the original graph that it stands for. -/
inductive Descends (g : Graph α) (origin : NodeId → NodeId) (node : NodeId)
    (stored : Instruction α (Graph α)) : Prop
  | kept {old : Instruction α (Graph α)} (hself : origin node = node)
      (hfound : g.find? (origin node) = some old) (hop : stored.op = old.op)
      (hmodules : stored.modules = old.modules)
      (hinputs : Forall₂ (fun input before => g.Relays (origin input) before) stored.inputs
        old.inputs) : Descends g origin node stored
  | folded {value : Tensor α} (hop : stored.op = .literal value) (hinputs : stored.inputs = [])
      (hmodules : stored.modules = []) (hvalue : Represents g (origin node) value) :
      Descends g origin node stored

/-- Every node of the second graph stands for a node of the first one. -/
abbrev Tracks (g h : Graph α) (origin : NodeId → NodeId) : Prop :=
  Throughout (Descends g origin)
    (Forall₂ (fun result before => g.Relays (origin result) before) · g.results) h

theorem tracks_refl (hcoherent : g.Coherent) (hordered : g.Ordered) :
    Tracks g g id where
  toCoherent := hcoherent
  ordered := hordered
  instructions := fun _ _ hfound =>
    .kept rfl hfound rfl rfl (forall₂_same.2 fun _ _ => .refl)
  results := forall₂_same.2 fun _ _ => .refl

theorem tracks_self (hplain : g.Plain) : Tracks g g id :=
  tracks_refl hplain.toCoherent hplain.ordered

/-- Only the nodes that stand for others matter. -/
theorem Descends.congr {origin' : NodeId → NodeId} {node : NodeId}
    (hdescends : Descends g origin node stored)
    (hnode : origin' node = origin node)
    (hinputs : ∀ input ∈ stored.inputs, origin' input = origin input) :
    Descends g origin' node stored := by
  cases hdescends with
  | kept hself hfound hop hmodules hrelays =>
    refine .kept (hnode.trans hself) (hnode ▸ hfound) hop hmodules ?_
    exact forall₂_imp_mem hrelays fun input hinput _ hrelay => by rwa [hinputs input hinput]
  | folded hop hnone hmodules hvalue => exact .folded hop hnone hmodules (hnode ▸ hvalue)

/-- A node may be read in place of another one if it stands for all that the other one stands for. -/
theorem tracks_exchanges (g : Graph α) (origin : NodeId → NodeId) :
    Exchanges (Descends g origin)
      (Forall₂ (fun result before => g.Relays (origin result) before) · g.results)
      fun new old => ∀ ⦃node⦄, g.Relays (origin old) node → g.Relays (origin new) node where
  refl := fun _ _ hrelays => hrelays
  instruction := by
    intro node before stored hdescends hop hmodules hinputs
    cases hdescends with
    | kept hself hold hop' hmodules' hrelays =>
      exact .kept hself hold (hop.trans hop') (hmodules.trans hmodules')
        (forall₂_of_common (fun _ _ _ hstands hrelays => hstands hrelays) hinputs.flip hrelays)
    | folded hop' hnone hmodules' hvalue =>
      rw [hnone, forall₂_nil_right_iff] at hinputs
      exact .folded (hop.trans hop') hinputs (hmodules.trans hmodules') hvalue
  results := fun _ _ hresults hnodes =>
    forall₂_of_common (fun _ _ _ hstands hrelays => hstands hrelays) hnodes.flip hresults

section Steps

variable {g h k : Graph α} {origin : NodeId → NodeId} (htracks : Tracks g h origin) {node : NodeId}

include htracks

/-- What a node that forces the standard layout reads in the original graph. -/
theorem Tracks.exists_force {arg : NodeId}
    (hfound : h.find? arg = some stored) (hop : stored.op = .contiguous) :
    ∃ source before old, stored.inputs = [source] ∧ g.find? (origin arg) = some old ∧
      old.op = .contiguous ∧ old.inputs = [before] ∧ stored.modules = old.modules ∧
      g.Relays (origin source) before := by
  obtain ⟨shapes, hshapes, hinfer⟩ := htracks.settled _ _ hfound
  rw [hop] at hinfer
  obtain ⟨shape, rfl, -⟩ := Operator.contiguousShape_iff.1 hinfer
  obtain ⟨source, rest, -, hnil, hinputs⟩ :=
    forall₂_cons_right_iff.1 (shapes_eq_ok_iff.1 hshapes)
  obtain rfl := forall₂_nil_right_iff.1 hnil
  cases htracks.instructions hfound with
  | kept _ hold hop' hmodules hrelays =>
    rw [hinputs] at hrelays
    obtain ⟨before, rest, hrelays, hnil, hbefore⟩ := forall₂_cons_left_iff.1 hrelays
    obtain rfl := forall₂_nil_left_iff.1 hnil
    exact ⟨source, before, _, hinputs, hold, hop'.symm.trans hop, hbefore, hmodules, hrelays⟩
  | folded hop' _ _ _ => cases hop.symm.trans hop'

theorem Tracks.bypass {arg source : NodeId} (hbypass : Bypass "contiguous" h node arg source k) :
    Tracks g k origin := by
  obtain ⟨stored, hfound, hname⟩ := hbypass.targeted
  obtain ⟨source', before, old, hinputs, hold, hop, hbefore, -, hrelays⟩ :=
    htracks.exists_force hfound (eq_contiguous_of_name hname)
  obtain rfl : source' = source := by
    obtain ⟨rest, hfirst⟩ := hbypass.first
    rw [inputs_of_find? hfound, hinputs] at hfirst
    exact (List.cons.inj hfirst).1
  refine htracks.reroute (tracks_exchanges g origin) ?_ ?_ hbypass.rerouted
  · intro other hother
    exact Relays.trans (.force hold hop hbefore hrelays) hother
  · exact htracks.ordered hfound source' (by rw [hinputs]; exact mem_cons_self)

theorem Tracks.bypasses (hbypassed : Relation.ReflTransGen (Bypassed "contiguous") h k) :
    Tracks g k origin := by
  induction hbypassed with
  | refl => exact htracks
  | tail _ hstep ih =>
    obtain ⟨node, arg, source, hbypass⟩ := hstep
    exact ih.bypass hbypass

/-- A literal that holds the value of a node stands for it. -/
theorem Tracks.addLiteral {before : NodeId} (hnode : node ∈ h.order)
    (hvalue : Represents g before value) :
    Tracks g (h.addLiteral value).1 (Function.update origin h.nextId before) := by
  have hsame : ∀ other ∈ h.order,
      Function.update origin h.nextId before other = origin other :=
    fun other hmem => Function.update_of_ne (ne_nextId htracks.toIndexed hmem) _ _
  refine ⟨coherent_addLiteral htracks.toCoherent value,
    htracks.ordered.addLiteral htracks.toCoherent value, ?_, ?_⟩
  · intro other stored hfound
    rw [find?_addLiteral htracks.toIndexed] at hfound
    split_ifs at hfound with heq
    · cases hfound
      refine .folded rfl rfl rfl ?_
      rwa [heq, Function.update_self]
    · exact (htracks.instructions hfound).congr (hsame _ (mem_order_of_find? hfound)) fun input hinput =>
        hsame input ((htracks.settled _ _ hfound).input_mem_order hinput)
  · rw [results_addLiteral hnode]
    refine forall₂_imp_mem htracks.results fun result hmem _ hrelay => ?_
    rwa [hsame result (htracks.mem_order_of_mem_results hmem)]

/-- Splicing in the value of a node: all other nodes stand for what they stood for. -/
theorem Tracks.splice {candidate : NodeId} (hlive : candidate ∈ h.order)
    (hread : h.hasConsumers candidate = true) (hvalue : Represents g (origin candidate) value)
    (hspliced : Spliced candidate value h k) :
    ∃ origin', Tracks g k origin' ∧ ∀ other ∈ h.order, other ≠ candidate →
      other ∈ k.order ∧ origin' other = origin other := by
  have hsame : ∀ other ∈ h.order,
      Function.update origin h.nextId (origin candidate) other = origin other :=
    fun other hmem => Function.update_of_ne (ne_nextId htracks.toIndexed hmem) _ _
  have hstands : ∀ ⦃node⦄,
      g.Relays (Function.update origin h.nextId (origin candidate) candidate) node →
      g.Relays (Function.update origin h.nextId (origin candidate) h.nextId) node := by
    intro node hrelays
    rw [hsame candidate hlive] at hrelays
    rwa [Function.update_self]
  suffices hkept : Tracks g k (Function.update origin h.nextId (origin candidate)) ∧
      ∀ other ∈ h.order, other ≠ candidate → other ∈ k.order from
    ⟨_, hkept.1, fun other hmem hother => ⟨hkept.2 other hmem hother, hsame other hmem⟩⟩
  refine hspliced.invariant (motive := fun k =>
    Tracks g k (Function.update origin h.nextId (origin candidate)) ∧
      ∀ other ∈ h.order, other ≠ candidate → other ∈ k.order)
    htracks.toIndexed htracks.ordered hlive hread ?_ ?_ ?_
  · refine ⟨htracks.addLiteral hlive hvalue, fun other hmem _ => ?_⟩
    rw [order_addLiteral]
    exact mem_cons_of_mem _ hmem
  · rintro m next reader ⟨htracked, horder⟩ hbefore hrun
    rw [← reroute_order hrun] at horder
    exact ⟨htracked.reroute (tracks_exchanges g _) hstands hbefore hrun, horder⟩
  · rintro m reader ⟨htracked, horder⟩ hunread hbefore hreader
    exact ⟨htracked.erase hunread hbefore hreader, fun other hmem hother =>
      mem_order_erase.2 ⟨hother, horder other hmem hother⟩⟩

end Steps

/-- Folding keeps track as long as the values of the candidates are known. -/
theorem Folds.exists_tracks {start h k : Graph α} {candidates : List NodeId}
    (hfolds : Folds start candidates h k) (htracks : Tracks g h origin) (hnodup : candidates.Nodup)
    (hcandidates : ∀ candidate ∈ candidates, candidate ∈ h.order ∧
      ∀ value, candidateValue start candidate = .ok value → Represents g (origin candidate) value) :
    ∃ origin', Tracks g k origin' := by
  induction hfolds generalizing origin with
  | done => exact ⟨origin, htracks⟩
  | skip _ ih =>
    rw [forall_mem_cons] at hcandidates
    exact ih htracks (nodup_cons.1 hnodup).2 hcandidates.2
  | @splice candidate rest value h m k hvalue hread hspliced _ ih =>
    rw [forall_mem_cons] at hcandidates
    obtain ⟨⟨hlive, hrepresents⟩, hrest⟩ := hcandidates
    obtain ⟨hnew, hnodup⟩ := nodup_cons.1 hnodup
    obtain ⟨origin', htracks', hkept⟩ :=
      htracks.splice hlive hread (hrepresents _ hvalue) hspliced
    refine ih htracks' hnodup fun other hmem => ?_
    have hne : other ≠ candidate := fun heq => hnew (heq ▸ hmem)
    obtain ⟨hlive', horigin⟩ := hkept other (hrest other hmem).1 hne
    exact ⟨hlive', horigin ▸ (hrest other hmem).2⟩

theorem Descends.derives (hplain : g.Plain) {node : NodeId}
    (hdescends : Descends g origin node stored) : Derives g origin (Recomputes g origin) node stored := by
  cases hdescends with
  | kept _ hfound hop hmodules hrelays =>
    exact derives_kept hplain hfound hop hmodules
      (hrelays.imp fun _ _ hrelays => stands_of_relays hplain hrelays)
  | @folded value hop hinputs hmodules hvalue =>
    refine .applied (by rw [hop]; rfl) fun bindings t hadmits hyields => ?_
    have htwin := hvalue hadmits hyields
    refine ⟨⟨?_, .inl hmodules⟩, fun _ => ?_, [], value, ?_, ?_, htwin⟩
    · rw [hop]
      exact htwin.valid'
    · rw [hop]
      trivial
    · rw [hinputs]
      exact .nil
    · rw [hop]
      rfl

/-- A tracked graph follows the original one. -/
theorem Tracks.follows {h : Graph α} (hplain : g.Plain) (htracks : Tracks g h origin) :
    Follows g h origin :=
  htracks.mono
    (fun _ _ hdescends => (hdescends.derives hplain).imp fun _ _ _ hrecomputes => hrecomputes.answers)
    fun _ hresults => hresults.imp fun _ _ hrelays => stands_of_relays hplain hrelays

end TensorGraph.Pass
