import TensorGraph.Proofs.Pass.Tracking

/-!
# Values in a graph with loops after an elimination

The values of a graph and of what an elimination makes of it are the same up to the layout; where nothing
has changed they are the very same.
-/

namespace TensorGraph

open Graph List

variable {α : Type} [Scalar α]

namespace Graph

variable {g : Graph α} {bindings : Bindings α}

omit [Scalar α] in
/-- The node is a loop, or it depends on one. -/
inductive Behind (g : Graph α) : NodeId → Prop
  | loop {node : NodeId} {instruction : Instruction α (Graph α)}
      (hfound : g.find? node = some instruction) (hscan : instruction.op.isScan = true) :
      Behind g node
  | input {node input : NodeId} {instruction : Instruction α (Graph α)}
      (hfound : g.find? node = some instruction) (hinput : input ∈ instruction.inputs)
      (hbehind : Behind g input) : Behind g node

/-- The node, and everything that it depends on, is the same in both graphs. -/
inductive Untouched (g h : Graph α) : NodeId → Prop
  | intro {node : NodeId} {old stored : Instruction α (Graph α)} (hold : g.find? node = some old)
      (hfound : h.find? node = some stored) (hop : stored.op = old.op)
      (hinputs : stored.inputs = old.inputs) (hmodules : stored.modules = old.modules)
      (hrest : ∀ input ∈ stored.inputs, Untouched g h input) : Untouched g h node

/-- A node of the second graph that is a loop, or depends on one, and that is not what it was. -/
structure Disturbed (g h : Graph α) (node : NodeId) : Prop where
  behind : h.Behind node
  touched : ¬ Untouched g h node

/-- The operator of a node that has a value gives one on its arguments in every layout. -/
def TakesLayouts (g : Graph α) (bindings : Bindings α) (node : NodeId) : Prop :=
  ∀ ⦃instruction t args args'⦄, g.find? node = some instruction →
    instruction.op.isParameter = false → Yields g.moduleRunner g bindings node t →
    Forall₂ (Yields g.moduleRunner g bindings) instruction.inputs args →
    Forall₂ Tensor.Peer args args' →
    ∃ u, instruction.op.apply args' (instruction.modules.map callable) = .ok u

/-- There is room for every value of the run in every layout. -/
def RoomyOn (g : Graph α) (bindings : Bindings α) : Prop :=
  ∀ ⦃node instruction t⦄, g.find? node = some instruction →
    Yields g.moduleRunner g bindings node t → instruction.op.Roomy t.lens

/-- No value of the run is empty. -/
def FilledOn (g : Graph α) (bindings : Bindings α) : Prop :=
  ∀ ⦃node t⦄, Yields g.moduleRunner g bindings node t → t.Filled

/-- Pliant instructions take their arguments in every layout. -/
theorem Looped.takesLayouts (hlooped : g.Looped) (hroomy : g.RoomyOn bindings)
    (hfilled : g.FilledOn bindings) {node : NodeId}
    (hpliant : ∀ instruction, g.find? node = some instruction → PliantInstruction instruction) :
    g.TakesLayouts bindings node := by
  intro instruction t args args' hfound hop hyields hargs hpeers
  obtain ⟨args, hargs', hrun⟩ := hyields.exists_args hfound hop
  obtain rfl := Yields.args_unique hargs hargs'
  rw [map_callableBy_moduleRunner hfound] at hrun
  have hall : ∀ a ∈ args, a.Filled := fun a hmem =>
    (exists_mem_right_of_forall₂ hargs.flip hmem).elim fun _ harg => hfilled harg.2
  exact (hlooped.apply_peers hfound hpeers hrun).runs
    ⟨hpliant _ hfound, hall, hfilled hyields, hroomy hfound hyields⟩

end Graph

namespace Pass

variable {g h k : Graph α} {origin : NodeId → NodeId}

/-- A tensor is the value that a node stands for. It has the cached shape where no loop is in between,
and is the very same value where nothing has changed. -/
structure Matches (g h : Graph α) (origin : NodeId → NodeId) (bindings : Bindings α) (node : NodeId)
    (u : Tensor α) : Prop where
  peer : ∀ ⦃t⦄, Yields g.moduleRunner g bindings (origin node) t → t.Peer u
  shape_eq : ¬ h.Behind node → h.shape node = .ok u.shape
  same : Untouched g h node → Yields g.moduleRunner g bindings node u

section Values

variable {bindings : Bindings α} {node : NodeId} {stored : Stored α}
  {args : List (Tensor α)}

omit [Scalar α] in
theorem not_behind_input (hnot : ¬ h.Behind node) (hfound : h.find? node = some stored)
    {input : NodeId} (hinput : input ∈ stored.inputs) : ¬ h.Behind input :=
  fun hbehind => hnot (.input hfound hinput hbehind)

/-- Where nothing has changed, matching arguments are the old ones. -/
theorem exists_of_untouched (huntouched : Untouched g h node) (hfound : h.find? node = some stored)
    (hargs : Forall₂ (Matches g h origin bindings) stored.inputs args) :
    ∃ old, g.find? node = some old ∧ stored.op = old.op ∧ stored.modules = old.modules ∧
      Forall₂ (Yields g.moduleRunner g bindings) old.inputs args := by
  cases huntouched with
  | @intro _ old _ hold hfound' hop hinputs hmodules hrest =>
    cases hfound.symm.trans hfound'
    refine ⟨old, hold, hop, hmodules, ?_⟩
    rw [← hinputs]
    exact forall₂_imp_mem hargs fun input hinput _ hmatches => hmatches.same (hrest input hinput)

/-- Where nothing has changed, the value is the old one. -/
theorem yields_of_untouched (huntouched : Untouched g h node) (hfound : h.find? node = some stored)
    (hop : stored.op.isParameter = false)
    (hargs : Forall₂ (Matches g h origin bindings) stored.inputs args) {u : Tensor α}
    (hrun : stored.op.apply args (stored.modules.map callable) = .ok u) :
    Yields g.moduleRunner g bindings node u := by
  obtain ⟨old, hold, hsame, hmodules, hyields⟩ := exists_of_untouched huntouched hfound hargs
  obtain ⟨hlength, hzip⟩ := forall₂_iff_zip.1 hyields
  rw [hsame, hmodules, ← map_callableBy_moduleRunner hold] at hrun
  exact .apply hold (hsame ▸ hop) hlength hzip hrun

/-- Where no loop is in between, the cached shape is inferred from the arguments. -/
theorem infer_of_not_behind (hcoherent : h.Coherent) (hnot : ¬ h.Behind node)
    (hfound : h.find? node = some stored)
    (hargs : Forall₂ (Matches g h origin bindings) stored.inputs args) :
    stored.op.infer (Tensor.shapes args)
      ((stored.modules.map callable).map Callable.signature) = .ok stored.shape := by
  obtain ⟨shapes, hshapes, hinfer⟩ := hcoherent.settled _ _ hfound
  have hcached : Forall₂ (fun input arg => h.shape input = .ok arg.shape) stored.inputs args :=
    forall₂_imp_mem hargs fun _ hinput _ hmatches =>
      hmatches.shape_eq (not_behind_input hnot hfound hinput)
  obtain ⟨hlength, hzip⟩ := forall₂_iff_zip.1 hcached
  cases (shapes_of_zip hlength hzip).symm.trans hshapes
  rw [map_map]
  exact hinfer

section Tracked

variable (hlooped : g.Looped) (htracks : Tracks g h origin) (hadmits : g.Admits bindings)
  {t : Tensor α}

include hlooped hadmits

/-- Matching arguments are peers of the old ones. -/
theorem peers_of_matches {inputs before : List NodeId} {olds : List (Tensor α)}
    (hrelays : Forall₂ (fun input before => g.Relays (origin input) before) inputs before)
    (holds : Forall₂ (Yields g.moduleRunner g bindings) before olds)
    (hargs : Forall₂ (Matches g h origin bindings) inputs args) :
    Forall₂ Tensor.Peer olds args := by
  have hstand : Forall₂ (fun input old => ∃ s, Yields g.moduleRunner g bindings (origin input) s ∧
      s.Twin old) inputs olds := by
    refine forall₂_of_common ?_ hrelays.flip holds
    intro _ _ _ hrelays hold
    exact hlooped.exists_yields_of_relays hadmits hrelays hold
  refine forall₂_of_common ?_ hstand hargs
  rintro input old arg ⟨s, hs, htwin⟩ hmatches
  exact (Tensor.Peer.of_twin htwin).symm.trans (hmatches.peer hs)

include htracks

/-- A kept node gives its old value up to the layout. -/
theorem Tracks.apply_kept (hfound : h.find? node = some stored)
    (hop : stored.op.isParameter = false) (hyields : Yields g.moduleRunner g bindings node t)
    {old : Stored α} (hold : g.find? node = some old) (hsame : stored.op = old.op)
    (hmodules : stored.modules = old.modules)
    (hrelays : Forall₂ (fun input before => g.Relays (origin input) before) stored.inputs
      old.inputs) (hargs : Forall₂ (Matches g h origin bindings) stored.inputs args) :
    Delivers (g.RoomyOn bindings ∧ (Disturbed g h node → g.TakesLayouts bindings node))
      (fun u => t.Peer u ∧ (¬ h.Behind node → u.shape = stored.shape))
      (stored.op.apply args (stored.modules.map callable)) := by
  obtain ⟨olds, holds, hrun⟩ := hyields.exists_args hold (hsame ▸ hop)
  rw [map_callableBy_moduleRunner hold] at hrun
  have hpeers := peers_of_matches hlooped hadmits hrelays holds hargs
  have hplain (hnot : ¬ h.Behind node) : PlainInstruction old := by
    refine (hlooped.instruction hold).resolve_right fun hscan => hnot (.loop hfound ?_)
    rw [hsame]
    exact hscan
  have hinfer (hnot : ¬ h.Behind node) := infer_of_not_behind htracks.toCoherent hnot hfound hargs
  rw [hsame, hmodules] at hinfer ⊢
  constructor
  · intro u hrun'
    refine ⟨(hlooped.apply_peers hold hpeers hrun).post hrun', fun hnot => ?_⟩
    have hvalid : ∀ a ∈ args, a.Valid := fun a hmem =>
      (exists_mem_right_of_forall₂ hpeers.flip hmem).elim fun _ hpeer => hpeer.2.symm.valid
    have hsound := Operator.apply_sound (hplain hnot).tame hvalid hrun'
    exact Except.ok.inj (hsound.2.symm.trans (hinfer hnot))
  · rintro ⟨hroomy, htakes⟩
    by_cases huntouched : Untouched g h node
    · obtain ⟨_, hold', -, -, hargs'⟩ := exists_of_untouched huntouched hfound hargs
      cases hold.symm.trans hold'
      obtain rfl := Yields.args_unique holds hargs'
      exact ⟨t, hrun⟩
    by_cases hbehind : h.Behind node
    · exact htakes ⟨hbehind, huntouched⟩ hold (hsame ▸ hop) hyields holds hpeers
    · exact (Operator.apply_peers (hplain hbehind).tame hpeers (hinfer hbehind) hrun).runs
        (hroomy hold hyields)

/-- An operator on matching arguments gives a matching value. -/
theorem Tracks.apply_matches (hfound : h.find? node = some stored)
    (hop : stored.op.isParameter = false)
    (hyields : Yields g.moduleRunner g bindings (origin node) t)
    (hargs : Forall₂ (Matches g h origin bindings) stored.inputs args) :
    Delivers (g.RoomyOn bindings ∧ (Disturbed g h node → g.TakesLayouts bindings node))
      (Matches g h origin bindings node)
      (stored.op.apply args (stored.modules.map callable)) := by
  have hcached : h.shape node = .ok stored.shape := shape_of_find? hfound
  have hmatches {u : Tensor α} (hrun : stored.op.apply args (stored.modules.map callable) = .ok u)
      (hpeer : t.Peer u) (hshape : ¬ h.Behind node → u.shape = stored.shape) :
      Matches g h origin bindings node u :=
    ⟨fun t' ht' => ht'.unique hyields ▸ hpeer, fun hnot => hshape hnot ▸ hcached,
      fun huntouched => yields_of_untouched huntouched hfound hop hargs hrun⟩
  cases htracks.instructions hfound with
  | @folded value hliteral hinputs hmodules hvalue =>
    rw [hinputs] at hargs
    obtain rfl := forall₂_nil_left_iff.1 hargs
    have hrun : stored.op.apply [] (stored.modules.map callable) = .ok value := by
      rw [hliteral, hmodules]
      rfl
    have hshape : value.shape = stored.shape := by
      obtain ⟨shapes, -, hinfer⟩ := htracks.settled _ _ hfound
      rw [hliteral] at hinfer
      obtain ⟨_, -, hpure⟩ := bind_eq_ok_iff.1 hinfer
      exact Except.ok.inj hpure
    have hvalue := hmatches hrun (.of_twin (hvalue hadmits hyields)) fun _ => hshape
    rw [hrun]
    exact .ok hvalue
  | kept hself hold hsame hmodules hrelays =>
    rw [hself] at hyields hold
    have hkept := htracks.apply_kept hlooped hadmits hfound hop hyields hold hsame hmodules
      hrelays hargs
    refine ⟨fun hrun => ?_, hkept.runs⟩
    obtain ⟨hpeer, hshape⟩ := hkept.post hrun
    exact hmatches hrun hpeer hshape

omit hlooped in
/-- A parameter that is bound matches its binding. -/
theorem Tracks.parameter_matches {name : String} {shape : Shape} (hfound : h.find? node = some stored)
    (hop : stored.op = .parameter name shape) :
    (∀ ⦃t⦄, Yields g.moduleRunner g bindings (origin node) t → bindings.find? name = some t) ∧
      ∀ ⦃u⦄, bindings.find? name = some u → Matches g h origin bindings node u := by
  cases htracks.instructions hfound with
  | folded hliteral => cases hop.symm.trans hliteral
  | kept hself hold hsame _ _ =>
    rw [hop] at hsame
    refine ⟨fun t ht => ht.find?_eq hold hsame.symm, fun u hu => ?_⟩
    obtain ⟨hshape, hvalid⟩ := hadmits hold hsame.symm hu
    constructor
    · intro t ht
      cases (ht.find?_eq hold hsame.symm).symm.trans hu
      exact .refl hvalid
    · intro _
      rw [hshape]
      exact htracks.shape_parameter hfound hop
    · intro _
      exact .parameter (hself ▸ hold) hsame.symm hu

/-- The inputs of a node stand for nodes with a value if the node itself does. -/
theorem Tracks.exists_yields_input (hyields : Yields g.moduleRunner g bindings (origin node) t)
    (hfound : h.find? node = some stored) (hop : stored.op.isParameter = false) {input : NodeId}
    (hinput : input ∈ stored.inputs) : ∃ s, Yields g.moduleRunner g bindings (origin input) s := by
  cases htracks.instructions hfound with
  | folded _ hinputs =>
    rw [hinputs] at hinput
    cases hinput
  | kept _ hold hsame _ hrelays =>
    obtain ⟨olds, holds, -⟩ := hyields.exists_args hold (hsame ▸ hop)
    obtain ⟨before, hbefore, hrelays⟩ := exists_mem_right_of_forall₂ hrelays hinput
    obtain ⟨old, -, hold⟩ := exists_mem_right_of_forall₂ holds hbefore
    obtain ⟨s, hs, -⟩ := hlooped.exists_yields_of_relays hadmits hrelays hold
    exact ⟨s, hs⟩

/-- Nodes that stand for nodes with a value are ready to be evaluated. -/
theorem Tracks.apply_ready {sure : Prop}
    (hsure : sure → g.RoomyOn bindings ∧ ∀ node, Disturbed g h node → g.TakesLayouts bindings node)
    (hfound : h.find? node = some stored) (hop : stored.op.isParameter = false)
    (halive : ∃ t, Yields g.moduleRunner g bindings (origin node) t) :
    (∀ input ∈ stored.inputs, ∃ t, Yields g.moduleRunner g bindings (origin input) t) ∧
      ∀ {args}, Forall₂ (Matches g h origin bindings) stored.inputs args →
        Delivers sure (Matches g h origin bindings node)
          (stored.op.apply args (stored.modules.map callable)) := by
  obtain ⟨t, hyields⟩ := halive
  refine ⟨fun input hinput => ?_, fun hargs => ?_⟩
  · exact htracks.exists_yields_input hlooped hadmits hyields hfound hop hinput
  · exact (htracks.apply_matches hlooped hadmits hfound hop hyields hargs).mono
      (fun hmet => ⟨(hsure hmet).1, (hsure hmet).2 _⟩) fun _ hmatches => hmatches

/-- What a tracked graph returns. -/
theorem Tracks.run_peers {outs : List (Tensor α)} (hrun : g.run bindings = .ok outs) :
    Delivers (g.RoomyOn bindings ∧ ∀ node, Disturbed g h node → g.TakesLayouts bindings node)
      (Forall₂ Tensor.Peer outs) (h.run bindings) := by
  refine run_inOrder htracks.toCoherent htracks.ordered
    (fun node => ∃ t, Yields g.moduleRunner g bindings (origin node) t)
    (Matches g h origin bindings) ?_
    (htracks.apply_ready hlooped hadmits id) ?_
  · rintro node stored name shape hfound hop ⟨t, hyields⟩
    obtain ⟨hbound, hmatches⟩ := htracks.parameter_matches hadmits hfound hop
    exact ⟨fun u hu => hmatches hu, fun _ => ⟨t, hbound hyields⟩⟩
  · rw [run_eq_valuesWith] at hrun
    refine forall₂_of_common ?_ htracks.results.flip (valuesWith_yields hrun)
    intro _ _ _ hrelays hyields
    obtain ⟨s, hs, htwin⟩ := hlooped.exists_yields_of_relays hadmits hrelays hyields
    exact ⟨⟨s, hs⟩, fun u hmatches => (Tensor.Peer.of_twin htwin).symm.trans (hmatches.peer hs)⟩

end Tracked

end Values

/-- The value computed for a node that forces the standard layout is the one it stands for. -/
theorem Tracks.represents_candidateValue (hlooped : g.Looped) (htracks : Tracks g h origin)
    {candidate : NodeId} (htargeted : Targeted "contiguous" h candidate) {value : Tensor α}
    (hrun : candidateValue h candidate = .ok value) : Represents g (origin candidate) value := by
  obtain ⟨stored, hfound, hname⟩ := htargeted
  have hcontiguous := eq_contiguous_of_name hname
  obtain ⟨source, before, old, hinputs, hold, hop, hbefore, hmodules, hrelays⟩ :=
    htracks.exists_force hfound hcontiguous
  have hforces : g.Relays (origin source) (origin candidate) := .force hold hop hbefore hrelays
  rw [candidateValue, inputs_of_find? hfound, hinputs] at hrun
  obtain ⟨tv, htv, hrun⟩ := bind_eq_ok_iff.1 hrun
  obtain ⟨_, hlifted, happly⟩ := bind_eq_ok_iff.1 hrun
  cases (instruction_eq_ok_iff.1 (Outcome.lift_eq_ok_iff.1 hlifted)).symm.trans hfound
  rw [hcontiguous, hmodules, hlooped.modules_of_contiguous hold hop] at happly
  obtain ⟨memo, hvalue⟩ := value_eq_ok_iff.1 htv
  obtain ⟨out, hinfer, -⟩ := Operator.apply_eq_ok_iff.1 happly
  obtain ⟨_, hs, htuple, -⟩ := Operator.contiguousShape_iff.1 hinfer
  cases hs
  obtain ⟨elem, axes, hshape⟩ := Operator.exists_strided_of_isTuple htuple
  intro bindings t hadmits hyields
  obtain ⟨s, hs, htwin⟩ := hlooped.exists_yields_of_relays hadmits hforces hyields
  have hlive : source ∈ h.order :=
    (htracks.settled _ _ hfound).input_mem_order (by rw [hinputs]; exact mem_cons_self)
  -- Nothing is bound here, so what is evaluated does not depend on any parameter.
  have hvalues : Delivers False (fun result => Matches g h origin bindings source result.1 ∧
      Memo.All (Matches g h origin bindings) result.2)
      (valueWithin (runWithin h.depth) h [] (h.size + 1) source []) :=
    valueWithin_inOrder htracks.toCoherent htracks.ordered
      (fun node => ∃ t, Yields g.moduleRunner g bindings (origin node) t) _
      (fun _ _ _ => ⟨nofun, nofun⟩)
      (htracks.apply_ready hlooped hadmits False.elim) (nodesDepth_le_depth h) hlive ⟨s, hs⟩ nofun
  have hmatches := (hvalues.post hvalue).1
  have hsource : tv.Twin s := (hmatches.peer hs).symm.twin hshape
  exact htwin.symm.trans (hsource.symm.trans (Operator.contiguous_twin hsource.valid happly))

theorem Tracks.exists_of_swept_of_looped (hlooped : g.Looped) (htracks : Tracks g h origin)
    (hswept : Swept "contiguous" h k) : ∃ origin', Tracks g k origin' := by
  obtain ⟨candidates, m, hsurveyed, hfolds⟩ := hswept
  have hmiddle := htracks.bypasses hsurveyed.bypassed
  refine hfolds.exists_tracks hmiddle hsurveyed.nodup fun candidate hmem => ?_
  have htargeted := hsurveyed.targeted candidate hmem
  refine ⟨?_, fun value hvalue => hmiddle.represents_candidateValue hlooped htargeted hvalue⟩
  obtain ⟨stored, hfound, -⟩ := htargeted
  exact mem_order_of_find? hfound

end Pass

end TensorGraph
