import TensorGraph.Proofs.Graph.Plain

/-!
# Values in a graph with loops

A loop evaluates its body on whatever layouts its arguments have. What does not depend on layouts are the
values: arguments that are peers give results that are peers.
-/

namespace TensorGraph

open List

variable {α : Type} [Scalar α]

/-- Whether the operator runs a body again and again. -/
def Operator.isScan : Operator α → Bool
  | .scan .. => true
  | _ => false

omit [Scalar α] in
theorem Operator.isScan_eq_true_iff {op : Operator α} :
    op.isScan = true ↔ ∃ iterations scanInputs stateVars, op = .scan iterations scanInputs stateVars := by
  cases op <;> simp [isScan]

namespace Graph

variable {g : Graph α} {args : List (Tensor α)} {t : Tensor α} {node : NodeId} {sure : Prop}

/-- A graph is the body of a loop of another graph. -/
def Repeats (g body : Graph α) : Prop :=
  ∃ node instruction, g.find? node = some instruction ∧ instruction.op.isScan = true ∧
    body ∈ instruction.modules

/-- At every level of nesting, an instruction is a loop or a plain one. -/
def Looped (g : Graph α) : Prop :=
  ∀ ⦃body⦄, Relation.ReflTransGen Repeats g body → ∀ ⦃node instruction⦄,
    body.find? node = some instruction → PlainInstruction instruction ∨ instruction.op.isScan = true

omit [Scalar α] in
theorem Looped.instruction (hlooped : g.Looped) {instruction : Stored α}
    (hfound : g.find? node = some instruction) :
    PlainInstruction instruction ∨ instruction.op.isScan = true :=
  hlooped .refl hfound

omit [Scalar α] in
theorem Looped.body (hlooped : g.Looped) {body : Graph α} (hrepeats : g.Repeats body) :
    body.Looped :=
  fun _ hnested => hlooped (hnested.head hrepeats)

/-- At every level of nesting, operators take every layout and make no empty value of others. -/
def Pliant (g : Graph α) : Prop :=
  ∀ ⦃body⦄, Relation.ReflTransGen Repeats g body → ∀ ⦃node instruction⦄,
    body.find? node = some instruction → instruction.op.isPliant = true ∧ instruction.op.Fills

omit [Scalar α] in
theorem Pliant.body (hpliant : g.Pliant) {body : Graph α} (hrepeats : g.Repeats body) :
    body.Pliant :=
  fun _ hnested => hpliant (hnested.head hrepeats)

variable {instruction : Stored α} {body : Graph α} {args' : List (Tensor α)}

omit [Scalar α] in
/-- A graph is looped if its instructions are plain or loops with looped bodies. -/
theorem looped_of_instructions (hall : ∀ ⦃node instruction⦄,
    g.find? node = some instruction → PlainInstruction instruction ∨
      instruction.op.isScan = true ∧ ∀ body ∈ instruction.modules, body.Looped) : g.Looped := by
  intro body hnested
  rcases hnested.cases_head with rfl | ⟨first, ⟨node, instruction, hfound, hscan, hmem⟩, hrest⟩
  · intro node instruction hfound
    exact (hall hfound).imp_right And.left
  · rcases hall hfound with hplain | ⟨-, hbodies⟩
    · rcases hplain.modules with hnone | ⟨hpointwise, -⟩
      · rw [hnone] at hmem
        cases hmem
      · obtain ⟨_, _, _, hop⟩ := Operator.isScan_eq_true_iff.1 hscan
        rw [hop] at hpointwise
        cases hpointwise
    · exact hbodies first hmem hrest

omit [Scalar α] in
theorem Plain.looped (hplain : g.Plain) : g.Looped :=
  looped_of_instructions fun _ _ hfound => .inl (hplain.plain hfound)

omit [Scalar α] in
/-- A graph is pliant if its operators take every layout and do not cut, and so in the bodies. -/
theorem pliant_of_instructions (hall : ∀ ⦃node instruction⦄,
    g.find? node = some instruction → (instruction.op.isPliant = true ∧ instruction.op.Fills) ∧
      (instruction.op.isScan = true → ∀ body ∈ instruction.modules, body.Pliant)) : g.Pliant := by
  intro body hnested
  rcases hnested.cases_head with rfl | ⟨first, ⟨node, instruction, hfound, hscan, hmem⟩, hrest⟩
  · exact fun node instruction hfound => (hall hfound).1
  · exact (hall hfound).2 hscan first hmem hrest

/-- A plain instruction makes no empty value of others, if its operator does not cut. -/
theorem PlainInstruction.filled_of_apply (hplain : PlainInstruction instruction)
    (hpliant : instruction.op.isPliant = true) (hfills : instruction.op.Fills)
    (hargs : ∀ a ∈ args, a.Valid ∧ a.Filled)
    (hrun : instruction.op.apply args (instruction.modules.map callable) = .ok t) : t.Filled := by
  have hsound := Operator.apply_sound hplain.tame (fun a hmem => (hargs a hmem).1) hrun
  exact Operator.filled_of_apply (fun a hmem => (hargs a hmem).2) hfills hpliant hplain.tame
    hsound.2 hrun

/-- Peers, none of them empty if values are sure to be given. -/
structure SurePeer (sure : Prop) (t u : Tensor α) : Prop where
  peer : t.Peer u
  filled : sure → t.Filled

theorem surePeer_tuple {parts parts' : List (Tensor α)}
    (hparts : Forall₂ (SurePeer sure) parts parts') :
    SurePeer sure (.tuple parts) (.tuple parts') where
  peer := Tensor.peer_tuple_iff.2 (hparts.imp fun _ _ hpart => hpart.peer)
  filled := fun hsure => .tuple fun _ hmem =>
    (exists_mem_right_of_forall₂ hparts hmem).elim fun _ hpart => hpart.2.filled hsure

/-- Values for the same names that are peers. -/
def PeerBindings (sure : Prop) (bindings bindings' : Bindings α) : Prop :=
  ∀ ⦃name t⦄, bindings.find? name = some t → ∃ t', bindings'.find? name = some t' ∧ SurePeer sure t t'

/-- A graph gives peers on peers. -/
def Respects (sure : Prop) (m : Graph α) : Prop :=
  ∀ ⦃bindings bindings' values⦄, PeerBindings sure bindings bindings' → m.run bindings = .ok values →
    Delivers sure (Forall₂ (SurePeer sure) values) (m.run bindings')

/-- The body of a loop that inference accepts. -/
theorem exists_body {iterations scanInputs stateVars : Nat} {modules : List (Graph α)}
    (hrun : (Operator.scan iterations scanInputs stateVars).apply args (modules.map callable) = .ok t) :
    ∃ body, modules = [body] := by
  obtain ⟨out, hinfer, -⟩ := Operator.apply_eq_ok_iff.1 hrun
  obtain ⟨_, hbody, -⟩ := Inference.scanShape_eq_ok hinfer
  rw [map_map, map_eq_singleton_iff] at hbody
  obtain ⟨body, hmodules, -⟩ := hbody
  exact ⟨body, hmodules⟩

/-- A plain instruction gives peers on peers. -/
theorem PlainInstruction.apply_peers (hplain : PlainInstruction instruction)
    (hpeers : Forall₂ Tensor.Peer args args')
    (hrun : instruction.op.apply args (instruction.modules.map callable) = .ok t) :
    Delivers (instruction.op.isPliant = true ∧ t.Filled ∧ instruction.op.Roomy t.lens) t.Peer
      (instruction.op.apply args' (instruction.modules.map callable)) := by
  refine ⟨fun hrun' => ?_, fun ⟨hpliant, hfilled, hroomy⟩ => ?_⟩
  · obtain ⟨out', hinfer', -⟩ := Operator.apply_eq_ok_iff.1 hrun'
    exact ((Operator.apply_peers hplain.tame hpeers hinfer' hrun).post hrun').1
  · exact (Operator.apply_peers_of_filled hpeers hpliant hplain.tame hrun hfilled).runs hroomy

/-- A loop gives peers on peers if its body does. -/
theorem apply_scan_peers (hscan : instruction.op.isScan = true)
    (hbodies : ∀ m ∈ instruction.modules, m.Respects sure)
    (hpeers : Forall₂ (SurePeer sure) args args')
    (hrun : instruction.op.apply args (instruction.modules.map callable) = .ok t) :
    Delivers sure (SurePeer sure t)
      (instruction.op.apply args' (instruction.modules.map callable)) := by
  obtain ⟨iterations, scanInputs, stateVars, hop⟩ := Operator.isScan_eq_true_iff.1 hscan
  rw [hop] at hrun ⊢
  obtain ⟨body, hmodules⟩ := exists_body hrun
  have hbody := hbodies body (hmodules ▸ mem_singleton_self body)
  rw [hmodules] at hrun ⊢
  obtain ⟨parts, rfl, hparts⟩ := Operator.scan_lockstep hpeers
    (fun hargs houts => hbody (fun _ _ hfound => (Bindings.related_zip hargs).find? hfound) houts)
    (fun hpeer => hpeer.peer.form_eq) hrun
  refine hparts.mono id ?_
  rintro _ ⟨parts', rfl, hparts⟩
  exact surePeer_tuple hparts

/-- By induction on the nesting: a body is nested less deep than the graph that repeats it. -/
theorem Looped.respects {m : Graph α} (hm : m.Looped) (hpliant : sure → m.Pliant) :
    m.Respects sure := by
  induction hdepth : m.depth using Nat.strong_induction_on generalizing m with
  | _ depth ih =>
    intro bindings bindings' values hbindings hrun
    rw [run_eq_valuesWith] at hrun ⊢
    refine valuesWith_lockstep (renames_of_nodes rfl) (fun hfound => hbindings hfound) ?_ hrun
    intro node instruction args args' t hfound hargs hrun
    rw [map_callableBy_moduleRunner hfound] at hrun ⊢
    rcases hm.instruction hfound with hplain | hscan
    · have hpeers : Forall₂ Tensor.Peer args args' := hargs.imp fun _ _ hpeer => hpeer.peer
      have hkept (hsure : sure) : instruction.op.isPliant = true ∧ t.Filled ∧
          instruction.op.Roomy t.lens := by
        obtain ⟨hop, hfills⟩ := hpliant hsure .refl hfound
        have hfilled : t.Filled := hplain.filled_of_apply hop hfills (fun a hmem =>
          (exists_mem_right_of_forall₂ hargs hmem).elim fun _ hpeer =>
            ⟨hpeer.2.peer.valid, hpeer.2.filled hsure⟩) hrun
        exact ⟨hop, hfilled, Operator.roomy_of_fills hfills hfilled⟩
      exact (hplain.apply_peers hpeers hrun).mono hkept fun _ hpeer =>
        ⟨hpeer, fun hsure => (hkept hsure).2.1⟩
    · refine apply_scan_peers hscan (fun body hmem => ?_) hargs hrun
      have hrepeats : m.Repeats body := ⟨node, instruction, hfound, hscan, hmem⟩
      exact ih body.depth (hdepth ▸ depth_module_lt hfound hmem) (hm.body hrepeats)
        (fun hsure => (hpliant hsure).body hrepeats) rfl

/-- An operator that takes every layout, and if it is a loop, with everything in its body. -/
structure PliantInstruction (instruction : Instruction α (Graph α)) : Prop where
  op : instruction.op.isPliant = true
  bodies : instruction.op.isScan = true → ∀ body ∈ instruction.modules, body.Pliant

section Values

variable {g : Graph α} (hlooped : g.Looped) {node : NodeId} {t : Tensor α}

include hlooped

variable {instruction : Stored α} {bindings : Bindings α}

/-- An operator gives peers on peers. It is sure to do so if it takes every layout, and if that is a
loop, if everything in its body does. -/
theorem Looped.apply_peers (hfound : g.find? node = some instruction) {args' : List (Tensor α)}
    (hpeers : Forall₂ Tensor.Peer args args')
    (hrun : instruction.op.apply args (instruction.modules.map callable) = .ok t) :
    Delivers (PliantInstruction instruction ∧ (∀ a ∈ args, a.Filled) ∧ t.Filled ∧
      instruction.op.Roomy t.lens) t.Peer
      (instruction.op.apply args' (instruction.modules.map callable)) := by
  rcases hlooped.instruction hfound with hplain | hscan
  · exact (hplain.apply_peers hpeers hrun).mono
      (fun ⟨hpliant, _, hfilled, hroomy⟩ => ⟨hpliant.op, hfilled, hroomy⟩) fun _ hpeer => hpeer
  · have hloop (sure : Prop) (hsure : sure → PliantInstruction instruction ∧ ∀ a ∈ args, a.Filled) :
        Delivers sure (SurePeer sure t)
          (instruction.op.apply args' (instruction.modules.map callable)) := by
      refine apply_scan_peers hscan (fun body hmem => ?_) ?_ hrun
      · exact (hlooped.body ⟨node, instruction, hfound, hscan, hmem⟩).respects fun hmet =>
          (hsure hmet).1.bodies hscan body hmem
      · exact forall₂_imp_mem hpeers fun a hmem _ hpeer => ⟨hpeer, fun hmet => (hsure hmet).2 a hmem⟩
    exact (hloop _ fun hmet => ⟨hmet.1, hmet.2.1⟩).mono id fun _ hpeer => hpeer.peer

/-- Values are backed by buffers that are long enough. -/
theorem Looped.yields_valid (hadmits : g.Admits bindings)
    (hyields : Yields g.moduleRunner g bindings node t) : t.Valid := by
  induction hyields with
  | parameter hfound hop hbound => exact (hadmits hfound hop hbound).2
  | apply hfound hop hlength _ happly ih =>
    rw [map_callableBy_moduleRunner hfound] at happly
    have hvalid := forall₂_iff_zip.2 ⟨hlength, ih⟩
    have hself : Forall₂ Tensor.Peer _ _ := forall₂_same.2 fun a hmem =>
      .refl ((exists_mem_right_of_forall₂ hvalid.flip hmem).elim fun _ hboth => hboth.2)
    exact ((hlooped.apply_peers hfound hself happly).post happly).valid

omit [Scalar α] in
theorem Looped.modules_of_contiguous (hfound : g.find? node = some instruction)
    (hop : instruction.op = .contiguous) :
    instruction.modules = [] := by
  rcases hlooped.instruction hfound with hplain | hscan
  · rcases hplain.modules with hnone | ⟨hpointwise, -⟩
    · exact hnone
    · rw [hop] at hpointwise
      cases hpointwise
  · rw [hop] at hscan
    cases hscan

/-- What a node relays has the same value up to the layout. -/
theorem Looped.exists_yields_of_relays (hadmits : g.Admits bindings) {source : NodeId}
    (hrelays : g.Relays source node) (hyields : Yields g.moduleRunner g bindings node t) :
    ∃ s, Yields g.moduleRunner g bindings source s ∧ s.Twin t := by
  induction hrelays generalizing t with
  | refl => exact ⟨t, hyields, .refl (hlooped.yields_valid hadmits hyields)⟩
  | force hfound hop hinputs _ ih =>
    obtain ⟨args, hargs, happly⟩ := hyields.exists_args hfound (by rw [hop]; rfl)
    rw [hinputs] at hargs
    obtain ⟨a, rfl, ha⟩ := exists_of_forall₂_one hargs
    rw [hop, hlooped.modules_of_contiguous hfound hop] at happly
    have htwin := Operator.contiguous_twin (hlooped.yields_valid hadmits ha) happly
    obtain ⟨s, hs, htwin'⟩ := ih ha
    exact ⟨s, hs, htwin'.trans htwin⟩

end Values

end Graph

end TensorGraph
