import Mathlib.Data.Set.Card
import Mathlib.Logic.Relation
import TensorGraph.Graph.Emission
import TensorGraph.Proofs.Graph.Coherence
import TensorGraph.Proofs.Graph.Evaluation

/-!
# Growing graphs

An emission only adds nodes, so what nodes yield in a graph they yield in every graph that it grows into.
`Emits` says that an emission goes through, and what the node that it gives is like.
-/

namespace TensorGraph

open List

namespace Graph

section Extends

variable {α : Type} {g h k : Graph α} {node : NodeId} {stored : Stored α}

/-- All instructions of the first graph are in the second one, under the same indices. -/
def Extends (g h : Graph α) : Prop :=
  ∀ ⦃node stored⦄, g.find? node = some stored → h.find? node = some stored

theorem Extends.refl (g : Graph α) : g.Extends g := fun _ _ hfound => hfound

theorem Extends.trans (hfirst : g.Extends h) (hsecond : h.Extends k) : g.Extends k :=
  fun _ _ hfound => hsecond (hfirst hfound)

theorem Extends.shape {shape : Shape} (hextends : g.Extends h) (hshape : g.shape node = .ok shape) :
    h.shape node = .ok shape := by
  obtain ⟨stored, hfound, rfl⟩ := shape_eq_ok_iff.1 hshape
  exact shape_eq_ok_iff.2 ⟨stored, hextends hfound, rfl⟩

theorem extends_insertAt (hindexed : g.Indexed) {position : Nat} (hposition : position ≤ g.size) :
    g.Extends (g.insertAt stored position).1 := by
  intro other before hfound
  rw [find?_insertAt hindexed hposition, if_neg, hfound]
  rintro rfl
  exact nextId_notMem hindexed (mem_order_of_find? hfound)

theorem find?_inserted (hindexed : g.Indexed) {position : Nat} (hposition : position ≤ g.size) :
    (g.insertAt stored position).1.find? (g.insertAt stored position).2 = some stored := by
  rw [insertAt_snd, find?_insertAt hindexed hposition, if_pos rfl]

end Extends

section Values

variable {α : Type} [Scalar α] {run : Runner α} {g h : Graph α} {bindings : Bindings α}
  {node : NodeId} {t u : Tensor α}

/-- A node has one value. -/
theorem Yields.unique (hfirst : Yields run g bindings node t) (hsecond : Yields run g bindings node u) :
    t = u := by
  induction hfirst generalizing u with
  | parameter hfound hop hbound =>
    exact Option.some.inj (hbound.symm.trans (hsecond.find?_eq hfound hop))
  | apply hfound hop hlength _ happly ih =>
    obtain ⟨args', hargs', happly'⟩ := hsecond.exists_args hfound hop
    rw [← eq_of_forall₂ (forall₂_iff_zip.2 ⟨hlength, fun hmem _ => ih hmem⟩) hargs', happly] at happly'
    exact Except.ok.inj happly'

theorem Yields.args_unique {inputs : List NodeId} {args args' : List (Tensor α)}
    (hargs : Forall₂ (Yields run g bindings) inputs args)
    (hargs' : Forall₂ (Yields run g bindings) inputs args') : args = args' :=
  right_unique_forall₂' (fun _ _ _ hfirst hsecond => hfirst.unique hsecond) hargs hargs'

theorem Yields.mem_order (hyields : Yields run g bindings node t) : node ∈ g.order := by
  cases hyields with
  | parameter hfound _ _ | apply hfound _ _ _ _ => exact mem_order_of_find? hfound

omit [Scalar α] in
/-- The value of a node is computed from that of another one. -/
def Reads (g : Graph α) (input node : NodeId) : Prop :=
  ∃ stored, g.find? node = some stored ∧ stored.op.isParameter = false ∧ input ∈ stored.inputs

/-- What yields a value depends on no cycle. -/
theorem Yields.acc (hyields : Yields run g bindings node t) : Acc g.Reads node := by
  induction hyields with
  | parameter hfound hop _ =>
    apply Acc.intro
    rintro input ⟨stored, hstored, hother, -⟩
    cases hfound.symm.trans hstored
    rw [hop] at hother
    cases hother
  | apply hfound hop hlength hargs _ ih =>
    apply Acc.intro
    rintro input ⟨stored, hstored, -, hinput⟩
    cases hfound.symm.trans hstored
    obtain ⟨arg, -, hpair⟩ :=
      exists_mem_right_of_forall₂ (forall₂_iff_zip.2 ⟨hlength, ih⟩) hinput
    exact hpair

omit [Scalar α] in
theorem not_transGen_of_acc (hacc : Acc g.Reads node) : ¬ Relation.TransGen g.Reads node node := by
  intro hcycle
  have hacc' := hacc.transGen
  induction hacc' with
  | intro node _ ih => exact ih node hcycle hacc hcycle

omit [Scalar α] in
/-- The number of nodes that a node depends on. -/
noncomputable def dependencyCount (g : Graph α) (node : NodeId) : Nat :=
  {other | other ∈ g.order ∧ Relation.TransGen g.Reads other node}.ncard

omit [Scalar α] in
theorem finite_dependencies (g : Graph α) (node : NodeId) :
    {other | other ∈ g.order ∧ Relation.TransGen g.Reads other node}.Finite :=
  (finite_toSet g.order).subset fun _ hother => hother.1

omit [Scalar α] in
theorem dependencyCount_lt (hacc : Acc g.Reads node) {input : NodeId}
    (hreads : g.Reads input node) (hlive : input ∈ g.order) :
    g.dependencyCount input < g.dependencyCount node := by
  apply Set.ncard_lt_ncard _ (finite_dependencies g node)
  rw [Set.ssubset_iff_of_subset]
  · refine ⟨input, ⟨hlive, .single hreads⟩, ?_⟩
    intro hself
    exact not_transGen_of_acc (hacc.inv hreads) hself.2
  · rintro other ⟨hother, hdepends⟩
    exact ⟨hother, hdepends.tail hreads⟩

omit [Scalar α] in
theorem dependencyCount_le (g : Graph α) (node : NodeId) : g.dependencyCount node ≤ g.size := by
  calc g.dependencyCount node ≤ {other | other ∈ g.order}.ncard :=
        Set.ncard_le_ncard (fun _ hother => hother.1) (finite_toSet g.order)
    _ = g.order.toFinset.card := by rw [← coe_toFinset, Set.ncard_coe_finset]
    _ ≤ g.order.length := toFinset_card_le _
    _ = g.size := by rw [order, length_map, size]

/-- The evaluator finds the value that a node yields. -/
theorem value_of_yields (hyields : Yields (runWithin g.depth) g bindings node t) :
    g.value bindings node = .ok t := by
  have hready : ∀ {node}, (∃ t, Yields (runWithin g.depth) g bindings node t) →
      ∃ stored, g.find? node = some stored ∧
        ((∃ name shape, stored.op = .parameter name shape ∧
            (∀ t, bindings.find? name = some t → Yields (runWithin g.depth) g bindings node t) ∧
            (True → ∃ t, bindings.find? name = some t)) ∨
          stored.op.isParameter = false ∧
            (∀ input ∈ stored.inputs, (∃ t, Yields (runWithin g.depth) g bindings input t) ∧
              g.dependencyCount input < g.dependencyCount node) ∧
            ∀ {args}, Forall₂ (Yields (runWithin g.depth) g bindings) stored.inputs args →
              Delivers True (Yields (runWithin g.depth) g bindings node)
                (stored.op.apply args (stored.modules.map (callableBy (runWithin g.depth))))) := by
    rintro node ⟨t, hyields⟩
    have hacc := hyields.acc
    cases hyields with
    | @parameter _ stored name shape _ hfound hop hbound =>
      refine ⟨stored, hfound, .inl ⟨name, shape, hop, ?_, fun _ => ⟨t, hbound⟩⟩⟩
      intro u hu
      exact .parameter hfound hop hu
    | @apply _ stored args _ hfound hop hlength hargs happly =>
      have hall := forall₂_iff_zip.2 ⟨hlength, hargs⟩
      refine ⟨stored, hfound, .inr ⟨hop, ?_, ?_⟩⟩
      · intro input hinput
        obtain ⟨arg, -, harg⟩ := exists_mem_right_of_forall₂ hall hinput
        exact ⟨⟨arg, harg⟩, dependencyCount_lt hacc ⟨stored, hfound, hop, hinput⟩ harg.mem_order⟩
      · intro args' hargs'
        rw [← Yields.args_unique hall hargs', happly]
        exact .ok (.apply hfound hop hlength hargs happly)
  have hvalue := valueWithin_ranked hready ⟨t, hyields⟩
    (Nat.lt_succ_of_le (dependencyCount_le g node)) (nofun : Memo.All _ [])
  obtain ⟨⟨u, memo⟩, hrun⟩ := hvalue.runs trivial
  rw [hyields.unique (hvalue.post hrun).1]
  exact value_eq_ok_iff.2 ⟨memo, hrun⟩

/-- What the evaluator finds for a node is what it yields. -/
theorem value_eq_ok_iff_yields :
    g.value bindings node = .ok t ↔ Yields (runWithin g.depth) g bindings node t := by
  constructor
  · intro hvalue
    obtain ⟨memo, hrun⟩ := value_eq_ok_iff.1 hvalue
    exact ((valueWithin_yields (nofun : Memo.All _ [])).post hrun).1
  · exact value_of_yields

end Values

section Produces

variable {α : Type} [Scalar α] {run : Runner α} {g : Graph α} {bindings : Bindings α}
  {node : NodeId} {sure : Prop} {property : Tensor α → Prop}

/-- A node yields nothing but values with a property, and is sure to yield one under a condition. -/
structure Produces (run : Runner α) (g : Graph α) (bindings : Bindings α) (sure : Prop)
    (node : NodeId) (property : Tensor α → Prop) : Prop where
  post : ∀ {t}, Yields run g bindings node t → property t
  runs : sure → ∃ t, Yields run g bindings node t

theorem Yields.produces {t : Tensor α} (hyields : Yields run g bindings node t)
    (hproperty : property t) : Produces run g bindings sure node property :=
  ⟨fun hother => hyields.unique hother ▸ hproperty, fun _ => ⟨t, hyields⟩⟩

/-- A node produces what its operator makes of what its inputs produce. -/
theorem Produces.apply {stored : Stored α} (hfound : g.find? node = some stored)
    (hop : stored.op.isParameter = false) (hmodules : stored.modules = [])
    {properties : List (Tensor α → Prop)}
    (hinputs : Forall₂ (Produces run g bindings sure) stored.inputs properties)
    (happly : ∀ args, Forall₂ (fun property arg => property arg) properties args →
      Delivers sure property (stored.op.apply args [])) :
    Produces run g bindings sure node property := by
  have hproperties {args : List (Tensor α)} (hargs : Forall₂ (Yields run g bindings) stored.inputs args) :
      Forall₂ (fun property arg => property arg) properties args :=
    forall₂_of_common (fun _ _ _ hproduces hyields => hproduces.post hyields) hinputs hargs
  constructor
  · intro t hyields
    obtain ⟨args, hargs, happlied⟩ := hyields.exists_args hfound hop
    rw [hmodules, map_nil] at happlied
    exact (happly args (hproperties hargs)).post happlied
  · intro hmet
    obtain ⟨args, hargs⟩ : ∃ args, Forall₂ (Yields run g bindings) stored.inputs args := by
      have hall : ∀ input ∈ stored.inputs, ∃ t, Yields run g bindings input t := by
        intro input hinput
        obtain ⟨property, -, hproduces⟩ := exists_mem_right_of_forall₂ hinputs hinput
        exact hproduces.runs hmet
      exact exists_forall₂ hall
    obtain ⟨t, happlied⟩ := (happly args (hproperties hargs)).runs hmet
    obtain ⟨hlength, hzip⟩ := forall₂_iff_zip.1 hargs
    exact ⟨t, .apply hfound hop hlength hzip (by rw [hmodules]; exact happlied)⟩

end Produces

end Graph

section Emits

variable {α β γ : Type} {e : Emission α} {property after : β → Graph α → Prop}

/-- An emission into an indexed graph goes through and only adds nodes, and what it gives has a
property in the grown graph. -/
def Emits (e : Emission α) (emission : Emit α β) (property : β → Graph α → Prop) : Prop :=
  e.graph.Indexed → ∃ value e', emission e = .ok value e' ∧ e.graph.Extends e'.graph ∧
    e'.graph.Indexed ∧ property value e'.graph

namespace Emits

theorem pure {value : β} (hvalue : property value e.graph) : Emits e (Pure.pure value) property :=
  fun hindexed => ⟨value, e, rfl, .refl _, hindexed, hvalue⟩

theorem mono {emission : Emit α β} (hemits : Emits e emission property)
    (hafter : ∀ value g, e.graph.Extends g → property value g → after value g) :
    Emits e emission after := by
  intro hindexed
  obtain ⟨value, e', hrun, hextends, hindexed, hvalue⟩ := hemits hindexed
  exact ⟨value, e', hrun, hextends, hindexed, hafter value _ hextends hvalue⟩

theorem bind {first : Emit α γ} {next : γ → Emit α β} {middle : γ → Graph α → Prop}
    (hfirst : Emits e first middle)
    (hnext : ∀ value (e' : Emission α), e.graph.Extends e'.graph → middle value e'.graph →
      Emits e' (next value) property) : Emits e (first >>= next) property := by
  intro hindexed
  obtain ⟨value, e', hrun, hextends, hindexed, hvalue⟩ := hfirst hindexed
  obtain ⟨result, e'', hrun', hextends', hafter⟩ := hnext value e' hextends hvalue hindexed
  exact ⟨result, e'', stateBind_eq_ok_iff.2 ⟨value, e', hrun, hrun'⟩, hextends.trans hextends',
    hafter⟩

/-- What is only looked up emits nothing. -/
theorem read_bind {first : Emit α γ} {value : γ} {next : γ → Emit α β}
    (hfirst : first e = .ok value e) (hnext : Emits e (next value) property) :
    Emits e (first >>= next) property := by
  intro hindexed
  obtain ⟨result, e', hrun, hafter⟩ := hnext hindexed
  exact ⟨result, e', stateBind_eq_ok_iff.2 ⟨value, e, hfirst, hrun⟩, hafter⟩

theorem graph_bind {next : Graph α → Emit α β} (hnext : Emits e (next e.graph) property) :
    Emits e (Emit.graph >>= next) property :=
  .read_bind rfl hnext

theorem lift_bind {computed : Outcome GraphError γ} {value : γ} {next : γ → Emit α β}
    (hcomputed : computed = .ok value) (hnext : Emits e (next value) property) :
    Emits e (liftM computed >>= next) property :=
  .read_bind (by rw [hcomputed]; rfl) hnext

theorem checked_bind {computed : Checked γ} {value : γ} {next : γ → Emit α β}
    (hcomputed : computed = .ok value) (hnext : Emits e (next value) property) :
    Emits e (liftM computed >>= next) property :=
  .read_bind (by rw [hcomputed]; rfl) hnext

/-- An operator that inference accepts is appended. -/
theorem add {op : Operator α} {inputs : List NodeId} {shapes : List Shape} {out : Shape}
    (hshapes : e.graph.shapes inputs = .ok shapes) (hinfer : op.infer shapes [] = .ok out) :
    Emits e (Emit.add op inputs []) fun node g =>
      g.find? node = some ⟨op, out, inputs, []⟩ := by
  have hover : e.graph.inferOver none op inputs [] = .ok out :=
    Graph.inferOver_eq_ok_iff.2 ⟨shapes, hshapes, hinfer⟩
  have hadd : e.graph.add op inputs [] =
      .ok (e.graph.insertAt ⟨op, out, inputs, []⟩ e.graph.appendPosition) := by
    rw [Graph.add, hover]
    rfl
  apply graph_bind
  apply lift_bind hadd
  intro hindexed
  exact ⟨_, _, rfl, Graph.extends_insertAt hindexed e.graph.appendPosition_le,
    hindexed.insertAt e.graph.appendPosition_le,
    Graph.find?_inserted hindexed e.graph.appendPosition_le⟩

/-- A value is embedded. -/
theorem literal (value : Tensor α) :
    Emits e (Emit.literal value) fun node g =>
      g.find? node = some ⟨.literal value, value.shape, [], []⟩ :=
  fun hindexed => ⟨_, _, rfl, Graph.extends_insertAt hindexed (Nat.zero_le _),
    hindexed.insertAt (Nat.zero_le _), Graph.find?_inserted hindexed (Nat.zero_le _)⟩

/-- A loop over numbered items, with what holds after so many of them. -/
theorem foldlM_zipIdx {σ : Type} {items : List β} {step : σ → β × Nat → Emit α σ}
    {invariant : Nat → σ → Graph α → Prop} {start : σ} {offset : Nat}
    (hstart : invariant offset start e.graph)
    (hstep : ∀ k item state (e' : Emission α), items[k]? = some item → e.graph.Extends e'.graph →
      invariant (offset + k) state e'.graph →
        Emits e' (step state (item, offset + k)) (invariant (offset + k + 1))) :
    Emits e ((items.zipIdx offset).foldlM step start) (invariant (offset + items.length)) := by
  induction items generalizing offset start e with
  | nil => exact .pure hstart
  | cons item items ih =>
    rw [zipIdx_cons, foldlM_cons]
    apply (hstep 0 item start e rfl (.refl _) hstart).bind
    intro state e' hextends hstate
    have hrest := @ih e' state (offset + 1) hstate
    rw [length_cons, Nat.add_comm items.length, ← Nat.add_assoc]
    apply hrest
    intro k other state e'' hother hextends' hstate
    have hnext := hstep (k + 1) other state e'' hother (hextends.trans hextends')
    rw [Nat.add_comm k, ← Nat.add_assoc] at hnext
    exact hnext hstate

end Emits

end Emits

theorem Emit.commit_eq_ok_iff {α β : Type} {emission : Emit α β} {value : β} {g h : Graph α} :
    emission.commit g = .ok value h ↔ ∃ e, emission ⟨g, []⟩ = .ok value e ∧ h = e.graph := by
  unfold Emit.commit
  cases emission ⟨g, []⟩ <;> simp [and_assoc, eq_comm]

end TensorGraph
