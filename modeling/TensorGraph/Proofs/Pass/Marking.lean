import Mathlib.Logic.Equiv.Basic
import TensorGraph.Pass.ConcatFusion
import TensorGraph.Proofs.Graph.ElementwiseModules
import TensorGraph.Proofs.Graph.Order
import TensorGraph.Proofs.Graph.Parameters

/-!
# Marked parameters

A new parameter is declared under the marked name, all readers are pointed at it, and the old one is taken
out. What is left computes the same values.
-/

namespace TensorGraph.Pass

open Graph List

variable {α : Type} {old new : NodeId} {position : Nat}

/-- Where an item is found after another one was taken out. -/
theorem exists_getElem?_eraseIdx {i : Nat} (hne : i ≠ position) :
    ∃ k : Nat, ∀ {β : Type} (items : List β), (items.eraseIdx position)[k]? = items[i]? := by
  by_cases hbefore : i < position
  · exact ⟨i, fun items => by rw [getElem?_eraseIdx, if_pos hbefore]⟩
  · refine ⟨i - 1, fun items => ?_⟩
    have hlater : ¬ i - 1 < position := by omega
    have hnext : i - 1 + 1 = i := by omega
    rw [getElem?_eraseIdx, if_neg hlater, hnext]

/-! ## What marking leaves -/

theorem map_swap_eq_redirect {nodes : List NodeId} (hfree : new ∉ nodes) :
    nodes.map (Equiv.swap old new) = Edit.redirect old new nodes := by
  rw [Edit.redirect]
  apply map_congr_left
  intro node hmem
  have hne : node ≠ new := fun heq => hfree (heq ▸ hmem)
  rw [Equiv.swap_apply_def, if_neg hne]

/-- Some readers of a node read another one of the same shape. -/
structure Rerouted (start : Graph α) (old new : NodeId) (g : Graph α) : Prop
    extends Coherent g, Redirected start old new g where
  shape_eq : ∀ node, g.shape node = start.shape node

theorem Rerouted.reroute {start g h : Graph α} {node : NodeId}
    (hrerouted : Rerouted start old new g) (hne : new ≠ old)
    (hsame : start.shape new = start.shape old) (hrun : Edit.reroute node old new g = .ok () h) :
    Rerouted start old new h where
  toCoherent := Edit.reroute_coherent hrerouted.toCoherent hrun
  toRedirected := hrerouted.toRedirected.reroute hne hrun
  shape_eq := by
    intro other
    have hcurrent : g.shape new = g.shape old := by
      rw [hrerouted.shape_eq, hrerouted.shape_eq, hsame]
    rw [reroute_shape_eq hrun hrerouted.toCoherent hcurrent, hrerouted.shape_eq]

theorem rerouted_of_replaceInstruction {g h : Graph α} (hcoherent : g.Coherent) (hne : new ≠ old)
    (hsame : g.shape new = g.shape old) (hrun : Edit.replaceInstruction old new g = .ok () h) :
    Rerouted g old new h :=
  replaceInstruction_invariant (fun hbefore hrun => Rerouted.reroute hbefore hne hsame hrun)
    ⟨hcoherent, .refl _ _ _, fun _ => rfl⟩ hrun

/-- A module, and the same module with one parameter under another index and with a mark. -/
structure Marks (module marked : Graph α) (name : String) (old new : NodeId) : Prop
    extends Coherent marked where
  named : module.nameAt old = some name
  new_free : new ∉ module.order
  order_eq : marked.order = new :: module.order.filter (· != old)
  parameter : ∃ shape stored, marked.find? new = some stored ∧
    stored.op = .parameter ("!" ++ name) shape ∧ module.shape old = .ok stored.shape
  /-- All other nodes stay, and read the marked parameter where they read the old one. -/
  found : ∀ ⦃node before⦄, module.find? node = some before → node ≠ old →
    ∃ stored, marked.find? node = some stored ∧ stored.op = before.op ∧
      stored.inputs = Edit.redirect old new before.inputs ∧ stored.modules = before.modules ∧
      stored.shape = before.shape

/-- Marking declares a parameter, reroutes all readers and takes the old parameter out. -/
theorem markParameter_eq_ok {module marked : Graph α} {name : String}
    (hmark : markParameter module name = .ok (some marked)) :
    ∃ old shape middle, module.parameter? name = some old ∧ module.shape old = .ok shape ∧
      Edit.replaceInstruction old module.nextId
        (({ module with name := s!"{module.name}:concat" } : Graph α).addParameter
          ("!" ++ name) shape).1 = .ok () middle ∧
      middle.hasConsumers old = false ∧ marked = middle.erase old := by
  unfold markParameter at hmark
  cases hold : module.parameter? name with
  | none =>
    rw [hold] at hmark
    cases hmark
  | some old =>
    rw [hold] at hmark
    obtain ⟨shape, hshape, hmark⟩ := bind_eq_ok_iff.1 hmark
    rw [Outcome.lift_eq_ok_iff] at hshape
    have hnew : (({ module with name := s!"{module.name}:concat" } : Graph α).addParameter
        ("!" ++ name) shape).2 = module.nextId := insertAt_snd
    dsimp only at hmark
    rw [hnew] at hmark
    split at hmark
    · rename_i final hrun
      cases hmark
      obtain ⟨_, middle, hreplace, hremove⟩ := stateBind_eq_ok_iff.1 hrun
      rw [Edit.remove, stateGet_bind] at hremove
      obtain ⟨removed, hremoved, hset⟩ := Change.lift_bind_eq_ok_iff.1 hremove
      cases hset
      obtain ⟨hunread, rfl⟩ := remove_eq_ok_iff.1 hremoved
      exact ⟨old, shape, _, rfl, hshape, hreplace, hunread, rfl⟩
    · cases hmark

theorem markParameter_marks {module marked : Graph α} {name : String}
    (hcoherent : module.Coherent) (hmark : markParameter module name = .ok (some marked)) :
    ∃ old new, Marks module marked name old new := by
  obtain ⟨old, shape, middle, hold, hshape, hreplace, hunread, rfl⟩ := markParameter_eq_ok hmark
  have hindexed : ({ module with name := s!"{module.name}:concat" } : Graph α).Indexed :=
    ⟨hcoherent.nodup, hcoherent.vacant_nodup, hcoherent.vacant_lt, hcoherent.mem_order_iff⟩
  have hrenamed : ({ module with name := s!"{module.name}:concat" } : Graph α).Coherent :=
    ⟨hindexed, hcoherent.settled⟩
  have hfree : module.nextId ∉ module.order := nextId_notMem hcoherent.toIndexed
  have hnamed := parameter?_eq_some hcoherent.toIndexed hold
  have hlive : old ∈ module.order := by
    obtain ⟨_, _, hfound, -⟩ := nameAt_eq_some_iff.1 hnamed
    exact mem_order_of_find? hfound
  have hne : module.nextId ≠ old := fun heq => hfree (heq ▸ hlive)
  -- Before readers are rerouted there is one more parameter, in front.
  have hstart := coherent_addParameter hrenamed ("!" ++ name) shape
  have hfind : ∀ other, (({ module with name := s!"{module.name}:concat" } : Graph α).addParameter
      ("!" ++ name) shape).1.find? other =
        if other = module.nextId then some ⟨.parameter ("!" ++ name) shape, shape, [], []⟩
        else module.find? other := fun other => find?_insertAt hindexed (Nat.zero_le _) other
  have horder : (({ module with name := s!"{module.name}:concat" } : Graph α).addParameter
      ("!" ++ name) shape).1.order = module.nextId :: module.order := by
    rw [addParameter, order_insertAt, insertIdx_zero]
    rfl
  generalize (({ module with name := s!"{module.name}:concat" } : Graph α).addParameter
    ("!" ++ name) shape).1 = start at hreplace hstart hfind horder
  have hshapes : start.shape module.nextId = start.shape old := by
    obtain ⟨stored, hstored, hshape⟩ := shape_eq_ok_iff.1 hshape
    have hstored' : start.find? old = some stored := by
      rw [hfind, if_neg hne.symm, hstored]
    have hnew : start.shape module.nextId = .ok shape :=
      shape_eq_ok_iff.2 ⟨_, (hfind _).trans (if_pos rfl), rfl⟩
    exact hnew.trans (shape_eq_ok_iff.2 ⟨stored, hstored', hshape⟩).symm
  have hrerouted := rerouted_of_replaceInstruction hstart hne hshapes hreplace
  have hunread' : ∀ ⦃node stored⦄, middle.find? node = some stored → old ∉ stored.inputs :=
    fun node stored hfound => hasConsumers_eq_false_iff.1 hunread _ (mem_nodes_of_find? hfound)
  refine ⟨old, module.nextId, hrerouted.toCoherent.erase hunread, hnamed, hfree, ?_, ?_, ?_⟩
  · rw [order_erase, hrerouted.order_eq, horder, filter_cons_of_pos (by simpa using hne)]
  · obtain ⟨stored, hstored, hop, -, -⟩ := hrerouted.found ((hfind _).trans (if_pos rfl))
    refine ⟨shape, stored, ?_, hop, ?_⟩
    · rw [find?_erase, if_neg hne, hstored]
    · have hkept := hrerouted.shape_eq module.nextId
      rw [shape_of_find? hstored,
        shape_eq_ok_iff.2 ⟨_, (hfind _).trans (if_pos rfl), rfl⟩, Except.ok.injEq] at hkept
      rw [hkept]
      exact hshape
  · intro node before hbefore hother
    have hnode : node ≠ module.nextId := fun heq => hfree (heq ▸ mem_order_of_find? hbefore)
    have hbefore' : start.find? node = some before := by rw [hfind, if_neg hnode, hbefore]
    obtain ⟨stored, hstored, hop, hinputs, hmodules⟩ := hrerouted.found hbefore'
    have hredirected : stored.inputs = Edit.redirect old module.nextId before.inputs := by
      refine hinputs.elim (fun heq => ?_) id
      rw [← heq, Edit.redirect_of_notMem (hunread' hstored)]
    refine ⟨stored, ?_, hop, hredirected, hmodules, ?_⟩
    · rw [find?_erase, if_neg hother, hstored]
    · have hkept := hrerouted.shape_eq node
      rwa [shape_of_find? hstored,
        shape_of_find? hbefore', Except.ok.injEq] at hkept

/-! ## The marked module -/

/-- The name of a parameter after the one of this name was marked. -/
def markedName (name other : String) : String := if other = name then "!" ++ name else other

section Marked

variable {module marked : Graph α} {name : String} {old new : NodeId}
  (hmarks : Marks module marked name old new) (hcoherent : module.Coherent) {node : NodeId}

include hmarks

theorem Marks.old_mem : old ∈ module.order := by
  obtain ⟨_, _, hfound, -⟩ := nameAt_eq_some_iff.1 hmarks.named
  exact mem_order_of_find? hfound

theorem Marks.ne_new (hlive : node ∈ module.order) : node ≠ new :=
  fun heq => hmarks.new_free (heq ▸ hlive)

theorem Marks.swap_of_ne (hlive : node ∈ module.order) (hne : node ≠ old) :
    Equiv.swap old new node = node :=
  Equiv.swap_apply_of_ne_of_ne hne (hmarks.ne_new hlive)

include hcoherent

theorem Marks.order_perm : module.order.Perm (old :: module.order.filter (· != old)) := by
  rw [← hcoherent.nodup.erase_eq_filter]
  exact perm_cons_erase hmarks.old_mem

theorem Marks.inputs_eq {before : Stored α} (hfound : module.find? node = some before) :
    before.inputs.map (Equiv.swap old new) = Edit.redirect old new before.inputs := by
  apply map_swap_eq_redirect
  intro hmem
  exact hmarks.ne_new ((hcoherent.settled _ _ hfound).input_mem_order hmem) rfl

/-- Marking a parameter does not change what a module returns. -/
theorem Marks.results_eq (hends : module.endsInReturns = true) :
    marked.results = module.results.map (Equiv.swap old new) := by
  obtain ⟨last, stored, hlast, hfound, hop⟩ : ∃ last stored, module.last? = some last ∧
      module.find? last = some stored ∧ stored.op.isReturns = true := by
    unfold endsInReturns at hends
    cases hnodes : module.nodes.getLast? with
    | none =>
      rw [hnodes] at hends
      cases hends
    | some entry =>
      rw [hnodes] at hends
      refine ⟨entry.1, entry.2, ?_, ?_, hends⟩
      · rw [last?, order, getLast?_map, hnodes, Option.map_some]
      · exact (find?_eq_some_iff hcoherent.nodup).2 (mem_of_getLast? hnodes)
  have hne : last ≠ old := by
    rintro rfl
    obtain ⟨_, _, hparameter, hop'⟩ := nameAt_eq_some_iff.1 hmarks.named
    cases hfound.symm.trans hparameter
    rw [hop'] at hop
    cases hop
  have hlast' : marked.last? = some last := by
    have hfiltered : (module.order.filter (· != old)).getLast? = some last :=
      getLast?_filter hlast (by simpa using hne)
    rw [last?, hmarks.order_eq, getLast?_cons, hfiltered, Option.getD_some]
  obtain ⟨stored', hfound', hop', hinputs, -, -⟩ := hmarks.found hfound hne
  rw [results_of_last hmarks.toIndexed hlast' hfound',
    results_of_last hcoherent.toIndexed hlast hfound, hop', if_pos hop, if_pos hop, hinputs,
    hmarks.inputs_eq hcoherent hfound]

theorem Marks.renames (hnames : module.parameterNames.Nodup) (hends : module.endsInReturns = true) :
    Renames module marked (Equiv.swap old new) (markedName name) where
  injective := (Equiv.swap old new).injective
  size_eq := by
    have hsize (g : Graph α) : g.size = g.order.length := (length_map _).symm
    rw [hsize, hsize, hmarks.order_eq, (hmarks.order_perm hcoherent).length_eq, length_cons,
      length_cons]
  results_eq := hmarks.results_eq hcoherent hends
  parameter := by
    intro node instruction other shape hfound hop
    have hother : module.nameAt node = some other := nameAt_eq_some_iff.2 ⟨_, _, hfound, hop⟩
    by_cases hnode : node = old
    · subst hnode
      obtain rfl : other = name := Option.some.inj (hother.symm.trans hmarks.named)
      obtain ⟨shape', stored, hstored, hop', -⟩ := hmarks.parameter
      rw [Equiv.swap_apply_left, markedName, if_pos rfl]
      exact ⟨stored, shape', hstored, hop'⟩
    · have hne : other ≠ name := by
        rintro rfl
        exact hnode (eq_of_nameAt hcoherent.toIndexed hnames hother hmarks.named)
      obtain ⟨stored, hstored, hop', -⟩ := hmarks.found hfound hnode
      rw [hmarks.swap_of_ne (mem_order_of_find? hfound) hnode, markedName, if_neg hne]
      exact ⟨stored, shape, hstored, hop'.trans hop⟩
  applied := by
    intro node instruction hfound hop
    have hnode : node ≠ old := by
      rintro rfl
      obtain ⟨_, _, hparameter, hop'⟩ := nameAt_eq_some_iff.1 hmarks.named
      cases hfound.symm.trans hparameter
      rw [hop'] at hop
      cases hop
    obtain ⟨stored, hstored, hop', hinputs, hmodules, -⟩ := hmarks.found hfound hnode
    rw [hmarks.swap_of_ne (mem_order_of_find? hfound) hnode]
    exact ⟨stored, hstored, hop', hinputs.trans (hmarks.inputs_eq hcoherent hfound).symm, hmodules⟩

/-- Marking a parameter changes no shape that the module returns. -/
theorem Marks.outputShapes_eq (hends : module.endsInReturns = true) :
    marked.outputShapes = module.outputShapes := by
  rw [outputShapes, outputShapes, hmarks.results_eq hcoherent hends, filterMap_map]
  apply filterMap_congr
  intro node hmem
  obtain ⟨before, hbefore⟩ :=
    exists_find?_of_mem_order (hcoherent.mem_order_of_mem_results hmem)
  rw [Function.comp_apply, hbefore, Option.map_some]
  by_cases hnode : node = old
  · subst hnode
    obtain ⟨_, stored, hstored, -, hshape⟩ := hmarks.parameter
    obtain ⟨before', hbefore', hshape⟩ := shape_eq_ok_iff.1 hshape
    cases hbefore.symm.trans hbefore'
    rw [Equiv.swap_apply_left, hstored, Option.map_some, hshape]
  · obtain ⟨stored, hstored, -, -, -, hshape⟩ := hmarks.found hbefore hnode
    rw [hmarks.swap_of_ne (mem_order_of_find? hbefore) hnode, hstored, Option.map_some, hshape]

/-- The names of the other parameters stay. -/
theorem Marks.parameterNames_perm :
    ∃ others : List String, module.parameterNames.Perm (name :: others) ∧
      marked.parameterNames.Perm (("!" ++ name) :: others) := by
  refine ⟨(module.order.filter (· != old)).filterMap module.nameAt, ?_, ?_⟩
  · have hperm := (hmarks.order_perm hcoherent).filterMap module.nameAt
    rw [filterMap_cons, hmarks.named] at hperm
    exact (Graph.parameterNames_perm hcoherent.toIndexed).trans hperm
  · have hnew : marked.nameAt new = some ("!" ++ name) := by
      obtain ⟨shape, stored, hstored, hop, -⟩ := hmarks.parameter
      exact nameAt_eq_some_iff.2 ⟨stored, shape, hstored, hop⟩
    have hothers : (module.order.filter (· != old)).filterMap marked.nameAt =
        (module.order.filter (· != old)).filterMap module.nameAt := by
      apply filterMap_congr
      intro node hmem
      obtain ⟨hlive, hne⟩ := mem_filter.1 hmem
      obtain ⟨before, hbefore⟩ := exists_find?_of_mem_order hlive
      obtain ⟨stored, hstored, hop, -⟩ := hmarks.found hbefore (by simpa using hne)
      rw [nameAt, nameAt, hstored, hbefore, Option.bind_some, Option.bind_some, hop]
    have hperm := Graph.parameterNames_perm hmarks.toIndexed
    rwa [hmarks.order_eq, filterMap_cons, hnew, hothers] at hperm

/-- With one marked name, the other names are those of the module without the old one. -/
theorem Marks.parameterNames_filter (hone : (marked.parameterNames.filter takesJoined).length = 1)
    (hposition : module.parameterNames[position]? = some name) :
    marked.parameterNames.filter (!takesJoined ·) = module.parameterNames.eraseIdx position := by
  obtain ⟨others, hperm, hperm'⟩ := hmarks.parameterNames_perm hcoherent
  have hmark : takesJoined ("!" ++ name) = true := by simp [takesJoined]
  have hothers : ∀ other ∈ others, takesJoined other = false := by
    rw [(hperm'.filter takesJoined).length_eq, filter_cons_of_pos hmark, length_cons,
      Nat.add_eq_right, length_eq_zero_iff, filter_eq_nil_iff] at hone
    simpa using hone
  have hleft : (marked.parameterNames.filter (!takesJoined ·)).Perm others := by
    have hkeep : others.filter (!takesJoined ·) = others :=
      filter_eq_self.2 (by simpa using hothers)
    have hfiltered := hperm'.filter (!takesJoined ·)
    rwa [filter_cons_of_neg (by simp [hmark]), hkeep] at hfiltered
  have hright : (module.parameterNames.eraseIdx position).Perm others := by
    have hcons := getElem_cons_eraseIdx_perm (List.getElem?_eq_some_iff.1 hposition).1
    rw [(List.getElem?_eq_some_iff.1 hposition).2] at hcons
    exact (perm_cons _).1 (hcons.trans hperm)
  have hsorted (names : List String) (g : Graph α) (hsub : names.Sublist g.parameterNames) :
      names.SortedLE :=
    sortedLE_iff_pairwise.2 ((parameterNames_sorted g).pairwise.sublist hsub)
  exact (hleft.trans hright.symm).eq_of_sortedLE (hsorted _ _ filter_sublist)
    (hsorted _ _ (eraseIdx_sublist _ _))

/-- The marked module is bound to what the module was bound to, with the joined value in the place of
the old one. -/
theorem Marks.exists_bindings (hnames : module.parameterNames.Nodup)
    (hone : (marked.parameterNames.filter takesJoined).length = 1)
    (hposition : module.parameterNames[position]? = some name) {args rest : List (Tensor α)}
    (harity : module.parameterNames.length = args.length) {related : Tensor α → Tensor α → Prop}
    {value joined : Tensor α} (hvalue : args[position]? = some value) (hjoined : related value joined)
    (hrest : Forall₂ related (args.eraseIdx position) rest) (op : String) :
    ∃ bindings, Evaluation.bindPost op joined marked.parameterNames rest = .ok bindings ∧
      ∀ {other t}, Bindings.find? (module.parameterNames.zip args) other = some t →
        ∃ t', bindings.find? (markedName name other) = some t' ∧ related t t' := by
  have hothers := hmarks.parameterNames_filter hcoherent hone hposition
  have hlength : (module.parameterNames.eraseIdx position).length = rest.length := by
    rw [← hrest.length_eq, length_eraseIdx, length_eraseIdx, harity]
  have henough : (marked.parameterNames.filter (!takesJoined ·)).length ≤ rest.length := by
    rw [hothers, hlength]
  obtain ⟨bindings, hbindings, hfind⟩ := Evaluation.exists_bindPost op joined henough
  refine ⟨bindings, hbindings, fun {other t} hfound => ?_⟩
  obtain ⟨i, hi⟩ := mem_iff_getElem?.1 (Bindings.mem_of_find? hfound)
  obtain ⟨hother, ht⟩ := getElem?_zip_eq_some.1 hi
  by_cases hsame : i = position
  · subst hsame
    cases hother.symm.trans hposition
    cases ht.symm.trans hvalue
    obtain ⟨others, -, hperm⟩ := hmarks.parameterNames_perm hcoherent
    refine ⟨joined, ?_, hjoined⟩
    rw [markedName, if_pos rfl, hfind, if_pos (by simp [takesJoined]),
      if_pos (hperm.mem_iff.2 mem_cons_self)]
  · have hne : other ≠ name := by
      rintro rfl
      obtain ⟨hbelow, -⟩ := List.getElem?_eq_some_iff.1 hother
      exact hsame ((getElem?_inj hbelow hnames).1 (hother.trans hposition.symm))
    obtain ⟨k, hk⟩ := exists_getElem?_eraseIdx hsame
    have hother' := (hk module.parameterNames).trans hother
    obtain ⟨t', ht', hrelated⟩ :=
      exists_getElem?_of_forall₂ hrest.flip ((hk args).trans ht)
    have hunmarked : takesJoined other = false := by
      have hmem : other ∈ marked.parameterNames.filter (!takesJoined ·) := by
        rw [hothers]
        exact mem_of_getElem? hother'
      simpa using (mem_filter.1 hmem).2
    have hnodup : (((module.parameterNames.eraseIdx position).zip rest).map Prod.fst).Nodup := by
      rw [map_fst_zip hlength.le]
      exact hnames.sublist (eraseIdx_sublist _ _)
    refine ⟨t', ?_, hrelated⟩
    rw [markedName, if_neg hne, hfind, if_neg (by simp [hunmarked]), hothers]
    exact Bindings.find?_of_mem hnodup
      (mem_of_getElem? (getElem?_zip_eq_some.2 ⟨hother', ht'⟩))

end Marked

end TensorGraph.Pass
