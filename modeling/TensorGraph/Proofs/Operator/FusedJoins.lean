import TensorGraph.Proofs.Operator.Alike

/-!
# Fused joins

A fused join deals its inputs out to feeding modules, joins what they give and runs one more module on
the joined value. Nothing is assumed about how the modules compute.
-/

namespace TensorGraph

open Inference List

namespace Inference

variable {signatures : List Signature} {β : Type} {groups : List (List β)} {op : String}

/-- Each module gets the inputs that were put together for it. -/
theorem map_dealInputs
    (harity : Forall₂ (fun signature group => signature.arity = group.length) signatures
      groups) (before rest : List β) :
    (dealInputs before.length signatures).map (fun range =>
      ((before ++ (groups.flatten ++ rest)).drop range.1).take range.2) = groups := by
  induction harity generalizing before with
  | nil => rfl
  | @cons signature group signatures groups hfirst _ ih =>
    have hinputs : before ++ ((group :: groups).flatten ++ rest) =
        (before ++ group) ++ (groups.flatten ++ rest) := by
      rw [flatten_cons, append_assoc, append_assoc]
    have hnext : before.length + signature.arity = (before ++ group).length := by
      rw [length_append, hfirst]
    rw [dealInputs, map_cons, hinputs, hnext, ih, append_assoc, drop_left, hfirst,
      take_left]

/-- What a plan for modules before a join and one after it must be. -/
theorem planFusion_eq_ok {post : Signature} {inputs : Nat} {plan : FusionPlan}
    (hplan : planFusion inputs (signatures ++ [post]) = .ok plan) :
    plan = ⟨dealInputs 0 signatures, (signatures.flatMap Signature.parameters).length⟩ ∧
      (post.parameterNames.filter takesJoined).length = 1 ∧
      ∀ range ∈ dealInputs 0 signatures, range.2 ≠ 0 := by
  unfold planFusion at hplan
  rw [reverse_append, reverse_singleton, singleton_append] at hplan
  cases hreverse : signatures.reverse with
  | nil =>
    rw [hreverse] at hplan
    cases hplan
  | cons last others =>
    rw [hreverse] at hplan
    have hsignatures : (last :: others).reverse = signatures := by
      rw [← hreverse, reverse_reverse]
    dsimp only at hplan
    rw [hsignatures] at hplan
    split_ifs at hplan with hone hmatch
    cases hplan
    rw [not_or] at hmatch
    refine ⟨rfl, not_not.1 hone, fun range hmem hzero => hmatch.2 ?_⟩
    exact any_eq_true.2 ⟨range, hmem, by simpa using hzero⟩

/-- The inputs before those of the last module are the ones that were put together. -/
theorem length_flatten_of_arity
    (harity : Forall₂ (fun signature group => signature.arity = group.length) signatures
      groups) : (signatures.flatMap Signature.parameters).length = groups.flatten.length := by
  induction harity with
  | nil => rfl
  | cons hfirst _ ih =>
    rw [flatMap_cons, flatten_cons, length_append, length_append, ih, ← hfirst,
      Signature.arity]

/-- What stands for a part is the first input of its module. -/
theorem heads_of_dealInputs
    (harity : Forall₂ (fun signature group => signature.arity = group.length) signatures
      groups) {rest : List β} (hsome : ∀ range ∈ dealInputs 0 signatures, range.2 ≠ 0)
    {heads : List β}
    (hheads : (dealInputs 0 signatures).mapM (fun (start, _) => fetch (groups.flatten ++ rest) start) =
      .ok heads) : Forall₂ (fun group head => group.head? = some head) groups heads := by
  have hgroups := map_dealInputs harity [] rest
  rw [length_nil, nil_append] at hgroups
  rw [mapM_eq_ok_iff] at hheads
  rw [← hgroups, forall₂_map_left_iff]
  refine forall₂_imp_mem hheads fun range hrange head hhead => ?_
  rw [head?_take, if_neg (hsome range hrange), head?_drop]
  exact Layout.fetch_eq_ok_iff.1 hhead

theorem moduleElem_eq_ok {signature : Signature} {elem : ElementType}
    (hfound : moduleElem op signature = .ok elem) :
    ∃ first rest, signature.outputs = first :: rest ∧ first.elem = elem := by
  unfold moduleElem at hfound
  cases houtputs : signature.outputs with
  | nil =>
    rw [houtputs] at hfound
    cases hfound
  | cons first rest =>
    rw [houtputs] at hfound
    exact ⟨first, rest, rfl, Except.ok.inj hfound⟩

theorem resolveAxis_congr (op' : String) {axis : Int} {rank place : Nat}
    (hresolve : resolveAxis op axis rank = .ok place) : resolveAxis op' axis rank = .ok place := by
  obtain ⟨hinside, hplace⟩ := ite_error_eq_ok_iff.1 hresolve
  exact ite_error_eq_ok_iff.2 ⟨hinside, hplace⟩

/-- Parts of the same lengths are joined at the same place and in the same lengths. -/
theorem joinLens_of_lens (op' : String) {parts parts' : List Shape} {axis : Int}
    {found : Nat × List Nat}
    (hparts : Forall₂ (fun s s' => s'.lens = s.lens ∧ ∃ elem axes, s' = .strided elem axes)
      parts parts') (hjoin : joinLens op parts axis = .ok found) :
    joinLens op' parts' axis = .ok found := by
  obtain ⟨place, lens⟩ := found
  obtain ⟨first, rest, rfl, hstrided, hplace, hagree, hfits, rfl⟩ := joinLens_eq_ok_iff.1 hjoin
  obtain ⟨first', rest', hfirst, hrest, rfl⟩ := forall₂_cons_left_iff.1 hparts
  obtain ⟨elem, axes, rfl⟩ := hstrided first mem_cons_self
  obtain ⟨hlens, elem', axes', rfl⟩ := hfirst
  -- Strided shapes of the same lengths have the same rank.
  have hrank : axes'.length = axes.length := by simpa using congrArg List.length hlens
  have htotal : (Shape.strided elem' axes' :: rest').map (·.lens.getD place 0) =
      (Shape.strided elem axes :: rest).map (·.lens.getD place 0) := by
    rw [← forall₂_eq_eq_eq, forall₂_map_left_iff, forall₂_map_right_iff]
    exact hparts.flip.imp fun s' s hsame => by rw [hsame.1]
  refine joinLens_eq_ok_iff.2 ⟨_, rest', rfl, fun s' hmem => ?_, ?_, fun s' hmem => ?_, ?_, ?_⟩
  · obtain ⟨s, -, -, hself⟩ := exists_mem_right_of_forall₂ hparts.flip hmem
    exact hself
  · rw [Shape.rank_strided, hrank]
    exact resolveAxis_congr op' hplace
  · obtain ⟨s, hs, hsame, -⟩ := exists_mem_right_of_forall₂ hparts.flip hmem
    rw [hsame, hlens]
    exact hagree s hs
  · rwa [htotal]
  · rw [htotal, hlens]

end Inference

variable {α : Type} [Scalar α] {out : Shape} {groups : List (List (Tensor α))}
  {rest : List (Tensor α)} {fed : List (Callable α)}

namespace Tensor

variable {t : Tensor α}

/-- A strided tensor with the entries of another one; the element types may differ. -/
structure SameEntries (t u : Tensor α) : Prop where
  valid : u.Valid
  strided : ∃ elem axes, u.shape = .strided elem axes
  lens_eq : u.lens = t.lens
  value_eq : u.reading.value = t.reading.value

theorem Twin.sameEntries {u : Tensor α} (htwin : t.Twin u)
    (hstrided : ∃ elem axes, t.shape = .strided elem axes) : t.SameEntries u where
  valid := htwin.valid'
  strided := by
    obtain ⟨elem, axes, hshape⟩ := hstrided
    obtain ⟨axes', hshape', -⟩ := htwin.alike.exists_strided hshape
    exact ⟨elem, axes', hshape'⟩
  lens_eq := htwin.alike.lens_eq.symm
  value_eq := by rw [htwin.alike.reading_eq]

/-- A tensor that is laid out anew, perhaps with another element type, has the same entries. -/
theorem sameEntries_of_relaid {v : Tensor α} (hvalid : v.Valid) {elem elem' : ElementType}
    {axes : Layout} (hshape : v.shape = .strided elem axes)
    (hdense : out.IsDense elem' axes.lens) (hrun : Evaluation.relaid out v = .ok t) :
    t.SameEntries v where
  valid := hvalid
  strided := ⟨elem, axes, hshape⟩
  lens_eq := by
    have hholds := (Evaluation.computes_relaid hvalid hshape hdense).holds hrun
    rw [Tensor.lens_of_shape hshape, Tensor.lens, hholds.shape_eq, hdense.lens_eq]
  value_eq := by
    have hholds := (Evaluation.computes_relaid hvalid hshape hdense).holds hrun
    rw [hholds.reading_eq]
    funext index
    rw [Reading.of]
    dsimp only
    split_ifs with hrange
    · rfl
    · rw [hdense.lens_eq, ← Tensor.lens_of_shape hshape] at hrange
      exact if_neg hrange

theorem SameEntries.trans {u v : Tensor α} (hfirst : t.SameEntries u) (hsecond : u.SameEntries v) :
    t.SameEntries v where
  valid := hsecond.valid
  strided := hsecond.strided
  lens_eq := hsecond.lens_eq.trans hfirst.lens_eq
  value_eq := hsecond.value_eq.trans hfirst.value_eq

theorem join_congr {parts parts' : List (Tensor α)}
    (hparts : Forall₂ SameEntries parts parts') (place : Nat) :
    Reading.join place (parts'.map reading) = Reading.join place (parts.map reading) := by
  induction hparts with
  | nil => rfl
  | cons hfirst _ ih =>
    funext index
    rw [map_cons, map_cons, Reading.join, Reading.join, ih, lens_reading, lens_reading,
      hfirst.lens_eq, hfirst.value_eq]

end Tensor

namespace Evaluation

/-- Run each feeding module on its inputs and join what they give. -/
def joinCalls (op : String) (axis : Int) (elem : ElementType) (groups : List (List (Tensor α)))
    (fed : List (Callable α)) : Outcome EvalError (Tensor α) := do
  let parts ← (groups.zip fed).mapM fun (group, module) => module.call group
  let (place, lens) ← (joinLens op (Tensor.shapes parts) axis : Outcome ShapeError _)
  joinValue place (← Shape.standard elem lens) parts

/-- A fused join is a join of calls, followed by one more module. -/
theorem fusedConcatValue_eq {op : String} {axis : Int} {post : Callable α} {plan : FusionPlan}
    (harity : Forall₂ (fun module group => module.signature.arity = group.length) fed groups)
    (hplan : planFusion (groups.flatten ++ rest).length
      ((fed ++ [post]).map Callable.signature) = .ok plan) :
    fusedConcatValue op axis out (groups.flatten ++ rest) (fed ++ [post]) =
      joinCalls op axis out.elem groups fed >>= fun joined =>
        bindPost op joined post.signature.parameterNames rest >>= fun bindings =>
          post.firstOutput bindings >>= fun value => liftM (relaid out value) := by
  have hsignatures : (fed ++ [post]).map Callable.signature =
      fed.map Callable.signature ++ [post.signature] := by
    rw [map_append, map_singleton]
  have harity' : Forall₂ (fun signature group => signature.arity = group.length)
      (fed.map Callable.signature) groups := forall₂_map_left_iff.2 harity
  rw [fusedConcatValue, hplan]
  rw [hsignatures] at hplan
  obtain ⟨rfl, -, -⟩ := planFusion_eq_ok hplan
  have hgroups := map_dealInputs harity' [] rest
  rw [length_nil, nil_append] at hgroups
  have hcalls : ((dealInputs 0 (fed.map Callable.signature)).zip (fed ++ [post])).mapM
      (fun item => item.2.call (((groups.flatten ++ rest).drop item.1.1).take item.1.2)) =
        (groups.zip fed).mapM fun item => item.2.call item.1 := by
    have hzip : groups.zip (fed ++ [post]) = groups.zip fed := by
      have happend : (groups ++ []).zip (fed ++ [post]) = groups.zip fed ++ [].zip [post] :=
        zip_append harity.length_eq.symm
      rwa [append_nil, zip_nil_left, append_nil] at happend
    rw [← hzip]
    generalize (groups.flatten ++ rest) = inputs at hgroups ⊢
    rw [← hgroups, zip_map_left, mapM_map]
    rfl
  have hrest : (groups.flatten ++ rest).drop
      ((fed.map Callable.signature).flatMap Signature.parameters).length = rest := by
    rw [length_flatten_of_arity harity', drop_left]
  dsimp only
  rw [hcalls, hrest, getLast?_append_of_ne_nil _ (cons_ne_nil _ _),
    getLast?_singleton]
  simp only [joinCalls, bind_assoc]

/-- When the feeding modules give the entries of some parts, the join of the calls is the join of
those parts in another layout. -/
theorem joinCalls_twin {op op' : String} {axis : Int}
    {parts : List (Tensor α)} {sure : Prop} {place : Nat}
    {lens : List Nat} {elem : ElementType} {joined : Tensor α}
    (hcalls : Forall₂ (fun item part =>
      Delivers sure part.SameEntries (item.2.call item.1)) (groups.zip fed) parts)
    (hjoin : joinLens op (Tensor.shapes parts) axis = .ok (place, lens))
    (hdense : out.IsDense elem lens) (hfits : volume lens ≤ Tensor.largestBuffer)
    (hjoined : joined.Holds out (Reading.join place (parts.map Tensor.reading)))
    (hpos : sure → 0 ∉ lens) :
    Delivers sure joined.Twin (joinCalls op' axis elem groups fed) := by
  have hall : Delivers sure (fun parts' => Forall₂ Tensor.SameEntries parts parts')
      ((groups.zip fed).mapM fun item => item.2.call item.1) := by
    clear hjoin hjoined
    generalize groups.zip fed = items at hcalls
    induction hcalls with
    | nil => exact .ok .nil
    | cons hfirst _ ih =>
      rw [mapM_cons]
      apply hfirst.bind
      intro part' hpart
      apply ih.bind
      intro parts' hparts
      exact .ok (.cons hpart hparts)
  rw [joinCalls]
  apply hall.bind
  intro parts' hparts
  have hvalid : ∀ part ∈ parts', part.Valid := by
    intro part hmem
    obtain ⟨_, -, hsame⟩ := exists_mem_right_of_forall₂ hparts.flip hmem
    exact hsame.valid
  have hjoin' : joinLens op' (Tensor.shapes parts') axis = .ok (place, lens) := by
    apply joinLens_of_lens op' _ hjoin
    rw [Tensor.shapes_eq_map, Tensor.shapes_eq_map, forall₂_map_left_iff,
      forall₂_map_right_iff]
    exact hparts.imp fun _ _ hsame => ⟨hsame.lens_eq, hsame.strided⟩
  rw [Outcome.liftShape_eq_ok_iff.2 hjoin', ok_bind]
  dsimp only
  constructor
  · intro joined' hrun
    obtain ⟨standard, hstandard, hrun⟩ := bind_eq_ok_iff.1 hrun
    rw [Outcome.lift_eq_ok_iff] at hstandard hrun
    have hdense' := Shape.isDense_of_standard hstandard
    have hholds := (computes_join_of_joinLens hvalid hjoin' hdense').holds hrun
    rw [Tensor.join_congr hparts] at hholds
    exact ⟨.of_holds hjoined hholds (hdense'.form_eq hdense), hjoined.valid, hholds.valid⟩
  · intro hmet
    have hlimit : volume lens < Word.limit := Nat.lt_of_le_of_lt hfits (by decide)
    have hstandard : Shape.standard elem lens = .ok (.strided elem (Layout.rowMajor lens)) :=
      bind_eq_ok_iff.2 ⟨_, Layout.standard_of_pos (hpos hmet) hlimit, rfl⟩
    obtain ⟨joined', hrun⟩ := (computes_join_of_joinLens hvalid hjoin'
      (Shape.isDense_of_standard hstandard)).exists_iff.2 hfits
    refine ⟨joined', ?_⟩
    rw [Outcome.lift_eq_ok_iff.2 hstandard, ok_bind]
    exact Outcome.lift_eq_ok_iff.2 hrun

end Evaluation

namespace Bindings

omit [Scalar α]

variable {bindings : Bindings α} {name other : String} {t : Tensor α}

theorem find?_cons : find? ((other, t) :: bindings) name =
    (bindings.find? name).or (if other = name then some t else none) := by
  unfold find?
  rw [filter_cons]
  by_cases heq : other = name
  · rw [if_pos (by simpa using heq), if_pos heq, getLast?_cons]
    cases (bindings.filter (·.1 == name)).getLast? <;> rfl
  · rw [if_neg (by simpa using heq), if_neg heq, Option.or_none]

theorem mem_of_find? (hfound : bindings.find? name = some t) : (name, t) ∈ bindings := by
  obtain ⟨entry, hlast, rfl⟩ := Option.map_eq_some_iff.1 hfound
  obtain ⟨hmem, hname⟩ := mem_filter.1 (mem_of_getLast? hlast)
  rwa [← (beq_iff_eq.1 hname : entry.1 = name)]

theorem find?_eq_none (hfree : name ∉ bindings.map Prod.fst) : bindings.find? name = none := by
  cases hfound : bindings.find? name with
  | none => rfl
  | some t => exact absurd (mem_map_of_mem (mem_of_find? hfound)) hfree

/-- Where no name is bound twice, every listed value is found. -/
theorem find?_of_mem (hnodup : (bindings.map Prod.fst).Nodup) (hmem : (name, t) ∈ bindings) :
    bindings.find? name = some t := by
  induction bindings with
  | nil => cases hmem
  | cons entry bindings ih =>
    obtain ⟨other, u⟩ := entry
    rw [map_cons, nodup_cons] at hnodup
    rw [find?_cons]
    rcases mem_cons.1 hmem with heq | hmem
    · cases heq
      rw [find?_eq_none hnodup.1, if_pos rfl]
      rfl
    · rw [ih hnodup.2 hmem]
      rfl

end Bindings

namespace Evaluation

omit [Scalar α] in
/-- The marked names are bound to the joined value, and the others in order to the remaining values. -/
theorem exists_bindPost (op : String) (joined : Tensor α) {names : List String}
    (hlength : (names.filter (!takesJoined ·)).length ≤ rest.length) :
    ∃ bindings, bindPost op joined names rest = .ok bindings ∧
      ∀ name, bindings.find? name =
        if takesJoined name then (if name ∈ names then some joined else none)
        else Bindings.find? ((names.filter (!takesJoined ·)).zip rest) name := by
  induction names generalizing rest with
  | nil => exact ⟨[], rfl, fun name => by simp [Bindings.find?]⟩
  | cons first names ih =>
    cases hfirst : takesJoined first with
    | true =>
      rw [filter_cons_of_neg (by simp [hfirst])] at hlength ⊢
      obtain ⟨bindings, hbindings, hfind⟩ := ih hlength
      refine ⟨(first, joined) :: bindings, ?_, fun name => ?_⟩
      · unfold bindPost
        rw [if_pos hfirst, hbindings]
        rfl
      · rw [Bindings.find?_cons, hfind]
        by_cases heq : first = name
        · subst heq
          rw [hfirst, if_pos rfl, if_pos rfl, if_pos rfl, if_pos mem_cons_self]
          split_ifs <;> rfl
        · have hsame : name ∈ first :: names ↔ name ∈ names := by
            rw [mem_cons, or_iff_right (Ne.symm heq)]
          rw [if_neg heq, Option.or_none]
          simp only [hsame]
    | false =>
      rw [filter_cons_of_pos (by simp [hfirst])] at hlength ⊢
      cases rest with
      | nil => exact absurd hlength (Nat.not_succ_le_zero _)
      | cons value rest =>
        obtain ⟨bindings, hbindings, hfind⟩ := ih (Nat.le_of_succ_le_succ hlength)
        refine ⟨(first, value) :: bindings, ?_, fun name => ?_⟩
        · unfold bindPost
          rw [if_neg (by simp [hfirst])]
          dsimp only
          rw [hbindings]
          rfl
        · rw [zip_cons_cons, Bindings.find?_cons, Bindings.find?_cons, hfind]
          by_cases hmark : takesJoined name = true
          · have hne : first ≠ name := by
              rintro rfl
              rw [hfirst] at hmark
              cases hmark
            have hsame : name ∈ first :: names ↔ name ∈ names := by
              rw [mem_cons, or_iff_right hne.symm]
            rw [if_pos hmark, if_pos hmark, if_neg hne, Option.or_none]
            simp only [hsame]
          · rw [if_neg hmark, if_neg hmark]

end Evaluation

end TensorGraph
