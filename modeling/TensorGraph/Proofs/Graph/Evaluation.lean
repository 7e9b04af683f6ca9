import TensorGraph.Graph.Evaluation
import TensorGraph.Proofs.Graph.Store
import TensorGraph.Proofs.Operator.Alike

/-!
# Evaluation, step by step

`Graph.Yields` says what value a node has without saying in which order values are computed; the
evaluator gives no other values.
-/

namespace TensorGraph

open List

section StateT

variable {ε σ β γ : Type}

theorem stateT_mapM_cons (step : β → StateT σ (Except ε) γ) (item : β) (items : List β)
    (state : σ) :
    ((item :: items).mapM step) state =
      step item state >>= fun first => items.mapM step first.2 >>= fun rest =>
        .ok (first.1 :: rest.1, rest.2) := by
  rw [mapM_cons]
  rfl

variable {step : β → StateT σ (Except ε) γ} {sure : Prop} {items : List β} {state : σ}

/-- Going through a list with a state that stays good. -/
theorem mapM_delivers {good : σ → Prop} {property : β → γ → Prop}
    (hstep : ∀ item ∈ items, ∀ state, good state →
      Delivers sure (fun result => property item result.1 ∧ good result.2) (step item state))
    (hgood : good state) :
    Delivers sure (fun result => Forall₂ property items result.1 ∧ good result.2)
      (items.mapM step state) := by
  induction items generalizing state with
  | nil => exact .ok ⟨.nil, hgood⟩
  | cons item items ih =>
    rw [forall_mem_cons] at hstep
    rw [stateT_mapM_cons]
    refine (hstep.1 state hgood).bind fun first hfirst => ?_
    refine (ih hstep.2 hfirst.2).bind fun rest hrest => ?_
    exact .ok ⟨.cons hfirst.1 hrest.1, hrest.2⟩

/-- Going through a list in step with another run. -/
theorem mapM_lockstep {step' : β → StateT σ (Except ε) γ} {good : σ → σ → Prop}
    {related : γ → γ → Prop} (hstep : ∀ {item state state' value next}, good state state' →
      step item state = .ok (value, next) →
      Delivers sure (fun result => related value result.1 ∧ good next result.2)
        (step' item state')) {state' : σ} {values : List γ} {next : σ} (hgood : good state state')
    (hrun : items.mapM step state = .ok (values, next)) :
    Delivers sure (fun result => Forall₂ related values result.1 ∧ good next result.2)
      (items.mapM step' state') := by
  induction items generalizing state state' values with
  | nil =>
    cases hrun
    exact .ok ⟨.nil, hgood⟩
  | cons item items ih =>
    rw [stateT_mapM_cons] at hrun ⊢
    obtain ⟨⟨value, middle⟩, hfirst, hrun⟩ := bind_eq_ok_iff.1 hrun
    obtain ⟨⟨rest, last⟩, hrest, hrun⟩ := bind_eq_ok_iff.1 hrun
    cases hrun
    refine (hstep hgood hfirst).bind fun first' hfirst' => ?_
    refine (ih hfirst'.2 hrest).bind fun rest' hrest' => ?_
    exact .ok ⟨.cons hfirst'.1 hrest'.1, hrest'.2⟩

end StateT

namespace Graph

variable {α : Type} [Scalar α] {run : Runner α} {g : Graph α} {bindings : Bindings α} {bound : Nat}
  {node : NodeId} {memo : Memo α} {instruction : Stored α} {t : Tensor α}
  {next : Memo α}

/-! ## One step -/

omit [Scalar α] in
theorem lift_instruction (hfound : g.find? node = some instruction) :
    (liftM (liftM (g.instruction node) : Outcome EvalError _) :
      StateT (Memo α) (Outcome EvalError) _) memo = .ok (instruction, memo) := by
  change ((liftM (g.instruction node) : Outcome EvalError _) >>= fun found => pure (found, memo)) = _
  rw [Outcome.lift_eq_ok_iff.2 (instruction_eq_ok_iff.2 hfound)]
  rfl

theorem valueWithin_of_lookup (hlookup : memo.lookup node = some t) :
    valueWithin run g bindings (bound + 1) node memo = .ok (t, memo) := by
  unfold valueWithin
  simp only [bind, StateT.bind, MonadState.get, getThe, MonadStateOf.get, StateT.get, Except.bind, pure,
    Except.pure, hlookup]
  rfl

theorem valueWithin_missing (hlookup : memo.lookup node = none) (hfound : g.find? node = none) :
    valueWithin run g bindings (bound + 1) node memo = .error (.fault .missingNode) := by
  unfold valueWithin
  simp only [bind, StateT.bind, MonadState.get, getThe, MonadStateOf.get, StateT.get, Except.bind, pure,
    Except.pure, hlookup, Graph.instruction, hfound]
  rfl

theorem valueWithin_parameter {name : String} {shape : Shape} (hlookup : memo.lookup node = none)
    (hfound : g.find? node = some instruction) (hop : instruction.op = .parameter name shape) :
    valueWithin run g bindings (bound + 1) node memo =
      match bindings.find? name with
      | some t => .ok (t, (node, t) :: memo)
      | none => .refuse (.missingParameter name) := by
  unfold valueWithin
  simp only [bind, StateT.bind, MonadState.get, getThe, MonadStateOf.get, StateT.get, Except.bind, pure,
    Except.pure, hlookup, lift_instruction hfound, hop]
  cases bindings.find? name <;> rfl

theorem valueWithin_apply (hlookup : memo.lookup node = none)
    (hfound : g.find? node = some instruction) (hop : instruction.op.isParameter = false) :
    valueWithin run g bindings (bound + 1) node memo =
      (instruction.inputs.mapM (valueWithin run g bindings bound)) memo >>= fun args =>
        instruction.op.apply args.1 (instruction.modules.map (callableBy run)) >>= fun t =>
          .ok (t, (node, t) :: args.2) := by
  unfold valueWithin
  simp only [bind, StateT.bind, MonadState.get, getThe, MonadStateOf.get, StateT.get, Except.bind, pure,
    Except.pure, hlookup, lift_instruction hfound]
  obtain ⟨op, shape, inputs, modules⟩ := instruction
  cases op with
  | parameter name shape => cases hop
  | _ =>
    simp only [StateT.bind, bind, Except.bind]
    cases inputs.mapM (valueWithin run g bindings bound) memo with
    | error cause => rfl
    | ok args =>
      dsimp only
      generalize Operator.apply _ args.1 (modules.map (callableBy run)) = applied
      cases applied <;> rfl

omit [Scalar α] in
theorem isParameter_cases (op : Operator α) :
    (∃ name shape, op = .parameter name shape) ∨ op.isParameter = false := by
  cases op <;> simp [Operator.isParameter]

/-- A step depends on the instruction, on how its modules are run and on the steps for its inputs. -/
theorem valueWithin_succ_congr {run' : Runner α} {h : Graph α} {bound' : Nat}
    (hfind : h.find? node = g.find? node)
    (hmodules : ∀ stored, g.find? node = some stored →
      stored.modules.map (callableBy run) = stored.modules.map (callableBy run'))
    (hinputs : ∀ stored, g.find? node = some stored → ∀ input ∈ stored.inputs,
      valueWithin run g bindings bound input = valueWithin run' h bindings bound' input) :
    valueWithin run g bindings (bound + 1) node = valueWithin run' h bindings (bound' + 1) node := by
  funext memo
  cases hlookup : memo.lookup node with
  | some t => rw [valueWithin_of_lookup hlookup, valueWithin_of_lookup hlookup]
  | none =>
    cases hfound : g.find? node with
    | none =>
      rw [valueWithin_missing hlookup hfound, valueWithin_missing hlookup (hfind.trans hfound)]
    | some stored =>
      have hfound' := hfind.trans hfound
      rcases isParameter_cases stored.op with ⟨name, shape, hop⟩ | hop
      · rw [valueWithin_parameter hlookup hfound hop, valueWithin_parameter hlookup hfound' hop]
      · rw [valueWithin_apply hlookup hfound hop, valueWithin_apply hlookup hfound' hop,
          mapM_congr_mem (hinputs stored hfound), hmodules stored hfound]

/-- Where a value comes from: it was there before, or a parameter is bound to it, or an operator
gives it. -/
theorem valueWithin_succ_eq_ok
    (hrun : valueWithin run g bindings (bound + 1) node memo = .ok (t, next)) :
    (memo.lookup node = some t ∧ next = memo) ∨
      memo.lookup node = none ∧ ∃ instruction, g.find? node = some instruction ∧
        ((∃ name shape, instruction.op = .parameter name shape ∧
            bindings.find? name = some t ∧ next = (node, t) :: memo) ∨
          instruction.op.isParameter = false ∧ ∃ args middle,
            (instruction.inputs.mapM (valueWithin run g bindings bound)) memo =
              .ok (args, middle) ∧
            instruction.op.apply args (instruction.modules.map (callableBy run)) = .ok t ∧
            next = (node, t) :: middle) := by
  cases hlookup : memo.lookup node with
  | some value =>
    rw [valueWithin_of_lookup hlookup] at hrun
    cases hrun
    exact .inl ⟨rfl, rfl⟩
  | none =>
    refine .inr ⟨rfl, ?_⟩
    cases hfound : g.find? node with
    | none =>
      rw [valueWithin_missing hlookup hfound] at hrun
      cases hrun
    | some instruction =>
      refine ⟨instruction, rfl, ?_⟩
      rcases isParameter_cases instruction.op with ⟨name, shape, hop⟩ | hop
      · rw [valueWithin_parameter hlookup hfound hop] at hrun
        cases hbound : bindings.find? name with
        | none => rw [hbound] at hrun; cases hrun
        | some value =>
          rw [hbound] at hrun
          cases hrun
          exact .inl ⟨name, shape, hop, hbound, rfl⟩
      · rw [valueWithin_apply hlookup hfound hop] at hrun
        obtain ⟨⟨args, middle⟩, hargs, hrun⟩ := bind_eq_ok_iff.1 hrun
        obtain ⟨value, hvalue, hrun⟩ := bind_eq_ok_iff.1 hrun
        cases hrun
        exact .inr ⟨hop, args, middle, hargs, hvalue, rfl⟩

/-! ## Two runs in step -/

/-- The second graph is the first one with other indices and other names for its parameters. -/
structure Renames (m m' : Graph α) (image : NodeId → NodeId) (rename : String → String) : Prop where
  injective : Function.Injective image
  size_eq : m'.size = m.size
  results_eq : m'.results = m.results.map image
  parameter : ∀ ⦃node instruction name shape⦄, m.find? node = some instruction →
    instruction.op = .parameter name shape →
    ∃ stored shape', m'.find? (image node) = some stored ∧
      stored.op = .parameter (rename name) shape'
  applied : ∀ ⦃node instruction⦄, m.find? node = some instruction →
    instruction.op.isParameter = false →
    ∃ stored, m'.find? (image node) = some stored ∧ stored.op = instruction.op ∧
      stored.inputs = instruction.inputs.map image ∧ stored.modules = instruction.modules

variable {m m' : Graph α} {image : NodeId → NodeId} {related : Tensor α → Tensor α → Prop}
  {memo' : Memo α} {sure : Prop} {nodes : List NodeId} {values : List (Tensor α)}

omit [Scalar α] in
/-- Neither the name of a graph nor its unused indices matter. -/
theorem renames_of_nodes (hnodes : m'.nodes = m.nodes) : Renames m m' id id := by
  have hfind (node : NodeId) : m'.find? node = m.find? node := by rw [find?, find?, hnodes]
  constructor
  · exact Function.injective_id
  · rw [size, size, hnodes]
  · rw [results, results, hnodes, map_id]
  · intro node instruction name shape hfound hop
    exact ⟨instruction, shape, (hfind node).trans hfound, hop⟩
  · intro node instruction hfound _
    exact ⟨instruction, (hfind node).trans hfound, rfl, (map_id _).symm, rfl⟩

/-- Values for the images of the same nodes in the same order, related one by one. -/
def Memo.Related (image : NodeId → NodeId) (related : Tensor α → Tensor α → Prop) :
    Memo α → Memo α → Prop :=
  Forall₂ fun entry entry' => entry'.1 = image entry.1 ∧ related entry.2 entry'.2

omit [Scalar α] in
theorem Memo.Related.lookup (himage : Function.Injective image)
    (hmemo : Memo.Related image related memo memo') (node : NodeId) :
    (memo.lookup node = none ∧ memo'.lookup (image node) = none) ∨
      ∃ t t', memo.lookup node = some t ∧ memo'.lookup (image node) = some t' ∧ related t t' := by
  induction hmemo with
  | nil => exact .inl ⟨rfl, rfl⟩
  | @cons entry entry' memo memo' hfirst _ ih =>
    obtain ⟨id, t⟩ := entry
    obtain ⟨id', t'⟩ := entry'
    obtain ⟨heq, hrelated⟩ : id' = image id ∧ related t t' := hfirst
    have hsame : (image node == id') = (node == id) := by
      rw [heq, Bool.eq_iff_iff, beq_iff_eq, beq_iff_eq, himage.eq_iff]
    rw [lookup_cons, lookup_cons, hsame]
    cases node == id with
    | true => exact .inr ⟨t, t', rfl, rfl, hrelated⟩
    | false => exact ih

section Lockstep

variable {run' : Runner α} {rename : String → String} (hrenames : Renames m m' image rename)
  {bindings' : Bindings α}
  (hbindings : ∀ {name t}, bindings.find? name = some t →
    ∃ t', bindings'.find? (rename name) = some t' ∧ related t t')
  (happly : ∀ {node instruction args args' t}, m.find? node = some instruction →
    Forall₂ related args args' →
    instruction.op.apply args (instruction.modules.map (callableBy run)) = .ok t →
    Delivers sure (related t)
      (instruction.op.apply args' (instruction.modules.map (callableBy run'))))

include hrenames hbindings happly

/-- A run of a renamed graph on related bindings follows a run that gives a value. -/
theorem valueWithin_lockstep (hmemo : Memo.Related image related memo memo')
    (hrun : valueWithin run m bindings bound node memo = .ok (t, next)) :
    Delivers sure (fun result => related t result.1 ∧ Memo.Related image related next result.2)
      (valueWithin run' m' bindings' bound (image node) memo') := by
  induction bound generalizing node memo memo' next t with
  | zero => cases hrun
  | succ bound ih =>
    have hkeys := hmemo.lookup hrenames.injective node
    rcases valueWithin_succ_eq_ok hrun with ⟨hlookup, rfl⟩ | ⟨hlookup, instruction, hfound, hcases⟩
    · rcases hkeys with ⟨hnone, -⟩ | ⟨value, value', hvalue, hvalue', hrelated⟩
      · rw [hlookup] at hnone
        cases hnone
      · cases hlookup.symm.trans hvalue
        rw [valueWithin_of_lookup hvalue']
        exact .ok ⟨hrelated, hmemo⟩
    · have hlookup' : memo'.lookup (image node) = none := by
        rcases hkeys with ⟨-, hnone⟩ | ⟨_, _, hsome, -⟩
        · exact hnone
        · rw [hlookup] at hsome
          cases hsome
      rcases hcases with ⟨name, shape, hop, hbound, rfl⟩ | ⟨hop, args, middle, hargs, happlied, rfl⟩
      · obtain ⟨t', ht', hrelated⟩ := hbindings hbound
        obtain ⟨stored, shape', hstored, hop'⟩ := hrenames.parameter hfound hop
        rw [valueWithin_parameter hlookup' hstored hop', ht']
        exact .ok ⟨hrelated, .cons ⟨rfl, hrelated⟩ hmemo⟩
      · obtain ⟨stored, hstored, hop', hinputs, hmodules⟩ := hrenames.applied hfound hop
        rw [valueWithin_apply hlookup' hstored (hop' ▸ hop), hop', hinputs, hmodules,
          mapM_map]
        refine (mapM_lockstep ih hmemo hargs).bind fun args' hargs' => ?_
        refine (happly hfound hargs'.1 happlied).bind fun t' hrelated => ?_
        exact .ok ⟨hrelated, .cons ⟨rfl, hrelated⟩ hargs'.2⟩

/-- So it does for all that is returned. -/
theorem valuesWith_lockstep (hrun : m.valuesWith run bindings m.results = .ok values) :
    Delivers sure (Forall₂ related values) (m'.valuesWith run' bindings' m'.results) := by
  obtain ⟨⟨values, memo⟩, hvalues, hpure⟩ := bind_eq_ok_iff.1 hrun
  cases hpure
  have hlist : Delivers sure (fun result => Forall₂ related values result.1 ∧
      Memo.Related image related memo result.2)
      ((m.results.map image).mapM (valueWithin run' m' bindings' (m.size + 1)) []) := by
    rw [mapM_map]
    exact mapM_lockstep (valueWithin_lockstep hrenames hbindings happly) .nil hvalues
  rw [hrenames.results_eq, valuesWith, hrenames.size_eq]
  exact hlist.bind fun result hresult => .ok hresult.1

end Lockstep

/-! ## The values of nodes -/

/-- The value that a node has. -/
inductive Yields (run : Runner α) (g : Graph α) (bindings : Bindings α) : NodeId → Tensor α → Prop
  | parameter {node : NodeId} {instruction : Instruction α (Graph α)} {name : String}
      {shape : Shape} {t : Tensor α} (hfound : g.find? node = some instruction)
      (hop : instruction.op = .parameter name shape) (hbound : bindings.find? name = some t) :
      Yields run g bindings node t
  | apply {node : NodeId} {instruction : Instruction α (Graph α)} {args : List (Tensor α)}
      {t : Tensor α} (hfound : g.find? node = some instruction)
      (hop : instruction.op.isParameter = false)
      (hlength : instruction.inputs.length = args.length)
      (hargs : ∀ {input arg}, (input, arg) ∈ instruction.inputs.zip args →
        Yields run g bindings input arg)
      (happly : instruction.op.apply args (instruction.modules.map (callableBy run)) = .ok t) :
      Yields run g bindings node t

/-- How a node comes by its value when it is not a parameter. -/
theorem Yields.exists_args (hyields : Yields run g bindings node t)
    (hfound : g.find? node = some instruction) (hop : instruction.op.isParameter = false) :
    ∃ args, Forall₂ (Yields run g bindings) instruction.inputs args ∧
      instruction.op.apply args (instruction.modules.map (callableBy run)) = .ok t := by
  cases hyields with
  | parameter hfound' hop' _ =>
    cases hfound.symm.trans hfound'
    rw [hop'] at hop
    cases hop
  | apply hfound' _ hlength hargs happly =>
    cases hfound.symm.trans hfound'
    exact ⟨_, forall₂_iff_zip.2 ⟨hlength, hargs⟩, happly⟩

/-- What a parameter yields is bound to it. -/
theorem Yields.find?_eq {name : String} {shape : Shape} (hyields : Yields run g bindings node t)
    (hfound : g.find? node = some instruction) (hop : instruction.op = .parameter name shape) :
    bindings.find? name = some t := by
  cases hyields with
  | parameter hfound' hop' hbound =>
    cases hfound.symm.trans hfound'
    cases hop.symm.trans hop'
    exact hbound
  | apply hfound' hop' _ _ _ =>
    cases hfound.symm.trans hfound'
    rw [hop] at hop'
    cases hop'

omit [Scalar α] in
theorem mem_of_lookup (hlookup : memo.lookup node = some t) : (node, t) ∈ memo := by
  obtain ⟨before, after, rfl, -⟩ := lookup_eq_some_iff.1 hlookup
  simp

/-- What is remembered for nodes has a property. -/
def Memo.All (property : NodeId → Tensor α → Prop) (memo : Memo α) : Prop :=
  ∀ entry ∈ memo, property entry.1 entry.2

/-- The evaluator gives no other value than the one that a node has. -/
theorem valueWithin_yields (hmemo : memo.All (Yields run g bindings)) :
    Delivers False
      (fun result => Yields run g bindings node result.1 ∧ Memo.All (Yields run g bindings) result.2)
      (valueWithin run g bindings bound node memo) := by
  induction bound generalizing node memo with
  | zero => exact ⟨nofun, False.elim⟩
  | succ bound ih =>
    refine ⟨?_, False.elim⟩
    rintro ⟨t, next⟩ hrun
    rcases valueWithin_succ_eq_ok hrun with ⟨hlookup, rfl⟩ | ⟨-, instruction, hfound, hcases⟩
    · exact ⟨hmemo _ (mem_of_lookup hlookup), hmemo⟩
    rcases hcases with ⟨name, shape, hop, hbound, rfl⟩ | ⟨hop, args, middle, hargs, happly, rfl⟩
    · have hself : Yields run g bindings node t := .parameter hfound hop hbound
      exact ⟨hself, forall_mem_cons.2 ⟨hself, hmemo⟩⟩
    · obtain ⟨hinputs, hmiddle⟩ := (mapM_delivers (fun _ _ _ hmemo => ih hmemo) hmemo).post hargs
      obtain ⟨hlength, hzip⟩ := forall₂_iff_zip.1 hinputs
      have hself : Yields run g bindings node t := .apply hfound hop hlength hzip happly
      exact ⟨hself, forall_mem_cons.2 ⟨hself, hmiddle⟩⟩

/-- Where each node reads nodes of lower rank, the evaluator gives values wherever operators do. -/
theorem valueWithin_ranked {rank : NodeId → Nat} {ready : NodeId → Prop}
    {property : NodeId → Tensor α → Prop}
    (hready : ∀ {node}, ready node → ∃ instruction, g.find? node = some instruction ∧
      ((∃ name shape, instruction.op = .parameter name shape ∧
          (∀ t, bindings.find? name = some t → property node t) ∧
          (sure → ∃ t, bindings.find? name = some t)) ∨
        instruction.op.isParameter = false ∧
          (∀ input ∈ instruction.inputs, ready input ∧ rank input < rank node) ∧
          ∀ {args}, Forall₂ property instruction.inputs args →
            Delivers sure (property node)
              (instruction.op.apply args (instruction.modules.map (callableBy run)))))
    (hnode : ready node) (hbound : rank node < bound)
    (hmemo : memo.All property) :
    Delivers sure (fun result => property node result.1 ∧ Memo.All property result.2)
      (valueWithin run g bindings bound node memo) := by
  induction bound generalizing node memo with
  | zero => cases hbound
  | succ bound ih =>
    cases hlookup : memo.lookup node with
    | some t =>
      rw [valueWithin_of_lookup hlookup]
      exact .ok ⟨hmemo _ (mem_of_lookup hlookup), hmemo⟩
    | none =>
      obtain ⟨instruction, hfound, hcases⟩ := hready hnode
      rcases hcases with ⟨name, shape, hop, hproperty, hsure⟩ | ⟨hop, hinputs, happly⟩
      · rw [valueWithin_parameter hlookup hfound hop]
        cases ht : bindings.find? name with
        | none =>
          refine ⟨(fun hrun => nomatch hrun), fun hmet => ?_⟩
          obtain ⟨t, ht'⟩ := hsure hmet
          cases ht.symm.trans ht'
        | some t =>
          have hself := hproperty t ht
          exact .ok ⟨hself, forall_mem_cons.2 ⟨hself, hmemo⟩⟩
      · rw [valueWithin_apply hlookup hfound hop]
        have hbelow := Nat.le_of_lt_succ hbound
        have hstep := mapM_delivers (fun input hmem _ hmemo =>
          ih (hinputs input hmem).1 (Nat.lt_of_lt_of_le (hinputs input hmem).2 hbelow) hmemo) hmemo
        refine hstep.bind fun args hargs => ?_
        refine (happly hargs.1).bind fun t hproperty => ?_
        exact .ok ⟨hproperty, forall_mem_cons.2 ⟨hproperty, hargs.2⟩⟩

/-! ## Whole runs -/

omit [Scalar α] in
theorem depth_pos (g : Graph α) : 0 < g.depth := by
  obtain ⟨name, nodes, vacant, fresh⟩ := g
  exact Nat.succ_pos _

/-- How the modules of a graph are run. -/
def moduleRunner (g : Graph α) : Runner α := runWithin (nodesDepth g.nodes)

theorem valuesWith_eq_bind (nodes : List NodeId) :
    g.valuesWith run bindings nodes =
      (nodes.mapM (valueWithin run g bindings (g.size + 1))) [] >>= fun result =>
        .ok result.1 := rfl

/-- Whatever is given for several nodes are their values. -/
theorem valuesWith_yields (hrun : g.valuesWith run bindings nodes = .ok values) :
    Forall₂ (Yields run g bindings) nodes values := by
  obtain ⟨⟨values, memo⟩, hvalues, hpure⟩ := bind_eq_ok_iff.1 hrun
  cases hpure
  have hstart : Memo.All (Yields run g bindings) [] := nofun
  exact ((mapM_delivers (fun _ _ _ hmemo => valueWithin_yields hmemo) hstart).post hvalues).1

/-- A single node is evaluated with no values computed before. -/
theorem value_eq_ok_iff :
    g.value bindings node = .ok t ↔
      ∃ memo, valueWithin (runWithin g.depth) g bindings (g.size + 1) node [] = .ok (t, memo) := by
  change (valueWithin (runWithin g.depth) g bindings (g.size + 1) node [] >>= fun result =>
    .ok result.1) = .ok t ↔ _
  rw [bind_eq_ok_iff]
  constructor
  · rintro ⟨⟨t, memo⟩, hvalue, hpure⟩
    cases hpure
    exact ⟨memo, hvalue⟩
  · rintro ⟨memo, hvalue⟩
    exact ⟨(t, memo), hvalue, rfl⟩

theorem run_eq_valuesWith (g : Graph α) (bindings : Bindings α) :
    g.run bindings = g.valuesWith g.moduleRunner bindings g.results := by
  unfold run
  cases g
  rfl

end Graph

end TensorGraph
