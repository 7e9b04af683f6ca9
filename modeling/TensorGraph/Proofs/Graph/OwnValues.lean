import TensorGraph.Proofs.Graph.Acyclicity
import TensorGraph.Proofs.Pass.Outputs

/-!
# Values of their own

A node has a value before any parameter is bound if no parameter and no end of a graph feeds it. The
evaluator remembers values, where `outcomeWithin` remembers nothing; in an acyclic graph both come to the
same end.
-/

namespace TensorGraph

open Pass List

namespace Graph

variable {α : Type} {g : Graph α} {node other : NodeId}

/-! ## Following inputs -/

/-- The arguments of the nodes that have not been seen. -/
def unseenArguments (nodes : List (NodeId × Instruction α (Graph α))) (seen : List NodeId) :
    List NodeId :=
  nodes.flatMap fun entry => if entry.1 ∈ seen then [] else entry.2.inputs

theorem length_unseenArguments_le (nodes : List (NodeId × Instruction α (Graph α)))
    (seen : List NodeId) (node : NodeId) :
    (unseenArguments nodes (seen ++ [node])).length ≤ (unseenArguments nodes seen).length := by
  apply List.Sublist.length_le
  apply List.Sublist.flatMap_right
  intro entry _
  by_cases hbefore : entry.1 ∈ seen
  · rw [if_pos hbefore, if_pos (mem_append_left _ hbefore)]
  · rw [if_neg hbefore]
    split_ifs
    · exact nil_sublist _
    · exact .refl _

/-- Seeing a node takes its arguments off those that are still to be followed. -/
theorem length_unseenArguments_add_le {seen : List NodeId} (hnew : node ∉ seen) :
    (unseenArguments g.nodes (seen ++ [node])).length + (g.inputs node).length ≤
      (unseenArguments g.nodes seen).length := by
  unfold inputs find?
  induction g.nodes with
  | nil => exact Nat.le_refl _
  | cons entry rest ih =>
    have hrest := length_unseenArguments_le rest seen node
    simp only [unseenArguments, flatMap_cons, length_append, find?_cons] at hrest ih ⊢
    by_cases hentry : entry.1 = node
    · have hmem : entry.1 ∈ seen ++ [node] := by simp [hentry]
      rw [if_pos hmem, if_neg (hentry ▸ hnew), beq_iff_eq.2 hentry]
      simp only [Option.map_some, length_nil]
      omega
    · have hsame : entry.1 ∈ seen ++ [node] ↔ entry.1 ∈ seen := by simp [hentry]
      simp only [hsame, beq_eq_false_iff_ne.2 hentry]
      omega

theorem length_unseenArguments_nil (g : Graph α) :
    (unseenArguments g.nodes []).length = g.edgeCount := by
  simp [unseenArguments, edgeCount]

/-- Only what feeds a pending node is added to what has been seen. -/
theorem feeds_of_mem_reach {steps : Nat} {pending seen : List NodeId}
    (hmem : other ∈ g.reach steps pending seen) :
    other ∈ seen ∨ ∃ start ∈ pending, Feeds g other start := by
  induction steps generalizing pending seen with
  | zero => exact .inl hmem
  | succ steps ih =>
    cases pending with
    | nil => exact .inl hmem
    | cons first rest =>
      rw [reach] at hmem
      split_ifs at hmem
      · rcases ih hmem with hseen | ⟨start, hstart, hfeeds⟩
        · exact .inl hseen
        · exact .inr ⟨start, mem_cons_of_mem _ hstart, hfeeds⟩
      · rcases ih hmem with hseen | ⟨start, hstart, hfeeds⟩
        · rcases mem_append.1 hseen with hseen | hfirst
          · exact .inl hseen
          · rw [mem_singleton.1 hfirst]
            exact .inr ⟨first, mem_cons_self, .refl⟩
        · rcases mem_append.1 hstart with hinput | hstart
          · exact .inr ⟨first, mem_cons_self, hfeeds.tail hinput⟩
          · exact .inr ⟨start, mem_cons_of_mem _ hstart, hfeeds⟩

/-- With a step for every pending node and every argument of an unseen one, nothing is left out: what
is pending or seen is listed, and so is what a listed node reads. -/
theorem reach_closed {steps : Nat} {pending seen : List NodeId}
    (hsteps : pending.length + (unseenArguments g.nodes seen).length ≤ steps)
    (hseen : ∀ node ∈ seen, ∀ input ∈ g.inputs node, input ∈ seen ∨ input ∈ pending) :
    (∀ node, node ∈ seen ∨ node ∈ pending → node ∈ g.reach steps pending seen) ∧
      ∀ node ∈ g.reach steps pending seen, ∀ input ∈ g.inputs node,
        input ∈ g.reach steps pending seen := by
  induction steps generalizing pending seen with
  | zero =>
    obtain rfl : pending = [] := eq_nil_of_length_eq_zero (by omega)
    simpa [reach] using hseen
  | succ steps ih =>
    cases pending with
    | nil => simpa [reach] using hseen
    | cons first rest =>
      rw [length_cons] at hsteps
      simp only [reach, contains_eq_mem, decide_eq_true_iff]
      split_ifs with hfirst
      · have hcovered : ∀ node, node ∈ seen ∨ node ∈ first :: rest → node ∈ seen ∨ node ∈ rest := by
          rintro node (hnode | hnode)
          · exact .inl hnode
          · rcases mem_cons.1 hnode with rfl | hnode
            · exact .inl hfirst
            · exact .inr hnode
        obtain ⟨hlisted, hclosed⟩ := ih (by omega)
          fun node hnode input hinput => hcovered input (hseen node hnode input hinput)
        exact ⟨fun node hnode => hlisted node (hcovered node hnode), hclosed⟩
      · have hcount := length_unseenArguments_add_le (g := g) hfirst
        have hcovered : ∀ node, node ∈ seen ∨ node ∈ first :: rest →
            node ∈ seen ++ [first] ∨ node ∈ g.inputs first ++ rest := by
          rintro node (hnode | hnode)
          · exact .inl (mem_append_left _ hnode)
          · rcases mem_cons.1 hnode with rfl | hnode
            · exact .inl (mem_append_right _ mem_cons_self)
            · exact .inr (mem_append_right _ hnode)
        have hseen' : ∀ node ∈ seen ++ [first], ∀ input ∈ g.inputs node,
            input ∈ seen ++ [first] ∨ input ∈ g.inputs first ++ rest := by
          intro node hnode input hinput
          rcases mem_append.1 hnode with hnode | hnode
          · exact hcovered input (hseen node hnode input hinput)
          · rw [mem_singleton.1 hnode] at hinput
            exact .inr (mem_append_left _ hinput)
        obtain ⟨hlisted, hclosed⟩ := ih (by rw [length_append]; omega) hseen'
        exact ⟨fun node hnode => hlisted node (hcovered node hnode), hclosed⟩

/-- Following inputs lists exactly the nodes that feed a node. -/
theorem mem_dependencies_iff : other ∈ g.dependencies node ↔ Feeds g other node := by
  constructor
  · intro hmem
    rcases feeds_of_mem_reach hmem with hnone | ⟨start, hstart, hfeeds⟩
    · cases hnone
    · rwa [mem_singleton.1 hstart] at hfeeds
  · intro hfeeds
    have hsteps : [node].length + (unseenArguments g.nodes []).length ≤ g.edgeCount + 2 := by
      rw [length_unseenArguments_nil, length_singleton]
      omega
    obtain ⟨hlisted, hclosed⟩ := reach_closed hsteps (fun node hnode => nomatch hnode)
    induction hfeeds using Relation.ReflTransGen.head_induction_on with
    | refl => exact hlisted node (.inr mem_cons_self)
    | head hinput _ ih => exact hclosed _ ih _ hinput

/-- No parameter and no end of a graph feeds the node. -/
def SelfContained (g : Graph α) (node : NodeId) : Prop :=
  ∀ other stored, Feeds g other node → g.find? other = some stored →
    stored.op.isParameter = false ∧ stored.op.isReturns = false

theorem SelfContained.of_mem_inputs (hown : g.SelfContained node) (hinput : other ∈ g.inputs node) :
    g.SelfContained other :=
  fun first stored hfeeds hfound => hown first stored (hfeeds.tail hinput) hfound

theorem canEval_eq_ok (hnode : node ∈ g.order) :
    g.canEval node = .ok ((g.dependencies node).all g.hasOwnValue) := by
  obtain ⟨stored, hfound⟩ := exists_find?_of_mem_order hnode
  rw [canEval, instruction_eq_ok_iff.2 hfound]
  rfl

theorem hasOwnValue_eq_true_iff {stored : Stored α} (hfound : g.find? node = some stored) :
    g.hasOwnValue node = true ↔ stored.op.isParameter = false ∧ stored.op.isReturns = false := by
  rw [hasOwnValue, hfound, Bool.and_eq_true, Bool.not_eq_true', Bool.not_eq_true']

theorem canEval_eq_true_iff (hreads : ∀ {node input}, input ∈ g.inputs node → input ∈ g.order)
    (hnode : node ∈ g.order) : g.canEval node = .ok true ↔ g.SelfContained node := by
  rw [canEval_eq_ok hnode, Except.ok.injEq, all_eq_true]
  constructor
  · intro hall other stored hfeeds hfound
    exact (hasOwnValue_eq_true_iff hfound).1 (hall other (mem_dependencies_iff.2 hfeeds))
  · intro hown other hother
    have hfeeds := mem_dependencies_iff.1 hother
    have hlive : other ∈ g.order := by
      rcases hfeeds.cases_head with rfl | ⟨reader, hinput, -⟩
      · exact hnode
      · exact hreads hinput
    obtain ⟨stored, hfound⟩ := exists_find?_of_mem_order hlive
    exact (hasOwnValue_eq_true_iff hfound).2 (hown other stored hfeeds hfound)

end Graph

/-! ## Computing without a memory -/

section Mirrors

variable {ε σ β γ : Type} {good : σ → Prop}

/-- A computation with a state ends as one without, and leaves a good state. -/
inductive Mirrors (good : σ → Prop) : Except ε (β × σ) → Except ε β → Prop
  | ok {value : β} {state : σ} (hgood : good state) : Mirrors good (.ok (value, state)) (.ok value)
  | error (cause : ε) : Mirrors good (.error cause) (.error cause)

namespace Mirrors

theorem bind {first : Except ε (β × σ)} {next : β × σ → Except ε (γ × σ)} {plain : Except ε β}
    {plainNext : β → Except ε γ} (hfirst : Mirrors good first plain)
    (hnext : ∀ value state, plain = .ok value → good state →
      Mirrors good (next (value, state)) (plainNext value)) :
    Mirrors good (first >>= next) (plain >>= plainNext) := by
  cases hfirst with
  | ok hgood => exact hnext _ _ rfl hgood
  | error cause => exact .error cause

theorem of_plain {plain : Except ε β} {state : β → σ}
    (hgood : ∀ value, plain = .ok value → good (state value)) :
    Mirrors good (plain >>= fun value => .ok (value, state value)) plain := by
  cases plain with
  | ok value => exact .ok (hgood value rfl)
  | error cause => exact .error cause

theorem mapM {step : β → StateT σ (Except ε) γ} {plain : β → Except ε γ} {items : List β}
    (hstep : ∀ item ∈ items, ∀ state, good state → Mirrors good (step item state) (plain item))
    {state : σ} (hgood : good state) : Mirrors good (items.mapM step state) (items.mapM plain) := by
  induction items generalizing state with
  | nil => exact .ok hgood
  | cons item items ih =>
    rw [forall_mem_cons] at hstep
    rw [stateT_mapM_cons, mapM_cons]
    refine (hstep.1 state hgood).bind fun first state _ hgood => ?_
    exact (ih hstep.2 hgood).bind fun rest state _ hgood => .ok hgood

theorem bind_fst {computed : Except ε (β × σ)} {plain : Except ε β}
    (hmirrors : Mirrors good computed plain) : (computed >>= fun result => .ok result.1) = plain := by
  cases hmirrors <;> rfl

end Mirrors

end Mirrors

namespace Graph

variable {α : Type} [Scalar α] {g : Graph α} {run : Runner α} {bindings : Bindings α} {bound : Nat}
  {node : NodeId} {stored : Stored α} {rank : NodeId → Nat}

/-- What evaluating a node comes to when no value is remembered. -/
def outcomeWithin (run : Runner α) (g : Graph α) (bindings : Bindings α) :
    (bound : Nat) → NodeId → Outcome EvalError (Tensor α)
  | 0, _ => .fault .endless
  | bound + 1, node =>
    match g.find? node with
    | none => .fault .missingNode
    | some stored =>
      match stored.op with
      | .parameter name _ =>
        match bindings.find? name with
        | some value => .ok value
        | none => .refuse (.missingParameter name)
      | op => do
        let args ← stored.inputs.mapM (outcomeWithin run g bindings bound)
        op.apply args (stored.modules.map (callableBy run))

theorem outcomeWithin_parameter {name : String} {shape : Shape} (hfound : g.find? node = some stored)
    (hop : stored.op = .parameter name shape) :
    outcomeWithin run g bindings (bound + 1) node =
      match bindings.find? name with
      | some value => .ok value
      | none => .refuse (.missingParameter name) := by
  simp only [outcomeWithin, hfound, hop]

theorem outcomeWithin_apply (hfound : g.find? node = some stored)
    (hop : stored.op.isParameter = false) :
    outcomeWithin run g bindings (bound + 1) node =
      stored.inputs.mapM (outcomeWithin run g bindings bound) >>= fun args =>
        stored.op.apply args (stored.modules.map (callableBy run)) := by
  simp only [outcomeWithin, hfound]
  split
  · next hparameter => rw [hparameter] at hop; cases hop
  · rfl

/-- All bounds above the rank of a node come to the same end. -/
theorem Ranks.outcomeWithin_eq (hranks : g.Ranks rank) {bound' : Nat} (hbound : rank node < bound)
    (hbound' : rank node < bound') :
    outcomeWithin run g bindings bound node = outcomeWithin run g bindings bound' node := by
  induction bound generalizing node bound' with
  | zero => exact absurd hbound (Nat.not_lt_zero _)
  | succ bound ih =>
    obtain ⟨bound', rfl⟩ : ∃ inner, bound' = inner + 1 := ⟨bound' - 1, by omega⟩
    cases hfound : g.find? node with
    | none => simp only [outcomeWithin, hfound]
    | some stored =>
      rcases isParameter_cases stored.op with ⟨name, shape, hop⟩ | hop
      · rw [outcomeWithin_parameter hfound hop, outcomeWithin_parameter hfound hop]
      · have hinputs : ∀ input ∈ stored.inputs,
            outcomeWithin run g bindings bound input =
              outcomeWithin run g bindings bound' input := by
          intro input hinput
          rw [← inputs_of_find? hfound] at hinput
          have hlower := hranks.input_lt hinput
          exact ih (by omega) (by omega)
        rw [outcomeWithin_apply hfound hop, outcomeWithin_apply hfound hop,
          mapM_congr_mem hinputs]

/-- Only what nodes come to is remembered. -/
def Remembers (run : Runner α) (g : Graph α) (bindings : Bindings α) (memo : Memo α) : Prop :=
  ∀ entry ∈ memo, outcomeWithin run g bindings (g.size + 1) entry.1 = .ok entry.2

theorem Remembers.cons {memo : Memo α} (hmemo : Remembers run g bindings memo) {t : Tensor α}
    (hvalue : outcomeWithin run g bindings (g.size + 1) node = .ok t) :
    Remembers run g bindings ((node, t) :: memo) :=
  forall_mem_cons.2 ⟨hvalue, hmemo⟩

/-- The evaluator comes to the same end as without a memory, whatever it remembers. -/
theorem Ranks.valueWithin_mirrors (hranks : g.Ranks rank)
    (hreads : ∀ {node input}, input ∈ g.inputs node → input ∈ g.order) (hnode : node ∈ g.order)
    (hbound : rank node < bound) {memo : Memo α} (hmemo : Remembers run g bindings memo) :
    Mirrors (Remembers run g bindings) (valueWithin run g bindings bound node memo)
      (outcomeWithin run g bindings (g.size + 1) node) := by
  induction bound generalizing node memo with
  | zero => exact absurd hbound (Nat.not_lt_zero _)
  | succ bound ih =>
    obtain ⟨stored, hfound⟩ := exists_find?_of_mem_order hnode
    cases hlookup : memo.lookup node with
    | some t =>
      rw [valueWithin_of_lookup hlookup, hmemo _ (mem_of_lookup hlookup)]
      exact .ok hmemo
    | none =>
      rcases isParameter_cases stored.op with ⟨name, shape, hop⟩ | hop
      · have houtcome := @outcomeWithin_parameter _ _ _ run bindings g.size _ _ _ _ hfound hop
        rw [valueWithin_parameter hlookup hfound hop, houtcome]
        cases hname : bindings.find? name with
        | none => exact .error _
        | some t =>
          rw [hname] at houtcome
          exact .ok (hmemo.cons houtcome)
      · have hinputs : ∀ input ∈ stored.inputs, input ∈ g.order ∧ rank input < rank node := by
          intro input hinput
          rw [← inputs_of_find? hfound] at hinput
          exact ⟨hreads hinput, hranks.input_lt hinput⟩
        have hsize := hranks.lt_size node hnode
        have houtcome : outcomeWithin run g bindings (g.size + 1) node =
            stored.inputs.mapM (outcomeWithin run g bindings (g.size + 1)) >>= fun args =>
              stored.op.apply args (stored.modules.map (callableBy run)) := by
          have hsame : ∀ input ∈ stored.inputs, outcomeWithin run g bindings g.size input =
              outcomeWithin run g bindings (g.size + 1) input := by
            intro input hinput
            obtain ⟨-, hlower⟩ := hinputs input hinput
            exact hranks.outcomeWithin_eq (by omega) (by omega)
          rw [outcomeWithin_apply hfound hop, mapM_congr_mem hsame]
        have hargs : Mirrors (Remembers run g bindings)
            (stored.inputs.mapM (valueWithin run g bindings bound) memo)
            (stored.inputs.mapM (outcomeWithin run g bindings (g.size + 1))) := by
          refine .mapM (fun input hinput memo hmemo => ?_) hmemo
          obtain ⟨hlive, hlower⟩ := hinputs input hinput
          exact ih hlive (by omega) hmemo
        rw [valueWithin_apply hlookup hfound hop, houtcome]
        refine hargs.bind fun args memo hargs hmemo => .of_plain fun t happly => ?_
        rw [hargs, ok_bind, happly] at houtcome
        exact hmemo.cons houtcome

/-- Evaluating several nodes is evaluating each of them. -/
theorem Ranks.valuesWith_eq_mapM (hranks : g.Ranks rank)
    (hreads : ∀ {node input}, input ∈ g.inputs node → input ∈ g.order) {nodes : List NodeId}
    (hnodes : ∀ node ∈ nodes, node ∈ g.order) :
    g.valuesWith run bindings nodes =
      nodes.mapM (outcomeWithin run g bindings (g.size + 1)) := by
  have hstart : Remembers run g bindings [] := fun entry hentry => nomatch hentry
  rw [valuesWith_eq_bind]
  refine (Mirrors.mapM (fun node hnode memo hmemo => ?_) hstart).bind_fst
  have hrank := hranks.lt_size node (hnodes node hnode)
  exact hranks.valueWithin_mirrors hreads (hnodes node hnode) (by omega) hmemo

/-- The runner of the modules is the one that single nodes are evaluated with. -/
theorem value_eq_valueWithin (g : Graph α) (bindings : Bindings α) (node : NodeId) :
    g.value bindings node =
      valueWithin g.moduleRunner g bindings (g.size + 1) node [] >>= fun result => .ok result.1 := by
  have hmodules : ∀ node stored, g.find? node = some stored →
      stored.modules.map (callableBy (runWithin g.depth)) =
        stored.modules.map (callableBy g.moduleRunner) := by
    intro node stored hfound
    rw [map_callableBy_depth hfound, map_callableBy_moduleRunner hfound]
  rw [← valueWithin_congr hmodules]
  rfl

theorem Ranks.value_eq_outcomeWithin (hranks : g.Ranks rank)
    (hreads : ∀ {node input}, input ∈ g.inputs node → input ∈ g.order) (hnode : node ∈ g.order) :
    g.value bindings node = outcomeWithin g.moduleRunner g bindings (g.size + 1) node := by
  have hrank := hranks.lt_size node hnode
  have hstart : Remembers g.moduleRunner g bindings [] := fun entry hentry => nomatch hentry
  rw [value_eq_valueWithin]
  exact (hranks.valueWithin_mirrors hreads hnode (by omega) hstart).bind_fst

/-! ## Bindings do not matter -/

theorem SelfContained.outcomeWithin_eq (hown : g.SelfContained node) (bindings' : Bindings α) :
    outcomeWithin run g bindings bound node = outcomeWithin run g bindings' bound node := by
  induction bound generalizing node with
  | zero => rfl
  | succ bound ih =>
    cases hfound : g.find? node with
    | none => simp only [outcomeWithin, hfound]
    | some stored =>
      have hinputs : ∀ input ∈ stored.inputs, outcomeWithin run g bindings bound input =
          outcomeWithin run g bindings' bound input := by
        intro input hinput
        rw [← inputs_of_find? hfound] at hinput
        exact ih (hown.of_mem_inputs hinput)
      have hop := (hown node stored .refl hfound).1
      rw [outcomeWithin_apply hfound hop, outcomeWithin_apply hfound hop, mapM_congr_mem hinputs]

end Graph

/-! ## What is refused -/

/-- An operator refuses its operands. The other refusals are for want of a value. -/
def EvalError.blamesOperands : EvalError → Bool
  | .shape _ | .compute .. => true
  | .missingParameter _ | .notEvaluable _ => false

/-- Operands are the only thing that a computation refuses. -/
def RefusesOperandsOnly {β : Type} (computed : Outcome EvalError β) : Prop :=
  ∀ cause, computed = .refuse cause → cause.blamesOperands = true

namespace RefusesOperandsOnly

variable {β γ : Type}

theorem ok (value : β) : RefusesOperandsOnly (.ok value) := nofun

theorem fault (cause : Fault) : RefusesOperandsOnly (.fault cause : Outcome EvalError β) := nofun

theorem flawed (op : String) (flaw : ValueFlaw) :
    RefusesOperandsOnly (Evaluation.flawed op flaw : Outcome EvalError β) := by
  intro cause hrefused
  cases hrefused
  rfl

theorem checked (computed : Checked β) :
    RefusesOperandsOnly (liftM computed : Outcome EvalError β) := by
  cases computed with
  | ok value => exact .ok value
  | error cause => exact .fault cause

theorem shape (computed : Outcome ShapeError β) :
    RefusesOperandsOnly (liftM computed : Outcome EvalError β) := by
  rcases computed with (cause | cause) | value
  · exact .fault cause
  · intro wide hrefused
    cases hrefused
    rfl
  · exact .ok value

theorem bind {first : Outcome EvalError β} {next : β → Outcome EvalError γ}
    (hfirst : RefusesOperandsOnly first) (hnext : ∀ value, RefusesOperandsOnly (next value)) :
    RefusesOperandsOnly (first >>= next) := by
  intro cause hrefused
  cases first with
  | ok value => exact hnext value cause hrefused
  | error stop => cases hrefused; exact hfirst cause rfl

theorem mapM {compute : β → Outcome EvalError γ} {items : List β}
    (hall : ∀ item ∈ items, RefusesOperandsOnly (compute item)) :
    RefusesOperandsOnly (items.mapM compute) := by
  induction items with
  | nil => exact .ok []
  | cons item items ih =>
    rw [forall_mem_cons] at hall
    rw [mapM_cons]
    exact .bind hall.1 fun _ => .bind (ih hall.2) fun _ => .ok _

end RefusesOperandsOnly

namespace Operator

variable {α : Type} [Scalar α] {op : Operator α}

open RefusesOperandsOnly in
/-- An operator that has a value and no modules never wants for one. -/
theorem evaluate_refusesOperandsOnly (hparameter : op.isParameter = false)
    (hreturns : op.isReturns = false) (out : Shape) (inputs : List (Tensor α)) :
    RefusesOperandsOnly (op.evaluate out inputs []) := by
  cases op with
  | parameter name shape => cases hparameter
  | returns => cases hreturns
  | literal value => exact .ok value
  | identity => exact checked _
  | contiguous | unary fn | reduceSum axes | transpose order | squeeze axes | unsqueeze axes
  | broadcast lens => exact .bind (checked _) fun _ => checked _
  | binary fn | dot | reshape lens =>
    exact .bind (checked _) fun _ => .bind (checked _) fun _ => checked _
  | slice axes starts ends =>
    exact .bind (checked _) fun _ => .bind (shape _) fun _ => .bind (checked _) fun _ => checked _
  | gather axis =>
    refine .bind (checked _) fun _ => .bind (checked _) fun _ => .bind (shape _) fun _ =>
      .bind (checked _) fun _ => .bind (checked _) fun value => .bind (checked _) fun last? => ?_
    cases last? with
    | some position => exact flawed _ _
    | none => exact .ok value
  | concat axis => exact .bind (shape _) fun _ => checked _
  | pointwise => exact fault .outOfBounds
  | fusedConcat axis => exact flawed _ _
  | scan iterations scanInputs stateVars =>
    intro cause hrefused
    cases hrefused
    rfl
  | tupleElem index =>
    refine .bind (checked _) fun a => ?_
    unfold Evaluation.tupleElemValue
    split
    · exact .ok _
    · exact flawed _ _

theorem apply_refusesOperandsOnly (hparameter : op.isParameter = false)
    (hreturns : op.isReturns = false) (inputs : List (Tensor α)) :
    RefusesOperandsOnly (op.apply inputs []) :=
  .bind (.shape _) fun out => evaluate_refusesOperandsOnly hparameter hreturns out inputs

end Operator

namespace Graph

variable {α : Type} [Scalar α] {g : Graph α} {run : Runner α} {bindings : Bindings α} {bound : Nat}
  {node : NodeId}

/-- Where no modules are run, what has a value of its own never wants for one. -/
theorem SelfContained.outcomeWithin_refusesOperandsOnly (hown : g.SelfContained node)
    (hplain : ∀ other stored, Feeds g other node → g.find? other = some stored →
      stored.modules = []) :
    RefusesOperandsOnly (outcomeWithin run g bindings bound node) := by
  induction bound generalizing node with
  | zero => exact .fault _
  | succ bound ih =>
    cases hfound : g.find? node with
    | none =>
      simp only [outcomeWithin, hfound]
      exact .fault _
    | some stored =>
      obtain ⟨hparameter, hreturns⟩ := hown node stored .refl hfound
      rw [outcomeWithin_apply hfound hparameter, hplain node stored .refl hfound]
      refine .bind (.mapM fun input hinput => ?_) fun args =>
        Operator.apply_refusesOperandsOnly hparameter hreturns args
      rw [← inputs_of_find? hfound] at hinput
      exact ih (hown.of_mem_inputs hinput) fun other stored hfeeds hother =>
        hplain other stored (hfeeds.tail hinput) hother

/-- A literal is added to itself, and the sum to a parameter. -/
def sharedSummand : Graph Float32 :=
  ⟨"",
    [(1, ⟨.literal (.strided .float32 [⟨1, 1⟩] #[0]), .strided .float32 [⟨1, 1⟩], [], []⟩),
     (0, ⟨.parameter "a" (.strided .float32 [⟨1, 1⟩]), .strided .float32 [⟨1, 1⟩], [], []⟩),
     (2, ⟨.binary .add, .strided .float32 [⟨1, 1⟩], [1, 1], []⟩),
     (3, ⟨.binary .add, .strided .float32 [⟨1, 1⟩], [2, 0], []⟩)],
    [], 4⟩

end Graph

end TensorGraph
