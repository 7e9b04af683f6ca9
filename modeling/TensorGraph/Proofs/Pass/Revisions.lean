import TensorGraph.Proofs.Graph.History

/-!
# Revisions

A question leaves the graph alone and gives the same answer whatever the log says; a revision rests on a
graph if it comes to an end there without changing it.
-/

namespace TensorGraph.Revision

variable {α β γ : Type} {w final : Workspace α}

variable {computed : Checked β} {value : β} {first : Revision α β} {handle : Fault → Revision α β}

/-- A checked computation leaves the graph and the log alone. -/
theorem lift_eq_ok_iff :
    (liftM computed : Revision α β) w = .ok value final ↔ computed = .ok value ∧ w = final := by
  change Revision.ofChecked computed w = .ok value final ↔ _
  cases computed <;> simp [Revision.ofChecked]

theorem graph_bind_eq_ok_iff {next : Graph α → Revision α β} :
    (Revision.graph >>= next) w = .ok value final ↔ next w.graph w = .ok value final := Iff.rfl

theorem lift_bind_eq_ok_iff {next : β → Revision α γ} {result : γ} :
    (liftM computed >>= next : Revision α γ) w = .ok result final ↔
      ∃ value, computed = .ok value ∧ next value w = .ok result final := by
  rw [stateBind_eq_ok_iff]
  constructor
  · rintro ⟨value, middle, hlifted, hrun⟩
    obtain ⟨hvalue, rfl⟩ := lift_eq_ok_iff.1 hlifted
    exact ⟨value, hvalue, hrun⟩
  · rintro ⟨value, hvalue, hrun⟩
    exact ⟨value, w, lift_eq_ok_iff.2 ⟨hvalue, rfl⟩, hrun⟩

theorem lift_bind_of_eq_ok {next : β → Revision α γ} (hcomputed : computed = .ok value) :
    (liftM computed >>= next : Revision α γ) w = next value w := by
  rw [hcomputed]
  rfl

/-- A value that was not caught, or one that comes from the handler. -/
theorem tryCatch_eq_ok (hrun : tryCatch first handle w = .ok value final) :
    first w = .ok value final ∨
      ∃ cause middle, first w = .error cause middle ∧ handle cause middle = .ok value final := by
  change EStateM.tryCatch first handle w = _ at hrun
  unfold EStateM.tryCatch at hrun
  cases hfirst : first w with
  | ok value' middle =>
    rw [hfirst] at hrun
    exact .inl hrun
  | error cause middle =>
    rw [hfirst] at hrun
    exact .inr ⟨cause, middle, rfl, hrun⟩

/-- An edit that is tried is carried out or refused. -/
theorem attempt_eq_ok {edit : Edit α β} {outcome : Except GraphError β}
    (hrun : attempt edit w = .ok outcome final) :
    (∃ value, outcome = .ok value ∧ edit w.graph = .ok value final.graph) ∨
      ∃ cause, outcome = .error cause ∧ edit w.graph = .error (.refusal cause) final.graph := by
  unfold attempt at hrun
  cases hedit : edit w.graph with
  | ok value g =>
    rw [hedit] at hrun
    cases hrun
    exact .inl ⟨value, rfl, rfl⟩
  | error stop g =>
    rw [hedit] at hrun
    cases stop with
    | fault cause => cases hrun
    | refusal cause =>
      cases hrun
      exact .inr ⟨cause, rfl, rfl⟩

theorem removeUnused_eq_ok {node : NodeId} {removed : Nat}
    (hrun : Revision.removeUnused node w = .ok removed final) :
    final.graph = (w.graph.removeUnused node).1 := by
  rw [Revision.removeUnused, graph_bind_eq_ok_iff] at hrun
  obtain ⟨_, _, hset, hrun⟩ := stateBind_eq_ok_iff.1 hrun
  cases hrun
  cases hset
  rfl

/-- A revision that only asks: it leaves the graph alone, and what it gives depends on the graph. -/
def Question (revision : Revision α β) : Prop :=
  ∃ answer : Graph α → Checked β, ∀ w,
    (∃ value final, revision w = .ok value final ∧ final.graph = w.graph ∧
      answer w.graph = .ok value) ∨
    ∃ cause final, revision w = .error cause final ∧ final.graph = w.graph ∧
      answer w.graph = .error cause

namespace Question

theorem graph_eq {revision : Revision α β} (hquestion : Question revision) {value : β}
    (hrun : revision w = .ok value final) : final.graph = w.graph := by
  obtain ⟨answer, hanswer⟩ := hquestion
  rcases hanswer w with ⟨_, _, hrun', hgraph, -⟩ | ⟨_, _, hrun', -, -⟩ <;> cases hrun.symm.trans hrun'
  exact hgraph

variable {first : Revision α β} {next : β → Revision α γ} {check : β → Revision α Bool}

/-- What follows a question is run on the same graph. -/
theorem bind_eq_ok (hquestion : Question first) {result : γ}
    (hrun : (first >>= next) w = .ok result final) :
    ∃ value middle, middle.graph = w.graph ∧ next value middle = .ok result final := by
  obtain ⟨value, middle, hfirst, hrun⟩ := stateBind_eq_ok_iff.1 hrun
  exact ⟨value, middle, hquestion.graph_eq hfirst, hrun⟩

theorem pure (value : β) : Question (Pure.pure value : Revision α β) :=
  ⟨fun _ => .ok value, fun w => .inl ⟨value, w, rfl, rfl, rfl⟩⟩

theorem lift (computed : Checked β) : Question (liftM computed : Revision α β) := by
  refine ⟨fun _ => computed, fun w => ?_⟩
  cases computed with
  | ok value => exact .inl ⟨value, w, rfl, rfl, rfl⟩
  | error cause => exact .inr ⟨cause, w, rfl, rfl, rfl⟩

theorem graph : Question (Revision.graph : Revision α (Graph α)) :=
  ⟨.ok, fun w => .inl ⟨w.graph, w, rfl, rfl, rfl⟩⟩

theorem log (level : LogLevel) (message : String) :
    Question (Revision.log level message : Revision α Unit) :=
  ⟨fun _ => .ok (), fun _ => .inl ⟨(), _, rfl, rfl, rfl⟩⟩

theorem bind (hfirst : Question first) (hnext : ∀ value, Question (next value)) :
    Question (first >>= next) := by
  obtain ⟨ask, hask⟩ := hfirst
  choose ask' hask' using hnext
  refine ⟨fun g => ask g >>= fun value => ask' value g, fun w => ?_⟩
  change (∃ value final, EStateM.bind first next w = .ok value final ∧ _) ∨
    ∃ cause final, EStateM.bind first next w = .error cause final ∧ _
  unfold EStateM.bind
  dsimp only
  rcases hask w with ⟨value, middle, hrun, hgraph, hanswer⟩ | ⟨cause, middle, hrun, hgraph, hanswer⟩ <;>
    rw [hrun, hanswer]
  · have hthen := hask' value middle
    rw [hgraph] at hthen
    exact hthen
  · exact .inr ⟨cause, middle, rfl, hgraph, rfl⟩

theorem ite {condition : Prop} [Decidable condition] {second : Revision α β}
    (hfirst : Question first) (hsecond : Question second) :
    Question (if condition then first else second) := by
  split_ifs
  · exact hfirst
  · exact hsecond

theorem tryCatch {handle : Fault → Revision α β} (hfirst : Question first)
    (hhandle : ∀ cause, Question (handle cause)) : Question (tryCatch first handle) := by
  obtain ⟨ask, hask⟩ := hfirst
  choose ask' hask' using hhandle
  refine ⟨fun g => MonadExcept.tryCatch (ask g) fun cause => ask' cause g, fun w => ?_⟩
  change (∃ value final, EStateM.tryCatch first handle w = .ok value final ∧ _) ∨
    ∃ cause final, EStateM.tryCatch first handle w = .error cause final ∧ _
  unfold EStateM.tryCatch
  dsimp only
  rcases hask w with ⟨value, middle, hrun, hgraph, hanswer⟩ | ⟨cause, middle, hrun, hgraph, hanswer⟩ <;>
    rw [hrun, hanswer]
  · exact .inl ⟨value, middle, rfl, hgraph, rfl⟩
  · have hthen := hask' cause middle
    rw [hgraph] at hthen
    exact hthen

theorem allM (hcheck : ∀ item, Question (check item)) (items : List β) :
    Question (items.allM check) := by
  induction items with
  | nil => exact .pure true
  | cons item items ih =>
    refine .bind (hcheck item) fun passed => ?_
    cases passed
    · exact .pure false
    · exact ih

theorem lineOf [Scalar α] (node : NodeId) : Question (Revision.lineOf node : Revision α String) :=
  .bind .graph fun _ => .bind (.lift _) fun _ => .pure _

/-- A check that passes for all items passes for each, on the same graph. -/
theorem exists_of_allM (hcheck : ∀ item, Question (check item)) {items : List β}
    (hrun : items.allM check w = .ok true final) :
    ∀ item ∈ items, ∃ w' final', w'.graph = w.graph ∧ check item w' = .ok true final' := by
  induction items generalizing w with
  | nil => simp
  | cons item items ih =>
    obtain ⟨passed, middle, hfirst, hrest⟩ := stateBind_eq_ok_iff.1 hrun
    cases passed with
    | false => cases hrest
    | true =>
      rw [List.forall_mem_cons]
      refine ⟨⟨w, middle, rfl, hfirst⟩, fun other hmem => ?_⟩
      obtain ⟨w', final', hgraph, hother⟩ := ih hrest other hmem
      exact ⟨w', final', hgraph.trans ((hcheck item).graph_eq hfirst), hother⟩

end Question

/-- An edit that is tried, with a warning if it is refused. -/
theorem reported_eq_ok {edit : Edit α Unit} {text : GraphError → String} {made refused result : β}
    (hrun : (do
      match ← attempt edit with
      | .ok _ => return made
      | .error cause =>
        warn (text cause)
        return refused : Revision α β) w = .ok result final) :
    (result = made ∧ edit w.graph = .ok () final.graph) ∨
      (result = refused ∧ ∃ cause, edit w.graph = .error (.refusal cause) final.graph) := by
  obtain ⟨outcome, after, hattempt, hrun⟩ := stateBind_eq_ok_iff.1 hrun
  rcases attempt_eq_ok hattempt with ⟨_, rfl, hedit⟩ | ⟨cause, rfl, hedit⟩
  · cases hrun
    exact .inl ⟨rfl, hedit⟩
  · obtain ⟨_, _, hlogged, hrun⟩ := (Question.log _ _).bind_eq_ok hrun
    cases hrun
    exact .inr ⟨rfl, cause, hlogged ▸ hedit⟩

/-- Run on this graph, a revision gives a value with a property and leaves the graph alone. -/
def Rests (g : Graph α) (revision : Revision α β) (property : β → Prop) : Prop :=
  ∀ ⦃w : Workspace α⦄, w.graph = g →
    ∃ value final, revision w = .ok value final ∧ final.graph = g ∧ property value

namespace Rests

variable {g : Graph α} {property : β → Prop}

variable {value : β}

theorem pure (hvalue : property value) :
    Rests g (Pure.pure value : Revision α β) property :=
  fun w hgraph => ⟨value, w, rfl, hgraph, hvalue⟩

theorem bind {first : Revision α γ} {next : γ → Revision α β} {middle : γ → Prop}
    (hfirst : Rests g first middle) (hnext : ∀ value, middle value → Rests g (next value) property) :
    Rests g (first >>= next) property := by
  intro w hgraph
  obtain ⟨value, w', hrun, hgraph', hvalue⟩ := hfirst hgraph
  obtain ⟨result, final, hrun', hfinal, hresult⟩ := hnext value hvalue hgraph'
  exact ⟨result, final, stateBind_eq_ok_iff.2 ⟨value, w', hrun, hrun'⟩, hfinal, hresult⟩

theorem graph_bind {next : Graph α → Revision α β} (hnext : Rests g (next g) property) :
    Rests g (Revision.graph >>= next) property := by
  rintro w rfl
  exact hnext rfl

theorem lift_bind {computed : Checked γ} {value : γ} {next : γ → Revision α β}
    (hcomputed : computed = .ok value) (hnext : Rests g (next value) property) :
    Rests g (liftM computed >>= next) property := by
  subst hcomputed
  exact hnext

theorem log_bind {level : LogLevel} {message : String} {next : Unit → Revision α β}
    (hnext : Rests g (next ()) property) : Rests g (Revision.log level message >>= next) property :=
  fun w hgraph => hnext (w := { w with log := w.log ++ [⟨level, message⟩] }) hgraph

theorem foldlM {step : β → γ → Revision α β} {items : List γ}
    (hstep : ∀ item ∈ items, ∀ value, property value → Rests g (step value item) property)
    (hvalue : property value) : Rests g (items.foldlM step value) property := by
  induction items generalizing value with
  | nil => exact pure hvalue
  | cons item items ih =>
    rw [List.forall_mem_cons] at hstep
    rw [List.foldlM_cons]
    exact bind (hstep.1 value hvalue) fun next hnext => ih hstep.2 hnext

end Rests

/-- A question whose faults are caught always gives an answer. -/
theorem Question.rests_tryCatch {g : Graph α} (hquestion : Question first)
    (hhandle : ∀ cause, Rests g (handle cause) fun _ => True) :
    Rests g (MonadExcept.tryCatch first handle) fun _ => True := by
  obtain ⟨answer, hanswer⟩ := hquestion
  rintro w rfl
  change ∃ value final, EStateM.tryCatch first handle w = .ok value final ∧ _
  unfold EStateM.tryCatch
  rcases hanswer w with ⟨value, final, hrun, hgraph, -⟩ | ⟨cause, middle, hrun, hgraph, -⟩ <;> rw [hrun]
  · exact ⟨value, final, rfl, hgraph, trivial⟩
  · exact hhandle cause hgraph

end TensorGraph.Revision
