import TensorGraph.Proofs.Einsum.Validation

/-!
# The implied output

An equation without an arrow and the one with its implied output resolve to the same columns or are
refused for the same reason.
-/

namespace TensorGraph.Einsum

section Written

variable {equation : Equation} {cs : List Char}

/-- Where no arrow is written no output is given. -/
theorem Equation.Written.output_eq_none (hwritten : Equation.Written equation cs)
    (harrow : ¬ ['-', '>'] <:+: cs) : equation.output = none := by
  induction hwritten with
  | last hterm => rfl
  | @arrow term output piece final hterm houtput =>
    exact absurd ⟨piece, final, by simp⟩ harrow
  | @comma term equation piece rest hterm hrest ih =>
    apply ih
    rintro ⟨before, after, rfl⟩
    exact harrow ⟨piece ++ ',' :: before, after, by simp⟩

/-- An output can be given behind what is written without one. -/
theorem Equation.Written.append_arrow (hwritten : Equation.Written equation cs)
    (hnone : equation.output = none) {output : Term} {final : List Char}
    (houtput : Term.Written output final) :
    Equation.Written ⟨equation.inputs, some output⟩ (cs ++ '-' :: '>' :: final) := by
  induction hwritten with
  | last hterm => exact .arrow hterm houtput
  | arrow => cases hnone
  | @comma term equation piece rest hterm hrest ih =>
    rw [List.append_assoc, List.cons_append]
    exact .comma hterm (ih hnone)

end Written

section Implied

variable {equation : Equation}

theorem letter_mem_iff {term : Term} {c : Char} : .letter c ∈ term ↔ c ∈ term.letters := by
  rw [Term.letters, List.mem_filterMap]
  constructor
  · intro hmem
    exact ⟨.letter c, hmem, rfl⟩
  · rintro ⟨label, hmem, heq⟩
    cases label with
    | letter d => exact Option.some.inj heq ▸ hmem
    | ellipsis => cases heq

/-- The implied output has letters of operands, so it can be written if they can. -/
theorem Equation.writable_outputTerm (hnone : equation.output = none)
    (hinputs : ∀ term ∈ equation.inputs, Term.Writable term) :
    Term.Writable equation.outputTerm := by
  have hadmits := admits_outputTerm hnone
  refine ⟨fun label hlabel => ?_, hadmits.one⟩
  cases label with
  | ellipsis => trivial
  | letter c =>
    have hc := hadmits.subset (letter_mem_iff.1 hlabel)
    obtain ⟨term, hterm, hc⟩ := List.mem_flatMap.1 hc
    exact (hinputs term hterm).plain _ (letter_mem_iff.2 hc)

theorem Equation.hasEllipsis_outputTerm (hnone : equation.output = none) :
    equation.outputTerm.hasEllipsis = equation.hasEllipsis := by
  apply Bool.eq_iff_iff.2
  refine ⟨(admits_outputTerm hnone).ellipsis, fun hhas => ?_⟩
  rw [Equation.outputTerm, hnone, Term.hasEllipsis_iff]
  simp [hhas]

/-- Resolving does not tell an output that is given from the same output that is implied. -/
theorem Equation.resolve_outputTerm (hnone : equation.output = none)
    (hlabels : equation.outputTerm ≠ []) (shapes : List Shape) :
    Equation.resolve ⟨equation.inputs, some equation.outputTerm⟩ shapes = equation.resolve shapes := by
  have hgiven : Equation.outputTerm ⟨equation.inputs, some equation.outputTerm⟩ =
    equation.outputTerm := rfl
  unfold Equation.resolve
  rw [hgiven, hnone]
  dsimp only [Option.isSome_some, Option.isSome_none]
  by_cases hlength : equation.inputs.length = shapes.length
  · rw [if_neg (not_not.2 hlength), if_neg (not_not.2 hlength)]
    cases shapes.findIdx? fun s => s.isDynamic || s.isTuple with
    | some input => rfl
    | none =>
      refine bind_congr_of_ok fun covered hterms => ?_
      have hadmits := admits_outputTerm hnone
      have hpasses : checkOutput ⟨equation.inputs, some equation.outputTerm⟩ covered.isSome
          equation.outputTerm = .ok () := by
        rw [checkOutput_eq_ok_iff, (checkTerms_eq_ok_iff.1 hterms).2.2, any_zip_hasEllipsis hlength]
        exact ⟨hlabels, hadmits.nodup, hadmits.subset, Equation.hasEllipsis_outputTerm hnone⟩
      rw [if_pos rfl, if_neg Bool.false_ne_true, hpasses, ok_bind]
      rfl
  · rw [if_pos hlength, if_pos hlength]
    rfl

/-- Lowering a text that was read depends on it only by what its equation resolves to. -/
theorem lower_of_parse {α : Type} [Scalar α] {text : String}
    (hparsed : Equation.parse text = .ok equation) (args : List NodeId) :
    (lower text args : Change EinsumError α NodeId) = (do
      let shapes ← (← get).shapes args
      let columns ← Outcome.ofExcept id (equation.resolve shapes)
      (Emit.commit (emitColumns columns args)).widen .graph) := by
  unfold lower
  rw [hparsed]
  rfl

end Implied

/-- A text without an arrow that is read as an equation can be continued by an arrow and the implied
output, unless that has no labels. The longer text is read as well and has the same operands and the same
output. For all shapes it resolves to the same columns or is refused for the same reason, and it lowers to
the same instructions in every graph. -/
theorem Equation.parse_with_implied_output {text : String} {equation : Equation}
    (harrow : ¬ ['-', '>'] <:+: text.toList) (hparsed : Equation.parse text = .ok equation)
    (hlabels : equation.outputTerm ≠ []) :
    ∃ given, Equation.parse (text ++ "->" ++ Term.text equation.outputTerm) = .ok given ∧
      given.inputs = equation.inputs ∧ given.outputTerm = equation.outputTerm ∧
      (∀ shapes, given.resolve shapes = equation.resolve shapes) ∧
      ∀ {α : Type} [Scalar α] (args : List NodeId),
        (lower (text ++ "->" ++ Term.text equation.outputTerm) args : Change EinsumError α NodeId) =
          lower text args := by
  have hwritten := Equation.parse_eq_ok_iff_written.1 hparsed
  have hnone := hwritten.output_eq_none harrow
  have houtput := (Equation.writable_outputTerm hnone hwritten.writable.1).written
  have hgiven : Equation.parse (text ++ "->" ++ Term.text equation.outputTerm) =
      .ok ⟨equation.inputs, some equation.outputTerm⟩ := by
    apply Equation.parse_eq_ok_iff_written.2
    rw [String.toList_append, String.toList_append, List.append_assoc]
    exact hwritten.append_arrow hnone houtput
  have hresolve := Equation.resolve_outputTerm hnone hlabels
  refine ⟨_, hgiven, rfl, rfl, hresolve, fun args => ?_⟩
  rw [lower_of_parse hgiven, lower_of_parse hparsed]
  simp only [hresolve]

/-- Here the last term is closed by a blank, and the arrow comes after it. -/
theorem Equation.parse_with_implied_output_closed :
    ∃ given, Equation.parse "...ab, b ->...a" = .ok given ∧
      given.outputTerm = [.ellipsis, .letter 'a'] ∧
      given.resolve [.strided .float32 [⟨5, 6⟩, ⟨2, 3⟩, ⟨3, 1⟩], .strided .float32 [⟨3, 1⟩]] =
        .ok ⟨3, [[2, 0, 1], [1]], [2, 0]⟩ := by
  have harrow : ¬ ['-', '>'] <:+: "...ab, b ".toList := by decide
  have hparsed : Equation.parse "...ab, b " =
      .ok ⟨[[.ellipsis, .letter 'a', .letter 'b'], [.letter 'b']], none⟩ := by decide +kernel
  obtain ⟨given, hgiven, -, houtput, hresolve, -⟩ :=
    Equation.parse_with_implied_output harrow hparsed (by decide)
  refine ⟨given, hgiven, houtput, ?_⟩
  rw [hresolve]
  rfl

end TensorGraph.Einsum
