import TensorGraph.Proofs.Einsum.Grammar

/-!
# What an equation asks of its operands

Resolving goes over the operands one by one. `Equation.Valid` says in one piece, and without an order,
what this accepts.
-/

namespace TensorGraph.Einsum

open List

/-! ## The condition -/

/-- The axes of an operand, each with its label and length. -/
def operandAxes (places : Nat) (operand : Term × Shape) : List (AxisLabel × Nat) :=
  (axisLabels places operand.1).zip operand.2.lens

/-- What an equation asks of the shapes of its operands, where its ellipses cover so many axes. -/
structure Equation.Valid (equation : Equation) (shapes : List Shape) (places : Nat) : Prop where
  /-- There is a term for every operand. -/
  count : equation.inputs.length = shapes.length
  /-- Operands have known lengths and are no tuples. -/
  strided : ∀ s ∈ shapes, s.isDynamic = false ∧ s.isTuple = false
  /-- A term without an ellipsis has a letter for every axis. -/
  named : ∀ operand ∈ equation.inputs.zip shapes, .ellipsis ∉ operand.1 →
    operand.1.letters.length = operand.2.rank
  /-- An ellipsis covers what the letters leave over, which is as much in all terms. -/
  covered : ∀ operand ∈ equation.inputs.zip shapes, .ellipsis ∈ operand.1 →
    operand.1.letters.length + places = operand.2.rank
  /-- No term repeats two different letters. -/
  repeated : ∀ term ∈ equation.inputs, ∀ c d, 1 < term.letters.count c → 1 < term.letters.count d →
    c = d
  /-- A given output has labels, repeats no letter, has letters of operands only, and has an ellipsis
  exactly if an operand has one. -/
  output : ∀ output, equation.output = some output →
    output ≠ [] ∧ output.letters.Nodup ∧ output.letters ⊆ equation.letters ∧
      (.ellipsis ∈ output ↔ ∃ term ∈ equation.inputs, .ellipsis ∈ term)
  /-- Lengths other than one agree wherever a label stands. -/
  joint : ∀ first ∈ equation.inputs.zip shapes, ∀ second ∈ equation.inputs.zip shapes,
    ∀ axis ∈ operandAxes places first, ∀ axis' ∈ operandAxes places second,
      axis.1 = axis'.1 → axis.2 ≠ 1 → axis'.2 ≠ 1 → axis.2 = axis'.2
  /-- Within an operand all lengths agree where a label is repeated. -/
  own : ∀ operand ∈ equation.inputs.zip shapes, ∀ axis ∈ operandAxes places operand,
    ∀ axis' ∈ operandAxes places operand, axis.1 = axis'.1 → axis.2 = axis'.2

theorem Term.hasEllipsis_iff {term : Term} : term.hasEllipsis = true ↔ .ellipsis ∈ term :=
  contains_iff_mem

/-- At most one letter is repeated if any two repeated letters are the same one. -/
theorem length_repeatedLetters_le_one_iff {term : Term} :
    (repeatedLetters term).length ≤ 1 ↔
      ∀ c d, 1 < term.letters.count c → 1 < term.letters.count d → c = d := by
  have hmem : ∀ c, c ∈ repeatedLetters term ↔ 1 < term.letters.count c := by
    intro c
    refine ⟨fun hc => ?_, mem_repeatedLetters⟩
    rw [repeatedLetters, (sorted_perm _ _).mem_iff, mem_filter] at hc
    exact of_decide_eq_true hc.2
  have hnodup : (repeatedLetters term).Nodup :=
    (sorted_perm _ _).nodup_iff.2 ((nodup_eraseDups _).filter _)
  simp only [← hmem]
  generalize repeatedLetters term = letters at hnodup
  rcases letters with _ | ⟨c, _ | ⟨d, letters⟩⟩
  · simp
  · simp
  · have hne : c ≠ d := fun heq => (nodup_cons.1 hnodup).1 (heq ▸ mem_cons_self)
    simp only [length_cons, Nat.reduceLeDiff, false_iff]
    intro hsame
    exact hne (hsame c d (by simp) (by simp))

theorem termFits_iff_of_mem {places rank : Nat} {term : Term} :
    TermFits places term rank ↔
      (.ellipsis ∉ term → term.letters.length = rank) ∧
      (.ellipsis ∈ term → term.letters.length + places = rank) ∧
      ∀ c d, 1 < term.letters.count c → 1 < term.letters.count d → c = d := by
  rw [← Term.hasEllipsis_iff, ← length_repeatedLetters_le_one_iff]
  constructor
  · rintro ⟨hrank, hrepeated⟩
    cases hhas : term.hasEllipsis <;> simp [hhas] at hrank ⊢ <;> omega
  · rintro ⟨hnamed, hcovered, hrepeated⟩
    refine ⟨?_, hrepeated⟩
    cases hhas : term.hasEllipsis <;> simp [hhas] at hnamed hcovered ⊢ <;> omega

/-! ## Columns -/

/-- The column of a label. A letter comes after the letters below it, a place under the ellipsis after all
letters. -/
def Equation.columnFor (equation : Equation) : AxisLabel → Nat
  | .letter c => equation.letters.dedup.countP (· < c)
  | .covered place => equation.letters.dedup.length + place

/-- In ascending order, the letters before a letter are those below it. -/
theorem idxOf_eq_countP {letters : List Char} (hsorted : letters.Pairwise (· < ·)) {c : Char}
    (hc : c ∈ letters) : letters.idxOf c = letters.countP (· < c) := by
  induction letters with
  | nil => cases hc
  | cons first letters ih =>
    obtain ⟨hfirst, hrest⟩ := pairwise_cons.1 hsorted
    by_cases heq : first = c
    · subst heq
      have hnone : letters.countP (· < first) = 0 := by
        rw [countP_eq_zero]
        intro d hd
        simpa using Char.not_lt.1 (Char.lt_asymm (hfirst d hd))
      rw [idxOf_cons_self, countP_cons_of_neg (by simp), hnone]
    · have hc' := (mem_cons.1 hc).resolve_left (Ne.symm heq)
      rw [idxOf_cons_ne _ heq, countP_cons_of_pos (by simpa using hfirst c hc'),
        ih hrest hc']

section Columns

variable {equation : Equation}

theorem Equation.sortedLetters_pairwise (equation : Equation) :
    equation.sortedLetters.Pairwise (· < ·) := by
  have hle : equation.sortedLetters.Pairwise fun a b => decide (a ≤ b) = true := by
    apply sorted_pairwise
    · intro a b
      simpa using Char.le_total a b
    · intro a b c hab hbc
      exact decide_eq_true (Char.le_trans (of_decide_eq_true hab) (of_decide_eq_true hbc))
  apply (hle.and equation.nodup_sortedLetters).imp
  rintro a b ⟨hab, hne⟩
  exact Char.not_le.1 fun hba => hne (Char.le_antisymm (of_decide_eq_true hab) hba)

theorem Equation.sortedLetters_perm (equation : Equation) :
    equation.sortedLetters.Perm equation.letters.dedup := by
  rw [perm_ext_iff_of_nodup equation.nodup_sortedLetters (nodup_dedup _)]
  intro c
  rw [Equation.mem_sortedLetters, mem_dedup]

theorem columnOf_eq_columnFor {label : AxisLabel}
    (hlabel : ∀ c, label = .letter c → c ∈ equation.letters) :
    columnOf equation.sortedLetters label = equation.columnFor label := by
  cases label with
  | letter c =>
    have hc := Equation.mem_sortedLetters.2 (hlabel c rfl)
    rw [columnOf, idxOf_eq_countP equation.sortedLetters_pairwise hc,
      equation.sortedLetters_perm.countP_eq]
    rfl
  | covered place => rw [columnOf, equation.sortedLetters_perm.length_eq]; rfl

theorem map_columnOf {term : Term} (hletters : term.letters ⊆ equation.letters) (places : Nat) :
    (axisLabels places term).map (columnOf equation.sortedLetters) =
      (axisLabels places term).map equation.columnFor := by
  apply map_congr_left
  intro label hlabel
  apply columnOf_eq_columnFor
  rintro c rfl
  exact hletters ((letter_mem_axisLabels _ _ _).1 hlabel)

/-- Letters have columns in ascending order: the letters below one of them are fewer than those below a
later one, as it is itself among the latter. -/
theorem Equation.columnFor_letter_lt_letter {c d : Char} (hc : c ∈ equation.letters) (hlt : c < d) :
    equation.columnFor (.letter c) < equation.columnFor (.letter d) := by
  have hfewer : equation.letters.dedup.countP (· < c) =
      (equation.letters.dedup.filter (· < d)).countP (· < c) := by
    rw [countP_filter]
    apply countP_congr
    intro e _
    simpa using fun hec => Char.lt_trans hec hlt
  have hmem : c ∈ equation.letters.dedup.filter (· < d) :=
    mem_filter.2 ⟨mem_dedup.2 hc, decide_eq_true hlt⟩
  calc equation.letters.dedup.countP (· < c)
      = (equation.letters.dedup.filter (· < d)).countP (· < c) := hfewer
    _ < (equation.letters.dedup.filter (· < d)).length :=
        countP_lt_length_iff.2 ⟨c, hmem, decide_eq_false (Char.lt_irrefl c)⟩
    _ = equation.letters.dedup.countP (· < d) := countP_eq_length_filter.symm

/-- Places under the ellipsis come after all letters. -/
theorem Equation.columnFor_letter_lt_covered {c : Char} (hc : c ∈ equation.letters) (place : Nat) :
    equation.columnFor (.letter c) < equation.columnFor (.covered place) := by
  have hcount : equation.letters.dedup.countP (· < c) < equation.letters.dedup.length :=
    countP_lt_length_iff.2 ⟨c, mem_dedup.2 hc, decide_eq_false (Char.lt_irrefl c)⟩
  exact Nat.lt_add_right place hcount

end Columns

/-! ## Resolving -/

section Resolving

variable {equation : Equation} {shapes : List Shape} {places : Nat} {columns : Columns}

/-- The axes of an operand, with columns in place of labels. -/
theorem mem_zip_expandTerm {letters : List Char} {operand : Term × Shape} {column len : Nat} :
    (column, len) ∈ (expandTerm letters places operand.1).zip operand.2.lens ↔
      ∃ label, (label, len) ∈ operandAxes places operand ∧ columnOf letters label = column := by
  rw [expandTerm_eq, zip_map_left, mem_map, operandAxes]
  constructor
  · rintro ⟨⟨label, len⟩, hmem, heq⟩
    cases heq
    exact ⟨label, hmem, rfl⟩
  · rintro ⟨label, hmem, rfl⟩
    exact ⟨(label, len), hmem, rfl⟩

/-- Labels of operands with one column are the same. -/
theorem eq_of_columnOf {first second : Term × Shape} (hfirst : first ∈ equation.inputs.zip shapes)
    (hsecond : second ∈ equation.inputs.zip shapes) {label label' : AxisLabel} {len len' : Nat}
    (hlabel : (label, len) ∈ operandAxes places first)
    (hlabel' : (label', len') ∈ operandAxes places second)
    (hsame : columnOf equation.sortedLetters label = columnOf equation.sortedLetters label') :
    label = label' := by
  have hlisted {operand : Term × Shape} (hoperand : operand ∈ equation.inputs.zip shapes)
      {label : AxisLabel} {len : Nat} (hlabel : (label, len) ∈ operandAxes places operand) (c : Char)
      (hletter : label = .letter c) : c ∈ equation.sortedLetters := by
    have hmem := (of_mem_zip hlabel).1
    rw [hletter, letter_mem_axisLabels] at hmem
    exact Equation.mem_sortedLetters.2 (letters_subset (of_mem_zip hoperand).1 hmem)
  exact columnOf_injective (hlisted hfirst hlabel) (hlisted hsecond hlabel') hsame

/-- The columns that an equation assigns, where its ellipses cover so many axes. -/
def Equation.assigned (equation : Equation) (places : Nat) : Columns where
  count := equation.letters.dedup.length + places
  inputs := equation.inputs.map fun term => (axisLabels places term).map equation.columnFor
  output := (axisLabels places equation.outputTerm).map equation.columnFor

theorem Equation.hasEllipsis_iff :
    equation.hasEllipsis = true ↔ ∃ term ∈ equation.inputs, .ellipsis ∈ term := by
  simp only [Equation.hasEllipsis, any_eq_true, Term.hasEllipsis_iff]

theorem checkOutput_outputTerm_iff :
    (equation.output.isSome = true →
      checkOutput equation equation.hasEllipsis equation.outputTerm = .ok ()) ↔
    ∀ output, equation.output = some output →
      output ≠ [] ∧ output.letters.Nodup ∧ output.letters ⊆ equation.letters ∧
        (.ellipsis ∈ output ↔ ∃ term ∈ equation.inputs, .ellipsis ∈ term) := by
  cases hgiven : equation.output with
  | none => simp
  | some output =>
    have hterm : equation.outputTerm = output := by rw [Equation.outputTerm, hgiven]
    simp only [hterm, checkOutput_eq_ok_iff, Bool.eq_iff_iff (b := equation.hasEllipsis),
      Term.hasEllipsis_iff, Equation.hasEllipsis_iff, Option.isSome_some, true_imp_iff,
      Option.some.injEq, forall_eq']

/-- Where no term has an ellipsis it does not matter how many axes it would cover. -/
theorem axisLabels_of_not_mem {term : Term} (hnone : .ellipsis ∉ term) (places places' : Nat) :
    axisLabels places term = axisLabels places' term := by
  apply flatMap_congr
  intro label hlabel
  cases label with
  | letter c => rfl
  | ellipsis => exact absurd hlabel hnone

theorem Equation.Valid.of_hasEllipsis_eq_false (hvalid : equation.Valid shapes places)
    (hnone : equation.hasEllipsis = false) (places' : Nat) : equation.Valid shapes places' := by
  have hfree : ∀ operand ∈ equation.inputs.zip shapes, .ellipsis ∉ operand.1 := by
    intro operand hmem hellipsis
    rw [Equation.hasEllipsis_iff.2 ⟨operand.1, (of_mem_zip hmem).1, hellipsis⟩] at hnone
    cases hnone
  have haxes : ∀ operand ∈ equation.inputs.zip shapes,
      operandAxes places' operand = operandAxes places operand := by
    intro operand hmem
    rw [operandAxes, axisLabels_of_not_mem (hfree operand hmem) places' places, operandAxes]
  refine ⟨hvalid.count, hvalid.strided, hvalid.named, ?_, hvalid.repeated, hvalid.output, ?_, ?_⟩
  · intro operand hmem hellipsis
    exact absurd hellipsis (hfree operand hmem)
  · intro first hfirst second hsecond
    rw [haxes first hfirst, haxes second hsecond]
    exact hvalid.joint first hfirst second hsecond
  · intro operand hmem
    rw [haxes operand hmem]
    exact hvalid.own operand hmem

theorem Equation.Valid.fits (hvalid : equation.Valid shapes places) :
    ∀ operand ∈ equation.inputs.zip shapes, TermFits places operand.1 operand.2.rank :=
  fun operand hmem => termFits_iff_of_mem.2 ⟨hvalid.named operand hmem, hvalid.covered operand hmem,
    hvalid.repeated operand.1 (of_mem_zip hmem).1⟩

/-- Axes of one column agree exactly if those of one label do, as columns are other names of labels. -/
theorem agree_columns_iff (agree : Nat → Nat → Prop) {first second : Term × Shape}
    (hfirst : first ∈ equation.inputs.zip shapes) (hsecond : second ∈ equation.inputs.zip shapes) :
    (∀ column len len',
      (column, len) ∈ (expandTerm equation.sortedLetters places first.1).zip first.2.lens →
      (column, len') ∈ (expandTerm equation.sortedLetters places second.1).zip second.2.lens →
        agree len len') ↔
    ∀ axis ∈ operandAxes places first, ∀ axis' ∈ operandAxes places second,
      axis.1 = axis'.1 → agree axis.2 axis'.2 := by
  simp only [mem_zip_expandTerm]
  constructor
  · intro hall axis haxis axis' haxis' hsame
    exact hall _ _ _ ⟨_, haxis, rfl⟩ ⟨_, haxis', by rw [hsame]⟩
  · rintro hall _ len len' ⟨label, hlabel, rfl⟩ ⟨label', hlabel', hsame⟩
    exact hall _ hlabel _ hlabel' (eq_of_columnOf hsecond hfirst hlabel' hlabel hsame).symm

/-- What is resolved satisfies the condition with the covered axes that the shapes give, and the other way
round. -/
theorem Equation.resolve_eq_ok_iff_valid :
    equation.resolve shapes = .ok columns ↔
      equation.Valid shapes (equation.covered (shapes.map Shape.rank)) ∧
      columns = ⟨equation.sortedLetters.length + equation.covered (shapes.map Shape.rank),
        equation.inputs.map
          (expandTerm equation.sortedLetters (equation.covered (shapes.map Shape.rank))),
        expandTerm equation.sortedLetters (equation.covered (shapes.map Shape.rank))
          equation.outputTerm⟩ := by
  let Agree (len len' : Nat) : Prop := len = 1 ∨ len' = 1 ∨ len = len'
  have hjoint {places : Nat} : Joinable (labelledAxes
      (equation.inputs.map (expandTerm equation.sortedLetters places)) (shapes.map Shape.lens)) ↔
      ∀ first ∈ equation.inputs.zip shapes, ∀ second ∈ equation.inputs.zip shapes,
        ∀ axis ∈ operandAxes places first, ∀ axis' ∈ operandAxes places second,
          axis.1 = axis'.1 → Agree axis.2 axis'.2 := by
    rw [Joinable, labelledAxes, zip_map, flatMap_map]
    simp only [mem_flatMap]
    constructor
    · intro hall first hfirst second hsecond
      refine (agree_columns_iff Agree hfirst hsecond).1 fun column len len' hlen hlen' => ?_
      exact hall column len len' ⟨first, hfirst, hlen⟩ ⟨second, hsecond, hlen'⟩
    · rintro hall column len len' ⟨first, hfirst, hlen⟩ ⟨second, hsecond, hlen'⟩
      exact (agree_columns_iff Agree hfirst hsecond).2 (hall first hfirst second hsecond) _ _ _ hlen hlen'
  rw [resolve_eq_ok_iff]
  constructor
  · rintro ⟨hlength, hstrided, hfits, houtput, rfl, huniform, hjoinable⟩
    have hterms := fun operand hmem => termFits_iff_of_mem.1 (hfits operand hmem)
    refine ⟨⟨hlength, fun s hs => Bool.or_eq_false_iff.1 (hstrided s hs),
      fun operand hmem => (hterms operand hmem).1, fun operand hmem => (hterms operand hmem).2.1, ?_,
      checkOutput_outputTerm_iff.1 houtput, ?_, ?_⟩, rfl⟩
    · intro term hterm
      obtain ⟨shape, hoperand⟩ := exists_mem_zip hlength hterm
      exact (hterms (term, shape) hoperand).2.2
    · intro first hfirst second hsecond axis haxis axis' haxis' hsame hne hne'
      exact ((hjoint.1 hjoinable first hfirst second hsecond axis haxis axis' haxis' hsame).resolve_left
        hne).resolve_left hne'
    · rw [zip_map_left, forall_mem_map] at huniform
      exact fun operand hmem => (agree_columns_iff (· = ·) hmem hmem).1 (huniform operand hmem)
  · rintro ⟨hvalid, rfl⟩
    refine ⟨hvalid.count, fun s hs => Bool.or_eq_false_iff.2 (hvalid.strided s hs), hvalid.fits,
      checkOutput_outputTerm_iff.2 hvalid.output, rfl, ?_, hjoint.2 ?_⟩
    · rw [zip_map_left, forall_mem_map]
      exact fun operand hmem => (agree_columns_iff (· = ·) hmem hmem).2 (hvalid.own operand hmem)
    · intro first hfirst second hsecond axis haxis axis' haxis' hsame
      have hagree := hvalid.joint first hfirst second hsecond axis haxis axis' haxis' hsame
      dsimp only [Agree]
      omega

/-- What satisfies the condition is resolved. -/
theorem Equation.resolve_of_valid (hvalid : equation.Valid shapes places) :
    ∃ columns, equation.resolve shapes = .ok columns := by
  have hcovered : equation.Valid shapes (equation.covered (shapes.map Shape.rank)) := by
    cases hhas : equation.hasEllipsis with
    | false => exact hvalid.of_hasEllipsis_eq_false hhas _
    | true =>
      rwa [covered_eq_of_fits hvalid.fits fun hnone => ?_]
      rw [any_zip_hasEllipsis hvalid.count, hhas] at hnone
      cases hnone
  exact ⟨_, Equation.resolve_eq_ok_iff_valid.2 ⟨hcovered, rfl⟩⟩

/-- The condition does not mention the order of the operands. -/
theorem Equation.Valid.perm {terms : List Term} {shapes' : List Shape}
    (hvalid : equation.Valid shapes places) (hcount : terms.length = shapes'.length)
    (hperm : (terms.zip shapes').Perm (equation.inputs.zip shapes)) :
    Equation.Valid ⟨terms, equation.output⟩ shapes' places := by
  have hterms : ∀ {term}, term ∈ terms ↔ term ∈ equation.inputs := by
    intro term
    rw [← map_fst_zip hcount.le, (hperm.map Prod.fst).mem_iff,
      map_fst_zip hvalid.count.le]
  have hshapes : ∀ {s}, s ∈ shapes' ↔ s ∈ shapes := by
    intro s
    rw [← map_snd_zip hcount.ge, (hperm.map Prod.snd).mem_iff,
      map_snd_zip hvalid.count.ge]
  have hletters : Equation.letters ⟨terms, equation.output⟩ ⊇ equation.letters := by
    intro c hc
    obtain ⟨term, hterm, hc⟩ := mem_flatMap.1 hc
    exact mem_flatMap.2 ⟨term, hterms.2 hterm, hc⟩
  refine ⟨hcount, fun s hs => hvalid.strided s (hshapes.1 hs),
    fun operand hmem => hvalid.named operand (hperm.mem_iff.1 hmem),
    fun operand hmem => hvalid.covered operand (hperm.mem_iff.1 hmem),
    fun term hterm => hvalid.repeated term (hterms.1 hterm), ?_,
    fun first hfirst second hsecond => hvalid.joint first (hperm.mem_iff.1 hfirst) second
      (hperm.mem_iff.1 hsecond),
    fun operand hmem => hvalid.own operand (hperm.mem_iff.1 hmem)⟩
  intro output houtput
  obtain ⟨hlabels, hnodup, hsubset, hellipsis⟩ := hvalid.output output houtput
  refine ⟨hlabels, hnodup, fun c hc => hletters (hsubset hc), hellipsis.trans ?_⟩
  simp only [hterms]

/-- The columns are those of the labels. -/
theorem Equation.Resolved.eq_assigned (hresolved : equation.Resolved shapes columns) :
    columns = equation.assigned (equation.covered (shapes.map Shape.rank)) := by
  obtain ⟨count, inputs, output⟩ := columns
  obtain rfl := hresolved.count_eq
  obtain rfl := hresolved.inputs_eq
  obtain rfl := hresolved.output_eq
  rw [Equation.assigned, equation.sortedLetters_perm.length_eq, Equation.inputLabels, map_map,
    Equation.outputLabels, map_columnOf hresolved.admits.subset]
  congr 1
  exact map_congr_left fun term hterm => map_columnOf (letters_subset hterm) _

/-- An operand has a column for every axis. -/
theorem Equation.Resolved.forall₂_rank (hresolved : equation.Resolved shapes columns)
    (hone : ∀ term ∈ equation.inputs, Term.OneEllipsis term) :
    Forall₂ (fun own s => own.length = s.rank) columns.inputs shapes := by
  have hranks := forall₂_map_right_iff.1 (hresolved.arranged hone).ranks
  rw [forall₂_iff_zip] at hranks ⊢
  refine ⟨hranks.1, fun hmem => ?_⟩
  rw [hranks.2 hmem, hresolved.rank_eq (of_mem_zip hmem).2]

end Resolving

/-- Resolving accepts exactly what satisfies the condition. The columns are then those that
`Equation.columnFor` gives to labels: ascending for letters, followed by the places under the ellipsis, one
for every axis of an operand, and none twice in the output. As the condition has no order, operands can be
listed in any order together with their terms. -/
theorem Equation.resolve_validates_exactly {equation : Equation}
    (hwritable : ∀ term ∈ equation.inputs ++ equation.output.toList, Term.Writable term)
    (shapes : List Shape) :
    ((∃ columns, equation.resolve shapes = .ok columns) ↔ ∃ places, equation.Valid shapes places) ∧
    (∀ columns, equation.resolve shapes = .ok columns →
      (∃ places, equation.Valid shapes places ∧ columns = equation.assigned places) ∧
      Forall₂ (fun own s => own.length = s.rank) columns.inputs shapes ∧
      (∀ own ∈ columns.inputs, ∀ column ∈ own, column < columns.count) ∧
      (∀ column ∈ columns.output, column < columns.count) ∧ columns.output.Nodup) ∧
    (∀ c ∈ equation.letters,
      (∀ d, c < d → equation.columnFor (.letter c) < equation.columnFor (.letter d)) ∧
      ∀ place, equation.columnFor (.letter c) < equation.columnFor (.covered place)) ∧
    ∀ terms shapes', terms.length = shapes'.length → equation.inputs.length = shapes.length →
      (terms.zip shapes').Perm (equation.inputs.zip shapes) →
        ((∃ columns, Equation.resolve ⟨terms, equation.output⟩ shapes' = .ok columns) ↔
          ∃ columns, equation.resolve shapes = .ok columns) := by
  have hinput : ∀ term ∈ equation.inputs, Term.OneEllipsis term :=
    fun term hterm => (hwritable term (mem_append_left _ hterm)).ellipsis
  have hone : ∀ term, equation.output = some term → Term.OneEllipsis term := by
    intro term hterm
    exact (hwritable term (mem_append_right _ (by simp [hterm]))).ellipsis
  -- Neither direction depends on which terms the operands have.
  have hiff : ∀ terms shapes', (∃ columns, Equation.resolve ⟨terms, equation.output⟩ shapes' =
      .ok columns) ↔ ∃ places, Equation.Valid ⟨terms, equation.output⟩ shapes' places :=
    fun terms shapes' => ⟨fun ⟨_, hrun⟩ => ⟨_, (Equation.resolve_eq_ok_iff_valid.1 hrun).1⟩,
      fun ⟨_, hvalid⟩ => Equation.resolve_of_valid hvalid⟩
  refine ⟨hiff equation.inputs shapes, ?_, ?_, ?_⟩
  · intro columns hrun
    have hresolved := resolved_of_resolve hone hrun
    have harranged := hresolved.arranged hinput
    refine ⟨⟨_, (Equation.resolve_eq_ok_iff_valid.1 hrun).1, hresolved.eq_assigned⟩,
      hresolved.forall₂_rank hinput, harranged.below, ?_, harranged.output_nodup⟩
    intro column hcolumn
    obtain ⟨own, hown, hcolumn⟩ := mem_flatten.1 (harranged.output_subset hcolumn)
    exact harranged.below own hown column hcolumn
  · exact fun c hc => ⟨fun d => Equation.columnFor_letter_lt_letter hc,
      Equation.columnFor_letter_lt_covered hc⟩
  · intro terms shapes' hlength' hlength hperm
    rw [hiff terms shapes', hiff equation.inputs shapes]
    constructor
    · rintro ⟨places, hvalid⟩
      exact ⟨places, hvalid.perm hlength hperm.symm⟩
    · rintro ⟨places, hvalid⟩
      exact ⟨places, hvalid.perm hlength' hperm⟩

/-- A product of matrices over unnamed axes. -/
def batchedProduct : Equation :=
  ⟨[[.ellipsis, .letter 'i', .letter 'j'], [.ellipsis, .letter 'j', .letter 'k']],
    some [.ellipsis, .letter 'i', .letter 'k']⟩

/-- Matrices of two by three, and five matrices of three by four. -/
def batchedFactors : List Shape :=
  [.strided .float32 [⟨1, 6⟩, ⟨2, 3⟩, ⟨3, 1⟩], .strided .float32 [⟨5, 12⟩, ⟨3, 4⟩, ⟨4, 1⟩]]

theorem Equation.batchedProduct_valid :
    (∃ places, batchedProduct.Valid batchedFactors places) ∧
    (¬ ∃ places, batchedProduct.Valid batchedFactors.reverse places) ∧
    ∃ columns, Equation.resolve ⟨batchedProduct.inputs.reverse, batchedProduct.output⟩
      batchedFactors.reverse = .ok columns := by
  have hwritable : ∀ term ∈ batchedProduct.inputs ++ batchedProduct.output.toList,
      Term.Writable term := by decide
  obtain ⟨haccepts, -, -, hperm⟩ := Equation.resolve_validates_exactly hwritable batchedFactors
  refine ⟨haccepts.1 ⟨_, rfl⟩, ?_, ?_⟩
  · rw [← (Equation.resolve_validates_exactly hwritable batchedFactors.reverse).1]
    rintro ⟨columns, hrun⟩
    cases hrun
  · apply (hperm batchedProduct.inputs.reverse batchedFactors.reverse rfl rfl ?_).2 ⟨_, rfl⟩
    exact List.Perm.swap _ _ []

end TensorGraph.Einsum
