import TensorGraph.Proofs.Einsum.Operands

/-!
# Resolved equations

Resolving gives every label a column. Columns are other names of labels, so an einsum means the same with
both.
-/

namespace TensorGraph.Einsum

open List

/-! ## Equations that were read -/

/-- A term has at most one ellipsis. -/
def Term.OneEllipsis (term : Term) : Prop := term.count .ellipsis ≤ 1

/-- What reading ensures about an equation. -/
structure Equation.Sound (equation : Equation) : Prop where
  nonempty : equation.inputs ≠ []
  input : ∀ term ∈ equation.inputs, Term.OneEllipsis term
  output : ∀ term, equation.output = some term → Term.OneEllipsis term

/-! ## Labels of terms -/

section Terms

variable (places : Nat) (c : Char) (term : Term)

theorem axisLabels_letter :
    axisLabels places (.letter c :: term) = .letter c :: axisLabels places term := rfl

theorem axisLabels_ellipsis :
    axisLabels places (.ellipsis :: term) =
      (List.range places).map .covered ++ axisLabels places term := rfl

theorem letters_letter : Term.letters (.letter c :: term) = c :: Term.letters term := rfl

theorem letters_ellipsis : Term.letters (.ellipsis :: term) = Term.letters term := rfl

theorem length_axisLabels :
    (axisLabels places term).length = term.letters.length + term.count .ellipsis * places := by
  induction term with
  | nil => simp [axisLabels, Term.letters]
  | cons label term ih =>
    cases label with
    | letter c =>
      rw [axisLabels_letter, length_cons, ih, letters_letter, length_cons,
        count_cons_of_ne (by simp)]
      omega
    | ellipsis =>
      rw [axisLabels_ellipsis, length_append, length_map, length_range, ih,
        letters_ellipsis, count_cons_self, Nat.add_mul]
      omega

theorem count_letter_axisLabels :
    (axisLabels places term).count (.letter c) = term.letters.count c := by
  induction term with
  | nil => rfl
  | cons label term ih =>
    cases label with
    | letter d =>
      rw [axisLabels_letter, letters_letter, count_cons, count_cons, ih]
      simp
    | ellipsis =>
      rw [axisLabels_ellipsis, letters_ellipsis, count_append, ih,
        count_eq_zero_of_not_mem (by simp), Nat.zero_add]

theorem count_covered_axisLabels (place : Nat) :
    (axisLabels places term).count (.covered place) ≤ term.count .ellipsis := by
  induction term with
  | nil => exact Nat.le_refl 0
  | cons label term ih =>
    cases label with
    | letter d =>
      rw [axisLabels_letter, count_cons_of_ne (by simp), count_cons_of_ne (by simp)]
      exact ih
    | ellipsis =>
      have hinjective : Function.Injective AxisLabel.covered := fun _ _ => AxisLabel.covered.inj
      have hrange := nodup_iff_count_le_one.1 (@nodup_range places) place
      rw [axisLabels_ellipsis, count_append, count_map_of_injective _ _ hinjective,
        count_cons_self]
      omega

theorem letter_mem_axisLabels : .letter c ∈ axisLabels places term ↔ c ∈ term.letters := by
  rw [← count_pos_iff, count_letter_axisLabels, count_pos_iff]

theorem covered_mem_axisLabels (place : Nat) :
    .covered place ∈ axisLabels places term ↔ place < places ∧ term.hasEllipsis = true := by
  rw [axisLabels, mem_flatMap, Term.hasEllipsis, contains_iff_mem]
  constructor
  · rintro ⟨label, hmem, hplace⟩
    cases label with
    | letter c => simp at hplace
    | ellipsis =>
      simp only [mem_map, mem_range, AxisLabel.covered.injEq, exists_eq_right] at hplace
      exact ⟨hplace, hmem⟩
  · rintro ⟨hplace, hmem⟩
    exact ⟨.ellipsis, hmem, by simpa using hplace⟩

/-- Labels are not repeated where letters are not. -/
theorem nodup_axisLabels {places : Nat} {term : Term} (hletters : term.letters.Nodup)
    (hone : Term.OneEllipsis term) : (axisLabels places term).Nodup := by
  rw [nodup_iff_count_le_one]
  intro label
  cases label with
  | letter c =>
    rw [count_letter_axisLabels]
    exact nodup_iff_count_le_one.1 hletters c
  | covered place => exact (count_covered_axisLabels places term place).trans hone

end Terms

/-! ## Columns as names of labels -/

/-- The column of a label: letters come first, places under the ellipsis after them. -/
def columnOf (letters : List Char) : AxisLabel → Nat
  | .letter c => letters.idxOf c
  | .covered place => letters.length + place

section Names

variable {letters : List Char}

theorem expandTerm_eq (letters : List Char) (places : Nat) (term : Term) :
    expandTerm letters places term = (axisLabels places term).map (columnOf letters) := by
  rw [expandTerm, axisLabels, map_flatMap]
  apply flatMap_congr
  intro label _
  cases label with
  | letter c => rfl
  | ellipsis =>
    show List.range' letters.length places = _
    rw [range'_eq_map_range, map_map]
    rfl

/-- Letters that are listed have columns of their own. -/
theorem columnOf_injective {a b : AxisLabel} (ha : ∀ c, a = .letter c → c ∈ letters)
    (hb : ∀ c, b = .letter c → c ∈ letters) (hsame : columnOf letters a = columnOf letters b) :
    a = b := by
  cases a with
  | letter c =>
    have hc := ha c rfl
    cases b with
    | letter d => rw [(idxOf_inj hc).1 hsame]
    | covered place =>
      have := idxOf_lt_length_iff.2 hc
      rw [columnOf, columnOf] at hsame
      omega
  | covered place =>
    cases b with
    | letter d =>
      have := idxOf_lt_length_iff.2 (hb d rfl)
      rw [columnOf, columnOf] at hsame
      omega
    | covered other =>
      rw [columnOf, columnOf] at hsame
      rw [Nat.add_left_cancel hsame]

end Names

/-! ## Ranks -/

/-- A term fits an operand whose ellipsis covers so many axes. -/
structure TermFits (places : Nat) (term : Term) (rank : Nat) : Prop where
  rank_eq : rank = term.letters.length + if term.hasEllipsis then places else 0
  repeated : (repeatedLetters term).length ≤ 1

section Ranks

variable {known known' : Option Nat} {position rank : Nat} {term : Term}

/-- Without an ellipsis it does not matter how many axes it would cover. -/
theorem TermFits.of_not {places : Nat} (hfits : TermFits places term rank)
    (hnone : term.hasEllipsis = false) (places' : Nat) : TermFits places' term rank := by
  have hrank := hfits.rank_eq
  rw [hnone] at hrank
  exact ⟨by rw [hnone]; exact hrank, hfits.repeated⟩

/-- A term passes that fits, with as many covered axes as are known then. What was known stays, and an
ellipsis makes it known. -/
theorem checkTerm_eq_ok_iff :
    checkTerm known position term rank = .ok known' ↔
      TermFits (known'.getD 0) term rank ∧ (known = none ∨ known' = known) ∧
        known'.isSome = (known.isSome || term.hasEllipsis) := by
  have hfits : TermFits (known'.getD 0) term rank ↔
      rank = term.letters.length + (if term.hasEllipsis then known'.getD 0 else 0) ∧
        ¬ 1 < (repeatedLetters term).length :=
    ⟨fun hfits => ⟨hfits.1, Nat.not_lt.2 hfits.2⟩, fun hfits => ⟨hfits.1, Nat.not_lt.1 hfits.2⟩⟩
  rw [hfits, checkTerm]
  dsimp only
  rw [ite_error_eq_ok_iff]
  clear hfits
  cases term.hasEllipsis with
  | false =>
    cases known <;> cases known' <;> simp [Except.pure_eq_ok, ite_error_eq_ok_iff] <;> omega
  | true =>
    cases known with
    | none =>
      cases known' <;> simp [Except.pure_eq_ok, ite_error_eq_ok_iff]; omega
    | some expected =>
      by_cases hsame : expected = rank - term.letters.length
      · cases known' <;> simp [Except.pure_eq_ok, ite_error_eq_ok_iff, hsame]; omega
      · cases known' <;> simp [hsame]; omega

/-- Terms pass that all fit with the number of covered axes that is known at last. -/
theorem checkTerms_eq_ok_iff {operands : List (Term × Shape)} {offset : Nat} :
    (operands.zipIdx offset).foldlM
      (fun known ((term, shape), position) => checkTerm known position term shape.rank) known =
        .ok known' ↔
      (∀ operand ∈ operands, TermFits (known'.getD 0) operand.1 operand.2.rank) ∧
        (known = none ∨ known' = known) ∧
        known'.isSome = (known.isSome || operands.any (·.1.hasEllipsis)) := by
  induction operands generalizing known offset with
  | nil =>
    rw [zipIdx_nil, foldlM_nil, Except.pure_eq_ok, Except.ok.injEq]
    cases known <;> cases known' <;> simp [eq_comm]
  | cons operand operands ih =>
    obtain ⟨term, shape⟩ := operand
    rw [zipIdx_cons, foldlM_cons, bind_eq_ok_iff, forall_mem_cons, any_cons, ← Bool.or_assoc]
    simp only [ih, checkTerm_eq_ok_iff]
    constructor
    · rintro ⟨found, ⟨hfits, hkept, hfound⟩, hall, hkept', hfound'⟩
      rw [← hfound]
      refine ⟨⟨?_, hall⟩, ?_, hfound'⟩
      · rcases hkept' with rfl | rfl
        · exact hfits.of_not (Bool.or_eq_false_iff.1 hfound.symm).2 _
        · exact hfits
      · rcases hkept' with rfl | rfl
        · exact .inl (hkept.elim id Eq.symm)
        · exact hkept
    · rintro ⟨⟨hfits, hall⟩, hkept, hfound⟩
      cases hhas : known.isSome || term.hasEllipsis with
      | true =>
        rw [hhas, Bool.true_or] at hfound
        exact ⟨known', ⟨hfits, hkept, hfound⟩, hall, .inr rfl, by rw [hfound, Bool.true_or]⟩
      | false =>
        have hnone := Bool.or_eq_false_iff.1 hhas
        rw [hhas] at hfound
        exact ⟨none, ⟨hfits.of_not hnone.2 _, .inl (by simpa using hnone.1), rfl⟩, hall, .inl rfl,
          hfound⟩

end Ranks

/-! ## Lengths -/

/-- The lengths of the columns that the axes seen so far give. -/
def givenLens (count : Nat) (axes : List (Nat × Nat)) : List (Option Nat) :=
  (List.range count).map fun column =>
    if column ∈ axes.map Prod.fst then some (commonLen axes column) else none

/-- The axes of a column within an operand have one length. -/
def Uniform (axes : List (Nat × Nat)) : Prop :=
  ∀ column len len', (column, len) ∈ axes → (column, len') ∈ axes → len = len'

/-- The axes of a column have one length, apart from those of length one. -/
def Joinable (axes : List (Nat × Nat)) : Prop :=
  ∀ column len len', (column, len) ∈ axes → (column, len') ∈ axes → len = 1 ∨ len' = 1 ∨ len = len'

theorem givenLens_nil (count : Nat) : givenLens count [] = List.replicate count none := by
  simp [givenLens]

section Lengths

variable {letters : List Char} {known known' : KnownLens} {count column len : Nat}
  {axes seen before : List (Nat × Nat)}

/-- An axis that comes last gives its column a length where there was none but one. -/
theorem commonLen_append (axes : List (Nat × Nat)) (column len other : Nat) :
    commonLen (axes ++ [(column, len)]) other =
      if column = other ∧ commonLen axes other = 1 then len else commonLen axes other := by
  induction axes with
  | nil =>
    simp only [nil_append, commonLen]
    split_ifs <;> simp_all
  | cons axis axes ih =>
    rw [cons_append, commonLen, commonLen, ih]
    split_ifs <;> simp_all

/-- Axes have the common length of their column, or length one. -/
theorem Joinable.agree (hjoinable : Joinable axes) {axis : Nat × Nat} (hmem : axis ∈ axes) :
    axis.2 = 1 ∨ axis.2 = commonLen axes axis.1 := by
  rcases commonLen_eq_one_or_mem axes axis.1 with hunit | hcommon
  · exact .inl (eq_one_of_commonLen hunit hmem)
  · have hsame := hjoinable axis.1 _ _ hmem hcommon
    have hunit : commonLen axes axis.1 = 1 → axis.2 = 1 := fun heq => eq_one_of_commonLen heq hmem
    omega

/-- Axes of a column agree in pairs when the last agrees with those before. -/
theorem agree_append_iff {agree : Nat → Nat → Prop} (hrefl : ∀ len, agree len len)
    (hsymm : ∀ len len', agree len len' → agree len' len) :
    (∀ other n n', (other, n) ∈ axes ++ [(column, len)] → (other, n') ∈ axes ++ [(column, len)] →
      agree n n') ↔
    (∀ other n n', (other, n) ∈ axes → (other, n') ∈ axes → agree n n') ∧
      ∀ n, (column, n) ∈ axes → agree n len := by
  simp only [mem_append, mem_singleton, Prod.mk.injEq]
  constructor
  · intro hall
    exact ⟨fun other n n' h h' => hall other n n' (.inl h) (.inl h'),
      fun n h => hall column n len (.inl h) (.inr ⟨rfl, rfl⟩)⟩
  · rintro ⟨hall, hlast⟩ other n n' (h | ⟨rfl, rfl⟩) (h' | ⟨hsame, rfl⟩)
    · exact hall other n n' h h'
    · exact hlast n (hsame ▸ h)
    · exact hsymm _ _ (hlast n' h')
    · exact hrefl _

theorem agree_of_append {agree : Nat → Nat → Prop} {rest : List (Nat × Nat)}
    (hall : ∀ other n n', (other, n) ∈ axes ++ rest → (other, n') ∈ axes ++ rest → agree n n')
    (other n n' : Nat) (h : (other, n) ∈ axes) (h' : (other, n') ∈ axes) : agree n n' :=
  hall other n n' (mem_append_left _ h) (mem_append_left _ h')

theorem givenLens_append :
    (givenLens count axes).set column (some (commonLen (axes ++ [(column, len)]) column)) =
      givenLens count (axes ++ [(column, len)]) := by
  refine ext_getElem (by simp [givenLens]) fun i hi hi' => ?_
  rw [getElem_set]
  by_cases hsame : column = i
  · subst hsame
    simp [givenLens]
  · simp only [givenLens, getElem_map, getElem_range, commonLen_append, hsame, false_and,
      if_false, map_append, map_singleton, mem_append, mem_singleton, Ne.symm hsame, or_false]

theorem getElem?_givenLens (axes : List (Nat × Nat)) (hbelow : column < count) :
    (givenLens count axes)[column]?.join =
      if column ∈ axes.map Prod.fst then some (commonLen axes column) else none := by
  rw [givenLens, getElem?_map, getElem?_range hbelow]
  rfl

/-- A length of one gives way, any other length stays. -/
theorem joinColumn_eq_some_iff {previous : Option Nat} {joined : Nat} :
    joinColumn previous len = some joined ↔
      (previous.getD 1 = 1 ∨ len = 1 ∨ previous.getD 1 = len) ∧
        joined = if previous.getD 1 = 1 then len else previous.getD 1 := by
  cases previous with
  | none => simp [joinColumn, eq_comm]
  | some previous =>
    simp only [joinColumn, Option.getD_some]
    split_ifs <;> simp only [Option.some.injEq, false_iff] <;> omega

theorem checkAxis_iff :
    checkAxis letters known column len = .ok known' ↔
      (∀ previous, known.own[column]?.join = some previous → previous = len) ∧
        ∃ joined, joinColumn known.joint[column]?.join len = some joined ∧
          known' = ⟨known.own.set column (some len), known.joint.set column (some joined)⟩ := by
  unfold checkAxis
  dsimp only
  cases known.own[column]?.join with
  | none =>
    cases joinColumn known.joint[column]?.join len <;> simp [Except.pure_eq_ok, eq_comm]
  | some previous =>
    by_cases hsame : previous = len
    · cases joinColumn known.joint[column]?.join len <;> simp [hsame, Except.pure_eq_ok, eq_comm]
    · simp [hsame]

/-- An axis passes that agrees with the axes before it. -/
theorem checkAxis_eq_ok_iff (huniform : Uniform seen) (hjoinable : Joinable before)
    (hbelow : column < count) :
    checkAxis letters ⟨givenLens count seen, givenLens count before⟩ column len = .ok known' ↔
      Uniform (seen ++ [(column, len)]) ∧ Joinable (before ++ [(column, len)]) ∧
        known' = ⟨givenLens count (seen ++ [(column, len)]),
          givenLens count (before ++ [(column, len)])⟩ := by
  have hcommon : (givenLens count before)[column]?.join.getD 1 = commonLen before column := by
    rw [getElem?_givenLens before hbelow]
    split_ifs with hseen
    · rfl
    · refine ((commonLen_eq_one_or_mem before column).resolve_right fun hmem => hseen ?_).symm
      exact mem_map_of_mem hmem
  have hjoint : Joinable (before ++ [(column, len)]) ↔
      commonLen before column = 1 ∨ len = 1 ∨ commonLen before column = len := by
    rw [Joinable, agree_append_iff (fun _ => .inr (.inr rfl)) (fun _ _ => by omega)]
    refine (and_iff_right hjoinable).trans ⟨fun hall => ?_, fun hsome n hmem => ?_⟩
    · exact (commonLen_eq_one_or_mem before column).elim .inl (hall _)
    · have hagree : n = 1 ∨ n = commonLen before column := hjoinable.agree hmem
      omega
  have hlen {n : Nat} (hmem : (column, n) ∈ seen) : commonLen seen column = n :=
    commonLen_eq_of_mem hmem fun _ hother => huniform _ _ _ hother hmem
  have hown : Uniform (seen ++ [(column, len)]) ↔
      ∀ previous, (givenLens count seen)[column]?.join = some previous → previous = len := by
    rw [Uniform, agree_append_iff (fun _ => rfl) (fun _ _ => Eq.symm), getElem?_givenLens seen hbelow]
    refine (and_iff_right huniform).trans ⟨fun hall previous hprevious => ?_, fun hall n hmem => ?_⟩
    · split_ifs at hprevious with hseen
      obtain ⟨⟨_, n⟩, hmem, rfl⟩ := mem_map.1 hseen
      cases hprevious
      exact (hlen hmem).trans (hall n hmem)
    · exact (hlen hmem).symm.trans (hall _ (if_pos (mem_map_of_mem hmem)))
  rw [checkAxis_iff, ← hown, hjoint]
  refine and_congr_right fun hall => ?_
  have hlast : commonLen (seen ++ [(column, len)]) column = len :=
    commonLen_eq_of_mem (by simp) fun _ hother => hall _ _ _ hother (by simp)
  simp only [joinColumn_eq_some_iff, hcommon, ← givenLens_append, hlast, commonLen_append before,
    true_and, and_assoc, exists_and_left, exists_eq_left]

theorem checkAxes_eq_ok_iff (huniform : Uniform seen) (hjoinable : Joinable before)
    (hbelow : ∀ axis ∈ axes, axis.1 < count) :
    axes.foldlM (fun known (column, len) => checkAxis letters known column len)
        ⟨givenLens count seen, givenLens count before⟩ = .ok known' ↔
      Uniform (seen ++ axes) ∧ Joinable (before ++ axes) ∧
        known' = ⟨givenLens count (seen ++ axes), givenLens count (before ++ axes)⟩ := by
  induction axes generalizing seen before with
  | nil => simp [huniform, hjoinable, Except.pure_eq_ok, eq_comm]
  | cons axis axes ih =>
    obtain ⟨hfirst, hrest⟩ := forall_mem_cons.1 hbelow
    rw [foldlM_cons, bind_eq_ok_iff, append_cons, append_cons before]
    constructor
    · rintro ⟨next, hnext, hrun⟩
      obtain ⟨huniform', hjoinable', rfl⟩ := (checkAxis_eq_ok_iff huniform hjoinable hfirst).1 hnext
      exact (ih huniform' hjoinable' hrest).1 hrun
    · rintro ⟨huniform', hjoinable', rfl⟩
      have hseen := agree_of_append huniform'
      have hbefore := agree_of_append hjoinable'
      exact ⟨_, (checkAxis_eq_ok_iff huniform hjoinable hfirst).2 ⟨hseen, hbefore, rfl⟩,
        (ih hseen hbefore hrest).2 ⟨huniform', hjoinable', rfl⟩⟩

theorem checkOperands_eq_ok_iff {operands : List (List Nat × Shape)} {joint : List (Option Nat)}
    (hjoinable : Joinable seen)
    (hbelow : ∀ operand ∈ operands, ∀ column ∈ operand.1, column < count) :
    operands.foldlM (fun joint (own, shape) => checkOperand letters count joint own shape.lens)
        (givenLens count seen) = .ok joint ↔
      (∀ operand ∈ operands, Uniform (operand.1.zip operand.2.lens)) ∧
        Joinable (seen ++ operands.flatMap fun operand => operand.1.zip operand.2.lens) ∧
        joint = givenLens count
          (seen ++ operands.flatMap fun operand => operand.1.zip operand.2.lens) := by
  induction operands generalizing seen with
  | nil => simp [hjoinable, Except.pure_eq_ok, eq_comm]
  | cons operand operands ih =>
    obtain ⟨own, shape⟩ := operand
    obtain ⟨hfirst, hrest⟩ := forall_mem_cons.1 hbelow
    have haxes {known : KnownLens} := @checkAxes_eq_ok_iff letters known count (own.zip shape.lens) []
      seen (by simp [Uniform]) hjoinable fun axis hmem => hfirst _ (of_mem_zip hmem).1
    rw [foldlM_cons, bind_eq_ok_iff, flatMap_cons, ← append_assoc, forall_mem_cons]
    dsimp only
    rw [checkOperand, ← givenLens_nil]
    simp only [bind_eq_ok_iff, haxes]
    constructor
    · rintro ⟨next, ⟨_, ⟨huniform, hjoinable', rfl⟩, hnext⟩, hrun⟩
      cases hnext
      obtain ⟨huniforms, hrest⟩ := (ih hjoinable' hrest).1 hrun
      exact ⟨⟨huniform, huniforms⟩, hrest⟩
    · rintro ⟨⟨huniform, huniforms⟩, hjoinable', rfl⟩
      have hbefore := agree_of_append hjoinable'
      exact ⟨_, ⟨_, ⟨huniform, hbefore, rfl⟩, rfl⟩, (ih hbefore hrest).2 ⟨huniforms, hjoinable', rfl⟩⟩

end Lengths

/-! ## The output -/

theorem nodup_eraseDups {β : Type} [BEq β] [LawfulBEq β] (items : List β) :
    items.eraseDups.Nodup := by
  match items with
  | [] => exact .nil
  | first :: rest =>
    rw [eraseDups_cons, nodup_cons]
    refine ⟨?_, nodup_eraseDups _⟩
    rw [mem_eraseDups, mem_filter]
    rintro ⟨-, hne⟩
    simp at hne
termination_by items.length
decreasing_by exact Nat.lt_succ_of_le (length_filter_le _ _)

section Output

variable {equation : Equation}

theorem Equation.nodup_sortedLetters (equation : Equation) : equation.sortedLetters.Nodup :=
  (sorted_perm _ _).nodup_iff.2 (nodup_eraseDups _)

theorem Equation.mem_sortedLetters {c : Char} :
    c ∈ equation.sortedLetters ↔ c ∈ equation.letters := by
  rw [Equation.sortedLetters, (sorted_perm _ _).mem_iff, mem_eraseDups]

/-- What makes sense as the output of an equation. -/
structure Equation.Admits (equation : Equation) (output : Term) : Prop where
  nodup : output.letters.Nodup
  subset : output.letters ⊆ equation.letters
  one : Term.OneEllipsis output
  ellipsis : output.hasEllipsis = true → equation.hasEllipsis = true

/-- A given output passes exactly if it has labels, repeats no letter, has letters of operands only, and
has an ellipsis where operands do. -/
theorem checkOutput_eq_ok_iff {output : Term} {ellipsis : Bool} :
    checkOutput equation ellipsis output = .ok () ↔
      output ≠ [] ∧ output.letters.Nodup ∧ output.letters ⊆ equation.letters ∧
        output.hasEllipsis = ellipsis := by
  unfold checkOutput
  by_cases hempty : output = []
  · simp [hempty]
  rw [if_neg (by simpa using hempty)]
  cases hrepeat : firstRepeat? [] output.letters with
  | some c =>
    obtain ⟨-, hcount⟩ := firstRepeat?_eq_some hrepeat
    have hcount' := hcount.resolve_left not_mem_nil
    simp only [reduceCtorEq, false_iff]
    rintro ⟨-, hnodup, -⟩
    exact absurd (nodup_iff_count_le_one.1 hnodup c) (Nat.not_le.2 hcount')
  | none =>
    have hnodup := (firstRepeat?_eq_none hrepeat).1
    dsimp only
    cases hunknown : output.letters.find? fun c => !equation.letters.contains c with
    | some c =>
      have hmem := mem_of_find?_eq_some hunknown
      have hnew := find?_some hunknown
      simp only [reduceCtorEq, false_iff]
      rintro ⟨-, -, hsubset, -⟩
      simp [hsubset hmem] at hnew
    | none =>
      have hsubset : output.letters ⊆ equation.letters := by
        intro c hc
        simpa using find?_eq_none.1 hunknown c hc
      simp only [ne_eq, hempty, not_false_eq_true, hnodup, hsubset, true_and]
      cases ellipsis <;> cases output.hasEllipsis <;> simp

theorem Term.letters_append (first second : Term) :
    Term.letters (first ++ second) = Term.letters first ++ Term.letters second :=
  filterMap_append

theorem Term.letters_map_letter (letters : List Char) :
    Term.letters (letters.map .letter) = letters := by
  induction letters with
  | nil => rfl
  | cons c letters ih => rw [map_cons, letters_letter, ih]

/-- The implied output: letters that occur once, behind the ellipsis. -/
theorem admits_outputTerm (hnone : equation.output = none) :
    equation.Admits equation.outputTerm := by
  have hellipses : ∀ letters : List Char, Label.ellipsis ∉ letters.map Label.letter := by simp
  unfold Equation.outputTerm
  rw [hnone]
  dsimp only
  set single := equation.sortedLetters.filter fun c => equation.letters.count c == 1 with hsingle
  have hletters : Term.letters
      ((if equation.hasEllipsis then [.ellipsis] else []) ++ single.map .letter) = single := by
    rw [Term.letters_append, Term.letters_map_letter]
    split <;> rfl
  refine ⟨?_, ?_, ?_, ?_⟩
  · rw [hletters]
    exact equation.nodup_sortedLetters.filter _
  · rw [hletters]
    intro c hc
    exact Equation.mem_sortedLetters.1 (mem_filter.1 hc).1
  · rw [Term.OneEllipsis, count_append, count_eq_zero_of_not_mem (hellipses single)]
    split <;> decide
  · intro hhas
    by_contra hfree
    rw [if_neg hfree, nil_append, Term.hasEllipsis, contains_iff_mem] at hhas
    exact hellipses single hhas

end Output

/-! ## Resolving -/

/-- What resolving ensures about an equation, the shapes of its operands and its columns. -/
structure Equation.Resolved (equation : Equation) (shapes : List Shape) (columns : Columns) :
    Prop where
  length_eq : equation.inputs.length = shapes.length
  strided : ∀ s ∈ shapes, (s.isDynamic || s.isTuple) = false
  fits : ∀ operand ∈ equation.inputs.zip shapes,
    TermFits (equation.covered (shapes.map Shape.rank)) operand.1 operand.2.rank
  admits : equation.Admits equation.outputTerm
  count_eq : columns.count =
    equation.sortedLetters.length + equation.covered (shapes.map Shape.rank)
  inputs_eq : columns.inputs =
    (equation.inputLabels (shapes.map Shape.rank)).map (List.map (columnOf equation.sortedLetters))
  output_eq : columns.output =
    (equation.outputLabels (shapes.map Shape.rank)).map (columnOf equation.sortedLetters)
  /-- The axes of a column have one length within an operand. -/
  uniform : ∀ operand ∈ columns.inputs.zip shapes, Uniform (operand.1.zip operand.2.lens)
  agree : ∀ axis ∈ labelledAxes columns.inputs (shapes.map Shape.lens),
    axis.2 = 1 ∨ axis.2 = labelLen columns.inputs (shapes.map Shape.lens) axis.1

section Resolving

variable {equation : Equation} {shapes : List Shape} {columns : Columns}

/-- The number of covered axes that the check finds. -/
theorem covered_eq_getD (equation : Equation) (shapes : List Shape) :
    equation.covered (shapes.map Shape.rank) =
      (((equation.inputs.zip shapes).find? (·.1.hasEllipsis)).map
        fun operand => operand.2.rank - operand.1.letters.length).getD 0 := by
  have hzip : equation.inputs.zip (shapes.map Shape.rank) =
      (equation.inputs.zip shapes).map fun operand => (operand.1, operand.2.rank) :=
    zip_map_right
  rw [Equation.covered, hzip, find?_map]
  have hsame : ((·.1.hasEllipsis) : Term × Nat → Bool) ∘
      (fun operand : Term × Shape => (operand.1, operand.2.rank)) =
        fun operand => operand.1.hasEllipsis := rfl
  rw [hsame]
  cases (equation.inputs.zip shapes).find? fun operand => operand.1.hasEllipsis <;> rfl

theorem letters_subset {term : Term} (hterm : term ∈ equation.inputs) :
    term.letters ⊆ equation.letters :=
  fun _ hc => mem_flatMap.2 ⟨term, hterm, hc⟩

/-- The columns of a term whose letters are those of operands. -/
theorem columnOf_lt {places : Nat} {term : Term} (hsubset : term.letters ⊆ equation.letters)
    {label : AxisLabel} (hlabel : label ∈ axisLabels places term) :
    columnOf equation.sortedLetters label < equation.sortedLetters.length + places := by
  cases label with
  | letter c =>
    have hc := hsubset ((letter_mem_axisLabels places c term).1 hlabel)
    have := idxOf_lt_length_iff.2 (Equation.mem_sortedLetters.2 hc)
    rw [columnOf]
    omega
  | covered place =>
    have := ((covered_mem_axisLabels places term place).1 hlabel).1
    rw [columnOf]
    omega

theorem columns_lt (equation : Equation) (shapes : List Shape) (places : Nat) :
    ∀ operand ∈ (equation.inputs.map (expandTerm equation.sortedLetters places)).zip shapes,
      ∀ column ∈ operand.1, column < equation.sortedLetters.length + places := by
  intro operand hoperand column hcolumn
  obtain ⟨term, hterm, heq⟩ := mem_map.1 (of_mem_zip hoperand).1
  rw [← heq, expandTerm_eq] at hcolumn
  obtain ⟨label, hlabel, rfl⟩ := mem_map.1 hcolumn
  exact columnOf_lt (letters_subset hterm) hlabel

theorem covered_eq_of_fits {places : Nat} (hfits : ∀ operand ∈ equation.inputs.zip shapes,
      TermFits places operand.1 operand.2.rank)
    (hnone : (equation.inputs.zip shapes).any (·.1.hasEllipsis) = false → places = 0) :
    equation.covered (shapes.map Shape.rank) = places := by
  rw [covered_eq_getD]
  cases hfound : (equation.inputs.zip shapes).find? (·.1.hasEllipsis) with
  | none => exact (hnone (any_eq_false.2 (find?_eq_none.1 hfound))).symm
  | some operand =>
    have hrank := (hfits operand (mem_of_find?_eq_some hfound)).rank_eq
    rw [if_pos (find?_some hfound)] at hrank
    exact Nat.sub_eq_of_eq_add' hrank

theorem any_zip_hasEllipsis (hlength : equation.inputs.length = shapes.length) :
    (equation.inputs.zip shapes).any (·.1.hasEllipsis) = equation.hasEllipsis :=
  calc (equation.inputs.zip shapes).any (·.1.hasEllipsis)
      = ((equation.inputs.zip shapes).map Prod.fst).any Term.hasEllipsis := any_map.symm
    _ = equation.hasEllipsis := by rw [map_fst_zip hlength.le, Equation.hasEllipsis]

/-- A check that is made in some cases only has been passed there. -/
theorem ite_bind_eq_ok_iff {ε β : Type} {made : Prop} [Decidable made] {check : Except ε Unit}
    {next : Except ε β} {result : β} : (if made then check >>= fun _ => next else next) = .ok result ↔
      (made → check = .ok ()) ∧ next = .ok result := by
  by_cases hmade : made
  · rw [if_pos hmade, bind_eq_ok_iff, forall_prop_of_true hmade]
    exact ⟨fun hrun => hrun.elim fun _ hrun => hrun, fun hrun => ⟨(), hrun⟩⟩
  · simp [hmade]

/-- What every check asks. -/
theorem resolve_eq_ok_iff :
    equation.resolve shapes = .ok columns ↔
      equation.inputs.length = shapes.length ∧
      (∀ s ∈ shapes, (s.isDynamic || s.isTuple) = false) ∧
      (∀ operand ∈ equation.inputs.zip shapes,
        TermFits (equation.covered (shapes.map Shape.rank)) operand.1 operand.2.rank) ∧
      (equation.output.isSome = true →
        checkOutput equation equation.hasEllipsis equation.outputTerm = .ok ()) ∧
      columns = ⟨equation.sortedLetters.length + equation.covered (shapes.map Shape.rank),
        equation.inputs.map
          (expandTerm equation.sortedLetters (equation.covered (shapes.map Shape.rank))),
        expandTerm equation.sortedLetters (equation.covered (shapes.map Shape.rank))
          equation.outputTerm⟩ ∧
      (∀ operand ∈ columns.inputs.zip shapes, Uniform (operand.1.zip operand.2.lens)) ∧
      Joinable (labelledAxes columns.inputs (shapes.map Shape.lens)) := by
  refine ite_error_eq_ok_iff.trans ?_
  rw [not_not]
  refine and_congr_right fun hlength => ?_
  cases hfound : shapes.findIdx? fun s => s.isDynamic || s.isTuple with
  | some input =>
    refine iff_of_false (fun hrun => nomatch hrun) fun hall => ?_
    rw [findIdx?_eq_none_iff.2 hall.1] at hfound
    cases hfound
  | none =>
    rw [and_iff_right (findIdx?_eq_none_iff.1 hfound)]
    refine bind_eq_ok_iff.trans ?_
    have hlens (places : Nat) (joint : List (Option Nat)) :=
      @checkOperands_eq_ok_iff equation.sortedLetters _ [] _ joint (by simp [Joinable])
        (columns_lt equation shapes places)
    have haxes (inputs : List (List Nat)) : labelledAxes inputs (shapes.map Shape.lens) =
        [] ++ (inputs.zip shapes).flatMap fun operand => operand.1.zip operand.2.lens := by
      rw [labelledAxes, zip_map_right, flatMap_map]
      rfl
    simp only [givenLens_nil] at hlens
    simp only [checkTerms_eq_ok_iff, any_zip_hasEllipsis hlength, ite_bind_eq_ok_iff, bind_eq_ok_iff,
      hlens, ← haxes, true_or, true_and, Option.isSome_none, Bool.false_or]
    constructor
    · rintro ⟨covered, ⟨hfits, hsome⟩, houtput, joint, ⟨huniform, hjoinable, -⟩, hdone⟩
      cases hdone
      have hplaces : equation.covered (shapes.map Shape.rank) = covered.getD 0 := by
        refine covered_eq_of_fits hfits fun hnone => ?_
        rw [any_zip_hasEllipsis hlength, ← hsome] at hnone
        cases covered with
        | none => rfl
        | some places => cases hnone
      rw [hplaces]
      exact ⟨hfits, hsome ▸ houtput, rfl, huniform, hjoinable⟩
    · rintro ⟨hfits, houtput, rfl, huniform, hjoinable⟩
      obtain ⟨covered, hplaces, hsome⟩ : ∃ covered : Option Nat, covered.getD 0 =
          equation.covered (shapes.map Shape.rank) ∧ covered.isSome = equation.hasEllipsis := by
        cases hhas : equation.hasEllipsis with
        | true => exact ⟨some _, rfl, rfl⟩
        | false =>
          refine ⟨none, (covered_eq_of_fits (fun operand hmem => ?_) fun _ => rfl).symm, rfl⟩
          rw [← any_zip_hasEllipsis hlength, any_eq_false] at hhas
          exact (hfits operand hmem).of_not (Bool.not_eq_true _ ▸ hhas operand hmem) 0
      refine ⟨covered, ?_⟩
      rw [hplaces, hsome]
      exact ⟨⟨hfits, rfl⟩, houtput, _, ⟨huniform, hjoinable, rfl⟩, rfl⟩

theorem resolved_of_resolve (hone : ∀ term, equation.output = some term → Term.OneEllipsis term)
    (hrun : equation.resolve shapes = .ok columns) : equation.Resolved shapes columns := by
  obtain ⟨hlength, hstrided, hfits, houtput, rfl, huniform, hjoinable⟩ := resolve_eq_ok_iff.1 hrun
  refine ⟨hlength, hstrided, hfits, ?_, rfl, ?_, expandTerm_eq _ _ _, huniform, ?_⟩
  · cases hgiven : equation.output with
    | none => exact admits_outputTerm hgiven
    | some output =>
      have hterm : equation.outputTerm = output := by rw [Equation.outputTerm, hgiven]
      rw [hgiven] at houtput
      rw [hterm] at houtput ⊢
      obtain ⟨-, hnodup, hsubset, hhas⟩ := checkOutput_eq_ok_iff.1 (houtput rfl)
      exact ⟨hnodup, hsubset, hone output hgiven, hhas.symm.trans⟩
  · rw [Equation.inputLabels, map_map]
    exact map_congr_left fun term _ => expandTerm_eq _ _ term
  · exact fun axis hmem => hjoinable.agree hmem

theorem Equation.Sound.resolved (hsound : equation.Sound)
    (hrun : equation.resolve shapes = .ok columns) : equation.Resolved shapes columns :=
  resolved_of_resolve hsound.output hrun

end Resolving

/-! ## Resolved columns -/

theorem exists_of_count_map {β γ : Type} [DecidableEq β] [DecidableEq γ] {f : β → γ} {items : List β}
    (hinjective : ∀ a ∈ items, ∀ b ∈ items, f a = f b → a = b) {image : γ}
    (hcount : 1 < (items.map f).count image) : ∃ a, f a = image ∧ 1 < items.count a := by
  obtain ⟨a, ha, rfl⟩ := mem_map.1 (count_pos_iff.1 (Nat.zero_lt_of_lt hcount))
  refine ⟨a, rfl, ?_⟩
  rw [List.count, countP_map] at hcount
  rw [List.count]
  apply hcount.trans_le
  apply countP_mono_left
  intro b hb hsame
  simp only [Function.comp_apply, beq_iff_eq] at hsame ⊢
  exact hinjective b hb a ha hsame

/-- A letter that stands twice in a term is one of its repeated letters. -/
theorem mem_repeatedLetters {term : Term} {c : Char} (hcount : 1 < term.letters.count c) :
    c ∈ repeatedLetters term := by
  rw [repeatedLetters, (sorted_perm _ _).mem_iff, mem_filter, mem_eraseDups]
  exact ⟨count_pos_iff.1 (Nat.zero_lt_of_lt hcount), decide_eq_true hcount⟩

theorem eq_of_count_axisLabels {places : Nat} {term : Term} (hone : Term.OneEllipsis term)
    (hrepeated : (repeatedLetters term).length ≤ 1) {a b : AxisLabel}
    (ha : 1 < (axisLabels places term).count a) (hb : 1 < (axisLabels places term).count b) :
    a = b := by
  have hletter : ∀ label, 1 < (axisLabels places term).count label →
      ∃ c ∈ repeatedLetters term, label = .letter c := by
    intro label hcount
    cases label with
    | letter c =>
      rw [count_letter_axisLabels] at hcount
      exact ⟨c, mem_repeatedLetters hcount, rfl⟩
    | covered place =>
      have := (count_covered_axisLabels places term place).trans hone
      omega
  obtain ⟨c, hc, rfl⟩ := hletter a ha
  obtain ⟨d, hd, rfl⟩ := hletter b hb
  obtain ⟨e, hlist⟩ := length_eq_one_iff.1 (Nat.le_antisymm hrepeated (length_pos_of_mem hc))
  rw [hlist, mem_singleton] at hc hd
  rw [hc, hd]

section Columns

variable {equation : Equation} {shapes : List Shape} {columns : Columns} {label : AxisLabel}
  {ranks : List Nat}

theorem mem_flatten_inputLabels :
    label ∈ (equation.inputLabels ranks).flatten ↔
      ∃ term ∈ equation.inputs, label ∈ axisLabels (equation.covered ranks) term := by
  rw [Equation.inputLabels, ← flatMap_def, mem_flatMap]

/-- The letters among labels of operands are listed. -/
theorem mem_sortedLetters_of_label
    (hlabel : label ∈ (equation.inputLabels ranks).flatten) (c : Char) (hletter : label = .letter c) :
    c ∈ equation.sortedLetters := by
  obtain ⟨term, hterm, hlabel⟩ := mem_flatten_inputLabels.1 hlabel
  rw [hletter, letter_mem_axisLabels] at hlabel
  exact Equation.mem_sortedLetters.2 (letters_subset hterm hlabel)

/-- Labels of operands have columns of their own. -/
theorem columnOf_inj_of_mem (a : AxisLabel)
    (ha : a ∈ (equation.inputLabels ranks).flatten) (b : AxisLabel)
    (hb : b ∈ (equation.inputLabels ranks).flatten)
    (hsame : columnOf equation.sortedLetters a = columnOf equation.sortedLetters b) : a = b :=
  columnOf_injective (mem_sortedLetters_of_label ha) (mem_sortedLetters_of_label hb) hsame

/-- The labels of the output are labels of operands. -/
theorem Equation.Admits.labels_subset (hadmits : equation.Admits equation.outputTerm)
    (ranks : List Nat) : equation.outputLabels ranks ⊆ (equation.inputLabels ranks).flatten := by
  intro label hlabel
  rw [mem_flatten_inputLabels]
  cases label with
  | letter c =>
    have hc := hadmits.subset ((letter_mem_axisLabels _ _ _).1 hlabel)
    obtain ⟨term, hterm, hc⟩ := mem_flatMap.1 hc
    exact ⟨term, hterm, (letter_mem_axisLabels _ _ _).2 hc⟩
  | covered place =>
    obtain ⟨hplace, hhas⟩ := (covered_mem_axisLabels _ _ _).1 hlabel
    obtain ⟨term, hterm, hhas⟩ := any_eq_true.1 (hadmits.ellipsis hhas)
    exact ⟨term, hterm, (covered_mem_axisLabels _ _ _).2 ⟨hplace, hhas⟩⟩

namespace Equation.Resolved

variable (hresolved : equation.Resolved shapes columns)

include hresolved

/-- The columns are those of labels of operands. -/
theorem mem_iff {column : Nat} :
    column < columns.count ↔ ∃ label ∈ (equation.inputLabels (shapes.map Shape.rank)).flatten,
      columnOf equation.sortedLetters label = column := by
  simp only [hresolved.count_eq, mem_flatten_inputLabels]
  constructor
  · intro hbelow
    by_cases hletter : column < equation.sortedLetters.length
    · have hmem := Equation.mem_sortedLetters.1 (getElem_mem hletter)
      obtain ⟨term, hterm, hc⟩ := mem_flatMap.1 hmem
      refine ⟨.letter (equation.sortedLetters.get ⟨column, hletter⟩), ?_, ?_⟩
      · exact ⟨term, hterm, (letter_mem_axisLabels _ _ _).2 hc⟩
      · exact equation.nodup_sortedLetters.idxOf_getElem column hletter
    · have hfound : ((equation.inputs.zip shapes).find? (·.1.hasEllipsis)).isSome = true := by
        by_contra hnone
        rw [Option.not_isSome_iff_eq_none] at hnone
        rw [covered_eq_getD, hnone] at hbelow
        exact hletter hbelow
      obtain ⟨operand, hoperand, hhas⟩ := find?_isSome.1 hfound
      refine ⟨.covered (column - equation.sortedLetters.length), ?_, ?_⟩
      · exact ⟨_, (of_mem_zip hoperand).1, (covered_mem_axisLabels _ _ _).2 ⟨by omega, hhas⟩⟩
      · rw [columnOf]
        omega
  · rintro ⟨label, ⟨term, hterm, hlabel⟩, rfl⟩
    exact columnOf_lt (letters_subset hterm) hlabel

/-- A column for every label. -/
theorem range_perm :
    (List.range columns.count).Perm
      ((equation.inputLabels (shapes.map Shape.rank)).flatten.dedup.map
        (columnOf equation.sortedLetters)) := by
  rw [perm_ext_iff_of_nodup nodup_range]
  · intro column
    simp only [mem_range, hresolved.mem_iff, mem_map, mem_dedup]
  · apply List.Nodup.map_on _ (nodup_dedup _)
    intro a ha b hb hsame
    exact columnOf_inj_of_mem a (mem_dedup.1 ha) b (mem_dedup.1 hb) hsame

/-- Columns have the lengths of their labels. -/
theorem labelLen_columnOf (lens : List (List Nat))
    (hlabel : label ∈ (equation.inputLabels (shapes.map Shape.rank)).flatten) :
    labelLen columns.inputs lens (columnOf equation.sortedLetters label) =
      labelLen (equation.inputLabels (shapes.map Shape.rank)) lens label := by
  rw [labelLen, hresolved.inputs_eq, labelledAxes_map]
  exact commonLen_map columnOf_inj_of_mem (fun _ hmem => mem_flatten_of_mem_labelledAxes hmem) hlabel

theorem map_output (lens : List (List Nat)) :
    columns.output.map (labelLen columns.inputs lens) =
      (equation.outputLabels (shapes.map Shape.rank)).map
        (labelLen (equation.inputLabels (shapes.map Shape.rank)) lens) := by
  rw [hresolved.output_eq, map_map]
  apply map_congr_left
  intro label hlabel
  exact hresolved.labelLen_columnOf lens (hresolved.admits.labels_subset _ hlabel)

theorem exists_strided {s : Shape} (hs : s ∈ shapes) :
    ∃ axes, s = .strided s.elem axes := by
  have hstrided := hresolved.strided s hs
  cases s with
  | strided elem axes => exact ⟨axes, rfl⟩
  | ranged elem dims => cases hstrided
  | tuple elem parts => simp [Shape.isTuple] at hstrided

theorem rank_eq {s : Shape} (hs : s ∈ shapes) : s.rank = s.lens.length := by
  obtain ⟨axes, haxes⟩ := hresolved.exists_strided hs
  rw [haxes, Shape.rank_strided, Shape.lens_strided, Layout.length_lens]

/-- Terms have a label for every axis. -/
theorem length_labels (hone : ∀ term ∈ equation.inputs, Term.OneEllipsis term) {term : Term}
    {shape : Shape} (hoperand : (term, shape) ∈ equation.inputs.zip shapes) :
    (axisLabels (equation.covered (shapes.map Shape.rank)) term).length = shape.lens.length := by
  have hterm := hone term (of_mem_zip hoperand).1
  have hrank := (hresolved.fits _ hoperand).rank_eq
  rw [length_axisLabels, ← hresolved.rank_eq (of_mem_zip hoperand).2, hrank]
  by_cases hhas : term.hasEllipsis = true
  · have hcount : term.count .ellipsis = 1 :=
      Nat.le_antisymm hterm (count_pos_iff.2 (contains_iff_mem.1 hhas))
    rw [if_pos hhas, hcount, Nat.one_mul]
  · have hcount : term.count .ellipsis = 0 :=
      count_eq_zero_of_not_mem fun hmem => hhas (contains_iff_mem.2 hmem)
    rw [if_neg hhas, hcount, Nat.zero_mul]

theorem arranged (hone : ∀ term ∈ equation.inputs, Term.OneEllipsis term) :
    Arranged columns (shapes.map Shape.lens) := by
  have hlabels : ∀ own ∈ columns.inputs, ∃ term ∈ equation.inputs,
      own = (axisLabels (equation.covered (shapes.map Shape.rank)) term).map
        (columnOf equation.sortedLetters) := by
    intro own hown
    rw [hresolved.inputs_eq, Equation.inputLabels, map_map] at hown
    obtain ⟨term, hterm, rfl⟩ := mem_map.1 hown
    exact ⟨term, hterm, rfl⟩
  have hmem : ∀ term ∈ equation.inputs,
      ∀ label ∈ axisLabels (equation.covered (shapes.map Shape.rank)) term,
        label ∈ (equation.inputLabels (shapes.map Shape.rank)).flatten :=
    fun term hterm _ hlabel => mem_flatten_inputLabels.2 ⟨term, hterm, hlabel⟩
  have houtput := hresolved.admits.labels_subset (shapes.map Shape.rank)
  refine ⟨?_, ?_, ?_, ?_, hresolved.agree, ?_, ?_⟩
  · intro own hown column hcolumn
    obtain ⟨term, hterm, rfl⟩ := hlabels own hown
    obtain ⟨label, hlabel, rfl⟩ := mem_map.1 hcolumn
    exact hresolved.mem_iff.2 ⟨label, hmem term hterm label hlabel, rfl⟩
  · rw [hresolved.inputs_eq, Equation.inputLabels, map_map, forall₂_map_left_iff,
      forall₂_map_right_iff, forall₂_iff_zip]
    refine ⟨hresolved.length_eq, fun hoperand => ?_⟩
    rw [Function.comp_apply, length_map]
    exact hresolved.length_labels hone hoperand
  · intro own hown a b ha hb
    obtain ⟨term, hterm, rfl⟩ := hlabels own hown
    have hinjective := fun a ha b hb =>
      @columnOf_inj_of_mem equation _ a (hmem term hterm a ha) b (hmem term hterm b hb)
    obtain ⟨label, rfl, hlabel⟩ := exists_of_count_map hinjective ha
    obtain ⟨label', rfl, hlabel'⟩ := exists_of_count_map hinjective hb
    obtain ⟨shape, hoperand⟩ := exists_mem_zip hresolved.length_eq hterm
    rw [eq_of_count_axisLabels (hone term hterm) (hresolved.fits _ hoperand).repeated hlabel
      hlabel']
  · intro operand hoperand
    rw [zip_map_right] at hoperand
    obtain ⟨⟨own, shape⟩, hpair, rfl⟩ := mem_map.1 hoperand
    exact hresolved.uniform _ hpair
  · rw [hresolved.output_eq]
    apply List.Nodup.map_on _ (nodup_axisLabels hresolved.admits.nodup hresolved.admits.one)
    intro a ha b hb hsame
    exact columnOf_inj_of_mem a (houtput ha) b (houtput hb) hsame
  · rw [hresolved.output_eq, hresolved.inputs_eq, ← map_flatten]
    exact map_subset _ houtput

end Equation.Resolved

end Columns

end TensorGraph.Einsum
