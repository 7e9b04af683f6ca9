import TensorGraph.Proofs.Einsum.Resolution

/-!
# The grammar of equations

Reading accepts exactly the texts in which labels, commas and an arrow are written, and gives back the
labels. While a text is read, `Progress.Rest` says what may still come.
-/

namespace TensorGraph.Einsum

open List

variable {c : Char} {equation : Equation}

/-! ## Written forms -/

/-- A label that can be written: the ellipsis, or a letter from `a` to `z` in either case. -/
def Label.Plain : Label → Prop
  | .letter c => ('a' ≤ c ∧ c ≤ 'z') ∨ ('A' ≤ c ∧ c ≤ 'Z')
  | .ellipsis => True

instance (label : Label) : Decidable label.Plain :=
  match label with
  | .letter _ => inferInstanceAs (Decidable (_ ∨ _))
  | .ellipsis => .isTrue trivial

/-- A sequence of labels that can be written as a term. -/
@[mk_iff]
structure Term.Writable (term : Term) : Prop where
  plain : ∀ label ∈ term, label.Plain
  ellipsis : Term.OneEllipsis term

instance (term : Term) : Decidable term.OneEllipsis := inferInstanceAs (Decidable (_ ≤ 1))

instance (term : Term) : Decidable term.Writable :=
  decidable_of_iff _ (Term.writable_iff term).symm

/-- The labels of a term with nothing between them. -/
def Term.characters (term : Term) : List Char := term.flatMap fun label => label.text.toList

/-- Blank, tab, line feed, form feed and carriage return, in any number and order. -/
def Blanks (cs : List Char) : Prop := ∀ c ∈ cs, c ∈ [' ', '\t', '\n', '\x0c', '\r']

/-- A term is written as its labels with blanks around them. -/
inductive Term.Written : Term → List Char → Prop
  | intro {term : Term} {before after : List Char} (hwritable : Term.Writable term)
      (hbefore : Blanks before) (hafter : Blanks after) :
      Term.Written term (before ++ term.characters ++ after)

/-- An equation is written as its terms with commas between them, and an arrow before the output. -/
inductive Equation.Written : Equation → List Char → Prop
  | last {term : Term} {piece : List Char} (hterm : Term.Written term piece) :
      Equation.Written ⟨[term], none⟩ piece
  | arrow {term output : Term} {piece final : List Char} (hterm : Term.Written term piece)
      (houtput : Term.Written output final) :
      Equation.Written ⟨[term], some output⟩ (piece ++ '-' :: '>' :: final)
  | comma {term : Term} {equation : Equation} {piece rest : List Char}
      (hterm : Term.Written term piece) (hrest : Equation.Written equation rest) :
      Equation.Written ⟨term :: equation.inputs, equation.output⟩ (piece ++ ',' :: rest)

/-- The shortest written form of a term. -/
def Term.text (term : Term) : String := String.join (term.map Label.text)

/-- The shortest written form of an equation. -/
def Equation.text (equation : Equation) : String :=
  ",".intercalate (equation.inputs.map Term.text) ++
    match equation.output with
    | some output => "->" ++ Term.text output
    | none => ""

theorem isLetter_iff : isLetter c = true ↔ (Label.letter c).Plain := by
  have hupper : c.isUpper = true ↔ 'A' ≤ c ∧ c ≤ 'Z' := decide_eq_true_iff
  have hlower : c.isLower = true ↔ 'a' ≤ c ∧ c ≤ 'z' :=
    Bool.and_eq_true_iff.trans (and_congr decide_eq_true_iff decide_eq_true_iff)
  exact Bool.or_eq_true_iff.trans (or_comm.trans (or_congr hlower hupper))

theorem isPlainBlank_iff : Text.isPlainBlank c = true ↔ c ∈ [' ', '\t', '\n', '\x0c', '\r'] := by
  simp [Text.isPlainBlank, or_assoc]

theorem Blanks.nil : Blanks [] := fun _ hmem => absurd hmem not_mem_nil

theorem Blanks.cons {cs : List Char} (hblank : Text.isPlainBlank c = true) (hblanks : Blanks cs) :
    Blanks (c :: cs) :=
  forall_mem_cons.2 ⟨isPlainBlank_iff.1 hblank, hblanks⟩

theorem Blanks.append {cs ds : List Char} (hleft : Blanks cs) (hright : Blanks ds) :
    Blanks (cs ++ ds) :=
  forall_mem_append.2 ⟨hleft, hright⟩

namespace Term.Writable

variable {term tail : Term}

theorem of_append (hwritable : Term.Writable (term ++ tail)) : Term.Writable term := by
  refine ⟨fun label hmem => hwritable.plain label (mem_append_left _ hmem), ?_⟩
  have hcount := hwritable.ellipsis
  unfold Term.OneEllipsis at hcount ⊢
  rw [count_append] at hcount
  omega

theorem letter {c : Char} (hwritable : Term.Writable term) (hletter : isLetter c = true) :
    Term.Writable (term ++ [.letter c]) := by
  refine ⟨?_, ?_⟩
  · intro label hmem
    rcases mem_append.1 hmem with hold | hnew
    · exact hwritable.plain label hold
    · exact mem_singleton.1 hnew ▸ isLetter_iff.1 hletter
  · have hcount : (term ++ [Label.letter c]).count .ellipsis = term.count .ellipsis := by simp
    exact hcount.le.trans hwritable.ellipsis

theorem append_ellipsis (hwritable : Term.Writable term) (hnone : ¬ term.hasEllipsis = true) :
    Term.Writable (term ++ [.ellipsis]) := by
  refine ⟨?_, ?_⟩
  · intro label hmem
    rcases mem_append.1 hmem with hold | hnew
    · exact hwritable.plain label hold
    · exact mem_singleton.1 hnew ▸ trivial
  · have hfree : Label.ellipsis ∉ term := fun hmem => hnone (contains_iff_mem.2 hmem)
    have hcount : (term ++ [Label.ellipsis]).count .ellipsis = 1 := by
      rw [count_append, count_eq_zero_of_not_mem hfree]
      rfl
    exact hcount.le

end Term.Writable

/-! ## What a text holds that was read -/

namespace Progress

/-- The labels that complete the current term, and how they are written. Blanks come first only if the
term has no labels yet, and no label comes after a blank that closed it. -/
structure Tail (p : Progress) (tail : Term) (piece : List Char) : Prop where
  writable : Term.Writable (p.term ++ tail)
  /-- The labels stand together with blanks around them. -/
  written : ∃ before after, Blanks before ∧ Blanks after ∧
    piece = before ++ tail.characters ++ after ∧ (before = [] ∨ p.term = [] ∨ tail = [])
  closed : p.closedBy.isSome = true → tail = []

/-- A rest of the text, and the equation that it completes. -/
inductive Rest (p : Progress) : List Char → Equation → Prop
  | output {tail : Term} {piece : List Char} (hout : p.inOutput = true) (htail : p.Tail tail piece) :
      Rest p piece ⟨p.inputs, some (p.term ++ tail)⟩
  | last {tail : Term} {piece : List Char} (hin : p.inOutput = false) (htail : p.Tail tail piece) :
      Rest p piece ⟨p.inputs ++ [p.term ++ tail], none⟩
  | arrow {tail output : Term} {piece final : List Char} (hin : p.inOutput = false)
      (htail : p.Tail tail piece) (houtput : Term.Written output final) :
      Rest p (piece ++ '-' :: '>' :: final) ⟨p.inputs ++ [p.term ++ tail], some output⟩
  | comma {tail : Term} {equation : Equation} {piece rest : List Char} (hin : p.inOutput = false)
      (htail : p.Tail tail piece) (hrest : Equation.Written equation rest) :
      Rest p (piece ++ ',' :: rest)
        ⟨p.inputs ++ (p.term ++ tail) :: equation.inputs, equation.output⟩

variable {p q : Progress} {tail : Term} {piece cs : List Char} {equation : Equation}

theorem Tail.nil (hwritable : Term.Writable p.term) : p.Tail [] [] := by
  refine ⟨by rwa [append_nil], ?_, fun _ => rfl⟩
  exact ⟨[], [], Blanks.nil, Blanks.nil, rfl, .inl rfl⟩

theorem Tail.term_written (hterm : p.term = []) (htail : p.Tail tail piece) :
    Term.Written tail piece := by
  obtain ⟨before, after, hbefore, hafter, rfl, -⟩ := htail.written
  have hwritable := htail.writable
  rw [hterm, nil_append] at hwritable
  exact .intro hwritable hbefore hafter

theorem Tail.blank {found : Located} (hblank : Text.isPlainBlank found.char = true)
    (htail : (p.blank found).Tail tail piece) : p.Tail tail (found.char :: piece) := by
  obtain ⟨before, after, hbefore, hafter, rfl, hfirst⟩ := htail.written
  have hwritable := htail.writable
  have hclosed := htail.closed
  -- A blank closes the term, comes after it was closed, or comes before its first label.
  have hcases : p.term = [] ∨ tail = [] := by
    unfold Progress.blank at hclosed
    split at hclosed
    next hskip =>
      rcases Bool.or_eq_true_iff.1 hskip with hempty | hsome
      · exact .inl (List.isEmpty_iff.1 hempty)
      · exact .inr (hclosed hsome)
    next => exact .inr (hclosed rfl)
  have hterm : (p.blank found).term = p.term := by
    unfold Progress.blank
    split <;> rfl
  rw [hterm] at hwritable
  refine ⟨hwritable, ⟨found.char :: before, after, hbefore.cons hblank, hafter, rfl, .inr hcases⟩, ?_⟩
  intro hsome
  apply hclosed
  unfold Progress.blank
  rw [if_pos (by rw [hsome, Bool.or_true])]
  exact hsome

theorem Tail.label {label : Label} (hopen : p.closedBy = none)
    (htail : (p.label label).Tail tail piece) :
    p.Tail (label :: tail) (label.text.toList ++ piece) := by
  obtain ⟨before, after, hbefore, hafter, rfl, hfirst⟩ := htail.written
  have hwritable : Term.Writable (p.term ++ label :: tail) := by
    have := htail.writable
    rwa [Progress.label, append_assoc] at this
  refine ⟨hwritable, ?_, fun hsome => by rw [hopen] at hsome; cases hsome⟩
  have hnonempty : (p.label label).term ≠ [] :=
    append_ne_nil_of_right_ne_nil _ (cons_ne_nil _ _)
  have hcharacters : Term.characters (label :: tail) = label.text.toList ++ tail.characters := rfl
  rcases hfirst with rfl | hterm | rfl
  · refine ⟨[], after, Blanks.nil, hafter, ?_, .inl rfl⟩
    rw [hcharacters]
    simp
  · exact absurd hterm hnonempty
  · refine ⟨[], before ++ after, Blanks.nil, hbefore.append hafter, ?_, .inl rfl⟩
    rw [hcharacters]
    simp [Term.characters]

/-- Characters that the reader takes into the current term come before its rest. -/
theorem Rest.step (front : List Char) (hinputs : q.inputs = p.inputs)
    (houtput : q.inOutput = p.inOutput)
    (htails : ∀ tail piece, q.Tail tail piece →
      ∃ tail', p.Tail tail' (front ++ piece) ∧ p.term ++ tail' = q.term ++ tail)
    (hrest : q.Rest cs equation) : p.Rest (front ++ cs) equation := by
  cases hrest with
  | output hout htail =>
    obtain ⟨tail', htail', hterm⟩ := htails _ _ htail
    rw [hinputs, ← hterm]
    exact .output (houtput ▸ hout) htail'
  | last hin htail =>
    obtain ⟨tail', htail', hterm⟩ := htails _ _ htail
    rw [hinputs, ← hterm]
    exact .last (houtput ▸ hin) htail'
  | arrow hin htail hwritten =>
    obtain ⟨tail', htail', hterm⟩ := htails _ _ htail
    rw [hinputs, ← hterm, ← append_assoc]
    exact .arrow (houtput ▸ hin) htail' hwritten
  | comma hin htail hwritten =>
    obtain ⟨tail', htail', hterm⟩ := htails _ _ htail
    rw [hinputs, ← hterm, ← append_assoc]
    exact .comma (houtput ▸ hin) htail' hwritten

theorem Rest.blank {found : Located} (hblank : Text.isPlainBlank found.char = true)
    (hrest : (p.blank found).Rest cs equation) : p.Rest (found.char :: cs) equation := by
  have hsame : (p.blank found).inputs = p.inputs ∧ (p.blank found).inOutput = p.inOutput ∧
      (p.blank found).term = p.term := by
    unfold Progress.blank
    split <;> exact ⟨rfl, rfl, rfl⟩
  refine Rest.step [found.char] hsame.1 hsame.2.1 ?_ hrest
  intro tail piece htail
  exact ⟨tail, htail.blank hblank, by rw [hsame.2.2]⟩

theorem Rest.label (label : Label) (hopen : p.closedBy = none)
    (hrest : (p.label label).Rest cs equation) : p.Rest (label.text.toList ++ cs) equation := by
  refine Rest.step _ (q := p.label label) rfl rfl ?_ hrest
  intro tail piece htail
  exact ⟨label :: tail, htail.label hopen, by rw [Progress.label, append_assoc]; rfl⟩

/-- After a comma the rest is an equation of its own. -/
theorem Rest.comma_of_finishTerm (hwritable : Term.Writable p.term) (hin : p.inOutput = false)
    (hrest : (p.finishTerm false).Rest cs equation) : p.Rest (',' :: cs) equation := by
  have hcomma : ∀ {e : Equation}, Equation.Written e cs →
      p.Rest (',' :: cs) ⟨(p.inputs ++ [p.term]) ++ e.inputs, e.output⟩ := by
    intro e hwritten
    have := Rest.comma hin (Tail.nil hwritable) hwritten
    rwa [nil_append, append_nil, append_cons p.inputs] at this
  cases hrest with
  | output hout _ => cases hout
  | last _ htail => exact hcomma (.last (htail.term_written rfl))
  | arrow _ htail houtput => exact hcomma (.arrow (htail.term_written rfl) houtput)
  | comma _ htail hwritten => exact hcomma (.comma (htail.term_written rfl) hwritten)

theorem Rest.arrow_of_finishTerm (hwritable : Term.Writable p.term) (hin : p.inOutput = false)
    (hrest : (p.finishTerm true).Rest cs equation) : p.Rest ('-' :: '>' :: cs) equation := by
  cases hrest with
  | output _ htail =>
    have := Rest.arrow hin (Tail.nil hwritable) (htail.term_written rfl)
    rwa [append_nil, nil_append] at this
  | last hfalse _ => cases hfalse
  | arrow hfalse _ _ => cases hfalse
  | comma hfalse _ _ => cases hfalse

end Progress

theorem rest_of_readFrom {p : Progress} {rest : List Located} (hwritable : Term.Writable p.term)
    (hread : readFrom p rest = .ok equation) : p.Rest (rest.map Located.char) equation := by
  fun_induction readFrom p rest with
  | case1 p =>
    cases hread
    have htail := Progress.Tail.nil hwritable
    unfold Progress.finish
    cases hout : p.inOutput with
    | true => simpa using Progress.Rest.output hout htail
    | false => simpa using Progress.Rest.last hout htail
  | case2 p found rest hblank ih =>
    refine Progress.Rest.blank hblank (ih ?_ hread)
    unfold Progress.blank
    split <;> exact hwritable
  | case4 p found rest _ hcomma hin ih =>
    rw [map_cons, hcomma]
    exact .comma_of_finishTerm hwritable (Bool.eq_false_of_not_eq_true hin)
      (ih ⟨fun _ hmem => absurd hmem not_mem_nil, Nat.zero_le 1⟩ hread)
  | case6 p found _ _ hdash _ rest hin ih =>
    rw [map_cons, hdash]
    exact .arrow_of_finishTerm hwritable (Bool.eq_false_of_not_eq_true hin)
      (ih ⟨fun _ hmem => absurd hmem not_mem_nil, Nat.zero_le 1⟩ hread)
  | case9 p found rest _ _ _ _ hopen hletter ih =>
    have hrest := Progress.Rest.label (.letter found.char) hopen (ih (hwritable.letter hletter) hread)
    rwa [Label.text, String.toList_singleton] at hrest
  | case11 p found _ _ _ hfirst hopen hletter _ _ rest hnone ih =>
    have hdot : found.char = '.' := by
      rcases Bool.or_eq_true_iff.1 hfirst with hdot | hother
      · exact of_decide_eq_true hdot
      · exact absurd hother hletter
    rw [map_cons, hdot]
    exact Progress.Rest.label .ellipsis hopen (ih (hwritable.append_ellipsis hnone) hread)
  | case3 | case5 | case7 | case8 | case10 | case12 | case13 => cases hread

theorem Equation.written_of_readFrom {rest : List Located}
    (hread : readFrom .start rest = .ok equation) :
    Equation.Written equation (rest.map Located.char) := by
  have hrest : Progress.start.Rest (rest.map Located.char) equation :=
    rest_of_readFrom ⟨fun _ hmem => absurd hmem not_mem_nil, Nat.zero_le 1⟩ hread
  generalize rest.map Located.char = cs at hrest ⊢
  cases hrest with
  | output hout _ => cases hout
  | last _ htail => exact .last (htail.term_written rfl)
  | arrow _ htail houtput => exact .arrow (htail.term_written rfl) houtput
  | comma _ htail hwritten => exact .comma (htail.term_written rfl) hwritten

theorem map_char_locate (position : Nat) (cs : List Char) :
    (locate position cs).map Located.char = cs := by
  induction cs generalizing position with
  | nil => rfl
  | cons c cs ih => rw [locate, map_cons, ih]

/-! ## Written texts are read -/

section Steps

variable {p : Progress} {found : Located} {rest : List Located}

theorem readFrom_blank (hblank : Text.isPlainBlank found.char = true) :
    readFrom p (found :: rest) = readFrom (p.blank found) rest := by
  rw [readFrom.eq_def]
  exact if_pos hblank

theorem readFrom_comma (hin : p.inOutput = false) (position : Nat) :
    readFrom p (⟨position, ','⟩ :: rest) = readFrom (p.finishTerm false) rest := by
  rw [readFrom.eq_def]
  simp [hin, Text.isPlainBlank]

theorem readFrom_arrow (hin : p.inOutput = false) (position position' : Nat) :
    readFrom p (⟨position, '-'⟩ :: ⟨position', '>'⟩ :: rest) = readFrom (p.finishTerm true) rest := by
  rw [readFrom.eq_def]
  simp [hin, Text.isPlainBlank]

theorem readFrom_letter (hopen : p.closedBy = none) (hletter : isLetter found.char = true) :
    readFrom p (found :: rest) = readFrom (p.label (.letter found.char)) rest := by
  have hblank : Text.isPlainBlank found.char = false := by
    rw [← Bool.not_eq_true, isPlainBlank_iff]
    intro hmem
    simp only [mem_cons, not_mem_nil, or_false] at hmem
    rcases hmem with heq | heq | heq | heq | heq <;> exact absurd (heq ▸ hletter) (by decide)
  have hcomma : found.char ≠ ',' := fun heq => absurd (heq ▸ hletter) (by decide)
  have hdash : found.char ≠ '-' := fun heq => absurd (heq ▸ hletter) (by decide)
  rw [readFrom.eq_def]
  simp [hblank, hcomma, hdash, hletter, hopen]

theorem readFrom_ellipsis (hopen : p.closedBy = none) (hnone : p.term.hasEllipsis = false)
    (first second third : Nat) :
    readFrom p (⟨first, '.'⟩ :: ⟨second, '.'⟩ :: ⟨third, '.'⟩ :: rest) =
      readFrom (p.label .ellipsis) rest := by
  have hletter : isLetter '.' = false := by decide
  rw [readFrom.eq_def]
  simp [hopen, hnone, hletter, Text.isPlainBlank]

end Steps

section Reading

variable {p : Progress} {term : Term} {piece : List Char}

/-- Blanks move the reader on. They change nothing but what closed the current term, and not that
while the term has no labels. -/
theorem readFrom_blanks {blanks : List Char} (hblanks : Blanks blanks) (p : Progress)
    (position : Nat) (cs : List Char) :
    ∃ position' closed, readFrom p (locate position (blanks ++ cs)) =
        readFrom { p with closedBy := closed } (locate position' cs) ∧
      (p.term = [] → closed = p.closedBy) := by
  induction blanks generalizing p position with
  | nil => exact ⟨position, p.closedBy, rfl, fun _ => rfl⟩
  | cons c blanks ih =>
    obtain ⟨hblank, hblanks⟩ := forall_mem_cons.1 hblanks
    obtain ⟨position', closed, hread, hclosed⟩ :=
      ih hblanks (p.blank ⟨position, c⟩) (position + c.utf8Size)
    refine ⟨position', closed, ?_, ?_⟩
    · rw [cons_append, locate, readFrom_blank (isPlainBlank_iff.2 hblank), hread]
      unfold Progress.blank
      split <;> rfl
    · intro hterm
      unfold Progress.blank at hclosed
      rw [if_pos (by rw [hterm]; rfl)] at hclosed
      exact hclosed hterm

theorem readFrom_label {label : Label} (hopen : p.closedBy = none)
    (hwritable : Term.Writable (p.term ++ [label])) (position : Nat) (cs : List Char) :
    ∃ position', readFrom p (locate position (label.text.toList ++ cs)) =
      readFrom (p.label label) (locate position' cs) := by
  cases label with
  | letter c =>
    have hletter : isLetter c = true := isLetter_iff.2 (hwritable.plain (.letter c) (by simp))
    refine ⟨position + c.utf8Size, ?_⟩
    rw [Label.text, String.toList_singleton]
    exact @readFrom_letter p ⟨position, c⟩ _ hopen hletter
  | ellipsis =>
    have hnone : p.term.hasEllipsis = false := by
      by_contra hsome
      have hcount := hwritable.ellipsis
      have hpos := count_pos_iff.2 (contains_iff_mem.1 (eq_true_of_ne_false hsome))
      unfold Term.OneEllipsis at hcount
      rw [count_append, count_singleton_self] at hcount
      omega
    exact ⟨_, readFrom_ellipsis hopen hnone position _ _⟩

theorem readFrom_characters (hopen : p.closedBy = none) (hwritable : Term.Writable (p.term ++ term))
    (position : Nat) (cs : List Char) :
    ∃ position', readFrom p (locate position (term.characters ++ cs)) =
      readFrom { p with term := p.term ++ term } (locate position' cs) := by
  induction term generalizing p position with
  | nil => exact ⟨position, by simp [Term.characters]⟩
  | cons label term ih =>
    have hsplit : p.term ++ label :: term = p.term ++ [label] ++ term := append_cons ..
    rw [hsplit] at hwritable
    obtain ⟨middle, hlabel⟩ :=
      readFrom_label hopen hwritable.of_append position (Term.characters term ++ cs)
    obtain ⟨position', hterm⟩ := ih (p := p.label label) hopen hwritable middle
    refine ⟨position', ?_⟩
    have hcharacters : Term.characters (label :: term) = label.text.toList ++ Term.characters term := rfl
    rw [hcharacters, append_assoc, hlabel, hterm, hsplit]
    rfl

theorem readFrom_term (hterm : Term.Written term piece) (inputs : List Term) (inOutput : Bool)
    (position : Nat) (cs : List Char) :
    ∃ position' closed, readFrom ⟨inputs, [], inOutput, none⟩ (locate position (piece ++ cs)) =
      readFrom ⟨inputs, term, inOutput, closed⟩ (locate position' cs) := by
  obtain @⟨before, after, hwritable, hbefore, hafter⟩ := hterm
  obtain ⟨_, closed, hread, hclosed⟩ := readFrom_blanks hbefore ⟨inputs, [], inOutput, none⟩ position
    (Term.characters term ++ (after ++ cs))
  obtain rfl := hclosed rfl
  obtain ⟨_, hlabels⟩ := readFrom_characters (p := ⟨inputs, [], inOutput, none⟩) rfl hwritable _
    (after ++ cs)
  obtain ⟨position', closed, hend, -⟩ := readFrom_blanks hafter ⟨inputs, term, inOutput, none⟩ _ cs
  refine ⟨position', closed, ?_⟩
  rw [append_assoc, append_assoc, hread]
  exact hlabels.trans hend

theorem readFrom_written {equation : Equation} {cs : List Char}
    (hwritten : Equation.Written equation cs) (inputs : List Term) (position : Nat) :
    readFrom ⟨inputs, [], false, none⟩ (locate position cs) =
      .ok ⟨inputs ++ equation.inputs, equation.output⟩ := by
  induction hwritten generalizing inputs position with
  | last hterm =>
    obtain ⟨_, _, hread⟩ := readFrom_term hterm inputs false position []
    rw [append_nil] at hread
    rw [hread]
    rfl
  | @arrow term output piece final hterm houtput =>
    obtain ⟨middle, _, hread⟩ := readFrom_term hterm inputs false position ('-' :: '>' :: final)
    obtain ⟨_, _, hfinal⟩ := readFrom_term houtput (inputs ++ [term]) true
      (middle + '-'.utf8Size + '>'.utf8Size) []
    rw [append_nil] at hfinal
    rw [hread, locate, locate, readFrom_arrow rfl]
    exact hfinal
  | @comma term equation piece rest hterm _ ih =>
    obtain ⟨middle, _, hread⟩ := readFrom_term hterm inputs false position (',' :: rest)
    rw [hread, locate, readFrom_comma rfl, append_cons inputs]
    exact ih (inputs ++ [term]) _

end Reading

theorem Equation.parse_eq_ok_iff_written {text : String} :
    Equation.parse text = .ok equation ↔ Equation.Written equation text.toList := by
  constructor
  · intro hparsed
    have hwritten := Equation.written_of_readFrom hparsed
    rwa [map_char_locate] at hwritten
  · intro hwritten
    exact readFrom_written hwritten [] 0

/-- The terms that are written can be written. -/
theorem Equation.Written.writable {cs : List Char} (hwritten : Equation.Written equation cs) :
    (∀ term ∈ equation.inputs, Term.Writable term) ∧
      ∀ term, equation.output = some term → Term.Writable term := by
  have hterm : ∀ {term : Term} {piece : List Char}, Term.Written term piece → Term.Writable term := by
    rintro _ _ ⟨hwritable, -, -⟩
    exact hwritable
  induction hwritten with
  | last hpiece => exact ⟨by simpa using hterm hpiece, nofun⟩
  | arrow hpiece hfinal =>
    refine ⟨by simpa using hterm hpiece, ?_⟩
    rintro _ ⟨⟩
    exact hterm hfinal
  | comma hpiece _ ih => exact ⟨forall_mem_cons.2 ⟨hterm hpiece, ih.1⟩, ih.2⟩

theorem Equation.sound_of_parse {text : String} (hparsed : Equation.parse text = .ok equation) :
    equation.Sound := by
  have hwritten := parse_eq_ok_iff_written.1 hparsed
  obtain ⟨hinputs, houtput⟩ := hwritten.writable
  refine ⟨?_, fun term hmem => (hinputs term hmem).ellipsis, fun term hsome => (houtput term hsome).ellipsis⟩
  generalize text.toList = cs at hwritten
  cases hwritten <;> exact cons_ne_nil _ _

/-! ## Shortest forms -/

theorem Term.toList_text (term : Term) : (Term.text term).toList = term.characters := by
  induction term with
  | nil => rfl
  | cons label term ih =>
    rw [Term.text, map_cons, String.join_cons, String.toList_append]
    exact congrArg (label.text.toList ++ ·) ih

theorem Term.Writable.written {term : Term} (hwritable : Term.Writable term) :
    Term.Written term (Term.text term).toList := by
  have hwritten := Term.Written.intro hwritable Blanks.nil Blanks.nil
  rwa [nil_append, append_nil, ← Term.toList_text] at hwritten

theorem Equation.written_text {inputs : List Term} {output : Option Term} (hnonempty : inputs ≠ [])
    (hinputs : ∀ term ∈ inputs, Term.Writable term)
    (houtput : ∀ term, output = some term → Term.Writable term) :
    Equation.Written ⟨inputs, output⟩ (Equation.text ⟨inputs, output⟩).toList := by
  induction inputs with
  | nil => exact absurd rfl hnonempty
  | cons term inputs ih =>
    obtain ⟨hterm, hinputs⟩ := forall_mem_cons.1 hinputs
    cases inputs with
    | nil =>
      cases output with
      | none => simpa [Equation.text] using Equation.Written.last hterm.written
      | some output =>
        simpa [Equation.text] using
          Equation.Written.arrow hterm.written (houtput output rfl).written
    | cons next inputs =>
      have hrest := ih (cons_ne_nil _ _) hinputs
      simpa [Equation.text] using Equation.Written.comma hterm.written hrest

/-- Reading accepts exactly the written forms of equations and gives back what is written. So every
equation with an operand whose labels can be written is read back from its shortest form. -/
theorem Equation.parse_accepts_written_forms :
    (∀ (text : String) (equation : Equation),
      Equation.parse text = .ok equation ↔ Equation.Written equation text.toList) ∧
    ∀ equation : Equation, equation.inputs ≠ [] →
      (∀ term ∈ equation.inputs ++ equation.output.toList, Term.Writable term) →
      Equation.parse equation.text = .ok equation := by
  refine ⟨fun text equation => parse_eq_ok_iff_written, ?_⟩
  rintro ⟨inputs, output⟩ hnonempty hterms
  obtain ⟨hinputs, houtput⟩ := forall_mem_append.1 hterms
  apply parse_eq_ok_iff_written.2
  apply written_text hnonempty hinputs
  rintro term rfl
  exact houtput term (Option.mem_toList.2 rfl)

/-- A product over unnamed axes with an operand that has none. -/
def scaledBatch : Equation :=
  ⟨[[.ellipsis, .letter 'i', .letter 'J'], []], some [.letter 'J', .ellipsis]⟩

theorem Equation.parse_scaledBatch_text :
    Equation.parse scaledBatch.text = .ok scaledBatch ∧
    Equation.Written scaledBatch "\t...iJ , -> J...".toList := by
  constructor
  · apply parse_accepts_written_forms.2
    · decide
    · decide
  · exact (parse_accepts_written_forms.1 _ _).1 (by decide +kernel)

/-- One ellipsis per term is not enough for an equation to be read back: without operands the shortest
form is that of one operand without labels, and a letter may be one that no equation can have. -/
theorem Equation.not_parse_text_of_oneEllipsis :
    (¬ ∀ equation : Equation,
      (∀ term ∈ equation.inputs ++ equation.output.toList, Term.OneEllipsis term) →
      Equation.parse equation.text = .ok equation) ∧
    ¬ ∀ equation : Equation, equation.inputs ≠ [] →
      (∀ term ∈ equation.inputs ++ equation.output.toList, Term.OneEllipsis term) →
      Equation.parse equation.text = .ok equation := by
  constructor
  · intro hclaim
    have hparsed := hclaim ⟨[], none⟩ (by decide)
    exact absurd hparsed (by decide +kernel)
  · intro hclaim
    have hparsed := hclaim ⟨[[.letter '1']], none⟩ (by decide) (by decide)
    exact absurd hparsed (by decide +kernel)

end TensorGraph.Einsum
