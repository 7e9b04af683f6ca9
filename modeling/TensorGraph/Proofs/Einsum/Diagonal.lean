import Mathlib.Algebra.Order.Ring.GeomSum
import TensorGraph.Proofs.Einsum.Labels

/-!
# The diagonal of a repeated column

A column that an operand has several times is flattened into one axis, from which the positions with equal
entries are gathered.
-/

namespace TensorGraph.Einsum

open Graph Layout List

/-! ## Repeated items -/

section Repeats

variable {β : Type} [BEq β] [LawfulBEq β] {seen items : List β} {item : β}

theorem firstRepeat?_eq_none (hnone : firstRepeat? seen items = none) :
    items.Nodup ∧ ∀ item ∈ items, item ∉ seen := by
  induction items generalizing seen with
  | nil => exact ⟨.nil, by simp⟩
  | cons first items ih =>
    unfold firstRepeat? at hnone
    by_cases hseen : seen.contains first = true
    · rw [if_pos hseen] at hnone
      cases hnone
    · rw [if_neg hseen] at hnone
      obtain ⟨hnodup, hfresh⟩ := ih hnone
      have hfirst : first ∉ items := fun hmem => hfresh first hmem mem_cons_self
      refine ⟨nodup_cons.2 ⟨hfirst, hnodup⟩, forall_mem_cons.2 ⟨?_, ?_⟩⟩
      · rw [contains_iff_mem] at hseen
        exact hseen
      · intro item hmem hold
        exact hfresh item hmem (mem_cons_of_mem _ hold)

theorem firstRepeat?_eq_some (hsome : firstRepeat? seen items = some item) :
    item ∈ items ∧ (item ∈ seen ∨ 1 < items.count item) := by
  induction items generalizing seen with
  | nil => cases hsome
  | cons first items ih =>
    unfold firstRepeat? at hsome
    by_cases hseen : seen.contains first = true
    · rw [if_pos hseen] at hsome
      cases hsome
      exact ⟨mem_cons_self, .inl (contains_iff_mem.1 hseen)⟩
    · rw [if_neg hseen] at hsome
      obtain ⟨hmem, hrepeat⟩ := ih hsome
      refine ⟨mem_cons_of_mem _ hmem, ?_⟩
      rcases hrepeat with hold | hmore
      · rcases mem_cons.1 hold with rfl | hold
        · right
          rw [count_cons_self]
          have := count_pos_iff.2 hmem
          omega
        · exact .inl hold
      · right
        exact hmore.trans_le count_le_count_cons

end Repeats

/-! ## Steps along the diagonal -/

/-- How far apart neighbours on the diagonal are. -/
def diagonalStep (axes len : Nat) : Nat := ∑ exponent ∈ Finset.range axes, len ^ exponent

theorem diagonalStep_succ (axes len : Nat) :
    diagonalStep (axes + 1) len = diagonalStep axes len + len ^ axes :=
  Finset.sum_range_succ _ _

theorem power?_eq_some_iff {base exponent value : Nat} :
    power? base exponent = some value ↔ base ^ exponent < Word.limit ∧ base ^ exponent = value :=
  Option.ite_none_right_eq_some.trans (and_congr_right' Option.some_inj)

theorem diagonalStep?_eq_some_iff {axes len step : Nat} :
    diagonalStep? axes len = some step ↔
      diagonalStep axes len < Word.limit ∧ diagonalStep axes len = step := by
  simp only [diagonalStep?, Option.bind_eq_bind]
  induction axes generalizing step with
  | zero => simp [diagonalStep, Word.limit]
  | succ axes ih =>
    rw [range_succ, foldlM_append, diagonalStep_succ]
    simp only [Option.bind_eq_bind, Option.bind_eq_some_iff, ih, foldlM_cons, foldlM_nil,
      power?_eq_some_iff, Option.pure_def, Option.some.injEq, Option.ite_none_right_eq_some]
    constructor
    · rintro ⟨_, ⟨-, rfl⟩, _, ⟨_, ⟨-, rfl⟩, hfits, rfl⟩, rfl⟩
      exact ⟨hfits, rfl⟩
    · rintro ⟨hfits, rfl⟩
      exact ⟨_, ⟨by omega, rfl⟩, _, ⟨_, ⟨by omega, rfl⟩, hfits, rfl⟩, rfl⟩

theorem diagonalStep_lt {axes len : Nat} (haxes : axes < Word.limit)
    (hfits : len ^ axes < Word.limit) : diagonalStep axes len < Word.limit := by
  rcases Nat.lt_or_ge 1 len with hlong | hshort
  · have hbelow : diagonalStep axes len < len ^ axes :=
      Nat.geomSum_lt hlong fun exponent hmem => Finset.mem_range.1 hmem
    exact hbelow.trans hfits
  · have hle : diagonalStep axes len ≤ ∑ _exponent ∈ Finset.range axes, 1 :=
      Finset.sum_le_sum fun exponent _ => pow_le_one₀ (Nat.zero_le len) hshort
    rw [← Finset.card_eq_sum_ones, Finset.card_range] at hle
    exact hle.trans_lt haxes

/-- Positions on the diagonal lie inside the cube. -/
theorem mul_diagonalStep_lt {len i : Nat} (hi : i < len) (axes : Nat) :
    i * diagonalStep axes len < len ^ axes := by
  have hrange : InRange (List.replicate axes i) (List.replicate axes len) := by
    apply forall₂_iff_get.2
    simpa using fun _ _ => hi
  have hbelow := position_rowMajor_lt hrange
  rw [position_replicate, volume_replicate] at hbelow
  exact hbelow

/-! ## Moving the repeated axes last -/

section Moving

variable {columns : List Nat} {column : Nat}

/-- Axes picked by their columns have the columns that are picked. -/
theorem reorder_filter (columns : List Nat) (p : Option Nat → Bool) :
    Permutation.reorder columns
        ((List.range columns.length).filter fun axis => p columns[axis]?) =
      .ok (columns.filter fun column => p (some column)) := by
  have hall := Permutation.reorder_eq_ok_iff.1 (Permutation.reorder_range columns)
  rw [Permutation.reorder_eq_ok_iff]
  apply rel_filter _ hall
  intro axis column haxis
  show p columns[axis]? = true ↔ p (some column) = true
  rw [haxis]

/-- The axes of other columns. -/
def keptAxes (columns : List Nat) (column : Nat) : List Nat :=
  (List.range columns.length).filter fun axis => columns[axis]? != some column

/-- The axes of a column. -/
def repeatedAxes (columns : List Nat) (column : Nat) : List Nat :=
  (List.range columns.length).filter fun axis => columns[axis]? == some column

section Axes

variable (columns column)

theorem reorder_keptAxes :
    Permutation.reorder columns (keptAxes columns column) = .ok (columns.filter (· != column)) :=
  reorder_filter columns fun found => found != some column

theorem reorder_repeatedAxes :
    Permutation.reorder columns (repeatedAxes columns column) =
      .ok (List.replicate (columns.count column) column) := by
  rw [← filter_beq]
  exact reorder_filter columns fun found => found == some column

theorem length_keptAxes :
    (keptAxes columns column).length = (columns.filter (· != column)).length :=
  (Permutation.reorder_eq_ok_iff.1 (reorder_keptAxes columns column)).length_eq

theorem length_repeatedAxes :
    (repeatedAxes columns column).length = columns.count column := by
  rw [(Permutation.reorder_eq_ok_iff.1 (reorder_repeatedAxes columns column)).length_eq,
    length_replicate]

/-- The repeated axes come last. -/
theorem reorder_repeated :
    Permutation.reorder columns (keptAxes columns column ++ repeatedAxes columns column) =
      .ok (columns.filter (· != column) ++ List.replicate (columns.count column) column) := by
  rw [Permutation.reorder_eq_ok_iff]
  exact rel_append (Permutation.reorder_eq_ok_iff.1 (reorder_keptAxes columns column))
    (Permutation.reorder_eq_ok_iff.1 (reorder_repeatedAxes columns column))

theorem repeated_perm :
    (keptAxes columns column ++ repeatedAxes columns column).Perm (List.range columns.length) := by
  have hsplit := filter_append_perm (fun axis => columns[axis]? == some column)
    (List.range columns.length)
  exact perm_append_comm.trans hsplit

theorem isPermutation_repeated :
    Permutation.isPermutation (keptAxes columns column ++ repeatedAxes columns column) = true := by
  have hperm := repeated_perm columns column
  rw [Permutation.isPermutation_iff_perm, hperm.length_eq, length_range]
  exact hperm

end Axes

/-- The first axis of a column has the length of the column. -/
theorem exists_repeatedAxis (hcount : 0 < columns.count column) (len : Nat → Nat) :
    ∃ axis, fetch (repeatedAxes columns column) 0 = .ok axis ∧
      fetch (columns.map len) axis = .ok (len column) := by
  have hall := Permutation.reorder_eq_ok_iff.1 (reorder_repeatedAxes columns column)
  obtain ⟨rest, hrest⟩ := Nat.exists_eq_succ_of_ne_zero hcount.ne'
  rw [hrest, replicate_succ] at hall
  obtain ⟨axis, others, haxis, -, hrepeated⟩ := forall₂_cons_right_iff.1 hall
  refine ⟨axis, by rw [hrepeated]; rfl, ?_⟩
  rw [fetch_eq_ok_iff, getElem?_map, haxis]
  rfl

/-- Where only one column is repeated, each column is there once after it has been merged. -/
theorem nodup_once (hcount : 1 < columns.count column)
    (honce : ∀ a b, 1 < columns.count a → 1 < columns.count b → a = b) :
    (columns.filter (· != column) ++ [column]).Nodup := by
  apply List.Nodup.append _ (nodup_singleton column)
  · intro other hother hsame
    rw [mem_singleton] at hsame
    rw [mem_filter, bne_iff_ne] at hother
    exact hother.2 hsame
  · rw [nodup_iff_count_le_one]
    intro other
    by_cases hsame : other = column
    · rw [count_eq_zero_of_not_mem]
      · exact Nat.zero_le 1
      · rw [mem_filter, bne_iff_ne]
        exact fun hother => hother.2 hsame
    · have hkept : (other != column) = true := bne_iff_ne.2 hsame
      rw [@count_filter _ _ _ (· != column) _ _ hkept]
      apply Nat.le_of_not_lt
      intro hmore
      exact hsame (honce other column hmore hcount)

theorem mem_once (hmem : column ∈ columns) (other : Nat) :
    other ∈ columns.filter (· != column) ++ [column] ↔ other ∈ columns := by
  rw [mem_append, mem_filter, bne_iff_ne, mem_singleton]
  constructor
  · rintro (hother | rfl)
    · exact hother.1
    · exact hmem
  · intro hother
    by_cases hsame : other = column
    · exact .inr hsame
    · exact .inl ⟨hother, hsame⟩

end Moving

/-! ## Gathering the diagonal -/

section Gathering

variable {α R : Type} [Scalar α] [CommSemiring R]

theorem diagonalIndices_valid {len : Nat} (hfits : len < Word.limit) (step : Nat) :
    (diagonalIndices len step : Tensor α).Valid := by
  have hspace : Layout.space [⟨len, 1⟩] = .ok len := by
    rcases Nat.eq_zero_or_pos len with rfl | hpos
    · exact space_of_zero_mem mem_cons_self
    · rw [space_eq_ok_iff (by simp [Layout.lens]; omega)]
      simp only [Layout.extent]
      omega
  apply Tensor.Valid.strided hspace
  rw [Array.size_map, Array.size_range]

theorem value_diagonalIndices {len i : Nat} (hi : i < len) (step : Nat) :
    (diagonalIndices len step : Tensor α).reading.value [i] = Scalar.ofNat (i * step) := by
  have hrange : InRange [i] (diagonalIndices len step : Tensor α).lens := .cons hi .nil
  rw [Tensor.value_reading hrange, diagonalIndices, Tensor.entry_strided, position_cons,
    position_nil, Nat.mul_one, Nat.add_zero]
  simp [hi]

/-- The position that is picked for an entry on the diagonal. -/
theorem picked_diagonal {val : α → R} (hexact : Exact val) (r : Reading α)
    {place len step i : Nat} {index : List Nat} (hindex : (index.drop place).take 1 = [i])
    (hi : i < len) (hfits : i * step < Word.signedLimit) :
    r.picked place (diagonalIndices len step : Tensor α).reading index = .ok ((i * step : Nat) : Int) := by
  obtain ⟨hnegative, htruncate⟩ := hexact.position (i * step) hfits
  show Evaluation.namedPosition _
    ((diagonalIndices len step : Tensor α).reading.value ((index.drop place).take 1)) = _
  rw [hindex, value_diagonalIndices hi, Evaluation.namedPosition, hnegative,
    if_neg Bool.false_ne_true, htruncate]

/-- What is gathered for an entry on the diagonal. -/
theorem gather_diagonal {val : α → R} (hexact : Exact val) (r : Reading α) (index : List Nat)
    {len step i : Nat} (hi : i < len) (hfits : i * step < Word.signedLimit) :
    r.gather index.length (diagonalIndices len step : Tensor α).reading (index ++ [i]) =
      r.value (index ++ [i * step]) := by
  have hindex : ((index ++ [i]).drop index.length).take 1 = [i] := by
    rw [drop_left]
    rfl
  have hafter : (index ++ [i]).drop (index.length + 1) = [] := by
    rw [drop_eq_nil_iff, length_append]
    rfl
  rw [Reading.gather, picked_diagonal hexact r hindex hi hfits]
  show r.value ((index ++ [i]).take index.length ++
    i * step :: (index ++ [i]).drop (index.length + 1)) = _
  rw [take_left, hafter]

end Gathering

namespace Frame

variable {α R : Type} [Scalar α] [CommSemiring R] {F : Frame α R} {e : Emission α}
  {node picks : NodeId} {columns kept : List Nat} {column axes : Nat} {len : Nat → Nat}
  {f : List (Tensor α) → (Nat → Nat) → R}

/-- Gathering from the flattened axes gives the column one axis. -/
theorem emits_gathered (hsized : F.Sized len)
    (hflat : F.Located e.graph node (kept.map len ++ [len column ^ axes])
      (fun point => kept.map (clip len point) ++
        [clip len point column * diagonalStep axes (len column)]) f)
    (hpicks : F.Gives e.graph picks
      (diagonalIndices (len column) (diagonalStep axes (len column)) : Tensor α).shape
      fun _ t => t = diagonalIndices (len column) (diagonalStep axes (len column)))
    (hroomy : F.Roomy (kept.map len ++ [len column ^ axes])) (haxes : 0 < axes) :
    Emits e (Emit.add (.gather (kept.length : Int)) [node, picks] []) fun node g =>
      F.Labelled g node (kept ++ [column]) len f := by
  obtain ⟨layout, hlens, hmeans⟩ := hflat
  have hrank : layout.lens.length = kept.length + 1 := by
    rw [hlens, length_append, length_map]
    rfl
  have hresolve := @Inference.resolveAxis_natCast
    (Operator.gather (kept.length : Int) : Operator α).name _ _ (Nat.lt_succ_self kept.length)
  have hout : layout.lens.take kept.length ++ Layout.lens [⟨len column, 1⟩] ++
      layout.lens.drop (kept.length + 1) = (kept ++ [column]).map len := by
    rw [← hrank, drop_length, append_nil, hlens,
      take_left' (length_map len), map_append]
    rfl
  have houtRoomy : F.Roomy ((kept ++ [column]).map len) := by
    apply hroomy.of_le
    rw [map_append, bulk_append, bulk_append]
    apply Nat.mul_le_mul_left
    apply Nat.mul_le_mul_right
    exact max_le_max_left 1 (Nat.le_self_pow haxes.ne' _)
  have hstep : ∀ i < len column, i * diagonalStep axes (len column) < Word.signedLimit := by
    intro i hi
    have hlast : len column ^ axes ∈ kept.map len ++ [len column ^ axes] :=
      mem_append_right _ mem_cons_self
    calc i * diagonalStep axes (len column) < len column ^ axes := mul_diagonalStep_lt hi axes
      _ ≤ bulk (kept.map len ++ [len column ^ axes]) := le_bulk_of_mem hlast
      _ < Word.signedLimit := hroomy.fits
  have hinfer : (Operator.gather (kept.length : Int) : Operator α).infer
      [.strided F.elem layout, .strided .float32 [⟨len column, 1⟩]] [] =
        .ok (.strided F.elem (Layout.rowMajor ((kept ++ [column]).map len))) := by
    refine Inference.gatherShape_iff.2 ⟨F.elem, layout, .float32, _, kept.length, rfl, ?_, ?_⟩
    · rw [← length_lens, hrank]
      exact hresolve
    · rw [hout, Shape.standard_of_bulk _ houtRoomy.lt_limit]
  apply emits_labelled hsized
  apply emits_located_of_gives fun hpoint => hsized.inRange hpoint _
  apply gives_add_two (.gather (kept.length : Int)) rfl trivial
    (show F.Gives _ _ (Prod.fst (_, _)) (Prod.snd (_, _)) from hmeans.gives)
    (show F.Gives _ _ (Prod.fst (_, _)) (Prod.snd (_, _)) from hpicks) hinfer
  · intro hexact hmet tensors t u ht hu
    have htlens : t.lens = layout.lens := Tensor.lens_of_shape ht.1
    rw [Shape.lens_strided, lens_rowMajor, hu.2.2]
    refine ⟨?_, houtRoomy.le_buffer hmet⟩
    intro place hplace index hindex
    rw [htlens, hrank, hresolve] at hplace
    cases hplace
    rw [map_append] at hindex
    have hlast := forall₂_drop_append _ _ _ hindex
    rw [length_map] at hlast
    obtain ⟨i, rest, hi, hrest, hdrop⟩ := forall₂_cons_right_iff.1 hlast
    obtain rfl := forall₂_nil_right_iff.1 hrest
    refine ⟨_, picked_diagonal hexact _ (by rw [hdrop]; rfl) hi (hstep i hi), ?_⟩
    have hbelow := mul_diagonalStep_lt hi axes
    have hlen : t.reading.lens.getD kept.length 0 = len column ^ axes := by
      rw [Tensor.lens_reading, htlens, hlens, getD_eq_getElem?_getD,
        getElem?_append_right (by rw [length_map]), length_map, Nat.sub_self]
      rfl
    rw [hlen, Evaluation.outside, Bool.or_eq_false_iff, decide_eq_false_iff_not,
      decide_eq_false_iff_not]
    omega
  · intro hexact tensors t u v ht hu hholds point hpoint
    have hclip := hsized.clip_lt hpoint column
    have hgather := gather_diagonal hexact t.reading (kept.map (clip len point)) hclip
      (hstep _ hclip)
    rw [length_map] at hgather
    have hplace : (kept ++ [column]).map (clip len point) =
        kept.map (clip len point) ++ [clip len point column] := map_append
    rw [hholds.entry_eq, hu.2.2, hplace]
    · rw [Operator.formula, Tensor.lens_reading, Tensor.lens_of_shape ht.1, hrank, hresolve]
      show F.val (t.reading.gather kept.length _ _) = _
      rw [hgather]
      exact val_reading ht.1 hmeans.inRange ht.2.2 hpoint
    · rw [Shape.lens_strided, lens_rowMajor]
      exact hsized.inRange hpoint _

theorem roomy_flattened (hroomy : F.Roomy (columns.map len)) (column : Nat) :
    F.Roomy ((columns.filter (· != column)).map len ++ [len column ^ columns.count column]) := by
  apply hroomy.of_le
  have hperm := perm_append_comm.trans
    (filter_append_perm (fun other => other == column) columns)
  have hrepeated := bulk_groups_le [List.replicate (columns.count column) (len column)]
  rw [map_cons, map_nil, volume_replicate, flatten_singleton] at hrepeated
  calc bulk ((columns.filter (· != column)).map len ++ [len column ^ columns.count column])
      ≤ bulk ((columns.filter (· != column)).map len ++
          List.replicate (columns.count column) (len column)) := by
        rw [bulk_append, bulk_append]
        exact Nat.mul_le_mul_left _ hrepeated
    _ = bulk ((columns.filter (· != column) ++ columns.filter (· == column)).map len) := by
        rw [map_append, filter_beq, map_replicate]
    _ = bulk (columns.map len) := bulk_perm (hperm.map len)

/-- The axes of the repeated column are flattened into one. -/
theorem emits_flattened
    (hlabelled : F.Labelled e.graph node (kept ++ List.replicate axes column) len f)
    (hroomy : F.Roomy ((kept ++ List.replicate axes column).map len))
    (hroomy' : F.Roomy (kept.map len ++ [len column ^ axes])) (haxes : 0 < axes) :
    Emits e (emitReshape node (kept.map len ++ [len column ^ axes])) fun node g =>
      F.Located g node (kept.map len ++ [len column ^ axes])
        (fun point => kept.map (clip len point) ++
          [clip len point column * diagonalStep axes (len column)]) f := by
  have hlens : (kept ++ List.replicate axes column).map len =
      kept.map len ++ List.replicate axes (len column) := by
    rw [map_append, map_replicate]
  have hvolume : volume (kept.map len ++ [len column ^ axes]) =
      volume ((kept ++ List.replicate axes column).map len) := by
    rw [hlens, volume_append, volume_append, volume_replicate, volume, volume, Nat.mul_one]
  -- An empty flattened axis comes from an empty axis at the same place.
  have hzeros : Inference.OwnZeros ((kept ++ List.replicate axes column).map len)
      (kept.map len ++ [len column ^ axes]) := by
    obtain ⟨others, rfl⟩ := Nat.exists_eq_succ_of_ne_zero haxes.ne'
    rw [hlens, replicate_succ]
    intro place hplace hzero
    rw [length_append, length_singleton] at hplace
    rcases Nat.lt_or_eq_of_le (Nat.le_of_lt_succ hplace) with hkept | rfl
    · rw [getElem?_append_left hkept] at hzero ⊢
      exact hzero
    · rw [getElem?_append_right (Nat.le_refl _), Nat.sub_self] at hzero ⊢
      exact congrArg some (Nat.pow_eq_zero.1 (Option.some.inj hzero)).1
  apply emits_reshape hlabelled.located hroomy hroomy' hzeros hvolume
  · intro point hpoint
    have hlength : (kept.map (clip len point)).length = (kept.map len).length := by
      rw [length_map, length_map]
    constructor
    · apply rel_append (hlabelled.sized.inRange hpoint kept)
      exact .cons (mul_diagonalStep_lt (hlabelled.sized.clip_lt hpoint column) axes) .nil
    · rw [hlens, map_append, map_replicate, position_rowMajor_append hlength,
        position_rowMajor_append hlength, volume_replicate, position_replicate,
        volume, volume, Nat.mul_one, position_singleton]
      rfl

/-- A repeated column is reduced to its diagonal. -/
theorem emits_diagonal (hlabelled : F.Labelled e.graph node columns len f)
    (hroomy : F.Roomy (columns.map len)) (hrank : columns.length < Word.limit)
    (honce : ∀ a b, 1 < columns.count a → 1 < columns.count b → a = b) :
    Emits e (emitDiagonal node columns) fun result g =>
      result.2.Nodup ∧ (∀ column, column ∈ result.2 ↔ column ∈ columns) ∧
        F.Labelled g result.1 result.2 len f := by
  unfold emitDiagonal
  cases hrepeat : firstRepeat? [] columns with
  | none =>
    exact .pure ⟨(firstRepeat?_eq_none hrepeat).1, fun _ => Iff.rfl, hlabelled⟩
  | some column =>
    obtain ⟨hmem, hcount⟩ := firstRepeat?_eq_some hrepeat
    replace hcount := hcount.resolve_left not_mem_nil
    have hmoved := reorder_repeated columns column
    have hflatRoomy := roomy_flattened hroomy column
    have hmovedRoomy : F.Roomy ((columns.filter (· != column) ++
        List.replicate (columns.count column) column).map len) := by
      apply hroomy.of_le (bulk_perm _).le
      rw [← filter_beq]
      exact (perm_append_comm.trans
        (filter_append_perm (fun other => other == column) columns)).map len
    have hflat : len column ^ columns.count column < Word.limit :=
      (le_bulk_of_mem (mem_append_right _ mem_cons_self)).trans_lt hflatRoomy.lt_limit
    have hpower : power? (len column) (repeatedAxes columns column).length =
        some (len column ^ columns.count column) := by
      rw [length_repeatedAxes]
      exact power?_eq_some_iff.2 ⟨hflat, rfl⟩
    have hstep : diagonalStep? (repeatedAxes columns column).length (len column) =
        some (diagonalStep (columns.count column) (len column)) := by
      rw [length_repeatedAxes]
      exact diagonalStep?_eq_some_iff.2
        ⟨diagonalStep_lt (count_le_length.trans_lt hrank) hflat, rfl⟩
    have hlen : len column < Word.limit := (Nat.le_self_pow (by omega) _).trans_lt hflat
    obtain ⟨axis, hfirst, haxis⟩ := exists_repeatedAxis (Nat.zero_lt_of_lt hcount) len
    have htake : ((columns.filter (· != column) ++
        List.replicate (columns.count column) column).map len).take
          (keptAxes columns column).length = (columns.filter (· != column)).map len := by
      rw [length_keptAxes, map_append, take_left' (length_map _)]
    apply hlabelled.located.lensOf_bind
    apply Emits.checked_bind hfirst
    apply Emits.checked_bind haxis
    unfold repeatedAxes at hpower hstep
    rw [hpower, hstep]
    apply (emits_reordered hlabelled (isPermutation_repeated columns column)
      (by rw [(repeated_perm columns column).length_eq, length_range]) hmoved).bind
    intro moved e _ hlabelled
    apply hlabelled.located.lensOf_bind
    show Emits e (emitReshape moved (List.take (keptAxes columns column).length _ ++ _) >>= _) _
    rw [htake]
    apply (emits_flattened hlabelled hmovedRoomy hflatRoomy (Nat.zero_lt_of_lt hcount)).bind
    intro flattened e _ hflattened
    apply (@gives_literal _ _ _ _ F _ _ (diagonalIndices_valid hlen _)).bind
    intro picks e hextends hpicks
    show Emits e (Emit.add (.gather ((keptAxes columns column).length : Int)) _ _ >>= _) _
    rw [length_keptAxes]
    apply (emits_gathered hlabelled.sized (hflattened.mono hextends) hpicks hflatRoomy
      (Nat.zero_lt_of_lt hcount)).bind
    intro diagonal e _ hdiagonal
    exact .pure ⟨nodup_once hcount honce, mem_once hmem, hdiagonal⟩

end Frame

end TensorGraph.Einsum
