import TensorGraph.Proofs.Outcomes

/-!
# Positions in a buffer

`position` is where a layout keeps a logical index, `extent` the last position that it uses, and `volume`
the number of indices.
-/

namespace TensorGraph

open List

variable {lens index : List Nat}

namespace Word

variable {a b n : Nat} {values : List Nat}

theorem ofNat_eq_ok_iff : ofNat a = .ok n ↔ n = a ∧ a < limit := by
  unfold ofNat
  split_ifs with hfits <;> simp [hfits, eq_comm]

theorem add_eq_ok_iff : add a b = .ok n ↔ n = a + b ∧ a + b < limit := ofNat_eq_ok_iff

theorem mul_eq_ok_iff : mul a b = .ok n ↔ n = a * b ∧ a * b < limit := ofNat_eq_ok_iff

/-- The exact sum. -/
def total : List Nat → Nat
  | [] => 0
  | value :: values => value + total values

theorem foldlM_add_eq_ok_iff (ha : a < limit) :
    values.foldlM add a = .ok n ↔ n = a + total values ∧ n < limit := by
  induction values generalizing a with
  | nil => simp only [foldlM_nil, Except.pure_eq_ok, Except.ok.injEq, total]; omega
  | cons value values ih =>
    rw [foldlM_cons, bind_eq_ok_iff, total]
    constructor
    · rintro ⟨middle, hmiddle, hrest⟩
      obtain ⟨rfl, hfits⟩ := add_eq_ok_iff.1 hmiddle
      rw [ih hfits] at hrest
      omega
    · rintro ⟨rfl, hfits⟩
      refine ⟨a + value, add_eq_ok_iff.2 ⟨rfl, by omega⟩, (ih (by omega)).2 ?_⟩
      omega

/-- A sum that fits is exact: no partial sum is greater. -/
theorem sum_eq_ok_iff : sum values = .ok n ↔ n = total values ∧ n < limit := by
  rw [sum, foldlM_add_eq_ok_iff (by decide), Nat.zero_add]

theorem le_total_of_mem (hmem : a ∈ values) : a ≤ total values := by
  induction values with
  | nil => cases hmem
  | cons value values ih =>
    rcases mem_cons.1 hmem with rfl | hmem
    · exact Nat.le_add_right _ _
    · exact Nat.le_trans (ih hmem) (Nat.le_add_left _ _)

/-- A sum of computed terms that fits is the sum of the exact terms. -/
theorem sum_mapM_eq_ok_iff {β : Type} {items : List β} {term : β → Checked Nat} {exact : β → Nat}
    (hterm : ∀ item ∈ items, ∀ k, term item = .ok k ↔ k = exact item ∧ k < limit) :
    (items.mapM term >>= sum) = .ok n ↔ n = total (items.map exact) ∧ n < limit := by
  rw [bind_eq_ok_iff]
  have hterms : ∀ terms, items.mapM term = .ok terms → terms = items.map exact := by
    intro terms hrun
    induction items generalizing terms with
    | nil =>
      cases hrun
      rfl
    | cons item items ih =>
      rw [mapM_cons] at hrun
      obtain ⟨first, hfirst, hrun⟩ := bind_eq_ok_iff.1 hrun
      obtain ⟨rest, hrest, hrun⟩ := bind_eq_ok_iff.1 hrun
      cases hrun
      rw [((hterm item mem_cons_self first).1 hfirst).1,
        ih (fun item hmem => hterm item (mem_cons_of_mem _ hmem)) rest hrest,
        map_cons]
  constructor
  · rintro ⟨terms, hrun, hsum⟩
    rw [hterms terms hrun] at hsum
    exact sum_eq_ok_iff.1 hsum
  · rintro ⟨rfl, hfits⟩
    refine ⟨items.map exact, mapM_eq_ok_iff.2 ?_, sum_eq_ok_iff.2 ⟨rfl, hfits⟩⟩
    rw [forall₂_map_right_iff, forall₂_same]
    exact fun item hmem => (hterm item hmem _).2 ⟨rfl, Nat.lt_of_le_of_lt
      (le_total_of_mem (mem_map_of_mem hmem)) hfits⟩

end Word

/-- The number of logical indices of these lengths. -/
def volume : List Nat → Nat
  | [] => 1
  | len :: lens => len * volume lens

theorem foldl_mul_eq_volume (lens : List Nat) (start : Nat) :
    lens.foldl (· * ·) start = start * volume lens := by
  induction lens generalizing start with
  | nil => simp [volume]
  | cons len lens ih => rw [foldl_cons, ih, volume, Nat.mul_assoc]

theorem volume_append (xs ys : List Nat) : volume (xs ++ ys) = volume xs * volume ys := by
  induction xs with
  | nil => simp [volume]
  | cons len xs ih => rw [cons_append, volume, volume, ih, Nat.mul_assoc]

theorem volume_eq_zero_iff : volume lens = 0 ↔ 0 ∈ lens := by
  induction lens with
  | nil => simp [volume]
  | cons len lens ih => rw [volume, Nat.mul_eq_zero, ih, mem_cons, eq_comm]

theorem volume_pos_iff : 0 < volume lens ↔ 0 ∉ lens := by
  rw [Nat.pos_iff_ne_zero, ne_eq, volume_eq_zero_iff]

theorem volume_perm {xs ys : List Nat} (hperm : xs.Perm ys) : volume xs = volume ys := by
  induction hperm with
  | nil => rfl
  | cons len _ ih => rw [volume, volume, ih]
  | swap a b lens => simp only [volume]; rw [Nat.mul_left_comm]
  | trans _ _ ihFirst ihSecond => exact ihFirst.trans ihSecond

theorem Word.foldlM_mul_eq_ok_iff {start n : Nat} (hstart : start < limit) :
    lens.foldlM mul start = .ok n ↔
      n = start * volume lens ∧ ∀ outer, outer <+: lens → start * volume outer < limit := by
  induction lens generalizing start with
  | nil => simp [Except.pure_eq_ok, volume, hstart, eq_comm]
  | cons len lens ih =>
    rw [foldlM_cons, bind_eq_ok_iff, volume, ← Nat.mul_assoc]
    constructor
    · rintro ⟨middle, hmiddle, hrest⟩
      obtain ⟨rfl, hfits⟩ := mul_eq_ok_iff.1 hmiddle
      obtain ⟨hn, hinner⟩ := (ih hfits).1 hrest
      refine ⟨hn, fun outer houter => ?_⟩
      rcases prefix_cons_iff.1 houter with rfl | ⟨outer, rfl, hbelow⟩
      · rwa [volume, Nat.mul_one]
      · rw [volume, ← Nat.mul_assoc]
        exact hinner outer hbelow
    · rintro ⟨hn, hall⟩
      have hinner : ∀ outer, outer <+: lens → start * len * volume outer < limit := by
        intro outer houter
        rw [Nat.mul_assoc]
        exact hall (len :: outer) ((prefix_cons_inj len).2 houter)
      have hfits : start * len < limit := by simpa [volume] using hinner [] nil_prefix
      exact ⟨_, mul_eq_ok_iff.2 ⟨rfl, hfits⟩, (ih hfits).2 ⟨hn, hinner⟩⟩

/-- A product that was computed is exact, and so was every partial product. -/
theorem Word.product_eq_ok_iff {n : Nat} :
    product lens = .ok n ↔ n = volume lens ∧ ∀ outer, outer <+: lens → volume outer < limit := by
  rw [product, foldlM_mul_eq_ok_iff (by decide)]
  simp only [Nat.one_mul]

/-- The product of the lengths that are not zero. Products over some of the axes stay below it also
where an axis is empty. -/
def bulk (lens : List Nat) : Nat := volume (lens.map (max 1))

theorem bulk_cons (len : Nat) (lens : List Nat) : bulk (len :: lens) = max 1 len * bulk lens := rfl

theorem bulk_pos (lens : List Nat) : 0 < bulk lens := by
  rw [bulk, volume_pos_iff, mem_map]
  rintro ⟨len, -, hzero⟩
  omega

theorem volume_le_bulk (lens : List Nat) : volume lens ≤ bulk lens := by
  induction lens with
  | nil => exact Nat.le_refl _
  | cons len lens ih => exact Nat.mul_le_mul (Nat.le_max_right 1 len) ih

theorem bulk_of_pos {lens : List Nat} (hpos : 0 ∉ lens) : bulk lens = volume lens := by
  induction lens with
  | nil => rfl
  | cons len lens ih =>
    rw [mem_cons, not_or] at hpos
    rw [bulk_cons, ih hpos.2, volume, Nat.max_eq_right (Nat.pos_of_ne_zero (Ne.symm hpos.1))]

theorem bulk_le_of_sublist {xs ys : List Nat} (hsub : xs.Sublist ys) : bulk xs ≤ bulk ys := by
  induction hsub with
  | slnil => exact Nat.le_refl _
  | cons len _ ih => exact Nat.le_trans ih (Nat.le_mul_of_pos_left _ (by omega))
  | cons_cons len _ ih => exact Nat.mul_le_mul_left _ ih

/-- No partial product exceeds the product of the lengths that are not zero. -/
theorem Word.product_of_bulk {lens : List Nat} (hfits : bulk lens < limit) :
    product lens = .ok (volume lens) := by
  refine product_eq_ok_iff.2 ⟨rfl, fun outer houter => ?_⟩
  exact Nat.lt_of_le_of_lt
    (Nat.le_trans (volume_le_bulk outer) (bulk_le_of_sublist houter.sublist)) hfits

/-- Without a zero among the factors no partial product exceeds the whole one. -/
theorem Word.product_of_pos (hpos : 0 ∉ lens) (hfits : volume lens < limit) :
    product lens = .ok (volume lens) :=
  product_of_bulk (by rwa [bulk_of_pos hpos])

/-- A logical index has an entry below the length of every axis. -/
abbrev InRange (index lens : List Nat) : Prop := Forall₂ (· < ·) index lens

theorem InRange.zero_notMem (hrange : InRange index lens) : 0 ∉ lens := by
  induction hrange with
  | nil => simp
  | cons hfirst _ ih =>
    rw [mem_cons, not_or]
    exact ⟨Nat.ne_of_lt (Nat.zero_lt_of_lt hfirst), ih⟩

theorem mem_indicesFrom_iff : index ∈ indicesFrom lens ↔ InRange index lens := by
  induction lens generalizing index with
  | nil => simp [indicesFrom]
  | cons len lens ih =>
    simp only [indicesFrom, mem_flatMap, mem_range, mem_map, ih,
      forall₂_cons_right_iff]
    constructor
    · rintro ⟨first, hfirst, rest, hrest, rfl⟩
      exact ⟨first, rest, hfirst, hrest, rfl⟩
    · rintro ⟨first, rest, hfirst, hrest, rfl⟩
      exact ⟨first, hfirst, rest, hrest, rfl⟩

theorem mem_indices_iff : index ∈ indices lens ↔ InRange index lens := by
  unfold indices
  split_ifs with hzero
  · refine ⟨fun hmem => absurd hmem not_mem_nil, fun hrange => ?_⟩
    exact absurd (by simpa using hzero) hrange.zero_notMem
  · exact mem_indicesFrom_iff

theorem length_indicesFrom (lens : List Nat) : (indicesFrom lens).length = volume lens := by
  induction lens with
  | nil => rfl
  | cons len lens ih => simp [indicesFrom, volume, length_flatMap, ih, map_const']

namespace Layout

variable {axes : Layout} {n : Nat} {index : List Nat}

/-- The exact buffer position of a logical index. -/
def position : Layout → List Nat → Nat
  | axis :: axes, i :: index => i * axis.stride + position axes index
  | _, _ => 0

@[simp]
theorem position_nil (index : List Nat) : position [] index = 0 := by
  cases index <;> rfl

@[simp]
theorem position_nil_right (axes : Layout) : position axes [] = 0 := by
  cases axes <;> rfl

@[simp]
theorem position_cons (axis : Axis) (axes : Layout) (i : Nat) (index : List Nat) :
    position (axis :: axes) (i :: index) = i * axis.stride + position axes index := rfl

theorem total_zip_strides (axes : Layout) (index : List Nat) :
    Word.total ((index.zip axes.strides).map fun entry => entry.1 * entry.2) =
      axes.position index := by
  induction axes generalizing index with
  | nil => simp [strides, Word.total]
  | cons axis axes ih =>
    cases index with
    | nil => rfl
    | cons i index =>
      rw [position_cons, ← ih index]
      rfl

/-- An offset that fits is the exact position. -/
theorem offset_eq_ok_iff :
    axes.offset index = .ok n ↔ n = axes.position index ∧ n < Word.limit := by
  rw [← total_zip_strides]
  refine Word.sum_mapM_eq_ok_iff fun entry _ k => ?_
  rw [Word.mul_eq_ok_iff]
  constructor
  · rintro ⟨rfl, hfits⟩
    exact ⟨rfl, hfits⟩
  · rintro ⟨rfl, hfits⟩
    exact ⟨rfl, hfits⟩

/-- The last position that a layout without empty axes uses. -/
def extent : Layout → Nat
  | [] => 0
  | axis :: axes => (axis.len - 1) * axis.stride + extent axes

theorem total_extents (axes : Layout) :
    Word.total (axes.map fun axis => (axis.len - 1) * axis.stride) = axes.extent := by
  induction axes with
  | nil => rfl
  | cons axis axes ih => rw [map_cons, Word.total, ih, extent]

/-- The space of a layout without empty axes reaches just past its last position. -/
theorem space_eq_ok_iff (hpos : 0 ∉ axes.lens) :
    axes.space = .ok n ↔ n = axes.extent + 1 ∧ n < Word.limit := by
  unfold space
  rw [if_neg (by simpa using hpos), ← total_extents]
  have hlast : ∀ k, (axes.mapM (fun axis => Word.mul (axis.len - 1) axis.stride) >>= Word.sum) =
      .ok k ↔ k = Word.total (axes.map fun axis => (axis.len - 1) * axis.stride) ∧
        k < Word.limit := by
    intro k
    refine Word.sum_mapM_eq_ok_iff fun axis _ m => ?_
    rw [Word.mul_eq_ok_iff]
    exact ⟨fun ⟨heq, hfits⟩ => ⟨heq, heq ▸ hfits⟩, fun ⟨heq, hfits⟩ => ⟨heq, heq ▸ hfits⟩⟩
  change (axes.mapM (fun axis => Word.mul (axis.len - 1) axis.stride) >>= fun terms =>
    Word.sum terms >>= fun last => Word.add last 1) = .ok n ↔ _
  rw [← bind_assoc, bind_eq_ok_iff]
  constructor
  · rintro ⟨last, hrun, hadd⟩
    obtain ⟨rfl, -⟩ := (hlast last).1 hrun
    obtain ⟨rfl, hfits⟩ := Word.add_eq_ok_iff.1 hadd
    exact ⟨rfl, hfits⟩
  · rintro ⟨rfl, hfits⟩
    exact ⟨_, (hlast _).2 ⟨rfl, by omega⟩, Word.add_eq_ok_iff.2 ⟨rfl, hfits⟩⟩

theorem space_of_zero_mem (hzero : 0 ∈ axes.lens) : axes.space = .ok 0 := by
  unfold space
  rw [if_pos (by simpa using hzero)]

theorem space_lt (hspace : axes.space = .ok n) : n < Word.limit := by
  by_cases hzero : 0 ∈ axes.lens
  · rw [space_of_zero_mem hzero, Except.ok.injEq] at hspace
    exact hspace ▸ (by decide)
  · exact ((space_eq_ok_iff hzero).1 hspace).2

theorem position_le_extent (hrange : InRange index axes.lens) :
    axes.position index ≤ axes.extent := by
  induction axes generalizing index with
  | nil => simp
  | cons axis axes ih =>
    obtain ⟨i, rest, hfirst, hrest, rfl⟩ := forall₂_cons_right_iff.1 hrange
    rw [position_cons, extent]
    exact Nat.add_le_add (Nat.mul_le_mul_right _ (Nat.le_sub_one_of_lt hfirst)) (ih hrest)

/-- Every logical index lies in the space of its layout. -/
theorem position_lt_space (hspace : axes.space = .ok n) (hrange : InRange index axes.lens) :
    axes.position index < n := by
  obtain ⟨rfl, -⟩ := (space_eq_ok_iff hrange.zero_notMem).1 hspace
  exact Nat.lt_succ_of_le (position_le_extent hrange)

/-- In a layout whose space fits, the offset of a logical index is its exact position. -/
theorem offset_of_inRange (hspace : axes.space = .ok n) (hrange : InRange index axes.lens) :
    axes.offset index = .ok (axes.position index) := by
  obtain ⟨rfl, hfits⟩ := (space_eq_ok_iff hrange.zero_notMem).1 hspace
  refine offset_eq_ok_iff.2 ⟨rfl, ?_⟩
  exact Nat.lt_of_le_of_lt (Nat.le_trans (position_le_extent hrange) (Nat.le_add_right _ 1)) hfits

end Layout

end TensorGraph
