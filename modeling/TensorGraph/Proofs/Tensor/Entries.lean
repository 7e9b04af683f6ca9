import Mathlib.Data.List.Nodup
import TensorGraph.Proofs.Layout.Dense

/-!
# What a tensor holds

The entries of a valid tensor are given by a total function, `entry`. The operations on buffers are
described by the entries of their results.
-/

namespace TensorGraph

open Layout List

/-- No empty axis, and no more indices than can be listed. -/
def Moderate (lens : List Nat) : Prop := 0 ∉ lens ∧ volume lens ≤ largestListing

theorem Moderate.volume_lt {lens : List Nat} (hmoderate : Moderate lens) :
    volume lens < Word.limit :=
  Nat.lt_of_le_of_lt hmoderate.2 (by decide)

namespace Tensor

variable {α : Type} {data : Array α} {elem : ElementType}

/-- Every buffer reaches the last position of its layout. -/
inductive Valid : Tensor α → Prop
  | strided {elem : ElementType} {axes : Layout} {data : Array α} {n : Nat}
      (hspace : axes.space = .ok n) (hsize : n ≤ data.size) : Valid (.strided elem axes data)
  | tuple {parts : List (Tensor α)} (hparts : ∀ part ∈ parts, Valid part) : Valid (.tuple parts)

theorem Valid.exists_space {axes : Layout}
    (hvalid : (Tensor.strided elem axes data).Valid) : ∃ n, axes.space = .ok n ∧ n ≤ data.size := by
  cases hvalid with
  | strided hspace hsize => exact ⟨_, hspace, hsize⟩

mutual

/-- Whether every buffer of a tensor is long enough. -/
def decidableValid : (t : Tensor α) → Decidable t.Valid
  | .strided _ axes data =>
    match hspace : axes.space with
    | .ok n => decidable_of_iff (n ≤ data.size) ⟨.strided hspace, fun hvalid => by
      obtain ⟨_, hspace', hsize⟩ := hvalid.exists_space
      rwa [Except.ok.inj (hspace.symm.trans hspace')]⟩
    | .error _ => isFalse fun hvalid => by
      obtain ⟨_, hspace', -⟩ := hvalid.exists_space
      cases hspace.symm.trans hspace'
  | .tuple parts =>
    have := decidableValids parts
    decidable_of_iff (∀ part ∈ parts, part.Valid) ⟨.tuple, fun | .tuple hparts => hparts⟩

/-- Whether all of several tensors are valid. -/
def decidableValids : (parts : List (Tensor α)) → Decidable (∀ part ∈ parts, part.Valid)
  | [] => isTrue nofun
  | part :: parts =>
    have := decidableValid part
    have := decidableValids parts
    decidable_of_iff _ forall_mem_cons.symm

end

instance : DecidablePred (@Valid α) := decidableValid

/-- A buffer is accepted under a strided shape when it is long enough. -/
theorem ofBuffer_eq_ok_iff {shape : Shape} {t : Tensor α} :
    ofBuffer shape data = .ok t ↔
      ∃ elem axes n, shape = .strided elem axes ∧ axes.space = .ok n ∧ n ≤ data.size ∧
        t = .strided elem axes data := by
  cases shape with
  | strided elem axes =>
    simp only [ofBuffer, bind_eq_ok_iff, Shape.strided.injEq]
    constructor
    · rintro ⟨n, hspace, hrun⟩
      split_ifs at hrun with hshort
      cases hrun
      exact ⟨elem, axes, n, ⟨rfl, rfl⟩, hspace, Nat.le_of_not_lt hshort, rfl⟩
    · rintro ⟨_, _, n, ⟨rfl, rfl⟩, hspace, hsize, rfl⟩
      refine ⟨n, hspace, ?_⟩
      rw [if_neg (Nat.not_lt.2 hsize)]
      rfl
  | ranged elem dims => simp [ofBuffer]
  | tuple elem parts => simp [ofBuffer]

theorem ofBuffer_valid {shape : Shape} {t : Tensor α} (hrun : ofBuffer shape data = .ok t) :
    t.Valid := by
  obtain ⟨elem, axes, n, -, hspace, hsize, rfl⟩ := ofBuffer_eq_ok_iff.1 hrun
  exact .strided hspace hsize

variable [Scalar α]

/-- What a tensor holds at a logical index. -/
def entry (t : Tensor α) (index : List Nat) : α :=
  t.data.getD (t.shape.axes.position index) Scalar.zero

theorem entry_strided (elem : ElementType) (axes : Layout) (data : Array α) (index : List Nat) :
    (Tensor.strided elem axes data).entry index =
      data.getD (axes.position index) Scalar.zero := rfl

/-- Reading a valid tensor at a logical index gives its entry. -/
theorem Valid.get_eq_entry {axes : Layout}
    (hvalid : (Tensor.strided elem axes data).Valid) {index : List Nat}
    (hrange : InRange index axes.lens) :
    (Tensor.strided elem axes data).get index =
      .ok ((Tensor.strided elem axes data).entry index) := by
  obtain ⟨n, hspace, hsize⟩ := hvalid.exists_space
  have hposition : axes.position index < data.size :=
    Nat.lt_of_lt_of_le (position_lt_space hspace hrange) hsize
  have hoffset : (Shape.strided elem axes).offset index = .ok (axes.position index) :=
    offset_of_inRange hspace hrange
  rw [get, shape, hoffset, ok_bind, Tensor.data, entry_strided, Array.getD_eq_getD_getElem?,
    Array.getElem?_eq_getElem hposition]
  rfl

end Tensor

theorem nodup_indicesFrom (lens : List Nat) : (indicesFrom lens).Nodup :=
  List.Nodup.of_map _ (map_position_indicesFrom lens ▸ nodup_range)

theorem nodup_indices (lens : List Nat) : (indices lens).Nodup := by
  unfold indices
  split_ifs
  · exact nodup_nil
  · exact nodup_indicesFrom lens

theorem length_indices (lens : List Nat) : (indices lens).length = volume lens := by
  unfold indices
  split_ifs with hzero
  · rw [volume_eq_zero_iff.2 (by simpa using hzero)]
    rfl
  · exact length_indicesFrom lens

/-- In row-major order the indices lie one after another. -/
theorem map_position_indices (lens : List Nat) :
    (indices lens).map (Layout.rowMajor lens).position = List.range (volume lens) := by
  unfold indices
  split_ifs with hzero
  · rw [volume_eq_zero_iff.2 (by simpa using hzero)]
    rfl
  · exact map_position_indicesFrom lens

/-- A list over the indices in row-major order has the term of an index at its position. -/
theorem getElem?_map_indices {β : Type} {lens index : List Nat} (f : List Nat → β)
    (hrange : InRange index lens) :
    ((indices lens).map f)[(Layout.rowMajor lens).position index]? = some (f index) := by
  obtain ⟨k, hk, hindex⟩ := getElem_of_mem (mem_indices_iff.2 hrange)
  have hposition : (Layout.rowMajor lens).position index = k := by
    have hmap := congrArg (·[k]?) (map_position_indices lens)
    simpa [hk, hindex, length_indices lens ▸ hk] using hmap
  rw [hposition, getElem?_map, getElem?_eq_getElem hk, hindex]
  rfl

namespace Tensor

variable {α : Type} [Scalar α] {data : Array α} {axes : Layout} {elem : ElementType}
  {value : List Nat → Checked α} {n : Nat} {f : List Nat → α} {items : List (List Nat)}

theorem zeros_eq_ok_iff {size : Nat} :
    zeros size = .ok data ↔ size ≤ largestBuffer ∧ data = Array.replicate size Scalar.zero := by
  unfold zeros
  split_ifs with hfits <;> simp [hfits, eq_comm]

/-- Write the value at every index of a list into a buffer. -/
def storeAll (axes : Layout) (value : List Nat → Checked α) (items : List (List Nat))
    (data : Array α) : Checked (Array α) :=
  items.foldlM (fun data index => do
    let item ← value index
    store data (← axes.offset index) item) data

/-- Values written into a dense layout are found again, and nothing else changes. -/
theorem exists_storeAll (hdense : axes.Dense) (hspace : axes.space = .ok n)
    (hrange : ∀ index ∈ items, InRange index axes.lens)
    (hnodup : items.Nodup) (hvalue : ∀ index ∈ items, value index = .ok (f index))
    (hsize : data.size = n) :
    ∃ filled, storeAll axes value items data = .ok filled ∧ filled.size = n ∧
      (∀ index ∈ items, filled.getD (axes.position index) Scalar.zero = f index) ∧
      ∀ position, (∀ index ∈ items, axes.position index ≠ position) →
        filled.getD position Scalar.zero = data.getD position Scalar.zero := by
  induction items generalizing data with
  | nil => exact ⟨data, rfl, hsize, by simp, fun _ _ => rfl⟩
  | cons index items ih =>
    rw [forall_mem_cons] at hrange hvalue
    rw [nodup_cons] at hnodup
    have hposition : axes.position index < data.size :=
      hsize ▸ position_lt_space hspace hrange.1
    have hstored : (data.set (axes.position index) (f index) hposition).size = n := by
      simpa using hsize
    obtain ⟨filled, hrun, hfilled, hitems, hothers⟩ := ih hrange.2 hnodup.2 hvalue.2 hstored
    refine ⟨filled, ?_, hfilled, ?_, ?_⟩
    · rw [storeAll, foldlM_cons, hvalue.1, ok_bind,
        offset_of_inRange hspace hrange.1, ok_bind, store, dif_pos hposition, ok_bind]
      exact hrun
    · refine forall_mem_cons.2 ⟨?_, hitems⟩
      -- No later index writes to this position, because the layout is dense.
      rw [hothers _ fun other hother heq => hnodup.1 ?_]
      · simp [Array.getD_eq_getD_getElem?, hposition]
      · rwa [← hdense.position_injective (hrange.2 other hother) hrange.1 heq]
    · intro position hfree
      rw [forall_mem_cons] at hfree
      rw [hothers position hfree.2]
      simp [Array.getD_eq_getD_getElem?, Array.getElem?_set_ne, hfree.1]

theorem tabulate_eq_storeAll (elem : ElementType) (axes : Layout) (value : List Nat → Checked α) :
    tabulate (.strided elem axes) value = (do
      let fresh ← zeros (← axes.space)
      let data ← storeAll axes value (indices axes.lens) fresh
      ofBuffer (.strided elem axes) data) := by
  unfold tabulate storeAll
  simp only [foldIndicesM_eq_foldlM]
  rfl

/-- Tabulating in a dense layout gives the tensor with the tabulated entries. -/
theorem exists_tabulate (hdense : axes.Dense) (hspace : axes.space = .ok n)
    (hfits : n ≤ largestBuffer)
    (hvalue : ∀ index, InRange index axes.lens → value index = .ok (f index)) :
    ∃ data, tabulate (.strided elem axes) value = .ok (.strided elem axes data) ∧
      (Tensor.strided elem axes data).Valid ∧
      ∀ index, InRange index axes.lens → (Tensor.strided elem axes data).entry index = f index := by
  have hfresh : (Array.replicate n (Scalar.zero : α)).size = n := Array.size_replicate
  obtain ⟨data, hrun, hsize, hentries, -⟩ :=
    exists_storeAll hdense hspace (fun _ => mem_indices_iff.1) (nodup_indices axes.lens)
      (fun index hmem => hvalue index (mem_indices_iff.1 hmem)) hfresh
  refine ⟨data, ?_, .strided hspace (Nat.le_of_eq hsize.symm), fun index hrange => ?_⟩
  · rw [tabulate_eq_storeAll, hspace, ok_bind, zeros_eq_ok_iff.2 ⟨hfits, rfl⟩, ok_bind, hrun,
      ok_bind]
    exact ofBuffer_eq_ok_iff.2 ⟨elem, axes, n, rfl, hspace, (Nat.le_of_eq hsize.symm), rfl⟩
  · exact hentries index (mem_indices_iff.2 hrange)

omit [Scalar α] in
theorem forall_of_storeAll_eq_ok {filled : Array α}
    (hrun : storeAll axes value items data = .ok filled) :
    ∀ index ∈ items, ∃ item, value index = .ok item := by
  induction items generalizing data with
  | nil => simp
  | cons index items ih =>
    rw [storeAll, foldlM_cons] at hrun
    obtain ⟨middle, hfirst, hrest⟩ := bind_eq_ok_iff.1 hrun
    obtain ⟨item, hitem, -⟩ := bind_eq_ok_iff.1 hfirst
    exact forall_mem_cons.2 ⟨⟨item, hitem⟩, ih hrest⟩

/-- What tabulating must have found: a strided shape whose space can be addressed, and a value at
every index. -/
theorem tabulate_eq_ok {shape : Shape} {t : Tensor α} (hrun : tabulate shape value = .ok t) :
    ∃ elem axes n, shape = .strided elem axes ∧ axes.space = .ok n ∧ n ≤ largestBuffer ∧
      t.shape = shape ∧ ∀ index, InRange index axes.lens → ∃ item, value index = .ok item := by
  have hlast := hrun
  unfold tabulate at hlast
  obtain ⟨space, -, hlast⟩ := bind_eq_ok_iff.1 hlast
  obtain ⟨fresh, -, hlast⟩ := bind_eq_ok_iff.1 hlast
  obtain ⟨data, -, hlast⟩ := bind_eq_ok_iff.1 hlast
  obtain ⟨elem, axes, n, rfl, hspace, -, rfl⟩ := ofBuffer_eq_ok_iff.1 hlast
  rw [tabulate_eq_storeAll] at hrun
  obtain ⟨space, hspace', hrun⟩ := bind_eq_ok_iff.1 hrun
  obtain ⟨fresh, hzeros, hrun⟩ := bind_eq_ok_iff.1 hrun
  obtain ⟨data', hstore, -⟩ := bind_eq_ok_iff.1 hrun
  refine ⟨elem, axes, space, rfl, hspace', (zeros_eq_ok_iff.1 hzeros).1, rfl, ?_⟩
  exact fun index hrange => forall_of_storeAll_eq_ok hstore index (mem_indices_iff.2 hrange)

/-- The front of a buffer in the row-major layout lists the entries. -/
theorem extract_eq_map_entry (elem : ElementType) {lens : List Nat}
    (hsize : volume lens ≤ data.size) :
    (data.extract 0 (volume lens)).toList =
      (indices lens).map (Tensor.strided elem (Layout.rowMajor lens) data).entry := by
  have hentries : (indices lens).map (Tensor.strided elem (Layout.rowMajor lens) data).entry =
      (List.range (volume lens)).map (data.getD · Scalar.zero) := by
    rw [← map_position_indices, map_map]
    rfl
  rw [hentries]
  refine ext_getElem (by simp [Nat.min_eq_left hsize]) fun k _ hk => ?_
  have hbelow : k < data.size := Nat.lt_of_lt_of_le (by simpa using hk) hsize
  simp [hbelow]

variable (hvalid : (Tensor.strided elem axes data).Valid)

include hvalid

theorem map_get_indices :
    (indices axes.lens).mapM (Tensor.strided elem axes data).get =
      .ok ((indices axes.lens).map (Tensor.strided elem axes data).entry) := by
  rw [mapM_eq_ok_iff, forall₂_map_right_iff, forall₂_same]
  exact fun index hmem => hvalid.get_eq_entry (mem_indices_iff.1 hmem)

/-- A standard layout is listed if its indices can be counted, another one if there is room for all of
them. A listing is the list of entries in row-major order. -/
theorem Valid.toList_eq_ok_iff {values : List α} :
    (Tensor.strided elem axes data).toList = .ok values ↔
      values = (indices axes.lens).map (Tensor.strided elem axes data).entry ∧
        ((axes.isStandard = .ok true ∧ ∃ n, axes.elements = .ok n) ∨
          (axes.isStandard = .ok false ∧ volume axes.lens ≤ largestListing)) := by
  rw [toList]
  cases hdecided : axes.isStandard with
  | error fault => simp
  | ok standard =>
    cases standard with
    | true =>
      obtain ⟨m, hspace, hsize⟩ := hvalid.exists_space
      obtain ⟨heq, -⟩ := standard_eq_ok_iff.1 (isStandard_eq_ok_true_iff.1 hdecided)
      have hdense : axes.Dense := heq ▸ rowMajor_dense _
      rw [hdense.space_eq_volume hspace] at hsize
      have hextract := extract_eq_map_entry elem hsize
      rw [← heq] at hextract
      rw [ok_bind, if_pos rfl]
      cases hcount : axes.elements with
      | error fault => simp
      | ok n =>
        obtain ⟨rfl, -⟩ := Word.product_eq_ok_iff.1 hcount
        rw [ok_bind, if_neg (Nat.not_lt.2 hsize), hextract]
        simp [Except.pure_eq_ok, eq_comm]
    | false =>
      rw [ok_bind, if_neg Bool.false_ne_true, listIndices, foldl_mul_eq_volume, Nat.one_mul]
      split_ifs with hfits
      · rw [ok_bind, map_get_indices hvalid]
        simp [hfits, eq_comm]
      · simp [hfits]

theorem Valid.toList_eq {values : List α}
    (hrun : (Tensor.strided elem axes data).toList = .ok values) :
    values = (indices axes.lens).map (Tensor.strided elem axes data).entry :=
  (hvalid.toList_eq_ok_iff.1 hrun).1

theorem Valid.exists_toList_iff :
    (∃ values, (Tensor.strided elem axes data).toList = .ok values) ↔
      (axes.isStandard = .ok true ∧ ∃ n, axes.elements = .ok n) ∨
        (axes.isStandard = .ok false ∧ volume axes.lens ≤ largestListing) := by
  simp only [hvalid.toList_eq_ok_iff, exists_eq_left]

theorem Valid.exists_toList_of_room
    (hrows : Layout.standard axes.lens = .ok (Layout.rowMajor axes.lens))
    (hcount : axes.elements = .ok n)
    (hroom : axes.isStandard = .ok true ∨ volume axes.lens ≤ largestListing) :
    ∃ values, (Tensor.strided elem axes data).toList = .ok values := by
  obtain ⟨standard, hdecided⟩ := exists_isStandard_iff.2 hrows
  refine hvalid.exists_toList_iff.2 ?_
  cases standard with
  | true => exact .inl ⟨hdecided, n, hcount⟩
  | false => exact .inr ⟨hdecided, hroom.resolve_left (by simp [hdecided])⟩

/-- A valid tensor of moderate lengths can be listed. -/
theorem Valid.exists_toList (hmoderate : Moderate axes.lens) :
    ∃ values, (Tensor.strided elem axes data).toList = .ok values :=
  hvalid.exists_toList_of_room (standard_of_pos hmoderate.1 hmoderate.volume_lt)
    (Word.product_of_pos hmoderate.1 hmoderate.volume_lt) (.inr hmoderate.2)

/-- Forcing the standard layout gives a valid tensor with the same entries. -/
theorem Valid.contiguous_eq {t : Tensor α}
    (hrun : (Tensor.strided elem axes data).contiguous = .ok t) :
    ∃ data', t = .strided elem (Layout.rowMajor axes.lens) data' ∧
      Layout.standard axes.lens = .ok (Layout.rowMajor axes.lens) ∧ t.Valid ∧
      ∀ index, InRange index axes.lens →
        t.entry index = (Tensor.strided elem axes data).entry index := by
  rw [contiguous] at hrun
  obtain ⟨standard, hstandard, hrun⟩ := bind_eq_ok_iff.1 hrun
  cases standard with
  | true =>
    rw [if_pos rfl] at hrun
    cases hrun
    have hself := isStandard_eq_ok_true_iff.1 hstandard
    obtain ⟨heq, -⟩ := standard_eq_ok_iff.1 hself
    rw [← heq]
    exact ⟨data, rfl, hself, hvalid, fun _ _ => rfl⟩
  | false =>
    rw [if_neg Bool.false_ne_true] at hrun
    obtain ⟨shape', hshape, hrun⟩ := bind_eq_ok_iff.1 hrun
    obtain ⟨layout, hlayout, hpure⟩ := bind_eq_ok_iff.1 hshape
    cases hpure
    obtain ⟨values, hvalues, hrun⟩ := bind_eq_ok_iff.1 hrun
    have hvalid' := ofBuffer_valid hrun
    obtain ⟨_, _, n, heq, -, -, rfl⟩ := ofBuffer_eq_ok_iff.1 hrun
    cases heq
    have hself := hlayout
    obtain ⟨rfl, -⟩ := standard_eq_ok_iff.1 hlayout
    refine ⟨_, rfl, hself, hvalid', fun index hrange => ?_⟩
    rw [entry_strided, hvalid.toList_eq hvalues, Array.getD_eq_getD_getElem?,
      getElem?_toArray, getElem?_map_indices _ hrange, Option.getD_some]

/-- Forcing the standard layout needs a list of the entries, unless the layout is standard. -/
theorem Valid.exists_contiguous_iff
    (hstandard : Layout.standard axes.lens = .ok (Layout.rowMajor axes.lens)) :
    (∃ t, (Tensor.strided elem axes data).contiguous = .ok t) ↔
      axes.isStandard = .ok true ∨ volume axes.lens ≤ largestListing := by
  obtain ⟨standard, hdecided⟩ := exists_isStandard_iff.2 hstandard
  have hshape : (Tensor.strided elem axes data).shape.asStandard =
      .ok (.strided elem (Layout.rowMajor axes.lens)) := by
    rw [shape, Shape.asStandard, Shape.standard, hstandard]
    rfl
  rw [contiguous, shape, Shape.isStandard, hdecided, ok_bind]
  cases standard with
  | true => simp [Except.pure_eq_ok]
  | false =>
    have hlisted := hvalid.exists_toList_iff
    simp only [hdecided, Except.ok.injEq, Bool.false_eq_true, false_and, true_and, false_or] at hlisted
    rw [← hlisted, if_neg Bool.false_ne_true, ← shape, hshape, ok_bind]
    constructor
    · rintro ⟨t, hrun⟩
      obtain ⟨values, hvalues, -⟩ := bind_eq_ok_iff.1 hrun
      exact .inr ⟨values, hvalues⟩
    · rintro (hfalse | ⟨values, hvalues⟩)
      · cases hfalse
      have hlength : values.length = volume axes.lens := by
        rw [hvalid.toList_eq hvalues, length_map, length_indices]
      have hspace := (rowMajor_dense axes.lens).space_eq (by
        rw [lens_rowMajor]
        exact Nat.lt_of_le_of_lt (hlisted.1 ⟨values, hvalues⟩) (by decide))
      rw [hvalues, ok_bind]
      exact ⟨_, ofBuffer_eq_ok_iff.2 ⟨elem, _, _, rfl, hspace, by simp [hlength], rfl⟩⟩

end Tensor

end TensorGraph
