import TensorGraph.Operator.Evaluation
import TensorGraph.Proofs.Operator.Forms
import TensorGraph.Proofs.Tensor.Entries

/-!
# Views

`Layout.Traces` says that a layout finds its entries through a map between indices, which depends on
lengths and attributes but not on strides; a view through it never faults.
-/

namespace TensorGraph

open Inference Layout List

variable {axes : Layout} {index lens removed places : List Nat} {ranges : List AxisRange}
  {k offset : Nat}

theorem Word.total_perm {xs ys : List Nat} (hperm : xs.Perm ys) : total xs = total ys := by
  induction hperm with
  | nil => rfl
  | cons value _ ih => rw [total, total, ih]
  | swap => simp only [total]; omega
  | trans _ _ ihFirst ihSecond => exact ihFirst.trans ihSecond

namespace Layout

theorem inRange_lens_iff :
    InRange index axes.lens ↔ Forall₂ (fun i axis => i < axis.len) index axes :=
  forall₂_map_right_iff

theorem position_eq_total (axes : Layout) (index : List Nat) :
    axes.position index =
      Word.total ((index.zip axes).map fun entry => entry.1 * entry.2.stride) := by
  induction axes generalizing index with
  | nil => simp [Word.total]
  | cons axis axes ih =>
    cases index with
    | nil => rfl
    | cons i index =>
      rw [position_cons, ih]
      rfl

/-- The last index of a layout without empty axes. -/
def lastIndex (axes : Layout) : List Nat := axes.map (·.len - 1)

theorem position_lastIndex (axes : Layout) : axes.position axes.lastIndex = axes.extent := by
  induction axes with
  | nil => rfl
  | cons axis axes ih => rw [lastIndex, map_cons, position_cons, ← lastIndex, ih, extent]

theorem inRange_lastIndex (hpos : 0 ∉ axes.lens) :
    InRange axes.lastIndex axes.lens := by
  rw [inRange_lens_iff, lastIndex, forall₂_map_left_iff, forall₂_same]
  intro axis hmem
  exact Nat.sub_one_lt fun hzero => hpos (hzero ▸ mem_map_of_mem hmem)

/-- A layout finds its entries in another one: an index is looked up under its source, past a
number of positions that are left out. -/
def Traces (out axes : Layout) (offset : Nat) (source : List Nat → List Nat) : Prop :=
  ∀ index, InRange index out.lens →
    InRange (source index) axes.lens ∧ axes.position (source index) = offset + out.position index

end Layout

namespace Tensor

variable {α : Type}

theorem view_eq_offsetView (t : Tensor α) (shape : Shape) :
    t.view shape = t.offsetView 0 shape := by
  rw [view, offsetView, Nat.zero_min, Array.extract_size]

variable [Scalar α]

variable {elem elem' : ElementType} {out : Layout} {data : Array α} {source : List Nat → List Nat}

/-- A view through a traced layout does not fault, and finds the entries of its source. -/
theorem Valid.exists_offsetView (hvalid : (Tensor.strided elem axes data).Valid)
    (htraces : out.Traces axes offset source) :
    ∃ t, (Tensor.strided elem axes data).offsetView offset (.strided elem' out) = .ok t ∧
      t.shape = .strided elem' out ∧ t.Valid ∧
      ∀ index, InRange index out.lens →
        t.entry index = (Tensor.strided elem axes data).entry (source index) := by
  obtain ⟨n, hspace, hsize⟩ := hvalid.exists_space
  have hout : ∃ m, out.space = .ok m ∧
      m ≤ (data.extract (min offset data.size) data.size).size := by
    by_cases hzero : 0 ∈ out.lens
    · exact ⟨0, space_of_zero_mem hzero, Nat.zero_le _⟩
    · obtain ⟨hrange, hposition⟩ := htraces _ (inRange_lastIndex hzero)
      have hlast := position_lt_space hspace hrange
      rw [hposition, position_lastIndex] at hlast
      obtain ⟨rfl, hfits⟩ := (space_eq_ok_iff hrange.zero_notMem).1 hspace
      refine ⟨_, (space_eq_ok_iff hzero).2 ⟨rfl, by omega⟩, ?_⟩
      rw [Array.size_extract]
      omega
  obtain ⟨m, hm, hle⟩ := hout
  refine ⟨_, ofBuffer_eq_ok_iff.2 ⟨elem', out, m, rfl, hm, hle, rfl⟩, rfl, .strided hm hle, ?_⟩
  intro index hrange
  obtain ⟨hsource, hposition⟩ := htraces index hrange
  have hbelow := Nat.lt_of_lt_of_le (position_lt_space hspace hsource) hsize
  rw [hposition] at hbelow
  change (data.extract (min offset data.size) data.size).getD (out.position index) Scalar.zero =
    data.getD (axes.position (source index)) Scalar.zero
  rw [hposition, Nat.min_eq_left (by omega), Array.getD_eq_getD_getElem?,
    Array.getD_eq_getD_getElem?, Array.getElem?_extract, if_pos (by omega)]

theorem Valid.exists_view (hvalid : (Tensor.strided elem axes data).Valid)
    (htraces : out.Traces axes 0 source) :
    ∃ t, (Tensor.strided elem axes data).view (.strided elem' out) = .ok t ∧
      t.shape = .strided elem' out ∧ t.Valid ∧
      ∀ index, InRange index out.lens →
        t.entry index = (Tensor.strided elem axes data).entry (source index) := by
  rw [view_eq_offsetView]
  exact hvalid.exists_offsetView htraces

end Tensor

/-! ## Transposition -/

/-- The index that a transposition moves to this one: position `i` takes the entry of the place
that names `i`. -/
def unpermute (order index : List Nat) : List Nat :=
  (List.range order.length).map fun i => index.getD (order.idxOf i) 0

variable {order : List Nat} {moved layout widened inner : Layout} {place len n : Nat} {op : String}
  {input : Shape} {starts ends : List Int}

theorem zip_unpermute_perm (hperm : Permutation.isPermutation order = true)
    (hlength : order.length = axes.length) (hindex : index.length = order.length)
    (hmoved : Permutation.reorder axes order = .ok moved) :
    (index.zip moved).Perm ((unpermute order index).zip axes) := by
  have hrange := perm_range_of_isPermutation hperm
  have hnodup : order.Nodup := hrange.nodup_iff.2 nodup_range
  have hentries : moved = order.map fun i => axes.getD i ⟨0, 0⟩ := by
    rw [Permutation.reorder, mapM_eq_ok_iff] at hmoved
    refine forall₂_eq_eq_eq ▸ ?_
    rw [forall₂_map_right_iff]
    refine hmoved.flip.imp fun axis i hfetch => ?_
    simp [fetch_eq_ok_iff.1 hfetch]
  have hsource : (unpermute order index).zip axes =
      (List.range order.length).map fun i => (index.getD (order.idxOf i) 0, axes.getD i ⟨0, 0⟩) := by
    refine ext_getElem (by simp [unpermute, hlength]) fun i hi _ => ?_
    have hbelow : i < axes.length := by simpa [unpermute, hlength] using hi
    simp [unpermute, hbelow]
  have htarget : index.zip moved =
      order.map fun i => (index.getD (order.idxOf i) 0, axes.getD i ⟨0, 0⟩) := by
    refine ext_getElem (by simp [hentries, hindex]) fun k hk _ => ?_
    have hbelow : k < order.length := by simpa [hentries, hindex] using hk
    have hplace : order.idxOf order[k] = k := hnodup.idxOf_getElem k hbelow
    simp [hentries, hplace, hindex, hbelow]
  rw [hsource, htarget]
  exact hrange.map _

theorem traces_transpose (hperm : Permutation.isPermutation order = true)
    (hlength : order.length = axes.length) (hmoved : Permutation.reorder axes order = .ok moved) :
    moved.Traces axes 0 (unpermute order) := by
  intro index hrange
  have hmovedLength : order.length = moved.length := by
    rw [Permutation.reorder, mapM_eq_ok_iff] at hmoved
    exact hmoved.length_eq
  have hindex : index.length = order.length := by
    rw [hrange.length_eq, length_lens, hmovedLength]
  have hzip := zip_unpermute_perm hperm hlength hindex hmoved
  rw [inRange_lens_iff] at hrange ⊢
  refine ⟨forall₂_iff_zip.2 ⟨by simp [unpermute, hlength], fun {i axis} hmem => ?_⟩, ?_⟩
  · exact (forall₂_iff_zip.1 hrange).2 (hzip.mem_iff.2 hmem)
  · rw [Nat.zero_add, position_eq_total, position_eq_total]
    exact Word.total_perm (hzip.map _).symm

/-! ## Unit axes -/

/-- Drop the items at these places; the list of places runs along with the items. -/
def dropAt {β : Type} (removed : List Nat) : (places : List Nat) → List β → List β
  | place :: places, item :: items =>
    if place ∈ removed then dropAt removed places items
    else item :: dropAt removed places items
  | _, _ => []

/-- Put zeros at these places and the entries of an index at the others. -/
def restoreAt (removed : List Nat) : (places : List Nat) → List Nat → List Nat
  | [], _ => []
  | place :: places, index =>
    if place ∈ removed then 0 :: restoreAt removed places index
    else
      match index with
      | i :: rest => i :: restoreAt removed places rest
      | [] => []

theorem restoreAt_of_mem (hmem : place ∈ removed) :
    restoreAt removed (place :: places) index = 0 :: restoreAt removed places index := by
  cases index <;> rw [restoreAt, if_pos hmem]

theorem restoreAt_of_notMem {rest : List Nat} {i : Nat} (hmem : place ∉ removed) :
    restoreAt removed (place :: places) (i :: rest) = i :: restoreAt removed places rest := by
  rw [restoreAt, if_neg hmem]

theorem dropAt_eq_filter {β : Type} (removed : List Nat) (items : List β) (start : Nat) :
    dropAt removed (List.range' start items.length) items =
      ((items.zipIdx start).filter fun entry => !removed.contains entry.2).map (·.1) := by
  induction items generalizing start with
  | nil => rfl
  | cons item items ih =>
    rw [length_cons, range'_succ, dropAt, zipIdx_cons, filter_cons, ih]
    by_cases hmem : start ∈ removed <;> simp [hmem]

/-- The lengths at the removed places are one. -/
def UnitsAt (removed places lens : List Nat) : Prop :=
  Forall₂ (fun place len => place ∈ removed → len = 1) places lens

theorem unitsAt_range_iff :
    UnitsAt removed (List.range lens.length) lens ↔
      ∀ axis ∈ removed, axis < lens.length → lens[axis]? = some 1 := by
  rw [UnitsAt, forall₂_iff_get]
  simp only [length_range, true_and, get_eq_getElem, getElem_range]
  refine ⟨fun hunits axis hmem hbelow => ?_, fun hunits axis _ hbelow hmem => ?_⟩
  · rw [getElem?_eq_getElem hbelow, hunits axis hbelow hbelow hmem]
  · have hunit := hunits axis hmem hbelow
    rwa [getElem?_eq_getElem hbelow, Option.some.injEq] at hunit

/-- An index without unit axes is found in a layout under zeros at these axes. -/
theorem restoreAt_traces (hunits : UnitsAt removed places axes.lens)
    (hrange : InRange index (Layout.lens (dropAt removed places axes))) :
    InRange (restoreAt removed places index) axes.lens ∧
      axes.position (restoreAt removed places index) =
        Layout.position (dropAt removed places axes) index := by
  rw [UnitsAt, Layout.lens, forall₂_map_right_iff] at hunits
  induction hunits generalizing index with
  | nil => exact ⟨.nil, by simp [restoreAt, dropAt]⟩
  | @cons place axis places axes hunit _ ih =>
    rw [dropAt] at hrange ⊢
    split_ifs at hrange ⊢ with hmem
    · obtain ⟨hrest, hposition⟩ := ih hrange
      rw [restoreAt_of_mem hmem, position_cons, hposition, Nat.zero_mul, Nat.zero_add]
      exact ⟨.cons (by rw [hunit hmem]; decide) hrest, rfl⟩
    · obtain ⟨i, rest, hi, hrest, rfl⟩ := forall₂_cons_right_iff.1 hrange
      obtain ⟨hrest, hposition⟩ := ih hrest
      rw [restoreAt_of_notMem hmem, position_cons, position_cons, hposition]
      exact ⟨.cons hi hrest, rfl⟩

/-- An index is found in a layout at the position where it is found without its unit axes. -/
theorem position_dropAt (hunits : UnitsAt removed places axes.lens)
    (hrange : InRange index axes.lens) :
    InRange (dropAt removed places index) (Layout.lens (dropAt removed places axes)) ∧
      Layout.position (dropAt removed places axes) (dropAt removed places index) =
        axes.position index := by
  rw [UnitsAt, Layout.lens, forall₂_map_right_iff] at hunits
  induction hunits generalizing index with
  | nil =>
    cases hrange
    exact ⟨.nil, rfl⟩
  | cons hunit _ ih =>
    obtain ⟨i, rest, hi, hrest, rfl⟩ := forall₂_cons_right_iff.1 hrange
    obtain ⟨hdropped, hposition⟩ := ih hrest
    rw [dropAt, dropAt, position_cons]
    split_ifs with hmem
    · have hzero : i = 0 := Nat.lt_one_iff.1 (hunit hmem ▸ hi)
      rw [hzero, Nat.zero_mul, Nat.zero_add]
      exact ⟨hdropped, hposition⟩
    · rw [position_cons, hposition]
      exact ⟨.cons hi hdropped, rfl⟩

/-- A squeezed layout looks an index up with zeros at the removed axes. -/
theorem traces_squeeze (hunits : ∀ axis ∈ removed, axes.lens[axis]? = some 1) :
    Layout.Traces ((axes.zipIdx.filter fun entry => !removed.contains entry.2).map (·.1)) axes 0
      (restoreAt removed (List.range axes.length)) := by
  intro index hrange
  rw [← dropAt_eq_filter, ← range_eq_range', ← length_lens] at hrange
  rw [← dropAt_eq_filter, ← range_eq_range', ← length_lens, Nat.zero_add]
  exact restoreAt_traces (unitsAt_range_iff.2 fun axis hmem _ => hunits axis hmem) hrange

/-- Inserted axes have length one, and the others are those of the layout. -/
theorem insertUnits_units {axes : List Nat}
    (hcount : (places.filter fun place => !axes.contains place).length = layout.length)
    (hrun : insertUnits axes places layout = .ok widened) :
    UnitsAt axes places widened.lens ∧ dropAt axes places widened = layout := by
  induction places generalizing layout widened with
  | nil =>
    cases hrun
    rw [eq_nil_of_length_eq_zero hcount.symm]
    exact ⟨.nil, rfl⟩
  | cons place places ih =>
    rcases insertUnits_cons_eq_ok hrun with
      ⟨hunit, stride, inner, hinner, -, rfl⟩ | ⟨hother, next, rest, inner, rfl, hinner, rfl⟩
    · obtain ⟨hunits, hdropped⟩ := ih (by simpa [hunit] using hcount) hinner
      rw [dropAt, if_pos hunit]
      exact ⟨.cons (fun _ => rfl) hunits, hdropped⟩
    · obtain ⟨hunits, hdropped⟩ := ih (by simpa [hother] using hcount) hinner
      rw [dropAt, if_neg hother, hdropped]
      exact ⟨.cons (fun hmem => absurd hmem hother) hunits, rfl⟩

theorem length_filter_range {axes : List Nat} {rank : Nat}
    (hbelow : ∀ axis ∈ axes, axis < rank + axes.length) (hnodup : axes.Nodup) :
    ((List.range (rank + axes.length)).filter fun place => !axes.contains place).length = rank := by
  have hsplit := length_eq_length_filter_add (l := List.range (rank + axes.length))
    (fun place => axes.contains place)
  have hnamed : ((List.range (rank + axes.length)).filter (axes.contains ·)).Perm axes := by
    rw [perm_ext_iff_of_nodup (nodup_range.filter _) hnodup]
    intro axis
    simpa using hbelow axis
  rw [length_range, hnamed.length_eq] at hsplit
  omega

/-- A layout with inserted unit axes looks an index up without their entries. -/
theorem traces_unsqueeze {axes : List Nat}
    (hbelow : ∀ axis ∈ axes, axis < layout.length + axes.length) (hnodup : axes.Nodup)
    (hrun : insertUnits axes (List.range (layout.length + axes.length)) layout =
      .ok widened) :
    widened.Traces layout 0 (dropAt axes (List.range (layout.length + axes.length))) := by
  intro index hrange
  obtain ⟨hunits, hdropped⟩ := insertUnits_units (length_filter_range hbelow hnodup) hrun
  have hfound := position_dropAt hunits hrange
  rwa [hdropped, ← Nat.zero_add (widened.position index)] at hfound

/-! ## Broadcasting -/

/-- The index that is repeated: outer entries are dropped, and an axis of length one is read at
zero. -/
def broadcastSource (lens : List Nat) (index : List Nat) : List Nat :=
  List.zipWith (fun len i => if len = 1 then 0 else i) lens
    (index.drop (index.length - lens.length))

theorem broadcastAxes?_traces (hlength : axes.length = lens.length)
    (hrun : broadcastAxes? axes lens = some inner) (hrange : InRange index lens) :
    InRange (List.zipWith (fun len i => if len = 1 then 0 else i) axes.lens index) axes.lens ∧
      axes.position (List.zipWith (fun len i => if len = 1 then 0 else i) axes.lens index) =
        inner.position index := by
  induction axes generalizing lens inner index with
  | nil =>
    rw [eq_nil_of_length_eq_zero hlength.symm] at hrun
    cases hrun
    exact ⟨.nil, by simp⟩
  | cons axis axes ih =>
    obtain ⟨i, len, index, lens, hi, hrest, rfl, rfl⟩ : ∃ i len index' lens', i < len ∧
        InRange index' lens' ∧ index = i :: index' ∧ lens = len :: lens' := by
      cases hrange with
      | nil => cases hlength
      | cons hi hrest => exact ⟨_, _, _, _, hi, hrest, rfl, rfl⟩
    rw [broadcastAxes?, zip_cons_cons, mapM_cons] at hrun
    obtain ⟨first, hfirst, hrun⟩ := Option.bind_eq_some_iff.1 hrun
    obtain ⟨rest, hinner, hpure⟩ := Option.bind_eq_some_iff.1 hrun
    cases hpure
    obtain ⟨hsource, hposition⟩ := ih (Nat.succ.inj hlength) hinner hrest
    change broadcastAxis? axis len = some first at hfirst
    unfold broadcastAxis? at hfirst
    rw [lens_cons, zipWith_cons_cons, position_cons, position_cons,
      hposition]
    split_ifs at hfirst with hsame hone
    · cases hfirst
      by_cases hunit : axis.len = 1
      · have hzero : i = 0 := by omega
        rw [if_pos hunit, hzero]
        exact ⟨.cons (by omega) hsource, rfl⟩
      · rw [if_neg hunit]
        exact ⟨.cons (by omega) hsource, rfl⟩
    · cases hfirst
      rw [if_pos hone]
      exact ⟨.cons (by omega) hsource, by simp⟩

theorem Layout.position_append {xs ys : Layout} {is js : List Nat}
    (hlength : is.length = xs.length) :
    position (xs ++ ys) (is ++ js) = position xs is + position ys js := by
  induction xs generalizing is with
  | nil =>
    rw [eq_nil_of_length_eq_zero hlength]
    simp
  | cons axis xs ih =>
    cases is with
    | nil => cases hlength
    | cons i is =>
      rw [cons_append, cons_append, position_cons, position_cons,
        ih (Nat.succ.inj hlength), Nat.add_assoc]

theorem Layout.position_repeated (lens index : List Nat) :
    position (lens.map (⟨·, 0⟩)) index = 0 := by
  induction lens generalizing index with
  | nil => simp
  | cons len lens ih => cases index <;> simp [ih]

/-- A broadcast layout looks an index up under the index that it repeats. -/
theorem traces_broadcast (hrank : axes.length ≤ lens.length)
    (hinner : broadcastAxes? axes (lens.drop (lens.length - axes.length)) =
      some inner) :
    Layout.Traces ((lens.take (lens.length - axes.length)).map (⟨·, 0⟩) ++ inner) axes 0
      (broadcastSource axes.lens) := by
  intro index hrange
  have hlength : axes.length = (lens.drop (lens.length - axes.length)).length := by
    rw [length_drop]
    omega
  have hlens : Layout.lens ((lens.take (lens.length - axes.length)).map (⟨·, 0⟩) ++ inner) =
      lens := by
    rw [Layout.lens, map_append, ← Layout.lens, ← Layout.lens,
      broadcastAxes?_lens hlength hinner]
    simp [Layout.lens, Function.comp_def]
  rw [hlens] at hrange
  have hindex : index.length = lens.length := hrange.length_eq
  have hdropped : InRange (index.drop (lens.length - axes.length))
      (lens.drop (lens.length - axes.length)) := forall₂_drop _ hrange
  obtain ⟨hsource, hposition⟩ := broadcastAxes?_traces hlength hinner hdropped
  rw [broadcastSource, length_lens, hindex]
  refine ⟨hsource, ?_⟩
  rw [hposition, Nat.zero_add]
  calc inner.position (index.drop (lens.length - axes.length))
      = Layout.position ((lens.take (lens.length - axes.length)).map (⟨·, 0⟩))
            (index.take (lens.length - axes.length)) +
          inner.position (index.drop (lens.length - axes.length)) := by
        rw [position_repeated, Nat.zero_add]
    _ = Layout.position ((lens.take (lens.length - axes.length)).map (⟨·, 0⟩) ++ inner)
          (index.take (lens.length - axes.length) ++ index.drop (lens.length - axes.length)) :=
        (position_append (by simp [hindex])).symm
    _ = _ := by rw [take_append_drop]

/-! ## Slices -/

/-- The index that a slice moves to this one: entries of cut axes move up by where the cut
starts. -/
def sliceSource (ranges : List AxisRange) (index : List Nat) : List Nat :=
  ranges.foldl (fun index range => index.modify range.axis (· + range.first)) index

/-- A bound along an axis: below zero it counts from the end, and it is held to the axis. -/
def boundAt (len : Nat) (bound : Int) : Nat :=
  (max 0 (min (len : Int) (if bound < 0 then bound + len else bound))).toNat

theorem clampBound_eq_ok {bound : Int} (hrun : clampBound len bound = .ok n) :
    n ≤ len ∧ (len < Word.limit → n = boundAt len bound) := by
  -- The signed reading of a length is the length, or it is negative and the bound is refused.
  have htop (hkept : ¬ Word.toSigned len < 0) :
      Word.toSigned len ≤ len ∧ (len < Word.limit → Word.toSigned len = len) := by
    unfold Word.toSigned at hkept ⊢
    split_ifs at hkept ⊢ <;> omega
  unfold clampBound at hrun
  rw [boundAt]
  dsimp only at hrun
  split_ifs at hrun ⊢ with hnegative hempty
  all_goals
    obtain ⟨counted, hcounted, hrun⟩ := bind_eq_ok_iff.1 hrun
    cases hrun
  · unfold Word.addSigned at hcounted
    split_ifs at hcounted
    cases hcounted
    have htop := htop hempty
    exact ⟨by omega, fun hword => by rw [htop.2 hword]⟩
  · cases hcounted
    have htop := htop ‹_›
    exact ⟨by omega, fun hword => by rw [htop.2 hword]⟩

/-- A range of a slice lies inside its axis. -/
structure RangeInside (lens : List Nat) (range : AxisRange) : Prop where
  below : range.axis < lens.length
  ordered : range.first ≤ range.last
  inside : range.last ≤ lens[range.axis]

theorem sliceRange_eq_ok {axis : Nat} {start stop : Int} {range : AxisRange}
    (hrun : sliceRange op input axis start stop = .ok range) :
    range.axis = axis ∧ RangeInside input.lens range ∧ (input.lens.getD axis 0 < Word.limit →
      range.first = boundAt (input.lens.getD axis 0) start) := by
  unfold sliceRange at hrun
  split at hrun
  · cases hrun
  · rename_i len hlen
    obtain ⟨first, hfirst, hrun⟩ := bind_eq_ok_iff.1 hrun
    obtain ⟨last, hlast, hrun⟩ := bind_eq_ok_iff.1 hrun
    split_ifs at hrun with hreversed
    · cases hrun
    · cases hrun
      obtain ⟨hbelow, hlen⟩ := List.getElem?_eq_some_iff.1 hlen
      have hfirst := clampBound_eq_ok (Outcome.lift_eq_ok_iff.1 hfirst)
      have hlast := clampBound_eq_ok (Outcome.lift_eq_ok_iff.1 hlast)
      refine ⟨rfl, ⟨hbelow, Nat.le_of_not_lt hreversed, hlen ▸ hlast.1⟩, ?_⟩
      simpa [hbelow, hlen] using hfirst.2

/-- The ranges of a slice are found entry by entry. -/
theorem sliceRanges_forall₂ {axes : List Nat}
    (hrun : sliceRanges op input axes starts ends = .ok ranges) :
    axes.length = starts.length ∧ Forall₂ (fun entry range => range.axis = entry.1 ∧
      RangeInside input.lens range ∧ (input.lens.getD entry.1 0 < Word.limit →
        range.first = boundAt (input.lens.getD entry.1 0) entry.2)) (axes.zip starts) ranges := by
  unfold sliceRanges at hrun
  split_ifs at hrun with hragged
  · cases hrun
  · rw [not_or, not_not, not_not] at hragged
    have hstarts : axes.zip starts =
        (axes.zip (starts.zip ends)).map fun entry => (entry.1, entry.2.1) := by
      refine ext_getElem (by simp; omega) fun i hi hi' => ?_
      simp
    rw [mapM_eq_ok_iff] at hrun
    rw [hstarts, forall₂_map_left_iff]
    exact ⟨hragged.1, hrun.imp fun entry range hrange => sliceRange_eq_ok hrange⟩

theorem sliceRanges_eq_ok {axes : List Nat}
    (hrun : sliceRanges op input axes starts ends = .ok ranges) :
    ranges.map (·.axis) = axes ∧ ∀ range ∈ ranges, RangeInside input.lens range := by
  obtain ⟨hlength, heach⟩ := sliceRanges_forall₂ hrun
  refine ⟨?_, fun range hmem => ?_⟩
  · rw [← map_fst_zip (Nat.le_of_eq hlength)]
    refine forall₂_eq_eq_eq ▸ ?_
    rw [forall₂_map_left_iff, forall₂_map_right_iff]
    exact heach.flip.imp fun range entry hrange => hrange.1
  · obtain ⟨entry, -, hrange⟩ := exists_mem_right_of_forall₂ heach.flip hmem
    exact hrange.2.1

theorem Layout.position_eq_of_strides {other : Layout} (hstrides : axes.strides = other.strides)
    (index : List Nat) : axes.position index = other.position index := by
  rw [← total_zip_strides, ← total_zip_strides, hstrides]

theorem Layout.position_modify (hlength : index.length = axes.length) (hk : k < axes.length)
    (shift : Nat) :
    axes.position (index.modify k (· + shift)) =
      shift * axes[k].stride + axes.position index := by
  induction axes generalizing index k with
  | nil => cases hk
  | cons axis axes ih =>
    cases index with
    | nil => cases hlength
    | cons i index =>
      cases k with
      | zero =>
        simp only [modify_zero_cons, position_cons, getElem_cons_zero,
          Nat.add_mul]
        omega
      | succ k =>
        rw [modify_succ_cons, position_cons, position_cons,
          ih (Nat.succ.inj hlength) (Nat.lt_of_succ_lt_succ hk), getElem_cons_succ]
        omega

theorem length_sliceSource (ranges : List AxisRange) (index : List Nat) :
    (sliceSource ranges index).length = index.length := by
  induction ranges generalizing index with
  | nil => rfl
  | cons range ranges ih =>
    rw [sliceSource, foldl_cons, ← sliceSource, ih, length_modify]

/-- The exact position at which a slice starts. -/
def sliceStart (axes : Layout) (ranges : List AxisRange) : Nat :=
  Word.total (ranges.map fun range => range.first * axes.strides.getD range.axis 0)

theorem position_sliceSource (hbelow : ∀ range ∈ ranges, range.axis < axes.length)
    (hlength : index.length = axes.length) :
    axes.position (sliceSource ranges index) = sliceStart axes ranges + axes.position index := by
  unfold sliceStart
  induction ranges generalizing index with
  | nil => simp [sliceSource, Word.total]
  | cons range ranges ih =>
    rw [forall_mem_cons] at hbelow
    have hstride : axes.strides.getD range.axis 0 = axes[range.axis].stride := by
      simp [Layout.strides, hbelow.1]
    rw [sliceSource, foldl_cons, ← sliceSource, ih hbelow.2 (by simpa using hlength),
      position_modify hlength hbelow.1, map_cons, Word.total, hstride]
    omega

/-- The start of a slice that fits is the exact one. -/
theorem sliceOffset_eq_ok_iff {elem : ElementType}
    (hbelow : ∀ range ∈ ranges, range.axis < axes.length) :
    Evaluation.sliceOffset (.strided elem axes) ranges = .ok offset ↔
      offset = sliceStart axes ranges ∧ offset < Word.limit := by
  refine Word.sum_mapM_eq_ok_iff fun range hmem k => ?_
  have hfetch : fetch (Shape.strided elem axes).strides range.axis =
      .ok (axes.strides.getD range.axis 0) := by
    rw [fetch_eq_ok_iff]
    simp [Shape.strides, Layout.strides, hbelow range hmem]
  rw [hfetch, ok_bind, Word.mul_eq_ok_iff]
  apply and_congr_right
  intro heq
  rw [heq]

theorem inRange_modify {first last : Nat} (hk : k < lens.length) (hinside : last ≤ lens[k])
    (hrange : InRange index (lens.set k (last - first))) :
    InRange (index.modify k (· + first)) lens := by
  obtain ⟨hlength, hentries⟩ := forall₂_iff_get.1 hrange
  rw [length_set] at hlength
  refine forall₂_iff_get.2 ⟨by simpa using hlength, fun i hi hi' => ?_⟩
  have hentry := hentries i (by simpa using hi) (by simpa using hi')
  simp only [get_eq_getElem, getElem_set, getElem_modify] at hentry ⊢
  split_ifs at hentry ⊢ with heq
  · subst heq
    omega
  · exact hentry

/-- Ranges on other axes can be cut before or after. -/
theorem cutLens_set (hfree : k ∉ ranges.map (·.axis)) :
    cutLens ranges (lens.set k len) = (cutLens ranges lens).set k len := by
  unfold cutLens
  induction ranges generalizing lens with
  | nil => rfl
  | cons range ranges ih =>
    rw [map_cons, mem_cons, not_or] at hfree
    rw [foldl_cons, foldl_cons, set_comm _ _ hfree.1, ih hfree.2]

theorem getElem?_cutLens (hfree : k ∉ ranges.map (·.axis)) :
    (cutLens ranges lens)[k]? = lens[k]? := by
  unfold cutLens
  induction ranges generalizing lens with
  | nil => rfl
  | cons range ranges ih =>
    rw [map_cons, mem_cons, not_or] at hfree
    rw [foldl_cons, ih hfree.2, getElem?_set_ne (Ne.symm hfree.1)]

theorem inRange_sliceSource (hnodup : (ranges.map (·.axis)).Nodup)
    (hinside : ∀ range ∈ ranges, RangeInside lens range)
    (hrange : InRange index (cutLens ranges lens)) :
    InRange (sliceSource ranges index) lens := by
  induction ranges generalizing index with
  | nil => exact hrange
  | cons range ranges ih =>
    rw [map_cons, nodup_cons] at hnodup
    rw [forall_mem_cons] at hinside
    rw [sliceSource, foldl_cons, ← sliceSource]
    refine ih hnodup.2 hinside.2 ?_
    -- The other ranges leave this axis alone, so it can as well be cut after them.
    rw [cutLens, foldl_cons, ← cutLens, cutLens_set hnodup.1] at hrange
    have hat : (cutLens ranges lens)[range.axis]? = lens[range.axis]? :=
      getElem?_cutLens hnodup.1
    rw [getElem?_eq_getElem hinside.1.below] at hat
    obtain ⟨hbelow, hlen⟩ := List.getElem?_eq_some_iff.1 hat
    exact inRange_modify hbelow (hlen ▸ hinside.1.inside) hrange

theorem strides_cut (ranges : List AxisRange) (layout : Layout) :
    (cutAxes ranges layout).strides = layout.strides := by
  unfold cutAxes
  induction ranges generalizing layout with
  | nil => rfl
  | cons range ranges ih =>
    rw [foldl_cons, ih]
    unfold Layout.strides
    refine ext_getElem? fun i => ?_
    rw [getElem?_map, getElem?_modify, getElem?_map, Option.map_eq_map,
      Option.map_map]
    congr 1
    funext axis
    rw [Function.comp_apply]
    split_ifs <;> rfl

/-- A slice that names each axis once looks an index up under the shifted index. -/
theorem traces_slice (hnodup : (ranges.map (·.axis)).Nodup)
    (hinside : ∀ range ∈ ranges, RangeInside axes.lens range) :
    Layout.Traces (cutAxes ranges axes) axes (sliceStart axes ranges) (sliceSource ranges) := by
  intro index hrange
  rw [lens_cut] at hrange
  have hsource := inRange_sliceSource hnodup hinside hrange
  refine ⟨hsource, ?_⟩
  have hlength : index.length = axes.length := by
    rw [← length_sliceSource ranges index, hsource.length_eq, length_lens]
  rw [position_eq_of_strides (strides_cut ranges axes)]
  refine position_sliceSource (fun range hmem => ?_) hlength
  simpa using (hinside range hmem).below

/-- A slice that is not empty starts inside the space of its input. -/
theorem sliceStart_lt (hspace : axes.space = .ok n) (hnodup : (ranges.map (·.axis)).Nodup)
    (hinside : ∀ range ∈ ranges, RangeInside axes.lens range)
    (hpos : 0 ∉ cutLens ranges axes.lens) : sliceStart axes ranges < n := by
  obtain ⟨hsource, hposition⟩ := traces_slice hnodup hinside _
    (inRange_lastIndex (by rwa [lens_cut]))
  have hbelow := position_lt_space hspace hsource
  omega

/-! ## Reshaping -/

/-- The index of these lengths that lies at a position of the row-major layout. -/
def unflatten : List Nat → Nat → List Nat
  | [], _ => []
  | _ :: lens, k => k / volume lens :: unflatten lens (k % volume lens)

theorem unflatten_spec (hk : k < volume lens) :
    InRange (unflatten lens k) lens ∧ (Layout.rowMajor lens).position (unflatten lens k) = k := by
  induction lens generalizing k with
  | nil =>
    rw [Nat.lt_one_iff.1 hk]
    exact ⟨.nil, rfl⟩
  | cons len lens ih =>
    have hinner : 0 < volume lens :=
      Nat.pos_of_ne_zero fun hzero => by simp [volume, hzero] at hk
    obtain ⟨hrange, hposition⟩ := ih (Nat.mod_lt k hinner)
    rw [unflatten, Layout.rowMajor, position_cons, hposition]
    refine ⟨.cons ?_ hrange, Nat.div_add_mod' k (volume lens)⟩
    exact Nat.div_lt_of_lt_mul (by rwa [volume, Nat.mul_comm] at hk)

/-- A reshaped row-major layout looks an index up at the same position. -/
theorem traces_reshape {lens' : List Nat} (hvolume : volume lens' = volume lens) :
    (Layout.rowMajor lens').Traces (Layout.rowMajor lens) 0
      fun index => unflatten lens ((Layout.rowMajor lens').position index) := by
  intro index hrange
  rw [lens_rowMajor] at hrange ⊢
  have hk := position_rowMajor_lt hrange
  rw [hvolume] at hk
  rw [Nat.zero_add]
  exact unflatten_spec hk

end TensorGraph
