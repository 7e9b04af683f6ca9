import Mathlib.Algebra.BigOperators.Group.Finset.Basic
import Mathlib.Data.List.Perm.Subperm
import TensorGraph.Proofs.Operator.Views

/-!
# Axes merged into one

In row-major order, axes that stand next to each other can be taken for one axis: its length is their
volume, and its entry is their position.
-/

namespace TensorGraph

open List

section Volumes

variable {ι : Type} {columns others : List ι} {len len' : ι → Nat}

theorem volume_replicate (count len : Nat) : volume (List.replicate count len) = len ^ count := by
  induction count with
  | zero => rfl
  | succ count ih => rw [replicate_succ, volume, ih, Nat.pow_succ, Nat.mul_comm]

theorem bulk_append (xs ys : List Nat) : bulk (xs ++ ys) = bulk xs * bulk ys := by
  rw [bulk, map_append, volume_append]
  rfl

theorem bulk_perm {xs ys : List Nat} (hperm : xs.Perm ys) : bulk xs = bulk ys :=
  volume_perm (hperm.map _)

theorem le_bulk_of_mem {lens : List Nat} {len : Nat} (hmem : len ∈ lens) : len ≤ bulk lens := by
  induction lens with
  | nil => cases hmem
  | cons first lens ih =>
    rw [bulk_cons]
    rcases mem_cons.1 hmem with rfl | hmem
    · exact (Nat.le_max_right 1 len).trans (Nat.le_mul_of_pos_right _ (bulk_pos lens))
    · exact (ih hmem).trans (Nat.le_mul_of_pos_left _ (by omega))

theorem bulk_map_le (hle : ∀ column ∈ columns, max 1 (len column) ≤ max 1 (len' column)) :
    bulk (columns.map len) ≤ bulk (columns.map len') := by
  induction columns with
  | nil => exact Nat.le_refl _
  | cons column columns ih =>
    rw [forall_mem_cons] at hle
    exact Nat.mul_le_mul hle.1 (ih hle.2)

/-- Columns of a list that are not repeated make up no more than the list. -/
theorem bulk_map_le_of_subset (hnodup : columns.Nodup) (hsubset : columns ⊆ others) :
    bulk (columns.map len) ≤ bulk (others.map len) := by
  obtain ⟨sub, hperm, hsub⟩ := hnodup.subperm hsubset
  rw [← bulk_perm (hperm.map len)]
  exact bulk_le_of_sublist (hsub.map len)

/-- Groups of axes make up no more when each is taken for one axis. -/
theorem bulk_groups_le (groups : List (List Nat)) :
    bulk (groups.map volume) ≤ bulk groups.flatten := by
  induction groups with
  | nil => exact Nat.le_refl _
  | cons group groups ih =>
    rw [map_cons, bulk_cons, flatten_cons, bulk_append]
    exact Nat.mul_le_mul (Nat.max_le.2 ⟨bulk_pos group, volume_le_bulk group⟩) ih

end Volumes

namespace Layout

theorem position_rowMajor_append {index : List Nat} {lens : List Nat}
    (hlength : index.length = lens.length) (others rest : List Nat) :
    (rowMajor (lens ++ others)).position (index ++ rest) =
      (rowMajor lens).position index * volume others + (rowMajor others).position rest := by
  induction index generalizing lens with
  | nil =>
    obtain rfl := eq_nil_of_length_eq_zero hlength.symm
    rw [nil_append, nil_append, rowMajor, position_nil, Nat.zero_mul, Nat.zero_add]
  | cons i index ih =>
    cases lens with
    | nil => cases hlength
    | cons len lens =>
      rw [cons_append, cons_append, rowMajor, position_cons,
        ih (Nat.succ.inj hlength), volume_append, rowMajor, position_cons, Nat.add_mul,
        Nat.mul_assoc, Nat.add_assoc]

theorem unflatten_position {index lens : List Nat} (hrange : InRange index lens) :
    unflatten lens ((rowMajor lens).position index) = index := by
  obtain ⟨hunflat, hposition⟩ := unflatten_spec (position_rowMajor_lt hrange)
  exact position_rowMajor_injective hunflat hrange hposition

theorem position_singleton (len i : Nat) : (rowMajor [len]).position [i] = i := by
  rw [rowMajor, position_cons, rowMajor, position_nil, Nat.add_zero]
  exact Nat.mul_one i

/-- The diagonal of a cube: every step goes as far as one step along each axis. -/
theorem position_replicate (count len i : Nat) :
    (rowMajor (List.replicate count len)).position (List.replicate count i) =
      i * ∑ exponent ∈ Finset.range count, len ^ exponent := by
  induction count with
  | zero => rw [replicate_zero, rowMajor, position_nil, Finset.range_zero, Finset.sum_empty,
      Nat.mul_zero]
  | succ count ih =>
    rw [replicate_succ, replicate_succ, rowMajor, position_cons, ih, volume_replicate,
      Finset.sum_range_succ, Nat.mul_add, Nat.add_comm]

end Layout

section Groups

variable {ι : Type} {len at' : ι → Nat}

theorem volume_groups (groups : List (List ι)) :
    volume (groups.map fun group => volume (group.map len)) = volume (groups.flatten.map len) := by
  induction groups with
  | nil => rfl
  | cons group groups ih =>
    rw [map_cons, volume, ih, flatten_cons, map_append, volume_append]

/-- Merging groups of axes keeps the position. -/
theorem position_groups (groups : List (List ι)) :
    (Layout.rowMajor (groups.map fun group => volume (group.map len))).position
        (groups.map fun group => (Layout.rowMajor (group.map len)).position (group.map at')) =
      (Layout.rowMajor (groups.flatten.map len)).position (groups.flatten.map at') := by
  induction groups with
  | nil => rfl
  | cons group groups ih =>
    rw [map_cons, map_cons, Layout.rowMajor, Layout.position_cons, ih,
      flatten_cons, map_append, map_append,
      Layout.position_rowMajor_append (by rw [length_map, length_map]), volume_groups]

theorem inRange_map {columns : List ι} (hbelow : ∀ column ∈ columns, at' column < len column) :
    InRange (columns.map at') (columns.map len) := by
  rw [InRange, forall₂_map_left_iff, forall₂_map_right_iff, forall₂_same]
  exact hbelow

theorem inRange_groups {groups : List (List ι)}
    (hbelow : ∀ group ∈ groups, ∀ column ∈ group, at' column < len column) :
    InRange (groups.map fun group => (Layout.rowMajor (group.map len)).position (group.map at'))
      (groups.map fun group => volume (group.map len)) := by
  apply inRange_map
  intro group hgroup
  exact Layout.position_rowMajor_lt (inRange_map (hbelow group hgroup))

end Groups

end TensorGraph
