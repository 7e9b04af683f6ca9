/-!
# Sorting

Stable sorting by insertion. The recursion is on the list, so the sorted form of a concrete list can
be computed inside a proof.
-/

namespace TensorGraph

variable {β : Type}

/-- Put an item in front of the first one that it may precede. -/
def insertSorted (le : β → β → Bool) (item : β) : List β → List β
  | [] => [item]
  | first :: rest =>
    if le item first then item :: first :: rest else first :: insertSorted le item rest

/-- The items in ascending order; of equal items the earlier one comes first. -/
def sorted (le : β → β → Bool) : List β → List β
  | [] => []
  | item :: rest => insertSorted le item (sorted le rest)

theorem insertSorted_perm (le : β → β → Bool) (item : β) (items : List β) :
    (insertSorted le item items).Perm (item :: items) := by
  induction items with
  | nil => exact .refl _
  | cons first rest ih =>
    rw [insertSorted]
    split
    · exact .refl _
    · exact (ih.cons first).trans (.swap item first rest)

theorem sorted_perm (le : β → β → Bool) (items : List β) : (sorted le items).Perm items := by
  induction items with
  | nil => exact .refl _
  | cons item rest ih => exact (insertSorted_perm le item _).trans (ih.cons item)

theorem insertSorted_pairwise {le : β → β → Bool}
    (htotal : ∀ a b, le a b = true ∨ le b a = true)
    (htrans : ∀ a b c, le a b = true → le b c = true → le a c = true) (item : β) {items : List β}
    (hsorted : items.Pairwise fun a b => le a b = true) :
    (insertSorted le item items).Pairwise fun a b => le a b = true := by
  induction items with
  | nil => exact List.pairwise_singleton _ _
  | cons first rest ih =>
    obtain ⟨hfirst, hrest⟩ := List.pairwise_cons.1 hsorted
    rw [insertSorted]
    split
    next hle =>
      apply List.pairwise_cons.2 ⟨_, hsorted⟩
      intro other hother
      rcases List.mem_cons.1 hother with rfl | hother
      · exact hle
      · exact htrans _ _ _ hle (hfirst other hother)
    next hle =>
      apply List.pairwise_cons.2 ⟨_, ih hrest⟩
      intro other hother
      rcases List.mem_cons.1 ((insertSorted_perm le item rest).mem_iff.1 hother) with rfl | hother
      · exact (htotal first other).resolve_right hle
      · exact hfirst other hother

theorem sorted_pairwise {le : β → β → Bool}
    (htotal : ∀ a b, le a b = true ∨ le b a = true)
    (htrans : ∀ a b c, le a b = true → le b c = true → le a c = true) (items : List β) :
    (sorted le items).Pairwise fun a b => le a b = true := by
  induction items with
  | nil => exact .nil
  | cons item items ih => exact insertSorted_pairwise htotal htrans item ih

end TensorGraph
