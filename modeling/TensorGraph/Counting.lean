/-!
# Counting loops

A loop over consecutive numbers, which are made one at a time, so a loop that stops early costs no
more than the steps it took.
-/

namespace TensorGraph

variable {m : Type → Type} [Monad m] {β σ : Type}

/-- Take a step for each of `count` numbers, from `first` on. -/
@[specialize]
def foldCountM (step : σ → Nat → m σ) : (first count : Nat) → σ → m σ
  | _, 0, state => pure state
  | first, count + 1, state => do foldCountM step (first + 1) count (← step state first)

/-- A counting loop folds the list of its numbers. -/
theorem foldCountM_eq_foldlM (step : σ → Nat → m σ) (first count : Nat) (state : σ) :
    foldCountM step first count state = (List.range' first count).foldlM step state := by
  induction count generalizing first state with
  | zero => rfl
  | succ count ih => simp only [foldCountM, List.range'_succ, List.foldlM_cons, ih]

/-- Folding lists that are put together is folding them one after another. -/
theorem foldlM_flatMap [LawfulMonad m] {γ : Type} (step : σ → γ → m σ) (part : β → List γ)
    (items : List β) (state : σ) :
    (items.flatMap part).foldlM step state =
      items.foldlM (fun state item => (part item).foldlM step state) state := by
  induction items generalizing state with
  | nil => rfl
  | cons item items ih => simp only [List.flatMap_cons, List.foldlM_append, List.foldlM_cons, ih]

end TensorGraph
