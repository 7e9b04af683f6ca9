import TensorGraph.Proofs.Pass.Moves
import TensorGraph.Scalar.Binary32

/-!
# The number of workers

As long as no run has candidates that fault and others, two numbers of workers lead to the same counts,
the same graph and the same log.
-/

namespace TensorGraph

open List

/-- A revision goes on in the same way if it does after every result. -/
theorem stateBind_congr {α β γ : Type} {first first' : Revision α β} {next next' : β → Revision α γ}
    {w : Workspace α} (hfirst : first w = first' w)
    (hnext : ∀ value m, first' w = .ok value m → next value m = next' value m) :
    (first >>= next) w = (first' >>= next') w := by
  change EStateM.bind first next w = EStateM.bind first' next' w
  unfold EStateM.bind
  rw [hfirst]
  cases hrun : first' w with
  | ok value m => exact hnext value m hrun
  | error cause m => rfl

namespace Pass

variable {α : Type} [Scalar α] {settings settings' : Settings} {target : String} {w : Workspace α}
  {g : Graph α} {candidates : List NodeId}

/-- Whether the evaluation of a candidate faults. -/
def faults (g : Graph α) (candidate : NodeId) : Bool :=
  match candidateValue g candidate with
  | .error (.fault _) => true
  | _ => false

/-- In every run the evaluations of all candidates fault, or none does. -/
def Separated (workers : Nat) (g : Graph α) (candidates : List NodeId) : Prop :=
  ∀ run ∈ shares workers candidates, ∀ candidate ∈ run, ∀ other ∈ run,
    faults g candidate = faults g other

instance (workers : Nat) (g : Graph α) (candidates : List NodeId) :
    Decidable (Separated workers g candidates) :=
  inferInstanceAs (Decidable (∀ run ∈ _, _))

/-- What a candidate gets that is not given up for another one. -/
def ownValue (g : Graph α) (candidate : NodeId) : Except EvalError (Tensor α) :=
  match candidateValue g candidate with
  | .error (.fault _) => .error (.compute "contiguous" .abandoned)
  | .error (.refusal cause) => .error cause
  | .ok value => .ok value

theorem attempt_eq_of_faults {candidate : NodeId} :
    (faults g candidate = false →
      (candidateValue g candidate).attempt = .ok (ownValue g candidate)) ∧
    (faults g candidate = true → ownValue g candidate = .error (.compute "contiguous" .abandoned) ∧
      ∃ cause, (candidateValue g candidate).attempt = .error cause) := by
  unfold faults ownValue
  rcases candidateValue g candidate with (cause | cause) | value
  · exact ⟨nofun, fun _ => ⟨rfl, cause, rfl⟩⟩
  · exact ⟨fun _ => rfl, nofun⟩
  · exact ⟨fun _ => rfl, nofun⟩

theorem runValues_eq {run : List NodeId}
    (hkind : ∀ candidate ∈ run, ∀ other ∈ run, faults g candidate = faults g other) :
    runValues g run = run.map (ownValue g) := by
  cases run with
  | nil => rfl
  | cons first rest =>
    have hall := hkind first mem_cons_self
    unfold runValues
    cases hfirst : faults g first with
    | false =>
      have hvalues : (first :: rest).mapM (fun candidate => (candidateValue g candidate).attempt) =
          .ok ((first :: rest).map (ownValue g)) := by
        rw [mapM_eq_ok_iff, forall₂_map_right_iff, forall₂_same]
        exact fun candidate hmem => attempt_eq_of_faults.1 ((hall candidate hmem).symm.trans hfirst)
      rw [hvalues]
    | true =>
      obtain ⟨cause, hcause⟩ := (attempt_eq_of_faults.2 hfirst).2
      rw [mapM_cons, hcause]
      refine map_congr_left fun candidate hmem => ?_
      exact (attempt_eq_of_faults.2 ((hall candidate hmem).symm.trans hfirst)).1.symm

theorem candidateValues_eq {workers : Nat} (hseparated : Separated workers g candidates) :
    candidateValues workers g candidates = candidates.map (ownValue g) :=
  calc (shares workers candidates).flatMap (runValues g)
      = (shares workers candidates).flatMap (List.map (ownValue g)) :=
        flatMap_congr fun run hrun => runValues_eq (hseparated run hrun)
    _ = candidates.map (ownValue g) := by
        rw [flatMap_def, ← map_flatten, flatten_shares]

/-- With the workers of these settings, no candidate is given up for another in either sweep. -/
structure Separates (settings : Settings) (target : String) (w : Workspace α) : Prop where
  early : ∀ sweep m, survey settings target isEarly w = .ok sweep m →
    Separated settings.workers m.graph sweep.candidates
  full : ∀ stats middle sweep m, sweepContiguous settings target isEarly w = .ok stats middle →
    survey settings target (fun _ _ => .ok true) middle = .ok sweep m →
      Separated settings.workers m.graph sweep.candidates

theorem separates_of_runs {m middle m' : Workspace α} {sweep sweep' : Sweep}
    {stats : EliminationStats} (hnoted : survey settings target isEarly w = .ok sweep m)
    (hearly : Separated settings.workers m.graph sweep.candidates)
    (hswept : sweepContiguous settings target isEarly w = .ok stats middle)
    (hnoted' : survey settings target (fun _ _ => .ok true) middle = .ok sweep' m')
    (hfull : Separated settings.workers m'.graph sweep'.candidates) :
    Separates settings target w := by
  refine ⟨fun _ _ hrun => ?_, fun _ _ _ _ hrun hrun' => ?_⟩
  · cases hnoted.symm.trans hrun
    exact hearly
  · cases hswept.symm.trans hrun
    cases hnoted'.symm.trans hrun'
    exact hfull

section Congruence

variable (htrace : settings.trace = settings'.trace)

include htrace

theorem survey_congr (consider : Graph α → NodeId → Checked Bool) :
    survey settings target consider = survey settings' target consider := by
  unfold survey visitNode visitInput
  rw [htrace]

theorem foldCandidates_congr (hown : Separated settings.workers w.graph candidates)
    (hown' : Separated settings'.workers w.graph candidates) :
    foldCandidates settings candidates w = foldCandidates settings' candidates w := by
  change (foldlM _ 0 (candidates.zip (candidateValues settings.workers w.graph candidates)) :
    Revision α Nat) w = (foldlM _ 0 (candidates.zip (candidateValues settings'.workers w.graph
      candidates)) : Revision α Nat) w
  unfold foldCandidate
  rw [candidateValues_eq hown, candidateValues_eq hown', htrace]

theorem sweepContiguous_congr {consider : Graph α → NodeId → Checked Bool}
    (hown : ∀ sweep m, survey settings target consider w = .ok sweep m →
      Separated settings.workers m.graph sweep.candidates)
    (hown' : ∀ sweep m, survey settings' target consider w = .ok sweep m →
      Separated settings'.workers m.graph sweep.candidates) :
    sweepContiguous settings target consider w = sweepContiguous settings' target consider w := by
  change (survey settings target consider >>= _) w = (survey settings' target consider >>= _) w
  rw [survey_congr htrace] at hown ⊢
  refine stateBind_congr rfl fun sweep m hsurvey => stateBind_congr ?_ fun _ _ _ => rfl
  exact foldCandidates_congr htrace (hown sweep m hsurvey) (hown' sweep m hsurvey)

end Congruence

end Pass

/-- As long as no candidate is given up for another, an elimination does not depend on the number of
workers: it counts the same, leaves the same graph and writes the same log, or meets the same fault. -/
theorem eliminateContiguous_workers {α : Type} [Scalar α] {settings settings' : Settings}
    (htrace : settings.trace = settings'.trace) {target : String} {w : Workspace α}
    (hown : Pass.Separates settings target w) (hown' : Pass.Separates settings' target w) :
    Pass.eliminateContiguous settings target w = Pass.eliminateContiguous settings' target w := by
  have hfirst := Pass.sweepContiguous_congr htrace hown.early hown'.early
  refine stateBind_congr hfirst fun stats middle hrun => stateBind_congr ?_ fun _ _ _ => rfl
  exact Pass.sweepContiguous_congr htrace
    (fun sweep m => hown.full stats middle sweep m (hfirst.trans hrun))
    (fun sweep m => hown'.full stats middle sweep m hrun)

/-- A module that leaves one value of a matrix. -/
def shrinking : Graph Float32 :=
  ⟨"shrink",
    [(0, ⟨.parameter "x" (.strided .float32 [⟨2, 3⟩, ⟨3, 1⟩]),
       .strided .float32 [⟨2, 3⟩, ⟨3, 1⟩], [], []⟩),
     (1, ⟨.reduceSum [0, 1], .strided .float32 [⟨1, 1⟩, ⟨1, 1⟩], [0], []⟩),
     (2, ⟨.returns, .ofParts [.strided .float32 [⟨1, 1⟩, ⟨1, 1⟩]], [1], []⟩)],
    [], 3⟩

/-- Two candidates from a module that does not give the shape that is expected of it, which is a fault,
and one that has a value. -/
def faultyMatrices : Graph Float32 :=
  ⟨"",
    [(0, ⟨.literal (.strided .float32 [⟨2, 3⟩, ⟨3, 1⟩] #[1, 2, 3, 4, 5, 6]),
       .strided .float32 [⟨2, 3⟩, ⟨3, 1⟩], [], []⟩),
     (1, ⟨.pointwise, .strided .float32 [⟨2, 3⟩, ⟨3, 1⟩], [0], [shrinking]⟩),
     (2, ⟨.transpose [1, 0], .strided .float32 [⟨3, 1⟩, ⟨2, 3⟩], [1], []⟩),
     (3, ⟨.contiguous, .strided .float32 [⟨3, 2⟩, ⟨2, 1⟩], [2], []⟩),
     (4, ⟨.contiguous, .strided .float32 [⟨3, 2⟩, ⟨2, 1⟩], [2], []⟩),
     (5, ⟨.transpose [1, 0], .strided .float32 [⟨3, 1⟩, ⟨2, 3⟩], [0], []⟩),
     (6, ⟨.contiguous, .strided .float32 [⟨3, 2⟩, ⟨2, 1⟩], [5], []⟩),
     (7, ⟨.reshape [6], .strided .float32 [⟨6, 1⟩], [3], []⟩),
     (8, ⟨.reshape [6], .strided .float32 [⟨6, 1⟩], [4], []⟩),
     (9, ⟨.reshape [6], .strided .float32 [⟨6, 1⟩], [6], []⟩),
     (10, ⟨.returns, .ofParts (List.replicate 3 (.strided .float32 [⟨6, 1⟩])), [7, 8, 9], []⟩)],
    [], 11⟩

/-- Two workers take the faulty candidates in one run and three take them in two. -/
theorem workers_faultyMatrices :
    Pass.eliminateContiguous ⟨false, 2, false⟩ "contiguous" ⟨faultyMatrices, []⟩ =
      Pass.eliminateContiguous ⟨false, 3, false⟩ "contiguous" ⟨faultyMatrices, []⟩ ∧
    ∃ final, Pass.eliminateContiguous ⟨false, 2, false⟩ "contiguous" ⟨faultyMatrices, []⟩ =
      .ok ⟨0, 1⟩ final :=
  ⟨eliminateContiguous_workers rfl
    (Pass.separates_of_runs rfl (by decide +kernel) rfl rfl (by decide +kernel))
    (Pass.separates_of_runs rfl (by decide +kernel) rfl rfl (by decide +kernel)), _, rfl⟩

/-- One worker gives up the candidate that has a value, two do not. -/
theorem not_eliminateContiguous_workers :
    ¬ ∀ (g : Graph Float32) (log : List LogLine) (settings settings' : Settings), g.Coherent →
      g.Ordered → settings.trace = settings'.trace → 0 < settings.workers → 0 < settings'.workers →
      ∀ stats stats' final final',
        Pass.eliminateContiguous settings "contiguous" ⟨g, log⟩ = .ok stats final →
        Pass.eliminateContiguous settings' "contiguous" ⟨g, log⟩ = .ok stats' final' →
          stats = stats' ∧ final.graph = final'.graph := by
  intro hclaim
  have hsame := hclaim faultyMatrices [] ⟨false, 1, false⟩ ⟨false, 2, false⟩ (by decide) (by decide) rfl
    Nat.one_pos (by decide) ⟨0, 0⟩ ⟨0, 1⟩ _ _ rfl rfl
  cases hsame.1

end TensorGraph
