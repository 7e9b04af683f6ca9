import TensorGraph.Proofs.Pass.DeadCode
import TensorGraph.Proofs.Pass.Potential

/-!
# Repeating the pipeline

Every round but the first starts from a clean graph. Some pass lowers the potential, or at most values are
embedded that nothing reads and that are dropped again.
-/

namespace TensorGraph

namespace Pass

open Graph Revision

variable {α : Type} {g h k : Graph α}

/-- How far a round has come from a graph: there is nothing new but literals in front, or the potential
has fallen. -/
structure Progress (g h : Graph α) : Prop extends h.Coherent where
  ordered : h.Ordered
  potential_le : h.potential ≤ g.potential
  /-- Nothing to speak of has happened, or the potential has fallen. -/
  padded_or_lower : Padded g h ∨ h.potential < g.potential

theorem progress_self (hcoherent : g.Coherent) (hordered : g.Ordered) : Progress g g :=
  ⟨hcoherent, hordered, Nat.le_refl _, .inl (padded_self g)⟩

theorem Progress.reworks (hprogress : Progress g h) (hreworks : Reworks h k) : Progress g k := by
  obtain ⟨hcoherent, hordered, hle, hcases⟩ := hprogress
  obtain ⟨hcoherent', hordered'⟩ := coherent_ordered_of_steps hreworks.steps hcoherent hordered
  have hle' := potential_le_of_steps hreworks.steps hcoherent hordered
  refine ⟨hcoherent', hordered', Nat.le_trans hle' hle, ?_⟩
  rcases hcases with hpadded | hlower
  · rcases hreworks with hembeds | hrewrites
    · exact .inl (hpadded.embeds hembeds)
    · exact .inr (Nat.lt_of_lt_of_le (hrewrites.potential_lt hcoherent hordered) hle)
  · exact .inr (Nat.lt_of_le_of_lt hle' hlower)

theorem Progress.erase (hclean : g.Clean) (hprogress : Progress g h) {node : NodeId}
    (hspare : h.Spare node) : Progress g (h.erase node) := by
  obtain ⟨hcoherent, hordered, hle, hcases⟩ := hprogress
  have hle' := potential_erase_le hspare.1
  refine ⟨hcoherent.erase hspare.1, hordered.erase hspare.1, Nat.le_trans hle' hle, ?_⟩
  rcases hcases with hpadded | hlower
  · exact .inl (hpadded.erase hcoherent.nodup hclean hspare)
  · exact .inr (Nat.lt_of_le_of_lt hle' hlower)

section Rounds

variable [Scalar α] {settings : Settings} {w final : Workspace α} {report : PassReport}

/-- What each pass of the pipeline makes of a clean graph. -/
theorem Progress.run (hclean : g.Clean) (hprogress : Progress g w.graph) {pass : Pass}
    (hpass : pass = .deadCode ∨
      pass = .simplifyReshapes ∨ pass = eliminateDefault ∨ pass = .fuseConcat)
    (hrun : Pass.run settings pass w = .ok report final) : Progress g final.graph := by
  rcases hpass with rfl | hpass
  · obtain ⟨total, hpassed⟩ := run_deadCode_eq_ok hrun
    exact dropDeadCode_invariant (fun hprogress hunread hkept =>
      Progress.erase hclean hprogress ⟨hunread, hkept⟩) hprogress hpassed
  · exact hprogress.reworks (run_reworks hpass hprogress.toCoherent hprogress.ordered hrun)

theorem run_generic_eq_ok (hrun : run settings generic w = .ok report final) :
    ∃ reports, runAll settings
      [.simplifyReshapes, .deadCode, eliminateDefault, .deadCode, .fuseConcat, .deadCode] w =
        .ok reports final := by
  rw [generic, run] at hrun
  obtain ⟨reports, _, hpassed, hrun⟩ := stateBind_eq_ok_iff.1 hrun
  cases hrun
  exact ⟨reports, hpassed⟩

/-- A round from a clean graph. -/
theorem progress_of_round (hcoherent : w.graph.Coherent) (hordered : w.graph.Ordered)
    (hclean : w.graph.Clean) (hrun : run settings generic w = .ok report final) :
    Progress w.graph final.graph := by
  obtain ⟨reports, hpassed⟩ := run_generic_eq_ok hrun
  refine runAll_invariant (motive := Progress w.graph) (fun pass hmem k next report hprogress hrun => ?_)
    (progress_self hcoherent hordered) hpassed
  refine hprogress.run hclean ?_ hrun
  simp only [List.mem_cons, List.not_mem_nil, or_false] at hmem
  tauto

theorem runAll_concat_eq_ok (passes : List Pass) {pass : Pass} {reports : List PassReport}
    (hrun : runAll settings (passes ++ [pass]) w = .ok reports final) :
    ∃ reports' middle report, runAll settings passes w = .ok reports' middle ∧
      run settings pass middle = .ok report final := by
  induction passes generalizing w reports with
  | nil =>
    obtain ⟨report, _, middle, -, hlast, hrun⟩ := runAll_cons_eq_ok_iff.1 hrun
    rw [runAll] at hrun
    cases hrun
    exact ⟨[], w, report, by rw [runAll]; rfl, hlast⟩
  | cons first passes ih =>
    obtain ⟨report, _, middle, -, hfirst, hrest⟩ := runAll_cons_eq_ok_iff.1 hrun
    obtain ⟨reports', middle', report', hfront, hlast⟩ := ih hrest
    exact ⟨report :: reports', middle', report',
      runAll_cons_eq_ok_iff.2 ⟨report, reports', middle, rfl, hfirst, hfront⟩, hlast⟩

/-- A round ends with a clean graph. -/
theorem clean_of_round (hcoherent : w.graph.Coherent) (hordered : w.graph.Ordered)
    (hrun : run settings generic w = .ok report final) : final.graph.Clean := by
  obtain ⟨reports, hpassed⟩ := run_generic_eq_ok hrun
  obtain ⟨reports', middle, report', hfront, hlast⟩ := runAll_concat_eq_ok
    [.simplifyReshapes, .deadCode, eliminateDefault, .deadCode, .fuseConcat] hpassed
  have hmiddle : middle.graph.Coherent ∧ middle.graph.Ordered := by
    refine runAll_invariant (motive := fun k => k.Coherent ∧ k.Ordered)
      (fun pass hmem k next report hbefore hrun => ?_) ⟨hcoherent, hordered⟩ hfront
    have hpass : Structural pass := by
      cases structural_generic with
      | sequence hpasses => exact hpasses pass (List.mem_append_left _ hmem)
    exact coherent_ordered_of_steps (hpass.steps hbefore.1 hbefore.2 hrun) hbefore.1 hbefore.2
  obtain ⟨total, hdropped⟩ := run_deadCode_eq_ok hlast
  exact dropDeadCode_clean hmiddle.1.nodup hdropped

/-- A round from a clean graph changes nothing, or lowers the potential. -/
theorem same_or_lower_of_round (hcoherent : w.graph.Coherent) (hordered : w.graph.Ordered)
    (hclean : w.graph.Clean) (hrun : run settings generic w = .ok report final) :
    final.graph.text = w.graph.text ∨ final.graph.potential < w.graph.potential := by
  obtain ⟨hcoherent', -, -, hpadded | hlower⟩ := progress_of_round hcoherent hordered hclean hrun
  · have hnodes := hpadded.nodes_eq hcoherent'.nodup hcoherent
      (clean_of_round hcoherent hordered hrun)
    left
    rw [Graph.text, Graph.text, hnodes, hpadded.name]
  · exact .inr hlower

end Rounds

section Repetition

variable [Scalar α] {settings : Settings} {rounds : Nat → Workspace α}
  (hrounds : ∀ n, ∃ report, run settings generic (rounds n) = .ok report (rounds (n + 1)))

include hrounds

/-- Rounds that go through leave texts, one of which is written twice at the end of the loop. -/
theorem repeatWithin_eq_ok {count : Nat}
    (hprints : ∀ n ≤ count + 1, ∃ printed, (rounds n).graph.text = .ok printed)
    (hdiffers : ∀ n < count, (rounds (n + 1)).graph.text ≠ (rounds n).graph.text)
    (hsame : (rounds (count + 1)).graph.text = (rounds count).graph.text)
    {bound n : Nat} (hn : n ≤ count) (hbound : count < n + bound) {printed : String}
    (hprinted : (rounds n).graph.text = .ok printed) :
    repeatWithin (do let _ ← run settings generic) bound printed (rounds n) =
      .ok () (rounds (count + 1)) := by
  induction bound generalizing n printed with
  | zero => exact absurd hn (Nat.not_le.2 hbound)
  | succ bound ih =>
    obtain ⟨report, hround⟩ := hrounds n
    obtain ⟨current, hcurrent⟩ := hprints (n + 1) (Nat.succ_le_succ hn)
    rw [repeatWithin]
    refine stateBind_eq_ok_iff.2 ⟨(), rounds (n + 1),
      stateBind_eq_ok_iff.2 ⟨report, _, hround, rfl⟩, ?_⟩
    refine stateBind_eq_ok_iff.2 ⟨_, rounds (n + 1), rfl, ?_⟩
    refine stateBind_eq_ok_iff.2 ⟨current, _, lift_eq_ok_iff.2 ⟨hcurrent, rfl⟩, ?_⟩
    rcases Nat.eq_or_lt_of_le hn with rfl | hlt
    · rw [hcurrent, hprinted] at hsame
      rw [if_pos (Except.ok.inj hsame)]
      rfl
    · have hne : current ≠ printed := by
        rintro rfl
        exact hdiffers n hlt (hcurrent.trans hprinted.symm)
      rw [if_neg hne]
      exact ih hlt (by omega) hcurrent

variable (hcoherent : (rounds 0).graph.Coherent) (hordered : (rounds 0).graph.Ordered)

include hcoherent hordered

theorem coherent_ordered_of_rounds (n : Nat) :
    (rounds n).graph.Coherent ∧ (rounds n).graph.Ordered := by
  induction n with
  | zero => exact ⟨hcoherent, hordered⟩
  | succ n ih =>
    obtain ⟨report, hround⟩ := hrounds n
    exact coherent_ordered_of_steps (structural_generic.steps ih.1 ih.2 hround) ih.1 ih.2

/-- A text is written twice after no more rounds than the potential allows. -/
theorem exists_repeated_text : ∃ n ≤ (rounds 0).graph.potential + 1,
    (rounds (n + 1)).graph.text = (rounds n).graph.text := by
  by_contra hnone
  push Not at hnone
  have hstart : (rounds 1).graph.potential ≤ (rounds 0).graph.potential := by
    obtain ⟨report, hround⟩ := hrounds 0
    exact potential_le_of_steps (structural_generic.steps hcoherent hordered hround) hcoherent hordered
  -- The first round cleans the graph; each later one lowers the potential.
  have hfalls : ∀ n ≤ (rounds 0).graph.potential + 1,
      (rounds (n + 1)).graph.potential + n ≤ (rounds 0).graph.potential := by
    intro n hn
    induction n with
    | zero => exact hstart
    | succ n ih =>
      obtain ⟨report, hround⟩ := hrounds n
      obtain ⟨report', hround'⟩ := hrounds (n + 1)
      obtain ⟨hcoherent', hordered'⟩ := coherent_ordered_of_rounds hrounds hcoherent hordered n
      obtain ⟨hcoherent'', hordered''⟩ :=
        coherent_ordered_of_rounds hrounds hcoherent hordered (n + 1)
      have hclean := clean_of_round hcoherent' hordered' hround
      have hlower := (same_or_lower_of_round hcoherent'' hordered'' hclean hround').resolve_left
        (hnone (n + 1) hn)
      have hbefore := ih (Nat.le_of_succ_le hn)
      omega
  have hlast := hfalls _ (Nat.le_refl _)
  omega

end Repetition

end Pass

/-- The pipeline repeated on a coherent graph in order comes to an end: if all rounds go through, some
round leaves the text of the graph as it was. The loop stops after the first such round, as long as
the graphs up to there can be printed. -/
theorem looped_generic_ends {α : Type} [Scalar α] {settings : Settings}
    {rounds : Nat → Workspace α} (hcoherent : (rounds 0).graph.Coherent)
    (hordered : (rounds 0).graph.Ordered)
    (hrounds : ∀ n, ∃ report,
      Pass.run settings Pass.generic (rounds n) = .ok report (rounds (n + 1))) :
    ∃ n, (rounds (n + 1)).graph.text = (rounds n).graph.text ∧
      ((∀ i ≤ n + 1, ∃ printed, (rounds i).graph.text = .ok printed) →
        Pass.run settings (.looped Pass.generic) (rounds 0) = .ok .nothing (rounds (n + 1))) := by
  classical
  obtain ⟨round, hbound, hround⟩ := Pass.exists_repeated_text hrounds hcoherent hordered
  have hexists : ∃ n, (rounds (n + 1)).graph.text = (rounds n).graph.text := ⟨round, hround⟩
  refine ⟨Nat.find hexists, Nat.find_spec hexists, fun hprints => ?_⟩
  have hle : Nat.find hexists ≤ (rounds 0).graph.potential + 1 :=
    Nat.le_trans (Nat.find_min' hexists hround) hbound
  have henough : Nat.find hexists < Pass.repetitionBound (rounds 0).graph := by
    have hpow := Graph.potential_le_pow hcoherent.nodup
    rw [Pass.repetitionBound, Nat.pow_eq]
    omega
  obtain ⟨printed, hprinted⟩ := hprints 0 (Nat.zero_le _)
  rw [Pass.run]
  refine stateBind_eq_ok_iff.2 ⟨_, rounds 0, rfl, ?_⟩
  refine stateBind_eq_ok_iff.2 ⟨printed, _, Revision.lift_eq_ok_iff.2 ⟨hprinted, rfl⟩, ?_⟩
  refine stateBind_eq_ok_iff.2 ⟨(), rounds (Nat.find hexists + 1), ?_, rfl⟩
  exact Pass.repeatWithin_eq_ok hrounds hprints (fun n hn => Nat.find_min hexists hn)
    (Nat.find_spec hexists) (Nat.zero_le _) (by simpa using henough) hprinted

/-- A matrix that is transposed, made contiguous and transposed back, with the sum of the last two
reduced. -/
def symmetrized : Graph Float32 where
  name := "symmetrized"
  nodes :=
    [(0, ⟨.parameter "a" (.strided .float32 [⟨2, 2⟩, ⟨2, 1⟩]),
        .strided .float32 [⟨2, 2⟩, ⟨2, 1⟩], [], []⟩),
     (1, ⟨.transpose [1, 0], .strided .float32 [⟨2, 1⟩, ⟨2, 2⟩], [0], []⟩),
     (2, ⟨.contiguous, .strided .float32 [⟨2, 2⟩, ⟨2, 1⟩], [1], []⟩),
     (3, ⟨.transpose [1, 0], .strided .float32 [⟨2, 1⟩, ⟨2, 2⟩], [2], []⟩),
     (4, ⟨.binary .add, .strided .float32 [⟨2, 2⟩, ⟨2, 1⟩], [2, 3], []⟩),
     (5, ⟨.reduceSum [0], .strided .float32 [⟨1, 2⟩, ⟨2, 1⟩], [4], []⟩)]
  vacant := []
  fresh := 6

/-- The same graph once the two transpositions are cut short: the sum reads the matrix itself. -/
def symmetrizedShort : Graph Float32 where
  name := "symmetrized"
  nodes :=
    [(0, ⟨.parameter "a" (.strided .float32 [⟨2, 2⟩, ⟨2, 1⟩]),
        .strided .float32 [⟨2, 2⟩, ⟨2, 1⟩], [], []⟩),
     (1, ⟨.transpose [1, 0], .strided .float32 [⟨2, 1⟩, ⟨2, 2⟩], [0], []⟩),
     (2, ⟨.contiguous, .strided .float32 [⟨2, 2⟩, ⟨2, 1⟩], [1], []⟩),
     (4, ⟨.binary .add, .strided .float32 [⟨2, 2⟩, ⟨2, 1⟩], [2, 0], []⟩),
     (5, ⟨.reduceSum [0], .strided .float32 [⟨1, 2⟩, ⟨2, 1⟩], [4], []⟩)]
  vacant := [3]
  fresh := 6

/-- What a round makes of it: the sum reads the transposition and the matrix itself. -/
def symmetrizedOnce : Graph Float32 where
  name := "symmetrized"
  nodes :=
    [(0, ⟨.parameter "a" (.strided .float32 [⟨2, 2⟩, ⟨2, 1⟩]),
        .strided .float32 [⟨2, 2⟩, ⟨2, 1⟩], [], []⟩),
     (1, ⟨.transpose [1, 0], .strided .float32 [⟨2, 1⟩, ⟨2, 2⟩], [0], []⟩),
     (4, ⟨.binary .add, .strided .float32 [⟨2, 2⟩, ⟨2, 1⟩], [1, 0], []⟩),
     (5, ⟨.reduceSum [0], .strided .float32 [⟨1, 2⟩, ⟨2, 1⟩], [4], []⟩)]
  vacant := [2, 3]
  fresh := 6

theorem round_symmetrized : ∃ report,
    Pass.run ⟨false, 1, false⟩ Pass.generic ⟨symmetrized, []⟩ = .ok report ⟨symmetrizedOnce, []⟩ := by
  have hshort : Pass.run ⟨false, 1, false⟩ .simplifyReshapes ⟨symmetrized, []⟩ =
      .ok (.count 1) ⟨symmetrizedShort, []⟩ := by rfl
  have hrest : Pass.runAll ⟨false, 1, false⟩
      [.deadCode, Pass.eliminateDefault, .deadCode, .fuseConcat, .deadCode] ⟨symmetrizedShort, []⟩ =
        .ok [.count 0, .elimination ⟨1, 0⟩, .count 1, .count 0, .count 0] ⟨symmetrizedOnce, []⟩ := by
    rfl
  have hall := Pass.runAll_cons_eq_ok_iff.2 ⟨_, _, _, rfl, hshort, hrest⟩
  rw [Pass.generic, Pass.run]
  exact ⟨_, stateBind_eq_ok_iff.2 ⟨_, _, hall, rfl⟩⟩

theorem round_symmetrizedOnce : ∃ report,
    Pass.run ⟨false, 1, false⟩ Pass.generic ⟨symmetrizedOnce, []⟩ =
      .ok report ⟨symmetrizedOnce, []⟩ :=
  ⟨.sequence [.count 0, .count 0, .elimination ⟨0, 0⟩, .count 0, .count 0, .count 0], by rfl⟩

/-- The graphs after so many rounds. -/
def symmetrizedRounds : Nat → Workspace Float32
  | 0 => ⟨symmetrized, []⟩
  | _ + 1 => ⟨symmetrizedOnce, []⟩

/-- One round changes the graph and the next one does not, so the loop ends with what the first round
made. -/
theorem looped_symmetrized_ends :
    Pass.run ⟨false, 1, false⟩ (.looped Pass.generic) ⟨symmetrized, []⟩ =
      .ok .nothing ⟨symmetrizedOnce, []⟩ := by
  have hrounds : ∀ n, ∃ report, Pass.run ⟨false, 1, false⟩ Pass.generic (symmetrizedRounds n) =
      .ok report (symmetrizedRounds (n + 1)) := by
    intro n
    cases n with
    | zero => exact round_symmetrized
    | succ n => exact round_symmetrizedOnce
  have hprints : ∀ n, ∃ printed, (symmetrizedRounds n).graph.text = .ok printed := by
    have hisOk : symmetrized.text.isOk = true ∧ symmetrizedOnce.text.isOk = true := by
      decide +kernel
    intro n
    cases n with
    | zero => exact isOk_eq_true_iff.1 hisOk.1
    | succ n => exact isOk_eq_true_iff.1 hisOk.2
  obtain ⟨n, -, hends⟩ := looped_generic_ends (by decide) (by decide) hrounds
  exact hends fun i _ => hprints i

end TensorGraph
