import TensorGraph.Proofs.Graph.Growth

/-!
# The bound on nesting

What a node yields depends on the runner at its modules only, so every bound that is large enough gives
the same values.
-/

namespace TensorGraph.Graph

variable {α : Type} {g module : Graph α} {node : NodeId} {stored : Stored α} {bindings : Bindings α}

theorem depth_le_modulesDepth {modules : List (Graph α)} (hmodule : module ∈ modules) :
    module.depth ≤ modulesDepth modules := by
  induction modules with
  | nil => cases hmodule
  | cons first rest ih =>
    rw [modulesDepth]
    rcases List.mem_cons.1 hmodule with rfl | hmodule
    · exact Nat.le_max_left _ _
    · exact Nat.le_trans (ih hmodule) (Nat.le_max_right _ _)

theorem depth_le_nodesDepth {nodes : List (NodeId × Instruction α (Graph α))}
    {entry : NodeId × Instruction α (Graph α)} (hentry : entry ∈ nodes)
    (hmodule : module ∈ entry.2.modules) : module.depth ≤ nodesDepth nodes := by
  induction nodes with
  | nil => cases hentry
  | cons first rest ih =>
    obtain ⟨node, op, shape, inputs, modules⟩ := first
    rw [nodesDepth]
    rcases List.mem_cons.1 hentry with rfl | hentry
    · exact Nat.le_trans (depth_le_modulesDepth hmodule) (Nat.le_max_left _ _)
    · exact Nat.le_trans (ih hentry) (Nat.le_max_right _ _)

/-- A module is nested less deep than a graph that uses it. -/
theorem depth_module_lt (hfound : g.find? node = some stored) (hmodule : module ∈ stored.modules) :
    module.depth < g.depth := by
  obtain ⟨name, nodes, vacant, fresh⟩ := g
  rw [depth, Nat.lt_succ_iff]
  exact depth_le_nodesDepth (mem_nodes_of_find? hfound) hmodule

theorem nodesDepth_le_depth (g : Graph α) : nodesDepth g.nodes ≤ g.depth := by
  cases g
  exact Nat.le_succ _

variable [Scalar α]

/-- Runners that agree on the modules of a graph give its nodes the same values. -/
theorem valueWithin_congr {run run' : Runner α} (hsame : ∀ node stored, g.find? node = some stored →
      stored.modules.map (callableBy run) = stored.modules.map (callableBy run')) (bound : Nat)
    (node : NodeId) :
    valueWithin run g bindings bound node = valueWithin run' g bindings bound node := by
  induction bound generalizing node with
  | zero => rfl
  | succ bound ih => exact valueWithin_succ_congr rfl (hsame node) fun _ _ input _ => ih input

/-- Every bound from the depth of a graph on runs it alike. -/
theorem runWithin_eq_of_depth_le {first second : Nat} (hfirst : g.depth ≤ first)
    (hsecond : g.depth ≤ second) : (runWithin first : Runner α) g = runWithin second g := by
  have hpos := g.depth_pos
  induction first generalizing g second with
  | zero => omega
  | succ first ih =>
    obtain ⟨second, rfl⟩ : ∃ inner, second = inner + 1 := ⟨second - 1, by omega⟩
    have hmodules : ∀ node stored, g.find? node = some stored →
        stored.modules.map (callableBy (runWithin first : Runner α)) =
          stored.modules.map (callableBy (runWithin second)) := by
      refine fun node stored hfound => List.map_congr_left fun module hmodule => ?_
      have hlower := depth_module_lt hfound hmodule
      rw [callableBy, callableBy, @ih module second (by omega) (by omega) module.depth_pos]
    funext bindings
    show g.valuesWith (runWithin first) bindings g.results =
      g.valuesWith (runWithin second) bindings g.results
    rw [valuesWith, valuesWith, funext (valueWithin_congr hmodules _)]

theorem runWithin_eq_run {depth : Nat} (hdepth : g.depth ≤ depth) :
    (runWithin depth : Runner α) g = g.run :=
  funext fun _ => congrFun (runWithin_eq_of_depth_le hdepth (Nat.le_refl _)) _

/-- The modules of a node are run as graphs of their own, however deep they are nested. -/
theorem map_callableBy {depth : Nat} (hdepth : nodesDepth g.nodes ≤ depth)
    (hfound : g.find? node = some stored) :
    stored.modules.map (callableBy (runWithin depth)) = stored.modules.map callable := by
  refine List.map_congr_left fun module hmodule => ?_
  have hbelow := depth_le_nodesDepth (mem_nodes_of_find? hfound) hmodule
  rw [callable, callableBy, callableBy, runWithin_eq_run (hbelow.trans hdepth)]

theorem map_callableBy_moduleRunner (hfound : g.find? node = some stored) :
    stored.modules.map (callableBy g.moduleRunner) = stored.modules.map callable :=
  map_callableBy (Nat.le_refl _) hfound

theorem map_callableBy_depth (hfound : g.find? node = some stored) :
    stored.modules.map (callableBy (runWithin g.depth)) = stored.modules.map callable :=
  map_callableBy (nodesDepth_le_depth g) hfound

theorem Yields.mono_extends {h : Graph α} {t : Tensor α}
    (hextends : g.Extends h) (hyields : Yields (runWithin g.depth) g bindings node t) :
    Yields (runWithin h.depth) h bindings node t := by
  induction hyields with
  | parameter hfound hop hbound => exact .parameter (hextends hfound) hop hbound
  | apply hfound hop hlength _ happly ih =>
    refine .apply (hextends hfound) hop hlength ih ?_
    rwa [map_callableBy_depth (hextends hfound), ← map_callableBy_depth hfound]

end TensorGraph.Graph
