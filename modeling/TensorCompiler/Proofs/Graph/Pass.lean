import TensorCompiler.Graph.Pass
import TensorCompiler.Proofs.Graph.Build
import TensorCompiler.Proofs.Graph.Fusion

/-! # Passes over built graphs

A graph over floats that is built in any steps, with any outputs, evaluates to the same arrays after any number of fusion
passes: each pass succeeds on it and keeps the values that fit together.
-/

namespace TensorCompiler

namespace GraphPass

/-- Whether a pass merges operators. -/
def isFusion : GraphPass → Bool
  | fuseUnary | fuseEpilogue | fusePrologue => true
  | constFold | patternTransform => false

/-- A fusion pass applies a sound rule. -/
theorem exists_rule_of_isFusion [FloatOps] {pass : GraphPass} (hpass : pass.isFusion) :
    ∃ rule : FusionRule, rule.Sound ∧ pass.run = Graph.fuseAll rule := by
  cases pass with
  | fuseUnary => exact ⟨_, FusionRule.unary_sound, rfl⟩
  | fuseEpilogue => exact ⟨_, FusionRule.epilogue_sound, rfl⟩
  | fusePrologue => exact ⟨_, FusionRule.prologue_sound, rfl⟩
  | constFold | patternTransform => cases hpass

/-- A fusion pass succeeds on a well-formed graph over floats and keeps its values. -/
theorem exists_run_of_isFusion [FloatOps] {pass : GraphPass} {g : Graph} (hpass : pass.isFusion)
    (hg : g.WellFormed .real) : ∃ g', pass.run g = .ok g' ∧ g'.WellFormed .real ∧ g.KeepsValues g' := by
  obtain ⟨rule, hrule, hrun⟩ := exists_rule_of_isFusion hpass
  rw [hrun]
  exact hg.keepsValues_fuseAll hrule

end GraphPass

namespace PassRun

/-- Fusion passes after each other succeed, and each graph on the way has the values of the first one. -/
theorem exists_runSteps_of_isFusion [FloatOps] {passes : List GraphPass} {g : Graph}
    (hpasses : ∀ pass ∈ passes, pass.isFusion) (hg : g.WellFormed .real) :
    ∃ steps last, runSteps g passes = .ok (steps, last) ∧ (last.WellFormed .real ∧ g.KeepsValues last) ∧
      ∀ step ∈ steps, step.2.WellFormed .real ∧ g.KeepsValues step.2 := by
  induction passes generalizing g with
  | nil => exact ⟨[], g, rfl, ⟨hg, fun _ _ _ hV => hV⟩, fun step hstep => by cases hstep⟩
  | cons pass passes ih =>
    obtain ⟨next, hnext, hwell, hkeeps⟩ := GraphPass.exists_run_of_isFusion (hpasses pass List.mem_cons_self) hg
    obtain ⟨steps, last, hrun, hlast, hsteps⟩ := ih (fun pass hpass => hpasses pass (List.mem_cons_of_mem _ hpass)) hwell
    refine ⟨(pass, next) :: steps, last, ?_, ⟨hlast.1, hkeeps.trans hlast.2⟩, fun step hstep => ?_⟩
    · rw [runSteps, hnext]
      change (runSteps next passes >>= _) = _
      rw [hrun]
      rfl
    · rcases List.mem_cons.mp hstep with rfl | hstep
      · exact ⟨hwell, hkeeps⟩
      · exact ⟨(hsteps step hstep).1, hkeeps.trans (hsteps step hstep).2⟩

end PassRun

namespace Graph

/-- Fusion preserves results: whatever a graph over floats evaluates to, each fusion pass after another succeeds and
leaves a graph that evaluates to the same arrays. -/
theorem evaluate_runSteps_of_isFusion [FloatOps] {steps : List BuildStep} {passes : List GraphPass} {inputs : Tensors}
    {outs : List NDArray} (hsteps : ∀ step ∈ steps, step.hasKind .real) (hpasses : ∀ pass ∈ passes, pass.isFusion)
    (heval : (build steps).evaluate inputs = .ok outs) :
    ∃ trace last, PassRun.runSteps (build steps) passes = .ok (trace, last) ∧
      (∀ entry ∈ trace, entry.2.evaluate inputs = .ok outs) ∧ last.evaluate inputs = .ok outs := by
  have hwell := wellFormed_build hsteps
  obtain ⟨V, hV⟩ := hwell.evaluate_eq_ok_iff.mp heval
  have hkept : ∀ g : Graph, g.WellFormed .real ∧ (build steps).KeepsValues g → g.evaluate inputs = .ok outs :=
    fun g hg => hg.1.evaluate_eq_ok_iff.mpr ⟨V, hg.2 inputs V outs hV⟩
  obtain ⟨trace, last, hrun, hlast, htrace⟩ := PassRun.exists_runSteps_of_isFusion hpasses hwell
  exact ⟨trace, last, hrun, fun entry hentry => hkept entry.2 (htrace entry hentry), hkept last hlast⟩

/-- The greatest of the negated distances of the members of two vectors. -/
def distanceSteps : List BuildStep :=
  [.input "x" .float32 [2], .input "y" .float32 [2], .binary .sub 0 1, .unary .abs 2, .unary .neg 3,
    .reduceAxis .max 4 0, .output 5]

/-- The four operators of `distanceSteps` become one, which gives what the four gave. -/
theorem evaluate_runSteps_distance :
    let negatedDistance (x y : Float) : Float := FloatOps.neg (FloatOps.abs (FloatOps.sub x y))
    let outs : List NDArray := [⟨[], #[FloatOps.max (negatedDistance 1.0 4.0) (negatedDistance 5.0 3.0)]⟩]
    ∃ trace last,
      PassRun.runSteps (build distanceSteps) [.fuseUnary, .fuseEpilogue, .fusePrologue] = .ok (trace, last) ∧
        (∀ entry ∈ trace, entry.2.evaluate [("x", ⟨[2], #[1.0, 5.0]⟩), ("y", ⟨[2], #[4.0, 3.0]⟩)] = .ok outs) ∧
        last.evaluate [("x", ⟨[2], #[1.0, 5.0]⟩), ("y", ⟨[2], #[4.0, 3.0]⟩)] = .ok outs :=
  evaluate_runSteps_of_isFusion (by decide) (by decide) rfl

end Graph

end TensorCompiler
