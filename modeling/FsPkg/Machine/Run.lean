import Mathlib.Tactic.TypeStar

/-! # Finite runs of a labelled transition relation

A run is read from its first state: its label list grows at the end, so an invariant may speak
about the history that led to a state. The rules below are the only inductions over runs that the
system proofs need: one step preserves a property, hence so does every run, and one concrete step
is matched by some abstract run, hence so is every concrete run.
-/

namespace FsPkg.Machine

variable {σ τ ε δ : Type*} {step : σ → ε → σ → Prop} {start : σ}

/-- The states reached from `start`, each with the labels executed on the way, oldest first. -/
inductive Run (step : σ → ε → σ → Prop) (start : σ) : List ε → σ → Prop
  | start : Run step start [] start
  | snoc {past : List ε} {source target : σ} {label : ε}
      (run : Run step start past source) (last : step source label target) :
      Run step start (past ++ [label]) target

namespace Run

/-- A property of history and state that every step carries forward holds along every run. -/
theorem history {I : List ε → σ → Prop} (initial : I [] start)
    (preserved : ∀ past source label target, Run step start past source → I past source →
      step source label target → I (past ++ [label]) target)
    {labels : List ε} {final : σ} (run : Run step start labels final) : I labels final := by
  induction run with
  | start => exact initial
  | snoc run last ih => exact preserved _ _ _ _ run ih last

/-- The state-only form of `history`. -/
theorem invariant {I : σ → Prop} (initial : I start)
    (preserved : ∀ source label target, I source → step source label target → I target)
    {labels : List ε} {final : σ} (run : Run step start labels final) : I final :=
  run.history (I := fun _ => I) initial
    fun _ source label target _ holds last => preserved source label target holds last

theorem append {first second : List ε} {middle final : σ} (left : Run step start first middle)
    (right : Run step middle second final) : Run step start (first ++ second) final := by
  induction right with
  | start => simpa using left
  | snoc _ last ih =>
    rw [← List.append_assoc]
    exact ih.snoc last

/-- The last step of a run. -/
theorem last {past : List ε} {label : ε} {final : σ} (run : Run step start (past ++ [label]) final) :
    ∃ source, Run step start past source ∧ step source label final := by
  generalize whole : past ++ [label] = labels at run
  cases run with
  | start => simp at whole
  | snoc run last =>
    obtain ⟨rfl, rfl⟩ : past = _ ∧ label = _ := by simpa using List.append_inj' whole rfl
    exact ⟨_, run, last⟩

theorem single {label : ε} {final : σ} (only : step start label final) :
    Run step start [label] final :=
  Run.start.snoc only

theorem cons {label : ε} {labels : List ε} {middle final : σ} (first : step start label middle)
    (rest : Run step middle labels final) : Run step start (label :: labels) final :=
  (single first).append rest

/-- A run seen through a map of the states, as a run of another relation. -/
theorem map {image : τ → ε → τ → Prop} (see : σ → τ) (seen : ∀ source label target, step source label target →
    image (see source) label (see target)) {labels : List ε} {final : σ} (run : Run step start labels final) :
    Run image (see start) labels (see final) := by
  induction run with
  | start => exact .start
  | snoc _ last before => exact before.snoc (seen _ _ _ last)

/-- Labels executed one after the other, where an executable step is one of the relation. -/
theorem of_foldlM {exec : σ → ε → Option σ} (sound : ∀ source label target, exec source label = some target →
    step source label target) {labels : List ε} {final : σ} (ran : labels.foldlM exec start = some final) :
    Run step start labels final := by
  induction labels generalizing start with
  | nil =>
    obtain rfl := Option.some.inj ran
    exact .start
  | cons label labels rest =>
    obtain ⟨middle, first, later⟩ := Option.bind_eq_some_iff.mp ran
    exact .cons (sound _ _ _ first) (rest later)

/-- Forward simulation: when each concrete step is matched by an abstract run whose labels are
those the concrete label stands for, the whole concrete run is matched. A label standing for no
abstract label is a stuttering step. -/
theorem simulate {abstractStep : τ → δ → τ → Prop} {abstractStart : τ} (R : σ → τ → Prop)
    (denotes : ε → List δ) (initial : R start abstractStart)
    (matched : ∀ source label target, step source label target → ∀ image, R source image →
      ∃ next, Run abstractStep image (denotes label) next ∧ R target next)
    {labels : List ε} {final : σ} (run : Run step start labels final) :
    ∃ image, Run abstractStep abstractStart (labels.flatMap denotes) image ∧ R final image := by
  induction run with
  | start => exact ⟨abstractStart, .start, initial⟩
  | snoc run last ih =>
    obtain ⟨image, abstractRun, related⟩ := ih
    obtain ⟨next, extension, relatedNext⟩ := matched _ _ _ last image related
    refine ⟨next, ?_, relatedNext⟩
    simpa using abstractRun.append extension

end Run

end FsPkg.Machine
