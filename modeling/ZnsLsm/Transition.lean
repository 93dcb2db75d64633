import Mathlib.Data.List.Induction
import Mathlib.Logic.Relation

/-!
# Labelled transition systems

States, labelled steps, the states that runs reach, and the induction rule that
every safety result of this development goes through.  `guarded` keeps only the
steps that meet a condition on the state before the step; its reachable states
are those of the runs whose steps all meet the condition.
-/

namespace ZnsLsm.Transition

universe u v

/-- A system is its initial states and its labelled steps. -/
structure System (σ : Type u) (ι : Type v) where
  Init : σ → Prop
  Step : σ → ι → σ → Prop

namespace System

variable {σ : Type u} {ι : Type v}

/-- The states that some run reaches. -/
inductive Reachable (system : System σ ι) : σ → Prop
  | init {state : σ} : system.Init state → Reachable system state
  | step {state next : σ} {label : ι} :
      Reachable system state → system.Step state label next → Reachable system next

/-- The system whose steps are the steps of `system` taken where `ok` holds. -/
def guarded (system : System σ ι) (ok : σ → ι → Prop) : System σ ι where
  Init := system.Init
  Step state label next := ok state label ∧ system.Step state label next

/-- An inductive invariant holds in every reachable state. -/
theorem invariant_of_reachable {system : System σ ι} {P : σ → Prop}
    (base : ∀ state, system.Init state → P state)
    (preserved : ∀ state label next, P state → system.Step state label next → P next)
    {state : σ} (reachable : system.Reachable state) : P state := by
  induction reachable with
  | init isInit => exact base _ isInit
  | step _ step ih => exact preserved _ _ _ ih step

/-- An invariant may use any property already known of the reachable states. -/
theorem invariant_of_reachable_with {system : System σ ι} {K P : σ → Prop}
    (known : ∀ state, system.Reachable state → K state)
    (base : ∀ state, system.Init state → P state)
    (preserved : ∀ state label next, K state → P state →
      system.Step state label next → P next)
    {state : σ} (reachable : system.Reachable state) : P state := by
  induction reachable with
  | init isInit => exact base _ isInit
  | step before step ih => exact preserved _ _ _ (known _ before) ih step

/-- A run of guarded steps is a run. -/
theorem reachable_of_guarded {system : System σ ι} {ok : σ → ι → Prop} {state : σ}
    (reachable : (system.guarded ok).Reachable state) : system.Reachable state := by
  induction reachable with
  | init isInit => exact Reachable.init isInit
  | step _ step ih => exact Reachable.step ih step.2

/-- A condition that always holds rules no step out. -/
theorem reachable_guarded_of_forall {system : System σ ι} {ok : σ → ι → Prop}
    (always : ∀ state label, ok state label) {state : σ} (reachable : system.Reachable state) :
    (system.guarded ok).Reachable state := by
  induction reachable with
  | init isInit => exact Reachable.init isInit
  | step _ step ih => exact Reachable.step ih ⟨always _ _, step⟩

/-- Runs whose steps meet a condition also meet a weaker one. -/
theorem reachable_guarded_mono {system : System σ ι} {ok ok' : σ → ι → Prop}
    (weaker : ∀ state label, ok state label → ok' state label) {state : σ}
    (reachable : (system.guarded ok).Reachable state) : (system.guarded ok').Reachable state := by
  induction reachable with
  | init isInit => exact Reachable.init isInit
  | step _ step ih => exact Reachable.step ih ⟨weaker _ _ step.1, step.2⟩

/-- Seen through `view`, a run is a run of another system if each step is one of its steps or
cannot be seen. -/
theorem reachable_of_simulation {τ : Type*} {κ : Type*} {system : System σ ι}
    {abstract : System τ κ} (view : σ → τ)
    (base : ∀ {state}, system.Init state → abstract.Init (view state))
    (simulates : ∀ {state label next}, system.Reachable state → system.Step state label next →
      view next = view state ∨ ∃ seen, abstract.Step (view state) seen (view next))
    {state : σ} (reachable : system.Reachable state) : abstract.Reachable (view state) := by
  induction reachable with
  | init isInit => exact .init (base isInit)
  | step before step ih =>
      rcases simulates before step with same | ⟨seen, taken⟩
      · rwa [same]
      · exact .step ih taken

/-! ## Runs from a state -/

/-- Steps one after the other, from one state to another. -/
inductive Path (system : System σ ι) : σ → List ι → σ → Prop
  | nil (state : σ) : Path system state [] state
  | cons {state next last : σ} {label : ι} {labels : List ι} :
      system.Step state label next → Path system next labels last →
        Path system state (label :: labels) last

section Path

variable {system : System σ ι} {P : σ → Prop} {state last : σ} {labels : List ι}

/-- What every step preserves holds at the end of a path. -/
theorem Path.invariant
    (preserved : ∀ {state label next}, P state → system.Step state label next → P next)
    (path : system.Path state labels last) (holds : P state) : P last := by
  induction path with
  | nil _ => exact holds
  | cons step _ ih => exact ih (preserved holds step)

/-- A measure that every step lowers bounds the length of a path. -/
theorem Path.length_le (measure : σ → Nat)
    (preserved : ∀ {state label next}, P state → system.Step state label next → P next)
    (lowers : ∀ {state label next}, P state → system.Step state label next →
      measure next < measure state)
    (path : system.Path state labels last) (holds : P state) :
    labels.length + measure last ≤ measure state := by
  induction path with
  | nil _ => exact Nat.le_of_eq (Nat.zero_add _)
  | cons step _ ih =>
      have less := lowers holds step
      have rest := ih (preserved holds step)
      rw [List.length_cons]
      omega

/-- No run from the state goes on forever. -/
def Terminates (system : System σ ι) (state : σ) : Prop :=
  Acc (fun next state => ∃ label, system.Step state label next) state

/-- A measure that every step lowers in a well-founded order leaves no run without an end. -/
theorem terminates_of_measure {α : Type*} {r : α → α → Prop} (wf : WellFounded r)
    (measure : σ → α)
    (preserved : ∀ {state label next}, P state → system.Step state label next → P next)
    (lowers : ∀ {state label next}, P state → system.Step state label next →
      r (measure next) (measure state))
    (holds : P state) : system.Terminates state := by
  induction size : measure state using wf.induction generalizing state with
  | h bound ih =>
      subst size
      constructor
      rintro next ⟨label, step⟩
      exact ih _ (lowers holds step) (preserved holds step) rfl

/-- If no run goes on forever and a step is possible wherever the goal is not reached, some
path reaches the goal. -/
theorem Terminates.exists_path {Goal : σ → Prop} (terminates : system.Terminates state)
    (preserved : ∀ {state label next}, P state → system.Step state label next → P next)
    (progress : ∀ {state}, P state → ¬Goal state → ∃ label next, system.Step state label next)
    (holds : P state) : ∃ labels last, system.Path state labels last ∧ Goal last := by
  induction terminates with
  | intro state _ ih =>
      by_cases goal : Goal state
      · exact ⟨[], state, .nil state, goal⟩
      · obtain ⟨label, next, step⟩ := progress holds goal
        obtain ⟨labels, last, path, reached⟩ := ih next ⟨label, step⟩ (preserved holds step)
        exact ⟨label :: labels, last, .cons step path, reached⟩

/-- If the steps lower a measure and one is possible wherever the goal is not reached, some
path reaches the goal. -/
theorem exists_path {Goal : σ → Prop} (measure : σ → Nat)
    (preserved : ∀ {state label next}, P state → system.Step state label next → P next)
    (lowers : ∀ {state label next}, P state → system.Step state label next →
      measure next < measure state)
    (progress : ∀ {state}, P state → ¬Goal state → ∃ label next, system.Step state label next)
    (holds : P state) : ∃ labels last, system.Path state labels last ∧ Goal last :=
  (terminates_of_measure Nat.lt_wfRel.wf measure preserved lowers holds).exists_path preserved
    progress holds

end Path

/-! ## Executable runs -/

/-- Take labelled steps one after the other as long as `ok` holds. -/
def run (step : σ → ι → Option σ) (ok : σ → ι → Prop) [∀ state label, Decidable (ok state label)]
    (start : σ) (labels : List ι) : Option σ :=
  labels.foldlM (fun state label => if ok state label then step state label else none) start

/-- What an executable run reaches is reachable by guarded steps. -/
theorem reachable_of_run {system : System σ ι} {step : σ → ι → Option σ} {ok : σ → ι → Prop}
    [∀ state label, Decidable (ok state label)]
    (sound : ∀ {state label next}, step state label = some next → system.Step state label next)
    {start state : σ} (isInit : system.Init start) {labels : List ι}
    (ran : run step ok start labels = some state) : (system.guarded ok).Reachable state := by
  induction labels using List.reverseRecOn generalizing state with
  | nil =>
      cases ran
      exact Reachable.init isInit
  | append_singleton labels label ih =>
      rw [run, List.foldlM_append] at ran
      obtain ⟨before, first, last⟩ := Option.bind_eq_some_iff.mp ran
      obtain ⟨next, stepped, same⟩ := Option.bind_eq_some_iff.mp last
      cases same
      obtain ⟨holds, taken⟩ := Option.ite_none_right_eq_some.mp stepped
      exact Reachable.step (ih first) ⟨holds, sound taken⟩

end System

end ZnsLsm.Transition
