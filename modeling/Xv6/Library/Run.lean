import Mathlib.Data.List.Basic

/-!
# Runs of a partial step function

A system is a step function that takes a state and an action and either returns the next
state or fails. A run performs a list of actions in order and exists only when none of them
fails, so a failing step ends every run that reaches it. The rules here turn facts about one
step into facts about runs: an invariant, an invariant of the runs whose steps all meet a
condition, and a stage that is left only through a named event.
-/

namespace Transition

variable {σ α ε : Type} (step : σ → α → Except ε σ)

def run (state : σ) : List α → Except ε σ
  | [] => .ok state
  | action :: rest =>
    match step state action with
    | .ok next => run next rest
    | .error fault => .error fault

/-- Every step that the run takes meets the condition in the state it is taken from. -/
def Along (condition : σ → α → Prop) : σ → List α → Prop
  | _, [] => True
  | state, action :: rest =>
    condition state action ∧ ∀ next, step state action = .ok next → Along condition next rest

/-- Whether all steps of a run meet a decidable condition is decided by performing it. -/
instance Along.decidable (condition : σ → α → Prop) [∀ state action,
    Decidable (condition state action)] : (state : σ) → (actions : List α) →
      Decidable (Along step condition state actions)
  | _, [] => inferInstanceAs (Decidable True)
  | state, action :: rest =>
    match taken : step state action with
    | .ok next =>
      have := Along.decidable condition next rest
      decidable_of_iff (condition state action ∧ Along step condition next rest) (by
        simp [Along, taken])
    | .error _ => decidable_of_iff (condition state action) (by simp [Along, taken])

def Occurs (event : σ → α → σ → Prop) (state : σ) (actions : List α) : Prop :=
  ∃ before action after middle next, actions = before ++ action :: after ∧
    run step state before = .ok middle ∧ step middle action = .ok next ∧
      event middle action next

def ends (property : σ → Bool) : Except ε σ → Bool
  | .ok state => property state
  | .error _ => false

variable {outcome : Except ε σ} {action : α}

theorem exists_of_ends {property : σ → Bool} (checked : ends property outcome = true) :
    ∃ state, outcome = .ok state ∧ property state := by
  cases outcome with
  | ok state => exact ⟨state, rfl, checked⟩
  | error fault => cases checked

def stops [DecidableEq ε] (fault : ε) : Except ε σ → Bool
  | .ok _ => false
  | .error found => found = fault

theorem eq_of_stops [DecidableEq ε] {fault : ε} (checked : stops fault outcome = true) :
    outcome = .error fault := by
  cases outcome with
  | ok state => cases checked
  | error found => rw [of_decide_eq_true checked]

theorem bind_ok {β γ : Type} {first : Except ε β} {second : β → Except ε γ} {result : γ} :
    first >>= second = .ok result ↔ ∃ value, first = .ok value ∧ second value = .ok result := by
  cases first <;> simp [bind, Except.bind]

theorem map_ok {β γ : Type} {f : β → γ} {outcome : Except ε β} {result : γ} :
    f <$> outcome = .ok result ↔ ∃ value, outcome = .ok value ∧ f value = result := by
  cases outcome <;> simp [Functor.map, Except.map]

variable {step}

@[simp]
theorem run_nil (state : σ) : run step state [] = .ok state := rfl

variable {state final : σ} {first second : List α} {actions : List α} {condition : σ → α → Prop}
  {event : σ → α → σ → Prop}

theorem run_cons {rest : List α} :
    run step state (action :: rest) = .ok final ↔
      ∃ next, step state action = .ok next ∧ run step next rest = .ok final := by
  cases taken : step state action <;> simp [run, taken]

theorem run_append :
    run step state (first ++ second) = .ok final ↔
      ∃ middle, run step state first = .ok middle ∧ run step middle second = .ok final := by
  induction first generalizing state with
  | nil => simp
  | cons action rest ih =>
    rw [List.cons_append, run_cons]
    constructor
    · rintro ⟨next, taken, tail⟩
      obtain ⟨middle, front, back⟩ := ih.mp tail
      exact ⟨middle, run_cons.mpr ⟨next, taken, front⟩, back⟩
    · rintro ⟨middle, front, back⟩
      obtain ⟨next, taken, front⟩ := run_cons.mp front
      exact ⟨next, taken, ih.mpr ⟨middle, front, back⟩⟩

theorem run_concat :
    run step state (actions ++ [action]) = .ok final ↔
      ∃ middle, run step state actions = .ok middle ∧ step middle action = .ok final := by
  rw [run_append]
  simp [run_cons]

theorem run_invariant_along (invariant : σ → Prop)
    (preserved : ∀ state action next, invariant state → condition state action →
      step state action = .ok next → invariant next) (start : invariant state)
    (along : Along step condition state actions) (reached : run step state actions = .ok final) :
    invariant final := by
  induction actions generalizing state with
  | nil =>
    cases reached
    exact start
  | cons action rest ih =>
    obtain ⟨next, taken, tail⟩ := run_cons.mp reached
    exact ih (preserved state action next start along.1 taken) (along.2 next taken) tail

theorem Occurs.append {state : σ} (occurs : Occurs step event state actions) (more : List α) :
    Occurs step event state (actions ++ more) := by
  obtain ⟨before, action, after, middle, next, split, front, taken, happens⟩ := occurs
  refine ⟨before, action, after ++ more, middle, next, ?_, front, taken, happens⟩
  rw [split, List.append_assoc, List.cons_append]

theorem Occurs.of_append {state middle : σ} (ran : run step state first = .ok middle)
    (occurs : Occurs step event middle second) : Occurs step event state (first ++ second) := by
  obtain ⟨before, action, after, last, next, split, front, taken, happens⟩ := occurs
  refine ⟨first ++ before, action, after, last, next, ?_, ?_, taken, happens⟩
  · rw [split, List.append_assoc]
  · exact run_append.mpr ⟨middle, ran, front⟩

theorem Occurs.of_step {state next : σ} (taken : step state action = .ok next)
    (happens : event state action next) (rest : List α) :
    Occurs step event state (action :: rest) :=
  ⟨[], action, rest, state, next, rfl, rfl, taken, happens⟩

theorem along_iff_not_occurs (reached : run step state actions = .ok final) :
    Along step condition state actions ↔
      ¬ Occurs step (fun state action _ => ¬ condition state action) state actions := by
  induction actions generalizing state with
  | nil => exact iff_of_true trivial (fun ⟨_, _, _, _, _, split, _⟩ => by simp at split)
  | cons action rest ih =>
    obtain ⟨next, taken, tail⟩ := run_cons.mp reached
    constructor
    · rintro ⟨first, along⟩ ⟨before, later, after, middle, last, split, front, at_, fails⟩
      cases before with
      | nil =>
        cases front
        cases split
        exact fails first
      | cons head before =>
        obtain ⟨rfl, rfl⟩ := List.cons.inj split
        obtain ⟨second, begun, front⟩ := run_cons.mp front
        rw [taken] at begun
        cases begun
        exact (ih tail).mp (along next taken) ⟨before, later, after, middle, last, rfl, front, at_,
          fails⟩
    · intro never
      refine ⟨?_, fun next' taken' => ?_⟩
      · by_contra fails
        exact never ⟨[], action, rest, state, next, rfl, rfl, taken, fails⟩
      · rw [taken] at taken'
        cases taken'
        refine (ih tail).mpr ?_
        rintro ⟨before, later, after, middle, last, split, front, at_, fails⟩
        exact never ⟨action :: before, later, after, middle, last, by rw [split, List.cons_append],
          run_cons.mpr ⟨next, taken, front⟩, at_, fails⟩

theorem Along.front {state : σ} (along : Along step condition state (first ++ second)) :
    Along step condition state first := by
  induction first generalizing state with
  | nil => trivial
  | cons action rest ih => exact ⟨along.1, fun next taken => ih (along.2 next taken)⟩

theorem Along.and {condition' : σ → α → Prop} {state : σ}
    (along : Along step condition state actions) (along' : Along step condition' state actions) :
    Along step (fun state action => condition state action ∧ condition' state action) state
      actions := by
  induction actions generalizing state with
  | nil => trivial
  | cons action rest ih =>
    exact ⟨⟨along.1, along'.1⟩, fun next taken => ih (along.2 next taken) (along'.2 next taken)⟩

theorem along_of_forall (holds : ∀ state action, condition state action) (state : σ)
    (actions : List α) : Along step condition state actions := by
  induction actions generalizing state with
  | nil => trivial
  | cons action rest ih => exact ⟨holds state action, fun next _ => ih next⟩

theorem along_of_invariant (invariant : σ → Prop)
    (preserved : ∀ state action next, invariant state → step state action = .ok next →
      invariant next) (holds : ∀ state action, invariant state → condition state action)
    {state : σ} (start : invariant state) (actions : List α) :
    Along step condition state actions := by
  induction actions generalizing state with
  | nil => trivial
  | cons action rest ih =>
    exact ⟨holds state action start, fun next taken => ih (preserved state action next start taken)⟩

theorem run_invariant (invariant : σ → Prop)
    (preserved : ∀ state action next, invariant state → step state action = .ok next →
      invariant next) (start : invariant state) (reached : run step state actions = .ok final) :
    invariant final := by
  have along : Along step (fun _ _ => True) state actions :=
    along_of_forall (fun _ _ => trivial) state actions
  exact run_invariant_along invariant
    (fun state action next holds _ taken => preserved state action next holds taken)
    start along reached

theorem run_total (invariant : σ → Prop)
    (succeeds : ∀ state action, invariant state →
      ∃ next, step state action = .ok next ∧ invariant next)
    {state : σ} (start : invariant state) (actions : List α) :
    ∃ final, run step state actions = .ok final ∧ invariant final := by
  induction actions generalizing state with
  | nil => exact ⟨state, rfl, start⟩
  | cons action rest ih =>
    obtain ⟨next, taken, holds⟩ := succeeds state action start
    obtain ⟨final, tail, holds⟩ := ih holds
    exact ⟨final, run_cons.mpr ⟨next, taken, tail⟩, holds⟩

theorem run_stage_along (stage : σ → Prop) (event : σ → α → σ → Prop)
    (kept : ∀ state action next, stage state → condition state action →
      step state action = .ok next → stage next ∨ event state action next) (start : stage state)
    (along : Along step condition state actions) (reached : run step state actions = .ok final) :
    stage final ∨ Occurs step event state actions := by
  induction actions generalizing state with
  | nil =>
    cases reached
    exact Or.inl start
  | cons action rest ih =>
    obtain ⟨next, taken, tail⟩ := run_cons.mp reached
    rcases kept state action next start along.1 taken with stays | happens
    · rcases ih stays (along.2 next taken) tail with stays | occurs
      · exact Or.inl stays
      · have first : run step state [action] = .ok next := run_cons.mpr ⟨next, taken, rfl⟩
        exact Or.inr (occurs.of_append first)
    · exact Or.inr (Occurs.of_step taken happens rest)

theorem run_stage (stage : σ → Prop) (event : σ → α → σ → Prop)
    (kept : ∀ state action next, stage state → step state action = .ok next →
      stage next ∨ event state action next) (start : stage state)
    (reached : run step state actions = .ok final) :
    stage final ∨ Occurs step event state actions := by
  have along : Along step (fun _ _ => True) state actions :=
    along_of_forall (fun _ _ => trivial) state actions
  exact run_stage_along stage event
    (fun state action next holds _ taken => kept state action next holds taken) start along reached

end Transition
