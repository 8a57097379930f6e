import Mathlib.Logic.Basic

/-!
# Programs over a state that may stop with a fault

A program is a computation of `StateT σ (Except ε)`: it reads and writes a state and either
returns or stops with a fault. `Wp program post fault` is its weakest precondition for two
postconditions, one for the result and state it returns and one for the fault it stops with;
the second says which faults a proof allows, from all of them to none. The rules follow the
constructions that programs are written with, and a part of the state can be focused on, so
that a program over the part runs on the whole.
-/

namespace Program

variable {ε σ τ α β : Type}

/-- Started in the state, the program returns what `post` admits or stops as `fault` admits. -/
def Wp (program : StateT σ (Except ε) α) (post : α → σ → Prop) (fault : ε → Prop)
    (state : σ) : Prop :=
  match program state with
  | .ok (result, next) => post result next
  | .error stopped => fault stopped

variable {program : StateT σ (Except ε) α} {post post' : α → σ → Prop}
  {fault fault' : ε → Prop} {state : σ}

@[simp]
theorem wp_pure {value : α} :
    Wp (pure value : StateT σ (Except ε) α) post fault state ↔ post value state := Iff.rfl

@[simp]
theorem wp_bind {first : StateT σ (Except ε) β} {second : β → StateT σ (Except ε) α} :
    Wp (first >>= second) post fault state ↔
      Wp first (fun value next => Wp (second value) post fault next) fault state := by
  unfold Wp
  show (match (first state >>= fun pair => second pair.1 pair.2) with
    | .ok (result, next) => post result next
    | .error stopped => fault stopped) ↔ _
  cases first state <;> rfl

@[simp]
theorem wp_get {post : σ → σ → Prop} :
    Wp (get : StateT σ (Except ε) σ) post fault state ↔ post state state := Iff.rfl

@[simp]
theorem wp_modify {post : PUnit → σ → Prop} {f : σ → σ} :
    Wp (modify f : StateT σ (Except ε) PUnit) post fault state ↔ post ⟨⟩ (f state) := Iff.rfl

@[simp]
theorem wp_throw {stopped : ε} :
    Wp (throw stopped : StateT σ (Except ε) α) post fault state ↔ fault stopped := Iff.rfl

theorem Wp.mono (holds : Wp program post fault state)
    (result : ∀ value next, post value next → post' value next)
    (stop : ∀ stopped, fault stopped → fault' stopped) : Wp program post' fault' state := by
  unfold Wp at holds ⊢
  cases ran : program state with
  | ok pair => rw [ran] at holds; exact result _ _ holds
  | error stopped => rw [ran] at holds; exact stop _ holds

theorem Wp.imp (holds : Wp program post fault state)
    (result : ∀ value next, post value next → post' value next) :
    Wp program post' fault state :=
  holds.mono result (fun _ admitted => admitted)

theorem Wp.using (known : Wp program post' (fun _ => True) state)
    (holds : Wp program (fun value next => post' value next → post value next) fault state) :
    Wp program post fault state := by
  unfold Wp at known holds ⊢
  cases ran : program state with
  | ok pair =>
    rw [ran] at known holds
    exact holds known
  | error stopped =>
    rw [ran] at holds
    exact holds

/-- Whether a program meets postconditions that can be decided is decided by running it. -/
instance Wp.decidable [∀ value next, Decidable (post value next)]
    [∀ stopped, Decidable (fault stopped)] : Decidable (Wp program post fault state) :=
  match ran : program state with
  | .ok (value, next) => decidable_of_iff (post value next) (by rw [Wp, ran])
  | .error stopped => decidable_of_iff (fault stopped) (by rw [Wp, ran])

theorem Wp.ok {value : α} {next : σ} (holds : Wp program post fault state)
    (ran : program state = .ok (value, next)) : post value next := by
  unfold Wp at holds
  rw [ran] at holds
  exact holds

theorem Wp.error {stopped : ε} (holds : Wp program post fault state)
    (ran : program state = .error stopped) : fault stopped := by
  unfold Wp at holds
  rw [ran] at holds
  exact holds

theorem Wp.returns (holds : Wp program post (fun _ => False) state) :
    ∃ value next, program state = .ok (value, next) ∧ post value next := by
  cases ran : program state with
  | ok pair => exact ⟨pair.1, pair.2, rfl, holds.ok ran⟩
  | error stopped => exact (holds.error ran).elim

theorem wp_of_forall (result : ∀ value next, program state = .ok (value, next) → post value next)
    (stop : ∀ stopped, program state = .error stopped → fault stopped) :
    Wp program post fault state := by
  unfold Wp
  cases ran : program state with
  | ok pair => exact result _ _ ran
  | error stopped => exact stop _ ran

def focus (part : σ → τ) (put : τ → σ → σ) (program : StateT τ (Except ε) α) :
    StateT σ (Except ε) α := fun state =>
  match program (part state) with
  | .ok (result, next) => .ok (result, put next state)
  | .error stopped => .error stopped

@[simp]
theorem wp_focus {part : σ → τ} {put : τ → σ → σ} {inner : StateT τ (Except ε) α} :
    Wp (focus part put inner) post fault state ↔
      Wp inner (fun value next => post value (put next state)) fault (part state) := by
  unfold Wp focus
  cases inner (part state) <;> rfl

end Program
