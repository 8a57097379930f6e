import Xv6.Library.Program

/-!
# Programs in atomic steps

A program whose steps are programs over a shared state. Run alone it performs its steps one after
another; among other programs it can be interrupted between any two of them.
-/

/-- A result, or a step and what follows for each result of it. -/
inductive Steps (σ ε α : Type) : Type 1 where
  | done (value : α)
  | act {β : Type} (action : StateT σ (Except ε) β) (next : β → Steps σ ε α)

namespace Steps

open Program

variable {σ ε α β : Type}

def bind : Steps σ ε α → (α → Steps σ ε β) → Steps σ ε β
  | done value, rest => rest value
  | act action next, rest => act action fun value => (next value).bind rest

instance : Monad (Steps σ ε) where
  pure := done
  bind := bind

def atomic (action : StateT σ (Except ε) α) : Steps σ ε α := act action done

def run : Steps σ ε α → StateT σ (Except ε) α
  | done value => Pure.pure value
  | act action next => action >>= fun value => (next value).run

variable {post : α → σ → Prop} {fault : ε → Prop} {state : σ}

@[simp]
theorem wp_run_atomic {action : StateT σ (Except ε) α} :
    Wp (run (atomic action)) post fault state ↔ Wp action post fault state := by
  rw [atomic, run, wp_bind]
  exact Iff.rfl

@[simp]
theorem wp_run_bind {first : Steps σ ε β} {second : β → Steps σ ε α} :
    Wp (run (first >>= second)) post fault state ↔
      Wp (run first) (fun value next => Wp (run (second value)) post fault next) fault state := by
  show Wp (run (first.bind second)) post fault state ↔ _
  induction first generalizing state with
  | done value => rfl
  | act action next ih =>
    rw [bind, run, run, wp_bind, wp_bind]
    have each : ∀ value, (fun state => Wp (run ((next value).bind second)) post fault state) =
        fun state => Wp (run (next value))
          (fun value next => Wp (run (second value)) post fault next) fault state := by
      intro value
      funext state
      exact propext (ih value)
    simp only [each]

end Steps
