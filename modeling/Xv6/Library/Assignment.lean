import Mathlib.Logic.Function.Basic

/-!
# Exact assignments

Holders refer to things, each to at most one. An assignment is exact for a set of things in use
when no thing is referred to twice and the things referred to are those in use. It stays exact
when a thing that is not in use is assigned to a holder without one, and when a holder gives up
its thing.
-/

namespace Assignment

open Function (update update_of_ne update_self)

variable {κ β : Type}

structure Exact (ref : κ → Option β) (used : β → Prop) : Prop where
  injective : ∀ {k k' : κ} {b : β}, ref k = some b → ref k' = some b → k = k'
  used_iff : ∀ b, used b ↔ ∃ k, ref k = some b

variable {ref ref' : κ → Option β} {used used' : β → Prop} {k : κ} {b : β}

section

variable (exact : Exact ref used)
include exact

theorem Exact.in_use (held : ref k = some b) : used b :=
  (exact.used_iff b).mpr ⟨k, held⟩

theorem Exact.congr (refs : ∀ k, ref' k = ref k) (same : ∀ b, used' b ↔ used b) :
    Exact ref' used' where
  injective held held' := exact.injective ((refs _).symm.trans held) ((refs _).symm.trans held')
  used_iff b := by
    rw [same, exact.used_iff]
    exact exists_congr fun k => by rw [refs]

theorem Exact.assign [DecidableEq κ] (empty : ref k = none) (fresh : ¬ used b) :
    Exact (update ref k (some b)) fun x => x = b ∨ used x where
  injective {k₁ k₂ x} held held' := by
    by_cases first : k₁ = k
    · by_cases second : k₂ = k
      · rw [first, second]
      · subst first
        rw [update_self] at held
        rw [update_of_ne second] at held'
        cases held
        exact absurd (exact.in_use held') fresh
    · rw [update_of_ne first] at held
      by_cases second : k₂ = k
      · subst second
        rw [update_self] at held'
        cases held'
        exact absurd (exact.in_use held) fresh
      · rw [update_of_ne second] at held'
        exact exact.injective held held'
  used_iff x := by
    constructor
    · rintro (rfl | old)
      · exact ⟨k, update_self ..⟩
      · obtain ⟨holder, held⟩ := (exact.used_iff x).mp old
        refine ⟨holder, ?_⟩
        rw [update_of_ne]
        · exact held
        · rintro rfl
          rw [empty] at held
          cases held
    · rintro ⟨holder, held⟩
      by_cases same : holder = k
      · subst same
        rw [update_self] at held
        cases held
        exact .inl rfl
      · rw [update_of_ne same] at held
        exact .inr (exact.in_use held)

theorem Exact.release [DecidableEq κ] (held : ref k = some b) :
    Exact (update ref k none) fun x => x ≠ b ∧ used x where
  injective {k₁ k₂ x} held₁ held₂ := by
    have first : k₁ ≠ k := by
      rintro rfl
      rw [update_self] at held₁
      cases held₁
    have second : k₂ ≠ k := by
      rintro rfl
      rw [update_self] at held₂
      cases held₂
    rw [update_of_ne first] at held₁
    rw [update_of_ne second] at held₂
    exact exact.injective held₁ held₂
  used_iff x := by
    constructor
    · rintro ⟨differ, old⟩
      obtain ⟨holder, other⟩ := (exact.used_iff x).mp old
      refine ⟨holder, ?_⟩
      rw [update_of_ne]
      · exact other
      · rintro rfl
        rw [held] at other
        exact differ (Option.some.inj other).symm
    · rintro ⟨holder, other⟩
      have differ : holder ≠ k := by
        rintro rfl
        rw [update_self] at other
        cases other
      rw [update_of_ne differ] at other
      refine ⟨?_, exact.in_use other⟩
      rintro rfl
      exact differ (exact.injective other held)

end

end Assignment
