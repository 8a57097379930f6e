import Mathlib.Data.List.Perm.Basic
import Mathlib.Data.List.Pairwise

/-!
# Tilings of memory

A block is a range of addresses. Blocks tile an area when no two of them overlap and together
they cover it. A tiling does not depend on the order of the blocks, two blocks that touch can be
joined and a block can be cut in two, and the area grows by a block outside it.
-/

namespace Tiling

structure Extent where
  start : Nat
  bytes : Nat
  deriving DecidableEq, Repr

def Extent.Has (b : Extent) (x : Nat) : Prop := b.start ≤ x ∧ x < b.start + b.bytes

instance (b : Extent) (x : Nat) : Decidable (b.Has x) :=
  inferInstanceAs (Decidable (b.start ≤ x ∧ x < b.start + b.bytes))

def Extent.Disjoint (a b : Extent) : Prop := ∀ x, a.Has x → ¬ b.Has x

structure Tiles (blocks : List Extent) (area : Nat → Prop) : Prop where
  disjoint : blocks.Pairwise Extent.Disjoint
  covers : ∀ x, area x ↔ ∃ b ∈ blocks, b.Has x

variable {a b : Extent} {blocks blocks' : List Extent} {area : Nat → Prop}

theorem Extent.Disjoint.symm (disjoint : a.Disjoint b) : b.Disjoint a :=
  fun x inB inA => disjoint x inA inB

theorem Extent.Disjoint.before (disjoint : a.Disjoint b) (someA : 0 < a.bytes)
    (someB : 0 < b.bytes) :
    a.start + a.bytes ≤ b.start ∨ b.start + b.bytes ≤ a.start := by
  by_contra overlap
  have inA : a.Has (max a.start b.start) := by
    unfold Extent.Has
    omega
  have inB : b.Has (max a.start b.start) := by
    unfold Extent.Has
    omega
  exact disjoint _ inA inB

theorem Extent.disjoint_of_before (before : a.start + a.bytes ≤ b.start) : a.Disjoint b := by
  intro x inA inB
  unfold Extent.Has at inA inB
  omega

theorem Tiles.perm (tiles : Tiles blocks area) (same : blocks.Perm blocks') :
    Tiles blocks' area where
  disjoint := (same.pairwise_iff Extent.Disjoint.symm).mp tiles.disjoint
  covers x := by
    rw [tiles.covers x]
    exact exists_congr fun b => and_congr_left fun _ => same.mem_iff

theorem Tiles.head (tiles : Tiles (a :: blocks) area) (member : b ∈ blocks) : a.Disjoint b :=
  (List.pairwise_cons.mp tiles.disjoint).1 b member

theorem tiles_join {start first second : Nat} :
    Tiles (⟨start, first⟩ :: ⟨start + first, second⟩ :: blocks) area ↔
      Tiles (⟨start, first + second⟩ :: blocks) area := by
  have has : ∀ x, (Extent.mk start (first + second)).Has x ↔
      (Extent.mk start first).Has x ∨ (Extent.mk (start + first) second).Has x := by
    intro x
    simp only [Extent.Has]
    omega
  have apart : (Extent.mk start first).Disjoint (Extent.mk (start + first) second) :=
    Extent.disjoint_of_before (Nat.le_refl _)
  constructor
  · intro tiles
    obtain ⟨front, rest⟩ := List.pairwise_cons.mp tiles.disjoint
    obtain ⟨back, rest⟩ := List.pairwise_cons.mp rest
    refine ⟨List.pairwise_cons.mpr ⟨fun b member x inside => ?_, rest⟩, fun x => ?_⟩
    · rcases (has x).mp inside with inFirst | inSecond
      · exact front b (List.mem_cons_of_mem _ member) x inFirst
      · exact back b member x inSecond
    · rw [tiles.covers x]
      simp only [List.mem_cons, exists_eq_or_imp, has x, or_assoc]
  · intro tiles
    obtain ⟨front, rest⟩ := List.pairwise_cons.mp tiles.disjoint
    refine ⟨List.pairwise_cons.mpr ⟨fun b member => ?_, List.pairwise_cons.mpr ⟨?_, rest⟩⟩,
      fun x => ?_⟩
    · rcases List.mem_cons.mp member with rfl | later
      · exact apart
      · exact fun x inside => front b later x ((has x).mpr (.inl inside))
    · exact fun b member x inside => front b member x ((has x).mpr (.inr inside))
    · rw [tiles.covers x]
      simp only [List.mem_cons, exists_eq_or_imp, has x, or_assoc]

theorem Tiles.drop_empty (tiles : Tiles (a :: blocks) area) (empty : a.bytes = 0) :
    Tiles blocks area where
  disjoint := (List.pairwise_cons.mp tiles.disjoint).2
  covers x := by
    have none : ¬ a.Has x := by
      unfold Extent.Has
      omega
    rw [tiles.covers x]
    simp only [List.mem_cons, exists_eq_or_imp, none, false_or]

theorem Tiles.grow (tiles : Tiles blocks area) (outside : ∀ x, a.Has x → ¬ area x) :
    Tiles (a :: blocks) (fun x => a.Has x ∨ area x) where
  disjoint := List.pairwise_cons.mpr ⟨fun b member x inA inB =>
    outside x inA ((tiles.covers x).mpr ⟨b, member, inB⟩), tiles.disjoint⟩
  covers x := by
    rw [tiles.covers x]
    simp only [List.mem_cons, exists_eq_or_imp]

end Tiling
