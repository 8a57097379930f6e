import Mathlib.Algebra.BigOperators.Group.Finset.Basic
import Mathlib.Algebra.Order.BigOperators.Group.Finset

/-!
# Shares of a list

Holders put distinct items on a list, each of them up to a share. An item is claimed by its
holder before it is listed. The demand counts what the list comes to if every holder uses up its
share: only a new holder raises it, and fresh items realise it.
-/

namespace Shares

variable {H B : Type} [DecidableEq H] [DecidableEq B]

def demand (share : Nat) (listed : Finset B) (holders : Finset H) (claimed : H → Finset B) : Nat :=
  (listed ∪ holders.biUnion claimed).card + ∑ h ∈ holders, (share - (claimed h).card)

variable {share : Nat} {listed : Finset B} {holders : Finset H} {claimed claimed' : H → Finset B}
  {h : H} {b : B}

omit [DecidableEq H] in
theorem card_le_demand : listed.card ≤ demand share listed holders claimed :=
  (Finset.card_le_card Finset.subset_union_left).trans (Nat.le_add_right _ _)

omit [DecidableEq H] in
theorem demand_empty : demand share listed ∅ claimed = listed.card := by
  rw [demand, Finset.biUnion_empty, Finset.union_empty, Finset.sum_empty, Nat.add_zero]

omit [DecidableEq H] in
theorem demand_congr (same : ∀ h ∈ holders, claimed' h = claimed h) :
    demand share listed holders claimed' = demand share listed holders claimed := by
  have union : holders.biUnion claimed' = holders.biUnion claimed := Finset.biUnion_congr rfl same
  have sum : ∑ h ∈ holders, (share - (claimed' h).card) =
      ∑ h ∈ holders, (share - (claimed h).card) :=
    Finset.sum_congr rfl fun h held => by rw [same h held]
  rw [demand, demand, union, sum]

omit [DecidableEq H] in
theorem demand_le (within : ∀ h ∈ holders, (claimed h).card ≤ share) :
    demand share listed holders claimed ≤ listed.card + holders.card * share := by
  have union : (listed ∪ holders.biUnion claimed).card ≤
      listed.card + ∑ h ∈ holders, (claimed h).card :=
    (Finset.card_union_le _ _).trans (Nat.add_le_add_left Finset.card_biUnion_le _)
  have whole : ∑ h ∈ holders, (claimed h).card + ∑ h ∈ holders, (share - (claimed h).card) =
      holders.card * share := by
    rw [← Finset.sum_add_distrib]
    exact Finset.sum_const_nat fun h held => Nat.add_sub_of_le (within h held)
  rw [demand]
  omega

theorem demand_insert (new : h ∉ holders) (nothing : claimed h = ∅) :
    demand share listed (insert h holders) claimed =
      demand share listed holders claimed + share := by
  rw [demand, demand, Finset.biUnion_insert, nothing, Finset.empty_union, Finset.sum_insert new,
    nothing, Finset.card_empty]
  omega

theorem demand_erase_le (held : h ∈ holders) :
    demand share listed (holders.erase h) claimed ≤ demand share listed holders claimed := by
  have union : listed ∪ (holders.erase h).biUnion claimed ⊆ listed ∪ holders.biUnion claimed :=
    Finset.union_subset_union_right
      (Finset.biUnion_subset_biUnion_of_subset_left _ (Finset.erase_subset h holders))
  have sum := Finset.add_sum_erase holders (fun h => share - (claimed h).card) held
  have card := Finset.card_le_card union
  rw [demand, demand]
  omega

omit [DecidableEq H] in
theorem demand_list (held : h ∈ holders) (mine : b ∈ claimed h) :
    demand share (insert b listed) holders claimed = demand share listed holders claimed := by
  have inside : b ∈ listed ∪ holders.biUnion claimed :=
    Finset.mem_union_right _ (Finset.mem_biUnion.mpr ⟨h, held, mine⟩)
  rw [demand, demand, Finset.insert_union, Finset.insert_eq_of_mem inside]

theorem union_claim (held : h ∈ holders) :
    listed ∪ holders.biUnion (Function.update claimed h (insert b (claimed h))) =
      insert b (listed ∪ holders.biUnion claimed) := by
  ext c
  simp only [Finset.mem_union, Finset.mem_biUnion, Finset.mem_insert, Function.update_apply]
  constructor
  · rintro (old | ⟨g, member, inside⟩)
    · exact .inr (.inl old)
    · split at inside
      case isTrue same =>
        rcases Finset.mem_insert.mp inside with new | old
        · exact .inl new
        · exact .inr (.inr ⟨h, held, old⟩)
      case isFalse => exact .inr (.inr ⟨g, member, inside⟩)
  · rintro (rfl | old | ⟨g, member, inside⟩)
    · refine .inr ⟨h, held, ?_⟩
      rw [if_pos rfl]
      exact Finset.mem_insert_self _ _
    · exact .inl old
    · refine .inr ⟨g, member, ?_⟩
      split
      case isTrue same => exact Finset.mem_insert_of_mem (same ▸ inside)
      case isFalse => exact inside

omit [DecidableEq B] in
theorem sum_claim (share : Nat) (claimed : H → Finset B) (held : h ∈ holders) (items : Finset B) :
    ∑ g ∈ holders, (share - (Function.update claimed h items g).card) + (share - (claimed h).card) =
      ∑ g ∈ holders, (share - (claimed g).card) + (share - items.card) := by
  have after := Finset.add_sum_erase holders
    (fun g => share - (Function.update claimed h items g).card) held
  have before := Finset.add_sum_erase holders (fun g => share - (claimed g).card) held
  have others : ∑ g ∈ holders.erase h, (share - (Function.update claimed h items g).card) =
      ∑ g ∈ holders.erase h, (share - (claimed g).card) :=
    Finset.sum_congr rfl fun g member => by
      rw [Function.update_of_ne (Finset.ne_of_mem_erase member)]
  simp only [Function.update_self] at after
  omega

theorem demand_claim_le (held : h ∈ holders) (within : (insert b (claimed h)).card ≤ share) :
    demand share listed holders (Function.update claimed h (insert b (claimed h))) ≤
      demand share listed holders claimed := by
  by_cases mine : b ∈ claimed h
  · rw [Finset.insert_eq_of_mem mine, Function.update_eq_self]
  · have sum := sum_claim share claimed held (insert b (claimed h))
    have grows := Finset.card_insert_le b (listed ∪ holders.biUnion claimed)
    rw [Finset.card_insert_of_notMem mine] at within sum
    rw [demand, demand, union_claim held]
    omega

theorem demand_claim_fresh (held : h ∈ holders) (within : (claimed h).card < share)
    (fresh : b ∉ listed ∪ holders.biUnion claimed) :
    demand share listed holders (Function.update claimed h (insert b (claimed h))) =
      demand share listed holders claimed := by
  have mine : b ∉ claimed h := fun inside =>
    fresh (Finset.mem_union_right _ (Finset.mem_biUnion.mpr ⟨h, held, inside⟩))
  have sum := sum_claim share claimed held (insert b (claimed h))
  rw [Finset.card_insert_of_notMem mine] at sum
  rw [demand, demand, union_claim held, Finset.card_insert_of_notMem fresh]
  omega

omit [DecidableEq H] in
theorem exists_left (all : ∀ h ∈ holders, claimed h ⊆ listed)
    (short : listed.card < demand share listed holders claimed) :
    ∃ h ∈ holders, (claimed h).card < share := by
  have union : listed ∪ holders.biUnion claimed = listed :=
    Finset.union_eq_left.mpr (Finset.biUnion_subset.mpr all)
  rw [demand, union] at short
  have positive : ∑ h ∈ holders, (share - (claimed h).card) ≠ 0 := by omega
  obtain ⟨h, held, left⟩ := Finset.exists_ne_zero_of_sum_ne_zero positive
  exact ⟨h, held, by omega⟩

end Shares
