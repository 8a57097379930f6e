import Mathlib.Data.List.Basic
import Mathlib.Logic.Function.Basic

/-!
# Maps in slots

A finite map kept in a row of slots, each empty or with a key and its value. A key is found by
trying the slots from the front. With no key in two slots, filling an empty slot or one behind the
end adds a key, emptying the slot of a key removes it, and the other keys stay in their slots.
-/

namespace SlotMap

variable {K V : Type}

abbrev Table (K V : Type) := List (Option (K × V))

def find [DecidableEq K] (table : Table K V) (key : K) : Option Nat :=
  table.findIdx? fun slot => slot.any fun pair => decide (pair.1 = key)

/-- The table with a slot filled or emptied; the slot may be the one behind the end. -/
def put (table : Table K V) (k : Nat) (slot : Option (K × V)) : Table K V :=
  table.take k ++ [slot] ++ table.drop (k + 1)

structure Represents (table : Table K V) (map : K → Option V) : Prop where
  unique : ∀ {k k' : Nat} {key v v'}, table[k]? = some (some (key, v)) →
    table[k']? = some (some (key, v')) → k = k'
  value : ∀ key v, map key = some v ↔ ∃ k : Nat, table[k]? = some (some (key, v))

variable {table : Table K V} {map : K → Option V} {key key' : K} {k j : Nat} {v : V}
  {slot : Option (K × V)}

theorem represents_nil : Represents ([] : Table K V) fun _ => none where
  unique found := nomatch found
  value key v := by simp

theorem getElem?_put (inside : k ≤ table.length) (j : Nat) :
    (put table k slot)[j]? = if j = k then some slot else table[j]? := by
  have front : (table.take k).length = k := by rw [List.length_take, Nat.min_eq_left inside]
  have both : (table.take k ++ [slot]).length = k + 1 := by
    rw [List.length_append, front, List.length_singleton]
  rw [put]
  by_cases before : j < k
  · rw [if_neg (by omega), List.getElem?_append_left (by omega),
      List.getElem?_append_left (by omega), List.getElem?_take_of_lt before]
  · by_cases here : j = k
    · rw [if_pos here, List.getElem?_append_left (by omega), List.getElem?_append_right (by omega),
        front, here, Nat.sub_self]
      rfl
    · rw [if_neg here, List.getElem?_append_right (by omega), both, List.getElem?_drop]
      congr 1
      omega

variable [DecidableEq K]

theorem find_eq_some_iff : find table key = some k ↔
    (∃ v, table[k]? = some (some (key, v))) ∧
      ∀ (j : Nat) v, j < k → table[j]? ≠ some (some (key, v)) := by
  have test : ∀ slot : Option (K × V),
      (slot.any fun pair => decide (pair.1 = key)) = true ↔ ∃ v, slot = some (key, v) := by
    rintro (_ | ⟨key', v⟩)
    · simp
    · simp
  rw [find, List.findIdx?_eq_some_iff_getElem]
  constructor
  · rintro ⟨inside, holds, first⟩
    obtain ⟨v, same⟩ := (test _).mp holds
    refine ⟨⟨v, by rw [List.getElem?_eq_getElem inside, same]⟩, fun j v before found => ?_⟩
    rw [List.getElem?_eq_getElem (by omega), Option.some_inj] at found
    exact first j before ((test _).mpr ⟨v, found⟩)
  · rintro ⟨⟨v, found⟩, first⟩
    obtain ⟨inside, same⟩ := List.getElem?_eq_some_iff.mp found
    refine ⟨inside, (test _).mpr ⟨v, same⟩, fun j before holds => ?_⟩
    obtain ⟨v', same'⟩ := (test _).mp holds
    exact first j v' before (by rw [List.getElem?_eq_getElem (by omega), same'])

theorem find_eq_none_iff :
    find table key = none ↔ ∀ (k : Nat) v, table[k]? ≠ some (some (key, v)) := by
  constructor
  · intro none k v found
    obtain ⟨inside, same⟩ := List.getElem?_eq_some_iff.mp found
    have misses := List.findIdx?_eq_none_iff.mp none _ (List.getElem_mem inside)
    rw [same] at misses
    simp at misses
  · intro absent
    cases found : find table key with
    | none => rfl
    | some k =>
      obtain ⟨⟨v, there⟩, -⟩ := find_eq_some_iff.mp found
      exact absurd there (absent k v)

namespace Represents

section

variable (represents : Represents table map)
include represents

theorem find_eq_some : find table key = some k ↔ ∃ v, table[k]? = some (some (key, v)) := by
  rw [find_eq_some_iff]
  constructor
  · exact And.left
  · rintro ⟨v, there⟩
    refine ⟨⟨v, there⟩, fun j v' before found => ?_⟩
    have same := represents.unique there found
    omega

theorem value_of_find (found : find table key = some k) :
    ∃ v, table[k]? = some (some (key, v)) ∧ map key = some v := by
  obtain ⟨v, there⟩ := represents.find_eq_some.mp found
  exact ⟨v, there, (represents.value key v).mpr ⟨k, there⟩⟩

theorem find_eq_none : find table key = none ↔ map key = none := by
  rw [find_eq_none_iff, Option.eq_none_iff_forall_ne_some]
  constructor
  · intro absent v there
    obtain ⟨k, found⟩ := (represents.value key v).mp there
    exact absent k v found
  · intro absent k v found
    exact absent v ((represents.value key v).mpr ⟨k, found⟩)

theorem replace (inside : k ≤ table.length)
    (old : ∀ pair, table[k]? = some (some pair) → pair.1 = key)
    (alone : ∀ {j : Nat} {v}, table[j]? = some (some (key, v)) → j = k)
    (new : ∀ pair, slot = some pair → pair.1 = key) :
    Represents (put table k slot) (Function.update map key (slot.map Prod.snd)) := by
  constructor
  · intro j j' key' v₁ v₂ first second
    rw [getElem?_put inside] at first second
    split at first <;> rename_i here <;> split at second <;> rename_i there
    · rw [here, there]
    · cases new _ (Option.some_inj.mp first)
      exact absurd (alone second) there
    · cases new _ (Option.some_inj.mp second)
      exact absurd (alone first) here
    · exact represents.unique first second
  · intro key' v'
    rw [Function.update_apply]
    split
    · rename_i same
      rw [same, Option.map_eq_some_iff]
      constructor
      · rintro ⟨pair, put, value⟩
        refine ⟨k, ?_⟩
        rw [getElem?_put inside, if_pos rfl, put, ← new pair put, ← value]
      · rintro ⟨j, found⟩
        rw [getElem?_put inside] at found
        split at found
        · exact ⟨_, Option.some_inj.mp found, rfl⟩
        · exact absurd (alone found) (by assumption)
    · rename_i differ
      rw [represents.value]
      refine exists_congr fun j => ?_
      rw [getElem?_put inside]
      split
      · rename_i here
        rw [here]
        exact ⟨fun found => absurd (old _ found) differ,
          fun found => absurd (new _ (Option.some_inj.mp found)) differ⟩
      · exact Iff.rfl

theorem insert (inside : k ≤ table.length) (empty : ∀ pair, table[k]? ≠ some (some pair))
    (absent : map key = none) (v : V) :
    Represents (put table k (some (key, v))) (Function.update map key (some v)) := by
  refine represents.replace inside (fun pair found => absurd found (empty pair))
    (fun {j v'} found => ?_) ?_
  · have there := (represents.value key v').mpr ⟨j, found⟩
    rw [absent] at there
    cases there
  · rintro pair ⟨⟩
    rfl

theorem erase (there : table[k]? = some (some (key, v))) :
    Represents (put table k none) (Function.update map key none) := by
  have inside : k ≤ table.length := Nat.le_of_lt (List.getElem?_eq_some_iff.mp there).1
  refine represents.replace inside (fun pair found => ?_)
    (fun found => represents.unique found there) nofun
  rw [there] at found
  cases found
  rfl

theorem find_put {map' : K → Option V} (after : Represents (put table k slot) map')
    (inside : k ≤ table.length) (old : ∀ v, table[k]? ≠ some (some (key, v)))
    (new : ∀ v, slot ≠ some (key, v)) : find (put table k slot) key = find table key := by
  refine Option.ext fun j => ?_
  rw [after.find_eq_some, represents.find_eq_some]
  refine exists_congr fun v => ?_
  rw [getElem?_put inside]
  split
  · rename_i here
    rw [here]
    exact ⟨fun found => absurd (Option.some_inj.mp found) (new v),
      fun found => absurd found (old v)⟩
  · exact Iff.rfl

end

end Represents

end SlotMap
