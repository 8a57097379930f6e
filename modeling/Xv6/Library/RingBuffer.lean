import Mathlib.Data.Fin.Basic
import Mathlib.Data.Int.ModEq
import Mathlib.Data.List.Basic

/-!
# Ring buffers with wrapping counters

A ring buffer keeps its elements in a fixed row of cells and two counters: how many elements were
taken and how many were put, both as machine words that wrap. An element sits in the cell that its
counter names modulo the capacity. When the capacity divides the range of the counters, wrapping
never moves an element, and the buffer is the queue of the elements put and not yet taken.
-/

namespace RingBuffer

open BitVec (toNat_ofNat toNat_add)

structure Ring (α : Type) (width capacity : Nat) where
  cells : Fin capacity → α
  taken : BitVec width
  put : BitVec width

variable {α : Type} {width capacity : Nat} [NeZero capacity]

def cell (capacity : Nat) [NeZero capacity] (counter : BitVec width) : Fin capacity :=
  Fin.ofNat capacity counter.toNat

namespace Ring

def count (r : Ring α width capacity) : Nat := (r.put - r.taken).toNat

def contents (r : Ring α width capacity) : List α :=
  (List.range r.count).map fun i => r.cells (Fin.ofNat capacity (r.taken.toNat + i))

def push (r : Ring α width capacity) (x : α) : Ring α width capacity :=
  { r with cells := Function.update r.cells (cell capacity r.put) x, put := r.put + 1#(width) }

def front (r : Ring α width capacity) : α := r.cells (cell capacity r.taken)

def pop (r : Ring α width capacity) : Ring α width capacity :=
  { r with taken := r.taken + 1#(width) }

def back (r : Ring α width capacity) : α := r.cells (cell capacity (r.put - 1#(width)))

def unput (r : Ring α width capacity) : Ring α width capacity :=
  { r with put := r.put - 1#(width) }

end Ring

omit [NeZero capacity] in
theorem toNat_put (r : Ring α width capacity) :
    r.put.toNat = (r.taken.toNat + r.count) % 2 ^ width := by
  have sum : r.put = r.taken + (r.put - r.taken) := by
    rw [BitVec.add_comm, BitVec.sub_add_cancel]
  calc
    r.put.toNat = (r.taken + (r.put - r.taken)).toNat := by rw [← sum]
    _ = (r.taken.toNat + r.count) % 2 ^ width := toNat_add _ _

omit [NeZero capacity] in
theorem count_eq_zero_iff (r : Ring α width capacity) : r.count = 0 ↔ r.taken = r.put := by
  constructor
  · intro zero
    have difference : r.put - r.taken = 0#(width) := by
      apply BitVec.eq_of_toNat_eq
      rw [toNat_ofNat, Nat.zero_mod]
      exact zero
    have sum : r.put = r.put - r.taken + r.taken := (BitVec.sub_add_cancel _ _).symm
    rw [sum, difference, BitVec.zero_add]
  · intro same
    simp [Ring.count, same]

omit [NeZero capacity] in
theorem count_eq_capacity_iff (r : Ring α width capacity) (range : capacity < 2 ^ width) :
    r.count = capacity ↔ r.put = r.taken + BitVec.ofNat width capacity := by
  constructor
  · intro full
    have difference : r.put - r.taken = BitVec.ofNat width capacity := by
      apply BitVec.eq_of_toNat_eq
      rw [toNat_ofNat, Nat.mod_eq_of_lt range]
      exact full
    rw [← difference, BitVec.add_comm, BitVec.sub_add_cancel]
  · intro apart
    rw [Ring.count, apart, BitVec.add_comm, BitVec.add_sub_cancel, toNat_ofNat,
      Nat.mod_eq_of_lt range]

section

variable (divides : capacity ∣ 2 ^ width) (r : Ring α width capacity)

include divides

theorem cell_put : cell capacity r.put = Fin.ofNat capacity (r.taken.toNat + r.count) := by
  apply Fin.ext
  simp only [cell, Fin.ofNat]
  rw [toNat_put, Nat.mod_mod_of_dvd _ divides]

omit divides in
theorem cell_injective {start i j : Nat} (boundI : i < capacity) (boundJ : j < capacity)
    (same : Fin.ofNat capacity (start + i) = Fin.ofNat capacity (start + j)) : i = j := by
  have remainders : (start + i) % capacity = (start + j) % capacity := congrArg Fin.val same
  have cancelled : i % capacity = j % capacity := Nat.ModEq.add_left_cancel' start remainders
  rwa [Nat.mod_eq_of_lt boundI, Nat.mod_eq_of_lt boundJ] at cancelled

theorem cell_succ (counter : BitVec width) (i : Nat) :
    Fin.ofNat capacity ((counter + 1#(width)).toNat + i) =
      Fin.ofNat capacity (counter.toNat + (i + 1)) := by
  apply Fin.ext
  have one : (counter + 1#(width)).toNat % capacity = (counter.toNat + 1) % capacity := by
    rw [toNat_add, toNat_ofNat, Nat.add_mod_mod, Nat.mod_mod_of_dvd _ divides]
  calc
    ((counter + 1#(width)).toNat + i) % capacity
        = ((counter + 1#(width)).toNat % capacity + i) % capacity := (Nat.mod_add_mod _ _ _).symm
    _ = ((counter.toNat + 1) % capacity + i) % capacity := by rw [one]
    _ = (counter.toNat + (i + 1)) % capacity := by
      rw [Nat.mod_add_mod, Nat.add_assoc, Nat.add_comm 1]

end

omit [NeZero capacity] in
theorem toNat_add_one {x : BitVec width} (bound : x.toNat + 1 < 2 ^ width) :
    (x + 1#(width)).toNat = x.toNat + 1 := by
  have one : 1 < 2 ^ width := by omega
  rw [toNat_add, toNat_ofNat, Nat.mod_eq_of_lt one, Nat.mod_eq_of_lt bound]

theorem count_push (r : Ring α width capacity) (range : capacity < 2 ^ width)
    (space : r.count < capacity) (x : α) : (r.push x).count = r.count + 1 := by
  have further : r.put + 1#(width) - r.taken = r.put - r.taken + 1#(width) := by
    rw [BitVec.sub_eq_add_neg, BitVec.sub_eq_add_neg, BitVec.add_assoc, BitVec.add_assoc,
      BitVec.add_comm 1#(width)]
  have bound : (r.put - r.taken).toNat + 1 < 2 ^ width := by
    change r.count + 1 < 2 ^ width
    omega
  change (r.put + 1#(width) - r.taken).toNat = _
  rw [further, toNat_add_one bound]
  rfl

omit [NeZero capacity] in
theorem count_pop (r : Ring α width capacity) (full : 0 < r.count) :
    r.pop.count + 1 = r.count := by
  have nearer : r.put - r.taken = r.put - (r.taken + 1#(width)) + 1#(width) := by
    have sum : r.put = r.put - (r.taken + 1#(width)) + 1#(width) + r.taken := by
      rw [BitVec.add_assoc, BitVec.add_comm 1#(width), BitVec.sub_add_cancel]
    calc
      r.put - r.taken = r.put - (r.taken + 1#(width)) + 1#(width) + r.taken - r.taken := by
        rw [← sum]
      _ = r.put - (r.taken + 1#(width)) + 1#(width) := BitVec.add_sub_cancel _ _
  have wraps := (r.put - (r.taken + 1#(width))).isLt
  have total : (r.put - r.taken).toNat = (r.pop.count + 1 % 2 ^ width) % 2 ^ width := by
    rw [nearer, toNat_add, toNat_ofNat]
    rfl
  change 0 < (r.put - r.taken).toNat at full
  change r.pop.count < 2 ^ width at wraps
  change _ = (r.put - r.taken).toNat
  rw [Nat.add_mod_mod] at total
  by_cases last : r.pop.count + 1 = 2 ^ width
  · rw [last, Nat.mod_self] at total
    omega
  · rw [Nat.mod_eq_of_lt (by omega)] at total
    omega

theorem contents_push (divides : capacity ∣ 2 ^ width) (r : Ring α width capacity)
    (range : capacity < 2 ^ width) (space : r.count < capacity) (x : α) :
    (r.push x).contents = r.contents ++ [x] := by
  have kept : ∀ i ∈ List.range r.count,
      (r.push x).cells (Fin.ofNat capacity (r.taken.toNat + i)) =
        r.cells (Fin.ofNat capacity (r.taken.toNat + i)) := by
    intro i member
    have bound := List.mem_range.mp member
    refine Function.update_of_ne (fun same => ?_) _ _
    rw [cell_put divides] at same
    have equal := cell_injective (by omega) space same
    omega
  have last : (r.push x).cells (Fin.ofNat capacity (r.taken.toNat + r.count)) = x := by
    rw [← cell_put divides]
    exact Function.update_self _ _ _
  rw [Ring.contents, count_push r range space, List.range_succ, List.map_append]
  change List.map (fun i => (r.push x).cells (Fin.ofNat capacity (r.taken.toNat + i))) _ ++
    [(r.push x).cells (Fin.ofNat capacity (r.taken.toNat + r.count))] = _
  rw [List.map_congr_left kept, last]
  rfl

theorem contents_pop (divides : capacity ∣ 2 ^ width) (r : Ring α width capacity)
    (full : 0 < r.count) : r.contents = r.front :: r.pop.contents := by
  rw [Ring.contents, ← count_pop r full, List.range_succ_eq_map, List.map_cons, List.map_map]
  refine congrArg₂ List.cons rfl (List.map_congr_left fun i _ => ?_)
  exact congrArg r.cells (cell_succ divides r.taken i).symm

omit [NeZero capacity] in
theorem count_unput (r : Ring α width capacity) (full : 0 < r.count) :
    r.unput.count + 1 = r.count := by
  have nearer : r.put - r.taken = r.put - 1#(width) - r.taken + 1#(width) := by
    rw [BitVec.sub_eq_add_neg, BitVec.sub_eq_add_neg (r.put - 1#(width)), BitVec.add_assoc,
      BitVec.add_comm (-r.taken), ← BitVec.add_assoc, BitVec.sub_add_cancel]
  have wraps := (r.put - 1#(width) - r.taken).isLt
  have total : (r.put - r.taken).toNat = (r.unput.count + 1 % 2 ^ width) % 2 ^ width := by
    rw [nearer, toNat_add, toNat_ofNat]
    rfl
  change 0 < (r.put - r.taken).toNat at full
  change r.unput.count < 2 ^ width at wraps
  change _ = (r.put - r.taken).toNat
  rw [Nat.add_mod_mod] at total
  by_cases last : r.unput.count + 1 = 2 ^ width
  · rw [last, Nat.mod_self] at total
    omega
  · rw [Nat.mod_eq_of_lt (by omega)] at total
    omega

theorem contents_unput (divides : capacity ∣ 2 ^ width) (r : Ring α width capacity)
    (full : 0 < r.count) : r.contents = r.unput.contents ++ [r.back] := by
  have last : cell capacity (r.put - 1#(width)) =
      Fin.ofNat capacity (r.taken.toNat + r.unput.count) := cell_put divides r.unput
  rw [Ring.contents, ← count_unput r full, List.range_succ, List.map_append, Ring.back, last]
  rfl

end RingBuffer
