import Mathlib.Data.List.GetD
import Xv6.Library.Bytes

/-!
# A space of bytes addressed by words

The memory that a processor of 32 bits addresses: a byte for each word, with addresses that wrap
at the end. A write covers a range that starts anywhere; adjacent writes make one, and writes to
ranges that do not meet may change places.
-/

namespace ByteSpace

open BitVec (ofNat ofNat_add toNat_ofNat)
open Bytes (Byte)

abbrev Memory := BitVec 32 → Byte

def write (memory : Memory) (start : BitVec 32) (bytes : List Byte) : Memory := fun x =>
  bytes.getD (x - start).toNat (memory x)

def read (memory : Memory) (start : BitVec 32) (length : Nat) : List Byte :=
  (List.range length).map fun i => memory (start + BitVec.ofNat 32 i)

def word (memory : Memory) (start : BitVec 32) : BitVec 32 :=
  Bytes.ofBytes fun i => memory (start + BitVec.ofNat 32 i)

/-- The bytes from an address on up to the first zero, of a number of bytes at most. -/
def string (memory : Memory) : Nat → BitVec 32 → List Byte
  | 0, _ => []
  | limit + 1, start =>
    if memory start = 0 then [] else memory start :: string memory limit (start + 1)

variable {memory : Memory} {start x : BitVec 32} {bytes more : List Byte}

@[simp]
theorem length_read (length : Nat) : (read memory start length).length = length := by
  rw [read, List.length_map, List.length_range]

theorem read_succ (length : Nat) : read memory start (length + 1) =
    memory start :: read memory (start + 1) length := by
  simp only [read, List.range_succ_eq_map, List.map_cons, List.map_map, BitVec.add_zero,
    List.cons.injEq, true_and]
  refine List.map_congr_left fun n _ => ?_
  show memory (start + ofNat 32 (n + 1)) = memory (start + 1 + ofNat 32 n)
  rw [BitVec.add_assoc, Nat.add_comm, ofNat_add]
  rfl

theorem read_snoc (length : Nat) : read memory start (length + 1) =
    read memory start length ++ [memory (start + ofNat 32 length)] := by
  rw [read, List.range_succ, List.map_append]
  rfl

theorem add_distance (start x : BitVec 32) : start + ofNat 32 (x - start).toNat = x := by
  rw [BitVec.ofNat_toNat, BitVec.setWidth_eq, BitVec.add_comm, BitVec.sub_add_cancel]

theorem update_eq_write (byte : Byte) : Function.update memory x byte = write memory x [byte] := by
  funext y
  rcases Nat.eq_zero_or_pos (y - x).toNat with zero | apart
  · obtain rfl : y = x := by rw [← add_distance x y, zero, BitVec.add_zero]
    rw [Function.update_self, write, zero]
    rfl
  · have other : y ≠ x := by
      rintro rfl
      rw [BitVec.sub_self] at apart
      exact absurd apart (by decide)
    rw [Function.update_of_ne other, write, List.getD_eq_default _ _ apart]

theorem write_outside (outside : bytes.length ≤ (x - start).toNat) :
    write memory start bytes x = memory x := by
  rw [write, List.getD_eq_default _ _ outside]

theorem write_inside (inside : (x - start).toNat < bytes.length) :
    write memory start bytes x = bytes.getD (x - start).toNat 0 := by
  rw [write, List.getD_eq_getElem _ _ inside, List.getD_eq_getElem _ _ inside]

variable {offset : Nat}

theorem toNat_sub_offset (behind : offset ≤ (x - start).toNat) :
    (x - (start + ofNat 32 offset)).toNat = (x - start).toNat - offset := by
  have bound := (x - start).isLt
  rw [← BitVec.sub_sub, BitVec.toNat_sub_of_le] <;>
    simp only [BitVec.le_def, toNat_ofNat] <;> omega

theorem toNat_sub_offset_wrap (before : (x - start).toNat < offset) (small : offset ≤ 2 ^ 32) :
    (x - (start + ofNat 32 offset)).toNat = (x - start).toNat + 2 ^ 32 - offset := by
  have bound := (x - start).isLt
  rw [← BitVec.sub_sub, BitVec.toNat_sub, toNat_ofNat]
  omega

theorem write_offset (small : offset + bytes.length ≤ 2 ^ 32) :
    write memory (start + ofNat 32 offset) bytes x =
      if offset ≤ (x - start).toNat then bytes.getD ((x - start).toNat - offset) (memory x)
      else memory x := by
  split
  · rename_i behind
    rw [write, toNat_sub_offset behind]
  · rename_i before
    apply write_outside
    rw [toNat_sub_offset_wrap (by omega) (by omega)]
    omega

theorem write_append {length : Nat} (ends : bytes.length = length)
    (small : length + more.length ≤ 2 ^ 32) :
    write (write memory start bytes) (start + ofNat 32 length) more =
      write memory start (bytes ++ more) := by
  subst ends
  funext x
  rw [write_offset small]
  split
  · rename_i behind
    rw [write_outside behind]
    simp only [write, List.getD_eq_getElem?_getD, List.getElem?_append_right behind]
  · rename_i before
    simp only [write, List.getD_eq_getElem?_getD,
      List.getElem?_append_left (Nat.lt_of_not_le before)]

theorem write_comm (near far : Nat) (apart : near + bytes.length ≤ far)
    (small : far + more.length ≤ 2 ^ 32) :
    write (write memory (start + ofNat 32 far) more) (start + ofNat 32 near) bytes =
      write (write memory (start + ofNat 32 near) bytes) (start + ofNat 32 far)
        more := by
  have fits : near + bytes.length ≤ 2 ^ 32 := by omega
  funext x
  by_cases behind : far ≤ (x - start).toNat
  · have past : bytes.length ≤ (x - start).toNat - near := by omega
    rw [write_offset fits, write_offset small, write_offset small, write_offset fits,
      List.getD_eq_default _ _ past, List.getD_eq_default _ _ past]
    simp only [ite_self]
  · rw [write_offset fits, write_offset small, write_offset small, write_offset fits,
      if_neg behind, if_neg behind]

theorem write_at {n : Nat} (inside : n < bytes.length) (small : bytes.length ≤ 2 ^ 32) :
    write memory start bytes (start + ofNat 32 n) = bytes.getD n 0 := by
  have distance : (start + ofNat 32 n - start).toNat = n := by
    rw [BitVec.add_comm, BitVec.add_sub_cancel, toNat_ofNat]
    omega
  rw [write_inside (by rw [distance]; exact inside), distance]

theorem read_write (small : bytes.length ≤ 2 ^ 32) :
    read (write memory start bytes) start bytes.length = bytes := by
  apply List.ext_getElem
  · rw [length_read]
  · intro n _ inside
    simp only [read, List.getElem_map, List.getElem_range]
    rw [write_at inside small, List.getD_eq_getElem _ _ inside]

theorem read_congr {memory' : Memory} {length : Nat}
    (same : ∀ n < length,
      memory' (start + ofNat 32 n) = memory (start + ofNat 32 n)) :
    read memory' start length = read memory start length :=
  List.map_congr_left fun n inside => same n (List.mem_range.mp inside)

theorem word_write {value : BitVec 32} (inside : offset + 4 ≤ bytes.length)
    (small : bytes.length ≤ 2 ^ 32)
    (holds : ∀ i < 4, bytes.getD (offset + i) 0 = Bytes.byteOf value i) :
    word (write memory start bytes) (start + ofNat 32 offset) = value := by
  have byte : ∀ i < 4, write memory start bytes
      (start + ofNat 32 offset + ofNat 32 i) = Bytes.byteOf value i := by
    intro i less
    rw [BitVec.add_assoc, ← ofNat_add, write_at (by omega) small, holds i less]
  rw [word, Bytes.ofBytes, byte 0 (by omega), byte 1 (by omega), byte 2 (by omega),
    byte 3 (by omega)]
  exact Bytes.ofBytes_byteOf value

theorem word_write_words {words : List (BitVec 32)} {n : Nat} {value : BitVec 32}
    (there : words[n]? = some value) (small : (words.flatMap Bytes.toBytes).length ≤ 2 ^ 32) :
    word (write memory start (words.flatMap Bytes.toBytes)) (start + ofNat 32 (4 * n)) =
      value := by
  obtain ⟨inside, holds⟩ := Bytes.flatMap_toBytes_get there
  exact word_write inside small holds

theorem string_of_read {limit : Nat} (free : (0 : Byte) ∉ bytes) (room : bytes.length < limit)
    (there : read memory start (bytes.length + 1) = bytes ++ [0]) :
    string memory limit start = bytes := by
  induction bytes generalizing start limit with
  | nil =>
    obtain ⟨limit, rfl⟩ := Nat.exists_eq_succ_of_ne_zero (Nat.ne_of_gt room)
    have last : memory (start + ofNat 32 0) = 0 := List.cons.inj there |>.1
    rw [BitVec.add_zero] at last
    rw [string, if_pos last]
  | cons first rest ih =>
    obtain ⟨limit, rfl⟩ := Nat.exists_eq_succ_of_ne_zero (Nat.ne_of_gt (Nat.zero_lt_of_lt room))
    rw [List.mem_cons, not_or] at free
    rw [List.length_cons, read_succ, List.cons_append, List.cons.injEq] at there
    obtain ⟨byte, later⟩ := there
    rw [string, byte, if_neg fun zero => free.1 zero.symm,
      ih free.2 (Nat.lt_of_succ_lt_succ room) later]

end ByteSpace
