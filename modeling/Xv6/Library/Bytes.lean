import Mathlib.Data.BitVec
import Mathlib.Data.List.GetD
import Mathlib.Tactic.FinCases

/-!
# Bytes of arrays of words

Memory pages and disk blocks are arrays of 32-bit words that are also read and written byte by
byte, in little-endian order. `getByte` and `putBytes` are the byte view of an array of words;
a write changes the bytes of its range and no other. `load` and `store` are the word view of a
memory of bytes.
-/

namespace Bytes

abbrev Byte := BitVec 8

def byteOf (word : BitVec 32) (position : Nat) : Byte := word.extractLsb' (8 * position) 8

def ofBytes (bytes : Nat → Byte) : BitVec 32 := bytes 3 ++ bytes 2 ++ bytes 1 ++ bytes 0

def toBytes (word : BitVec 32) : List Byte := [byteOf word 0, byteOf word 1, byteOf word 2,
  byteOf word 3]

variable {words : Nat}

def getByte (array : Fin words → BitVec 32) (position : Nat) : Byte :=
  if inside : position / 4 < words then byteOf (array ⟨position / 4, inside⟩) (position % 4) else 0

/-- The array with the bytes written from a byte position on; what does not fit is dropped. -/
def putBytes (array : Fin words → BitVec 32) (start : Nat) (bytes : List Byte) :
    Fin words → BitVec 32 := fun word =>
  if start < 4 * word.val + 4 ∧ 4 * word.val < start + bytes.length then
    ofBytes fun position =>
      if start ≤ 4 * word.val + position then
        bytes.getD (4 * word.val + position - start) (byteOf (array word) position)
      else byteOf (array word) position
  else array word

theorem byteOf_ofBytes (bytes : Nat → Byte) {position : Nat} (inside : position < 4) :
    byteOf (ofBytes bytes) position = bytes position := by
  have cases : position = 0 ∨ position = 1 ∨ position = 2 ∨ position = 3 := by omega
  rcases cases with rfl | rfl | rfl | rfl <;>
  · ext i bound
    simp only [byteOf, ofBytes, BitVec.getElem_extractLsb', BitVec.getLsbD_append]
    grind

theorem ofBytes_byteOf (word : BitVec 32) : ofBytes (byteOf word) = word := by
  ext i bound
  simp only [byteOf, ofBytes]
  grind

theorem length_flatMap_toBytes (words : List (BitVec 32)) :
    (words.flatMap toBytes).length = 4 * words.length := by
  induction words with
  | nil => rfl
  | cons word rest ih =>
    rw [List.flatMap_cons, List.length_append, ih, List.length_cons]
    show 4 + _ = _
    omega

theorem flatMap_toBytes_get {list : List (BitVec 32)} {n : Nat} {word : BitVec 32}
    (there : list[n]? = some word) :
    4 * n + 4 ≤ (list.flatMap toBytes).length ∧
      ∀ i < 4, (list.flatMap toBytes).getD (4 * n + i) 0 = byteOf word i := by
  induction list generalizing n with
  | nil => cases there
  | cons first rest ih =>
    rw [List.flatMap_cons, List.length_append]
    have four : (toBytes first).length = 4 := rfl
    cases n with
    | zero =>
      obtain rfl : first = word := Option.some.inj there
      refine ⟨by omega, fun i less => ?_⟩
      rw [List.getD_append _ _ _ _ (by omega), Nat.mul_zero, Nat.zero_add]
      have cases : i = 0 ∨ i = 1 ∨ i = 2 ∨ i = 3 := by omega
      rcases cases with rfl | rfl | rfl | rfl <;> rfl
    | succ n =>
      obtain ⟨inside, holds⟩ := ih (show rest[n]? = some word from there)
      refine ⟨by omega, fun i less => ?_⟩
      rw [List.getD_append_right _ _ _ _ (by omega), ← holds i less]
      congr 1
      omega

theorem getByte_putBytes (array : Fin words → BitVec 32) (start : Nat) (bytes : List Byte)
    {position : Nat} (inside : position < 4 * words) :
    getByte (putBytes array start bytes) position =
      if start ≤ position then bytes.getD (position - start) (getByte array position)
      else getByte array position := by
  have bound : position / 4 < words := by omega
  have whole : 4 * (position / 4) + position % 4 = position := Nat.div_add_mod position 4
  simp only [getByte, bound, dif_pos, putBytes]
  split
  · rw [byteOf_ofBytes _ (Nat.mod_lt _ (by omega)), whole]
  · rename_i apart
    split
    · have short : bytes.length ≤ position - start := by omega
      rw [List.getD_eq_getElem?_getD, List.getElem?_eq_none short]
      rfl
    · rfl

def load (memory : Nat → Byte) (address : Nat) : BitVec 32 :=
  ofBytes fun position => memory (address + position)

def store (memory : Nat → Byte) (address : Nat) (word : BitVec 32) : Nat → Byte := fun x =>
  if address ≤ x ∧ x < address + 4 then byteOf word (x - address) else memory x

variable {memory memory' : Nat → Byte} {address : Nat}

theorem load_congr (same : ∀ x, address ≤ x → x < address + 4 → memory' x = memory x) :
    load memory' address = load memory address := by
  simp only [load, ofBytes]
  rw [same (address + 3) (by omega) (by omega), same (address + 2) (by omega) (by omega),
    same (address + 1) (by omega) (by omega), same (address + 0) (by omega) (by omega)]

theorem load_store (word : BitVec 32) : load (store memory address word) address = word := by
  have stored : ∀ position, position < 4 →
      store memory address word (address + position) = byteOf word position := by
    intro position inside
    unfold store
    rw [if_pos ⟨by omega, by omega⟩]
    congr 1
    omega
  calc
    load (store memory address word) address = ofBytes (byteOf word) := by
      simp only [load, ofBytes]
      rw [stored 3 (by omega), stored 2 (by omega), stored 1 (by omega), stored 0 (by omega)]
    _ = word := ofBytes_byteOf word

theorem store_other {x : Nat} (word : BitVec 32) (outside : x < address ∨ address + 4 ≤ x) :
    store memory address word x = memory x :=
  if_neg fun inside => by omega

theorem load_store_other {other : Nat} (word : BitVec 32)
    (apart : other + 4 ≤ address ∨ address + 4 ≤ other) :
    load (store memory address word) other = load memory other :=
  load_congr fun x _ _ => store_other word (by omega)

end Bytes
