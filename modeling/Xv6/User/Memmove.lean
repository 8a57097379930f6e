import Xv6.Library.ByteSpace
import Xv6.Param

/-!
# The two implementations of `memmove`

`memmove` of `string.c` copies from the end when the destination starts inside the source, and
`memmove` of `ulib.c` always copies from the start. A loop that copies one byte at a time moves the
bytes that the source had at first if no byte of the source is overwritten before it is read. That
holds for each loop when the other range does not start behind it within its reach.
-/

namespace Xv6

open BitVec (toNat_ofNat toNat_sub ofNat)
open Bytes (Byte)
open ByteSpace

def copyUp : Nat → Word → Word → Memory → Memory
  | 0, _, _, memory => memory
  | n + 1, d, s, memory => copyUp n (d + 1) (s + 1) (Function.update memory d (memory s))

def copyDown : Nat → Word → Word → Memory → Memory
  | 0, _, _, memory => memory
  | n + 1, d, s, memory =>
    copyDown n (d - 1) (s - 1) (Function.update memory (d - 1) (memory (s - 1)))

def memmove (memory : Memory) (dst src n : Word) : Memory :=
  if src < dst ∧ dst < src + n then copyDown n.toNat (dst + n) (src + n) memory
  else copyUp n.toNat dst src memory

def ulibMemmove (memory : Memory) (dst src n : Word) : Memory :=
  copyUp n.toInt.toNat dst src memory

/-- The destination has the bytes that the source had before, and nothing else changed. -/
structure Moved (before after : Memory) (dst src : Word) (n : Nat) : Prop where
  copied : ∀ i < n, after (dst + BitVec.ofNat 32 i) = before (src + BitVec.ofNat 32 i)
  kept : ∀ x, (∀ i < n, x ≠ dst + BitVec.ofNat 32 i) → after x = before x

def StartsInside (dst src n : Word) : Prop := src < dst ∧ dst.toNat < src.toNat + n.toNat

variable {memory : Memory} {dst src : Word} {n : Nat}

section

variable (fits : n ≤ 2 ^ 32)
include fits

theorem moved_write : Moved memory (write memory dst (ByteSpace.read memory src n)) dst src n where
  copied i inside := by
    have length : (ByteSpace.read memory src n).length = n := length_read n
    rw [write_at (by omega) (by omega), List.getD_eq_getElem _ _ (by omega)]
    simp only [ByteSpace.read, List.getElem_map, List.getElem_range]
  kept x outside := by
    refine write_outside ?_
    rw [length_read]
    by_contra inside
    exact outside _ (Nat.lt_of_not_le inside) (add_distance dst x).symm

theorem read_update {x : Word} {byte : Byte} (apart : n ≤ (x - src).toNat) :
    ByteSpace.read (Function.update memory x byte) src n = ByteSpace.read memory src n := by
  refine read_congr fun i inside => Function.update_of_ne ?_ _ _
  rintro rfl
  rw [BitVec.add_comm, BitVec.add_sub_cancel, toNat_ofNat] at apart
  omega

theorem copyUp_eq (apart : (dst - src).toNat = 0 ∨ n ≤ (dst - src).toNat) :
    copyUp n dst src memory = write memory dst (ByteSpace.read memory src n) := by
  induction n generalizing dst src memory with
  | zero => rfl
  | succ n ih =>
    have next : dst + 1 - (src + 1) = dst - src := by
      rw [BitVec.add_comm src, ← BitVec.sub_sub, BitVec.add_sub_cancel]
    -- the rest of the source does not have the byte that is stored now
    have rest : ByteSpace.read (Function.update memory dst (memory src)) (src + 1) n =
        ByteSpace.read memory (src + 1) n := by
      refine read_update (by omega) ?_
      have bound := (dst - src).isLt
      rw [← BitVec.sub_sub, toNat_sub]
      rcases apart with zero | far
      · rw [zero]
        show n ≤ (2 ^ 32 - 1 + 0) % 2 ^ 32
        omega
      · show n ≤ (2 ^ 32 - 1 + (dst - src).toNat) % 2 ^ 32
        omega
    rw [copyUp, ih (by omega) (by rw [next]; omega), rest, update_eq_write, read_succ]
    exact @write_append memory dst [memory src] (ByteSpace.read memory (src + 1) n) 1 rfl
      (by rw [length_read]; omega)

theorem copyDown_eq (apart : (src - dst).toNat = 0 ∨ n ≤ (src - dst).toNat) :
    copyDown n (dst + ofNat 32 n) (src + ofNat 32 n) memory =
      write memory dst (ByteSpace.read memory src n) := by
  induction n generalizing memory with
  | zero => rfl
  | succ n ih =>
    have last : ∀ p : Word, p + ofNat 32 (n + 1) - 1 = p + ofNat 32 n := by
      intro p
      rw [BitVec.ofNat_add, ← BitVec.add_assoc]
      exact BitVec.add_sub_cancel _ _
    -- the bytes before the last do not have the one that is stored now
    have rest : ∀ byte, ByteSpace.read
        (Function.update memory (dst + ofNat 32 n) byte) src n =
        ByteSpace.read memory src n := by
      intro byte
      refine read_update (by omega) ?_
      have distance : dst + ofNat 32 n - src = ofNat 32 n - (src - dst) := by
        bv_omega
      have bound := (src - dst).isLt
      rw [distance, toNat_sub, toNat_ofNat]
      omega
    rw [copyDown, last, last, ih (by omega) (by omega), rest, update_eq_write, read_snoc]
    have swapped := @write_comm memory dst (ByteSpace.read memory src n)
      [memory (src + ofNat 32 n)] 0 n (by rw [length_read]; omega)
      (by rw [List.length_singleton]; exact fits)
    rw [BitVec.add_zero] at swapped
    rw [swapped]
    exact write_append (length_read n) (by rw [List.length_singleton]; exact fits)

end

theorem memmove_eq {n : Word} (srcFits : src.toNat + n.toNat ≤ 2 ^ 32)
    (dstFits : dst.toNat + n.toNat ≤ 2 ^ 32) :
    memmove memory dst src n = write memory dst (ByteSpace.read memory src n.toNat) := by
  have fits : n.toNat ≤ 2 ^ 32 := Nat.le_of_lt n.isLt
  rw [memmove]
  split
  · rename_i inside
    have word : n = ofNat 32 n.toNat := by rw [BitVec.ofNat_toNat, BitVec.setWidth_eq]
    have far : n.toNat ≤ (src - dst).toNat := by bv_omega
    have down := @copyDown_eq memory dst src n.toNat fits (.inr far)
    rwa [← word] at down
  · rename_i outside
    refine copyUp_eq fits ?_
    bv_omega

theorem ulibMemmove_eq {n : Word} (nonneg : 0 ≤ n.toInt) (outside : ¬ StartsInside dst src n)
    (srcFits : src.toNat + n.toNat ≤ 2 ^ 32) :
    ulibMemmove memory dst src n = write memory dst (ByteSpace.read memory src n.toNat) := by
  have count : n.toInt.toNat = n.toNat := by
    rw [BitVec.toInt_eq_toNat_cond] at nonneg ⊢
    omega
  rw [ulibMemmove, count]
  refine copyUp_eq (Nat.le_of_lt n.isLt) ?_
  unfold StartsInside at outside
  bv_omega

theorem copyUp_spreads {d : Nat} {byte : Byte} (behind : dst = src + ofNat 32 d) (some : 0 < d)
    (same : ∀ i < d, memory (src + ofNat 32 i) = byte) (n : Nat) :
    copyUp (n + 1) dst src memory (dst + ofNat 32 n) = byte := by
  have first := same 0 some
  rw [BitVec.add_zero] at first
  induction n generalizing dst src memory with
  | zero =>
    rw [copyUp, copyUp, BitVec.add_zero, Function.update_self]
    exact first
  | succ n ih =>
    have next : ∀ (p : Word) i, p + 1 + ofNat 32 i = p + ofNat 32 (i + 1) := by
      intro p i
      rw [BitVec.add_assoc, Nat.add_comm i 1, BitVec.ofNat_add]
      rfl
    -- the byte that is stored now is in front of the destination in the next round
    have same' : ∀ i < d,
        Function.update memory dst (memory src) (src + 1 + ofNat 32 i) = byte := by
      intro i less
      rw [next, Function.update_apply]
      split
      · exact first
      · rename_i other
        refine same (i + 1) (Nat.lt_of_le_of_ne less fun ends => other ?_)
        rw [ends, behind]
    rw [copyUp, ← next]
    refine ih ?_ same' ?_
    · rw [behind, next, BitVec.add_assoc, BitVec.ofNat_add]
      rfl
    · have start := same' 0 some
      rwa [BitVec.add_zero] at start

theorem ulibMemmove_fails {n : Word} (nonneg : 0 ≤ n.toInt) (inside : StartsInside dst src n) :
    ∃ memory, ¬ Moved memory (ulibMemmove memory dst src n) dst src n.toNat := by
  have count : n.toInt.toNat = n.toNat := by
    rw [BitVec.toInt_eq_toNat_cond] at nonneg ⊢
    omega
  obtain ⟨above, below⟩ := inside
  have above' := BitVec.lt_def.mp above
  have bound := n.isLt
  obtain ⟨m, size⟩ : ∃ m, n.toNat = m + 1 := ⟨n.toNat - 1, by omega⟩
  let memory : Memory := fun x => if (x - src).toNat < dst.toNat - src.toNat then 1 else 0
  refine ⟨memory, fun moved => ?_⟩
  have behind : dst = src + ofNat 32 (dst.toNat - src.toNat) := by
    apply BitVec.eq_of_toNat_eq
    rw [BitVec.toNat_add, toNat_ofNat]
    have top := dst.isLt
    omega
  have offset : ∀ i < 2 ^ 32, (src + ofNat 32 i - src).toNat = i := by
    intro i less
    rw [BitVec.add_comm, BitVec.add_sub_cancel, toNat_ofNat, Nat.mod_eq_of_lt less]
  have spread : ulibMemmove memory dst src n (dst + ofNat 32 m) = 1 := by
    rw [ulibMemmove, count, size]
    refine copyUp_spreads behind (by omega) (fun i less => if_pos ?_) m
    rw [offset i (by omega)]
    exact less
  have copied := moved.copied m (by omega)
  have zero : memory (src + ofNat 32 m) = 0 := by
    refine if_neg ?_
    rw [offset m (by omega)]
    omega
  rw [spread, zero] at copied
  exact absurd copied (by decide)

/-- The kernel's `memmove` moves the bytes whatever the overlap. The library's does when the
destination does not start inside the source behind its first byte, and then it leaves the memory
that the kernel's leaves; otherwise it fails on some memory. -/
theorem memmove_moves (memory : Memory) (dst src n : Word) (nonneg : 0 ≤ n.toInt)
    (srcFits : src.toNat + n.toNat ≤ 2 ^ 32) (dstFits : dst.toNat + n.toNat ≤ 2 ^ 32) :
    Moved memory (memmove memory dst src n) dst src n.toNat ∧
    (¬ StartsInside dst src n →
      Moved memory (ulibMemmove memory dst src n) dst src n.toNat ∧
      ulibMemmove memory dst src n = memmove memory dst src n) ∧
    (StartsInside dst src n →
      ∃ memory, ¬ Moved memory (ulibMemmove memory dst src n) dst src n.toNat) := by
  have kernel := @memmove_eq memory dst src n srcFits dstFits
  refine ⟨?_, fun outside => ?_, ulibMemmove_fails nonneg⟩
  · rw [kernel]
    exact moved_write (Nat.le_of_lt n.isLt)
  · have library := @ulibMemmove_eq memory dst src n nonneg outside srcFits
    refine ⟨?_, library.trans kernel.symm⟩
    rw [library]
    exact moved_write (Nat.le_of_lt n.isLt)

/-- Moving three bytes down by one, where the ranges overlap. -/
theorem memmove_moves_down :
    Moved (BitVec.setWidth 8) (memmove (BitVec.setWidth 8) 1 2 3) 1 2 3 ∧
    ¬ StartsInside 1 2 3 ∧
    Moved (BitVec.setWidth 8) (ulibMemmove (BitVec.setWidth 8) 1 2 3) 1 2 3 := by
  have outside : ¬ StartsInside 1 2 3 := by unfold StartsInside; decide
  obtain ⟨kernel, library, -⟩ :=
    memmove_moves (BitVec.setWidth 8) 1 2 3 (by decide) (by decide) (by decide)
  exact ⟨kernel, outside, (library outside).1⟩

/-- Moving two bytes up by one: the library's loop reads the second byte after it has stored the
first one there. -/
theorem ulibMemmove_overwrites :
    StartsInside 1 0 2 ∧ Moved (BitVec.setWidth 8) (memmove (BitVec.setWidth 8) 1 0 2) 1 0 2 ∧
    ¬ Moved (BitVec.setWidth 8) (ulibMemmove (BitVec.setWidth 8) 1 0 2) 1 0 2 := by
  refine ⟨by unfold StartsInside; decide, ?_, fun moved => ?_⟩
  · rw [memmove_eq (by decide) (by decide)]
    exact moved_write (by decide)
  · have second : ulibMemmove (BitVec.setWidth 8) 1 0 2 2 = 0 := by decide
    have copied : ulibMemmove (BitVec.setWidth 8) 1 0 2 2 = 1 := moved.copied 1 (by decide)
    rw [second] at copied
    exact absurd copied (by decide)

end Xv6
