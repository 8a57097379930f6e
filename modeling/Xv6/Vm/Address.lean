import Mathlib.Data.BitVec
import Mathlib.Tactic.NormNum
import Xv6.Param

/-!
# Addresses and page table entries

The constants of `memlayout.h` and `mmu.h` and the macros on addresses and entries. An address
is a 32-bit word; the kernel reaches the physical page at `pa` through the virtual address
`p2v pa`, and a page is named here by that address. The lemmas give the macros their readings
in numbers.
-/

namespace Xv6

def extmem : Word := 0x100000
def physTop : Word := 0xE000000
def devspace : Word := 0xFE000000
def kernlink : Word := kernbase + extmem
/-- `NPDENTRIES` and `NPTENTRIES`: entries of a page directory and of a page table. -/
def npentries : Nat := 1024
def pteP : Word := 1
def pteW : Word := 2
def pteU : Word := 4

instance : NeZero npentries := ⟨by decide⟩

abbrev PtIndex := Fin npentries

def v2p (a : Word) : Word := a - kernbase

def p2v (a : Word) : Word := a + kernbase

def pdx (va : Word) : PtIndex :=
  ⟨((va >>> 22) &&& 0x3FF#32).toNat, by
    rw [BitVec.toNat_and]
    exact Nat.lt_of_le_of_lt Nat.and_le_right (by decide)⟩

def ptx (va : Word) : PtIndex :=
  ⟨((va >>> 12) &&& 0x3FF#32).toNat, by
    rw [BitVec.toNat_and]
    exact Nat.lt_of_le_of_lt Nat.and_le_right (by decide)⟩

def pgRoundUp (sz : Word) : Word := (sz + pgsize - 1) &&& ~~~(pgsize - 1)

def pgRoundDown (a : Word) : Word := a &&& ~~~(pgsize - 1)

def pteAddr (pte : Word) : Word := pte &&& ~~~0xFFF#32

def pteFlags (pte : Word) : Word := pte &&& 0xFFF#32

def HasFlag (flag pte : Word) : Prop := pte &&& flag ≠ 0

instance (flag pte : Word) : Decidable (HasFlag flag pte) := instDecidableNot

def Aligned (a : Word) : Prop := a &&& 0xFFF#32 = 0

instance (a : Word) : Decidable (Aligned a) := instDecidableEqBitVec _ _

/-- What the linker decides about the kernel: where `data` and `end` lie. Text and read-only
data lie between `KERNLINK` and `data`, and the boot page table reaches up to 4 megabytes. -/
structure Image where
  data : Word
  endAddr : Word
  aligned : Aligned data
  text : kernlink < data
  segment : data ≤ endAddr
  reach : endAddr ≤ p2v 0x400000

def Managed (k : Image) (v : Word) : Prop := Aligned v ∧ k.endAddr ≤ v ∧ v2p v < physTop

instance (k : Image) (v : Word) : Decidable (Managed k v) := instDecidableAnd

section Readings

variable {a va pa perm pte : Word}

theorem and_mask_toNat (a : Word) : (a &&& 0xFFF#32).toNat = a.toNat % 4096 := by
  rw [BitVec.toNat_and]
  exact Nat.and_two_pow_sub_one_eq_mod a.toNat 12

theorem and_not_mask (a : Word) : a &&& ~~~0xFFF#32 = (a >>> 12) <<< 12 := by
  have bits : ∀ i : Fin 32, (~~~0xFFF#32).getLsbD i.val = decide (12 ≤ i.val) := by decide
  apply BitVec.eq_of_getLsbD_eq
  intro i bound
  rw [BitVec.getLsbD_and, bits ⟨i, bound⟩, BitVec.getLsbD_shiftLeft, BitVec.getLsbD_ushiftRight]
  by_cases low : i < 12
  · simp [low]
  · simp [low, bound, show 12 ≤ i by omega, show 12 + (i - 12) = i by omega]

theorem and_not_mask_toNat (a : Word) : (a &&& ~~~0xFFF#32).toNat = a.toNat / 4096 * 4096 := by
  rw [and_not_mask, BitVec.toNat_shiftLeft, BitVec.toNat_ushiftRight, Nat.shiftLeft_eq,
    Nat.shiftRight_eq_div_pow]
  have bound := a.isLt
  exact Nat.mod_eq_of_lt (by omega)

theorem aligned_iff : Aligned a ↔ a.toNat % 4096 = 0 := by
  unfold Aligned
  rw [← BitVec.toNat_inj, and_mask_toNat]
  rfl

theorem pgRoundDown_toNat : (pgRoundDown a).toNat = a.toNat / 4096 * 4096 :=
  and_not_mask_toNat a

theorem pgRoundDown_aligned : Aligned (pgRoundDown a) := by
  rw [aligned_iff, pgRoundDown_toNat]
  omega

theorem Aligned.pgRoundDown (aligned : Aligned a) : pgRoundDown a = a := by
  rw [aligned_iff] at aligned
  apply BitVec.eq_of_toNat_eq
  rw [pgRoundDown_toNat]
  omega

theorem pgRoundUp_toNat (small : a.toNat ≤ 2 ^ 32 - 4096) :
    (pgRoundUp a).toNat = (a.toNat + 4095) / 4096 * 4096 := by
  have sum : (a + pgsize - 1).toNat = a.toNat + 4095 := by
    unfold pgsize
    bv_omega
  show ((a + pgsize - 1) &&& ~~~0xFFF#32).toNat = _
  rw [and_not_mask_toNat, sum]

theorem pdx_val : (pdx va).val = va.toNat / 2 ^ 22 := by
  have bound := va.isLt
  show ((va >>> 22) &&& 0x3FF#32).toNat = _
  rw [BitVec.toNat_and, BitVec.toNat_ushiftRight, Nat.shiftRight_eq_div_pow]
  show va.toNat / 2 ^ 22 &&& (2 ^ 10 - 1) = _
  rw [Nat.and_two_pow_sub_one_eq_mod]
  omega

theorem ptx_val : (ptx va).val = va.toNat / 4096 % 1024 := by
  show ((va >>> 12) &&& 0x3FF#32).toNat = _
  rw [BitVec.toNat_and, BitVec.toNat_ushiftRight, Nat.shiftRight_eq_div_pow]
  exact Nat.and_two_pow_sub_one_eq_mod _ 10

theorem pdx_lt_iff : (pdx va).val < 512 ↔ va < kernbase := by
  rw [pdx_val, BitVec.lt_def]
  show _ ↔ va.toNat < 0x80000000
  omega

theorem eq_of_indices {vb : Word} (first : Aligned va) (second : Aligned vb)
    (directory : pdx va = pdx vb) (table : ptx va = ptx vb) : va = vb := by
  rw [aligned_iff] at first second
  rw [Fin.ext_iff, pdx_val, pdx_val] at directory
  rw [Fin.ext_iff, ptx_val, ptx_val] at table
  apply BitVec.eq_of_toNat_eq
  omega

theorem exists_page (i j : PtIndex) : ∃ b, Aligned b ∧ pdx b = i ∧ ptx b = j := by
  have first : i.val < 1024 := i.isLt
  have second : j.val < 1024 := j.isLt
  have value : (BitVec.ofNat 32 (2 ^ 22 * i.val + 4096 * j.val)).toNat =
      2 ^ 22 * i.val + 4096 * j.val := by
    rw [BitVec.toNat_ofNat]
    omega
  refine ⟨BitVec.ofNat 32 (2 ^ 22 * i.val + 4096 * j.val), ?_, ?_, ?_⟩
  · rw [aligned_iff, value]
    omega
  · rw [Fin.ext_iff, pdx_val, value]
    omega
  · rw [Fin.ext_iff, ptx_val, value]
    omega

@[simp]
theorem p2v_v2p : p2v (v2p a) = a := by
  unfold p2v v2p
  bv_omega

theorem Aligned.v2p (aligned : Aligned a) : Aligned (v2p a) := by
  rw [aligned_iff] at aligned ⊢
  unfold Xv6.v2p kernbase
  bv_omega

def IsFlags (perm : Word) : Prop := perm &&& ~~~0xFFF#32 = 0

theorem hasFlag_pteP : HasFlag pteP (pa ||| perm ||| pteP) := by
  unfold HasFlag
  intro zero
  have bit := congrArg (fun word => word.getLsbD 0) zero
  simp [pteP] at bit

theorem pteAddr_entry (aligned : Aligned pa) (flags : IsFlags perm) :
    pteAddr (pa ||| perm ||| pteP) = pa := by
  have page : pa &&& ~~~0xFFF#32 = pa := Aligned.pgRoundDown aligned
  have low : perm &&& ~~~0xFFF#32 = 0 := flags
  unfold pteAddr pteP
  rw [BitVec.and_comm, BitVec.and_or_distrib_left, BitVec.and_or_distrib_left,
    BitVec.and_comm, page, BitVec.and_comm _ perm, low]
  show pa ||| 0 ||| (~~~0xFFF#32 &&& 1) = pa
  have last : ~~~0xFFF#32 &&& 1 = (0 : Word) := by decide
  rw [last]
  simp

theorem hasFlag_pteU_entry (aligned : Aligned pa) :
    HasFlag pteU (pa ||| perm ||| pteP) ↔ HasFlag pteU perm := by
  have low : pa &&& pteU = 0 := by
    have split : pteU = 0xFFF#32 &&& pteU := by decide
    rw [split, ← BitVec.and_assoc, aligned]
    simp
  have last : pteP &&& pteU = 0 := by decide
  unfold HasFlag
  rw [BitVec.and_comm, BitVec.and_or_distrib_left, BitVec.and_or_distrib_left,
    BitVec.and_comm _ pa, low, BitVec.and_comm _ pteP, last, BitVec.and_comm]
  simp

theorem pteFlags_isFlags : IsFlags (pteFlags pte) := by
  unfold IsFlags pteFlags
  rw [BitVec.and_assoc, show 0xFFF#32 &&& ~~~0xFFF#32 = 0 by decide]
  simp

end Readings

section Pages

variable {k : Image} {v : Word}

theorem Managed.bounds (managed : Managed k v) :
    v.toNat % 4096 = 0 ∧ 0x80100000 < v.toNat ∧ v.toNat < 0x8E000000 := by
  obtain ⟨aligned, low, high⟩ := managed
  rw [aligned_iff] at aligned
  have text := k.text
  have segment := k.segment
  unfold kernlink kernbase extmem at text
  unfold v2p kernbase physTop at high
  refine ⟨aligned, ?_, ?_⟩ <;> bv_omega

theorem Managed.ne_zero (managed : Managed k v) : v ≠ 0 := by
  have bounds := managed.bounds
  rintro rfl
  simp at bounds

end Pages

end Xv6
