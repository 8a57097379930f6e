import Mathlib.Data.Finset.Card
import Xv6.Fs.View

/-!
# The allocator of blocks

`balloc` and `bfree` on the bitmap. The blocks in use are the blocks of data whose bits are set; the
bits of all other blocks of the file system are set for good. With every reference to a block in
use and every block in use referred to once, `balloc` returns a block that nothing refers to.

What is written goes to the log. `log_write` panics when the header of the log is full, so the
blocks that a function may have logged are kept track of.
-/

namespace Xv6

open BitVec (ofNat toNat_ofNat)
open Assignment (Exact)
open Program

theorem Superblock.Valid.bblock_toNat {sb : Superblock} (valid : sb.Valid) {b : BlockNo}
    (inside : b.toNat < sb.size.toNat) :
    (bblock sb b).toNat = b.toNat / 4096 + sb.bmapstart.toNat ∧
      (bblock sb b).toNat < sb.dataStart := by
  have small := valid.small
  have data := valid.data
  have start : sb.dataStart = sb.bmapstart.toNat + sb.size.toNat / 4096 + 1 := rfl
  have value : (bblock sb b).toNat = (b.toNat / 4096 + sb.bmapstart.toNat) % 2 ^ 32 := by
    rw [bblock, BitVec.toNat_add, BitVec.toNat_udiv]
    rfl
  rw [value, Nat.mod_eq_of_lt (by omega)]
  exact ⟨rfl, by omega⟩

namespace Fs

variable {fs fs' : Fs} {ip : InodePtr} {i : Word} {b b' : BlockNo} {data : Block}
  {fault : Fault → Prop}

def bit (fs : Fs) (b : BlockNo) : Bool := bitSet (fs.disk (bblock fs.sb b)) (b.toNat % bpb)

def Used (fs : Fs) (b : BlockNo) : Prop :=
  fs.sb.dataStart ≤ b.toNat ∧ b.toNat < fs.sb.size.toNat ∧ fs.bit b = true

def free (fs : Fs) : Nat :=
  ((Finset.range fs.sb.size.toNat).filter fun n => fs.bit (BitVec.ofNat 32 n) = false).card

/-- The blocks referred to are the blocks of data in use, each once, and no other block is free. -/
structure Blocks (fs : Fs) : Prop where
  reserved : ∀ b : BlockNo, b.toNat < fs.sb.dataStart → fs.bit b = true
  exact : Exact fs.view.ref fs.Used

def take (fs : Fs) (b : BlockNo) : Fs :=
  (fs.write (bblock fs.sb b) (setBit (fs.disk (bblock fs.sb b)) (b.toNat % bpb))).write b
    fun _ => 0

def Bitmap (fs : Fs) (b : BlockNo) : Prop :=
  fs.sb.bmapstart.toNat ≤ b.toNat ∧ b.toNat < fs.sb.dataStart

/-- What was logged since an earlier state, in a number of calls: blocks of the bitmap and blocks of
a list. -/
structure Logs (fs fs' : Fs) (others : List BlockNo) (calls : Nat) : Prop where
  sb : fs'.sb = fs.sb
  outstanding : fs'.outstanding = fs.outstanding
  kinds : ∀ b ∈ fs'.logged, b ∈ fs.logged ∨ fs.Bitmap b ∨ b ∈ others
  length : fs'.logged.length ≤ fs.logged.length + calls
  nodup : fs.logged.Nodup → fs'.logged.Nodup

namespace Logs

variable {fs'' : Fs} {others others' : List BlockNo} {calls calls' : Nat}

theorem refl (fs : Fs) (others : List BlockNo) (calls : Nat) : Logs fs fs others calls :=
  ⟨rfl, rfl, fun _ => .inl, Nat.le_add_right .., id⟩

theorem mono (logs : Logs fs fs' others calls) (sub : others ⊆ others') (le : calls ≤ calls') :
    Logs fs fs' others' calls' :=
  { logs with
    kinds := fun b member => (logs.kinds b member).imp_right (.imp_right (@sub b))
    length := logs.length.trans (Nat.add_le_add_left le _) }

theorem write (logs : Logs fs fs' others calls) (kind : fs.Bitmap b ∨ b ∈ others) (data : Block) :
    Logs fs (fs'.write b data) others (calls + 1) where
  sb := logs.sb
  outstanding := logs.outstanding
  kinds b' member := by
    rcases List.mem_insert_iff.mp member with same | old
    · exact .inr (same ▸ kind)
    · exact logs.kinds b' old
  length := by
    have before := logs.length
    show (fs'.logged.insert b).length ≤ _
    rw [List.length_insert]
    split <;> omega
  nodup before := (logs.nodup before).insert

theorem trans (first : Logs fs fs' others calls) (second : Logs fs' fs'' others' calls') :
    Logs fs fs'' (others ++ others') (calls + calls') where
  sb := second.sb.trans first.sb
  outstanding := second.outstanding.trans first.outstanding
  kinds b member := by
    rcases second.kinds b member with old | bitmap | new
    · exact (first.kinds b old).imp_right (.imp_right (List.mem_append_left _))
    · rw [Bitmap, first.sb] at bitmap
      exact .inr (.inl bitmap)
    · exact .inr (.inr (List.mem_append_right _ new))
  length := by
    have one := first.length
    have two := second.length
    omega
  nodup before := second.nodup (first.nodup before)

theorem length_le (logs : Logs fs fs' others calls) (before : fs.logged.Nodup) :
    fs'.logged.length ≤ fs.logged.length + (fs.sb.size.toNat / bpb + 1) + others.length := by
  have all : fs'.logged ⊆ fs.logged ++ (List.range (fs.sb.size.toNat / bpb + 1)).map
      (fun k => ofNat 32 (fs.sb.bmapstart.toNat + k)) ++ others := by
    intro b member
    rcases logs.kinds b member with old | ⟨start, stop⟩ | new
    · exact List.mem_append_left _ (List.mem_append_left _ old)
    · refine List.mem_append_left _ (List.mem_append_right _ (List.mem_map.mpr
        ⟨b.toNat - fs.sb.bmapstart.toNat, List.mem_range.mpr ?_, ?_⟩))
      · rw [Superblock.dataStart] at stop
        omega
      · rw [Nat.add_sub_cancel' start, BitVec.ofNat_toNat, BitVec.setWidth_eq]
    · exact List.mem_append_right _ new
  have length := ((logs.nodup before).subperm all).length_le
  rw [List.length_append, List.length_append, List.length_map, List.length_range] at length
  exact length

end Logs

def HasRoom (fs : Fs) (n : Nat) : Prop :=
  fs.logged.length + n < logSize ∧ (fs.logged.length + n : Int) < fs.sb.nlog.toInt - 1

theorem HasRoom.not_full {others : List BlockNo} {n : Nat} (room : fs.HasRoom n)
    (logs : Logs fs fs' others n) : ¬ fs'.LogFull := by
  obtain ⟨header, region⟩ := room
  have length := logs.length
  rw [LogFull, logs.sb]
  omega

theorem bit_write (apart : bblock fs.sb b' ≠ b) : (fs.write b data).bit b' = fs.bit b' := by
  show bitSet (Function.update fs.disk b data (bblock fs.sb b')) _ = _
  rw [Function.update_of_ne apart]
  rfl

section

variable (wf : fs.Wf)
include wf

theorem Wf.bit_write_data (start : fs.sb.dataStart ≤ b.toNat)
    (inside : b'.toNat < fs.sb.size.toNat) :
    (fs.write b data).bit b' = fs.bit b' := by
  refine bit_write fun same => ?_
  have before := (wf.valid.bblock_toNat inside).2
  rw [same] at before
  omega

theorem Wf.free_write_data (start : fs.sb.dataStart ≤ b.toNat) :
    (fs.write b data).free = fs.free := by
  rw [free, free]
  congr 1
  refine Finset.filter_congr fun n low => ?_
  have inside : n < fs.sb.size.toNat := Finset.mem_range.mp low
  have small : (ofNat 32 n).toNat < fs.sb.size.toNat := by
    rw [toNat_ofNat, Nat.mod_eq_of_lt (inside.trans fs.sb.size.isLt)]
    exact inside
  rw [wf.bit_write_data start small]

theorem Wf.bit_inj (inside : b.toNat < fs.sb.size.toNat) (inside' : b'.toNat < fs.sb.size.toNat)
    (block : bblock fs.sb b' = bblock fs.sb b) (place : b'.toNat % bpb = b.toNat % bpb) :
    b' = b := by
  have first := (wf.valid.bblock_toNat inside).1
  have second := (wf.valid.bblock_toNat inside').1
  have place' : b'.toNat % 4096 = b.toNat % 4096 := place
  rw [block, first] at second
  apply BitVec.eq_of_toNat_eq
  omega

theorem Wf.bit_take (start : fs.sb.dataStart ≤ b.toNat) (inside : b.toNat < fs.sb.size.toNat)
    (inside' : b'.toNat < fs.sb.size.toNat) :
    (fs.take b).bit b' = (decide (b' = b) || fs.bit b') := by
  have bitmap := (wf.valid.bblock_toNat inside).2
  have apart : bblock fs.sb b' ≠ b := by
    intro same
    have before := (wf.valid.bblock_toNat inside').2
    rw [same] at before
    omega
  have zeroed : (fs.take b).bit b' = (fs.write (bblock fs.sb b)
      (setBit (fs.disk (bblock fs.sb b)) (b.toNat % bpb))).bit b' := bit_write apart
  rw [zeroed]
  by_cases block : bblock fs.sb b' = bblock fs.sb b
  · have read : (fs.write (bblock fs.sb b) (setBit (fs.disk (bblock fs.sb b)) (b.toNat % bpb))).bit
        b' = bitSet (setBit (fs.disk (bblock fs.sb b)) (b.toNat % bpb)) (b'.toNat % bpb) := by
      show bitSet (Function.update fs.disk _ _ (bblock fs.sb b')) _ = _
      rw [block, Function.update_self]
    rw [read, bitSet_setBit _ _ (Nat.mod_lt _ (by decide)), bit, block]
    congr 1
    refine decide_eq_decide.mpr ⟨wf.bit_inj inside inside' block, ?_⟩
    rintro rfl
    rfl
  · have differ : b' ≠ b := by
      rintro rfl
      exact block rfl
    rw [bit_write block, decide_eq_false differ, Bool.false_or]

theorem Wf.bblock_later (inside : b.toNat < fs.sb.size.toNat) :
    1 < (bblock fs.sb b).toNat ∧ fs.sb.bmapstart.toNat ≤ (bblock fs.sb b).toNat := by
  obtain ⟨value, -⟩ := wf.valid.bblock_toNat inside
  have inodes := wf.valid.inodes
  have bitmap : fs.sb.inodestart.toNat + fs.sb.ninodes.toNat / 8 < fs.sb.bmapstart.toNat :=
    wf.valid.bitmap
  exact ⟨by omega, by omega⟩

section

variable (start : fs.sb.dataStart ≤ b.toNat)
include start

theorem Wf.data_later : 1 < b.toNat := by
  have inodes := wf.valid.inodes
  have bitmap : fs.sb.inodestart.toNat + fs.sb.ninodes.toNat / 8 < fs.sb.bmapstart.toNat :=
    wf.valid.bitmap
  have before := fs.sb.bmapstart_lt
  omega

section

variable (inside : b.toNat < fs.sb.size.toNat)
include inside

theorem Wf.take : (fs.take b).Wf :=
  (wf.write (wf.bblock_later inside).1 _).write (wf.data_later start) _

theorem Wf.view_take : (fs.take b).view = fs.view.setBlock b fun _ => 0 := by
  obtain ⟨later, after⟩ := wf.bblock_later inside
  rw [Fs.take, (wf.write later _).view_write start,
    wf.view_write_bitmap after (wf.valid.bblock_toNat inside).2]

theorem Wf.used_take : (fs.take b).Used b' ↔ b' = b ∨ fs.Used b' := by
  constructor
  · rintro ⟨data, below, set⟩
    rw [wf.bit_take start inside below, Bool.or_eq_true, decide_eq_true_eq] at set
    exact set.imp id fun old => ⟨data, below, old⟩
  · rintro (rfl | ⟨data, below, set⟩)
    · exact ⟨start, inside, by rw [wf.bit_take start inside inside]; simp⟩
    · exact ⟨data, below, by rw [wf.bit_take start inside below, set, Bool.or_true]⟩

theorem Wf.free_take (clear : fs.bit b = false) : fs.free = (fs.take b).free + 1 := by
  have name : ofNat 32 b.toNat = b := by rw [BitVec.ofNat_toNat, BitVec.setWidth_eq]
  have member : b.toNat ∈ (Finset.range fs.sb.size.toNat).filter
      fun n => fs.bit (ofNat 32 n) = false := by
    rw [Finset.mem_filter, Finset.mem_range, name]
    exact ⟨inside, clear⟩
  have rest : (Finset.range fs.sb.size.toNat).filter
      (fun n => (fs.take b).bit (ofNat 32 n) = false) =
        ((Finset.range fs.sb.size.toNat).filter
          fun n => fs.bit (ofNat 32 n) = false).erase b.toNat := by
    ext n
    simp only [Finset.mem_filter, Finset.mem_range, Finset.mem_erase]
    have small := wf.valid.small
    by_cases below : n < fs.sb.size.toNat
    · have value : (ofNat 32 n).toNat = n := by
        rw [toNat_ofNat]
        omega
      have same : ofNat 32 n = b ↔ n = b.toNat := by
        rw [← BitVec.toNat_inj, value]
      rw [wf.bit_take start inside (by rw [value]; exact below), Bool.or_eq_false_iff,
        decide_eq_false_iff_not, same]
      exact ⟨fun both => ⟨both.2.1, both.1, both.2.2⟩, fun both => ⟨both.2.1, both.1, both.2.2⟩⟩
    · exact ⟨fun both => absurd both.1 below, fun both => absurd both.2.1 below⟩
  show _ = ((Finset.range fs.sb.size.toNat).filter
    fun n => (fs.take b).bit (ofNat 32 n) = false).card + 1
  rw [rest, Finset.card_erase_add_one member]
  rfl

end

end

end

theorem freeBit_some {limit bi : Nat} (found : freeBit data limit = some bi) :
    bi < limit ∧ bitSet data bi = false := by
  have holds := List.find?_some found
  have member := List.mem_of_find?_eq_some found
  exact ⟨List.mem_range.mp member, by simpa using holds⟩

theorem freeBit_none {limit bi : Nat} (none : freeBit data limit = none) (inside : bi < limit) :
    bitSet data bi = true := by
  have holds := List.find?_eq_none.mp none bi (List.mem_range.mpr inside)
  simpa using holds

variable {post : BlockNo → Fs → Prop}

theorem Wf.wp_ballocLoop (wf : fs.Wf) (fuel n : Nat) (aligned : n % 4096 = 0)
    (enough : fs.sb.size.toNat < n + fuel)
    (before : ∀ b : BlockNo, b.toNat < n → b.toNat < fs.sb.size.toNat → fs.bit b = true)
    (running : 0 < fs.outstanding)
    (big : ∀ fs', Logs fs fs' [] 1 → fs'.LogFull → fault (.panic "too big a transaction"))
    (full : (∀ b : BlockNo, b.toNat < fs.sb.size.toNat → fs.bit b = true) →
      fault (.panic "balloc: out of blocks"))
    (taken : ∀ b : BlockNo, b.toNat < fs.sb.size.toNat → fs.bit b = false →
      post b (fs.take b)) : Wp (ballocLoop fuel n) post fault fs := by
  have small := wf.valid.small
  induction fuel generalizing n with
  | zero => exact full fun b inside => before b (by omega) inside
  | succ fuel ih =>
    rw [ballocLoop, wp_bind, wp_get]
    by_cases more : n < fs.sb.size.toNat
    · have number : (ofNat 32 n).toNat = n := by
        rw [toNat_ofNat]
        omega
      -- the bits of the blocks from `n` on are in the block of the bitmap that is read
      have place : ∀ bi, bi < 4096 → ∀ b : BlockNo, b.toNat = n + bi →
          b.toNat < fs.sb.size.toNat →
          bblock fs.sb (ofNat 32 n) = bblock fs.sb b ∧ b.toNat % bpb = bi := by
        intro bi low b value inside
        have first := (wf.valid.bblock_toNat (b := ofNat 32 n) (by omega)).1
        have second := (wf.valid.bblock_toNat inside).1
        refine ⟨BitVec.eq_of_toNat_eq ?_, show b.toNat % 4096 = bi by omega⟩
        rw [first, second, number]
        omega
      rw [if_pos more]
      simp only [wp_bind, wp_bread]
      split
      · rename_i bi found
        obtain ⟨inside, clear⟩ := freeBit_some found
        have inside' : bi < min 4096 (fs.sb.size.toNat - n) := inside
        have value : (ofNat 32 (n + bi)).toNat = n + bi := by
          rw [toNat_ofNat]
          omega
        obtain ⟨block, rest⟩ := place bi (by omega) (ofNat 32 (n + bi)) value (by omega)
        rw [block] at clear ⊢
        have result : fs.take (ofNat 32 (n + bi)) =
            (fs.write (bblock fs.sb (ofNat 32 (n + bi)))
              (setBit (fs.disk (bblock fs.sb (ofNat 32 (n + bi)))) bi)).write
                (ofNat 32 (n + bi)) fun _ => 0 := by
          rw [Fs.take, rest]
        have bitmap : fs.Bitmap (bblock fs.sb (ofNat 32 (n + bi))) :=
          ⟨(wf.bblock_later (by omega)).2, (wf.valid.bblock_toNat (by omega)).2⟩
        rw [wp_bind]
        refine wp_logWrite running (big fs (.refl fs [] 1)) ?_
        rw [wp_bind, bzero]
        refine wp_logWrite running (big _ ((Logs.refl fs [] 0).write (.inl bitmap) _)) ?_
        rw [wp_pure, ← result]
        refine taken _ (by omega) ?_
        rw [bit, rest]
        exact clear
      · rename_i none
        refine ih (n + 4096) (by omega) (by omega) fun b low inside => ?_
        by_cases old : b.toNat < n
        · exact before b old inside
        · obtain ⟨block, rest⟩ := place (b.toNat - n) (by omega) b (by omega) inside
          rw [bit, ← block, rest]
          exact freeBit_none none (show _ < min 4096 _ by omega)
    · rw [if_neg more]
      exact full fun b inside => before b (by omega) inside

theorem Wf.wp_balloc (wf : fs.Wf)
    (reserved : ∀ b : BlockNo, b.toNat < fs.sb.dataStart → fs.bit b = true)
    (running : 0 < fs.outstanding)
    (big : ∀ fs', Logs fs fs' [] 1 → fs'.LogFull → fault (.panic "too big a transaction"))
    (full : fs.free = 0 → fault (.panic "balloc: out of blocks"))
    (taken : ∀ b : BlockNo, fs.sb.dataStart ≤ b.toNat → b.toNat < fs.sb.size.toNat →
      fs.bit b = false → post b (fs.take b)) : Wp balloc post fault fs := by
  rw [balloc, wp_bind, wp_get]
  refine wf.wp_ballocLoop _ 0 rfl (by omega) (fun b low => absurd low (Nat.not_lt_zero _)) running
    big (fun all => full ?_) fun b inside clear => taken b ?_ inside clear
  · rw [free, Finset.card_eq_zero, Finset.filter_eq_empty_iff]
    intro n member
    have small := wf.valid.small
    have below := Finset.mem_range.mp member
    rw [all _ (by rw [toNat_ofNat]; omega)]
    decide
  · by_contra before
    rw [reserved b (by omega)] at clear
    cases clear

end Fs

end Xv6
