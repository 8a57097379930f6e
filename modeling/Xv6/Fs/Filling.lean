import Xv6.Fs.Volume

/-!
# Giving a file its blocks

`bmap` and `iappend` make sure that a block of a file is there before they use it: a missing
block is taken from the free ones, and so is a missing indirect block. Whichever way is taken,
the file gains at most that block, zeroed, and no other file changes. A file whose first blocks
hold its bytes then grows by the blocks and by the bytes that are written behind the old ones.
-/

namespace Xv6.Volume

open Bytes (Byte getByte putBytes)
open Assignment (Exact)

variable {v v' : Volume} {i i' : Word} {s s' : AddrSlot} {b x : Word} {used : Word → Prop}
  {bn n : Nat} {bytes : List Byte}

structure Filled (v v' : Volume) (i : Word) (bn : Nat) : Prop where
  others : Others v v' i
  dinode : ∃ addrs, v'.dinode i = { v.dinode i with addrs := addrs }
  here : v'.addr i (dataSlot bn) ≠ 0
  elsewhere : ∀ bn', bn' < maxfile → bn' ≠ bn →
    v'.addr i (dataSlot bn') = v.addr i (dataSlot bn')
  kept : v.addr i (dataSlot bn) ≠ 0 → v'.addr i (dataSlot bn) = v.addr i (dataSlot bn)
  indirect : v'.addr i (.direct indirectIndex) ≠ 0 ↔
    v.addr i (.direct indirectIndex) ≠ 0 ∨ ndirect ≤ bn
  stays : v.addr i (.direct indirectIndex) ≠ 0 →
    v'.addr i (.direct indirectIndex) = v.addr i (.direct indirectIndex)
  block : ∀ bn', v.addr i (dataSlot bn') ≠ 0 →
    v'.block (v.addr i (dataSlot bn')) = v.block (v.addr i (dataSlot bn'))
  zero : v.addr i (dataSlot bn) = 0 → ∀ j, v'.block (v'.addr i (dataSlot bn)) j = 0

theorem dataSlot_indirect (high : ndirect ≤ bn) : ∃ j, dataSlot bn = .indirect j :=
  ⟨_, if_neg (by omega)⟩

theorem dataSlot_direct (low : bn < ndirect) : ∃ k, dataSlot bn = .direct k :=
  ⟨_, if_pos low⟩

theorem indirect_of_addr (high : ndirect ≤ bn) (mapped : v.addr i (dataSlot bn) ≠ 0) :
    v.addr i (.direct indirectIndex) ≠ 0 := by
  obtain ⟨j, slot⟩ := dataSlot_indirect high
  intro none
  apply mapped
  rw [slot]
  exact if_pos none

theorem Filled.refl (mapped : v.addr i (dataSlot bn) ≠ 0) : Filled v v i bn where
  others := Others.refl v i
  dinode := ⟨_, rfl⟩
  here := mapped
  elsewhere _ _ _ := rfl
  kept _ := rfl
  indirect := (or_iff_left_of_imp fun high => indirect_of_addr high mapped).symm
  stays _ := rfl
  block _ _ := rfl
  zero none := absurd none mapped

theorem ready_dataSlot (x : Word)
    (there : ndirect ≤ bn → v.addr i (.direct indirectIndex) ≠ 0) :
    v.Ready i (dataSlot bn) x where
  whole same := absurd same (dataSlot_ne bn)
  part j same := by
    refine there ?_
    by_contra low
    obtain ⟨k, slot⟩ := dataSlot_direct (show bn < ndirect by omega)
    rw [slot] at same
    cases same

theorem filled_setAddr (exact : Exact v.ref used) (live : v.Live i)
    (there : ndirect ≤ bn → v.addr i (.direct indirectIndex) ≠ 0) (low : bn < maxfile)
    (some : x ≠ 0) (fresh : ¬ used x) (zero : ∀ j, v.block x j = 0)
    (empty : v.addr i (dataSlot bn) = 0) : Filled v (v.setAddr i (dataSlot bn) x) i bn := by
  have ready := ready_dataSlot (v := v) (i := i) x there
  have place : (v.setAddr i (dataSlot bn) x).addr i (dataSlot bn) = x := by
    rw [addr_setAddr exact live ready live, if_pos rfl]
  have whole : (v.setAddr i (dataSlot bn) x).addr i (.direct indirectIndex) =
      v.addr i (.direct indirectIndex) := by
    rw [addr_setAddr exact live ready live, if_neg]
    exact fun same => dataSlot_ne bn (congrArg Prod.snd same).symm
  constructor
  case others => exact others_setAddr exact live ready
  case dinode => exact dinode_setAddr v i i _ x
  case here => rwa [place]
  case elsewhere =>
    intro bn' low' other
    rw [addr_setAddr exact live ready live, if_neg]
    exact fun same => other (dataSlot_inj low' low (congrArg Prod.snd same))
  case kept => exact fun mapped => absurd empty mapped
  case indirect =>
    rw [whole]
    exact (or_iff_left_of_imp there).symm
  case stays => exact fun _ => whole
  case block =>
    exact fun bn' mapped => block_setAddr x (addr_ne_of_data exact live mapped live)
  case zero =>
    intro _ j
    rw [place, block_setAddr x (addr_ne_of_unused exact fresh some live)]
    exact zero j

theorem ready_indirect (zero : ∀ j, v.block x j = 0)
    (none : v.addr i (.direct indirectIndex) = 0) : v.Ready i (.direct indirectIndex) x where
  whole _ := ⟨none, zero⟩
  part _ same := nomatch same

theorem Filled.of_indirect (exact : Exact v.ref used) (live : v.Live i)
    (zero : ∀ j, v.block x j = 0) (none : v.addr i (.direct indirectIndex) = 0)
    (high : ndirect ≤ bn) (filled : Filled (v.setAddr i (.direct indirectIndex) x) v' i bn) :
    Filled v v' i bn := by
  have ready := ready_indirect (i := i) zero none
  have data : ∀ bn', (v.setAddr i (.direct indirectIndex) x).addr i (dataSlot bn') =
      v.addr i (dataSlot bn') := by
    intro bn'
    rw [addr_setAddr exact live ready live, if_neg]
    exact fun same => dataSlot_ne bn' (congrArg Prod.snd same)
  constructor
  case others => exact (others_setAddr exact live ready).trans filled.others
  case dinode =>
    obtain ⟨addrs, first⟩ := dinode_setAddr v i i (.direct indirectIndex) x
    obtain ⟨addrs', second⟩ := filled.dinode
    exact ⟨addrs', by rw [second, first]⟩
  case here => exact filled.here
  case elsewhere =>
    intro bn' low other
    rw [filled.elsewhere bn' low other, data]
  case kept =>
    intro mapped
    rw [filled.kept (by rwa [data]), data]
  case indirect => exact iff_of_true (filled.indirect.mpr (.inr high)) (.inr high)
  case stays => exact fun there => absurd none there
  case block =>
    intro bn' mapped
    have later := filled.block bn' (by rwa [data])
    rw [data] at later
    exact later.trans rfl
  case zero =>
    intro empty
    exact filled.zero (by rwa [data])

def gain (v : Volume) (i : Word) (s : AddrSlot) (x : Word) : Volume :=
  (v.setBlock x fun _ => 0).setAddr i s x

section

variable (exact : Exact v.ref used)
include exact

section

variable (fresh : ¬ used x) (some : x ≠ 0) (data : Block)
include fresh some data

theorem exact_setUnused : Exact (v.setBlock x data).ref used := by
  rw [ref_setBlock data fun i live => addr_ne_of_unused exact fresh some live]
  exact exact

theorem addr_setUnused (live : v.Live i) : (v.setBlock x data).addr i s = v.addr i s :=
  addr_setBlock data (addr_ne_of_unused exact fresh some live)

theorem block_setUnused (live : v.Live i) :
    (v.setBlock x data).block (v.addr i s) = v.block (v.addr i s) :=
  Function.update_of_ne (addr_ne_of_unused exact fresh some live) _ _

theorem others_setUnused (i : Word) : Others v (v.setBlock x data) i where
  dinode _ := rfl
  addr _ _ live := addr_setUnused exact fresh some data live
  block _ _ live _ := block_setUnused exact fresh some data live

end

theorem Filled.of_setUnused (live : v.Live i) (fresh : ¬ used x) (some : x ≠ 0) {data : Block}
    (filled : Filled (v.setBlock x data) v' i bn) : Filled v v' i bn := by
  have same : ∀ s, (v.setBlock x data).addr i s = v.addr i s := fun _ =>
    addr_setUnused exact fresh some data live
  constructor
  case others => exact (others_setUnused exact fresh some data i).trans filled.others
  case dinode => exact filled.dinode
  case here => exact filled.here
  case elsewhere =>
    intro bn' low other
    rw [filled.elsewhere bn' low other, same]
  case kept =>
    intro mapped
    rw [filled.kept (by rwa [same]), same]
  case indirect => rw [filled.indirect, same]
  case stays =>
    intro there
    rw [filled.stays (by rwa [same]), same]
  case block =>
    intro bn' mapped
    have later := filled.block bn' (by rwa [same])
    rw [same] at later
    exact later.trans (block_setUnused exact fresh some data live)
  case zero => exact fun empty => filled.zero (by rwa [same])

end

theorem setBlock_zero (v : Volume) (x : Word) (j : Fin blockWords) :
    (v.setBlock x fun _ => 0).block x j = 0 := by
  show Function.update v.block x (fun _ => 0) x j = 0
  rw [Function.update_self]

section

variable (exact : Exact v.ref used) (live : v.Live i) (fresh : ¬ used x) (some : x ≠ 0)
include exact live fresh some

section

variable (empty : v.addr i s = 0)
  (part : ∀ j, s = .indirect j → v.addr i (.direct indirectIndex) ≠ 0)
include empty part

theorem exact_gain : Exact (v.gain i s x).ref fun b => b = x ∨ used b := by
  have same : ∀ s, (v.setBlock x fun _ => 0).addr i s = v.addr i s := fun _ =>
    addr_setUnused exact fresh some _ live
  refine exact_setAddr (exact_setUnused exact fresh some _) live ⟨fun _ => ?_, fun j slot => ?_⟩
    some (by rw [same, empty]) fresh
  · exact ⟨by rw [same, empty], setBlock_zero v x⟩
  · rw [same]
    exact part j slot

theorem others_gain : Others v (v.gain i s x) i := by
  have same : ∀ s, (v.setBlock x fun _ => 0).addr i s = v.addr i s := fun _ =>
    addr_setUnused exact fresh some _ live
  refine (others_setUnused exact fresh some _ i).trans
    (others_setAddr (exact_setUnused exact fresh some _) live ⟨fun _ => ?_, fun j slot => ?_⟩)
  · exact ⟨by rw [same, empty], setBlock_zero v x⟩
  · rw [same]
    exact part j slot

end

theorem filled_gain (low : bn < maxfile) (empty : v.addr i (dataSlot bn) = 0)
    (there : ndirect ≤ bn → v.addr i (.direct indirectIndex) ≠ 0) :
    Filled v (v.gain i (dataSlot bn) x) i bn := by
  have same : ∀ s, (v.setBlock x fun _ => 0).addr i s = v.addr i s := fun _ =>
    addr_setUnused exact fresh some _ live
  refine .of_setUnused exact live fresh some
    (filled_setAddr (exact_setUnused exact fresh some _) live (fun high => ?_) low some fresh
      (setBlock_zero v x) (by rw [same, empty]))
  rw [same]
  exact there high

theorem Filled.of_gain (none : v.addr i (.direct indirectIndex) = 0) (high : ndirect ≤ bn)
    (filled : Filled (v.gain i (.direct indirectIndex) x) v' i bn) : Filled v v' i bn := by
  refine .of_setUnused exact live fresh some
    (.of_indirect (exact_setUnused exact fresh some _) live (setBlock_zero v x) ?_ high filled)
  rw [addr_setUnused exact fresh some _ live, none]

end

theorem Filled.live (filled : Filled v v' i bn) : v'.Live i' ↔ v.Live i' := by
  by_cases self : i' = i
  · obtain ⟨addrs, same⟩ := filled.dinode
    rw [self, Live, Live, same]
  · exact filled.others.live self

variable {off : Nat}

theorem Filled.byte (filled : Filled v v' i bn) (inside : off < maxfile * bsize)
    (mapped : v.addr i (dataSlot (off / bsize)) ≠ 0) : v'.byte i off = v.byte i off := by
  have low : off / bsize < maxfile := Nat.div_lt_of_lt_mul (by rw [Nat.mul_comm]; exact inside)
  refine byte_congr ?_ (filled.block _ mapped)
  by_cases same : off / bsize = bn
  · rw [same] at mapped ⊢
    exact filled.kept mapped
  · exact filled.elsewhere _ low same

theorem Filled.byte_zero (filled : Filled v v' i bn) (inside : off / bsize = bn)
    (empty : v.addr i (dataSlot bn) = 0) : v'.byte i off = 0 := by
  unfold Volume.byte
  rw [inside]
  have zero : v'.block (v'.addr i (dataSlot bn)) = fun _ => 0 := funext (filled.zero empty)
  rw [zero, getByte]
  split
  · simp [Bytes.byteOf]
  · rfl

theorem Filled.holds (filled : Filled v v' i bn) (inside : bn < n) (fits : n ≤ maxfile)
    (holds : v.Holds i n bytes) : v'.Holds i n bytes := by
  have mapped := (holds.mapped.data bn (by omega)).mpr inside
  constructor
  case mapped =>
    constructor
    · intro bn' low
      by_cases same : bn' = bn
      · rw [same, filled.kept mapped, holds.mapped.data bn (by omega)]
      · rw [filled.elsewhere bn' low same, holds.mapped.data bn' low]
    · rw [filled.indirect, holds.mapped.indirect]
      omega
  case bytes =>
    intro off bound
    have block : off / bsize < n := Nat.div_lt_of_lt_mul (by rw [Nat.mul_comm]; exact bound)
    rw [filled.byte (lt_of_lt_of_le bound (Nat.mul_le_mul_right _ fits))
      ((holds.mapped.data _ (by omega)).mpr block), holds.bytes off bound]

theorem Filled.grow (filled : Filled v v' i n) (fits : n < maxfile) (holds : v.Holds i n bytes)
    (short : bytes.length ≤ n * bsize) : v'.Holds i (n + 1) bytes := by
  have empty : v.addr i (dataSlot n) = 0 := by
    by_contra mapped
    exact Nat.lt_irrefl n ((holds.mapped.data n fits).mp mapped)
  constructor
  case mapped =>
    constructor
    · intro bn' low
      by_cases same : bn' = n
      · rw [same]
        exact ⟨fun _ => Nat.lt_succ_self n, fun _ => filled.here⟩
      · rw [filled.elsewhere bn' low same, holds.mapped.data bn' low]
        omega
    · rw [filled.indirect, holds.mapped.indirect]
      omega
  case bytes =>
    intro off bound
    have block : off / bsize < n + 1 := Nat.div_lt_of_lt_mul (by rw [Nat.mul_comm]; exact bound)
    have whole : off < maxfile * bsize := lt_of_lt_of_le bound (Nat.mul_le_mul_right _ fits)
    by_cases new : off / bsize = n
    · have past : bytes.length ≤ off := by
        have lower := Nat.div_mul_le_self off bsize
        rw [new] at lower
        omega
      rw [filled.byte_zero new empty, List.getD_eq_getElem?_getD, List.getElem?_eq_none past]
      rfl
    · have old : off / bsize < n := by omega
      have inside : off < n * bsize := (Nat.div_lt_iff_lt_mul (by decide)).mp old
      rw [filled.byte whole ((holds.mapped.data _ (by omega)).mpr old), holds.bytes off inside]

variable {chunk : List Byte}

theorem byte_write (exact : Exact v.ref used) (live : v.Live i)
    (mapped : v.addr i (dataSlot (off / bsize)) ≠ 0) (low : off / bsize < maxfile)
    (fits : off % bsize + chunk.length ≤ bsize) {o : Nat} (inside : o < maxfile * bsize)
    (mapped' : v.addr i (dataSlot (o / bsize)) ≠ 0) :
    (v.setBlock (v.addr i (dataSlot (off / bsize)))
      (putBytes (v.block (v.addr i (dataSlot (off / bsize)))) (off % bsize) chunk)).byte i o =
        if off ≤ o then chunk.getD (o - off) (v.byte i o) else v.byte i o := by
  have split : bsize * (off / bsize) + off % bsize = off := Nat.div_add_mod off bsize
  have split' : bsize * (o / bsize) + o % bsize = o := Nat.div_add_mod o bsize
  have small : o % bsize < bsize := Nat.mod_lt _ (by decide)
  rw [byte_setBlock exact live mapped low _ live inside mapped']
  by_cases same : o / bsize = off / bsize
  · rw [if_pos ⟨rfl, same⟩, Bytes.getByte_putBytes _ _ _ (show _ < 4 * blockWords from small)]
    have byte : getByte (v.block (v.addr i (dataSlot (off / bsize)))) (o % bsize) = v.byte i o := by
      rw [Volume.byte, same]
    rw [byte]
    rw [same] at split'
    by_cases behind : off ≤ o
    · rw [if_pos (by omega), if_pos behind]
      congr 1
      omega
    · rw [if_neg (by omega), if_neg behind]
  · rw [if_neg fun both => same both.2]
    by_cases behind : off ≤ o
    · have later : off / bsize + 1 ≤ o / bsize := by
        have order := Nat.div_le_div_right (c := bsize) behind
        omega
      have far := Nat.mul_le_mul_left bsize later
      rw [Nat.mul_add, Nat.mul_one] at far
      rw [if_pos behind, List.getD_eq_getElem?_getD, List.getElem?_eq_none (by omega)]
      rfl
    · rw [if_neg behind]

theorem Holds.write (holds : v.Holds i n bytes) (exact : Exact v.ref used) (live : v.Live i)
    (fits : n ≤ maxfile) (room : bytes.length / bsize < n)
    (inside : bytes.length % bsize + chunk.length ≤ bsize) :
    (v.setBlock (v.addr i (dataSlot (bytes.length / bsize)))
      (putBytes (v.block (v.addr i (dataSlot (bytes.length / bsize)))) (bytes.length % bsize)
        chunk)).Holds i n (bytes ++ chunk) := by
  have low : bytes.length / bsize < maxfile := by omega
  have mapped := (holds.mapped.data _ low).mpr room
  constructor
  case mapped =>
    exact holds.mapped.congr fun s => addr_setBlock _ (addr_ne_of_data exact live mapped live)
  case bytes =>
    intro off bound
    have block : off / bsize < n := Nat.div_lt_of_lt_mul (by rw [Nat.mul_comm]; exact bound)
    have whole : off < maxfile * bsize := lt_of_lt_of_le bound (Nat.mul_le_mul_right _ fits)
    have mapped' := (holds.mapped.data (off / bsize) (by omega)).mpr block
    rw [byte_write exact live mapped low inside whole mapped', holds.bytes off bound]
    by_cases behind : bytes.length ≤ off
    · rw [if_pos behind]
      simp only [List.getD_eq_getElem?_getD]
      rw [List.getElem?_append_right behind, List.getElem?_eq_none behind]
      rfl
    · simp only [List.getD_eq_getElem?_getD]
      rw [if_neg behind, List.getElem?_append_left (by omega)]

theorem Filled.datum (filled : Filled v v' i bn) {o : Nat} (inside : o < maxfile * bsize) :
    v'.datum i o = v.datum i o := by
  have low : o / bsize < maxfile := Nat.div_lt_of_lt_mul (by rw [Nat.mul_comm]; exact inside)
  rw [Volume.datum, Volume.datum]
  by_cases mapped : v.addr i (dataSlot (o / bsize)) = 0
  · rw [if_pos mapped]
    by_cases same : o / bsize = bn
    · split
      · rfl
      · exact filled.byte_zero same (same ▸ mapped)
    · rw [filled.elsewhere _ low same, if_pos mapped]
  · have there : v'.addr i (dataSlot (o / bsize)) ≠ 0 := by
      by_cases same : o / bsize = bn
      · rw [same]
        exact filled.here
      · rw [filled.elsewhere _ low same]
        exact mapped
    rw [if_neg mapped, if_neg there, filled.byte inside mapped]

theorem datum_write (exact : Exact v.ref used) (live : v.Live i)
    (mapped : v.addr i (dataSlot (off / bsize)) ≠ 0) (low : off / bsize < maxfile)
    (fits : off % bsize + chunk.length ≤ bsize) {o : Nat} (inside : o < maxfile * bsize) :
    (v.setBlock (v.addr i (dataSlot (off / bsize)))
      (putBytes (v.block (v.addr i (dataSlot (off / bsize)))) (off % bsize) chunk)).datum i o =
        if off ≤ o then chunk.getD (o - off) (v.datum i o) else v.datum i o := by
  have addr : (v.setBlock (v.addr i (dataSlot (off / bsize)))
      (putBytes (v.block (v.addr i (dataSlot (off / bsize)))) (off % bsize) chunk)).addr i
        (dataSlot (o / bsize)) = v.addr i (dataSlot (o / bsize)) :=
    addr_setBlock _ (addr_ne_of_data exact live mapped live)
  rw [Volume.datum, addr, Volume.datum]
  by_cases hole : v.addr i (dataSlot (o / bsize)) = 0
  · rw [if_pos hole, if_pos hole]
    have other : o / bsize ≠ off / bsize := by
      intro same
      rw [same] at hole
      exact mapped hole
    split
    · rename_i behind
      -- the block of `o` is a later one than that of the write
      have later : off / bsize + 1 ≤ o / bsize := by
        have order := Nat.div_le_div_right (c := bsize) behind
        omega
      have far := Nat.mul_le_mul_left bsize later
      have split := Nat.div_add_mod off bsize
      have split' := Nat.div_add_mod o bsize
      rw [Nat.mul_add, Nat.mul_one] at far
      rw [List.getD_eq_getElem?_getD, List.getElem?_eq_none (by omega)]
      rfl
    · rfl
  · rw [if_neg hole, if_neg hole]
    exact byte_write exact live mapped low fits inside hole

def Span (off length bn : Nat) : Prop :=
  0 < length ∧ off / bsize ≤ bn ∧ bn * bsize < off + length

/-- The second volume is the first with bytes written to a file, whose size stays. -/
structure Written (v v' : Volume) (i : Word) (off : Nat) (bytes : List Byte) : Prop where
  others : Others v v' i
  dinode : ∃ addrs, v'.dinode i = { v.dinode i with addrs := addrs }
  kept : ∀ bn, bn < maxfile → v.addr i (dataSlot bn) ≠ 0 →
    v'.addr i (dataSlot bn) = v.addr i (dataSlot bn)
  here : ∀ bn, Span off bytes.length bn → v'.addr i (dataSlot bn) ≠ 0
  elsewhere : ∀ bn, bn < maxfile → ¬ Span off bytes.length bn →
    v'.addr i (dataSlot bn) = v.addr i (dataSlot bn)
  indirect : v.addr i (.direct indirectIndex) ≠ 0 →
    v'.addr i (.direct indirectIndex) = v.addr i (.direct indirectIndex)
  datum : ∀ o, o < maxfile * bsize → v'.datum i o =
    if off ≤ o then bytes.getD (o - off) (v.datum i o) else v.datum i o

theorem Written.nil (v : Volume) (i : Word) (off : Nat) : Written v v i off [] where
  others := .refl v i
  dinode := ⟨_, rfl⟩
  kept _ _ _ := rfl
  here _ span := absurd span.1 (Nat.lt_irrefl 0)
  elsewhere _ _ _ := rfl
  indirect _ := rfl
  datum o _ := by
    rw [List.getD_nil]
    split <;> rfl

theorem span_split {off m length : Nat} (positive : 0 < m) (fits : off % bsize + m ≤ bsize)
    (whole : length = 0 ∨ off % bsize + m = bsize) {k : Nat} :
    Span off (m + length) k ↔ k = off / bsize ∨ Span (off + m) length k := by
  have fits' : off % 512 + m ≤ 512 := fits
  have whole' : length = 0 ∨ off % 512 + m = 512 := whole
  show (0 < m + length ∧ off / 512 ≤ k ∧ k * 512 < off + (m + length)) ↔
    k = off / 512 ∨ 0 < length ∧ (off + m) / 512 ≤ k ∧ k * 512 < off + m + length
  constructor
  · rintro ⟨-, low, high⟩
    by_cases first : k = off / 512
    · exact .inl first
    · rcases whole' with none | full
      · omega
      · exact .inr ⟨by omega, by omega, by omega⟩
  · rintro (rfl | ⟨more, low, high⟩)
    · exact ⟨by omega, Nat.le_refl _, by omega⟩
    · exact ⟨by omega, by omega, by omega⟩

theorem Written.round {v₁ : Volume} {chunk rest : List Byte} (filled : Filled v v₁ i (off / bsize))
    (exact : Exact v₁.ref used) (live : v₁.Live i) (low : off / bsize < maxfile)
    (some : 0 < chunk.length) (fits : off % bsize + chunk.length ≤ bsize)
    (whole : rest.length = 0 ∨ off % bsize + chunk.length = bsize)
    (written : Written (v₁.setBlock (v₁.addr i (dataSlot (off / bsize)))
      (putBytes (v₁.block (v₁.addr i (dataSlot (off / bsize)))) (off % bsize) chunk)) v' i
        (off + chunk.length) rest) : Written v v' i off (chunk ++ rest) := by
  have mapped := filled.here
  have same : ∀ s, (v₁.setBlock (v₁.addr i (dataSlot (off / bsize)))
      (putBytes (v₁.block (v₁.addr i (dataSlot (off / bsize)))) (off % bsize) chunk)).addr i s =
        v₁.addr i s := fun _ => addr_setBlock _ (addr_ne_of_data exact live mapped live)
  have span : ∀ {k}, Span off (chunk ++ rest).length k ↔
      k = off / bsize ∨ Span (off + chunk.length) rest.length k := by
    intro k
    rw [List.length_append]
    exact span_split some fits whole
  have first : ∀ bn, bn < maxfile → v₁.addr i (dataSlot bn) ≠ 0 →
      v'.addr i (dataSlot bn) = v₁.addr i (dataSlot bn) := by
    intro bn small there
    rw [written.kept bn small (by rwa [same]), same]
  constructor
  case others =>
    exact (filled.others.trans (others_setBlock exact live mapped _)).trans written.others
  case dinode =>
    obtain ⟨addrs, filled'⟩ := filled.dinode
    obtain ⟨addrs', written'⟩ := written.dinode
    have block : ∀ b data, (v₁.setBlock b data).dinode i = v₁.dinode i := fun _ _ => rfl
    exact ⟨addrs', by rw [written', block, filled']⟩
  case kept =>
    intro bn small there
    by_cases here : bn = off / bsize
    · subst here
      rw [first _ small mapped, filled.kept there]
    · have before := filled.elsewhere bn small here
      rw [first bn small (by rwa [before]), before]
  case here =>
    intro bn inside
    rcases span.mp inside with rfl | later
    · rw [first _ low mapped]
      exact mapped
    · exact written.here bn later
  case elsewhere =>
    intro bn small outside
    obtain ⟨differ, apart⟩ := not_or.mp fun either => outside (span.mpr either)
    rw [written.elsewhere bn small apart, same, filled.elsewhere bn small differ]
  case indirect =>
    intro there
    have before := filled.stays there
    rw [written.indirect (by rwa [same, before]), same, before]
  case datum =>
    intro o inside
    rw [written.datum o inside, datum_write exact live mapped low fits inside, filled.datum inside]
    by_cases behind : off ≤ o
    · rw [if_pos behind, if_pos behind]
      simp only [List.getD_eq_getElem?_getD]
      by_cases past : off + chunk.length ≤ o
      · rw [if_pos past, List.getElem?_append_right (by omega),
          List.getElem?_eq_none (l := chunk) (by omega), Nat.sub_sub]
        rfl
      · rw [if_neg past, List.getElem?_append_left (by omega)]
    · rw [if_neg (by omega), if_neg behind, if_neg behind]

end Xv6.Volume
