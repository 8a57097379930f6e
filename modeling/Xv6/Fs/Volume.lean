import Xv6.Fs.Format
import Xv6.Library.Assignment

/-!
# Volumes

What the file system is about once the places of inodes and bits on disk are settled: the inodes
and the blocks of the data area. An inode refers to blocks from its slots, which are its direct
addresses, the address of its indirect block, and the words of the indirect block; the file is
made of the blocks in its data slots. The edits are those that `bmap`, `writei` and the `iappend`
of `mkfs` make. With references that no two slots share, an edit of one slot or of one block of
data changes nothing else.
-/

namespace Xv6

open Function (update update_apply update_of_ne update_self)
open Bytes (Byte getByte putBytes)
open Assignment (Exact)

structure Volume where
  dinode : Word → Dinode
  block : BlockNo → Block

/-- A place that holds the address of a block. -/
inductive AddrSlot where
  | direct (k : Fin (ndirect + 1))
  | indirect (j : Fin blockWords)
  deriving DecidableEq

def indirectIndex : Fin (ndirect + 1) := Fin.last ndirect

def dataSlot (bn : Nat) : AddrSlot :=
  if bn < ndirect then .direct (Fin.ofNat (ndirect + 1) bn)
  else .indirect (Fin.ofNat blockWords (bn - ndirect))

theorem dataSlot_ne (bn : Nat) : dataSlot bn ≠ .direct indirectIndex := by
  unfold dataSlot
  split
  case isTrue small =>
    intro same
    have value := congrArg Fin.val (AddrSlot.direct.inj same)
    have rest : bn % (ndirect + 1) = bn := Nat.mod_eq_of_lt (by omega)
    simp only [Fin.ofNat, rest, indirectIndex, Fin.val_last] at value
    omega
  case isFalse => nofun

theorem dataSlot_inj {bn bn' : Nat} (low : bn < maxfile) (low' : bn' < maxfile)
    (same : dataSlot bn = dataSlot bn') : bn = bn' := by
  have total : maxfile = ndirect + blockWords := rfl
  unfold dataSlot at same
  split at same <;> split at same
  · have value := congrArg Fin.val (AddrSlot.direct.inj same)
    simp only [Fin.ofNat] at value
    rw [Nat.mod_eq_of_lt (by omega), Nat.mod_eq_of_lt (by omega)] at value
    exact value
  · cases same
  · cases same
  · have value := congrArg Fin.val (AddrSlot.indirect.inj same)
    simp only [Fin.ofNat] at value
    rw [Nat.mod_eq_of_lt (by omega), Nat.mod_eq_of_lt (by omega)] at value
    omega

def blocksFor (bytes : Nat) : Nat := (bytes + (bsize - 1)) / bsize

namespace Volume

variable (v : Volume)

def addr (i : Word) : AddrSlot → Word
  | .direct k => (v.dinode i).addrs k
  | .indirect j =>
    if (v.dinode i).addrs indirectIndex = 0 then 0
    else v.block ((v.dinode i).addrs indirectIndex) j

def Live (i : Word) : Prop := (v.dinode i).type ≠ 0

instance (i : Word) : Decidable (v.Live i) := inferInstanceAs (Decidable (_ ≠ _))

def ref (slot : Word × AddrSlot) : Option Word :=
  if v.Live slot.1 ∧ v.addr slot.1 slot.2 ≠ 0 then some (v.addr slot.1 slot.2) else none

def setDinode (i : Word) (din : Dinode) : Volume :=
  { v with dinode := Function.update v.dinode i din }

def setBlock (b : BlockNo) (data : Block) : Volume :=
  { v with block := Function.update v.block b data }

def setAddr (i : Word) (s : AddrSlot) (x : Word) : Volume :=
  match s with
  | .direct k => v.setDinode i { v.dinode i with addrs := Function.update (v.dinode i).addrs k x }
  | .indirect j =>
    let a := (v.dinode i).addrs indirectIndex
    v.setBlock a (Function.update (v.block a) j x)

def indirects (i : Word) : Nat := if v.addr i (.direct indirectIndex) = 0 then 0 else 1

def byte (i : Word) (off : Nat) : Byte :=
  getByte (v.block (v.addr i (dataSlot (off / bsize)))) (off % bsize)

def datum (i : Word) (off : Nat) : Byte :=
  if v.addr i (dataSlot (off / bsize)) = 0 then 0 else v.byte i off

def content (i : Word) : List Byte :=
  (List.range (v.dinode i).size.toNat).map (v.byte i)

structure HoleFree (i : Word) : Prop where
  mapped : ∀ bn, bn * bsize < (v.dinode i).size.toNat → v.addr i (dataSlot bn) ≠ 0
  size_le : (v.dinode i).size.toNat ≤ maxfile * bsize

variable {v} {v' : Volume} {i i' : Word} {s s' : AddrSlot} {b : BlockNo} {used : Word → Prop}

theorem dinode_setDinode (v : Volume) (i : Word) (din : Dinode) :
    (v.setDinode i din).dinode i = din := update_self ..

theorem ref_eq_some : v.ref (i, s) = some b ↔ v.Live i ∧ v.addr i s = b ∧ b ≠ 0 := by
  unfold ref
  split
  case isTrue both =>
    constructor
    · intro same
      cases same
      exact ⟨both.1, rfl, both.2⟩
    · rintro ⟨-, rfl, -⟩
      rfl
  case isFalse none =>
    constructor
    · intro absent
      cases absent
    · rintro ⟨live, rfl, some⟩
      exact absurd ⟨live, some⟩ none

theorem ref_of_addr (live : v.Live i) (some : v.addr i s ≠ 0) :
    v.ref (i, s) = .some (v.addr i s) := if_pos ⟨live, some⟩

theorem slot_unique (exact : Exact v.ref used) (live : v.Live i) (live' : v.Live i')
    (some : v.addr i s ≠ 0) (same : v.addr i s = v.addr i' s') : i = i' ∧ s = s' := by
  have held := ref_of_addr live some
  have held' := ref_of_addr live' (same ▸ some)
  rw [← same] at held'
  have keys := exact.injective held held'
  exact ⟨congrArg Prod.fst keys, congrArg Prod.snd keys⟩

theorem addr_congr (addrs : (v'.dinode i).addrs = (v.dinode i).addrs)
    (block : (v.dinode i).addrs indirectIndex ≠ 0 →
      v'.block ((v.dinode i).addrs indirectIndex) = v.block ((v.dinode i).addrs indirectIndex)) :
    v'.addr i s = v.addr i s := by
  cases s with
  | direct k => exact congrFun addrs k
  | indirect j =>
    simp only [addr, addrs]
    split
    · rfl
    · rename_i some
      rw [block some]

theorem addr_setBlock (data : Block) (other : v.addr i (.direct indirectIndex) ≠ b) :
    (v.setBlock b data).addr i s = v.addr i s :=
  addr_congr rfl fun _ => update_of_ne other _ _

theorem ref_setBlock (data : Block)
    (other : ∀ i, v.Live i → v.addr i (.direct indirectIndex) ≠ b) :
    (v.setBlock b data).ref = v.ref := by
  funext slot
  obtain ⟨i, s⟩ := slot
  by_cases live : v.Live i
  · have same : (v.setBlock b data).addr i s = v.addr i s := addr_setBlock data (other i live)
    have still : (v.setBlock b data).Live i ↔ v.Live i := Iff.rfl
    simp only [ref, same, still]
  · have still : ¬ (v.setBlock b data).Live i := live
    simp only [ref, live, still, false_and, if_false]

theorem addr_ne_of_unused (exact : Exact v.ref used) (fresh : ¬ used b) (some : b ≠ 0)
    (live : v.Live i) : v.addr i s ≠ b := by
  rintro rfl
  exact fresh (exact.in_use (ref_of_addr live some))

variable {bn : Nat} {x : Word}

theorem addr_ne_of_data (exact : Exact v.ref used) (live : v.Live i)
    (mapped : v.addr i (dataSlot bn) ≠ 0) (live' : v.Live i') :
    v.addr i' (.direct indirectIndex) ≠ v.addr i (dataSlot bn) := fun same =>
  dataSlot_ne bn (slot_unique exact live live' mapped same.symm).2

theorem byte_congr {off : Nat}
    (addr : v'.addr i (dataSlot (off / bsize)) = v.addr i (dataSlot (off / bsize)))
    (block : v'.block (v.addr i (dataSlot (off / bsize))) =
      v.block (v.addr i (dataSlot (off / bsize)))) : v'.byte i off = v.byte i off := by
  unfold byte
  rw [addr, block]

theorem byte_setBlock (exact : Exact v.ref used) (live : v.Live i)
    (mapped : v.addr i (dataSlot bn) ≠ 0) (low : bn < maxfile) (data : Block) (live' : v.Live i')
    {off : Nat} (inside : off < maxfile * bsize)
    (mapped' : v.addr i' (dataSlot (off / bsize)) ≠ 0) :
    (v.setBlock (v.addr i (dataSlot bn)) data).byte i' off =
      if i' = i ∧ off / bsize = bn then getByte data (off % bsize) else v.byte i' off := by
  have low' : off / bsize < maxfile := Nat.div_lt_of_lt_mul (by rw [Nat.mul_comm]; exact inside)
  have addr : (v.setBlock (v.addr i (dataSlot bn)) data).addr i' (dataSlot (off / bsize)) =
      v.addr i' (dataSlot (off / bsize)) :=
    addr_setBlock data (addr_ne_of_data exact live mapped live')
  unfold byte
  rw [addr]
  split
  case isTrue same =>
    obtain ⟨rfl, rfl⟩ := same
    exact congrArg (getByte · _) (update_self ..)
  case isFalse other =>
    refine congrArg (getByte · _) (update_of_ne (fun same => ?_) ..)
    obtain ⟨rfl, slots⟩ := slot_unique exact live' live mapped' same
    exact other ⟨rfl, dataSlot_inj low' low slots⟩

/-- The slot can be given the block: its indirect block is there, and the block is zero when it
becomes the indirect block itself. -/
structure Ready (v : Volume) (i : Word) (s : AddrSlot) (x : Word) : Prop where
  whole : s = .direct indirectIndex → v.addr i s = 0 ∧ ∀ j, v.block x j = 0
  part : ∀ j, s = .indirect j → v.addr i (.direct indirectIndex) ≠ 0

theorem addr_setAddr (exact : Exact v.ref used) (live : v.Live i) (ready : v.Ready i s x)
    (live' : v.Live i') :
    (v.setAddr i s x).addr i' s' = if (i', s') = (i, s) then x else v.addr i' s' := by
  cases s with
  | direct k =>
    by_cases self : i' = i
    · subst self
      have dinode : (v.setAddr i' (.direct k) x).dinode i' =
          { v.dinode i' with addrs := update (v.dinode i').addrs k x } :=
        update_self ..
      cases s' with
      | direct k' =>
        simp only [addr, dinode, Prod.mk.injEq, true_and, AddrSlot.direct.injEq]
        exact update_apply ..
      | indirect j =>
        simp only [addr, dinode, Prod.mk.injEq, true_and, reduceCtorEq, if_false]
        by_cases last : k = indirectIndex
        · subst last
          obtain ⟨empty, zero⟩ := ready.whole rfl
          have none : (v.dinode i').addrs indirectIndex = 0 := empty
          simp only [update_self, none, if_true]
          split
          · rfl
          · exact zero j
        · simp only [update_of_ne (Ne.symm last)]
          rfl
    · have dinode : (v.setAddr i (.direct k) x).dinode i' = v.dinode i' :=
        update_of_ne self _ _
      rw [if_neg fun same => self (congrArg Prod.fst same)]
      exact addr_congr (by rw [dinode]) fun _ => rfl
  | indirect j =>
    have some : v.addr i (.direct indirectIndex) ≠ 0 := ready.part j rfl
    have here : (v.dinode i).addrs indirectIndex ≠ 0 := some
    by_cases self : i' = i
    · subst self
      cases s' with
      | direct k =>
        rw [if_neg (by simp)]
        rfl
      | indirect j' =>
        show (if (v.dinode i').addrs indirectIndex = 0 then 0 else
          update v.block ((v.dinode i').addrs indirectIndex) (update _ j x)
            ((v.dinode i').addrs indirectIndex) j') = _
        simp only [here, if_false, update_self, Prod.mk.injEq, true_and,
          AddrSlot.indirect.injEq, addr]
        exact update_apply ..
    · rw [if_neg fun same => self (congrArg Prod.fst same)]
      refine addr_congr rfl fun _ => update_of_ne (fun same => self ?_) _ _
      have same' : v.addr i (.direct indirectIndex) = v.addr i' (.direct indirectIndex) := same.symm
      exact (slot_unique exact live live' some same').1.symm

theorem dinode_setAddr (v : Volume) (i i' : Word) (s : AddrSlot) (x : Word) :
    ∃ addrs, (v.setAddr i s x).dinode i' = { v.dinode i' with addrs := addrs } := by
  cases s with
  | direct k =>
    by_cases self : i' = i
    · subst self
      exact ⟨_, update_self ..⟩
    · exact ⟨_, update_of_ne self _ _⟩
  | indirect j => exact ⟨_, rfl⟩

theorem dinode_setAddr_of_ne (x : Word) (other : i' ≠ i) :
    (v.setAddr i s x).dinode i' = v.dinode i' := by
  cases s with
  | direct k => exact update_of_ne other _ _
  | indirect j => rfl

theorem live_setAddr (x : Word) : (v.setAddr i s x).Live i' ↔ v.Live i' := by
  obtain ⟨addrs, same⟩ := dinode_setAddr v i i' s x
  unfold Live
  rw [same]

theorem ref_setAddr (exact : Exact v.ref used) (live : v.Live i) (ready : v.Ready i s x)
    (some : x ≠ 0) : (v.setAddr i s x).ref = update v.ref (i, s) (.some x) := by
  funext slot
  obtain ⟨i', s'⟩ := slot
  rw [update_apply]
  by_cases live' : v.Live i'
  · have still : (v.setAddr i s x).Live i' := (live_setAddr x).mpr live'
    have place : (v.setAddr i s x).addr i' s' = if (i', s') = (i, s) then x else v.addr i' s' :=
      addr_setAddr exact live ready live'
    unfold ref
    simp only [still, live', true_and, place]
    by_cases here : (i', s') = (i, s)
    · simp only [here, if_true, if_pos some]
    · simp only [here, if_false]
  · have gone : ¬ (v.setAddr i s x).Live i' := fun still => live' ((live_setAddr x).mp still)
    have differ : (i', s') ≠ (i, s) := by
      intro same
      cases same
      exact live' live
    simp only [ref, live', gone, false_and, if_false, differ]

theorem exact_setAddr (exact : Exact v.ref used) (live : v.Live i) (ready : v.Ready i s x)
    (some : x ≠ 0) (empty : v.addr i s = 0) (fresh : ¬ used x) :
    Exact (v.setAddr i s x).ref fun b => b = x ∨ used b := by
  rw [ref_setAddr exact live ready some]
  refine exact.assign ?_ fresh
  unfold ref
  rw [if_neg]
  rintro ⟨-, held⟩
  exact held empty

theorem block_setAddr (x : Word) (other : v.addr i (.direct indirectIndex) ≠ b) :
    (v.setAddr i s x).block b = v.block b := by
  cases s with
  | direct k => rfl
  | indirect j => exact update_of_ne (Ne.symm other) _ _

structure Others (v v' : Volume) (i : Word) : Prop where
  dinode : ∀ {i'}, i' ≠ i → v'.dinode i' = v.dinode i'
  addr : ∀ {i'} s, i' ≠ i → v.Live i' → v'.addr i' s = v.addr i' s
  block : ∀ {i'} bn, i' ≠ i → v.Live i' → v.addr i' (dataSlot bn) ≠ 0 →
    v'.block (v.addr i' (dataSlot bn)) = v.block (v.addr i' (dataSlot bn))

theorem Others.refl (v : Volume) (i : Word) : Others v v i where
  dinode _ := rfl
  addr _ _ _ := rfl
  block _ _ _ _ := rfl

theorem Others.live (same : Others v v' i) (other : i' ≠ i) : v'.Live i' ↔ v.Live i' := by
  unfold Live
  rw [same.dinode other]

theorem Others.trans {v'' : Volume} (first : Others v v' i) (second : Others v' v'' i) :
    Others v v'' i where
  dinode other := (second.dinode other).trans (first.dinode other)
  addr s other live :=
    (second.addr s other ((first.live other).mpr live)).trans (first.addr s other live)
  block bn other live mapped := by
    have same := first.addr (dataSlot bn) other live
    have later := second.block bn other ((first.live other).mpr live) (same ▸ mapped)
    rw [same] at later
    exact later.trans (first.block bn other live mapped)

theorem others_setAddr (exact : Exact v.ref used) (live : v.Live i) (ready : v.Ready i s x) :
    Others v (v.setAddr i s x) i where
  dinode other := dinode_setAddr_of_ne x other
  addr s' other live' := by
    rw [addr_setAddr exact live ready live', if_neg fun same => other (congrArg Prod.fst same)]
  block bn other live' mapped := block_setAddr x (addr_ne_of_data exact live' mapped live)

theorem others_setBlock (exact : Exact v.ref used) (live : v.Live i)
    (mapped : v.addr i (dataSlot bn) ≠ 0) (data : Block) :
    Others v (v.setBlock (v.addr i (dataSlot bn)) data) i where
  dinode _ := rfl
  addr _ _ live' := addr_setBlock data (addr_ne_of_data exact live mapped live')
  block bn' other live' mapped' := by
    refine update_of_ne (fun same => other ?_) _ _
    exact (slot_unique exact live' live mapped' same).1

theorem others_setDinode (din : Dinode) : Others v (v.setDinode i din) i where
  dinode other := update_of_ne other _ _
  addr s other _ := by
    have dinode : (v.setDinode i din).dinode _ = v.dinode _ := update_of_ne other _ _
    exact addr_congr (by rw [dinode]) fun _ => rfl
  block _ _ _ _ := rfl

structure Mapped (v : Volume) (i : Word) (n : Nat) : Prop where
  data : ∀ bn, bn < maxfile → (v.addr i (dataSlot bn) ≠ 0 ↔ bn < n)
  indirect : v.addr i (.direct indirectIndex) ≠ 0 ↔ ndirect < n

theorem Mapped.congr {n : Nat} (mapped : v.Mapped i n) (same : ∀ s, v'.addr i s = v.addr i s) :
    v'.Mapped i n where
  data bn low := by rw [same, mapped.data bn low]
  indirect := by rw [same, mapped.indirect]

structure Holds (v : Volume) (i : Word) (n : Nat) (bytes : List Byte) : Prop where
  mapped : v.Mapped i n
  bytes : ∀ off, off < n * bsize → v.byte i off = bytes.getD off 0

theorem Others.holds (same : Others v v' i) (other : i' ≠ i) (live : v.Live i') {n : Nat}
    {bytes : List Byte} (fits : n ≤ maxfile) (holds : v.Holds i' n bytes) :
    v'.Holds i' n bytes where
  mapped := holds.mapped.congr fun s => same.addr s other live
  bytes off inside := by
    rw [← holds.bytes off inside]
    have block : off / bsize < n := Nat.div_lt_of_lt_mul (by rw [Nat.mul_comm]; exact inside)
    exact byte_congr (same.addr _ other live)
      (same.block _ other live ((holds.mapped.data _ (by omega)).mpr block))

end Volume

end Xv6
