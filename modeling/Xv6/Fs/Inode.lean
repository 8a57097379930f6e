import Xv6.Fs.Layout
import Xv6.Library.Program

/-!
# Blocks and inodes

The lower half of `fs.c`: the allocator of blocks and the contents of inodes. The state is the
disk as it is seen through the buffer cache and the log, the header of the log, and the cache of
inodes. There is one disk, so blocks are named without it, and one device with handlers, the
console. A function is one step on the state: its caller holds the inode it works on, and the
buffers it uses are locked one at a time. `commit` is a part of the step of the last `end_op`.
-/

namespace Xv6

open Bytes (Byte getByte putBytes)
open Program

def consoleMajor : Short := 1

abbrev InodePtr := Fin ninode

structure Inode where
  dev : Word
  inum : Word
  ref : Nat
  busy : Bool
  valid : Bool
  din : Dinode

structure Fs where
  sb : Superblock
  disk : Disk
  logged : List BlockNo
  outstanding : Nat
  inode : InodePtr → Inode
  typed : List Byte

abbrev FsM := StateT Fs (Except Fault)

namespace Fs

def bread (b : BlockNo) : FsM Block := do return (← get).disk b

def LogFull (fs : Fs) : Prop :=
  logSize ≤ fs.logged.length ∨ fs.sb.nlog.toInt - 1 ≤ fs.logged.length

instance (fs : Fs) : Decidable fs.LogFull := inferInstanceAs (Decidable (_ ∨ _))

def logWrite (b : BlockNo) (data : Block) : FsM Unit := do
  let fs ← get
  if fs.LogFull then throw (.panic "too big a transaction")
  else if fs.outstanding < 1 then throw (.panic "log_write outside of trans")
  else
    set
      { fs with
        disk := Function.update fs.disk b data
        logged := fs.logged.insert b }

def beginOp : FsM Unit := do
  let fs ← get
  if logSize < fs.logged.length + (fs.outstanding + 1) * maxOpBlocks then throw .disabled
  else set { fs with outstanding := fs.outstanding + 1 }

def endOp : FsM Unit := do
  let fs ← get
  let outstanding := fs.outstanding - 1
  set
    { fs with
      outstanding := outstanding
      logged := if outstanding = 0 then [] else fs.logged }

def transaction {α : Type} (body : FsM α) : FsM α := do
  beginOp
  let r ← body
  endOp
  return r

def getInode (ip : InodePtr) : FsM Inode := do return (← get).inode ip

def setInode (ip : InodePtr) (inode : Inode) : FsM Unit :=
  modify fun fs => { fs with inode := Function.update fs.inode ip inode }

def readsb : FsM Unit := do
  let data ← bread 1
  modify fun fs => { fs with sb := Superblock.ofBlock data }

def bzero (bno : BlockNo) : FsM Unit := logWrite bno fun _ => 0

/-- The inner loop of `balloc`: the first free block of those that a block of the bitmap has the
bits of. -/
def freeBit (data : Block) (limit : Nat) : Option Nat :=
  (List.range limit).find? fun bi => !bitSet data bi

/-- The outer loop of `balloc` from block `b` on. The fuel is the number of blocks. -/
def ballocLoop : Nat → Nat → FsM BlockNo
  | 0, _ => throw (.panic "balloc: out of blocks")
  | fuel + 1, b => do
    let fs ← get
    if b < fs.sb.size.toNat then
      let place := bblock fs.sb (BitVec.ofNat 32 b)
      let data ← bread place
      match freeBit data (min bpb (fs.sb.size.toNat - b)) with
      | some bi =>
        logWrite place (setBit data bi)
        bzero (BitVec.ofNat 32 (b + bi))
        return BitVec.ofNat 32 (b + bi)
      | none => ballocLoop fuel (b + bpb)
    else throw (.panic "balloc: out of blocks")

def balloc : FsM BlockNo := do ballocLoop ((← get).sb.size.toNat + 1) 0

def bfree (b : BlockNo) : FsM Unit := do
  readsb
  let place := bblock (← get).sb b
  let data ← bread place
  if bitSet data (b.toNat % bpb) then logWrite place (clearBit data (b.toNat % bpb))
  else throw (.panic "freeing free block")

def iupdate (ip : InodePtr) : FsM Unit := do
  let inode ← getInode ip
  let place := iblock (← get).sb inode.inum
  let data ← bread place
  logWrite place (Dinode.store data (iplace inode.inum) inode.din)

def setAddr (ip : InodePtr) (k : Fin (ndirect + 1)) (x : Word) : FsM Unit := do
  let inode ← getInode ip
  setInode ip
    { inode with
      din := { inode.din with addrs := Function.update inode.din.addrs k x } }

def fillAddr (ip : InodePtr) (k : Fin (ndirect + 1)) : FsM Word := do
  let addr := (← getInode ip).din.addrs k
  if addr = 0 then
    let addr ← balloc
    setAddr ip k addr
    return addr
  else return addr

def bmap (ip : InodePtr) (bn : Nat) : FsM Word :=
  if bn < ndirect then fillAddr ip (Fin.ofNat (ndirect + 1) bn)
  else if bn - ndirect < nindirect then do
    let addr ← fillAddr ip indirectIndex
    let data ← bread addr
    let j := Fin.ofNat blockWords (bn - ndirect)
    if data j = 0 then
      let x ← balloc
      logWrite addr (Function.update data j x)
      return x
    else return data j
  else throw (.panic "bmap: out of range")

def freeAddr (x : Word) : FsM Unit := if x = 0 then return else bfree x

def truncDirect (ip : InodePtr) : List (Fin (ndirect + 1)) → FsM Unit
  | [] => return
  | k :: rest => do
    let addr := (← getInode ip).din.addrs k
    if addr ≠ 0 then
      bfree addr
      setAddr ip k 0
    truncDirect ip rest

def truncIndirect (data : Block) : List (Fin blockWords) → FsM Unit
  | [] => return
  | j :: rest => do
    freeAddr (data j)
    truncIndirect data rest

def directIndices : List (Fin (ndirect + 1)) := (List.range ndirect).map (Fin.ofNat _)

def itrunc (ip : InodePtr) : FsM Unit := do
  truncDirect ip directIndices
  let addr := (← getInode ip).din.addrs indirectIndex
  if addr ≠ 0 then
    let data ← bread addr
    truncIndirect data (List.finRange blockWords)
    bfree addr
    setAddr ip indirectIndex 0
  let inode ← getInode ip
  setInode ip { inode with din := { inode.din with size := 0 } }
  iupdate ip

def handled (major : Short) : Bool :=
  0 ≤ major.toInt && major.toInt < ndev && major == consoleMajor

/-- The loop of `consoleread` with `n` bytes to go, on the characters that come. The bytes that are
copied, what is left, and whether the process was not killed while it waited. -/
def consoleLoop : Nat → Bool → List Byte → List Byte × List Byte × Bool
  | 0, _, typed => ([], typed, true)
  | _ + 1, _, [] => ([], [], false)
  | n + 1, first, c :: typed =>
    -- `^D` ends the input; behind other characters it is kept for the next call
    if c = 0x04 then ([], if first then typed else c :: typed, true)
    else if c = 0x0A then ([c], typed, true)
    else
      let (bytes, rest, alive) := consoleLoop n false typed
      (c :: bytes, rest, alive)

/-- What a read did: it returned the number of the bytes it copied, or -1 behind them. -/
abbrev ReadResult := Except (List Byte) (List Byte)

def ReadResult.copied : ReadResult → List Byte
  | .ok bytes => bytes
  | .error bytes => bytes

def consoleread (n : Int) : FsM ReadResult := do
  let fs ← get
  let (bytes, rest, alive) := consoleLoop n.toNat true fs.typed
  set { fs with typed := rest }
  return if alive then .ok bytes else .error bytes

/-- Bytes that a round of `readi` or `writei` transfers: up to the end of the block. -/
def roundBytes (off n : Nat) : Nat := min n (bsize - off % bsize)

/-- The loop of `readi`: the bytes from `off` on, `n` of them left. The fuel is the number of
bytes. -/
def readLoop (ip : InodePtr) : Nat → Nat → Nat → FsM (List Byte)
  | _, _, 0 => return []
  | 0, _, _ + 1 => throw .diverges
  | fuel + 1, off, n@(_ + 1) => do
    let addr ← bmap ip (off / bsize)
    let data ← bread addr
    let m := roundBytes off n
    let bytes := (List.range m).map fun k => getByte data (off % bsize + k)
    return bytes ++ (← readLoop ip fuel (off + m) (n - m))

def readi (ip : InodePtr) (off n : Word) : FsM ReadResult := do
  let fs ← get
  let din := (fs.inode ip).din
  if din.type = tDev then if handled din.major then consoleread n.toInt else return .error []
  else if din.size < off ∨ off + n < off then return .error []
  else
    let n := if din.size < off + n then din.size - off else n
    return .ok (← readLoop ip n.toNat off.toNat n.toNat)

/-- The loop of `writei`: the bytes that are left go to the file from `off` on. The fuel is the
number of bytes. -/
def writeLoop (ip : InodePtr) : Nat → Nat → List Byte → FsM Unit
  | _, _, [] => return
  | 0, _, _ :: _ => throw .diverges
  | fuel + 1, off, src@(_ :: _) => do
    let addr ← bmap ip (off / bsize)
    let data ← bread addr
    let m := roundBytes off src.length
    logWrite addr (putBytes data (off % bsize) (src.take m))
    writeLoop ip fuel (off + m) (src.drop m)

/-- `writei`: write to an inode. The result is the number of bytes, or -1 for an error. -/
def writei (ip : InodePtr) (src : List Byte) (off n : Word) : FsM Int := do
  let fs ← get
  let inode := fs.inode ip
  -- `consolewrite` returns the number of bytes
  if inode.din.type = tDev then return if handled inode.din.major then n.toInt else -1
  else if inode.din.size < off ∨ off + n < off then return -1
  else if BitVec.ofNat 32 (maxfile * bsize) < off + n then return -1
  else
    writeLoop ip src.length off.toNat src
    if 0 < n ∧ inode.din.size < off + n then
      let inode ← getInode ip
      setInode ip { inode with din := { inode.din with size := off + n } }
      iupdate ip
    return n.toInt

theorem wp_readLoop_length {ip : InodePtr} {fs : Fs} (fuel off n : Nat) :
    Wp (readLoop ip fuel off n) (fun bytes _ => bytes.length = n) (fun _ => True) fs := by
  induction fuel generalizing off n fs with
  | zero => cases n with
    | zero => rfl
    | succ n => trivial
  | succ fuel ih => cases n with
    | zero => rfl
    | succ n =>
      rw [readLoop, wp_bind]
      refine wp_of_forall (fun addr fs₁ _ => ?_) fun _ _ => trivial
      rw [wp_bind]
      refine wp_of_forall (fun data fs₂ _ => ?_) fun _ _ => trivial
      simp only [wp_bind]
      refine (ih _ _).imp fun bytes _ length => ?_
      rw [wp_pure, List.length_append, List.length_map, List.length_range, length]
      exact Nat.add_sub_cancel' (Nat.min_le_left ..)

theorem consoleLoop_length (n : Nat) (first : Bool) (typed : List Byte) :
    (consoleLoop n first typed).1.length ≤ n := by
  fun_induction consoleLoop n first typed with
  | case1 => exact Nat.le_refl 0
  | case2 => exact Nat.zero_le _
  | case3 => exact Nat.zero_le _
  | case4 => exact Nat.succ_le_succ (Nat.zero_le _)
  | case5 n first c typed other line bytes rest alive ran ih =>
    rw [ran] at ih
    exact Nat.succ_le_succ ih

def readCount (din : Dinode) (off n : Word) : Nat :=
  if din.size < off ∨ off + n < off then 0
  else (if din.size < off + n then din.size - off else n).toNat

theorem readCount_le (din : Dinode) (off n : Word) : readCount din off n ≤ n.toNat := by
  rw [readCount]
  split
  · exact Nat.zero_le _
  · rename_i fits
    obtain ⟨inside, straight⟩ := not_or.mp fits
    have inside' := Nat.le_of_not_lt inside
    have straight' := Nat.le_of_not_lt straight
    split
    · rename_i cut
      have cut' := BitVec.lt_def.mp cut
      rw [BitVec.toNat_add] at cut' straight'
      rw [BitVec.toNat_sub]
      omega
    · exact Nat.le_refl _

theorem readCount_eq_zero {din : Dinode} {off n : Word} (nothing : din.size ≤ off ∨ off + n < off) :
    readCount din off n = 0 := by
  rw [readCount]
  split
  · rfl
  · rename_i fits
    obtain ⟨inside, straight⟩ := not_or.mp fits
    rcases nothing with behind | wraps
    · have same : off = din.size := BitVec.le_antisymm (BitVec.not_lt.mp inside) behind
      have n_eq : ¬ din.size < off + n → n = 0 := by
        intro short
        apply BitVec.eq_of_toNat_eq
        rw [BitVec.lt_def, same, BitVec.toNat_add] at short straight
        have small := n.isLt
        show n.toNat = 0
        omega
      split
      · rw [same, BitVec.sub_self]
        rfl
      · rename_i short
        rw [n_eq short]
        rfl
    · exact absurd wraps straight

theorem readCount_pos {din : Dinode} {off n : Word} (inside : off < din.size)
    (straight : off ≤ off + n)
    (some : n ≠ 0) : 0 < readCount din off n := by
  rw [readCount, if_neg]
  · split
    · rw [BitVec.toNat_sub]
      have before := BitVec.lt_def.mp inside
      have small := din.size.isLt
      omega
    · exact Nat.pos_of_ne_zero fun zero => some (BitVec.eq_of_toNat_eq zero)
  · exact not_or.mpr ⟨BitVec.not_lt.mpr (BitVec.le_of_lt inside), BitVec.not_lt.mpr straight⟩

theorem wp_readi_count {ip : InodePtr} {off n : Word} {fs : Fs}
    (file : (fs.inode ip).din.type ≠ tDev) :
    Wp (readi ip off n) (fun r _ => r.copied.length = readCount (fs.inode ip).din off n)
      (fun _ => True) fs := by
  rw [readi, wp_bind, wp_get, readCount]
  dsimp only
  rw [if_neg file]
  split
  · rfl
  · simp only [wp_bind]
    exact (wp_readLoop_length ..).imp fun bytes _ length => length

theorem wp_readi_device {ip : InodePtr} {off n : Word} {fs : Fs}
    (device : (fs.inode ip).din.type = tDev) :
    Wp (readi ip off n) (fun r _ => r.copied.length ≤ n.toInt.toNat) (fun _ => True) fs := by
  rw [readi, wp_bind, wp_get]
  dsimp only
  rw [if_pos device]
  split
  · have length := consoleLoop_length n.toInt.toNat true fs.typed
    rw [consoleread, wp_bind, wp_get]
    generalize consoleLoop n.toInt.toNat true fs.typed = result at length ⊢
    obtain ⟨bytes, rest, alive⟩ := result
    show (if alive then Except.ok bytes else .error bytes : ReadResult).copied.length ≤ _
    cases alive <;> exact length
  · exact Nat.zero_le _

end Fs

end Xv6
