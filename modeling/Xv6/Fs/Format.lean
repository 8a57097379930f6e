import Xv6.Library.Bytes
import Xv6.Log.Disk

/-!
# The on-disk format

`fs.h`: what the superblock, an inode, a directory entry and the bitmap look like in the blocks of
the disk. A block is the row of its words in little-endian order, so the conversions to that order
that `mkfs` makes are the identity; the bitmap and the contents of files are accessed by bytes.
-/

namespace Xv6

open Bytes (Byte getByte putBytes byteOf)

abbrev Short := BitVec 16

abbrev Disk := BlockNo → Block

def ndirect : Nat := 12
def nindirect : Nat := bsize / 4
def maxfile : Nat := ndirect + nindirect
def ipb : Nat := bsize / 64
instance : NeZero ipb := ⟨by decide⟩

instance (priority := 1100) neZeroAddrs : NeZero (ndirect + 1) := ⟨by decide⟩

def bpb : Nat := bsize * 8
def dirsiz : Nat := 14
def rootino : Word := 1
def tDir : Short := 1
def tFile : Short := 2
def tDev : Short := 3

structure Superblock where
  size : Word
  nblocks : Word
  ninodes : Word
  nlog : Word
  logstart : Word
  inodestart : Word
  bmapstart : Word
  deriving DecidableEq, Repr

def Superblock.ofBlock (b : Block) : Superblock where
  size := b 0
  nblocks := b 1
  ninodes := b 2
  nlog := b 3
  logstart := b 4
  inodestart := b 5
  bmapstart := b 6

def Superblock.toBlock (sb : Superblock) : Block := fun i =>
  [sb.size, sb.nblocks, sb.ninodes, sb.nlog, sb.logstart, sb.inodestart, sb.bmapstart].getD i.val 0

structure Dinode where
  type : Short
  major : Short
  minor : Short
  nlink : Short
  size : Word
  addrs : Fin (ndirect + 1) → Word
  deriving DecidableEq

namespace Dinode

def zero : Dinode where
  type := 0
  major := 0
  minor := 0
  nlink := 0
  size := 0
  addrs := fun _ => 0

def word (din : Dinode) (i : Fin 16) : Word :=
  if i.val = 0 then din.major ++ din.type
  else if i.val = 1 then din.nlink ++ din.minor
  else if i.val = 2 then din.size
  else din.addrs (Fin.ofNat (ndirect + 1) (i.val - 3))

def ofWords (w : Fin 16 → Word) : Dinode where
  type := (w 0).extractLsb' 0 16
  major := (w 0).extractLsb' 16 16
  minor := (w 1).extractLsb' 0 16
  nlink := (w 1).extractLsb' 16 16
  size := w 2
  addrs := fun k => w (Fin.ofNat 16 (k.val + 3))

def ofBlock (b : Block) (place : Fin ipb) : Dinode :=
  ofWords fun i => b (Fin.ofNat blockWords (16 * place.val + i.val))

def store (b : Block) (place : Fin ipb) (din : Dinode) : Block := fun j =>
  if j.val / 16 = place.val then din.word (Fin.ofNat 16 j.val) else b j

theorem ofWords_word (din : Dinode) : ofWords din.word = din := by
  obtain ⟨type, major, minor, nlink, size, addrs⟩ := din
  have low : ∀ a b : Short, (a ++ b : BitVec (16 + 16)).extractLsb' 0 16 = b := by
    intro a b
    ext i bound
    rw [BitVec.getElem_extractLsb', BitVec.getLsbD_append, Nat.zero_add, if_pos bound]
    exact BitVec.getLsbD_eq_getElem bound
  have high : ∀ a b : Short, (a ++ b : BitVec (16 + 16)).extractLsb' 16 16 = a := by
    intro a b
    ext i bound
    rw [BitVec.getElem_extractLsb', BitVec.getLsbD_append, if_neg (by omega),
      Nat.add_sub_cancel_left]
    exact BitVec.getLsbD_eq_getElem bound
  have entries : (fun k : Fin (ndirect + 1) =>
      (Dinode.mk type major minor nlink size addrs).word (Fin.ofNat 16 (k.val + 3))) = addrs := by
    funext k
    have bound : k.val < 13 := k.isLt
    have value : (Fin.ofNat 16 (k.val + 3)).val = k.val + 3 := Nat.mod_eq_of_lt (by omega)
    simp only [word, value]
    rw [if_neg (by omega), if_neg (by omega), if_neg (by omega)]
    congr 1
    apply Fin.ext
    show (k.val + 3 - 3) % (ndirect + 1) = k.val
    exact Nat.mod_eq_of_lt k.isLt
  simp only [ofWords, entries, mk.injEq, and_true]
  exact ⟨low _ _, high _ _, low _ _, high _ _, rfl⟩

theorem ofBlock_store (b : Block) (place : Fin ipb) (din : Dinode) :
    ofBlock (store b place din) place = din := by
  have words :
      (fun i : Fin 16 => store b place din (Fin.ofNat blockWords (16 * place.val + i.val))) =
      din.word := by
    funext i
    have bound : place.val < 8 := place.isLt
    have value : (Fin.ofNat blockWords (16 * place.val + i.val)).val = 16 * place.val + i.val :=
      Nat.mod_eq_of_lt (show _ < 128 by omega)
    simp only [store, value]
    rw [if_pos (by omega)]
    congr 1
    apply Fin.ext
    show (16 * place.val + i.val) % 16 = i.val
    omega
  rw [ofBlock, words, ofWords_word]

theorem ofBlock_store_of_ne (b : Block) {place other : Fin ipb} (din : Dinode)
    (differ : other ≠ place) : ofBlock (store b place din) other = ofBlock b other := by
  unfold ofBlock
  congr 1
  funext i
  have bound : other.val < 8 := other.isLt
  have value : (Fin.ofNat blockWords (16 * other.val + i.val)).val = 16 * other.val + i.val :=
    Nat.mod_eq_of_lt (show _ < 128 by omega)
  have ne : other.val ≠ place.val := fun same => differ (Fin.ext same)
  simp only [store, value]
  exact if_neg (by omega)

end Dinode

def iblock (sb : Superblock) (inum : Word) : BlockNo := inum / 8 + sb.inodestart

def iplace (inum : Word) : Fin ipb := Fin.ofNat ipb inum.toNat

def bblock (sb : Superblock) (b : BlockNo) : BlockNo := b / 4096 + sb.bmapstart

namespace Disk

def dinode (disk : Disk) (sb : Superblock) (inum : Word) : Dinode :=
  Dinode.ofBlock (disk (iblock sb inum)) (iplace inum)

def putDinode (disk : Disk) (sb : Superblock) (inum : Word) (din : Dinode) : Disk :=
  Function.update disk (iblock sb inum) (Dinode.store (disk (iblock sb inum)) (iplace inum) din)

end Disk

/-- The bit of a block in its block of the bitmap: `data[bi/8] & (1 << (bi % 8))`. -/
def bitSet (b : Block) (bi : Nat) : Bool := getByte b (bi / 8) &&& (1#8 <<< (bi % 8)) != 0

def setBit (b : Block) (bi : Nat) : Block :=
  putBytes b (bi / 8) [getByte b (bi / 8) ||| (1#8 <<< (bi % 8))]

def clearBit (b : Block) (bi : Nat) : Block :=
  putBytes b (bi / 8) [getByte b (bi / 8) &&& ~~~(1#8 <<< (bi % 8))]

theorem and_mask (x : Byte) {k : Nat} (small : k < 8) :
    (x &&& (1#8 <<< k) != 0) = x.getLsbD k := by
  have all : ∀ (k : Fin 8) (x : Byte), (x &&& (1#8 <<< k.val) != 0) = x.getLsbD k.val := by
    decide +kernel
  exact all ⟨k, small⟩ x

theorem getByte_putByte (b : Block) (s : Nat) (x : Byte) {position : Nat}
    (inside : position < bsize) :
    getByte (putBytes b s [x]) position = if position = s then x else getByte b position := by
  rw [Bytes.getByte_putBytes b s [x] (show position < 4 * blockWords from inside)]
  by_cases same : position = s
  · rw [if_pos (by omega), if_pos same, same, Nat.sub_self]
    rfl
  · rw [if_neg same]
    split
    · have past : [x].length ≤ position - s := by
        rw [List.length_singleton]
        omega
      rw [List.getD_eq_getElem?_getD, List.getElem?_eq_none past]
      rfl
    · rfl

theorem bitSet_eq (b : Block) (bi : Nat) : bitSet b bi = (getByte b (bi / 8)).getLsbD (bi % 8) :=
  and_mask _ (Nat.mod_lt _ (by decide))

theorem bitSet_setBit (b : Block) (bi : Nat) {bj : Nat} (inside : bj < bpb) :
    bitSet (setBit b bi) bj = (decide (bj = bi) || bitSet b bj) := by
  have bound : bj / 8 < bsize := by
    unfold bpb at inside
    omega
  rw [bitSet_eq, bitSet_eq, setBit, getByte_putByte _ _ _ bound]
  by_cases byte : bj / 8 = bi / 8
  · rw [if_pos byte, BitVec.getLsbD_or, byte, Bool.or_comm]
    congr 1
    have small : bj % 8 < 8 := Nat.mod_lt _ (by decide)
    have mask : ∀ j k : Fin 8, (1#8 <<< j.val).getLsbD k.val = decide (k = j) := by decide
    rw [mask ⟨bi % 8, Nat.mod_lt _ (by decide)⟩ ⟨bj % 8, small⟩]
    refine decide_eq_decide.mpr ⟨fun same => ?_, fun same => ?_⟩
    · have bits : bj % 8 = bi % 8 := congrArg Fin.val same
      omega
    · exact Fin.ext (congrArg (· % 8) same)
  · rw [if_neg byte, decide_eq_false (fun same => byte (by rw [same])), Bool.false_or]

/-- `strncpy`: the first bytes of a string, filled up with zeros. The string is given without its
terminating zero. -/
def strncpy (n : Nat) (src : List Byte) : List Byte :=
  src.take n ++ List.replicate (n - src.length) 0

theorem length_strncpy (n : Nat) (src : List Byte) : (strncpy n src).length = n := by
  rw [strncpy, List.length_append, List.length_take, List.length_replicate]
  omega

structure Dirent where
  inum : Short
  name : List Byte
  deriving DecidableEq

namespace Dirent

def bytes : Nat := 16

def toBytes (de : Dirent) : List Byte :=
  de.inum.extractLsb' 0 8 :: de.inum.extractLsb' 8 8 :: de.name

def ofBytes (data : List Byte) : Dirent where
  inum := (data.getD 1 0 ++ data.getD 0 0 : BitVec (8 + 8))
  name := data.drop 2

theorem ofBytes_toBytes (de : Dirent) : ofBytes de.toBytes = de := by
  obtain ⟨inum, name⟩ := de
  have halves : (inum.extractLsb' 8 8 ++ inum.extractLsb' 0 8 : BitVec (8 + 8)) = inum := by
    ext i bound
    rw [BitVec.getElem_append]
    split
    · rw [BitVec.getElem_extractLsb', Nat.zero_add]
      exact BitVec.getLsbD_eq_getElem bound
    · rw [BitVec.getElem_extractLsb', show 8 + (i - 8) = i by omega]
      exact BitVec.getLsbD_eq_getElem bound
  simp only [ofBytes, toBytes, mk.injEq]
  exact ⟨halves, rfl⟩

end Dirent

end Xv6
