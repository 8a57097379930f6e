import Xv6.Fs.Icache

/-!
# Directories and path elements

The upper half of `fs.c` without the walk along a path: entries of a directory are read and
written through `readi` and `writei`, by a caller that has locked the directory. A string is given
by its bytes before the terminating zero.
-/

namespace Xv6

open Bytes (Byte)

def strncmp : Nat → List Byte → List Byte → Int
  | 0, _, _ => 0
  | n + 1, p, q =>
    if p.headD 0 ≠ 0 ∧ p.headD 0 = q.headD 0 then strncmp n p.tail q.tail
    else (p.headD 0).toNat - (q.headD 0).toNat

def namecmp (s t : List Byte) : Int := strncmp dirsiz s t

def slash : Byte := 0x2F

def dotName : List Byte := [0x2E]

def dotDotName : List Byte := [0x2E, 0x2E]

/-- `skipelem`: the next element of a path, cut to `DIRSIZ` bytes, and the path behind it without
leading slashes; nothing when there is none. -/
def skipelem (path : List Byte) : Option (List Byte × List Byte) :=
  let path := path.dropWhile (· == slash)
  if path.isEmpty then none
  else
    some ((path.takeWhile (· != slash)).take dirsiz,
      (path.dropWhile (· != slash)).dropWhile (· == slash))

namespace Fs

def direntSize : Word := 16

def readDirent (dp : InodePtr) (off : Word) (message : String) : FsM Dirent := do
  match ← readi dp off direntSize with
  | .error _ => throw (.panic message)
  | .ok bytes =>
    if bytes.length ≠ direntSize.toNat then throw (.panic message)
    else return .ofBytes bytes

def dirlookupLoop (dp : InodePtr) (name : List Byte) : Nat → Word → FsM (Option (InodePtr × Word))
  | 0, _ => throw .diverges
  | fuel + 1, off => do
    let inode ← getInode dp
    if off < inode.din.size then
      let de ← readDirent dp off "dirlink read"
      if de.inum = 0 then dirlookupLoop dp name fuel (off + direntSize)
      else if namecmp name de.name = 0 then
        let ip ← iget inode.dev (de.inum.setWidth 32)
        return some (ip, off)
      else dirlookupLoop dp name fuel (off + direntSize)
    else return none

/-- `dirlookup`: the inode that a directory has under a name and the offset of the entry. -/
def dirlookup (dp : InodePtr) (name : List Byte) : FsM (Option (InodePtr × Word)) := do
  let inode ← getInode dp
  if inode.din.type ≠ tDir then throw (.panic "dirlookup not DIR")
  else dirlookupLoop dp name (inode.din.size.toNat / 16 + 2) 0

/-- The loop of `dirlink` that looks for an unused entry, from an offset on; the end of the
directory when there is none. -/
def unusedLoop (dp : InodePtr) : Nat → Word → FsM Word
  | 0, _ => throw .diverges
  | fuel + 1, off => do
    let inode ← getInode dp
    if off < inode.din.size then
      let de ← readDirent dp off "dirlink read"
      if de.inum = 0 then return off else unusedLoop dp fuel (off + direntSize)
    else return off

def dirlink (dp : InodePtr) (name : List Byte) (inum : Word) : FsM Int := do
  match ← dirlookup dp name with
  | some (ip, _) =>
    iput ip
    return -1
  | none =>
    let inode ← getInode dp
    let off ← unusedLoop dp (inode.din.size.toNat / 16 + 2) 0
    let de : Dirent := ⟨inum.setWidth 16, strncpy dirsiz name⟩
    if (← writei dp de.toBytes off direntSize) ≠ direntSize.toNat then throw (.panic "dirlink")
    else return 0

end Fs

end Xv6
