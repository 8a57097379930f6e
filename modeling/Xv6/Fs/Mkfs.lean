import Xv6.Fs.Layout

/-!
# Building the file system

`mkfs.c`: the program that writes the file system the kernel boots from. It lays out the image,
makes the root directory, adds each input file with an entry in the root directory, rounds the
size of the root directory up, and marks the blocks it has used. Inodes and blocks are handed out
in order. An assertion that does not hold and a failed system call end the program.
-/

namespace Xv6.Mkfs

open Bytes (Byte putBytes)

def ninodes : Nat := 200
def nbitmap : Nat := fsSize / (bsize * 8) + 1
def ninodeblocks : Nat := ninodes / ipb + 1
def nlog : Nat := logSize
def nmeta : Nat := 2 + nlog + ninodeblocks + nbitmap
def nblocks : Nat := fsSize - nmeta

def sb : Superblock where
  size := BitVec.ofNat 32 fsSize
  nblocks := BitVec.ofNat 32 nblocks
  ninodes := BitVec.ofNat 32 ninodes
  nlog := BitVec.ofNat 32 nlog
  logstart := 2
  inodestart := BitVec.ofNat 32 (2 + nlog)
  bmapstart := BitVec.ofNat 32 (2 + nlog + ninodeblocks)

structure Image where
  disk : Disk
  freeinode : Word
  freeblock : Word

/-- An input file: its name on the command line and what `read` returns for it, up to the end of
the file. -/
structure InputFile where
  name : List Byte
  reads : List (List Byte)
  string : 0 ∉ name
  sized : ∀ chunk ∈ reads, chunk ≠ [] ∧ chunk.length ≤ bsize

def InputFile.content (file : InputFile) : List Byte := file.reads.flatten

def sectorOf (sec : Word) : Word := sec * BitVec.ofNat 32 bsize / BitVec.ofNat 32 bsize

def rsect (s : Image) (sec : Word) : Except Fault Block :=
  if (sectorOf sec).toNat < fsSize then .ok (s.disk (sectorOf sec)) else .error (.panic "read")

/-- `wsect`: write a sector. The image does not grow: a sector that may lie outside is read
before it is written. -/
def wsect (s : Image) (sec : Word) (buf : Block) : Image :=
  { s with disk := Function.update s.disk (sectorOf sec) buf }

def rinode (s : Image) (inum : Word) : Except Fault Dinode := do
  let buf ← rsect s (iblock sb inum)
  return Dinode.ofBlock buf (iplace inum)

def winode (s : Image) (inum : Word) (din : Dinode) : Except Fault Image := do
  let buf ← rsect s (iblock sb inum)
  return wsect s (iblock sb inum) (Dinode.store buf (iplace inum) din)

def ialloc (s : Image) (type : Short) : Except Fault (Word × Image) := do
  let inum := s.freeinode
  let s ← winode { s with freeinode := s.freeinode + 1 } inum
    { Dinode.zero with
      type := type
      nlink := 1 }
  return (inum, s)

def takeBlock (s : Image) : Image := { s with freeblock := s.freeblock + 1 }

/-- The block `x` of the file at `fbn` in the loop of `iappend`, taken from the free blocks when
it is missing. -/
def blockAt (s : Image) (din : Dinode) (fbn : Nat) : Except Fault (Image × Dinode × Word) :=
  if fbn < ndirect then
    let k := Fin.ofNat (ndirect + 1) fbn
    if din.addrs k = 0 then
      .ok (takeBlock s, { din with addrs := Function.update din.addrs k s.freeblock }, s.freeblock)
    else .ok (s, din, din.addrs k)
  else
    let start :=
      if din.addrs indirectIndex = 0 then
        (takeBlock s, { din with addrs := Function.update din.addrs indirectIndex s.freeblock })
      else (s, din)
    let s := start.1
    let din := start.2
    let j := Fin.ofNat blockWords (fbn - ndirect)
    do
      let indirect ← rsect s (din.addrs indirectIndex)
      if indirect j = 0 then
        return (wsect (takeBlock s) (din.addrs indirectIndex)
          (Function.update indirect j s.freeblock), din, s.freeblock)
      return (s, din, indirect j)

/-- The loop of `iappend`: what is left of the bytes goes to the file from `off` on. The fuel is
the number of bytes, since each round writes some. -/
def iappendLoop : Nat → Image → Dinode → Nat → List Byte → Except Fault (Image × Dinode × Nat)
  | _, s, din, off, [] => .ok (s, din, off)
  | 0, _, _, _, _ :: _ => .error .diverges
  | fuel + 1, s, din, off, p@(_ :: _) => do
    let fbn := off / bsize
    if maxfile ≤ fbn then .error (.panic "fbn < MAXFILE")
    else
      let (s, din, x) ← blockAt s din fbn
      let n1 := min p.length ((fbn + 1) * bsize - off)
      let buf ← rsect s x
      let s := wsect s x (putBytes buf (off - fbn * bsize) (p.take n1))
      iappendLoop fuel s din (off + n1) (p.drop n1)

def iappend (s : Image) (inum : Word) (p : List Byte) : Except Fault Image := do
  let din ← rinode s inum
  let (s, din, off) ← iappendLoop p.length s din din.size.toNat p
  winode s inum { din with size := BitVec.ofNat 32 off }

def dirent (inum : Word) (name : List Byte) : List Byte :=
  Dirent.toBytes { inum := inum.setWidth 16, name := strncpy dirsiz name }

def InputFile.entryName (file : InputFile) : List Byte :=
  if file.name.head? = some 0x5f then file.name.tail else file.name

/-- The body of the loop over the files: an inode, an entry in the root directory, and the
contents. -/
def addFile (s : Image) (file : InputFile) : Except Fault Image := do
  if 0x2f ∈ file.name then .error (.panic "index")
  else
    let (inum, s) ← ialloc s tFile
    let s ← iappend s rootino (dirent inum file.entryName)
    file.reads.foldlM (fun s chunk => iappend s inum chunk) s

def fixRoot (s : Image) : Except Fault Image := do
  let din ← rinode s rootino
  let off := (din.size / BitVec.ofNat 32 bsize + 1) * BitVec.ofNat 32 bsize
  winode s rootino { din with size := off }

def balloc (s : Image) (used : Word) : Except Fault Image :=
  if used.toInt < bpb then
    let buf := (List.range used.toInt.toNat).foldl setBit fun _ => 0
    .ok (wsect s sb.bmapstart buf)
  else .error (.panic "used < BSIZE*8")

def format : Image where
  disk := Function.update (fun _ _ => 0) 1 sb.toBlock
  freeinode := 1
  freeblock := BitVec.ofNat 32 nmeta

def makeRoot (s : Image) : Except Fault Image := do
  let (root, s) ← ialloc s tDir
  if root ≠ rootino then .error (.panic "rootino == ROOTINO")
  else
    let s ← iappend s root (dirent root [0x2e])
    iappend s root (dirent root [0x2e, 0x2e])

def main (files : List InputFile) : Except Fault Image := do
  let s ← makeRoot format
  let s ← files.foldlM addFile s
  let s ← fixRoot s
  balloc s s.freeblock

end Xv6.Mkfs
