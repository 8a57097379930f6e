import Xv6.Fs.Icache

/-!
# Open files

`struct file` of `file.h`, and the parts of `fileread` and `filewrite` with the inode locked.
-/

namespace Xv6

open Bytes (Byte)
open Program

abbrev FilePtr := Fin nfile

abbrev PipePtr := Word

/-- The type of an open file. -/
inductive FileType where
  | none
  | pipe
  | inode
  deriving DecidableEq

structure File where
  type : FileType
  readable : Bool
  writable : Bool
  pipe : PipePtr
  ip : InodePtr
  off : Word

def File.advance (file : File) (r : Int) : File :=
  { file with off := if 0 < r then file.off + BitVec.ofInt 32 r else file.off }

namespace Fs

def readLocked (ip : InodePtr) (off n : Word) : FsM ReadResult := do
  ilock ip
  let r ← readi ip off n
  iunlock ip
  return r

def lockedDinode (fs : Fs) (ip : InodePtr) : Dinode :=
  if (fs.inode ip).valid then (fs.inode ip).din
  else fs.disk.dinode fs.sb (fs.inode ip).inum

def writeLocked (ip : InodePtr) (src : List Byte) (off n : Word) : FsM Int :=
  transaction do
    ilock ip
    let r ← writei ip src off n
    iunlock ip
    return r

end Fs

end Xv6
