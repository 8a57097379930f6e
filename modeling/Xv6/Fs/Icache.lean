import Xv6.Fs.Inode

/-!
# The inode cache

The functions of `fs.c` on `icache`: an entry with references stands for an inode, and `I_BUSY`
locks it. `ilock` of a busy entry is not enabled; its process sleeps until the entry is unlocked.
-/

namespace Xv6

open Bytes (Byte)

namespace Fs

def entries : List InodePtr := List.finRange ninode

/-- `iget`: a reference to the entry of an inode, which is not read from disk here. -/
def iget (dev inum : Word) : FsM InodePtr := do
  let fs ← get
  match entries.find? fun ip =>
      0 < (fs.inode ip).ref && (fs.inode ip).dev == dev && (fs.inode ip).inum == inum with
  | some ip =>
    setInode ip { fs.inode ip with ref := (fs.inode ip).ref + 1 }
    return ip
  | none =>
    match entries.find? fun ip => (fs.inode ip).ref == 0 with
    | none => throw (.panic "iget: no inodes")
    | some ip =>
      -- the copy of the inode on disk stays what it was until `ilock`
      setInode ip
        { fs.inode ip with
          dev := dev
          inum := inum
          ref := 1
          busy := false
          valid := false }
      return ip

def idup (ip : InodePtr) : FsM InodePtr := do
  let inode ← getInode ip
  setInode ip { inode with ref := inode.ref + 1 }
  return ip

def ilock (ip : InodePtr) : FsM Unit := do
  let inode ← getInode ip
  if inode.ref < 1 then throw (.panic "ilock")
  else if inode.busy then throw .disabled
  else if inode.valid then setInode ip { inode with busy := true }
  else
    let fs ← get
    let din := fs.disk.dinode fs.sb inode.inum
    setInode ip
      { inode with
        busy := true
        valid := true
        din := din }
    if din.type = 0 then throw (.panic "ilock: no type")

def iunlock (ip : InodePtr) : FsM Unit := do
  let inode ← getInode ip
  if inode.busy = false ∨ inode.ref < 1 then throw (.panic "iunlock")
  else setInode ip { inode with busy := false }

/-- The first part of `iput`, with `icache.lock`: whether the inode is to be freed, and then it is
locked. -/
def iputTest (ip : InodePtr) : FsM Bool := do
  let inode ← getInode ip
  if inode.ref = 1 ∧ inode.valid ∧ inode.din.nlink = 0 then
    if inode.busy then throw (.panic "iput busy")
    else
      setInode ip { inode with busy := true }
      return true
  else return false

/-- The part of `iput` without `icache.lock`: free the inode and its contents on disk. -/
def ifree (ip : InodePtr) : FsM Unit := do
  itrunc ip
  let inode ← getInode ip
  setInode ip { inode with din := { inode.din with type := 0 } }
  iupdate ip

def iputDrop (ip : InodePtr) (freed : Bool) : FsM Unit := do
  let inode ← getInode ip
  if freed then
    setInode ip
      { inode with
        ref := inode.ref - 1
        busy := false
        valid := false }
  else setInode ip { inode with ref := inode.ref - 1 }

def iput (ip : InodePtr) : FsM Unit := do
  let frees ← iputTest ip
  if frees then ifree ip
  iputDrop ip frees

end Fs

end Xv6
