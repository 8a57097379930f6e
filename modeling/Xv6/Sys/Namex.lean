import Xv6.Fs.Directory
import Xv6.Library.Steps

/-!
# Walking along a path

`namex` of `fs.c`, in atomic steps: a step is a function that works on an inode its process has
locked, or that holds `icache.lock` throughout.
-/

namespace Xv6

open Bytes (Byte)
open Program

structure Kernel (P : Type) where
  fs : Fs
  cwd : P → Option InodePtr

abbrev FsCall (P : Type) := Steps (Kernel P) Fault

abbrev KernelM (P : Type) := StateT (Kernel P) (Except Fault)

namespace Kernel

variable {P : Type}

def onFs {α : Type} (action : FsM α) : FsCall P α :=
  .atomic (focus Kernel.fs (fun fs k => { k with fs := fs }) action)

instance : MonadLift FsM (FsCall P) := ⟨onFs⟩

instance : MonadLift (KernelM P) (FsCall P) := ⟨.atomic⟩

def iput (ip : InodePtr) : FsCall P Unit := do
  let frees ← Fs.iputTest ip
  if frees then Fs.ifree ip
  Fs.iputDrop ip frees

def iunlockput (ip : InodePtr) : FsCall P Unit := do
  Fs.iunlock ip
  iput ip

def stop {α : Type} (fault : Fault) : FsCall P α := onFs (throw fault)

def getCwd (p : P) : KernelM P InodePtr := do
  match (← get).cwd p with
  | some ip => return ip
  | none => throw .nullDeref

/-- The loop of `namex` from an inode on. The fuel is the number of path elements. -/
def namexLoop (parent : Bool) :
    Nat → InodePtr → List Byte → FsCall P (Option (InodePtr × List Byte))
  | 0, _, _ => stop .diverges
  | fuel + 1, ip, path =>
    match skipelem path with
    | none =>
      if parent then do
        iput ip
        return none
      else return some (ip, [])
    | some (name, rest) => do
      Fs.ilock ip
      let inode ← Fs.getInode ip
      if inode.din.type ≠ tDir then
        iunlockput ip
        return none
      else if parent && rest.isEmpty then
        Fs.iunlock ip
        return some (ip, name)
      else
        match ← Fs.dirlookup ip name with
        | none =>
          iunlockput ip
          return none
        | some (next, _) =>
          iunlockput ip
          namexLoop parent fuel next rest

def namex (p : P) (path : List Byte) (parent : Bool) :
    FsCall P (Option (InodePtr × List Byte)) := do
  if path.head? = some slash then
    let ip ← Fs.iget rootDev rootino
    namexLoop parent (path.length + 1) ip path
  else
    let cwd ← getCwd p
    let ip ← Fs.idup cwd
    namexLoop parent (path.length + 1) ip path

def namei (p : P) (path : List Byte) : FsCall P (Option InodePtr) := do
  return (← namex p path false).map Prod.fst

def nameiparent (p : P) (path : List Byte) : FsCall P (Option (InodePtr × List Byte)) :=
  namex p path true

end Kernel

end Xv6
