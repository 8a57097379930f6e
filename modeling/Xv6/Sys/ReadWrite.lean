import Xv6.Library.Run
import Xv6.Pipe.Machine
import Xv6.Sys.Args
import Xv6.Sys.File

/-!
# Reading and writing files

`sys_read` and `sys_write` of one process, down to the loops of `piperead`, `pipewrite` and
`filewrite` that copy between its memory and a pipe or a file. Between two steps of the call other
processes may change everything that no lock protects from them. The addresses of the user bytes
that are copied are recorded; no step reads the record.
-/

namespace Xv6

open Bytes (Byte)
open ByteSpace (Memory)

/-- Where the process is in the calls. -/
inductive IoPc where
  | outside
  | readWait (p : PipePtr) (addr : Word) (n : Int)
  | readCopy (p : PipePtr) (addr : Word) (n i : Int)
  | writeWait (p : PipePtr) (addr : Word) (n i : Int)
  | writeLoop (p : PipePtr) (addr : Word) (n i : Int)
  | fileread (f : FilePtr) (addr : Word) (n : Int)
  | filewrite (f : FilePtr) (addr : Word) (n i : Int)
  | returned (r : Int)

def IoPc.locked : IoPc → Option PipePtr
  | .readCopy p _ _ _ => some p
  | .writeLoop p _ _ _ => some p
  | _ => none

structure World where
  file : FilePtr → File
  pipe : PipePtr → Pipe
  fs : Fs
  killed : Bool

structure IoSystem where
  caller : Caller
  ofile : Nat → Option FilePtr
  world : World
  pc : IoPc
  touched : List Word

/-- Steps of the process and of the others. -/
inductive IoAction where
  | read
  | write
  | advance
  | others (world : World)

namespace IoSystem

def addresses (addr : Word) (n : Nat) : List Word :=
  (List.range n).map fun i => addr + BitVec.ofNat 32 i

def finish (s : IoSystem) (r : Int) : IoSystem := { s with pc := .returned r }

def copyOut (s : IoSystem) (addr : Word) (bytes : List Byte) : IoSystem :=
  { s with
    caller := { s.caller with mem := ByteSpace.write s.caller.mem addr bytes }
    touched := s.touched ++ addresses addr bytes.length }

def copyIn (s : IoSystem) (addr : Word) (n : Nat) : List Byte × IoSystem :=
  (ByteSpace.read s.caller.mem addr n, { s with touched := s.touched ++ addresses addr n })

def setPipe (s : IoSystem) (p : PipePtr) (pipe : Pipe) : IoSystem :=
  { s with world := { s.world with pipe := Function.update s.world.pipe p pipe } }

def setFile (s : IoSystem) (f : FilePtr) (file : File) : IoSystem :=
  { s with world := { s.world with file := Function.update s.world.file f file } }

def onFs {α : Type} (s : IoSystem) (program : FsM α) : Except Fault (α × IoSystem) := do
  let (result, fs) ← program s.world.fs
  return (result, { s with world := { s.world with fs := fs } })

def argfd (s : IoSystem) (n : Nat) : Option FilePtr := do
  let fd ← s.caller.argint n
  if fd.toInt < 0 ∨ (nofile : Int) ≤ fd.toInt then none else s.ofile fd.toInt.toNat

/-- The arguments of `sys_read` and `sys_write`: a file, an address and a number of bytes. -/
def arguments (s : IoSystem) : Option (FilePtr × Word × Word) := do
  let f ← s.argfd 0
  let n ← s.caller.argint 2
  let p ← s.caller.argptr 1 n
  return (f, p, n)

def fileread (s : IoSystem) (f : FilePtr) (addr : Word) (n : Int) : Except Fault IoSystem :=
  let file := s.world.file f
  if file.readable = false then .ok (s.finish (-1))
  else
    match file.type with
    | .pipe => .ok { s with pc := .readWait file.pipe addr n }
    | .inode => .ok { s with pc := .fileread f addr n }
    | .none => .error (.panic "fileread")

def filewrite (s : IoSystem) (f : FilePtr) (addr : Word) (n : Int) : Except Fault IoSystem :=
  let file := s.world.file f
  if file.writable = false then .ok (s.finish (-1))
  else
    match file.type with
    | .pipe => .ok { s with pc := .writeWait file.pipe addr n 0 }
    | .inode => .ok { s with pc := .filewrite f addr n 0 }
    | .none => .error (.panic "filewrite")

def sysRead (s : IoSystem) : Except Fault IoSystem :=
  match s.arguments with
  | some (f, p, n) => s.fileread f p n.toInt
  | none => .ok (s.finish (-1))

def sysWrite (s : IoSystem) : Except Fault IoSystem :=
  match s.arguments with
  | some (f, p, n) => s.filewrite f p n.toInt
  | none => .ok (s.finish (-1))

def readWait (s : IoSystem) (p : PipePtr) (addr : Word) (n : Int) : IoSystem :=
  let pipe := s.world.pipe p
  if pipe.empty ∧ pipe.writeopen then
    if s.world.killed then s.finish (-1) else s
  else { s with pc := .readCopy p addr n 0 }

def readCopy (s : IoSystem) (p : PipePtr) (addr : Word) (n i : Int) : IoSystem :=
  let pipe := s.world.pipe p
  if n ≤ i ∨ pipe.empty then s.finish i
  else
    let s := s.copyOut (addr + BitVec.ofInt 32 i) [pipe.next.toBitVec]
    { s.setPipe p pipe.drop with pc := .readCopy p addr n (i + 1) }

def writeLoop (s : IoSystem) (p : PipePtr) (addr : Word) (n i : Int) : IoSystem :=
  let pipe := s.world.pipe p
  if n ≤ i then s.finish n
  else if pipe.full then
    if pipe.readopen = false ∨ s.world.killed then s.finish (-1)
    else { s with pc := .writeWait p addr n i }
  else
    let (bytes, s) := s.copyIn (addr + BitVec.ofInt 32 i) 1
    { s.setPipe p (pipe.store ⟨bytes.headD 0⟩) with pc := .writeLoop p addr n (i + 1) }

def readInode (s : IoSystem) (f : FilePtr) (addr : Word) (n : Int) : Except Fault IoSystem := do
  let file := s.world.file f
  let (r, s) ← s.onFs (Fs.readLocked file.ip file.off (BitVec.ofInt 32 n))
  match r with
  | .error bytes => return (s.copyOut addr bytes).finish (-1)
  | .ok bytes =>
    -- the number of bytes is an `uint` in `readi`
    let r := (BitVec.ofNat 32 bytes.length).toInt
    return ((s.copyOut addr bytes).setFile f (file.advance r)).finish r

def maxChunk : Int := ((logSize - 1 - 1 - 2) / 2) * 512

/-- A turn of the loop of `filewrite`. `writei` counts as copying all that it is given. -/
def writeInode (s : IoSystem) (f : FilePtr) (addr : Word) (n i : Int) : Except Fault IoSystem := do
  if n ≤ i then return s.finish (if i = n then n else -1)
  else
    let file := s.world.file f
    let n₁ := if maxChunk < n - i then maxChunk else n - i
    let (bytes, s) := s.copyIn (addr + BitVec.ofInt 32 i) n₁.toNat
    let (r, s) ← s.onFs (Fs.writeLocked file.ip bytes file.off (BitVec.ofInt 32 n₁))
    if r < 0 then return s.finish (if i = n then n else -1)
    else if r ≠ n₁ then throw (.panic "short filewrite")
    else return { s.setFile f (file.advance r) with pc := .filewrite f addr n (i + r) }

def advance (s : IoSystem) : Except Fault IoSystem :=
  match s.pc with
  | .readWait p addr n => .ok (s.readWait p addr n)
  | .readCopy p addr n i => .ok (s.readCopy p addr n i)
  | .writeWait p addr n i => .ok { s with pc := .writeLoop p addr n i }
  | .writeLoop p addr n i => .ok (s.writeLoop p addr n i)
  | .fileread f addr n => s.readInode f addr n
  | .filewrite f addr n i => s.writeInode f addr n i
  | .outside | .returned _ => .error .disabled

/-- Other processes have run: a pipe whose lock the process holds stays as it is. -/
def others (s : IoSystem) (world : World) : IoSystem :=
  match s.pc.locked with
  | some p =>
    { s with world := { world with pipe := Function.update world.pipe p (s.world.pipe p) } }
  | none => { s with world := world }

def step (s : IoSystem) : IoAction → Except Fault IoSystem
  | .read =>
    match s.pc with
    | .outside => s.sysRead
    | _ => .error .disabled
  | .write =>
    match s.pc with
    | .outside => s.sysWrite
    | _ => .error .disabled
  | .advance => s.advance
  | .others world => .ok (s.others world)

end IoSystem

end Xv6
