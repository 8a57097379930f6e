import Xv6.Library.RingBuffer
import Xv6.Param

/-!
# Pipes

`pipewrite`, `piperead` and `pipeclose` of one pipe, run by any number of processes. A step is one
turn of a loop, or the acquisition of `p->lock` at a call or at the end of `sleep`. A process in
`sleep` has given up the lock in the same step, and `wakeup` makes it take the lock again before
it goes on; `kill` wakes it too. The bytes stored and the bytes returned are recorded in order; no
step reads the record.
-/

namespace Xv6

def pipeSize : Nat := 512

instance : NeZero pipeSize := ⟨by decide⟩

structure Pipe where
  data : Fin pipeSize → UInt8
  nread : Word
  nwrite : Word
  readopen : Bool
  writeopen : Bool

/-- Where a process is in the pipe calls. -/
inductive PipePc where
  | outside
  | writeEnter (bytes : List UInt8)
  | writeLoop (rest : List UInt8)
  | writeAsleep (rest : List UInt8)
  | writeWoken (rest : List UInt8)
  | readEnter (n : Int)
  | readWait (n : Int)
  | readAsleep (n : Int)
  | readWoken (n : Int)
  | readCopy (n : Int) (got : List UInt8)
  deriving DecidableEq, Repr

structure PipeSystem (P : Type) where
  pipe : Pipe
  freed : Bool
  lock : Option P
  killed : P → Bool
  pc : P → PipePc
  stored : List UInt8
  returned : List UInt8

/-- Steps of the processes. -/
inductive PipeAction (P : Type) where
  | write (p : P) (bytes : List UInt8)
  | read (p : P) (n : Int)
  | advance (p : P)
  | close (p : P) (writable : Bool)
  | kill (p : P)

def PipePc.wakeReader : PipePc → PipePc
  | .readAsleep n => .readWoken n
  | pc => pc

def PipePc.wakeWriter : PipePc → PipePc
  | .writeAsleep rest => .writeWoken rest
  | pc => pc

namespace Pipe

def full (p : Pipe) : Bool := p.nwrite == p.nread + BitVec.ofNat 32 pipeSize

def empty (p : Pipe) : Bool := p.nread == p.nwrite

def store (p : Pipe) (b : UInt8) : Pipe :=
  { p with
    data := Function.update p.data (Fin.ofNat pipeSize p.nwrite.toNat) b
    nwrite := p.nwrite + 1 }

def next (p : Pipe) : UInt8 := p.data (Fin.ofNat pipeSize p.nread.toNat)

def drop (p : Pipe) : Pipe := { p with nread := p.nread + 1 }

end Pipe

namespace PipeSystem

variable {P : Type} [DecidableEq P]

def opened (data : Fin pipeSize → UInt8) (killed : P → Bool) : PipeSystem P where
  pipe := { data := data, nread := 0, nwrite := 0, readopen := true, writeopen := true }
  freed := false
  lock := none
  killed := killed
  pc := fun _ => .outside
  stored := []
  returned := []

def setPc (m : PipeSystem P) (p : P) (pc : PipePc) : PipeSystem P :=
  { m with pc := Function.update m.pc p pc }

def wakeReaders (m : PipeSystem P) : PipeSystem P :=
  { m with pc := fun p => (m.pc p).wakeReader }

def wakeWriters (m : PipeSystem P) : PipeSystem P :=
  { m with pc := fun p => (m.pc p).wakeWriter }

def release (m : PipeSystem P) : PipeSystem P := { m with lock := none }

def acquire (m : PipeSystem P) (p : P) (pc : PipePc) : Except Fault (PipeSystem P) :=
  if m.lock = none then .ok ({ m with lock := some p }.setPc p pc) else .error .disabled

def writeTurn (m : PipeSystem P) (p : P) : List UInt8 → PipeSystem P
  | [] => m.wakeReaders.release.setPc p .outside
  | b :: rest =>
    if m.pipe.full then
      if m.pipe.readopen = false ∨ m.killed p then
        m.release.setPc p .outside
      else
        m.wakeReaders.release.setPc p (.writeAsleep (b :: rest))
    else
      { m with pipe := m.pipe.store b, stored := m.stored ++ [b] }.setPc p (.writeLoop rest)

def waitTurn (m : PipeSystem P) (p : P) (n : Int) : PipeSystem P :=
  if m.pipe.empty ∧ m.pipe.writeopen then
    if m.killed p then m.release.setPc p .outside else m.release.setPc p (.readAsleep n)
  else m.setPc p (.readCopy n [])

def copyTurn (m : PipeSystem P) (p : P) (n : Int) (got : List UInt8) : PipeSystem P :=
  if (got.length : Int) < n ∧ m.pipe.empty = false then
    { m with pipe := m.pipe.drop }.setPc p (.readCopy n (got ++ [m.pipe.next]))
  else { m with returned := m.returned ++ got }.wakeWriters.release.setPc p .outside

def close (m : PipeSystem P) (writable : Bool) : PipeSystem P :=
  let m := if writable then
    { m with pipe := { m.pipe with writeopen := false } }.wakeReaders
  else { m with pipe := { m.pipe with readopen := false } }.wakeWriters
  { m with freed := m.pipe.readopen = false ∧ m.pipe.writeopen = false }

def kill (m : PipeSystem P) (p : P) : PipeSystem P :=
  { m with killed := Function.update m.killed p true }.setPc p (m.pc p).wakeReader.wakeWriter

/-- One step of a process, if control allows it. No call goes on in a pipe that was freed. -/
def step (m : PipeSystem P) : PipeAction P → Except Fault (PipeSystem P)
  | .kill p => .ok (m.kill p)
  | .write p bytes =>
    if m.freed = false ∧ m.pc p = .outside then .ok (m.setPc p (.writeEnter bytes))
    else .error .disabled
  | .read p n =>
    if m.freed = false ∧ m.pc p = .outside then .ok (m.setPc p (.readEnter n))
    else .error .disabled
  | .close p writable =>
    if m.freed = false ∧ m.pc p = .outside ∧ m.lock = none then .ok (m.close writable)
    else .error .disabled
  | .advance p =>
    if m.freed then .error .disabled
    else match m.pc p with
      | .writeEnter bytes => m.acquire p (.writeLoop bytes)
      | .writeWoken rest => m.acquire p (.writeLoop rest)
      | .readEnter n => m.acquire p (.readWait n)
      | .readWoken n => m.acquire p (.readWait n)
      | .writeLoop rest => .ok (m.writeTurn p rest)
      | .readWait n => .ok (m.waitTurn p n)
      | .readCopy n got => .ok (m.copyTurn p n got)
      | .outside | .writeAsleep _ | .readAsleep _ => .error .disabled

end PipeSystem

end Xv6
