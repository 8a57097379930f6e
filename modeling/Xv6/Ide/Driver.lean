import Xv6.Cache.Bcache
import Xv6.Library.Chain
import Xv6.Library.Run

/-!
# The disk drivers

`ide.c`, which queues requests and is driven by interrupts, and `memide.c`, which serves each
request at once from memory. A step of the first is what runs under one acquisition of `idelock`:
the call of `iderw` up to its `sleep`, the test behind it, or `ideintr`. The drive takes one
command at a time, carries it out and raises one interrupt; it reports no errors. A caller of
`iderw` has filled the buffer it holds beforehand, so the call carries what it filled in. The
requests, starts, completions and returns are recorded in order; no step reads the record.
-/

namespace Xv6

structure IdeRequest where
  b : BufNo
  image : Buf

structure IdeCommand where
  device : Word
  sector : BlockNo
  write : Option Block

/-- What the drive is doing. -/
inductive DriveState where
  | idle
  | working (c : IdeCommand)
  | ready (c : IdeCommand)

/-- Where a process is in `iderw`. -/
inductive IdePc where
  | outside
  | asleep (b : BufNo) (n : Nat)
  | woken (b : BufNo) (n : Nat)
  deriving DecidableEq, Repr

def IdePc.on (b : BufNo) : IdePc → Prop
  | .outside => False
  | .asleep c _ | .woken c _ => c = b

instance (b : BufNo) : (pc : IdePc) → Decidable (pc.on b)
  | .outside => inferInstanceAs (Decidable False)
  | .asleep c _ => inferInstanceAs (Decidable (c = b))
  | .woken c _ => inferInstanceAs (Decidable (c = b))

structure IdeSystem (P : Type) where
  havedisk1 : Bool
  buf : BufNo → Buf
  qnext : BufNo → Option BufNo
  idequeue : Option BufNo
  disk : Word → BlockNo → Block
  drive : DriveState
  pc : P → IdePc
  requests : List IdeRequest
  started : List BufNo
  completed : List BufNo
  returned : List Nat

/-- Steps of the driver. -/
inductive IdeAction (P : Type) where
  | iderw (p : P) (b : BufNo) (image : Buf)
  | advance (p : P)
  | finish
  | interrupt
  | kill (p : P)

def Buf.synced (buf : Buf) : Bool := buf.valid && !buf.dirty

def Buf.command (buf : Buf) : IdeCommand where
  device := buf.dev &&& 1
  sector := buf.blockno &&& 0x0FFFFFFF
  write := if buf.dirty then some buf.data else none

def IdeCommand.perform (c : IdeCommand) (disk : Word → BlockNo → Block) :
    Word → BlockNo → Block :=
  match c.write with
  | some data => Function.update disk c.device (Function.update (disk c.device) c.sector data)
  | none => disk

def IdeCommand.transfers (c : IdeCommand) (disk : Word → BlockNo → Block) : Block :=
  disk c.device c.sector

def IdePc.wake (b : BufNo) : IdePc → IdePc
  | .asleep c n => if c = b then .woken c n else .asleep c n
  | pc => pc

namespace IdeSystem

variable {P : Type} [DecidableEq P]

def booted (disk : Word → BlockNo → Block) (buf : BufNo → Buf) : IdeSystem P where
  havedisk1 := true
  buf := buf
  qnext := fun _ => none
  idequeue := none
  disk := disk
  drive := .idle
  pc := fun _ => .outside
  requests := []
  started := []
  completed := []
  returned := []

def setPc (m : IdeSystem P) (p : P) (pc : IdePc) : IdeSystem P :=
  { m with pc := Function.update m.pc p pc }

/-- `idestart`. A drive that still works finishes first, since `idewait` waits for it. -/
def idestart (m : IdeSystem P) (b : BufNo) : Except Fault (IdeSystem P) :=
  if fsSize ≤ (m.buf b).blockno.toNat then .error (.panic "incorrect blockno")
  else .ok { m with
    disk := match m.drive with
      | .working c => c.perform m.disk
      | _ => m.disk
    drive := .working (m.buf b).command
    started := m.started ++ [b] }

def await (m : IdeSystem P) (p : P) (b : BufNo) (n : Nat) : IdeSystem P :=
  if (m.buf b).synced then { m with returned := m.returned ++ [n] }.setPc p .outside
  else m.setPc p (.asleep b n)

def enqueue (m : IdeSystem P) (b : BufNo) : Except Fault (IdeSystem P) :=
  match Chain.pushBack nbuf (Function.update m.qnext b none) m.idequeue b with
  | some (qnext, idequeue) => .ok { m with qnext := qnext, idequeue := idequeue }
  | none => .error .diverges

def iderw (m : IdeSystem P) (p : P) (b : BufNo) (image : Buf) : Except Fault (IdeSystem P) :=
  let m := { m with buf := Function.update m.buf b image }
  if image.busy = false then .error (.panic "iderw: buf not busy")
  else if image.synced then .error (.panic "iderw: nothing to do")
  else if image.dev ≠ 0 ∧ m.havedisk1 = false then
    .error (.panic "iderw: ide disk 1 not present")
  else do
    let m ← { m with requests := m.requests ++ [IdeRequest.mk b image] }.enqueue b
    -- start disk if necessary
    let m ← if m.idequeue = some b then m.idestart b else pure m
    return m.await p b (m.requests.length - 1)

def ideintr (m : IdeSystem P) (c : IdeCommand) : Except Fault (IdeSystem P) :=
  let m := { m with drive := .idle }
  match m.idequeue with
  | none => .ok m
  | some b =>
    let buffer := m.buf b
    let data := if buffer.dirty then buffer.data else c.transfers m.disk
    let m := { m with
      idequeue := m.qnext b
      buf := Function.update m.buf b { buffer with data := data, valid := true, dirty := false }
      pc := fun p => (m.pc p).wake b
      completed := m.completed ++ [b] }
    -- start disk on next buf in queue
    match m.idequeue with
    | some next => m.idestart next
    | none => .ok m

def step (m : IdeSystem P) : IdeAction P → Except Fault (IdeSystem P)
  | .iderw p b image => if m.pc p = .outside then m.iderw p b image else .error .disabled
  | .advance p =>
    match m.pc p with
    | .woken b n => .ok (m.await p b n)
    | _ => .error .disabled
  | .finish =>
    match m.drive with
    | .working c => .ok { m with disk := c.perform m.disk, drive := .ready c }
    | _ => .error .disabled
  | .interrupt =>
    match m.drive with
    | .ready c => m.ideintr c
    | _ => .error .disabled
  | .kill p =>
    match m.pc p with
    | .asleep b n => .ok (m.setPc p (.woken b n))
    | _ => .ok m

end IdeSystem

structure MemIde where
  disk : BlockNo → Block
  buf : BufNo → Buf

namespace MemIde

/-- `iderw` of `memide.c`, on a buffer that its holder has filled. The image that is linked in
has `FSSIZE` blocks. -/
def iderw (m : MemIde) (request : IdeRequest) : Except Fault MemIde :=
  let buffer := request.image
  if buffer.busy = false then .error (.panic "iderw: buf not busy")
  else if buffer.synced then .error (.panic "iderw: nothing to do")
  else if buffer.dev ≠ 1 then .error (.panic "iderw: request not for disk 1")
  else if fsSize ≤ buffer.blockno.toNat then .error (.panic "iderw: block out of range")
  else if buffer.dirty then
    .ok {
      disk := Function.update m.disk buffer.blockno buffer.data
      buf := Function.update m.buf request.b { buffer with dirty := false, valid := true } }
  else
    .ok { m with
      buf := Function.update m.buf request.b
        { buffer with data := m.disk buffer.blockno, valid := true } }

end MemIde

end Xv6
