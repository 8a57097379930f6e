import Xv6.Cache.Bcache
import Xv6.Log.System

/-!
# The buffer cache and its processes

Processes call `bread`, `log_write` and `brelse`, inside and outside of operations, while the
process that ended the last operation runs `commit`, and the first process runs the recovery at
boot. A step is a critical section of `bcache.lock` or `log.lock`, the tests of `log_write`, or a
disk transfer; the buffer in transfer is busy, so nothing else happens to it meanwhile. Each
process has the buffers that `bread` gave it and `brelse` has not taken back.
-/

namespace Xv6

/-- The loops and blocks of `commit` and of the recovery. -/
inductive SyncPhase where
  | readHead
  | writeLog
  | commitHead
  | install
  | eraseHead
  | finish
  deriving DecidableEq, Repr

/-- Where `commit` is in a turn of a loop, or in the reading or writing of the header. -/
inductive SyncLine where
  | top
  | one (b : BufNo)
  | two (b c : BufNo)
  | written (b c : BufNo)
  | last (b : BufNo)
  deriving DecidableEq, Repr

structure Sync where
  recovery : Bool
  phase : SyncPhase
  tail : Nat
  line : SyncLine
  deriving DecidableEq, Repr

/-- What a process is doing with the log. -/
inductive Job where
  | outside
  | inOp
  | sync (s : Sync)
  deriving DecidableEq, Repr

/-- Where a process is in the calls of the cache. -/
inductive BufPc where
  | ready
  | bget (dev : Word) (blockno : BlockNo)
  | asleep (b : BufNo) (dev : Word) (blockno : BlockNo)
  | transfer (b : BufNo)
  | logging (b : BufNo) (data : Block)

structure CacheSystem (P : Type) where
  start : BlockNo
  size : Int
  havedisk1 : Bool
  cache : Bcache
  disk : Bool → BlockNo → Block
  outstanding : Int
  committing : Bool
  recovered : Bool
  lh : List BlockNo
  pc : P → BufPc
  job : P → Job
  held : P → List BufNo

/-- Steps of the processes. -/
inductive CacheAction (P : Type) where
  | beginOp (p : P)
  | endOp (p : P)
  | bread (p : P) (dev : Word) (blockno : BlockNo)
  | logWrite (p : P) (b : BufNo) (data : Block)
  | brelse (p : P) (b : BufNo)
  | advance (p : P)

def drive (dev : Word) : Bool := dev.getLsbD 0

def SyncLine.receive : SyncLine → BufNo → SyncLine
  | .top, b => .one b
  | .one b, c => .two b c
  | line, _ => line

def Job.receive : Job → BufNo → Job
  | .sync s, b => .sync { s with line := s.line.receive b }
  | job, _ => job

def BufPc.wake (b : BufNo) : BufPc → BufPc
  | .asleep c dev blockno => if c = b then .bget dev blockno else .asleep c dev blockno
  | pc => pc

namespace CacheSystem

variable {P : Type} [DecidableEq P]

def booted (start : BlockNo) (size : Int) (havedisk1 : Bool) (disk : Bool → BlockNo → Block)
    (first : P) : CacheSystem P where
  start := start
  size := size
  havedisk1 := havedisk1
  cache := Bcache.binit
  disk := disk
  outstanding := 0
  committing := false
  recovered := false
  lh := []
  pc := fun _ => .ready
  job := Function.update (fun _ => .outside) first (.sync ⟨true, .readHead, 0, .top⟩)
  held := fun _ => []

def setPc (m : CacheSystem P) (p : P) (pc : BufPc) : CacheSystem P :=
  { m with pc := Function.update m.pc p pc }

def setJob (m : CacheSystem P) (p : P) (job : Job) : CacheSystem P :=
  { m with job := Function.update m.job p job }

def setHeld (m : CacheSystem P) (p : P) (held : List BufNo) : CacheSystem P :=
  { m with held := Function.update m.held p held }

def wakeup (m : CacheSystem P) (b : BufNo) : CacheSystem P :=
  { m with pc := fun p => (m.pc p).wake b }

abbrev buf (m : CacheSystem P) (b : BufNo) : Buf := m.cache.buf b

def setBuf (m : CacheSystem P) (b : BufNo) (buffer : Buf) : CacheSystem P :=
  { m with cache := m.cache.setBuf b buffer }

def bget (m : CacheSystem P) (p : P) (dev : Word) (blockno : BlockNo) :
    Except Fault (CacheSystem P) :=
  match m.cache.bget dev blockno with
  | .error fault => .error fault
  | .ok (cache, .sleeps b) => .ok ({ m with cache := cache }.setPc p (.asleep b dev blockno))
  | .ok (cache, .returns b) =>
    .ok ((({ m with cache := cache }.setHeld p (b :: m.held p)).setJob p
      ((m.job p).receive b)).setPc p (if (cache.buf b).valid then .ready else .transfer b))

def iderw (m : CacheSystem P) (p : P) (b : BufNo) : Except Fault (CacheSystem P) :=
  let buffer := m.buf b
  if buffer.busy = false then .error (.panic "iderw: buf not busy")
  else if buffer.valid ∧ buffer.dirty = false then .error (.panic "iderw: nothing to do")
  else if buffer.dev ≠ 0 ∧ m.havedisk1 = false then .error (.panic "iderw: ide disk 1 not present")
  else if fsSize ≤ buffer.blockno.toNat then .error (.panic "incorrect blockno")
  else if buffer.dirty then
    let disk := Function.update m.disk (drive buffer.dev)
      (Function.update (m.disk (drive buffer.dev)) buffer.blockno buffer.data)
    .ok ((({ m with disk := disk }.setBuf b
      { buffer with valid := true, dirty := false }).wakeup b).setPc p .ready)
  else
    .ok (((m.setBuf b
      { buffer with
        data := m.disk (drive buffer.dev) buffer.blockno
        valid := true }).wakeup b).setPc p .ready)

def bwrite (m : CacheSystem P) (p : P) (b : BufNo) (data : Block) : Except Fault (CacheSystem P) :=
  if (m.buf b).busy then
    .ok ((m.setBuf b { m.buf b with data := data, dirty := true }).setPc p (.transfer b))
  else .error (.panic "bwrite")

def brelse (m : CacheSystem P) (p : P) (b : BufNo) : Except Fault (CacheSystem P) :=
  match m.cache.brelse b with
  | .error fault => .error fault
  | .ok cache => .ok (({ m with cache := cache }.setHeld p ((m.held p).erase b)).wakeup b)

def logWrite (m : CacheSystem P) (p : P) (b : BufNo) (data : Block) :
    Except Fault (CacheSystem P) :=
  if logSize ≤ m.lh.length ∨ m.size - 1 ≤ m.lh.length then
    .error (.panic "too big a transaction")
  else if m.outstanding < 1 then
    .error (.panic "log_write outside of trans")
  else .ok (m.setPc p (.logging b data))

def append (m : CacheSystem P) (p : P) (b : BufNo) (data : Block) : Except Fault (CacheSystem P) :=
  let lh := absorb (m.buf b).blockno m.lh
  if logSize < lh.length then .error .outOfBounds
  else .ok (({ m with lh := lh }.setBuf b { m.buf b with data := data, dirty := true }).setPc p
    .ready)

def beginOp (m : CacheSystem P) (p : P) : Except Fault (CacheSystem P) :=
  if m.recovered = false ∨ m.committing ∨
      (m.lh.length : Int) + (m.outstanding + 1) * maxOpBlocks > logSize then .error .disabled
  else .ok ({ m with outstanding := m.outstanding + 1 }.setJob p .inOp)

def endOp (m : CacheSystem P) (p : P) : Except Fault (CacheSystem P) :=
  let m := { m with outstanding := m.outstanding - 1 }
  if m.committing then .error (.panic "log.committing")
  else if m.outstanding = 0 then
    .ok ({ m with committing := true }.setJob p
      (.sync ⟨false, if 0 < m.lh.length then .writeLog else .finish, 0, .top⟩))
  else .ok (m.setJob p .outside)

def syncStep (m : CacheSystem P) (p : P) (s : Sync) : Except Fault (CacheSystem P) :=
  let at_ (phase : SyncPhase) (tail : Nat) (line : SyncLine) (m : CacheSystem P) :=
    m.setJob p (.sync { s with phase := phase, tail := tail, line := line })
  match s.phase, s.line with
  | .readHead, .top => .ok (m.setPc p (.bget rootDev m.start))
  | .readHead, .one b => do
    let lh ← readHead (m.buf b).data
    return at_ .readHead 0 (.last b) { m with lh := lh }
  | .readHead, .last b => at_ .install 0 .top <$> m.brelse p b
  | .writeLog, .top =>
    if s.tail < m.lh.length then .ok (m.setPc p (.bget rootDev (logBlock m.start s.tail)))
    else .ok (at_ .commitHead 0 .top m)
  | .writeLog, .one _ => .ok (m.setPc p (.bget rootDev (m.lh.getD s.tail 0)))
  | .writeLog, .two target source =>
    at_ .writeLog s.tail (.written source target) <$> m.bwrite p target (m.buf source).data
  | .install, .top =>
    if s.tail < m.lh.length then .ok (m.setPc p (.bget rootDev (logBlock m.start s.tail)))
    else .ok (at_ .eraseHead 0 .top { m with lh := [] })
  | .install, .one _ => .ok (m.setPc p (.bget rootDev (m.lh.getD s.tail 0)))
  | .install, .two lbuf dbuf =>
    at_ .install s.tail (.written lbuf dbuf) <$> m.bwrite p dbuf (m.buf lbuf).data
  | .writeLog, .written source target => at_ .writeLog s.tail (.last target) <$> m.brelse p source
  | .install, .written lbuf dbuf => at_ .install s.tail (.last dbuf) <$> m.brelse p lbuf
  | .writeLog, .last target => at_ .writeLog (s.tail + 1) .top <$> m.brelse p target
  | .install, .last dbuf => at_ .install (s.tail + 1) .top <$> m.brelse p dbuf
  | .commitHead, .top => .ok (m.setPc p (.bget rootDev m.start))
  | .commitHead, .one b =>
    at_ .commitHead 0 (.last b) <$> m.bwrite p b (fillHead (m.buf b).data m.lh)
  | .commitHead, .last b => at_ .install 0 .top <$> m.brelse p b
  | .eraseHead, .top => .ok (m.setPc p (.bget rootDev m.start))
  | .eraseHead, .one b =>
    at_ .eraseHead 0 (.last b) <$> m.bwrite p b (fillHead (m.buf b).data m.lh)
  | .eraseHead, .last b => at_ .finish 0 .top <$> m.brelse p b
  | .finish, .top =>
    if s.recovery then .ok ({ m with recovered := true }.setJob p .outside)
    else .ok ({ m with committing := false }.setJob p .outside)
  | _, _ => .error .disabled

def step (m : CacheSystem P) : CacheAction P → Except Fault (CacheSystem P)
  | .beginOp p =>
    match m.pc p, m.job p with
    | .ready, .outside => m.beginOp p
    | _, _ => .error .disabled
  | .endOp p =>
    match m.pc p, m.job p with
    | .ready, .inOp => m.endOp p
    | _, _ => .error .disabled
  | .bread p dev blockno =>
    match m.pc p, m.job p with
    | .ready, .outside | .ready, .inOp => .ok (m.setPc p (.bget dev blockno))
    | _, _ => .error .disabled
  | .logWrite p b data =>
    match m.pc p, m.job p with
    | .ready, .inOp => if b ∈ m.held p then m.logWrite p b data else .error .disabled
    | _, _ => .error .disabled
  | .brelse p b =>
    match m.pc p, m.job p with
    | .ready, .outside | .ready, .inOp =>
      if b ∈ m.held p then m.brelse p b else .error .disabled
    | _, _ => .error .disabled
  | .advance p =>
    match m.pc p, m.job p with
    | .bget dev blockno, _ => m.bget p dev blockno
    | .transfer b, _ => m.iderw p b
    | .logging b data, _ => m.append p b data
    | .ready, .sync s => m.syncStep p s
    | _, _ => .error .disabled

end CacheSystem

end Xv6
