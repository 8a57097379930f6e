import Xv6.Log.Disk

/-!
# The log and its processes

`begin_op`, `log_write`, `end_op` and `commit` run by any number of processes. A step is what a
process does under one acquisition of `log.lock`, the unlocked tests at the head of `log_write`,
or one stage of `commit`, which runs without the lock. The events record the admissions, logged
blocks, ends and commits in order; no step reads them.
-/

namespace Xv6

/-- The stages of `commit`, named by what comes next. -/
inductive CommitStage where
  | test
  | writeLog
  | writeHead
  | installTrans
  | clear
  | erase
  | finish
  deriving DecidableEq, Repr

/-- Where a process is in the log calls. -/
inductive LogPc where
  | idle
  | asleep
  | woken
  | inOp
  | logging (b : BlockNo)
  | commit (stage : CommitStage)
  deriving DecidableEq, Repr

/-- What happens to the operations of a log. -/
inductive LogEvent (P : Type) where
  | began (p : P)
  | logged (p : P) (b : BlockNo)
  | ended (p : P)
  | committed (blocks : List BlockNo)
  deriving DecidableEq, Repr

structure LogSystem (P : Type) where
  start : BlockNo
  size : Int
  outstanding : Int
  committing : Bool
  lh : List BlockNo
  store : Store
  pc : P → LogPc
  events : List (LogEvent P)

/-- Steps of the processes. -/
inductive LogAction (P : Type) where
  | beginOp (p : P)
  | logWrite (p : P) (b : BlockNo) (data : Block)
  | append (p : P)
  | endOp (p : P)
  | commit (p : P)

/-- The search loop of `log_write` and the store behind it: a block that is listed is absorbed,
another is added. -/
def absorb (b : BlockNo) : List BlockNo → List BlockNo
  | [] => [b]
  | first :: rest => if first = b then b :: rest else first :: absorb b rest

namespace LogSystem

variable {P : Type} [DecidableEq P]

def booted (start : BlockNo) (size : Int) (store : Store) : LogSystem P where
  start := start
  size := size
  outstanding := 0
  committing := false
  lh := []
  store := store
  pc := fun _ => .idle
  events := []

def setPc (m : LogSystem P) (p : P) (pc : LogPc) : LogSystem P :=
  { m with pc := Function.update m.pc p pc }

def wakeup (m : LogSystem P) : LogSystem P :=
  { m with pc := fun p => if m.pc p = .asleep then .woken else m.pc p }

def record (m : LogSystem P) (event : LogEvent P) : LogSystem P :=
  { m with events := m.events ++ [event] }

def beginOp (m : LogSystem P) (p : P) : LogSystem P :=
  if m.committing then
    m.setPc p .asleep
  else if (m.lh.length : Int) + (m.outstanding + 1) * maxOpBlocks > logSize then
    -- this op might exhaust log space; wait for commit
    m.setPc p .asleep
  else
    ({ m with outstanding := m.outstanding + 1 }.setPc p .inOp).record (.began p)

def logWrite (m : LogSystem P) (p : P) (b : BlockNo) (data : Block) :
    Except Fault (LogSystem P) :=
  if logSize ≤ m.lh.length ∨ m.size - 1 ≤ m.lh.length then
    .error (.panic "too big a transaction")
  else if m.outstanding < 1 then
    .error (.panic "log_write outside of trans")
  else
    .ok ({ m with store := { m.store with
      cache := Function.update m.store.cache b (some data) } }.setPc p (.logging b))

def append (m : LogSystem P) (p : P) (b : BlockNo) : Except Fault (LogSystem P) :=
  if logSize < (absorb b m.lh).length then .error .outOfBounds
  else .ok (({ m with lh := absorb b m.lh }.setPc p .inOp).record (.logged p b))

def endOp (m : LogSystem P) (p : P) : Except Fault (LogSystem P) :=
  let m := { m with outstanding := m.outstanding - 1 }
  if m.committing then .error (.panic "log.committing")
  else if m.outstanding = 0 then
    .ok (({ m with committing := true }.setPc p (.commit .test)).record (.ended p))
  else .ok ((m.wakeup.setPc p .idle).record (.ended p))

/-- One stage of `commit` and the return from it into `end_op`. The first `write_head` is the
commit point; an empty transaction commits by its test. -/
def commitStep (m : LogSystem P) (p : P) : CommitStage → LogSystem P
  | .test =>
    if 0 < m.lh.length then m.setPc p (.commit .writeLog)
    else (m.setPc p (.commit .finish)).record (.committed m.lh)
  | .writeLog =>
    { m with store := Xv6.writeLog m.start 0 m.lh m.store }.setPc p (.commit .writeHead)
  | .writeHead =>
    ({ m with store := Xv6.writeHead m.start m.lh m.store }.setPc p
      (.commit .installTrans)).record (.committed m.lh)
  | .installTrans =>
    { m with store := Xv6.installTrans m.start 0 m.lh m.store }.setPc p (.commit .clear)
  | .clear => { m with lh := [] }.setPc p (.commit .erase)
  | .erase =>
    { m with store := Xv6.writeHead m.start m.lh m.store }.setPc p (.commit .finish)
  | .finish => { m with committing := false }.wakeup.setPc p .idle

def step (m : LogSystem P) : LogAction P → Except Fault (LogSystem P)
  | .beginOp p =>
    match m.pc p with
    | .idle | .woken => .ok (m.beginOp p)
    | _ => .error .disabled
  | .logWrite p b data =>
    match m.pc p with
    | .inOp => m.logWrite p b data
    | _ => .error .disabled
  | .append p =>
    match m.pc p with
    | .logging b => m.append p b
    | _ => .error .disabled
  | .endOp p =>
    match m.pc p with
    | .inOp => m.endOp p
    | _ => .error .disabled
  | .commit p =>
    match m.pc p with
    | .commit stage => .ok (m.commitStep p stage)
    | _ => .error .disabled

end LogSystem

end Xv6
