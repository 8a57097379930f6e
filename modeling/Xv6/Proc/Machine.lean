import Xv6.Library.Run
import Xv6.Proc.Calls

/-!
# CPUs, locks and kernel threads

The machine interleaves the kernel threads of any number of CPUs. A step is one atomic piece of
one CPU's path: an `acquire` or a `release`, the work of a critical section of `ptable.lock`, one
of the unlocked stores of `fork` and `allocproc`, or one turn of the loop of `scheduler`. The
work of a critical section is one step because every access to the table that another CPU makes
is under the same lock, apart from the unlocked stores, which are steps of their own. `swtch`
hands the lock from a process to the scheduler of its CPU and back, so it is part of the step
that calls it.

The kernel code outside these functions is any sequence of calls and of acquires and releases
of any locks. Failures of `kalloc` and `copyuvm` are choices of the run. The interrupt flag is
not held here; a handler that interrupts a process runs as that process's own calls, and one
that interrupts an idle CPU has its own control state.
-/

namespace Xv6

/-- A spin lock: `ptable.lock`, or any other. -/
inductive Lock where
  | ptable
  | other (n : Nat)
  deriving DecidableEq, Repr

/-- Where the `swtch` of `sched` returns to in a process. -/
inductive Resume where
  | forkret
  | yield
  | sleep (lk : Lock)
  | wait
  | exit
  deriving DecidableEq, Repr

/-- The critical sections of `ptable.lock` that a process runs. -/
inductive Section where
  | allocproc
  | forkFailed (np : Slot)
  | forkDone (np : Slot) (pid : Word)
  | exit
  | wait
  | yield
  | sleep (chan : Chan) (n : Nat)
  | wakeup (chan : Chan)
  | kill (pid : Word)
  | setPriority (pid : Word) (priority : Int)
  deriving DecidableEq, Repr

/-- What follows the release of `ptable.lock`. -/
inductive After where
  | ret (result : Option Word)
  | relock (n : Nat)
  deriving DecidableEq, Repr

/-- Where the kernel thread of a process is. -/
inductive Pc where
  | ready
  | acquiring (body : Section)
  | inside (body : Section)
  | unlocking (chan : Chan) (n : Nat)
  | releasing (after : After)
  | switched (resume : Resume)
  deriving DecidableEq, Repr

/-- How far `fork` has come between its critical sections, or `sleep` behind its last one. Meanwhile
an interrupt may make calls. -/
inductive Forking where
  | none
  | relock (n : Nat)
  | kalloc (np : Slot)
  | copyuvm (np : Slot)
  | failed (np : Slot)
  | parent (np : Slot)
  | inherit (np : Slot)
  | done (np : Slot) (pid : Word)
  deriving DecidableEq, Repr

/-- Where an interrupt handler on an idle CPU is; it may call `wakeup`. -/
inductive Handler where
  | ready
  | acquiring (chan : Chan)
  | inside (chan : Chan)
  | releasing
  deriving DecidableEq, Repr

/-- Where the scheduler of a CPU is. -/
inductive SchedPc where
  | idle
  | handler (h : Handler)
  | scan (i : Nat)
  | running (i : Nat)
  deriving DecidableEq, Repr

structure Machine (Cpu : Type) where
  table : Ptable
  locks : Lock → Option Cpu
  proc : Cpu → Option Slot
  ncli : Cpu → Nat
  sched : Cpu → SchedPc
  pc : Slot → Pc
  fork : Slot → Forking

/-- The system calls and kernel functions that a process calls. -/
inductive Call where
  | fork
  | exit
  | wait
  | yield
  | sleep (chan : Chan) (lk : Lock)
  | wakeup (chan : Chan)
  | kill (pid : Word)
  | setPriority (pid priority : Word)
  deriving DecidableEq, Repr

/-- The calls that an interrupt handler makes on the interrupted process: `yield` from the clock,
`wakeup` from a device. -/
def Call.fromInterrupt : Call → Bool
  | .yield | .wakeup _ => true
  | _ => false

/-- The steps of the machine, each taken by one CPU. -/
inductive Action (Cpu : Type) where
  | advance (c : Cpu)
  | call (c : Cpu) (call : Call)
  | fork (c : Cpu) (ok : Bool)
  | acquire (c : Cpu) (lk : Lock)
  | release (c : Cpu) (lk : Lock)
  | trap (c : Cpu)
  | interrupt (c : Cpu)
  | iret (c : Cpu)
  deriving DecidableEq, Repr

def Action.cpu {Cpu : Type} : Action Cpu → Cpu
  | .advance c | .call c _ | .fork c _ | .acquire c _ | .release c _ | .trap c | .interrupt c
  | .iret c => c

namespace Machine

variable {Cpu : Type} [DecidableEq Cpu]

def setPc (m : Machine Cpu) (p : Slot) (pc : Pc) : Machine Cpu :=
  { m with pc := Function.update m.pc p pc }

def setSched (m : Machine Cpu) (c : Cpu) (sched : SchedPc) : Machine Cpu :=
  { m with sched := Function.update m.sched c sched }

def acquire (m : Machine Cpu) (c : Cpu) (lk : Lock) : Except Fault (Machine Cpu) :=
  match m.locks lk with
  | none => .ok { m with
      locks := Function.update m.locks lk (some c)
      ncli := Function.update m.ncli c (m.ncli c + 1) }
  | some holder => if holder = c then .error (.panic "acquire") else .error .disabled

def release (m : Machine Cpu) (c : Cpu) (lk : Lock) : Except Fault (Machine Cpu) :=
  if m.locks lk ≠ some c then .error (.panic "release")
  else if m.ncli c = 0 then .error (.panic "popcli")
  else .ok { m with
      locks := Function.update m.locks lk none
      ncli := Function.update m.ncli c (m.ncli c - 1) }

/-- `sched` with its `swtch` to the scheduler, which clears `cpu->proc` and goes on in its loop. -/
def switch (m : Machine Cpu) (c : Cpu) (p : Slot) (resume : Resume) :
    Except Fault (Machine Cpu) :=
  if m.locks .ptable ≠ some c then .error (.panic "sched ptable.lock")
  else if m.ncli c ≠ 1 then .error (.panic "sched locks")
  else if m.table.state p = .running then .error (.panic "sched running")
  else match m.sched c with
    | .running i => .ok { m with
        pc := Function.update m.pc p (.switched resume)
        proc := Function.update m.proc c none
        sched := Function.update m.sched c (.scan i) }
    | _ => .error .disabled

/-- One turn of the loop of `scheduler`. A process taken off a list is switched to; the loop then
goes on at the first list, or after the lowest one leaves the loop and releases the lock. -/
def scan (m : Machine Cpu) (c : Cpu) (i : Nat) : Except Fault (Machine Cpu) :=
  if inside : i < size then
    match m.table.readyList ⟨i, inside⟩ with
    | none => .ok (m.setSched c (.scan (i + 1)))
    | some p => do
      let table ← m.table.dispatch p
      .ok { m with
        table
        proc := Function.update m.proc c (some p)
        sched := Function.update m.sched c (.running (if i ≠ 2 then 0 else i + 1)) }
  else do
    let m ← m.release c .ptable
    .ok (m.setSched c .idle)

def waitLoop (m : Machine Cpu) (c : Cpu) (p : Slot) : Except Fault (Machine Cpu) :=
  match m.table.waitScan p Ptable.slots false with
  | (some q, _) =>
    .ok ({ m with table := m.table.reap q }.setPc p (.releasing (.ret (some (m.table.pid q)))))
  | (none, havekids) =>
    if !havekids || m.table.killed p then .ok (m.setPc p (.releasing (.ret (some (-1)))))
    else { m with table := m.table.goToSleep p (.proc p) }.switch c p .wait

def work (m : Machine Cpu) (c : Cpu) (p : Slot) : Section → Except Fault (Machine Cpu)
  | .allocproc =>
    match m.table.allocproc with
    | none => .ok (m.setPc p (.releasing (.ret (some (-1)))))
    | some (table, np) =>
      .ok ({ m with table, fork := Function.update m.fork p (.kalloc np) }.setPc p
        (.releasing (.ret none)))
  | .forkFailed np => do
    let table ← m.table.putOnFreeList np
    .ok ({ m with table, fork := Function.update m.fork p .none }.setPc p
      (.releasing (.ret (some (-1)))))
  | .forkDone np pid => do
    let table ← m.table.forkDone np
    .ok ({ m with table, fork := Function.update m.fork p .none }.setPc p
      (.releasing (.ret (some pid))))
  | .exit => do
    let table ← m.table.exit p
    { m with table }.switch c p .exit
  | .wait => m.waitLoop c p
  | .yield => do
    let table ← m.table.yield p
    { m with table }.switch c p .yield
  | .sleep chan n =>
    { m with table := m.table.goToSleep p chan }.switch c p (.sleep (.other n))
  | .wakeup chan => do
    let table ← m.table.wakeup1 chan
    .ok ({ m with table }.setPc p (.releasing (.ret none)))
  | .kill pid => do
    let (table, result) ← m.table.kill pid
    .ok ({ m with table }.setPc p (.releasing (.ret (some result))))
  | .setPriority pid priority => do
    let (table, result) ← m.table.setPriority pid priority
    .ok ({ m with table }.setPc p (.releasing (.ret (some result))))

/-- The return of `swtch` in a process: `forkret` and `yield` release the lock, `sleep` clears the
channel and gives the lock up if it was called with another one, `wait` scans again. -/
def resume (m : Machine Cpu) (p : Slot) : Resume → Except Fault (Machine Cpu)
  | .forkret | .yield => .ok (m.setPc p (.releasing (.ret none)))
  | .sleep .ptable => .ok ({ m with table := m.table.tidyUp p }.setPc p .ready)
  | .sleep (.other n) =>
    .ok ({ m with table := m.table.tidyUp p }.setPc p (.releasing (.relock n)))
  | .wait => .ok ({ m with table := m.table.tidyUp p }.setPc p (.inside .wait))
  | .exit => .error (.panic "zombie exit")

def advanceProc (m : Machine Cpu) (c : Cpu) (p : Slot) : Except Fault (Machine Cpu) :=
  match m.pc p with
  | .ready =>
    match m.fork p with
    | .relock n => do
      let m ← m.acquire c (.other n)
      .ok { m with fork := Function.update m.fork p .none }
    | _ => .error .disabled
  | .acquiring body => do
    let m ← m.acquire c .ptable
    match body with
    | .sleep chan n => .ok (m.setPc p (.unlocking chan n))
    | body => .ok (m.setPc p (.inside body))
  | .inside body => m.work c p body
  | .unlocking chan n => do
    let m ← m.release c (.other n)
    .ok (m.setPc p (.inside (.sleep chan n)))
  | .releasing after => do
    let m ← m.release c .ptable
    match after with
    | .ret _ => .ok (m.setPc p .ready)
    | .relock n =>
      .ok ({ m with fork := Function.update m.fork p (.relock n) }.setPc p .ready)
  | .switched r => m.resume p r

def advanceHandler (m : Machine Cpu) (c : Cpu) : Handler → Except Fault (Machine Cpu)
  | .ready => .error .disabled
  | .acquiring chan => do
    let m ← m.acquire c .ptable
    .ok (m.setSched c (.handler (.inside chan)))
  | .inside chan => do
    let table ← m.table.wakeup1 chan
    .ok ({ m with table }.setSched c (.handler .releasing))
  | .releasing => do
    let m ← m.release c .ptable
    .ok (m.setSched c (.handler .ready))

def advance (m : Machine Cpu) (c : Cpu) : Except Fault (Machine Cpu) :=
  match m.sched c with
  | .idle => do
    let m ← m.acquire c .ptable
    .ok (m.setSched c (.scan 0))
  | .handler h => m.advanceHandler c h
  | .scan i => m.scan c i
  | .running _ =>
    match m.proc c with
    | none => .error .disabled
    | some p => m.advanceProc c p

/-- A call by process `p` on CPU `c`, up to its `acquire(&ptable.lock)`. In the middle of `fork`
and at the end of `sleep` only an interrupt makes a call. -/
def callProc (m : Machine Cpu) (c : Cpu) (p : Slot) (call : Call) : Except Fault (Machine Cpu) :=
  if m.fork p ≠ .none ∧ !call.fromInterrupt then .error .disabled
  else match call with
    | .fork => .ok (m.setPc p (.acquiring .allocproc))
    | .exit =>
      if m.table.initproc = some p then .error (.panic "init exiting")
      else .ok (m.setPc p (.acquiring .exit))
    | .wait => .ok (m.setPc p (.acquiring .wait))
    | .yield => .ok (m.setPc p (.acquiring .yield))
    | .sleep chan .ptable =>
      { m with table := m.table.goToSleep p chan }.switch c p (.sleep .ptable)
    | .sleep chan (.other n) => .ok (m.setPc p (.acquiring (.sleep chan n)))
    | .wakeup chan => .ok (m.setPc p (.acquiring (.wakeup chan)))
    | .kill pid => .ok (m.setPc p (.acquiring (.kill pid)))
    | .setPriority pid priority =>
      if priority.toInt > 2 ∨ priority.toInt < 0 ∨ pid.toInt < 0 then .ok m
      else .ok (m.setPc p (.acquiring (.setPriority pid priority.toInt)))

/-- The unlocked steps of `fork` and of the end of `allocproc`, with the allocation's result. -/
def forkStep (m : Machine Cpu) (p : Slot) (ok : Bool) : Except Fault (Machine Cpu) :=
  match m.fork p with
  | .none | .relock _ => .error .disabled
  | .kalloc np =>
    if ok then .ok { m with
        pc := Function.update m.pc np (.switched .forkret)
        fork := Function.update m.fork p (.copyuvm np) }
    else .ok { m with
        table := m.table.allocprocFailed np
        fork := Function.update m.fork p .none }
  | .copyuvm np =>
    if ok then .ok { m with fork := Function.update m.fork p (.parent np) }
    else .ok { m with
        table := m.table.forkFailed np
        fork := Function.update m.fork p (.failed np) }
  | .failed np => .ok (m.setPc p (.acquiring (.forkFailed np)))
  | .parent np => .ok { m with
      table := m.table.forkParent p np
      fork := Function.update m.fork p (.inherit np) }
  | .inherit np => .ok { m with
      table := m.table.forkInherit p np
      fork := Function.update m.fork p (.done np (m.table.pid np)) }
  | .done np pid => .ok (m.setPc p (.acquiring (.forkDone np pid)))

def readyProc (m : Machine Cpu) (c : Cpu) : Option Slot :=
  match m.sched c, m.proc c with
  | .running _, some p => if m.pc p = .ready then some p else none
  | _, _ => none

def step (m : Machine Cpu) : Action Cpu → Except Fault (Machine Cpu)
  | .advance c => m.advance c
  | .call c call =>
    match m.readyProc c with
    | some p => m.callProc c p call
    | none =>
      match m.sched c, call with
      | .handler .ready, .wakeup chan => .ok (m.setSched c (.handler (.acquiring chan)))
      | _, _ => .error .disabled
  | .fork c ok =>
    match m.readyProc c with
    | some p => m.forkStep p ok
    | none => .error .disabled
  | .acquire c lk =>
    if (m.readyProc c).isSome ∨ m.sched c = .handler .ready then m.acquire c lk
    else .error .disabled
  | .release c lk =>
    if (m.readyProc c).isSome ∨ m.sched c = .handler .ready then m.release c lk
    else .error .disabled
  | .trap c =>
    match m.readyProc c with
    | some p =>
      if m.fork p = .none then
        .ok { m with table := { m.table with killed := Function.update m.table.killed p true } }
      else .error .disabled
    | none => .error .disabled
  | .interrupt c =>
    if m.sched c = .idle ∧ m.ncli c = 0 then .ok (m.setSched c (.handler .ready))
    else .error .disabled
  | .iret c =>
    if m.sched c = .handler .ready then .ok (m.setSched c .idle) else .error .disabled

/-- The machine at the end of `userinit`: every CPU enters `scheduler`, no lock is held. -/
def booted : Machine Cpu where
  table := Ptable.booted
  locks _ := none
  proc _ := none
  ncli _ := 0
  sched _ := .idle
  pc _ := .switched .forkret
  fork _ := .none

end Machine

end Xv6
