import Xv6.Library.Run
import Xv6.Param

/-!
# The interrupt flag

`pushcli` and `popcli` of `spinlock.c`, `acquire` and `release`, which use them, and `sched` and
the scheduler's switch of `proc.c`. Each processor has an interrupt flag, a depth `ncli` and the
flag `intena` that its outermost `pushcli` found. It runs a process or its scheduler. A step is a
part of a function that no interrupt can cut in two: `pushcli` reads the flag and then clears it,
and between the two an interrupt may come, whose handler may switch to another process. A thread
therefore has a frame for the code that it runs and one for each piece of code that was
interrupted. Each frame counts the calls of `pushcli` that it has not undone, and records what the
flag was before the first of them; no step reads the record.

A thread undoes its own calls and releases the locks that it took, in any order. A new process
starts as if it had come out of `sched`, with `ptable.lock`. The depth is a number without bound.
-/

namespace Xv6

/-- Where a thread is in the functions. -/
inductive IrqPc (L : Type) where
  | idle
  | pushing (lock : Option L) (eflags : Bool)
  | spinning (lock : L)
  | popping
  | switched (intena : Option Bool)
  deriving DecidableEq

structure IrqFrame (L : Type) where
  pc : IrqPc L
  depth : Nat
  held : List L
  before : Option Bool
  eflags : Bool

/-- A process or a scheduler: the code it runs and the code that was interrupted, the last first. -/
structure IrqThread (L : Type) where
  top : IrqFrame L
  below : List (IrqFrame L)

structure IrqCpu (P : Type) where
  flag : Bool
  ncli : Int
  intena : Bool
  proc : Option P

structure Spinlock (C : Type) where
  locked : Bool
  cpu : Option C

/-- Processors, locks and threads. A thread is a process or the scheduler of a processor. -/
structure IrqSystem (C P L : Type) where
  cpu : C → IrqCpu P
  lock : L → Spinlock C
  thread : P ⊕ C → IrqThread L

/-- Steps of the processors. -/
inductive IrqAction (C P L : Type) where
  | pushcli (c : C) (lock : Option L)
  | cli (c : C)
  | xchg (c : C)
  | release (c : C) (lk : L)
  | popcli (c : C)
  | sched (c : C)
  | swtch (c : C) (p : P)
  | sti (c : C)
  | trap (c : C)
  | iret (c : C)
  | allocproc (p : P)
  deriving DecidableEq

def IrqAction.cpu {C P L : Type} : IrqAction C P L → Option C
  | .pushcli c _ | .cli c | .xchg c | .release c _ | .popcli c | .sched c | .swtch c _ | .sti c
  | .trap c | .iret c => some c
  | .allocproc _ => none

def IrqFrame.start {L : Type} (eflags : Bool) : IrqFrame L where
  pc := .idle
  depth := 0
  held := []
  before := none
  eflags := eflags

/-- A new process as `allocproc` makes it: it starts in `forkret`, with `ptable.lock`. -/
def IrqThread.forked {L : Type} (ptable : L) : IrqThread L where
  top := { pc := .switched none, depth := 1, held := [ptable], before := none, eflags := true }
  below := []

namespace IrqSystem

variable {C P L : Type} [DecidableEq C] [DecidableEq P] [DecidableEq L] (ptable : L)
  (s : IrqSystem C P L) (c : C)

def current : P ⊕ C :=
  match (s.cpu c).proc with
  | some p => .inl p
  | none => .inr c

def running : IrqThread L := s.thread (s.current c)

def put (x : IrqCpu P) (t : IrqThread L) : IrqSystem C P L :=
  { s with
    cpu := Function.update s.cpu c x
    thread := Function.update s.thread (s.current c) t }

def putTop (x : IrqCpu P) (f : IrqFrame L) : IrqSystem C P L :=
  s.put c x { s.running c with top := f }

def holding (lk : L) : Bool := (s.lock lk).locked && (s.lock lk).cpu == some c

def pushcli (lock : Option L) : Except Fault (IrqSystem C P L) :=
  let f := (s.running c).top
  if f.pc = .idle then
    .ok (s.putTop c (s.cpu c)
      { f with
        pc := .pushing lock (s.cpu c).flag
        before := if f.depth = 0 then some (s.cpu c).flag else f.before })
  else .error .disabled

def cli : Except Fault (IrqSystem C P L) :=
  let x := s.cpu c
  let f := (s.running c).top
  match f.pc with
  | .pushing lock eflags =>
    let x := { x with
      flag := false
      ncli := x.ncli + 1
      intena := if x.ncli = 0 then eflags else x.intena }
    match lock with
    | none => .ok (s.putTop c x { f with pc := .idle, depth := f.depth + 1 })
    | some lk =>
      if s.holding c lk then .error (.panic "acquire")
      else .ok (s.putTop c x { f with pc := .spinning lk, depth := f.depth + 1 })
  | _ => .error .disabled

def xchg : Except Fault (IrqSystem C P L) :=
  let f := (s.running c).top
  match f.pc with
  | .spinning lk =>
    if (s.lock lk).locked then .error .disabled
    else .ok
      { s.putTop c (s.cpu c) { f with pc := .idle, held := lk :: f.held } with
        lock := Function.update s.lock lk ⟨true, some c⟩ }
  | _ => .error .disabled

def release (lk : L) : Except Fault (IrqSystem C P L) :=
  let f := (s.running c).top
  if f.pc = .idle ∧ lk ∈ f.held then
    if s.holding c lk then .ok
      { s.putTop c (s.cpu c) { f with pc := .popping, held := f.held.erase lk } with
        lock := Function.update s.lock lk ⟨false, none⟩ }
    else .error (.panic "release")
  else .error .disabled

def popcli : Except Fault (IrqSystem C P L) :=
  let x := s.cpu c
  let f := (s.running c).top
  if f.pc = .popping ∨ f.pc = .idle ∧ f.held.length < f.depth then
    if x.flag then .error (.panic "popcli - interruptible")
    else if x.ncli - 1 < 0 then .error (.panic "popcli")
    else .ok (s.putTop c
      { x with
        ncli := x.ncli - 1
        flag := x.ncli - 1 = 0 && x.intena }
      { f with
        pc := .idle
        depth := f.depth - 1 })
  else .error .disabled

def sched : Except Fault (IrqSystem C P L) :=
  let x := s.cpu c
  let f := (s.running c).top
  if x.proc.isSome ∧ f.pc = .idle then
    if s.holding c ptable = false then .error (.panic "sched ptable.lock")
    else if x.ncli ≠ 1 then .error (.panic "sched locks")
    else if x.flag then .error (.panic "sched interruptible")
    else .ok
      { s.putTop c x { f with pc := .switched (some x.intena) } with
        cpu := Function.update s.cpu c { x with proc := none } }
  else .error .disabled

/-- The scheduler, which holds `ptable.lock`, switches to a process, which goes on behind the
`swtch` of `sched` or starts in `forkret`. -/
def swtch (p : P) : Except Fault (IrqSystem C P L) :=
  let x := s.cpu c
  let t := s.running c
  let next := s.thread (.inl p)
  if x.proc = none ∧ t.below.isEmpty ∧ t.top.pc = .idle ∧ t.top.depth = 1 ∧
      t.top.held = [ptable] then
    match next.top.pc with
    | .switched intena => .ok
      { s with
        cpu := Function.update s.cpu c
          { x with
            proc := some p
            intena := intena.getD x.intena }
        thread := Function.update s.thread (.inl p)
          { next with top := { next.top with pc := .idle } } }
    | _ => .error .disabled
  else .error .disabled

def sti : Except Fault (IrqSystem C P L) :=
  let t := s.running c
  if (s.cpu c).proc = none ∧ t.below.isEmpty ∧ t.top.pc = .idle ∧ t.top.depth = 0 then
    .ok (s.put c { s.cpu c with flag := true } t)
  else .error .disabled

def trap : Except Fault (IrqSystem C P L) :=
  let t := s.running c
  if (s.cpu c).flag then
    .ok (s.put c { s.cpu c with flag := false } ⟨.start true, t.top :: t.below⟩)
  else .error .disabled

def iret : Except Fault (IrqSystem C P L) :=
  let x := s.cpu c
  let t := s.running c
  if t.top.pc = .idle ∧ t.top.depth = 0 then
    match t.below with
    | f :: rest => .ok (s.put c { x with flag := t.top.eflags } ⟨f, rest⟩)
    | [] =>
      if x.proc.isSome then .ok (s.put c { x with flag := t.top.eflags } t)
      else .error .disabled
  else .error .disabled

def allocproc (p : P) : Except Fault (IrqSystem C P L) :=
  match (s.thread (.inl p)).top.pc with
  | .switched _ => .ok { s with thread := Function.update s.thread (.inl p) (.forked ptable) }
  | _ => .error .disabled

def step : IrqAction C P L → Except Fault (IrqSystem C P L)
  | .pushcli c lock => s.pushcli c lock
  | .cli c => s.cli c
  | .xchg c => s.xchg c
  | .release c lk => s.release c lk
  | .popcli c => s.popcli c
  | .sched c => s.sched ptable c
  | .swtch c p => s.swtch ptable c p
  | .sti c => s.sti c
  | .trap c => s.trap c
  | .iret c => s.iret c
  | .allocproc p => s.allocproc ptable p

/-- Every processor enters its scheduler, with interrupts off, and every process is new. -/
def booted (intena : C → Bool) : IrqSystem C P L where
  cpu c := { flag := false, ncli := 0, intena := intena c, proc := none }
  lock _ := { locked := false, cpu := none }
  thread
    | .inl _ => .forked ptable
    | .inr _ => { top := .start true, below := [] }

end IrqSystem

end Xv6
