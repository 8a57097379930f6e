import Xv6.Proc.Table

/-!
# What the process calls do to the table

Each definition is the part of a function of `proc.c` that runs under one hold of `ptable.lock`,
or one unlocked store of `fork` and `allocproc`, as a function of the table. Control between the
parts (acquiring, releasing, switching) is the machine's. The conditional compilation is the
build's: `CS333_SCHEDULER` is defined, `CS333_Scheduler` in `allocproc` and `USE_CS333_SCHEDULER`
in `wait` are not, so the insertions they guard do not exist.
-/

namespace Xv6.Ptable

/-- `allocproc` up to its first release: take the head of the free list, mark it `EMBRYO` and
give it the next process ID. No result when the free list is empty. -/
def allocproc (t : Ptable) : Option (Ptable × Slot) :=
  match t.freeList with
  | none => none
  | some p =>
    some ({ t with
      freeList := t.next p
      next := Function.update t.next p none
      state := Function.update t.state p .embryo
      pid := Function.update t.pid p t.nextpid
      nextpid := t.nextpid + 1 }, p)

/-- The search of `allocproc` in a build without `CS333_SCHEDULER`: the first `UNUSED` entry. -/
def allocprocScan (t : Ptable) : Option Slot := slots.find? fun p => t.state p = .unused

/-- `allocproc` when `kalloc` fails: the entry is `UNUSED` again. Its insertion in the free list
is guarded by `CS333_Scheduler`, which no build defines. -/
def allocprocFailed (t : Ptable) (p : Slot) : Ptable :=
  { t with state := Function.update t.state p .unused }

/-- `fork` when `copyuvm` fails, before it takes the lock to put the entry on the free list. -/
def forkFailed (t : Ptable) (np : Slot) : Ptable :=
  { t with state := Function.update t.state np .unused }

def forkParent (t : Ptable) (proc np : Slot) : Ptable :=
  { t with
    sz := Function.update t.sz np (t.sz proc)
    parent := Function.update t.parent np (some proc) }

def forkInherit (t : Ptable) (proc np : Slot) : Ptable :=
  { t with
    gid := Function.update t.gid np (t.gid proc)
    uid := Function.update t.uid np (t.uid proc)
    priority := Function.update t.priority np defaultPrio
    name := Function.update t.name np (safestrcpy (t.name np) (t.name proc)) }

/-- The last critical section of `fork`: the child becomes `RUNNABLE` on its ready list. -/
def forkDone (t : Ptable) (np : Slot) : Except Fault Ptable :=
  { t with state := Function.update t.state np .runnable }.putOnReadyList np (t.priority np)

def yield (t : Ptable) (proc : Slot) : Except Fault Ptable :=
  { t with state := Function.update t.state proc .runnable }.putOnReadyList proc (t.priority proc)

def goToSleep (t : Ptable) (proc : Slot) (chan : Chan) : Ptable :=
  { t with
    chan := Function.update t.chan proc chan
    state := Function.update t.state proc .sleeping }

def tidyUp (t : Ptable) (proc : Slot) : Ptable :=
  { t with chan := Function.update t.chan proc .null }

def wakeupEntry (chan : Chan) (t : Ptable) (p : Slot) : Except Fault Ptable :=
  if t.state p = .sleeping ∧ t.chan p = chan then
    { t with state := Function.update t.state p .runnable }.putOnReadyList p (t.priority p)
  else .ok t

/-- `wakeup1`: make every process sleeping on the channel `RUNNABLE`, in address order. -/
def wakeup1 (t : Ptable) (chan : Chan) : Except Fault Ptable :=
  slots.foldlM (wakeupEntry chan) t

/-- The loop body of `exit`: an abandoned child is passed to init, which is woken for a zombie. -/
def abandonEntry (proc : Slot) (t : Ptable) (p : Slot) : Except Fault Ptable :=
  if t.parent p = some proc then
    let t := { t with parent := Function.update t.parent p t.initproc }
    if t.state p = .zombie then t.wakeup1 (Chan.ofPointer t.initproc) else .ok t
  else .ok t

def exit (t : Ptable) (proc : Slot) : Except Fault Ptable := do
  let t ← t.wakeup1 (Chan.ofPointer (t.parent proc))
  let t ← slots.foldlM (abandonEntry proc) t
  .ok { t with state := Function.update t.state proc .zombie }

/-- The scan of `wait`: the first zombie child met, and whether any child was met. -/
def waitScan (t : Ptable) (proc : Slot) : List Slot → Bool → Option Slot × Bool
  | [], havekids => (none, havekids)
  | p :: rest, havekids =>
    if t.parent p ≠ some proc then waitScan t proc rest havekids
    else if t.state p = .zombie then (some p, true)
    else waitScan t proc rest true

/-- What `wait` does to the zombie it found. The insertion in the free list is guarded by
`USE_CS333_SCHEDULER`, which no build defines. -/
def reap (t : Ptable) (p : Slot) : Ptable :=
  { t with
    state := Function.update t.state p .unused
    pid := Function.update t.pid p 0
    parent := Function.update t.parent p none
    name := Function.update t.name p (Function.update (t.name p) 0 0)
    killed := Function.update t.killed p false }

def findPid (t : Ptable) (pid : Word) : Option Slot := slots.find? fun p => t.pid p = pid

def kill (t : Ptable) (pid : Word) : Except Fault (Ptable × Word) :=
  match t.findPid pid with
  | none => .ok (t, -1)
  | some p =>
    let t := { t with killed := Function.update t.killed p true }
    if t.state p = .sleeping then do
      let t ← { t with state := Function.update t.state p .runnable }.putOnReadyList p
        (t.priority p)
      .ok (t, 0)
    else .ok (t, 0)

def setPriority (t : Ptable) (pid : Word) (priority : Int) : Except Fault (Ptable × Word) :=
  match t.findPid pid with
  | none => .ok (t, -1)
  | some p =>
    let oldPriority := t.priority p
    if oldPriority = priority then .ok (t, 0)
    else
      let t := { t with priority := Function.update t.priority p priority }
      if t.state p = .runnable then do
        let t ← t.removeFromReadyList p oldPriority
        let t ← t.putOnReadyList p priority
        .ok (t, 0)
      else .ok (t, 0)

def dispatch (t : Ptable) (p : Slot) : Except Fault Ptable := do
  let t ← t.removeFromReadyList p (t.priority p)
  let t := { t with timeToReset := t.timeToReset - 1 }
  let t ← if t.timeToReset = 0 then do
      let t ← t.resetReadyList
      .ok { t with timeToReset := count }
    else .ok t
  .ok { t with state := Function.update t.state p .running }

def userinit (t : Ptable) : Except Fault Ptable :=
  let t := { t.initFreeList with timeToReset := count }
  match t.allocproc with
  | none => .error .nullDeref
  | some (t, p) =>
    { t with
      initproc := some p
      sz := Function.update t.sz p pgsize
      uid := Function.update t.uid p userId
      gid := Function.update t.gid p groupId
      name := Function.update t.name p (safestrcpy (t.name p) initcodeName)
      state := Function.update t.state p .runnable
      readyList := fun _ => none }.putOnReadyList p (t.priority p)

def booted : Ptable :=
  match zeroed.userinit with
  | .ok t => t
  | .error _ => zeroed

end Xv6.Ptable
