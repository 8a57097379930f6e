import Xv6.Library.Chain
import Xv6.Param

/-!
# The process table and its lists

`struct proc` and `ptable` of `proc.c`. The table holds one function for each field of
`struct proc`, so `t.state p` is `ptable.proc[p].state`; a slot is the address of its entry and
the null pointer is `none`. Trap frame, context, kernel stack, page directory, open files and
working directory belong to other parts of the kernel and are not held here: whether their
allocation succeeds is a choice of the caller. The free list and the three ready lists all
thread through the one field `next`, exactly as in the source, and the functions on them follow
its pointers.
-/

namespace Xv6

/-- `enum procstate`. -/
inductive Procstate where
  | unused | embryo | sleeping | runnable | running | zombie
  deriving DecidableEq, Repr

abbrev Slot := Fin nproc

/-- A sleep channel: the null pointer, the address of a table entry, or any other address. -/
inductive Chan where
  | null
  | proc (p : Slot)
  | addr (a : Nat)
  deriving DecidableEq, Repr

def Chan.ofPointer : Option Slot → Chan
  | none => .null
  | some p => .proc p

abbrev Name := Fin 16 → UInt8

/-- Characters that `safestrcpy` copies from a name before its terminator or its last byte. -/
def nameLength (t : Name) : Nat :=
  ((List.finRange 15).takeWhile fun i => t i.castSucc ≠ 0).length

/-- `safestrcpy(s, t, 16)`: copy to the terminator, at most 15 characters, and terminate. -/
def safestrcpy (s t : Name) : Name := fun i =>
  if i.val < nameLength t then t i else if i.val = nameLength t then 0 else s i

def initcodeName : Name := fun i =>
  ([105, 110, 105, 116, 99, 111, 100, 101] : List UInt8).getD i.val 0

structure Ptable where
  sz : Slot → Word
  state : Slot → Procstate
  pid : Slot → Word
  gid : Slot → Word
  uid : Slot → Word
  parent : Slot → Option Slot
  chan : Slot → Chan
  killed : Slot → Bool
  name : Slot → Name
  next : Slot → Option Slot
  priority : Slot → Int
  readyList : Fin size → Option Slot
  freeList : Option Slot
  timeToReset : Word
  nextpid : Word
  initproc : Option Slot

namespace Ptable

/-- The statically allocated table before `userinit`: all bytes zero, `nextpid` one. -/
def zeroed : Ptable where
  sz _ := 0
  state _ := .unused
  pid _ := 0
  gid _ := 0
  uid _ := 0
  parent _ := none
  chan _ := .null
  killed _ := false
  name _ _ := 0
  next _ := none
  priority _ := 0
  readyList _ := none
  freeList := none
  timeToReset := 0
  nextpid := 1
  initproc := none

/-- The entries of the table in address order, as `for(p = ptable.proc; ...; p++)` visits them. -/
def slots : List Slot := List.finRange nproc

def level (priority : Int) : Except Fault (Fin size) :=
  if inside : 0 ≤ priority ∧ priority < size then
    .ok ⟨priority.toNat, (Int.toNat_lt inside.1).mpr inside.2⟩
  else .error .outOfBounds

def initFreeList (t : Ptable) : Ptable :=
  slots.foldl (fun t p =>
    let t := if t.state p = .unused then
        { t with next := Function.update t.next p t.freeList, freeList := some p }
      else t
    { t with priority := Function.update t.priority p defaultPrio })
    { t with freeList := none }

def putOnFreeList (t : Ptable) (p : Slot) : Except Fault Ptable :=
  match Chain.pushBack nproc t.next t.freeList p with
  | none => .error .diverges
  | some (next, head) => .ok { t with next, freeList := head }

def putOnReadyList (t : Ptable) (p : Slot) (priority : Int) : Except Fault Ptable := do
  let k ← level priority
  match Chain.pushBack nproc t.next (t.readyList k) p with
  | none => .error .diverges
  | some (next, head) => .ok { t with next, readyList := Function.update t.readyList k head }

/-- The search loop of `removeFromReadyList`. After unlinking it goes on from the new
`current->next`, which is null when the unlinked process was the last one. -/
def unlinkLoop (p : Slot) : Nat → (Slot → Option Slot) → Option Slot →
    Except Fault (Slot → Option Slot)
  | 0, _, _ => .error .diverges
  | _ + 1, _, none => .error .nullDeref
  | fuel + 1, next, some current =>
    match next current with
    | none => .ok next
    | some following =>
      if following = p then
        let unlinked := Function.update (Function.update next current (next p)) p none
        unlinkLoop p fuel unlinked (unlinked current)
      else unlinkLoop p fuel next (some following)

def removeFromReadyList (t : Ptable) (p : Slot) (priority : Int) : Except Fault Ptable := do
  let k ← level priority
  match t.readyList k with
  | none => .ok t
  | some current =>
    if current = p then
      .ok { t with
        readyList := Function.update t.readyList k (t.next p)
        next := Function.update t.next p none }
    else do
      let next ← unlinkLoop p nproc t.next (some current)
      .ok { t with next }

def resetLoop : Nat → Ptable → Option Slot → Except Fault Ptable
  | _, t, none => .ok t
  | 0, _, some _ => .error .diverges
  | fuel + 1, t, some current => do
    let next := t.next current
    let t ← t.removeFromReadyList current (t.priority current)
    let t := { t with priority := Function.update t.priority current defaultPrio }
    let t ← t.putOnReadyList current (t.priority current)
    resetLoop fuel t next

/-- `resetReadyList`: move the high and the low list to the default one, then give running and
sleeping processes the default priority. -/
def resetReadyList (t : Ptable) : Except Fault Ptable := do
  let highest ← level high
  let t ← resetLoop nproc t (t.readyList highest)
  let lowest ← level low
  let t ← resetLoop nproc t (t.readyList lowest)
  .ok { t with
    priority := fun p =>
      if t.state p = .running ∨ t.state p = .sleeping then defaultPrio else t.priority p }

end Ptable

end Xv6
