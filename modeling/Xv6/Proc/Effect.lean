import Xv6.Proc.Listed
import Xv6.Proc.Machine

/-!
# What one step does

The inversion of the step function. On a well-formed machine every step that returns is one of
the effects listed here: a move of a kernel thread or of a scheduler that leaves the table
alone, or one of the table's changes, with the sequences that the lists stand for before and
after it. All later invariants are proved from this list and never unfold the step function.
-/

namespace Xv6

open Transition (bind_ok)
open Function (update update_eq_self)

@[grind]
def Section.Fits (f : Forking) : Section → Prop
  | .forkFailed np => f = .failed np
  | .forkDone np pid => f = .done np pid
  | .yield | .wakeup _ => True
  | .setPriority _ priority => f = .none ∧ 0 ≤ priority ∧ priority < size
  | .allocproc | .exit | .wait | .sleep _ _ | .kill _ => f = .none

@[grind]
def Pc.Fits (f : Forking) : Pc → Prop
  | .acquiring body | .inside body => body.Fits f
  | .unlocking _ _ | .releasing (.relock _) => f = .none
  | .switched (.sleep _) | .switched .wait | .switched .exit => f = .none
  | .ready | .releasing (.ret _) | .switched .forkret | .switched .yield => True

@[grind]
def Pc.critical : Pc → Bool
  | .inside _ | .unlocking _ _ | .releasing _ | .switched _ => true
  | .ready | .acquiring _ => false

@[grind]
def Pc.parked : Pc → Bool
  | .switched _ => true
  | _ => false

@[grind]
def Forking.child : Forking → Option Slot
  | .none | .relock _ => Option.none
  | .kalloc np | .copyuvm np | .failed np | .parent np | .inherit np | .done np _ => some np

@[grind]
def Forking.childState : Forking → Procstate
  | .failed _ => .unused
  | _ => .embryo

@[grind]
def Forking.hasStack : Forking → Bool
  | .none | .relock _ | .kalloc _ | .failed _ => false
  | .copyuvm _ | .parent _ | .inherit _ | .done _ _ => true

namespace Machine

variable {Cpu : Type}

@[grind]
def Current (m : Machine Cpu) (c : Cpu) (p : Slot) : Prop :=
  (∃ i, m.sched c = .running i) ∧ m.proc c = some p

@[grind]
def critical (m : Machine Cpu) (c : Cpu) : Bool :=
  match m.sched c, m.proc c with
  | .scan _, _ | .handler (.inside _), _ | .handler .releasing, _ => true
  | .running _, some p => (m.pc p).critical
  | _, _ => false

structure WellFormed (m : Machine Cpu) (ready : Fin size → List Slot) (free : List Slot) :
    Prop where
  listed : m.table.Listed ready free
  running : ∀ p, m.table.state p = .running ↔ ∃ c, m.proc c = some p
  unique : ∀ c d p, m.proc c = some p → m.proc d = some p → c = d
  switchedTo : ∀ c p, m.proc c = some p → ∃ i, m.sched c = .running i
  parked : ∀ p, m.table.state p = .runnable ∨ m.table.state p = .sleeping ∨
    m.table.state p = .zombie → (m.pc p).parked
  fits : ∀ p, (m.pc p).Fits (m.fork p)
  forker : ∀ p, m.fork p ≠ .none → m.table.state p = .running ∨ m.table.state p = .runnable
  child : ∀ p np, (m.fork p).child = some np →
    m.table.state np = (m.fork p).childState ∧ np ∉ free ∧
      ((m.fork p).hasStack → m.pc np = .switched .forkret)
  childUnique : ∀ p q np, (m.fork p).child = some np → (m.fork q).child = some np → p = q
  exclusive : ∀ c, m.critical c → m.locks .ptable = some c

variable [DecidableEq Cpu]

/-- Moves of the kernel thread of `p` on CPU `c` that leave the table alone, with the locks and
the position afterwards. -/
inductive ThreadMove (m : Machine Cpu) (c : Cpu) (p : Slot) :
    Action Cpu → (Lock → Option Cpu) → Pc → Prop
  | call {a body} (actor : a.cpu = c) (position : m.pc p = .ready) (fits : body.Fits (m.fork p))
      (notInit : body = .exit → m.table.initproc ≠ some p)
      (sleeps : ∀ chan n, body = .sleep chan n → a = .call c (.sleep chan (.other n))) :
      ThreadMove m c p a m.locks (.acquiring body)
  | refused {a} (actor : a.cpu = c) (position : m.pc p = .ready) : ThreadMove m c p a m.locks .ready
  | enter {body} (position : m.pc p = .acquiring body) (free : m.locks .ptable = none)
      (notSleep : ∀ chan n, body ≠ .sleep chan n) :
      ThreadMove m c p (.advance c) (update m.locks .ptable (some c)) (.inside body)
  | enterSleep {chan n} (position : m.pc p = .acquiring (.sleep chan n))
      (free : m.locks .ptable = none) :
      ThreadMove m c p (.advance c) (update m.locks .ptable (some c))
        (.unlocking chan n)
  | unlock {chan n} (position : m.pc p = .unlocking chan n)
      (held : m.locks (.other n) = some c) :
      ThreadMove m c p (.advance c) (update m.locks (.other n) none)
        (.inside (.sleep chan n))
  | noSlot (position : m.pc p = .inside .allocproc) (none : m.table.allocproc = none) :
      ThreadMove m c p (.advance c) m.locks (.releasing (.ret (some (-1))))
  | noChild {havekids} (position : m.pc p = .inside .wait)
      (scanned : m.table.waitScan p Ptable.slots false = (none, havekids))
      (fails : havekids = false ∨ m.table.killed p = true) :
      ThreadMove m c p (.advance c) m.locks (.releasing (.ret (some (-1))))
  | noPid {body pid} (position : m.pc p = .inside body)
      (named : body = .kill pid ∨ ∃ priority, body = .setPriority pid priority)
      (absent : m.table.findPid pid = none) :
      ThreadMove m c p (.advance c) m.locks (.releasing (.ret (some (-1))))
  | leave {result} (position : m.pc p = .releasing (.ret result))
      (held : m.locks .ptable = some c) :
      ThreadMove m c p (.advance c) (update m.locks .ptable none) .ready
  | resume (position : m.pc p = .switched .forkret ∨ m.pc p = .switched .yield) :
      ThreadMove m c p (.advance c) m.locks (.releasing (.ret none))
  | acquire {lk} (position : m.pc p = .ready) (free : m.locks lk = none) :
      ThreadMove m c p (.acquire c lk) (update m.locks lk (some c)) .ready
  | release {lk} (position : m.pc p = .ready) (held : m.locks lk = some c) :
      ThreadMove m c p (.release c lk) (update m.locks lk none) .ready

/-- Moves of the scheduler of CPU `c`, or of a handler that interrupted it, that leave the table
alone, with the locks and the position afterwards. -/
inductive SchedMove (m : Machine Cpu) (c : Cpu) :
    Action Cpu → (Lock → Option Cpu) → SchedPc → Prop
  | enter (position : m.sched c = .idle) (free : m.locks .ptable = none) :
      SchedMove m c (.advance c) (update m.locks .ptable (some c)) (.scan 0)
  | skip {i : Fin size} (position : m.sched c = .scan i) (empty : m.table.readyList i = none) :
      SchedMove m c (.advance c) m.locks (.scan (i + 1))
  | leave {i} (position : m.sched c = .scan i) (held : m.locks .ptable = some c) :
      SchedMove m c (.advance c) (update m.locks .ptable none) .idle
  | interrupt (position : m.sched c = .idle) :
      SchedMove m c (.interrupt c) m.locks (.handler .ready)
  | iret (position : m.sched c = .handler .ready) : SchedMove m c (.iret c) m.locks .idle
  | call {chan} (position : m.sched c = .handler .ready) :
      SchedMove m c (.call c (.wakeup chan)) m.locks (.handler (.acquiring chan))
  | enterHandler {chan} (position : m.sched c = .handler (.acquiring chan))
      (free : m.locks .ptable = none) :
      SchedMove m c (.advance c) (update m.locks .ptable (some c))
        (.handler (.inside chan))
  | leaveHandler (position : m.sched c = .handler .releasing)
      (held : m.locks .ptable = some c) :
      SchedMove m c (.advance c) (update m.locks .ptable none) (.handler .ready)
  | acquire {lk} (position : m.sched c = .handler .ready) (free : m.locks lk = none) :
      SchedMove m c (.acquire c lk) (update m.locks lk (some c)) (.handler .ready)
  | release {lk} (position : m.sched c = .handler .ready) (held : m.locks lk = some c) :
      SchedMove m c (.release c lk) (update m.locks lk none) (.handler .ready)

/-- Why process `p` on CPU `c` goes to sleep on a channel, and where it will resume. -/
inductive Sleeps (m : Machine Cpu) (c : Cpu) (p : Slot) : Action Cpu → Chan → Resume → Prop
  | wait (position : m.pc p = .inside .wait)
      (scanned : m.table.waitScan p Ptable.slots false = (none, true))
      (alive : m.table.killed p = false) : Sleeps m c p (.advance c) (.proc p) .wait
  | section {chan n} (position : m.pc p = .inside (.sleep chan n)) :
      Sleeps m c p (.advance c) chan (.sleep (.other n))
  | call {chan} (position : m.pc p = .ready) (notForking : m.fork p = .none) :
      Sleeps m c p (.call c (.sleep chan .ptable)) chan (.sleep .ptable)

/-- How `sleep` goes on in a process that was switched to again. -/
inductive WakesUp : Resume → Pc → Prop
  | wait : WakesUp .wait (.inside .wait)
  | ptable : WakesUp (.sleep .ptable) .ready
  | other {n} : WakesUp (.sleep (.other n)) (.releasing (.relock n))

/-- The effects of a step on a well-formed machine whose lists stand for `ready` and `free`, with
the machine and the sequences afterwards. -/
inductive Effect (m : Machine Cpu) (ready : Fin size → List Slot) (free : List Slot) :
    Action Cpu → Machine Cpu → (Fin size → List Slot) → List Slot → Prop
  | thread {a c p locks ncli pc} (current : m.Current c p) (move : m.ThreadMove c p a locks pc) :
      Effect m ready free a
        { m with locks := locks, ncli := ncli, pc := update m.pc p pc } ready free
  | scheduler {a c locks ncli sched} (move : m.SchedMove c a locks sched) :
      Effect m ready free a
        { m with locks := locks, ncli := ncli, sched := update m.sched c sched } ready free
  | allocproc {c p np rest} (current : m.Current c p) (position : m.pc p = .inside .allocproc)
      (head : free = np :: rest) :
      Effect m ready free (.advance c)
        { m with
          table := { m.table with
            freeList := m.table.next np
            next := update m.table.next np none
            state := update m.table.state np .embryo
            pid := update m.table.pid np m.table.nextpid
            nextpid := m.table.nextpid + 1 }
          fork := update m.fork p (.kalloc np)
          pc := update m.pc p (.releasing (.ret none)) } ready rest
  | kallocOk {c p np} (current : m.Current c p) (position : m.pc p = .ready)
      (stage : m.fork p = .kalloc np) :
      Effect m ready free (.fork c true)
        { m with
          pc := update m.pc np (.switched .forkret)
          fork := update m.fork p (.copyuvm np) } ready free
  | kallocFailed {c p np} (current : m.Current c p) (position : m.pc p = .ready)
      (stage : m.fork p = .kalloc np) :
      Effect m ready free (.fork c false)
        { m with
          table := { m.table with state := update m.table.state np .unused }
          fork := update m.fork p .none } ready free
  | copyuvmOk {c p np} (current : m.Current c p) (position : m.pc p = .ready)
      (stage : m.fork p = .copyuvm np) :
      Effect m ready free (.fork c true)
        { m with fork := update m.fork p (.parent np) } ready free
  | copyuvmFailed {c p np} (current : m.Current c p) (position : m.pc p = .ready)
      (stage : m.fork p = .copyuvm np) :
      Effect m ready free (.fork c false)
        { m with
          table := { m.table with state := update m.table.state np .unused }
          fork := update m.fork p (.failed np) } ready free
  | forkParent {c p np ok} (current : m.Current c p) (position : m.pc p = .ready)
      (stage : m.fork p = .parent np) :
      Effect m ready free (.fork c ok)
        { m with
          table := { m.table with
            sz := update m.table.sz np (m.table.sz p)
            parent := update m.table.parent np (some p) }
          fork := update m.fork p (.inherit np) } ready free
  | forkInherit {c p np ok} (current : m.Current c p) (position : m.pc p = .ready)
      (stage : m.fork p = .inherit np) :
      Effect m ready free (.fork c ok)
        { m with
          table := { m.table with
            gid := update m.table.gid np (m.table.gid p)
            uid := update m.table.uid np (m.table.uid p)
            priority := update m.table.priority np defaultPrio
            name := update m.table.name np
              (safestrcpy (m.table.name np) (m.table.name p)) }
          fork := update m.fork p (.done np (m.table.pid np)) } ready free
  | forkFailed {c p np next head} (current : m.Current c p)
      (position : m.pc p = .inside (.forkFailed np)) (stage : m.fork p = .failed np) :
      Effect m ready free (.advance c)
        { m with
          table := { m.table with next := next, freeList := head }
          fork := update m.fork p .none
          pc := update m.pc p (.releasing (.ret (some (-1)))) } ready (free ++ [np])
  | forkDone {c p np pid next readyList ready'} (current : m.Current c p)
      (position : m.pc p = .inside (.forkDone np pid)) (stage : m.fork p = .done np pid)
      (appended : ∀ k, ready k <+: ready' k) :
      Effect m ready free (.advance c)
        { m with
          table := { m.table with
            state := update m.table.state np .runnable
            next := next
            readyList := readyList }
          fork := update m.fork p .none
          pc := update m.pc p (.releasing (.ret (some pid))) } ready' free
  | exit {c p i next readyList ready'} (current : m.Current c p) (index : m.sched c = .running i)
      (position : m.pc p = .inside .exit) (appended : ∀ k, ready k <+: ready' k) :
      Effect m ready free (.advance c)
        { m with
          table := { m.table with
            state := update (m.table.exitState p) p .zombie
            parent := m.table.abandonedParent p Ptable.slots
            next := next
            readyList := readyList }
          pc := update m.pc p (.switched .exit)
          proc := update m.proc c none
          sched := update m.sched c (.scan i) } ready' free
  | reap {c p q havekids} (current : m.Current c p) (position : m.pc p = .inside .wait)
      (scanned : m.table.waitScan p Ptable.slots false = (some q, havekids)) :
      Effect m ready free (.advance c)
        { m with
          table := { m.table with
            state := update m.table.state q .unused
            pid := update m.table.pid q 0
            parent := update m.table.parent q none
            name := update m.table.name q (update (m.table.name q) 0 0)
            killed := update m.table.killed q false }
          pc := update m.pc p (.releasing (.ret (some (m.table.pid q)))) } ready free
  | sleep {a c p i chan resume} (current : m.Current c p) (index : m.sched c = .running i)
      (sleeps : m.Sleeps c p a chan resume) (held : m.locks .ptable = some c) :
      Effect m ready free a
        { m with
          table := { m.table with
            chan := update m.table.chan p chan
            state := update m.table.state p .sleeping }
          pc := update m.pc p (.switched resume)
          proc := update m.proc c none
          sched := update m.sched c (.scan i) } ready free
  | wakesUp {c p resume pc} (current : m.Current c p) (position : m.pc p = .switched resume)
      (wakes : WakesUp resume pc) :
      Effect m ready free (.advance c)
        { m with
          table := { m.table with chan := update m.table.chan p .null }
          pc := update m.pc p pc } ready free
  | leaveSleep {c p n ncli} (current : m.Current c p)
      (position : m.pc p = .releasing (.relock n)) (held : m.locks .ptable = some c) :
      Effect m ready free (.advance c)
        { m with
          locks := update m.locks .ptable none
          ncli := ncli
          fork := update m.fork p (.relock n)
          pc := update m.pc p .ready } ready free
  | relock {c p n ncli} (current : m.Current c p) (position : m.pc p = .ready)
      (stage : m.fork p = .relock n) (isFree : m.locks (.other n) = none) :
      Effect m ready free (.advance c)
        { m with
          locks := update m.locks (.other n) (some c)
          ncli := ncli
          fork := update m.fork p .none } ready free
  | yield {c p i next readyList ready'} (current : m.Current c p) (index : m.sched c = .running i)
      (position : m.pc p = .inside .yield) (appended : ∀ k, ready k <+: ready' k) :
      Effect m ready free (.advance c)
        { m with
          table := { m.table with
            state := update m.table.state p .runnable
            next := next
            readyList := readyList }
          pc := update m.pc p (.switched .yield)
          proc := update m.proc c none
          sched := update m.sched c (.scan i) } ready' free
  | wakeup {c p chan next readyList ready'} (current : m.Current c p)
      (position : m.pc p = .inside (.wakeup chan)) (appended : ∀ k, ready k <+: ready' k) :
      Effect m ready free (.advance c)
        { m with
          table := { m.table with
            state := m.table.wokenState chan
            next := next
            readyList := readyList }
          pc := update m.pc p (.releasing (.ret none)) } ready' free
  | handlerWakeup {c chan next readyList ready'}
      (position : m.sched c = .handler (.inside chan)) (appended : ∀ k, ready k <+: ready' k) :
      Effect m ready free (.advance c)
        { m with
          table := { m.table with
            state := m.table.wokenState chan
            next := next
            readyList := readyList }
          sched := update m.sched c (.handler .releasing) } ready' free
  | kill {c p pid q next readyList ready'} (current : m.Current c p)
      (position : m.pc p = .inside (.kill pid)) (found : m.table.findPid pid = some q)
      (appended : ∀ k, ready k <+: ready' k) :
      Effect m ready free (.advance c)
        { m with
          table := { m.table with
            killed := update m.table.killed q true
            state := if m.table.state q = .sleeping
              then update m.table.state q .runnable else m.table.state
            next := next
            readyList := readyList }
          pc := update m.pc p (.releasing (.ret (some 0))) } ready' free
  | setPriority {c p pid q priority next readyList ready'} (current : m.Current c p)
      (position : m.pc p = .inside (.setPriority pid priority))
      (found : m.table.findPid pid = some q)
      (kept : ∀ k, ((ready k).filter (· ≠ q)).Sublist (ready' k)) :
      Effect m ready free (.advance c)
        { m with
          table := { m.table with
            priority := update m.table.priority q priority
            next := next
            readyList := readyList }
          pc := update m.pc p (.releasing (.ret (some 0))) } ready' free
  | dispatch {c p back next readyList priority time ready'} {k : Fin size}
      (position : m.sched c = .scan k) (head : ready k = p :: back)
      (runnable : m.table.state p = .runnable)
      (kept : priority p = m.table.priority p)
      (turn : (m.table.timeToReset - 1 ≠ 0 ∧ time = m.table.timeToReset - 1 ∧
          priority = m.table.priority ∧ ready' = update ready k back) ∨
        (m.table.timeToReset - 1 = 0 ∧ time = count ∧
          ready' = Ptable.resetSequences (update ready k back) ∧
          (∀ q, q ≠ p → m.table.state q = .running ∨ m.table.state q = .sleeping ∨
            m.table.state q = .runnable → priority q = defaultPrio) ∧
          ∀ q, m.table.state q ≠ .running → m.table.state q ≠ .sleeping →
            m.table.state q ≠ .runnable → priority q = m.table.priority q)) :
      Effect m ready free (.advance c)
        { m with
          table := { m.table with
            state := update m.table.state p .running
            next := next
            readyList := readyList
            priority := priority
            timeToReset := time }
          proc := update m.proc c (some p)
          sched := update m.sched c
            (.running (if k.val ≠ 2 then 0 else k.val + 1)) } ready' free
  | trap {c p} (current : m.Current c p) (position : m.pc p = .ready) :
      Effect m ready free (.trap c)
        { m with table := { m.table with killed := update m.table.killed p true } }
        ready free

theorem acquire_ok {m m' : Machine Cpu} {c : Cpu} {lk : Lock} (taken : m.acquire c lk = .ok m') :
    m.locks lk = none ∧ m' = { m with
      locks := update m.locks lk (some c)
      ncli := update m.ncli c (m.ncli c + 1) } := by
  unfold acquire at taken
  split at taken
  · rename_i free
    cases taken
    exact ⟨free, rfl⟩
  · split at taken <;> cases taken

theorem release_ok {m m' : Machine Cpu} {c : Cpu} {lk : Lock} (taken : m.release c lk = .ok m') :
    m.locks lk = some c ∧ m' = { m with
      locks := update m.locks lk none
      ncli := update m.ncli c (m.ncli c - 1) } := by
  unfold release at taken
  split at taken
  · cases taken
  · rename_i held
    split at taken
    · cases taken
    · cases taken
      exact ⟨not_not.mp held, rfl⟩

theorem switch_ok {m m' : Machine Cpu} {c : Cpu} {p : Slot} {resume : Resume}
    (taken : m.switch c p resume = .ok m') :
    m.locks .ptable = some c ∧ ∃ i, m.sched c = .running i ∧ m' = { m with
      pc := update m.pc p (.switched resume)
      proc := update m.proc c none
      sched := update m.sched c (.scan i) } := by
  unfold switch at taken
  split at taken
  · cases taken
  · rename_i held
    split at taken
    · cases taken
    · split at taken
      · cases taken
      · split at taken
        · rename_i i position
          cases taken
          exact ⟨not_not.mp held, i, position, rfl⟩
        · cases taken

/-- The step has one of the effects, and the lists afterwards stand for its sequences. -/
def Explained (m : Machine Cpu) (ready : Fin size → List Slot) (free : List Slot)
    (a : Action Cpu) (m' : Machine Cpu) : Prop :=
  ∃ ready' free', m.Effect ready free a m' ready' free' ∧ m'.table.Listed ready' free'

variable {m m' : Machine Cpu} {ready : Fin size → List Slot} {free : List Slot} {c : Cpu}
  {p : Slot}

omit [DecidableEq Cpu] in
theorem readyProc_some (found : m.readyProc c = some p) : m.Current c p ∧ m.pc p = .ready := by
  unfold readyProc at found
  split at found
  · rename_i i q position current
    split at found
    · rename_i ready
      cases found
      exact ⟨⟨⟨i, position⟩, current⟩, ready⟩
    · cases found
  · cases found

namespace WellFormed

omit [DecidableEq Cpu] in
@[grind →]
theorem current_running (wf : m.WellFormed ready free) (current : m.Current c p) :
    m.table.state p = .running :=
  (wf.running p).mpr ⟨c, current.2⟩

section

variable (wf : m.WellFormed ready free)
include wf

variable {a : Action Cpu} {locks : Lock → Option Cpu} {ncli : Cpu → Nat}

theorem explained_thread (current : m.Current c p) {pc : Pc} (move : m.ThreadMove c p a locks pc) :
    m.Explained ready free a
      { m with locks := locks, ncli := ncli, pc := update m.pc p pc } :=
  ⟨ready, free, .thread current move, wf.listed⟩

theorem explained_thread_ready (current : m.Current c p) (position : m.pc p = .ready)
    (move : m.ThreadMove c p a locks .ready) :
    m.Explained ready free a { m with locks := locks, ncli := ncli } := by
  have same : update m.pc p .ready = m.pc := by rw [← position, update_eq_self]
  have explained : m.Explained ready free a
      { m with locks := locks, ncli := ncli, pc := update m.pc p .ready } :=
    wf.explained_thread current move
  rw [same] at explained
  exact explained

theorem explained_scheduler {sched : SchedPc} (move : m.SchedMove c a locks sched) :
    m.Explained ready free a
      { m with locks := locks, ncli := ncli, sched := update m.sched c sched } :=
  ⟨ready, free, .scheduler move, wf.listed⟩

theorem explained_handler_ready (position : m.sched c = .handler .ready)
    (move : m.SchedMove c a locks (.handler .ready)) :
    m.Explained ready free a { m with locks := locks, ncli := ncli } := by
  have same : update m.sched c (.handler .ready) = m.sched := by
    rw [← position, update_eq_self]
  have explained : m.Explained ready free a
      { m with locks := locks, ncli := ncli
               sched := update m.sched c (.handler .ready) } :=
    wf.explained_scheduler move
  rw [same] at explained
  exact explained

section

variable (current : m.Current c p)
include current

theorem explained_sleep {chan : Chan} {resume : Resume} (sleeps : m.Sleeps c p a chan resume)
    (taken : { m with table := m.table.goToSleep p chan }.switch c p resume = .ok m') :
    m.Explained ready free a m' := by
  obtain ⟨held, i, index, rfl⟩ := switch_ok taken
  have running := wf.current_running current
  refine ⟨ready, free, .sleep current index sleeps held, ?_⟩
  have listed := wf.listed.setState p .sleeping (by rw [running]; decide) (by decide)
    (wf.listed.not_free (by rw [running]; decide))
  exact listed.congr rfl rfl rfl rfl rfl

theorem explained_wait (position : m.pc p = .inside .wait) (taken : m.waitLoop c p = .ok m') :
    m.Explained ready free (.advance c) m' := by
  unfold waitLoop at taken
  split at taken
  · rename_i q havekids scanned
    cases taken
    have zombie := (Ptable.waitScan_found scanned).2
    have listed := wf.listed.setState q .unused (by rw [zombie]; decide) (by decide)
      (wf.listed.not_free (by rw [zombie]; decide))
    exact ⟨ready, free, .reap current position scanned, listed.congr rfl rfl rfl rfl rfl⟩
  · rename_i havekids scanned
    split at taken
    · rename_i fails
      cases taken
      refine wf.explained_thread current (.noChild position scanned ?_)
      simpa using fails
    · rename_i goesOn
      have both : havekids = true ∧ m.table.killed p = false := by simpa using goesOn
      rw [both.1] at scanned
      exact wf.explained_sleep current (.wait position scanned both.2) taken

theorem explained_work {body : Section} (position : m.pc p = .inside body)
    (taken : m.work c p body = .ok m') : m.Explained ready free (.advance c) m' := by
  have running := wf.current_running current
  have fits := wf.fits p
  rw [position] at fits
  cases body with
  | allocproc =>
    rcases wf.listed.allocproc with ⟨-, full⟩ | ⟨np, rest, head, found, listed⟩
    · simp only [work, full] at taken
      cases taken
      exact wf.explained_thread current (.noSlot position full)
    · simp only [work, found] at taken
      cases taken
      exact ⟨ready, rest, .allocproc current position head, listed⟩
  | forkFailed np =>
    have stage : m.fork p = .failed np := fits
    obtain ⟨unused, notFree, -⟩ := wf.child p np (by rw [stage]; rfl)
    rw [stage] at unused
    obtain ⟨next, head, put, listed⟩ := wf.listed.putOnFreeList unused notFree
    simp only [work, put] at taken
    cases taken
    exact ⟨ready, free ++ [np], .forkFailed current position stage, listed⟩
  | forkDone np pid =>
    have stage : m.fork p = .done np pid := fits
    obtain ⟨embryo, notFree, -⟩ := wf.child p np (by rw [stage]; rfl)
    have embryo : m.table.state np = .embryo := by rw [embryo, stage]; rfl
    obtain ⟨next, readyList, ready', put, listed, appended⟩ :=
      wf.listed.makeRunnable np (by rw [embryo]; decide) notFree
    simp only [work, Ptable.forkDone, put] at taken
    cases taken
    exact ⟨ready', free, .forkDone current position stage appended, listed⟩
  | exit =>
    obtain ⟨next, readyList, ready', left, listed, appended⟩ := wf.listed.exit running
    simp only [work, left] at taken
    obtain ⟨held, i, index, rfl⟩ := switch_ok taken
    exact ⟨ready', free, .exit current index position appended, listed⟩
  | wait => exact wf.explained_wait current position taken
  | yield =>
    obtain ⟨next, readyList, ready', put, listed, appended⟩ :=
      wf.listed.makeRunnable p (by rw [running]; decide)
        (wf.listed.not_free (by rw [running]; decide))
    simp only [work, Ptable.yield, put] at taken
    obtain ⟨held, i, index, rfl⟩ := switch_ok taken
    exact ⟨ready', free, .yield current index position appended, listed⟩
  | sleep chan n => exact wf.explained_sleep current (.section position) taken
  | wakeup chan =>
    obtain ⟨next, readyList, ready', woken, listed, appended⟩ := wf.listed.wakeup1 chan
    simp only [work, woken] at taken
    cases taken
    exact ⟨ready', free, .wakeup current position appended, listed⟩
  | kill pid =>
    cases found : m.table.findPid pid with
    | none =>
      simp only [work, Ptable.kill, found] at taken
      cases taken
      exact wf.explained_thread current (.noPid position (.inl rfl) found)
    | some q =>
      obtain ⟨next, readyList, ready', killed, listed, appended⟩ := wf.listed.kill found
      simp only [work, killed] at taken
      cases taken
      exact ⟨ready', free, .kill current position found appended, listed⟩
  | setPriority pid priority =>
    cases found : m.table.findPid pid with
    | none =>
      simp only [work, Ptable.setPriority, found] at taken
      cases taken
      exact wf.explained_thread current (.noPid position (.inr ⟨priority, rfl⟩) found)
    | some q =>
      simp only [work] at taken
      obtain ⟨⟨table, result⟩, returned, rest⟩ := bind_ok.mp taken
      obtain ⟨next, readyList, ready', rfl, rfl, listed, kept⟩ :=
        wf.listed.setPriority found fits.2 returned
      cases rest
      exact ⟨ready', free, .setPriority current position found kept, listed⟩

theorem explained_advanceProc (taken : m.advanceProc c p = .ok m') :
    m.Explained ready free (.advance c) m' := by
  unfold advanceProc at taken
  cases position : m.pc p with
  | ready =>
    simp only [position] at taken
    split at taken
    · rename_i n stage
      obtain ⟨m₁, acquired, rest⟩ := bind_ok.mp taken
      obtain ⟨isFree, rfl⟩ := acquire_ok acquired
      cases rest
      exact ⟨ready, free, .relock current position stage isFree, wf.listed⟩
    · cases taken
  | acquiring body =>
    simp only [position] at taken
    obtain ⟨m₁, acquired, rest⟩ := bind_ok.mp taken
    obtain ⟨isFree, rfl⟩ := acquire_ok acquired
    cases body with
    | sleep chan n =>
      cases rest
      exact wf.explained_thread current (.enterSleep position isFree)
    | _ =>
      cases rest
      exact wf.explained_thread current (.enter position isFree (by simp))
  | inside body =>
    simp only [position] at taken
    exact wf.explained_work current position taken
  | unlocking chan n =>
    simp only [position] at taken
    obtain ⟨m₁, released, rest⟩ := bind_ok.mp taken
    obtain ⟨held, rfl⟩ := release_ok released
    cases rest
    exact wf.explained_thread current (.unlock position held)
  | releasing after =>
    simp only [position] at taken
    obtain ⟨m₁, released, rest⟩ := bind_ok.mp taken
    obtain ⟨held, rfl⟩ := release_ok released
    cases after with
    | ret result =>
      cases rest
      exact wf.explained_thread current (.leave position held)
    | relock n =>
      cases rest
      exact ⟨ready, free, .leaveSleep current position held, wf.listed⟩
  | switched resume =>
    simp only [position] at taken
    have tidied : (m.table.tidyUp p).Listed ready free := wf.listed.congr rfl rfl rfl rfl rfl
    cases resume with
    | forkret =>
      cases taken
      exact wf.explained_thread current (.resume (.inl position))
    | yield =>
      cases taken
      exact wf.explained_thread current (.resume (.inr position))
    | sleep lk =>
      cases lk with
      | ptable =>
        cases taken
        exact ⟨ready, free, .wakesUp current position .ptable, tidied⟩
      | other n =>
        cases taken
        exact ⟨ready, free, .wakesUp current position .other, tidied⟩
    | wait =>
      cases taken
      exact ⟨ready, free, .wakesUp current position .wait, tidied⟩
    | exit => cases taken

end

theorem explained_scan {i : Nat} (position : m.sched c = .scan i) (taken : m.scan c i = .ok m') :
    m.Explained ready free (.advance c) m' := by
  unfold scan at taken
  split at taken
  · rename_i inside
    split at taken
    · rename_i empty
      cases taken
      have move : m.SchedMove c (.advance c) m.locks (.scan (i + 1)) :=
        .skip (i := ⟨i, inside⟩) position empty
      exact ⟨ready, free, .scheduler move, wf.listed⟩
    · rename_i p head
      have linked := wf.listed.queues.linked ⟨i, inside⟩
      rw [head] at linked
      obtain ⟨back, sequence, -⟩ := linked.head_some
      obtain ⟨next, readyList, priority, time, ready', dispatched, listed, kept, turn⟩ :=
        wf.listed.dispatch sequence
      have member : p ∈ ready ⟨i, inside⟩ := by rw [sequence]; simp
      have runnable := ((wf.listed.mem_ready ⟨i, inside⟩).mp member).1
      simp only [dispatched] at taken
      cases taken
      exact ⟨ready', free, .dispatch (k := ⟨i, inside⟩) position sequence runnable kept turn,
        listed⟩
  · obtain ⟨m₁, released, rest⟩ := bind_ok.mp taken
    obtain ⟨held, rfl⟩ := release_ok released
    cases rest
    exact wf.explained_scheduler (.leave position held)

theorem explained_advanceHandler {h : Handler} (position : m.sched c = .handler h)
    (taken : m.advanceHandler c h = .ok m') : m.Explained ready free (.advance c) m' := by
  cases h with
  | ready => cases taken
  | acquiring chan =>
    obtain ⟨m₁, acquired, rest⟩ := bind_ok.mp taken
    obtain ⟨isFree, rfl⟩ := acquire_ok acquired
    cases rest
    exact wf.explained_scheduler (.enterHandler position isFree)
  | inside chan =>
    obtain ⟨next, readyList, ready', woken, listed, appended⟩ := wf.listed.wakeup1 chan
    simp only [advanceHandler, woken] at taken
    cases taken
    exact ⟨ready', free, .handlerWakeup position appended, listed⟩
  | releasing =>
    obtain ⟨m₁, released, rest⟩ := bind_ok.mp taken
    obtain ⟨held, rfl⟩ := release_ok released
    cases rest
    exact wf.explained_scheduler (.leaveHandler position held)

theorem explained_callProc (current : m.Current c p) (position : m.pc p = .ready) {call : Call}
    (taken : m.callProc c p call = .ok m') : m.Explained ready free (.call c call) m' := by
  unfold callProc at taken
  split at taken
  · cases taken
  · rename_i allowed
    have notForking : call.fromInterrupt = false → m.fork p = .none := by
      intro own
      by_contra forking
      exact allowed ⟨forking, by simp [own]⟩
    cases call with
    | sleep chan lk =>
      cases lk with
      | ptable => exact wf.explained_sleep current (.call position (notForking rfl)) taken
      | other n =>
        cases taken
        refine wf.explained_thread current (.call rfl position (notForking rfl) (by simp) ?_)
        rintro _ _ ⟨⟩
        rfl
    | exit =>
      simp only at taken
      split at taken
      · cases taken
      · rename_i notInit
        cases taken
        exact wf.explained_thread current
          (.call rfl position (notForking rfl) (fun _ => notInit) (by simp))
    | setPriority pid priority =>
      simp only at taken
      split at taken
      · cases taken
        exact wf.explained_thread_ready current position (.refused rfl position)
      · rename_i checked
        cases taken
        have bounded : 0 ≤ priority.toInt ∧ priority.toInt < size := by
          have : (size : Int) = 3 := rfl
          omega
        exact wf.explained_thread current
          (.call rfl position ⟨notForking rfl, bounded⟩ (by simp) (by simp))
    | yield =>
      cases taken
      exact wf.explained_thread current (.call rfl position trivial (by simp) (by simp))
    | wakeup chan =>
      cases taken
      exact wf.explained_thread current (.call rfl position trivial (by simp) (by simp))
    | _ =>
      cases taken
      exact wf.explained_thread current (.call rfl position (notForking rfl) (by simp) (by simp))

theorem explained_forkStep (current : m.Current c p) (position : m.pc p = .ready) {ok : Bool}
    (taken : m.forkStep p ok = .ok m') : m.Explained ready free (.fork c ok) m' := by
  unfold forkStep at taken
  have unused : ∀ np, (m.fork p).child = some np → (m.fork p).childState = .embryo →
      Ptable.Listed { m.table with state := update m.table.state np .unused }
        ready free := by
    intro np child state
    obtain ⟨embryo, notFree, -⟩ := wf.child p np child
    exact wf.listed.setState np .unused (by rw [embryo, state]; decide) (by decide) notFree
  cases stage : m.fork p with
  | none => simp [stage] at taken
  | relock n => simp [stage] at taken
  | kalloc np =>
    have listed := unused np (by rw [stage]; rfl) (by rw [stage]; rfl)
    cases ok with
    | true =>
      simp only [stage, if_true] at taken
      cases taken
      exact ⟨ready, free, .kallocOk current position stage, wf.listed⟩
    | false =>
      simp only [stage] at taken
      cases taken
      exact ⟨ready, free, .kallocFailed current position stage, listed⟩
  | copyuvm np =>
    have listed := unused np (by rw [stage]; rfl) (by rw [stage]; rfl)
    cases ok with
    | true =>
      simp only [stage, if_true] at taken
      cases taken
      exact ⟨ready, free, .copyuvmOk current position stage, wf.listed⟩
    | false =>
      simp only [stage] at taken
      cases taken
      exact ⟨ready, free, .copyuvmFailed current position stage, listed⟩
  | failed np =>
    simp only [stage] at taken
    cases taken
    exact wf.explained_thread current (.call rfl position stage (by simp) (by simp))
  | parent np =>
    simp only [stage] at taken
    cases taken
    exact ⟨ready, free, .forkParent current position stage,
      wf.listed.congr rfl rfl rfl rfl rfl⟩
  | inherit np =>
    simp only [stage] at taken
    cases taken
    have embryo := (wf.child p np (by rw [stage]; rfl)).1
    have listed := wf.listed.setPriority_off np (by rw [embryo, stage]; simp [Forking.childState])
      defaultPrio (by decide)
    exact ⟨ready, free, .forkInherit current position stage, listed.congr rfl rfl rfl rfl rfl⟩
  | done np pid =>
    simp only [stage] at taken
    cases taken
    exact wf.explained_thread current (.call rfl position stage (by simp) (by simp))

theorem explained (taken : m.step a = .ok m') : m.Explained ready free a m' := by
  cases a with
  | advance c =>
    simp only [step, advance] at taken
    cases position : m.sched c with
    | idle =>
      simp only [position] at taken
      obtain ⟨m₁, acquired, rest⟩ := bind_ok.mp taken
      obtain ⟨isFree, rfl⟩ := acquire_ok acquired
      cases rest
      exact wf.explained_scheduler (.enter position isFree)
    | handler h =>
      simp only [position] at taken
      exact wf.explained_advanceHandler position taken
    | scan i =>
      simp only [position] at taken
      exact wf.explained_scan position taken
    | running i =>
      simp only [position] at taken
      split at taken
      · cases taken
      · rename_i p current
        exact wf.explained_advanceProc ⟨⟨i, position⟩, current⟩ taken
  | call c call =>
    simp only [step] at taken
    split at taken
    · rename_i p found
      obtain ⟨current, position⟩ := readyProc_some found
      exact wf.explained_callProc current position taken
    · split at taken
      · rename_i position
        cases taken
        exact wf.explained_scheduler (.call position)
      · cases taken
  | fork c ok =>
    simp only [step] at taken
    split at taken
    · rename_i p found
      obtain ⟨current, position⟩ := readyProc_some found
      exact wf.explained_forkStep current position taken
    · cases taken
  | acquire c lk =>
    simp only [step] at taken
    split at taken
    · rename_i idle
      obtain ⟨isFree, rfl⟩ := acquire_ok taken
      rcases idle with found | position
      · obtain ⟨p, found⟩ := Option.isSome_iff_exists.mp found
        obtain ⟨current, position⟩ := readyProc_some found
        exact wf.explained_thread_ready current position (.acquire position isFree)
      · exact wf.explained_handler_ready position (.acquire position isFree)
    · cases taken
  | release c lk =>
    simp only [step] at taken
    split at taken
    · rename_i idle
      obtain ⟨held, rfl⟩ := release_ok taken
      rcases idle with found | position
      · obtain ⟨p, found⟩ := Option.isSome_iff_exists.mp found
        obtain ⟨current, position⟩ := readyProc_some found
        exact wf.explained_thread_ready current position (.release position held)
      · exact wf.explained_handler_ready position (.release position held)
    · cases taken
  | trap c =>
    simp only [step] at taken
    split at taken
    · rename_i p found
      obtain ⟨current, position⟩ := readyProc_some found
      split at taken
      · cases taken
        exact ⟨ready, free, .trap current position, wf.listed.congr rfl rfl rfl rfl rfl⟩
      · cases taken
    · cases taken
  | interrupt c =>
    simp only [step] at taken
    split at taken
    · rename_i idle
      cases taken
      exact wf.explained_scheduler (.interrupt idle.1)
    · cases taken
  | iret c =>
    simp only [step] at taken
    split at taken
    · rename_i position
      cases taken
      exact wf.explained_scheduler (.iret position)
    · cases taken

end

end WellFormed

end Machine

end Xv6
