import Xv6.Proc.ReadyLists

/-!
# The reset of the priorities

Every `COUNT` dispatches the scheduler calls `resetReadyList`, after it has taken a process off
its list and before that process is `RUNNING`.
-/

namespace Xv6.Machine

open Transition (run ends)
open Function (update update_of_ne update_self)

variable {Cpu : Type} [DecidableEq Cpu] {m : Machine Cpu} {actions : List (Action Cpu)}

theorem timeToReset_bounded (reached : run step booted actions = .ok m) :
    1 ≤ m.table.timeToReset.toNat ∧ m.table.timeToReset.toNat ≤ count.toNat := by
  obtain ⟨-, -, -, bounded⟩ := reached_always
    (fun m _ _ => 1 ≤ m.table.timeToReset.toNat ∧ m.table.timeToReset.toNat ≤ count.toNat)
    (by simp only [booted, Ptable.booted_timeToReset]; decide)
    (fun m m' ready free ready' free' a wf bounded effect _ => by
      cases effect with
      | dispatch _ _ _ _ turn =>
        rcases turn with ⟨notDue, time, -⟩ | ⟨-, time, -⟩
        · simp only [time]
          bv_omega
        · simp only [time]
          decide
      | _ => exact bounded) reached
  exact bounded

omit [DecidableEq Cpu] in
theorem WellFormed.filter_head {ready : Fin size → List Slot} {free : List Slot} {p : Slot}
    {k : Fin size} {back : List Slot} (wf : m.WellFormed ready free) (head : ready k = p :: back)
    (j : Fin size) : (ready j).filter (· ≠ p) = update ready k back j := by
  by_cases same : j = k
  · subst same
    have distinct := wf.listed.queues.distinct j
    rw [head] at distinct ⊢
    have absent := (List.nodup_cons.mp distinct).1
    simp only [update_self, ne_eq, decide_not, List.filter_cons, decide_true,
      Bool.not_true, Bool.false_eq_true, if_false, List.filter_eq_self]
    intro q member
    simpa using fun equal : q = p => absent (equal ▸ member)
  · rw [update_of_ne same, List.filter_eq_self]
    intro q member
    have elsewhere := wf.listed.queues.ready_disjoint (p := p) (Ne.symm same) (by simp [head])
    simpa using fun equal : q = p => elsewhere (equal ▸ member)

/-- At a dispatch that performs the reset the high and the low list become empty and the default
list becomes the concatenation of the old ones without the dispatched process. The processes that
run, sleep or wait for a CPU all have the default priority exactly when the dispatched process
was taken from the default list: it is off the lists and still `RUNNABLE`, so neither loop of
`resetReadyList` sees it. The countdown never leaves its range. -/
theorem reset_reaches_all_iff (reached : Transition.run step booted actions = .ok m) :
    (1 ≤ m.table.timeToReset.toNat ∧ m.table.timeToReset.toNat ≤ count.toNat) ∧
    ∀ (c : Cpu) (p : Slot) (m' : Machine Cpu) (old : Fin size → List Slot),
      (∀ k, Chain.Linked m.table.next (m.table.readyList k) (old k)) →
      m.step (.advance c) = .ok m' → m.proc c = none → m'.proc c = some p →
      m.table.timeToReset - 1 = 0 →
      (m'.table.state p = .running ∧ m'.table.readyList 0 = none ∧ m'.table.readyList 2 = none ∧
        Chain.Linked m'.table.next (m'.table.readyList 1)
          ((old 1).filter (· ≠ p) ++ (old 0).filter (· ≠ p) ++ (old 2).filter (· ≠ p))) ∧
      ((∀ q, m'.table.state q = .runnable ∨ m'.table.state q = .running ∨
          m'.table.state q = .sleeping → m'.table.priority q = defaultPrio) ↔
        m.table.priority p = defaultPrio) := by
  refine ⟨timeToReset_bounded reached, fun c p m' old linked taken idle current due => ?_⟩
  obtain ⟨ready, free, wf⟩ := reached_wellFormed reached
  obtain ⟨ready', free', effect, listed⟩ := wf.explained taken
  have sequences : old = ready := by
    funext k
    exact (linked k).unique (wf.listed.queues.linked k)
  subst sequences
  obtain ⟨k, back, -, -, head, state, kept, turn⟩ :=
    effect.dispatched (by rw [idle]; simp) current
  have running : m'.table.state p = .running := by rw [state]; simp
  rcases turn with ⟨notDue, -⟩ | ⟨-, -, after, reset⟩
  · exact absurd due notDue
  subst after
  refine ⟨⟨running, listed.queues.linked 0, listed.queues.linked 2, ?_⟩, fun all => ?_,
    fun default q live => ?_⟩
  · rw [wf.filter_head head, wf.filter_head head, wf.filter_head head]
    exact listed.queues.linked 1
  · rw [← kept]
    exact all p (.inr (.inl running))
  · by_cases same : q = p
    · rw [same, kept, default]
    · rw [state, Function.update_of_ne same] at live
      exact reset q same (by tauto)

section Lone

variable {m : Machine Unit}

structure Lone (m : Machine Unit) : Prop where
  reached : ∃ actions, Transition.run step booted actions = .ok m
  fork : m.fork 63 = .none
  others : ∀ p, p ≠ 63 → m.table.state p = .unused
  pid : m.table.pid = Ptable.booted.pid

/-- The only CPU runs the first process, which is between calls and holds no lock. -/
structure Alone (m : Machine Unit) : Prop extends Lone m where
  sched : m.sched () = .running 0
  proc : m.proc () = some 63
  pc : m.pc 63 = .ready
  lock : m.locks .ptable = none
  ncli : m.ncli () = 0

/-- The first process gave up the only CPU, whose scheduler is in its loop at a list. -/
structure Queued (m : Machine Unit) (i : Nat) : Prop extends Lone m where
  sched : m.sched () = .scan i
  runnable : m.table.state 63 = .runnable
  pc : m.pc 63 = .switched .yield
  lock : m.locks .ptable = some ()
  ncli : m.ncli () = 1

theorem Lone.reached_append (lone : m.Lone) {m' : Machine Unit} {later : List (Action Unit)}
    (ran : run step m later = .ok m') :
    ∃ actions, run step booted actions = .ok m' := by
  obtain ⟨actions, reached⟩ := lone.reached
  exact ⟨actions ++ later, Transition.run_append.mpr ⟨m, reached, ran⟩⟩

theorem Alone.yields (alone : m.Alone) :
    ∃ m' : Machine Unit, m'.Queued 0 ∧ m'.table.priority = m.table.priority ∧
      m'.table.timeToReset = m.table.timeToReset := by
  obtain ⟨actions, reached⟩ := alone.reached
  obtain ⟨ready, free, wf⟩ := reached_wellFormed reached
  have running : m.table.state 63 = .running := (wf.running 63).mpr ⟨(), alone.proc⟩
  obtain ⟨next, readyList, ready', put, -, -⟩ := wf.listed.makeRunnable 63
    (by rw [running]; decide) (wf.listed.not_free (by rw [running]; decide))
  have ran : run step m (.call () .yield :: List.replicate 2 (.advance ())) =
      .ok { m with
        table := { m.table with
          state := update m.table.state 63 .runnable
          next := next
          readyList := readyList }
        locks := update m.locks .ptable (some ())
        ncli := update m.ncli () 1
        pc := update m.pc 63 (.switched .yield)
        proc := update m.proc () none
        sched := update m.sched () (.scan 0) } := by
    simp [run, step, readyProc, alone.sched, alone.proc, alone.pc, callProc,
      Call.fromInterrupt, setPc, advance, advanceProc, acquire, alone.lock, alone.ncli, work,
      Ptable.yield, put, switch, bind, Except.bind]
  refine ⟨_, ⟨⟨alone.reached_append ran, alone.fork, ?_, alone.pid⟩, ?_, ?_, ?_, ?_, ?_⟩, rfl, rfl⟩
  · intro p other
    simp [other, alone.others]
  all_goals simp

variable {k : Fin size}

theorem Queued.mem_ready {i : Nat} {ready : Fin size → List Slot} {free : List Slot}
    (queued : m.Queued i) (wf : m.WellFormed ready free) {p : Slot} :
    p ∈ ready k ↔ p = 63 ∧ m.table.priority 63 = k := by
  rw [wf.listed.mem_ready]
  constructor
  · rintro ⟨runnable, priority⟩
    have same : p = 63 := by
      by_contra other
      rw [queued.others p other] at runnable
      cases runnable
    exact ⟨same, same ▸ priority⟩
  · rintro ⟨rfl, priority⟩
    exact ⟨queued.runnable, priority⟩

theorem Queued.skips (queued : m.Queued k) (elsewhere : m.table.priority 63 ≠ k) :
    ∃ m' : Machine Unit, m'.Queued (k + 1) ∧ m'.table.priority = m.table.priority ∧
      m'.table.timeToReset = m.table.timeToReset := by
  obtain ⟨actions, reached⟩ := queued.reached
  obtain ⟨ready, free, wf⟩ := reached_wellFormed reached
  have nobody : ready k = [] := by
    refine List.eq_nil_iff_forall_not_mem.mpr (fun p member => ?_)
    exact elsewhere ((queued.mem_ready wf).mp member).2
  have empty := (wf.listed.queues.linked k).head_none.mpr nobody
  have ran : run step m [.advance ()] =
      .ok { m with sched := update m.sched () (.scan (k + 1)) } := by
    simp [run, step, advance, queued.sched, scan, empty, setSched]
  exact ⟨_, ⟨⟨queued.reached_append ran, queued.fork, queued.others, queued.pid⟩, by simp,
    queued.runnable, queued.pc, queued.lock, queued.ncli⟩, rfl, rfl⟩

theorem Alone.waits (alone : m.Alone) (default : m.table.priority 63 = defaultPrio) :
    ∃ m' : Machine Unit, m'.Queued (1 : Fin size) ∧ m'.table.priority 63 = (1 : Fin size).val ∧
      m'.table.timeToReset = m.table.timeToReset := by
  obtain ⟨m₁, queued₁, priority₁, time₁⟩ := alone.yields
  have first : m₁.table.priority 63 = (1 : Fin size).val := by rw [priority₁]; exact default
  obtain ⟨m₂, queued₂, priority₂, time₂⟩ := Queued.skips (k := 0) queued₁ (by rw [first]; decide)
  exact ⟨m₂, queued₂, by rw [priority₂]; exact first, by rw [time₂, time₁]⟩

theorem Queued.list {i : Nat} (queued : m.Queued i) (here : m.table.priority 63 = k) :
    ∃ ready free, m.WellFormed ready free ∧ ready k = [63] ∧
      m.table.readyList k = some 63 := by
  obtain ⟨actions, reached⟩ := queued.reached
  obtain ⟨ready, free, wf⟩ := reached_wellFormed reached
  have linked := wf.listed.queues.linked k
  have distinct := wf.listed.queues.distinct k
  have member : 63 ∈ ready k := (queued.mem_ready wf).mpr ⟨rfl, here⟩
  have only : ∀ p ∈ ready k, p = 63 := fun p member => ((queued.mem_ready wf).mp member).1
  cases list : ready k with
  | nil =>
    rw [list] at member
    cases member
  | cons first rest =>
    rw [list] at only distinct linked
    have alone : rest = [] := by
      refine List.eq_nil_iff_forall_not_mem.mpr (fun p member => ?_)
      have same : p = first := (only p (by simp [member])).trans (only first (by simp)).symm
      exact (List.nodup_cons.mp distinct).1 (same ▸ member)
    rw [only first (by simp)] at linked list
    exact ⟨ready, free, wf, by rw [list, alone], linked.1⟩

theorem Queued.runs (queued : m.Queued k) (here : m.table.priority 63 = k) (notLow : k.val ≠ 2)
    (notDue : m.table.timeToReset - 1 ≠ 0) :
    ∃ m' : Machine Unit, m'.Alone ∧ m'.table.priority = m.table.priority ∧
      m'.table.timeToReset = m.table.timeToReset - 1 := by
  obtain ⟨ready, free, wf, head, listHead⟩ := queued.list here
  obtain ⟨next, readyList, priority, time, ready', dispatched, -, -, turn⟩ :=
    wf.listed.dispatch head
  rcases turn with ⟨-, counted, same, -⟩ | ⟨due, -⟩
  · subst counted same
    have ran : run step m (List.replicate 3 (.advance ())) =
        .ok { m with
          table := { m.table with
            state := update m.table.state 63 .running
            next := next
            readyList := readyList
            timeToReset := m.table.timeToReset - 1 }
          locks := update m.locks .ptable none
          ncli := update m.ncli () 0
          pc := update m.pc 63 .ready
          proc := update m.proc () (some 63)
          sched := update m.sched () (.running 0) } := by
      simp [run, step, advance, queued.sched, scan, listHead, dispatched, notLow,
        advanceProc, queued.pc, resume, setPc, release, queued.lock, queued.ncli, bind, Except.bind]
    refine ⟨_, ⟨⟨queued.reached_append ran, queued.fork, ?_, queued.pid⟩, by simp, by simp, by simp,
      by simp, by simp⟩, rfl, rfl⟩
    intro p other
    simp [other, queued.others]
  · exact absurd due notDue

theorem Alone.turn (alone : m.Alone) (default : m.table.priority 63 = defaultPrio)
    (notDue : m.table.timeToReset - 1 ≠ 0) :
    ∃ m' : Machine Unit, m'.Alone ∧ m'.table.priority 63 = defaultPrio ∧
      m'.table.timeToReset = m.table.timeToReset - 1 := by
  obtain ⟨m₁, queued, here, time₁⟩ := alone.waits default
  obtain ⟨m₂, alone₂, priority₂, time₂⟩ := queued.runs here (by decide) (by rwa [time₁])
  refine ⟨m₂, alone₂, ?_, ?_⟩
  · rw [priority₂]
    exact here
  · rw [time₂, time₁]

theorem Alone.countsDown (n : Nat) (alone : m.Alone)
    (default : m.table.priority 63 = defaultPrio) (time : m.table.timeToReset.toNat = n + 1) :
    ∃ m' : Machine Unit, m'.Alone ∧ m'.table.priority 63 = defaultPrio ∧
      m'.table.timeToReset = 1 := by
  induction n generalizing m with
  | zero => exact ⟨m, alone, default, BitVec.eq_of_toNat_eq time⟩
  | succ n ih =>
    obtain ⟨m', alone', default', time'⟩ := alone.turn default (by bv_omega)
    exact ih alone' default' (by rw [time']; bv_omega)

theorem Alone.raises (alone : m.Alone) (default : m.table.priority 63 = defaultPrio) :
    ∃ m' : Machine Unit, m'.Alone ∧ m'.table.priority 63 = high ∧
      m'.table.timeToReset = m.table.timeToReset := by
  obtain ⟨actions, reached⟩ := alone.reached
  obtain ⟨ready, free, wf⟩ := reached_wellFormed reached
  have running : m.table.state 63 = .running := (wf.running 63).mpr ⟨(), alone.proc⟩
  have found : m.table.findPid 1#32 = some 63 := by
    unfold Ptable.findPid
    rw [alone.pid]
    decide +kernel
  have ran : run step m
        (.call () (.setPriority 1 0) :: List.replicate 3 (.advance ())) =
      .ok { m with
        table := { m.table with priority := update m.table.priority 63 high }
        ncli := update m.ncli () 0
        pc := update m.pc 63 .ready
        locks := update m.locks .ptable none } := by
    simp [run, step, readyProc, alone.sched, alone.proc, alone.pc, callProc,
      Call.fromInterrupt, setPc, advance, advanceProc, acquire, alone.lock, alone.ncli, work,
      Ptable.setPriority, found, running, bind, Except.bind, release, alone.fork, default,
      defaultPrio, high]
  exact ⟨_, ⟨⟨alone.reached_append ran, alone.fork, alone.others, alone.pid⟩, alone.sched,
    alone.proc, by simp, by simp, by simp⟩, by simp, rfl⟩

theorem exists_alone_due : ∃ m : Machine Unit, m.Alone ∧ m.table.priority 63 = defaultPrio ∧
    m.table.timeToReset = 1 := by
  have checked : ends (fun m => decide (m.sched () = .running 0 ∧
      m.proc () = some 63 ∧ m.pc 63 = .ready ∧ m.locks .ptable = none ∧ m.ncli () = 0 ∧
      m.fork 63 = .none ∧ (∀ p, p ≠ 63 → m.table.state p = .unused) ∧
      (∀ p, m.table.pid p = Ptable.booted.pid p) ∧ m.table.priority 63 = defaultPrio ∧
      m.table.timeToReset = 4499))
      (run step (booted : Machine Unit) (startInit ())) = true := by
    decide +kernel
  obtain ⟨m, reached, facts⟩ := Transition.exists_of_ends checked
  obtain ⟨sched, proc, pc, lock, ncli, fork, others, pid, default, time⟩ :=
    of_decide_eq_true facts
  have alone : m.Alone :=
    ⟨⟨⟨_, reached⟩, fork, others, funext pid⟩, sched, proc, pc, lock, ncli⟩
  exact alone.countsDown 4498 default (by rw [time]; rfl)

theorem Queued.dispatches (queued : m.Queued k) (here : m.table.priority 63 = k) :
    ∃ (m' : Machine Unit) (ready : Fin size → List Slot), m.step (.advance ()) = .ok m' ∧
      m'.proc () = some 63 ∧ m.proc () = none ∧
      (∀ k, Chain.Linked m.table.next (m.table.readyList k) (ready k)) ∧
      m'.table.state 63 = .running ∧ m'.table.priority 63 = m.table.priority 63 := by
  obtain ⟨ready, free, wf, head, listHead⟩ := queued.list here
  have idle : m.proc () = none := by
    cases current : m.proc () with
    | none => rfl
    | some p =>
      obtain ⟨i, switched⟩ := wf.switchedTo () p current
      rw [queued.sched] at switched
      cases switched
  obtain ⟨next, readyList, priority, time, ready', dispatched, -, kept, -⟩ :=
    wf.listed.dispatch head
  refine ⟨{ m with
      table := { m.table with
        state := update m.table.state 63 .running
        next := next
        readyList := readyList
        priority := priority
        timeToReset := time }
      proc := update m.proc () (some 63)
      sched := update m.sched () (.running (if k.val ≠ 2 then 0 else k.val + 1)) },
    ready, ?_, by simp, idle, wf.listed.queues.linked, by simp, kept⟩
  simp [step, advance, queued.sched, scan, listHead, dispatched, bind, Except.bind]

end Lone

/-- A reset that reaches everybody: the dispatched process was on the default list. -/
theorem reset_reaches_all_default : ∃ (actions : List (Action Unit)) (m m' : Machine Unit),
    Transition.run step booted actions = .ok m ∧ m.table.timeToReset - 1 = 0 ∧
      m.step (.advance ()) = .ok m' ∧ m.proc () = none ∧ m'.proc () = some 63 ∧
      ∀ q, m'.table.state q = .runnable ∨ m'.table.state q = .running ∨
        m'.table.state q = .sleeping → m'.table.priority q = defaultPrio := by
  obtain ⟨m₀, alone, default, due⟩ := exists_alone_due
  obtain ⟨m, queued, here, time⟩ := alone.waits default
  obtain ⟨m', ready, taken, current, idle, linked, -, -⟩ := queued.dispatches here
  obtain ⟨actions, reached⟩ := queued.reached
  have zero : m.table.timeToReset - 1 = 0 := by rw [time, due]; rfl
  exact ⟨actions, m, m', reached, zero, taken, idle, current,
    ((reset_reaches_all_iff reached).2 () 63 m' ready linked taken idle current zero).2.mpr here⟩

/-- A reset that misses the dispatched process: it was taken from the high list and enters
`RUNNING` with the high priority. -/
theorem reset_misses_dispatched : ∃ (actions : List (Action Unit)) (m m' : Machine Unit),
    Transition.run step booted actions = .ok m ∧ m.table.timeToReset - 1 = 0 ∧
      m.step (.advance ()) = .ok m' ∧ m.proc () = none ∧ m'.proc () = some 63 ∧
      m'.table.state 63 = .running ∧ m'.table.priority 63 = high := by
  obtain ⟨m₀, alone, default, due⟩ := exists_alone_due
  obtain ⟨m₁, alone₁, raised, time₁⟩ := alone.raises default
  obtain ⟨m, queued, priority, time⟩ := alone₁.yields
  have here : m.table.priority 63 = (0 : Fin size).val := by rw [priority]; exact raised
  have due' : m.table.timeToReset = 1 := by rw [time, time₁, due]
  obtain ⟨m', ready, taken, current, idle, -, running, kept⟩ :=
    Queued.dispatches (k := 0) queued here
  obtain ⟨actions, reached⟩ := queued.reached
  exact ⟨actions, m, m', reached, by rw [due']; rfl, taken, idle, current, running,
    kept.trans here⟩

end Xv6.Machine
