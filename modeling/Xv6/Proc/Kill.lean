import Xv6.Proc.ExitWait

/-!
# Kill

`kill` looks its process up by process ID and not by state, so it also marks a slot without a
process when that slot comes first with the ID: zero, which free slots carry, or the stale ID of a
failed `fork`. A mark on such a slot is inherited by the process that gets the slot next. The only
other way for a slot without a process to be marked is a `fork` that fails after its slot was
killed.
-/

namespace Xv6

namespace Ptable

variable {t : Ptable} {ready : Fin size → List Slot} {free : List Slot} {pid : Word} {p : Slot}

def KillsLive (t : Ptable) (pid : Word) : Prop :=
  ∀ p, t.findPid pid = some p → t.state p ≠ .unused

/-- What `kill` should do: return 0 and mark the process with the ID if there is one, and
otherwise return -1 and change nothing. -/
def KillSpec (t : Ptable) (pid : Word) : Prop :=
  ∃ t' result, t.kill pid = .ok (t', result) ∧ (result = 0 ∨ result = -1) ∧
    (result = 0 ↔ ∃ p, t.state p ≠ .unused ∧ t.pid p = pid) ∧
    (result = 0 → ∃ p, t.state p ≠ .unused ∧ t.pid p = pid ∧
      t'.killed = Function.update t.killed p true) ∧
    (result = -1 → t' = t)

@[grind →]
theorem findPid_some (found : t.findPid pid = some p) : t.pid p = pid := by
  simpa using List.find?_some found

theorem findPid_none (absent : t.findPid pid = none) (p : Slot) : t.pid p ≠ pid := by
  have none := List.find?_eq_none.mp absent p (by simp [slots])
  simpa using none

theorem Listed.killSpec (listed : t.Listed ready free) (live : t.KillsLive pid) :
    t.KillSpec pid := by
  cases found : t.findPid pid with
  | none =>
    have nobody := findPid_none found
    refine ⟨t, -1, by simp [Ptable.kill, found], .inr rfl, ?_, by simp, fun _ => rfl⟩
    refine iff_of_false (by decide) ?_
    rintro ⟨p, -, same⟩
    exact nobody p same
  | some p =>
    obtain ⟨next, readyList, ready', killed, -, -⟩ := listed.kill found
    have used := live p found
    have named := findPid_some found
    exact ⟨_, 0, killed, .inl rfl, iff_of_true rfl ⟨p, used, named⟩, fun _ => ⟨p, used, named, rfl⟩,
      fun failed => by cases failed⟩

end Ptable

namespace Machine

variable {Cpu : Type}

theorem FreshPids.killsLive {m : Machine Cpu} {ready : Fin size → List Slot} {free : List Slot}
    (fresh : m.FreshPids) (listed : m.table.Listed ready free) {pid : Word}
    (spec : m.table.KillSpec pid) : m.table.KillsLive pid := by
  intro p found unused
  obtain ⟨t', result, killed, -, returns, -, -⟩ := spec
  obtain ⟨next, readyList, ready', succeeds, -, -⟩ := listed.kill found
  rw [killed] at succeeds
  have zero : result = 0 := (Prod.mk.inj (Except.ok.inj succeeds)).2
  obtain ⟨q, used, named⟩ := returns.mp zero
  have same := Ptable.findPid_some found
  have given := fresh.nonzero q used
  rw [fresh.unique q p (named.trans same.symm) given] at used
  exact used unused

def Kills (m : Machine Cpu) (a : Action Cpu) (pid : Word) : Prop :=
  ∃ c p, a = .advance c ∧ m.Current c p ∧ m.pc p = .inside (.kill pid)

def marksFree (m : Machine Cpu) : Action Cpu → Bool
  | .advance c =>
    match m.sched c, m.proc c with
    | .running _, some p =>
      match m.pc p with
      | .inside (.kill pid) => (m.table.findPid pid).any fun q => m.table.state q = .unused
      | _ => false
    | _, _ => false
  | _ => false

def freesMarked (m : Machine Cpu) : Action Cpu → Bool
  | .fork c false =>
    match m.readyProc c with
    | some p =>
      match m.fork p with
      | .kalloc np | .copyuvm np => m.table.killed np
      | _ => false
    | none => false
  | _ => false

variable [DecidableEq Cpu] {m m' : Machine Cpu} {ready ready' : Fin size → List Slot}
  {free free' : List Slot} {a : Action Cpu}

def Unmarked (m : Machine Cpu) : Prop := ∀ p, m.table.state p = .unused → m.table.killed p = false

theorem WellFormed.unmarked_step (wf : m.WellFormed ready free) (unmarked : m.Unmarked)
    (regular : ¬ (m.marksFree a || m.freesMarked a))
    (effect : m.Effect ready free a m' ready' free') : m'.Unmarked := by
  intro p unused
  have known := unmarked p
  have child := wf.child
  cases effect with
  | @kill c r pid q _ _ _ current position found =>
    obtain ⟨⟨i, index⟩, proc⟩ := current
    have live : m.table.state q ≠ .unused := by
      simpa [marksFree, freesMarked, index, proc, position, found] using regular
    grind -ring -linarith -lia
  | kallocFailed current position stage | copyuvmFailed current position stage =>
    obtain ⟨⟨i, index⟩, proc⟩ := current
    simp only [marksFree, freesMarked, readyProc, index, proc, position, if_true, stage] at regular
    grind -ring -linarith -lia
  | _ => grind -ring -linarith -lia

theorem WellFormed.embryo_step (wf : m.WellFormed ready free) {np : Slot} {pid : Word}
    (embryo : m.table.state np = .embryo ∧ m.table.killed np = false ∧ m.table.pid np = pid)
    (effect : m.Effect ready free a m' ready' free') :
    (m'.table.state np = .embryo ∧ m'.table.killed np = false ∧ m'.table.pid np = pid) ∨
      m.Kills a pid ∨ m'.table.state np = .runnable ∧ m'.table.killed np = false ∨
      m'.table.state np = .unused := by
  have unused := wf.listed.unused
  cases effect with
  | @kill c r pid' q _ _ _ current position found =>
    by_cases same : q = np
    · right
      left
      exact ⟨c, r, rfl, current, by grind -ring -linarith -lia⟩
    · grind -ring -linarith -lia
  | _ => grind -ring -linarith -lia

/-- `kill` does what it should whenever the slot it finds holds a process, and, as long as `nextpid`
has not wrapped, only then. In runs in which every `kill` finds such a slot and no `fork` fails
after its slot was killed, slots without a process are never marked, and a slot that `allocproc`
takes stays unmarked until `kill` is called with the process ID it was given, until it starts, or
until it is given back. -/
theorem kill_live_only {actions : List (Action Cpu)}
    (reached : Transition.run step booted actions = .ok m) :
    (∀ pid, m.table.KillsLive pid → m.table.KillSpec pid) ∧
    (Transition.Along step (fun m _ => m.table.nextpid.toNat + 1 < 2 ^ 32) booted actions →
      ∀ pid, m.table.KillSpec pid → m.table.KillsLive pid) ∧
    (Transition.Along step (fun m a => ¬ (m.marksFree a || m.freesMarked a)) booted actions →
      (∀ p, m.table.state p = .unused → m.table.killed p = false) ∧
      ∀ a m' np later m₁, m.step a = .ok m' → m.table.state np = .unused →
        m'.table.state np = .embryo → Transition.run step m' later = .ok m₁ →
        (m₁.table.state np = .embryo ∧ m₁.table.killed np = false ∧
          m₁.table.pid np = m'.table.pid np) ∨
        Transition.Occurs step (fun before b after => before.Kills b (m'.table.pid np) ∨
          after.table.state np = .runnable ∧ after.table.killed np = false ∨
          after.table.state np = .unused) m' later) := by
  obtain ⟨ready, free, wf⟩ := reached_wellFormed reached
  refine ⟨fun pid live => wf.listed.killSpec live, fun noWrap pid spec => ?_, fun regular => ?_⟩
  · exact (reached_freshPids noWrap reached).killsLive wf.listed spec
  · obtain ⟨_, _, -, unmarked⟩ := reached_along
      (fun m a => ¬ (m.marksFree a || m.freesMarked a)) (fun m _ _ => m.Unmarked)
      (by
        have unmarked : ∀ p, Ptable.booted.killed p = false := by decide +kernel
        intro p _
        simpa only [booted] using unmarked p)
      (fun m m' ready free ready' free' a wf unmarked regular effect _ =>
        wf.unmarked_step unmarked regular effect) regular reached
    refine ⟨unmarked, fun a m' np later m₁ taken unused embryo ran => ?_⟩
    obtain ⟨ready', free', effect, listed⟩ := wf.explained taken
    have wf' := wf.effect_step effect listed
    have start : m'.table.killed np = false := by
      have known := unmarked np unused
      have child := wf.child
      cases effect <;> grind -ring -linarith -lia
    rcases wf'.stage_run
      (fun m _ _ => m.table.state np = .embryo ∧ m.table.killed np = false ∧
        m.table.pid np = m'.table.pid np) _
      (fun m m' ready free ready' free' a wf embryo effect => wf.embryo_step embryo effect)
      ⟨embryo, start, rfl⟩ ran with ⟨-, -, -, stays⟩ | happens
    · exact .inl stays
    · exact .inr happens

def killsChild : List (Action Unit) :=
  startInit () ++ forks () ++ .call () (.kill 2) :: List.replicate 3 (.advance ())

/-- The first process kills its child, and slots without a process stay unmarked. -/
theorem kill_live_only_child : ∃ m : Machine Unit,
    Transition.run step booted killsChild = .ok m ∧ m.table.KillSpec 2 ∧
      ∀ p, m.table.state p = .unused → m.table.killed p = false := by
  have checked : Transition.ends (fun m => decide (m.table.findPid 2 = some 62 ∧
      m.table.state 62 ≠ .unused)) (Transition.run step booted killsChild) = true := by
    decide +kernel
  have regular : Transition.Along step (fun m a => ¬ (m.marksFree a || m.freesMarked a)) booted
      killsChild := by
    decide +kernel
  obtain ⟨m, reached, facts⟩ := Transition.exists_of_ends checked
  obtain ⟨found, used⟩ := of_decide_eq_true facts
  obtain ⟨spec, -, run⟩ := kill_live_only reached
  refine ⟨m, reached, spec 2 (fun p finds => ?_), (run regular).1⟩
  rw [found] at finds
  cases finds
  exact used

/-- `kill(0)` on the table after `userinit`: no process has the ID, but the call returns 0 and
marks a free slot. -/
theorem kill_marks_free : ∃ m : Machine Unit,
    Transition.run step booted (startInit () ++ [.call () (.kill 0), .advance (), .advance ()]) =
        .ok m ∧
      m.pc 63 = .releasing (.ret (some 0)) ∧
      (∀ p, m.table.state p ≠ .unused → m.table.pid p ≠ 0) ∧
      m.table.state 0 = .unused ∧ m.table.killed 0 = true := by
  have checked : Transition.ends (fun m => decide (m.pc 63 = .releasing (.ret (some 0)) ∧
      (∀ p, m.table.state p ≠ .unused → m.table.pid p ≠ 0) ∧
      m.table.state 0 = .unused ∧ m.table.killed 0 = true))
      (Transition.run step (booted : Machine Unit)
        (startInit () ++ [.call () (.kill 0), .advance (), .advance ()])) = true := by
    decide +kernel
  obtain ⟨m, reached, facts⟩ := Transition.exists_of_ends checked
  exact ⟨m, reached, of_decide_eq_true facts⟩

end Machine

end Xv6
