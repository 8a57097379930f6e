import Xv6.Proc.Effect

/-!
# The machine invariant

Every effect keeps the machine well formed, the machine at the end of `userinit` is well formed,
and so every machine that a run reaches is.
-/

namespace Xv6

open Xv6.Action (cpu)

namespace Ptable

/-- The ready sequences at the end of `userinit`: the first process, at the default priority. -/
def bootedReady : Fin size → List Slot := fun k => if k = 1 then [63] else []

/-- The free sequence at the end of `userinit`: the other slots, from the highest down. -/
def bootedFree : List Slot := slots.reverse.tail

theorem booted_listed : booted.Listed bootedReady bootedFree where
  queues :=
    { linked := by decide +kernel
      distinct := by decide +kernel
      mem := by decide +kernel
      freeLinked := by decide +kernel
      freeDistinct := by decide +kernel
      freeOff := by decide +kernel
      bounded := by decide +kernel }
  unused := by decide +kernel

theorem booted_state (p : Slot) : booted.state p = if p = 63 then .runnable else .unused := by
  revert p
  decide +kernel

theorem booted_timeToReset : booted.timeToReset = count := by decide +kernel

end Ptable

namespace Machine

variable {Cpu : Type} [DecidableEq Cpu] {m m' : Machine Cpu} {ready ready' : Fin size → List Slot}
  {free free' : List Slot} {a : Action Cpu}

namespace WellFormed

section

variable (wf : m.WellFormed ready free) (effect : m.Effect ready free a m' ready' free')
include wf effect

theorem occupancy :
    (m'.proc = m.proc ∧ ∀ q, m'.table.state q = .running ↔ m.table.state q = .running) ∨
    (∃ c p, m.proc c = some p ∧ m'.proc = Function.update m.proc c none ∧
      ∀ q, m'.table.state q = .running ↔ m.table.state q = .running ∧ q ≠ p) ∨
    (∃ c p, m.proc c = none ∧ m.table.state p = .runnable ∧
      m'.proc = Function.update m.proc c (some p) ∧
      ∀ q, m'.table.state q = .running ↔ m.table.state q = .running ∨ q = p) := by
  have unused := wf.listed.unused
  have child := wf.child
  cases effect with
  | exit current | sleep current | yield current =>
    refine .inr (.inl ⟨_, _, current.2, rfl, fun q => ?_⟩)
    grind -ring -linarith -lia
  | @dispatch c p _ _ _ _ _ _ k position head runnable =>
    have nobody : m.proc c = none := by
      cases current : m.proc c with
      | none => rfl
      | some q =>
        obtain ⟨i, switched⟩ := wf.switchedTo c q current
        rw [position] at switched
        cases switched
    refine .inr (.inr ⟨c, p, nobody, runnable, rfl, fun q => ?_⟩)
    grind -ring -linarith -lia
  | _ =>
    refine .inl ⟨rfl, fun q => ?_⟩
    grind -ring -linarith -lia

theorem running_step (p : Slot) : m'.table.state p = .running ↔ ∃ c, m'.proc c = some p := by
  have running := wf.running
  have unique := wf.unique
  rcases wf.occupancy effect with ⟨same, states⟩ | ⟨c, q, current, off, states⟩ |
      ⟨c, q, nobody, runnable, on, states⟩
  · rw [states, same]
    exact running p
  · rw [states, off]
    constructor
    · rintro ⟨runs, other⟩
      obtain ⟨d, on⟩ := (running p).mp runs
      exact ⟨d, by grind -ring -linarith -lia⟩
    · rintro ⟨d, on⟩
      have runs := (running p).mpr ⟨d, by grind -ring -linarith -lia⟩
      exact ⟨runs, by grind -ring -linarith -lia⟩
  · rw [states, on]
    constructor
    · rintro (runs | rfl)
      · obtain ⟨d, on⟩ := (running p).mp runs
        exact ⟨d, by grind -ring -linarith -lia⟩
      · exact ⟨c, by simp⟩
    · rintro ⟨d, on⟩
      by_cases same : d = c
      · grind -ring -linarith -lia
      · exact .inl ((running p).mpr ⟨d, by grind -ring -linarith -lia⟩)

theorem unique_step (c d : Cpu) (p : Slot) (first : m'.proc c = some p)
    (second : m'.proc d = some p) : c = d := by
  have running := wf.running
  have unique := wf.unique
  rcases wf.occupancy effect with ⟨same, -⟩ | ⟨e, q, current, off, -⟩ |
      ⟨e, q, nobody, runnable, on, -⟩
  · rw [same] at first second
    exact unique c d p first second
  · rw [off] at first second
    grind -ring -linarith -lia
  · rw [on] at first second
    grind -ring -linarith -lia

theorem switchedTo_step (c : Cpu) (p : Slot) (current : m'.proc c = some p) :
    ∃ i, m'.sched c = .running i := by
  have switchedTo := wf.switchedTo
  cases effect with
  | scheduler move => cases move <;> grind -ring -linarith -lia
  | @dispatch d =>
    by_cases same : c = d
    · exact ⟨_, by rw [same]; exact Function.update_self ..⟩
    · grind -ring -linarith -lia
  | _ => grind -ring -linarith -lia

theorem parked_step (p : Slot)
    (waits : m'.table.state p = .runnable ∨ m'.table.state p = .sleeping ∨
      m'.table.state p = .zombie) :
    (m'.pc p).parked := by
  have parked := wf.parked
  have child := wf.child
  cases effect <;> grind -ring -linarith -lia

theorem forker_step (p : Slot) (forking : m'.fork p ≠ .none) :
    m'.table.state p = .running ∨ m'.table.state p = .runnable := by
  have forker := wf.forker
  have child := wf.child
  have fits := wf.fits
  have unused := wf.listed.unused
  cases effect with
  | sleep current _ sleeps => cases sleeps <;> grind -ring -linarith -lia
  | _ => grind -ring -linarith -lia

theorem fits_step (p : Slot) : (m'.pc p).Fits (m'.fork p) := by
  have fits := wf.fits p
  have forker := wf.forker
  have child := wf.child
  cases effect with
  | thread current move => cases move <;> grind -ring -linarith -lia
  | sleep current _ sleeps => cases sleeps <;> grind -ring -linarith -lia
  | wakesUp current position wakes => cases wakes <;> grind -ring -linarith -lia
  | _ => grind -ring -linarith -lia

end

omit [DecidableEq Cpu] in
theorem child_state (wf : m.WellFormed ready free) (p np : Slot)
    (filling : (m.fork p).child = some np) :
    m.table.state np = .unused ∨ m.table.state np = .embryo := by
  rw [(wf.child p np filling).1]
  cases m.fork p with
  | failed => exact .inl rfl
  | _ => exact .inr rfl

section

variable (wf : m.WellFormed ready free)
include wf

section

variable (effect : m.Effect ready free a m' ready' free')
include effect

theorem child_step (p np : Slot) (filling : (m'.fork p).child = some np) :
    m'.table.state np = (m'.fork p).childState ∧ np ∉ free' ∧
      ((m'.fork p).hasStack → m'.pc np = .switched .forkret) := by
  have child := wf.child
  have childState := wf.child_state
  have childUnique := wf.childUnique
  have unused := wf.listed.unused
  cases effect with
  | allocproc current position head =>
    have distinct := wf.listed.queues.freeDistinct
    rw [head] at distinct
    have fresh := (List.nodup_cons.mp distinct).1
    clear distinct
    grind -ring -linarith -lia
  | _ => grind -ring -linarith -lia

theorem childUnique_step (p q np : Slot) (first : (m'.fork p).child = some np)
    (second : (m'.fork q).child = some np) : p = q := by
  have child := wf.child
  have childUnique := wf.childUnique
  have unused := wf.listed.unused
  cases effect <;> grind -ring -linarith -lia

theorem others_stay {d : Cpu} (other : d ≠ a.cpu) : m'.sched d = m.sched d ∧ m'.proc d = m.proc d ∧
      ∀ p, m.proc d = some p → m'.pc p = m.pc p := by
  have unique := wf.unique
  have running := wf.running
  have child := wf.child
  cases effect with
  | thread current move => cases move <;> grind -ring -linarith -lia [cpu]
  | scheduler move => cases move <;> grind -ring -linarith -lia [cpu]
  | sleep current _ sleeps => cases sleeps <;> grind -ring -linarith -lia [cpu]
  | _ => grind -ring -linarith -lia [cpu]

theorem actor_holds : (m'.locks .ptable = m.locks .ptable ∨ m.locks .ptable = none ∨
      m.locks .ptable = some a.cpu) ∧
    (m'.critical a.cpu → m'.locks .ptable = some a.cpu) := by
  have exclusive := wf.exclusive
  have child := wf.child
  cases effect with
  | thread current move => cases move <;> grind -ring -linarith -lia [cpu]
  | scheduler move => cases move <;> grind -ring -linarith -lia [cpu]
  | sleep current _ sleeps => cases sleeps <;> grind -ring -linarith -lia [cpu]
  | _ => grind -ring -linarith -lia [cpu]

theorem exclusive_step (d : Cpu) (critical : m'.critical d) : m'.locks .ptable = some d := by
  obtain ⟨lock, self⟩ := wf.actor_holds effect
  by_cases same : d = a.cpu
  · subst same
    exact self critical
  · obtain ⟨sched, proc, pc⟩ := wf.others_stay effect same
    have before : m.critical d := by grind -ring -linarith -lia
    have held := wf.exclusive d before
    rcases lock with unchanged | isFree | own
    · rw [unchanged, held]
    · rw [held] at isFree
      cases isFree
    · rw [held] at own
      exact absurd (Option.some.inj own) same

theorem frame {p : Slot} (other : m.proc a.cpu ≠ some p)
    (live : m.table.state p ≠ .unused ∧ m.table.state p ≠ .embryo) :
    m'.pc p = m.pc p ∧ m'.table.chan p = m.table.chan p ∧ m'.fork p = m.fork p ∧
      (m'.table.state p = m.table.state p ∨
        m.table.state p = .sleeping ∧ m'.table.state p = .runnable ∨
        m.table.state p = .runnable ∧ m'.table.state p = .running ∨
        m.table.state p = .zombie ∧ m'.table.state p = .unused) := by
  have child := wf.child
  have unused := wf.listed.unused
  cases effect with
  | thread current move => cases move <;> grind -ring -linarith -lia [cpu]
  | sleep current _ sleeps => cases sleeps <;> grind -ring -linarith -lia [cpu]
  | _ => grind -ring -linarith -lia [cpu]

theorem effect_step (listed : m'.table.Listed ready' free') : m'.WellFormed ready' free' where
  listed := listed
  running := wf.running_step effect
  unique := wf.unique_step effect
  switchedTo := wf.switchedTo_step effect
  parked := wf.parked_step effect
  fits := wf.fits_step effect
  forker := wf.forker_step effect
  child := wf.child_step effect
  childUnique := wf.childUnique_step effect
  exclusive := wf.exclusive_step effect

end

variable {later : List (Action Cpu)}

theorem run (ran : Transition.run step m later = .ok m') :
    ∃ ready free, m'.WellFormed ready free := by
  refine Transition.run_invariant (fun m => ∃ ready free, m.WellFormed ready free) ?_
    ⟨ready, free, wf⟩ ran
  rintro m a m' ⟨ready, free, wf⟩ taken
  obtain ⟨ready', free', effect, listed⟩ := wf.explained taken
  exact ⟨ready', free', wf.effect_step effect listed⟩

theorem stage_run (stage : Machine Cpu → (Fin size → List Slot) → List Slot → Prop)
    (event : Machine Cpu → Action Cpu → Machine Cpu → Prop)
    (kept : ∀ m m' ready free ready' free' a, m.WellFormed ready free → stage m ready free →
      m.Effect ready free a m' ready' free' → stage m' ready' free' ∨ event m a m')
    (start : stage m ready free) (ran : Transition.run step m later = .ok m') :
    (∃ ready free, m'.WellFormed ready free ∧ stage m' ready free) ∨
      Transition.Occurs step event m later := by
  refine Transition.run_stage
    (fun m => ∃ ready free, m.WellFormed ready free ∧ stage m ready free) event ?_
    ⟨ready, free, wf, start⟩ ran
  rintro m a m' ⟨ready, free, wf, holds⟩ taken
  obtain ⟨ready', free', effect, listed⟩ := wf.explained taken
  rcases kept m m' ready free ready' free' a wf holds effect with still | happens
  · exact .inl ⟨ready', free', wf.effect_step effect listed, still⟩
  · exact .inr happens

end

end WellFormed

omit [DecidableEq Cpu] in
theorem booted_wellFormed :
    (booted : Machine Cpu).WellFormed Ptable.bootedReady Ptable.bootedFree where
  listed := by
    simp only [booted]
    exact Ptable.booted_listed
  running p := by
    have state := Ptable.booted_state p
    simp only [booted, state]
    split <;> simp
  unique := by simp [booted]
  switchedTo := by simp [booted]
  parked _ _ := rfl
  fits _ := trivial
  forker := by simp [booted]
  child := by simp [booted, Forking.child]
  childUnique := by simp [booted, Forking.child]
  exclusive := by simp [booted, critical]

variable {actions : List (Action Cpu)}

theorem reached_along (condition : Machine Cpu → Action Cpu → Prop)
    (extra : Machine Cpu → (Fin size → List Slot) → List Slot → Prop)
    (start : extra booted Ptable.bootedReady Ptable.bootedFree)
    (kept : ∀ m m' ready free ready' free' a, m.WellFormed ready free → extra m ready free →
      condition m a → m.Effect ready free a m' ready' free' → m'.WellFormed ready' free' →
      extra m' ready' free') {m : Machine Cpu}
    (along : Transition.Along step condition booted actions)
    (reached : Transition.run step booted actions = .ok m) :
    ∃ ready free, m.WellFormed ready free ∧ extra m ready free := by
  refine Transition.run_invariant_along
    (fun m => ∃ ready free, m.WellFormed ready free ∧ extra m ready free)
    ?_ ⟨_, _, booted_wellFormed, start⟩ along reached
  rintro m a m' ⟨ready, free, wf, holds⟩ met taken
  obtain ⟨ready', free', effect, listed⟩ := wf.explained taken
  have wf' := wf.effect_step effect listed
  exact ⟨ready', free', wf', kept m m' ready free ready' free' a wf holds met effect wf'⟩

theorem reached_always (extra : Machine Cpu → (Fin size → List Slot) → List Slot → Prop)
    (start : extra booted Ptable.bootedReady Ptable.bootedFree)
    (kept : ∀ m m' ready free ready' free' a, m.WellFormed ready free → extra m ready free →
      m.Effect ready free a m' ready' free' → m'.WellFormed ready' free' →
      extra m' ready' free') {m : Machine Cpu}
    (reached : Transition.run step booted actions = .ok m) :
    ∃ ready free, m.WellFormed ready free ∧ extra m ready free :=
  reached_along (fun _ _ => True) extra start
    (fun m m' ready free ready' free' a wf holds _ effect wf' =>
      kept m m' ready free ready' free' a wf holds effect wf')
    (Transition.along_of_forall (fun _ _ => trivial) _ _) reached

theorem reached_wellFormed {m : Machine Cpu}
    (reached : Transition.run step booted actions = .ok m) :
    ∃ ready free, m.WellFormed ready free := by
  obtain ⟨ready, free, wf, -⟩ := reached_always (fun _ _ _ => True) trivial
    (fun _ _ _ _ _ _ _ _ _ _ _ => trivial) reached
  exact ⟨ready, free, wf⟩

end Machine

end Xv6
