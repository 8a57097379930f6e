import Xv6.Proc.ReadyLists

/-!
# Sleep and wakeup

A process that calls `sleep` passes through four stages: it has not released its lock yet, it has
released it and holds `ptable.lock`, it is `SLEEPING` on the channel, and it has been woken and is
on its way back to the lock. The first two are left in order, the third only by a wakeup, and no
scan of `wakeup` runs during the second, because both hold `ptable.lock`.
-/

namespace Xv6

open Xv6.Action (cpu)

/-- The lock that the `sleep` in which a process is switched off will hold when it returns. -/
@[grind]
def Pc.sleepLock : Pc → Option Lock
  | .switched (.sleep lk) => some lk
  | .switched .wait => some .ptable
  | _ => none

/-- The lock of the `sleep` in which a process runs before it is switched off or after it was
switched to. -/
@[grind]
def Pc.awakeLock : Pc → Option Lock
  | .acquiring (.sleep _ n) | .unlocking _ n | .inside (.sleep _ n) | .releasing (.relock n) =>
    some (.other n)
  | _ => none

@[grind]
def Forking.lock : Forking → Option Lock
  | .relock n => some (.other n)
  | _ => Option.none

namespace Machine

variable {Cpu : Type}

@[grind]
def Entering (m : Machine Cpu) (p : Slot) (chan : Chan) : Lock → Prop
  | .other n => m.table.state p = .running ∧
    (m.pc p = .acquiring (.sleep chan n) ∨ m.pc p = .unlocking chan n)
  | .ptable => False

/-- The process has released its lock in `sleep` and is about to change its state. -/
@[grind]
def Dozing (m : Machine Cpu) (p : Slot) (chan : Chan) : Lock → Prop
  | .other n => m.table.state p = .running ∧ m.pc p = .inside (.sleep chan n)
  | .ptable => False

@[grind]
def Asleep (m : Machine Cpu) (p : Slot) (chan : Chan) (lk : Lock) : Prop :=
  m.table.state p = .sleeping ∧ m.table.chan p = chan ∧ (m.pc p).sleepLock = some lk

@[grind]
def InSleep (m : Machine Cpu) (p : Slot) (lk : Lock) : Prop :=
  (m.table.state p = .sleeping ∨ m.table.state p = .runnable ∨ m.table.state p = .running) ∧
      (m.pc p).sleepLock = some lk ∨
    m.table.state p = .running ∧ (m.pc p).awakeLock = some lk ∨ (m.fork p).lock = some lk

@[grind]
def Woken (p : Slot) (m : Machine Cpu) (_ : Action Cpu) (m' : Machine Cpu) : Prop :=
  m.table.state p = .sleeping ∧ m'.table.state p = .runnable

@[grind]
def Returns (p : Slot) (lk : Lock) (m : Machine Cpu) (_ : Action Cpu) (m' : Machine Cpu) : Prop :=
  (m'.pc p = .ready ∨ m'.pc p = .inside .wait) ∧ m.InSleep p lk ∧ ¬ m'.InSleep p lk ∧
    ∃ c, m'.proc c = some p ∧ m'.locks lk = some c

/-- The caller of `wakeup`: a process, or an interrupt handler on an idle CPU. -/
inductive Waker (Cpu : Type) where
  | process (q : Slot)
  | handler (c : Cpu)

/-- The caller holds `ptable.lock` and is about to scan for sleepers on the channel. -/
@[grind]
def Scans (m : Machine Cpu) (chan : Chan) : Waker Cpu → Prop
  | .process q => m.table.state q = .running ∧ m.pc q = .inside (.wakeup chan)
  | .handler c => m.sched c = .handler (.inside chan)

/-- The caller is in `wakeup` and has not scanned for sleepers on the channel yet. -/
@[grind]
def Wakes (m : Machine Cpu) (chan : Chan) (w : Waker Cpu) : Prop :=
  m.Scans chan w ∨ match w with
    | .process q => m.table.state q = .running ∧ m.pc q = .acquiring (.wakeup chan)
    | .handler c => m.sched c = .handler (.acquiring chan)

variable [DecidableEq Cpu] {m m' : Machine Cpu} {ready ready' : Fin size → List Slot}
  {free free' : List Slot} {a : Action Cpu} {p : Slot} {chan : Chan} {lk : Lock}

theorem WellFormed.awake_step (wf : m.WellFormed ready free)
    (effect : m.Effect ready free a m' ready' free') :
    (m.Entering p chan lk → m'.Entering p chan lk ∨ m'.Dozing p chan lk) ∧
      (m.Dozing p chan lk → m'.Dozing p chan lk ∨ m'.Asleep p chan lk) := by
  cases lk with
  | ptable => exact ⟨nofun, nofun⟩
  | other n =>
    by_cases running : m.table.state p = .running
    case neg => exact ⟨fun enters => absurd enters.1 running, fun dozes => absurd dozes.1 running⟩
    by_cases current : m.proc a.cpu = some p
    · cases effect with
      | thread _ move => cases move <;> grind -ring -linarith -lia [cpu]
      | sleep _ _ sleeps => cases sleeps <;> grind -ring -linarith -lia [cpu]
      | scheduler move => cases move <;> grind -ring -linarith -lia [cpu]
      | _ => grind -ring -linarith -lia [cpu]
    · have frame := wf.frame effect current (by rw [running]; decide)
      grind -ring -linarith -lia

theorem WellFormed.released_step (wf : m.WellFormed ready free)
    (released : m.Dozing p chan lk ∨ m.Asleep p chan lk)
    (effect : m.Effect ready free a m' ready' free') :
    (m'.Dozing p chan lk ∨ m'.Asleep p chan lk) ∨ Woken p m a m' := by
  rcases released with dozing | ⟨sleeping, asleep, position⟩
  · exact .inl ((wf.awake_step effect).2 dozing)
  · have current : m.proc a.cpu ≠ some p := by
      intro current
      have running := (wf.running p).mpr ⟨_, current⟩
      rw [sleeping] at running
      cases running
    have frame := wf.frame effect current (by rw [sleeping]; decide)
    grind -ring -linarith -lia

variable {w : Waker Cpu}

theorem WellFormed.wakes_step (wf : m.WellFormed ready free) (wakes : m.Wakes chan w)
    (effect : m.Effect ready free a m' ready' free') :
    m'.Wakes chan w ∨ m.Scans chan w ∧ m'.table.state = m.table.wokenState chan := by
  cases w with
  | process q =>
    have running : m.table.state q = .running := by grind -ring -linarith -lia
    by_cases current : m.proc a.cpu = some q
    · cases effect with
      | thread _ move => cases move <;> grind -ring -linarith -lia [cpu]
      | sleep _ _ sleeps => cases sleeps <;> grind -ring -linarith -lia [cpu]
      | scheduler move => cases move <;> grind -ring -linarith -lia [cpu]
      | _ => grind -ring -linarith -lia [cpu]
    · have frame := wf.frame effect current (by rw [running]; decide)
      grind -ring -linarith -lia
  | handler c =>
    by_cases same : c = a.cpu
    · subst same
      cases effect with
      | thread _ move => cases move <;> grind -ring -linarith -lia [cpu]
      | sleep _ _ sleeps => cases sleeps <;> grind -ring -linarith -lia [cpu]
      | scheduler move => cases move <;> grind -ring -linarith -lia [cpu]
      | _ => grind -ring -linarith -lia [cpu]
    · have stays := wf.others_stay effect same
      grind -ring -linarith -lia

omit [DecidableEq Cpu] in
theorem WellFormed.asleep_of_scans {chan' : Chan} (wf : m.WellFormed ready free)
    (scans : m.Scans chan' w) (released : m.Dozing p chan lk ∨ m.Asleep p chan lk) :
    m.Asleep p chan lk := by
  rcases released with dozing | asleep
  · cases lk with
    | ptable => cases dozing
    | other n =>
      obtain ⟨running, position⟩ := dozing
      obtain ⟨d, current⟩ := (wf.running p).mp running
      obtain ⟨i, index⟩ := wf.switchedTo d p current
      have held := wf.exclusive d (by simp [critical, index, current, position, Pc.critical])
      cases w with
      | process q =>
        obtain ⟨running', position'⟩ := scans
        obtain ⟨e, current'⟩ := (wf.running q).mp running'
        obtain ⟨j, index'⟩ := wf.switchedTo e q current'
        have held' := wf.exclusive e
          (by simp [critical, index', current', position', Pc.critical])
        grind -ring -linarith -lia
      | handler c =>
        have held' := wf.exclusive c (by grind -ring -linarith -lia)
        grind -ring -linarith -lia
  · exact asleep

theorem WellFormed.wakes_released_step (wf : m.WellFormed ready free)
    (released : m.Dozing p chan lk ∨ m.Asleep p chan lk) (wakes : m.Wakes chan w)
    (effect : m.Effect ready free a m' ready' free') :
    ((m'.Dozing p chan lk ∨ m'.Asleep p chan lk) ∧ m'.Wakes chan w) ∨ Woken p m a m' := by
  rcases wf.released_step released effect with kept | woken
  · rcases wf.wakes_step wakes effect with still | ⟨scans, states⟩
    · exact .inl ⟨kept, still⟩
    · obtain ⟨sleeping, on, -⟩ := wf.asleep_of_scans scans released
      exact .inr ⟨sleeping, by rw [states]; simp [Ptable.wokenState, sleeping, on]⟩
  · exact .inr woken

theorem WellFormed.inSleep_step (wf : m.WellFormed ready free) (inSleep : m.InSleep p lk)
    (effect : m.Effect ready free a m' ready' free') :
    m'.InSleep p lk ∨ Returns p lk m a m' := by
  by_cases current : m.proc a.cpu = some p
  · have running := (wf.running p).mpr ⟨_, current⟩
    obtain ⟨i, index⟩ := wf.switchedTo _ p current
    have exclusive := wf.exclusive a.cpu
    have fits := wf.fits p
    cases effect with
    | @relock c q n _ _ position stage isFree =>
      have same : q = p := by grind -ring -linarith -lia [cpu]
      subst same
      have lock : lk = .other n := by grind -ring -linarith -lia
      subst lock
      refine .inr ⟨.inl position, inSleep, ?_, c, current, Function.update_self ..⟩
      grind -ring -linarith -lia
    | thread _ move =>
      cases move with
      | @enter body _ _ notSleep => cases body <;> grind -ring -linarith -lia [cpu]
      | noPid _ named =>
        rcases named with rfl | ⟨priority, rfl⟩ <;> grind -ring -linarith -lia [cpu]
      | _ => grind -ring -linarith -lia [cpu]
    | sleep _ _ sleeps => cases sleeps <;> grind -ring -linarith -lia [cpu]
    | scheduler move => cases move <;> grind -ring -linarith -lia [cpu]
    | @wakesUp c q _ _ _ position wakes =>
      have same : q = p := by grind -ring -linarith -lia [cpu]
      subst same
      cases wakes with
      | other => grind -ring -linarith -lia
      | _ =>
        refine .inr ⟨by simp, inSleep, ?_, c, current, ?_⟩ <;> grind -ring -linarith -lia [cpu]
    | _ => grind -ring -linarith -lia [cpu]
  · have forker := wf.forker p
    have frame := wf.frame effect current (by grind -ring -linarith -lia)
    grind -ring -linarith -lia

/-- The step begins a `sleep` of the process on the channel with the lock: a call of `sleep`, or the
one that `wait` makes with `ptable.lock`. -/
def CallsSleep (m : Machine Cpu) (a : Action Cpu) (m' : Machine Cpu) (p : Slot) (chan : Chan)
    (lk : Lock) : Prop :=
  (a = .call a.cpu (.sleep chan lk) ∧ m.readyProc a.cpu = some p) ∨
    (lk = .ptable ∧ chan = .proc p ∧ m.pc p = .inside .wait ∧ m'.pc p = .switched .wait)

def CallsWakeup (m : Machine Cpu) (a : Action Cpu) (m' : Machine Cpu) (chan : Chan)
    (w : Waker Cpu) : Prop :=
  ¬ m.Wakes chan w ∧ m'.Wakes chan w ∧ a = .call a.cpu (.wakeup chan)

theorem WellFormed.callsSleep_step (wf : m.WellFormed ready free)
    (calls : CallsSleep m a m' p chan lk) (taken : m.step a = .ok m') :
    m'.InSleep p lk ∧ (m'.Entering p chan lk ∨ m'.Asleep p chan lk) := by
  rcases calls with ⟨action, found⟩ | ⟨rfl, rfl, position, after⟩
  · obtain ⟨current, position⟩ := readyProc_some found
    have running := wf.current_running current
    rw [action] at taken
    simp only [step, found, callProc] at taken
    split at taken
    · cases taken
    · cases lk with
      | ptable =>
        obtain ⟨-, i, -, rfl⟩ := switch_ok taken
        simp [InSleep, Asleep, Pc.sleepLock, Ptable.goToSleep]
      | other n =>
        cases taken
        simp [InSleep, Entering, setPc, Pc.awakeLock, running]
  · obtain ⟨ready', free', effect, -⟩ := wf.explained taken
    cases effect with
    | thread _ move => cases move <;> grind -ring -linarith -lia
    | sleep _ _ sleeps => cases sleeps <;> grind -ring -linarith -lia
    | wakesUp _ _ wakes => cases wakes <;> grind -ring -linarith -lia
    | _ => grind -ring -linarith -lia

/-- Sleep and wakeup along whole runs. After a call of `sleep` the process has not released its
lock yet, or it is about to sleep or sleeps on the channel, or it has been woken. A call of
`wakeup` that begins after the lock was released finds the process asleep or woken when it scans,
and once it has scanned the process has been woken. When `sleep` returns, its lock is held. -/
theorem sleep_loses_no_wakeup {actions later : List (Action Cpu)} {m₀ m₁ : Machine Cpu}
    (reached : Transition.run step booted actions = .ok m) (called : m.step a = .ok m₀)
    (calls : CallsSleep m a m₀ p chan lk) (ran : Transition.run step m₀ later = .ok m₁) :
    (m₁.Entering p chan lk ∨ m₁.Dozing p chan lk ∨ m₁.Asleep p chan lk ∨
      Transition.Occurs step (Woken p) m₀ later) ∧
    (¬ m₁.Entering p chan lk → ∀ b w m₂ rest m₃, m₁.step b = .ok m₂ → CallsWakeup m₁ b m₂ chan w →
      Transition.run step m₂ rest = .ok m₃ →
      (m₃.Scans chan w → m₃.Asleep p chan lk ∨
        Transition.Occurs step (Woken p) m₀ (later ++ b :: rest)) ∧
      (¬ m₃.Wakes chan w → Transition.Occurs step (Woken p) m₀ (later ++ b :: rest))) ∧
    (m₁.InSleep p lk ∨ Transition.Occurs step (Returns p lk) m₀ later) := by
  obtain ⟨ready, free, wf⟩ := reached_wellFormed reached
  obtain ⟨ready₀, free₀, effect₀, listed₀⟩ := wf.explained called
  have wf₀ := wf.effect_step effect₀ listed₀
  obtain ⟨inSleep, entered⟩ := wf.callsSleep_step calls called
  obtain ⟨ready₁, free₁, wf₁⟩ := wf₀.run ran
  have stages := wf₀.stage_run
    (fun m _ _ => m.Entering p chan lk ∨ m.Dozing p chan lk ∨ m.Asleep p chan lk) (Woken p)
    (fun m m' ready free ready' free' a wf stage effect => by
      rcases stage with entering | released
      · exact .inl (((wf.awake_step effect).1 entering).imp_right .inl)
      · exact (wf.released_step released effect).imp_left .inr)
    (entered.imp_right .inr) ran
  refine ⟨?_, fun released b w m₂ rest m₃ taken calls' ran' => ?_, ?_⟩
  · rcases stages with ⟨-, -, -, stage⟩ | woken <;> tauto
  · obtain ⟨ready₂, free₂, effect₂, listed₂⟩ := wf₁.explained taken
    have wf₂ := wf₁.effect_step effect₂ listed₂
    have outcome : (∃ ready free, m₃.WellFormed ready free ∧
          (m₃.Dozing p chan lk ∨ m₃.Asleep p chan lk) ∧ m₃.Wakes chan w) ∨
        Transition.Occurs step (Woken p) m₀ (later ++ b :: rest) := by
      rcases stages with ⟨-, -, -, stage⟩ | woken
      · rcases wf₁.released_step (stage.resolve_left released) effect₂ with kept | woken
        · rcases wf₂.stage_run
            (fun m _ _ => (m.Dozing p chan lk ∨ m.Asleep p chan lk) ∧ m.Wakes chan w) (Woken p)
            (fun m m' ready free ready' free' a wf stage effect =>
              wf.wakes_released_step stage.1 stage.2 effect)
            ⟨kept, calls'.2.1⟩ ran' with stays | woken
          · exact .inl stays
          · have first : Transition.run step m₁ [b] = .ok m₂ :=
              Transition.run_cons.mpr ⟨m₂, taken, rfl⟩
            exact .inr ((woken.of_append first).of_append ran)
        · exact .inr ((Transition.Occurs.of_step taken woken rest).of_append ran)
      · exact .inr (woken.append _)
    rcases outcome with ⟨ready₃, free₃, wf₃, released₃, wakes₃⟩ | woken
    · exact ⟨fun scans => .inl (wf₃.asleep_of_scans scans released₃),
        fun done => absurd wakes₃ done⟩
    · exact ⟨fun _ => .inr woken, fun _ => woken⟩
  · rcases wf₀.stage_run (fun m _ _ => m.InSleep p lk) (Returns p lk)
      (fun m m' ready free ready' free' a wf inSleep effect => wf.inSleep_step inSleep effect)
      inSleep ran with ⟨-, -, -, still⟩ | returned
    · exact .inl still
    · exact .inr returned

/-- Two CPUs run the first process and its child, and the first process has acquired a lock. -/
def beforeSleep : List (Action (Fin 2)) :=
  startInit 0 ++ forks 0 ++ List.replicate 5 (.advance 1) ++ [.acquire 0 (.other 7)]

/-- The first process sleeps with its lock, its CPU goes idle, and the child wakes it. -/
theorem sleep_loses_no_wakeup_child : ∃ m m₀ m₁ m₂ m₃ : Machine (Fin 2),
    Transition.run step booted beforeSleep = .ok m ∧
      m.step (.call 0 (.sleep (.addr 5) (.other 7))) = .ok m₀ ∧
      Transition.run step m₀ (List.replicate 7 (.advance 0)) = .ok m₁ ∧
      m₁.step (.call 1 (.wakeup (.addr 5))) = .ok m₂ ∧
      Transition.run step m₂ (List.replicate 3 (.advance 1)) = .ok m₃ ∧
      Transition.Occurs step (Woken 63) m₀ (List.replicate 7 (.advance 0) ++
        .call 1 (.wakeup (.addr 5)) :: List.replicate 3 (.advance 1)) := by
  have begins : Transition.ends (fun m => decide (m.readyProc 0 = some 63))
      (Transition.run step booted beforeSleep) = true := by
    decide +kernel
  have sleeps : Transition.ends (fun m => decide (m.pc 63 = .switched (.sleep (.other 7)) ∧
      m.pc 62 = .ready)) (Transition.run step booted (beforeSleep ++
        .call 0 (.sleep (.addr 5) (.other 7)) :: List.replicate 7 (.advance 0))) = true := by
    decide +kernel
  have calls : Transition.ends (fun m => decide (m.table.state 62 = .running ∧
      m.pc 62 = .acquiring (.wakeup (.addr 5)))) (Transition.run step booted ((beforeSleep ++
        .call 0 (.sleep (.addr 5) (.other 7)) :: List.replicate 7 (.advance 0)) ++
        [.call 1 (.wakeup (.addr 5))])) = true := by
    decide +kernel
  have done : Transition.ends (fun m => decide (m.pc 62 = .ready)) (Transition.run step booted
      (((beforeSleep ++ .call 0 (.sleep (.addr 5) (.other 7)) :: List.replicate 7 (.advance 0)) ++
        [.call 1 (.wakeup (.addr 5))]) ++ List.replicate 3 (.advance 1))) = true := by
    decide +kernel
  obtain ⟨m₃, ran₃, after⟩ := Transition.exists_of_ends done
  obtain ⟨m₂, ran₂, rest⟩ := Transition.run_append.mp ran₃
  obtain ⟨m₁, ran₁, taken⟩ := Transition.run_concat.mp ran₂
  obtain ⟨m, reached, tail⟩ := Transition.run_append.mp ran₁
  obtain ⟨m₀, called, later⟩ := Transition.run_cons.mp tail
  rw [ran₂] at calls
  rw [ran₁] at sleeps
  rw [reached] at begins
  have woken := of_decide_eq_true calls
  have asleep := of_decide_eq_true sleeps
  have returned := of_decide_eq_true after
  refine ⟨m, m₀, m₁, m₂, m₃, reached, called, later, taken, rest, ?_⟩
  refine ((sleep_loses_no_wakeup reached called (.inl ⟨rfl, of_decide_eq_true begins⟩) later).2.1
    ?_ _ (.process 62) m₂ _ m₃ taken ⟨?_, ?_, rfl⟩ rest).2 ?_
  · simp [Entering, asleep.1]
  · simp [Wakes, Scans, asleep.2]
  · simp [Wakes, woken]
  · simp [Wakes, Scans, returned]

end Machine

end Xv6
