import Xv6.Proc.ReadyLists

/-!
# Exit and wait

Every process but the first has a parent that can still wait for it, a process that sleeps in
`wait` has something to wait for, process IDs of processes are distinct, and a zombie is reaped
once, by its parent.
-/

namespace Xv6

open Function (update update_apply update_self update_of_ne)

@[grind]
def Procstate.alive : Procstate → Bool
  | .sleeping | .runnable | .running => true
  | .unused | .embryo | .zombie => false

@[grind]
def Procstate.vacant : Procstate → Bool
  | .unused | .embryo => true
  | .sleeping | .runnable | .running | .zombie => false

@[grind]
def Forking.parented : Forking → Option Slot
  | .inherit np | .done np _ => some np
  | _ => Option.none

@[grind →]
theorem Forking.child_of_parented {f : Forking} {np : Slot} (stored : f.parented = some np) :
    f.child = some np ∧ f.childState = .embryo := by
  cases f <;> simp_all [Forking.parented, Forking.child, Forking.childState]

@[grind]
def Pc.exiting : Pc → Bool
  | .acquiring .exit | .inside .exit => true
  | _ => false

namespace Machine

variable {Cpu : Type}

structure Family (m : Machine Cpu) : Prop where
  initproc : m.table.initproc = some 63
  initAlive : (m.table.state 63).alive
  initOrphan : m.table.parent 63 = none
  exiting : ∀ p, (m.pc p).exiting → p ≠ 63
  parent : ∀ p, p ≠ 63 → (m.table.state p).alive ∨ m.table.state p = .zombie →
    ∃ q, m.table.parent p = some q ∧ (m.table.state q).alive
  notSelf : ∀ p, m.table.parent p ≠ some p
  unparented : ∀ p q, m.table.parent p = some q → (m.table.state p).vacant →
    (m.fork q).parented = some p
  parented : ∀ p q, (m.fork q).parented = some p → m.table.parent p = some q

/-- A process that sleeps in `wait` has a child, none of its children is a zombie, and it has not
been killed. -/
def Waits (m : Machine Cpu) (p : Slot) : Prop :=
  m.pc p = .switched .wait → m.table.state p = .sleeping →
    m.table.chan p = .proc p ∧ (∃ q, m.table.parent q = some p) ∧
      (∀ q, m.table.parent q = some p → m.table.state q ≠ .zombie) ∧ m.table.killed p = false

variable [DecidableEq Cpu] {m m' : Machine Cpu} {ready ready' : Fin size → List Slot}
  {free free' : List Slot} {a : Action Cpu}

section Vacant

variable {states : Slot → Procstate} {p q : Slot} {st : Procstate}

theorem vacant_update (vacant : (update states q st p).vacant) :
    p = q ∧ st.vacant ∨ (states p).vacant := by
  by_cases same : p = q
  · subst same
    rw [update_self] at vacant
    exact .inl ⟨rfl, vacant⟩
  · rw [update_of_ne same] at vacant
    exact .inr vacant

theorem vacant_of_update (vacant : (update states q st p).vacant) (set : st.vacant = false) :
    (states p).vacant := by
  refine (vacant_update vacant).resolve_left fun ⟨_, now⟩ => ?_
  rw [set] at now
  cases now

theorem vacant_woken {t : Ptable} {chan : Chan} (vacant : (t.wokenState chan p).vacant) :
    (t.state p).vacant := by
  unfold Ptable.wokenState at vacant
  split at vacant
  · cases vacant
  · exact vacant

theorem vacant_exit {t : Ptable} (vacant : (t.exitState q p).vacant) : (t.state p).vacant := by
  unfold Ptable.exitState at vacant
  split at vacant
  · cases vacant
  · exact vacant

omit [DecidableEq Cpu] in
theorem WellFormed.vacant_child (wf : m.WellFormed ready free) {np : Slot}
    (filling : (m.fork p).child = some np) : (m.table.state np).vacant := by
  rcases wf.child_state p np filling with state | state <;> rw [state] <;> rfl

theorem WellFormed.vacant_step (wf : m.WellFormed ready free)
    (effect : m.Effect ready free a m' ready' free') (vacant : (m'.table.state p).vacant) :
    (m.table.state p).vacant ∨ m.table.state p = .zombie ∧ m'.table.parent p = none := by
  cases effect with
  | @allocproc _ _ np rest current position head =>
    rcases vacant_update vacant with ⟨rfl, -⟩ | before
    · have unused := wf.listed.unused p (by rw [head]; exact List.mem_cons_self)
      exact .inl (by rw [unused]; rfl)
    · exact .inl before
  | kallocFailed current position stage | copyuvmFailed current position stage =>
    rcases vacant_update vacant with ⟨rfl, -⟩ | before
    · exact .inl (wf.vacant_child (by rw [stage]; rfl))
    · exact .inl before
  | reap current position scanned =>
    rcases vacant_update vacant with ⟨rfl, -⟩ | before
    · exact .inr ⟨(Ptable.waitScan_found scanned).2, update_self ..⟩
    · exact .inl before
  | exit => exact .inl (vacant_exit (vacant_of_update vacant rfl))
  | wakeup | handlerWakeup => exact .inl (vacant_woken vacant)
  | kill =>
    dsimp only at vacant
    split at vacant
    · exact .inl (vacant_of_update vacant rfl)
    · exact .inl vacant
  | forkDone | sleep | yield | dispatch => exact .inl (vacant_of_update vacant rfl)
  | _ => exact .inl vacant

end Vacant

/-- What a step does to the parents, and to the stages in which `fork` has stored one. -/
inductive ParentChange (m m' : Machine Cpu) : Prop where
  | same (parent : m'.table.parent = m.table.parent)
      (stages : ∀ q, (m'.fork q).parented = (m.fork q).parented ∨ (m'.fork q).parented = none ∧
        ∀ np, (m.fork q).parented = some np → (m'.table.state np).vacant = false)
  | forked {r np : Slot} {stage : Forking} (before : (m.fork r).parented = none)
      (filling : (m.fork r).child = some np) (running : m.table.state r = .running)
      (parent : m'.table.parent = update m.table.parent np (some r))
      (fork : m'.fork = update m.fork r stage) (after : stage.parented = some np)
  | exits {r : Slot} (before : (m.fork r).parented = none)
      (parent : m'.table.parent = m.table.abandonedParent r Ptable.slots) (fork : m'.fork = m.fork)
  | reaped {x : Slot} (zombie : m.table.state x = .zombie)
      (parent : m'.table.parent = update m.table.parent x none) (fork : m'.fork = m.fork)

omit [DecidableEq Cpu] in
theorem ParentChange.of_stage {p : Slot} {stage : Forking}
    (parent : m'.table.parent = m.table.parent) (fork : m'.fork = update m.fork p stage)
    (stored : stage.parented = (m.fork p).parented) : ParentChange m m' := by
  refine .same parent fun q => .inl ?_
  rw [fork]
  by_cases same : q = p
  · rw [same, update_self, stored]
  · rw [update_of_ne same]

theorem WellFormed.parentChange (wf : m.WellFormed ready free)
    (effect : m.Effect ready free a m' ready' free') : ParentChange m m' := by
  cases effect with
  | @allocproc _ p _ _ current position =>
    have fits := wf.fits p
    rw [position] at fits
    exact .of_stage rfl rfl (by rw [show m.fork p = .none from fits]; rfl)
  | kallocOk current position stage | kallocFailed current position stage
  | copyuvmOk current position stage | copyuvmFailed current position stage
  | forkInherit current position stage | relock current position stage =>
    exact .of_stage rfl rfl (by rw [stage]; rfl)
  | forkFailed current position stage => exact .of_stage rfl rfl (by rw [stage]; rfl)
  | @leaveSleep _ p _ _ current position =>
    have fits := wf.fits p
    rw [position] at fits
    exact .of_stage rfl rfl (by rw [show m.fork p = .none from fits]; rfl)
  | forkParent current position stage =>
    exact .forked (by rw [stage]; rfl) (by rw [stage]; rfl) (wf.current_running current) rfl rfl rfl
  | @forkDone _ p np _ _ _ _ current position stage =>
    refine .same rfl fun q => ?_
    dsimp only
    by_cases same : q = p
    · refine .inr ⟨?_, fun np' stored => ?_⟩
      · rw [same, update_self]
        rfl
      · rw [same, stage] at stored
        cases stored
        rw [update_self]
        rfl
    · exact .inl (by rw [update_of_ne same])
  | @exit _ p _ _ _ _ current index position =>
    have fits := wf.fits p
    rw [position] at fits
    exact .exits (by rw [show m.fork p = .none from fits]; rfl) rfl rfl
  | reap current position scanned => exact .reaped (Ptable.waitScan_found scanned).2 rfl rfl
  | _ => exact .same rfl fun _ => .inl rfl

namespace Family

section

variable (family : m.Family)
include family

theorem initproc_step (effect : m.Effect ready free a m' ready' free') :
    m'.table.initproc = some 63 := by
  cases effect <;> exact family.initproc

theorem initAlive_step (wf : m.WellFormed ready free)
    (effect : m.Effect ready free a m' ready' free') : (m'.table.state 63).alive := by
  have alive := family.initAlive
  have exiting := family.exiting
  have child := wf.child
  have unused := wf.listed.unused
  cases effect <;> grind -ring -linarith -lia

theorem exiting_step (effect : m.Effect ready free a m' ready' free') (p : Slot)
    (exits : (m'.pc p).exiting) : p ≠ 63 := by
  have exiting := family.exiting
  have init := family.initproc
  cases effect with
  | thread current move => cases move <;> grind -ring -linarith -lia
  | wakesUp current position wakes => cases wakes <;> grind -ring -linarith -lia
  | _ => grind -ring -linarith -lia

section

variable (wf : m.WellFormed ready free) (effect : m.Effect ready free a m' ready' free')
include wf effect

theorem parent_step (p : Slot) (notInit : p ≠ 63)
    (counts : (m'.table.state p).alive ∨ m'.table.state p = .zombie) :
    ∃ q, m'.table.parent p = some q ∧ (m'.table.state q).alive := by
  have parent := family.parent p notInit
  have parented := family.parented
  have child := wf.child
  have unused := wf.listed.unused
  cases effect with
  | @exit c r _ _ _ _ current _ position =>
    have notFirst : r ≠ 63 := family.exiting r (by rw [position]; rfl)
    have running := wf.current_running current
    obtain ⟨q, isParent, alive⟩ := parent (by grind -ring -linarith -lia)
    have init := family.initproc
    have initAlive := family.initAlive
    by_cases orphan : m.table.parent p = some r
    · exact ⟨63, by grind -ring -linarith -lia, by grind -ring -linarith -lia⟩
    · exact ⟨q, by grind -ring -linarith -lia, by grind -ring -linarith -lia⟩
  | @forkDone c r np _ _ _ _ current _ stage =>
    have running := wf.current_running current
    by_cases new : p = np
    · exact ⟨r, by grind -ring -linarith -lia, by grind -ring -linarith -lia⟩
    · obtain ⟨q, isParent, alive⟩ := parent (by grind -ring -linarith -lia)
      exact ⟨q, by grind -ring -linarith -lia, by grind -ring -linarith -lia⟩
  | _ =>
    obtain ⟨q, isParent, alive⟩ := parent (by grind -ring -linarith -lia)
    exact ⟨q, by grind -ring -linarith -lia, by grind -ring -linarith -lia⟩

theorem initOrphan_step : m'.table.parent 63 = none := by
  have orphan := family.initOrphan
  cases wf.parentChange effect with
  | same parent => rw [parent, orphan]
  | @forked r np _ _ filling _ parent =>
    have other : 63 ≠ np := by
      rintro rfl
      have alive := family.initAlive
      rcases wf.child_state r 63 filling with state | state <;> rw [state] at alive <;> cases alive
    rw [parent, update_of_ne other, orphan]
  | exits _ parent => rw [parent, Ptable.abandonedParent_slots, orphan, if_neg nofun]
  | @reaped x _ parent =>
    rw [parent, update_apply]
    split
    · rfl
    · exact orphan

theorem notSelf_step (p : Slot) : m'.table.parent p ≠ some p := by
  have notSelf := family.notSelf p
  cases wf.parentChange effect with
  | same parent => rwa [parent]
  | @forked r np _ _ filling running parent =>
    rw [parent]
    by_cases same : p = np
    · rw [same, update_self]
      rintro ⟨⟩
      have vacant := wf.vacant_child filling
      rw [running] at vacant
      cases vacant
    · rwa [update_of_ne same]
  | exits _ parent =>
    rw [parent, Ptable.abandonedParent_slots]
    split
    · rename_i child
      rw [family.initproc]
      rintro ⟨⟩
      rw [family.initOrphan] at child
      cases child
    · exact notSelf
  | @reaped x _ parent =>
    rw [parent, update_apply]
    split
    · nofun
    · exact notSelf

theorem unparented_step (p q : Slot) (isParent : m'.table.parent p = some q)
    (vacant : (m'.table.state p).vacant) : (m'.fork q).parented = some p := by
  have before : (m.table.state p).vacant := by
    refine (wf.vacant_step effect vacant).resolve_right fun ⟨_, orphan⟩ => ?_
    rw [orphan] at isParent
    cases isParent
  cases wf.parentChange effect with
  | same parent stages =>
    rw [parent] at isParent
    have stored := family.unparented p q isParent before
    rcases stages q with still | ⟨-, started⟩
    · rw [still, stored]
    · rw [started p stored] at vacant
      cases vacant
  | @forked r np _ none _ _ parent fork after =>
    rw [parent] at isParent
    rw [fork]
    by_cases same : p = np
    · rw [same, update_self] at isParent
      rw [← Option.some.inj isParent, update_self, after, same]
    · rw [update_of_ne same] at isParent
      have stored := family.unparented p q isParent before
      have other : q ≠ r := by
        rintro rfl
        rw [none] at stored
        cases stored
      rw [update_of_ne other, stored]
  | @exits r none parent fork =>
    rw [parent, Ptable.abandonedParent_slots] at isParent
    rw [fork]
    split at isParent
    · -- a process in `exit` fills no slot
      rename_i child
      have stored := family.unparented p r child before
      rw [none] at stored
      cases stored
    · exact family.unparented p q isParent before
  | @reaped x _ parent fork =>
    rw [parent] at isParent
    rw [fork]
    have other : p ≠ x := by
      rintro rfl
      rw [update_self] at isParent
      cases isParent
    rw [update_of_ne other] at isParent
    exact family.unparented p q isParent before

theorem parented_step (p q : Slot) (stored : (m'.fork q).parented = some p) :
    m'.table.parent p = some q := by
  cases wf.parentChange effect with
  | same parent stages =>
    rcases stages q with still | ⟨none, -⟩
    · rw [parent]
      exact family.parented p q (still ▸ stored)
    · rw [none] at stored
      cases stored
  | @forked r np _ _ filling _ parent fork after =>
    rw [fork] at stored
    rw [parent]
    by_cases same : q = r
    · rw [same, update_self, after] at stored
      rw [← Option.some.inj stored, update_self, same]
    · rw [update_of_ne same] at stored
      have other : p ≠ np := by
        rintro rfl
        exact same (wf.childUnique q r p (Forking.child_of_parented stored).1 filling)
      rw [update_of_ne other]
      exact family.parented p q stored
  | @exits r none parent fork =>
    rw [fork] at stored
    have isParent := family.parented p q stored
    have other : m.table.parent p ≠ some r := by
      rw [isParent]
      rintro ⟨⟩
      rw [none] at stored
      cases stored
    rw [parent, Ptable.abandonedParent_slots, if_neg other, isParent]
  | @reaped x zombie parent fork =>
    rw [fork] at stored
    have other : p ≠ x := by
      rintro rfl
      have vacant := wf.vacant_child (Forking.child_of_parented stored).1
      rw [zombie] at vacant
      cases vacant
    rw [parent, update_of_ne other]
    exact family.parented p q stored

end

end

end Family

omit [DecidableEq Cpu] in
theorem WellFormed.not_current (wf : m.WellFormed ready free) {p : Slot} {c : Cpu}
    (sleeping : m.table.state p = .sleeping) : m.proc c ≠ some p := by
  intro current
  have running := (wf.running p).mpr ⟨_, current⟩
  rw [sleeping] at running
  cases running

theorem family_step (family : m.Family) (wf : m.WellFormed ready free)
    (effect : m.Effect ready free a m' ready' free') : m'.Family where
  initproc := family.initproc_step effect
  initAlive := family.initAlive_step wf effect
  initOrphan := family.initOrphan_step wf effect
  exiting := family.exiting_step effect
  parent := family.parent_step wf effect
  notSelf := family.notSelf_step wf effect
  unparented := family.unparented_step wf effect
  parented := family.parented_step wf effect

theorem Family.waits_step (family : m.Family) (wf : m.WellFormed ready free) {p : Slot}
    (waits : m.Waits p) (effect : m.Effect ready free a m' ready' free') : m'.Waits p := by
  intro position sleeping
  by_cases before : m.table.state p = .sleeping
  · have current : m.proc a.cpu ≠ some p := wf.not_current before
    obtain ⟨pc, chan, -⟩ := wf.frame effect current (by rw [before]; decide)
    obtain ⟨on, ⟨q, child⟩, noZombie, alive⟩ := waits (pc ▸ position) before
    have unparented := family.unparented
    have forker := wf.forker
    have childState := wf.child
    have unused := wf.listed.unused
    refine ⟨chan.trans on, ⟨q, ?_⟩, fun r isParent zombie => ?_, ?_⟩
    · cases effect <;> grind -ring -linarith -lia
    · cases effect with
      | @exit c x _ _ _ _ _ _ exits =>
        have running := (wf.current_running ‹_› : m.table.state x = .running)
        have notSelf := family.notSelf x
        have pointer : Chan.ofPointer (some p) = .proc p := rfl
        have wakes : m.table.exitState x p = .runnable := by
          unfold Ptable.exitState
          rw [if_pos]
          refine ⟨before, ?_⟩
          by_cases same : r = x
          · left
            grind -ring -linarith -lia
          · have init := family.initproc
            refine .inr ⟨?_, r, ?_, ?_⟩ <;> grind -ring -linarith -lia
        grind -ring -linarith -lia
      | _ => grind -ring -linarith -lia
    · cases effect <;> grind -ring -linarith -lia
  · cases effect with
    | @sleep _ _ r _ _ _ current _ sleeps =>
      cases sleeps with
      | wait _ scanned notKilled =>
        have same : p = r := by grind -ring -linarith -lia
        subst same
        have running := wf.current_running current
        obtain ⟨noZombie, kids⟩ := Ptable.waitScan_none scanned
        obtain ⟨q, -, child⟩ := (kids.mp rfl).resolve_left (by simp)
        refine ⟨by simp, ⟨q, child⟩, fun r isParent => ?_, notKilled⟩
        have seen := noZombie r (by simp [Ptable.slots]) isParent
        grind -ring -linarith -lia
      | _ => grind -ring -linarith -lia
    | _ => grind -ring -linarith -lia

@[grind]
def sleepChan : Pc → Option Chan
  | .acquiring (.sleep chan _) | .unlocking chan _ | .inside (.sleep chan _) => some chan
  | _ => none

@[grind]
def sleepsOnSlot : Action Cpu → Bool
  | .call _ (.sleep (.proc _) _) => true
  | _ => false

structure SlotChannels (m : Machine Cpu) : Prop where
  calls : ∀ p q, sleepChan (m.pc p) ≠ some (.proc q)
  asleep : ∀ p q, m.table.state p = .sleeping → m.table.chan p = .proc q →
    m.pc p = .switched .wait

theorem sleepChan_update {places : Slot → Pc} {p q : Slot} {pc : Pc} {chan : Chan}
    (about : sleepChan (update places q pc p) = some chan) :
    p = q ∧ sleepChan pc = some chan ∨ sleepChan (places p) = some chan := by
  by_cases same : p = q
  · subst same
    rw [update_self] at about
    exact .inl ⟨rfl, about⟩
  · rw [update_of_ne same] at about
    exact .inr about

theorem sleepChan_of_update {places : Slot → Pc} {p q : Slot} {pc : Pc} {chan : Chan}
    (about : sleepChan (update places q pc p) = some chan) (moved : sleepChan pc = none) :
    sleepChan (places p) = some chan := by
  refine (sleepChan_update about).resolve_left fun ⟨_, now⟩ => ?_
  rw [moved] at now
  cases now

theorem Effect.sleepChan_step (effect : m.Effect ready free a m' ready' free') {p : Slot}
    {chan : Chan} (about : sleepChan (m'.pc p) = some chan) :
    sleepChan (m.pc p) = some chan ∨ ∃ c n, a = .call c (.sleep chan (.other n)) := by
  cases effect with
  | @thread _ c r _ _ _ current move =>
    rcases sleepChan_update about with ⟨rfl, now⟩ | before
    · cases move with
      | @call _ body _ _ _ _ sleeps =>
        cases body with
        | sleep chan' n =>
          obtain rfl := Option.some.inj now
          exact .inr ⟨c, n, sleeps _ n rfl⟩
        | _ => cases now
      | @enter body _ _ notSleep =>
        cases body with
        | sleep chan' n => exact absurd rfl (notSleep chan' n)
        | _ => cases now
      | enterSleep position => exact .inl (position ▸ now)
      | unlock position => exact .inl (position ▸ now)
      | _ => cases now
    · exact .inl before
  | wakesUp _ _ wakes => cases wakes <;> exact .inl (sleepChan_of_update about rfl)
  | scheduler | handlerWakeup | copyuvmOk | copyuvmFailed | kallocFailed | forkParent | forkInherit
  | relock | dispatch | trap => exact .inl about
  | _ => exact .inl (sleepChan_of_update about rfl)

theorem Effect.sleeps_of_new
    (effect : m.Effect ready free a m' ready' free') {p : Slot}
    (before : m.table.state p ≠ .sleeping) (sleeping : m'.table.state p = .sleeping) :
    ∃ c chan resume, m.Current c p ∧ m.Sleeps c p a chan resume ∧ m'.table.chan p = chan ∧
      m'.pc p = .switched resume := by
  have other : ∀ {q : Slot} {st : Procstate}, st ≠ .sleeping →
      update m.table.state q st p ≠ .sleeping := by
    intro q st set
    rw [update_apply]
    split
    · exact set
    · exact before
  cases effect with
  | @sleep _ c r _ chan resume current index sleeps held =>
    have same : p = r := by
      by_contra differ
      exact before ((update_of_ne differ ..).symm.trans sleeping)
    subst same
    exact ⟨c, chan, resume, current, sleeps, update_self .., update_self ..⟩
  | exit =>
    by_contra
    dsimp only at sleeping
    rw [update_apply] at sleeping
    split at sleeping
    · cases sleeping
    · unfold Ptable.exitState at sleeping
      split at sleeping
      · cases sleeping
      · exact before sleeping
  | wakeup | handlerWakeup =>
    by_contra
    dsimp only [Ptable.wokenState] at sleeping
    split at sleeping
    · cases sleeping
    · exact before sleeping
  | kill =>
    by_contra
    dsimp only at sleeping
    split at sleeping
    · exact other (by decide) sleeping
    · exact before sleeping
  | allocproc | kallocFailed | copyuvmFailed | forkDone | reap | yield | dispatch =>
    exact absurd sleeping (other (by decide))
  | _ => exact absurd sleeping before

theorem SlotChannels.step (channels : m.SlotChannels) (wf : m.WellFormed ready free)
    (elsewhere : ¬ sleepsOnSlot a) (effect : m.Effect ready free a m' ready' free') :
    m'.SlotChannels where
  calls p q about := by
    rcases effect.sleepChan_step about with before | ⟨c, n, rfl⟩
    · exact channels.calls p q before
    · exact elsewhere rfl
  asleep p q sleeping on := by
    by_cases before : m.table.state p = .sleeping
    · have current : m.proc a.cpu ≠ some p := wf.not_current before
      obtain ⟨pc, chan, -⟩ := wf.frame effect current (by rw [before]; decide)
      rw [pc]
      exact channels.asleep p q before (chan ▸ on)
    · obtain ⟨c, chan, resume, -, sleeps, isChan, isPc⟩ := effect.sleeps_of_new before sleeping
      rw [isChan] at on
      subst on
      cases sleeps with
      | wait => exact isPc
      | «section» position => exact absurd (by rw [position]; rfl) (channels.calls p q)
      | call => exact absurd rfl elsewhere

/-- Process IDs are below the next one, no process has ID zero, and a slot without a process may
keep a stale ID but shares none with another slot, except zero. -/
structure FreshPids (m : Machine Cpu) : Prop where
  positive : 0 < m.table.nextpid
  below : ∀ p, m.table.pid p < m.table.nextpid
  nonzero : ∀ p, m.table.state p ≠ .unused → m.table.pid p ≠ 0
  unique : ∀ p q, m.table.pid p = m.table.pid q → m.table.pid p ≠ 0 → p = q

theorem FreshPids.step (fresh : m.FreshPids) (wf : m.WellFormed ready free)
    (noWrap : m.table.nextpid.toNat + 1 < 2 ^ 32)
    (effect : m.Effect ready free a m' ready' free') : m'.FreshPids := by
  obtain ⟨positive, below, nonzero, unique⟩ := fresh
  have child := wf.child
  cases effect with
  | @allocproc c r np =>
    have next : m.table.nextpid < m.table.nextpid + 1 := by bv_omega
    have apart : ∀ p, m.table.pid p ≠ m.table.nextpid := fun p same => by
      have old := below p
      bv_omega
    refine ⟨BitVec.lt_trans positive next, fun p => ?_, fun p used => ?_, fun p q => ?_⟩
    · by_cases new : p = np
      · simpa [new] using next
      · simpa [new] using BitVec.lt_trans (below p) next
    · by_cases new : p = np
      · have given : m.table.nextpid ≠ 0 := by bv_omega
        simpa [new] using given
      · grind -ring -linarith -lia
    · grind -ring -linarith -lia
  | reap =>
    refine ⟨positive, fun p => ?_, by grind -ring -linarith -lia, by grind -ring -linarith -lia⟩
    grind -ring -linarith -lia
  | _ => exact ⟨positive, below, by grind -ring -linarith -lia, unique⟩

def WaitReturns (m : Machine Cpu) (a : Action Cpu) (m' : Machine Cpu) (q : Slot) (r : Word) :
    Prop :=
  ∃ c, a = .advance c ∧ m.proc c = some q ∧ m.pc q = .inside .wait ∧
    m'.pc q = .releasing (.ret (some r))

structure Gone (r : Word) (m : Machine Cpu) : Prop where
  nonzero : r ≠ 0
  below : r < m.table.nextpid
  absent : ∀ p, m.table.pid p ≠ r

section Reaping

variable (wf : m.WellFormed ready free) (effect : m.Effect ready free a m' ready' free')
include wf effect

theorem WellFormed.zombie_step {p : Slot} (zombie : m.table.state p = .zombie)
    (reaped : m'.table.state p ≠ .zombie) :
    ∃ q, WaitReturns m a m' q (m.table.pid p) ∧ m.table.parent p = some q ∧
      m'.table.state p = .unused := by
  have child := wf.child
  have unused := wf.listed.unused
  cases effect with
  | @reap c q x _ current position scanned =>
    have same : p = x := by
      by_contra differ
      exact reaped ((update_of_ne differ ..).trans zombie)
    subst same
    exact ⟨q, ⟨c, rfl, current.2, position, update_self ..⟩, (Ptable.waitScan_found scanned).1,
      update_self ..⟩
  | _ => grind -ring -linarith -lia

theorem WellFormed.waitReturns_step {q : Slot} {r : Word} (returns : WaitReturns m a m' q r) :
    (∃ p, m.table.parent p = some q ∧ m.table.state p = .zombie ∧ m.table.pid p = r ∧
      m'.table.pid = update m.table.pid p 0 ∧ m'.table.state = update m.table.state p .unused ∧
      m'.table.nextpid = m.table.nextpid) ∨
    r = -1 ∧ m'.table = m.table ∧ (∀ p, m.table.parent p = some q → m.table.state p ≠ .zombie) ∧
      ((∀ p, m.table.parent p ≠ some q) ∨ m.table.killed q = true) := by
  obtain ⟨c, rfl, current, position, after⟩ := returns
  have running := (wf.running q).mpr ⟨c, current⟩
  -- the only process that moves on this CPU is the one in `wait`
  have moved : ∀ {d x}, m.Current d x → c = d → x = q := by
    rintro d x ⟨-, other⟩ rfl
    exact Option.some.inj (other.symm.trans current)
  cases effect with
  | @reap _ x y _ actor place scanned =>
    obtain rfl := moved actor rfl
    obtain ⟨isParent, zombie⟩ := Ptable.waitScan_found scanned
    dsimp only at after
    rw [update_self] at after
    cases after
    exact .inl ⟨y, isParent, zombie, rfl, rfl, rfl, rfl⟩
  | @thread _ _ x _ _ _ actor move =>
    cases move with
    | @noChild havekids place scanned fails =>
      obtain rfl := moved actor rfl
      obtain ⟨noZombie, kids⟩ := Ptable.waitScan_none scanned
      dsimp only at after
      rw [update_self] at after
      cases after
      refine .inr ⟨rfl, rfl, fun p => noZombie p (by simp [Ptable.slots]), fails.imp ?_ id⟩
      rintro rfl p isParent
      exact absurd (kids.mpr (.inr ⟨p, by simp [Ptable.slots], isParent⟩)) Bool.false_ne_true
    | _ => grind -ring -linarith -lia
  | scheduler move => cases move <;> grind -ring -linarith -lia
  | sleep _ _ sleeps => cases sleeps <;> grind -ring -linarith -lia
  | _ => grind -ring -linarith -lia

omit wf in
theorem Gone.step {r : Word} (gone : m.Gone r) (noWrap : m.table.nextpid.toNat + 1 < 2 ^ 32) :
    m'.Gone r := by
  obtain ⟨nonzero, below, absent⟩ := gone
  cases effect with
  | @allocproc _ _ np =>
    have next : m.table.nextpid < m.table.nextpid + 1 := by bv_omega
    refine ⟨nonzero, BitVec.lt_trans below next, fun p same => ?_⟩
    dsimp only at same
    rw [update_apply] at same
    split at same
    · rw [same] at below
      exact absurd below (BitVec.lt_irrefl _)
    · exact absent p same
  | reap =>
    refine ⟨nonzero, below, fun p same => ?_⟩
    dsimp only at same
    rw [update_apply] at same
    split at same
    · exact nonzero same.symm
    · exact absent p same
  | _ => exact ⟨nonzero, below, absent⟩

theorem FreshPids.gone_of_waitReturns (fresh : m.FreshPids) {q : Slot} {r : Word}
    (returns : WaitReturns m a m' q r) : r = -1 ∨ m'.Gone r := by
  rcases wf.waitReturns_step effect returns with
    ⟨p, -, zombie, rfl, pids, -, next⟩ | ⟨failed, -⟩
  · have nonzero := fresh.nonzero p (by rw [zombie]; decide)
    refine .inr ⟨nonzero, by rw [next]; exact fresh.below p, fun p' same => ?_⟩
    rw [pids, update_apply] at same
    split at same
    · exact nonzero same.symm
    · rename_i other
      exact other (fresh.unique p' p same (by rw [same]; exact nonzero))
  · exact .inl failed

end Reaping

omit [DecidableEq Cpu] in
theorem booted_family : (booted : Machine Cpu).Family := by
  have parent : ∀ p, Ptable.booted.parent p = none := by decide +kernel
  have state := Ptable.booted_state
  have init : Ptable.booted.initproc = some 63 := by decide +kernel
  constructor
  · simpa only [booted] using init
  · simp [booted, state, Procstate.alive]
  · simpa only [booted] using parent 63
  · simp [booted, Pc.exiting]
  · intro p notInit
    simp [booted, state, notInit, Procstate.alive]
  · intro p
    simp [booted, parent]
  · intro p q
    simp [booted, parent]
  · intro p q
    simp [booted, Forking.parented]

omit [DecidableEq Cpu] in
theorem booted_freshPids : (booted : Machine Cpu).FreshPids := by
  have positive : 0 < Ptable.booted.nextpid := by decide +kernel
  have below : ∀ p, Ptable.booted.pid p < Ptable.booted.nextpid := by decide +kernel
  have nonzero : ∀ p, Ptable.booted.state p ≠ .unused → Ptable.booted.pid p ≠ 0 := by
    decide +kernel
  have unique : ∀ p, Ptable.booted.pid p ≠ 0 → p = 63 := by decide +kernel
  constructor
  · simpa only [booted] using positive
  · simpa only [booted] using below
  · simpa only [booted] using nonzero
  · intro p q same
    simp only [booted] at same ⊢
    intro given
    rw [unique p given, unique q (same ▸ given)]

theorem reached_freshPids {actions : List (Action Cpu)}
    (along : Transition.Along step (fun m _ => m.table.nextpid.toNat + 1 < 2 ^ 32) booted actions)
    (reached : Transition.run step booted actions = .ok m) : m.FreshPids := by
  obtain ⟨_, _, _, fresh⟩ := reached_along
    (fun m _ => m.table.nextpid.toNat + 1 < 2 ^ 32) (fun m _ _ => m.FreshPids) booted_freshPids
    (fun m m' ready free ready' free' a wf fresh noWrap effect _ => fresh.step wf noWrap effect)
    along reached
  exact fresh

theorem reaped_once {actions later : List (Action Cpu)} {a b : Action Cpu}
    {m' m₂ m₃ : Machine Cpu} (reached : Transition.run step booted actions = .ok m)
    (before : Transition.Along step (fun m _ => m.table.nextpid.toNat + 1 < 2 ^ 32) booted actions)
    (first : m.step a = .ok m') (ran : Transition.run step m' later = .ok m₂)
    (second : m₂.step b = .ok m₃)
    (after : Transition.Along step (fun m _ => m.table.nextpid.toNat + 1 < 2 ^ 32) m' later)
    {q q' : Slot} {r : Word} (returns : WaitReturns m a m' q r)
    (again : WaitReturns m₂ b m₃ q' r) : r = -1 := by
  obtain ⟨ready, free, wf⟩ := reached_wellFormed reached
  obtain ⟨ready', free', effect, listed⟩ := wf.explained first
  refine ((reached_freshPids before reached).gone_of_waitReturns wf effect returns).elim id ?_
  intro gone
  obtain ⟨⟨ready₂, free₂, wf₂⟩, gone₂⟩ := Transition.run_invariant_along
    (fun m => (∃ ready free, m.WellFormed ready free) ∧ m.Gone r)
    (fun m₁ a₁ m₁' ⟨⟨ready₁, free₁, wf₁⟩, gone₁⟩ noWrap taken => by
      obtain ⟨ready₁', free₁', effect₁, listed₁⟩ := wf₁.explained taken
      exact ⟨⟨_, _, wf₁.effect_step effect₁ listed₁⟩, gone₁.step effect₁ noWrap⟩)
    ⟨⟨_, _, wf.effect_step effect listed⟩, gone⟩ after ran
  obtain ⟨ready₃, free₃, effect₂, -⟩ := wf₂.explained second
  rcases wf₂.waitReturns_step effect₂ again with ⟨p, -, -, isPid, -⟩ | ⟨failed, -⟩
  · exact absurd isPid (gone₂.absent p)
  · exact failed

/-- The exit and wait protocol. Every process other than the first has a parent that is alive. A
process that sleeps in `wait` sleeps on its own slot, has a child and no zombie child, and is not
killed; and if no other code sleeps on the address of a process, whoever sleeps on one is in
`wait` and the address is its own. Process IDs are distinct as long as `nextpid` has not wrapped.
A zombie leaves its state only when its parent reaps it in `wait`, which returns its process ID.
Conversely a `wait` that returns takes a zombie child, whose process ID it returns, to `UNUSED`, or
fails with -1 and changes nothing; and no two waits return one process ID as long as `nextpid` has
not wrapped. -/
theorem exit_wait_protocol {actions : List (Action Cpu)}
    (reached : Transition.run step booted actions = .ok m) :
    (∀ p, m.table.initproc ≠ some p → (m.table.state p = .sleeping ∨ m.table.state p = .runnable ∨
        m.table.state p = .running ∨ m.table.state p = .zombie) →
      ∃ q, m.table.parent p = some q ∧ m.table.state q ≠ .unused ∧ m.table.state q ≠ .embryo ∧
        m.table.state q ≠ .zombie) ∧
    (∀ p, m.table.state p = .sleeping → m.pc p = .switched .wait →
      m.table.chan p = .proc p ∧ (∃ q, m.table.parent q = some p ∧ m.table.state q ≠ .unused) ∧
        (∀ q, m.table.parent q = some p → m.table.state q ≠ .zombie) ∧
        m.table.killed p = false) ∧
    (Transition.Along step (fun _ a => ¬ sleepsOnSlot a) booted actions →
      ∀ p q, m.table.state p = .sleeping → m.table.chan p = .proc q →
        m.pc p = .switched .wait ∧ q = p) ∧
    (Transition.Along step (fun m _ => m.table.nextpid.toNat + 1 < 2 ^ 32) booted actions →
      ∀ p q, m.table.state p ≠ .unused → m.table.state q ≠ .unused →
        m.table.pid p = m.table.pid q → p = q) ∧
    (∀ a m' p, m.step a = .ok m' → m.table.state p = .zombie → m'.table.state p ≠ .zombie →
      ∃ q, WaitReturns m a m' q (m.table.pid p) ∧ m.table.parent p = some q ∧
        m'.table.state p = .unused) ∧
    (∀ a m' q r, m.step a = .ok m' → WaitReturns m a m' q r →
      (∃ p, m.table.parent p = some q ∧ m.table.state p = .zombie ∧ m.table.pid p = r ∧
        m'.table.state = update m.table.state p .unused) ∨
      r = -1 ∧ m'.table = m.table ∧
        (∀ p, m.table.parent p = some q → m.table.state p ≠ .zombie) ∧
        ((∀ p, m.table.parent p ≠ some q) ∨ m.table.killed q = true)) ∧
    (Transition.Along step (fun m _ => m.table.nextpid.toNat + 1 < 2 ^ 32) booted actions →
      ∀ a m' later m₂ b m₃ q q' r, m.step a = .ok m' → Transition.run step m' later = .ok m₂ →
        m₂.step b = .ok m₃ →
        Transition.Along step (fun m _ => m.table.nextpid.toNat + 1 < 2 ^ 32) m' later →
        WaitReturns m a m' q r → WaitReturns m₂ b m₃ q' r → r = -1) := by
  obtain ⟨ready, free, wf, family, waits⟩ := reached_always
    (fun m _ _ => m.Family ∧ ∀ p, m.Waits p)
    ⟨booted_family, fun p position => by simp [booted] at position⟩
    (fun m m' ready free ready' free' a wf ⟨family, waits⟩ effect _ =>
      ⟨family_step family wf effect, fun p => family.waits_step wf (waits p) effect⟩) reached
  refine ⟨fun p notInit counts => ?_, fun p sleeping position => ?_,
    fun along p q sleeping on => ?_, fun along p q used usedQ same => ?_,
    fun a m' p taken zombie reaped => ?_, fun a m' q r taken returns => ?_, ?_⟩
  · obtain ⟨q, isParent, alive⟩ := family.parent p
      (fun equal => notInit (by rw [equal]; exact family.initproc)) (by grind -ring -linarith -lia)
    refine ⟨q, isParent, ?_, ?_, ?_⟩ <;> grind -ring -linarith -lia
  · obtain ⟨on, ⟨q, child⟩, noZombie, notKilled⟩ := waits p position sleeping
    refine ⟨on, ⟨q, child, fun unused => ?_⟩, noZombie, notKilled⟩
    have filling := family.unparented q p child (by rw [unused]; rfl)
    have forker := wf.forker p (by grind -ring -linarith -lia)
    grind -ring -linarith -lia
  · obtain ⟨_, _, _, channels⟩ := reached_along (fun _ a => ¬ sleepsOnSlot a)
      (fun m _ _ => m.SlotChannels)
      ⟨by simp [booted, sleepChan], fun p q sleeping => by
        have state := Ptable.booted_state p
        simp only [booted, state] at sleeping
        split at sleeping <;> cases sleeping⟩
      (fun m m' ready free ready' free' a wf channels elsewhere effect _ =>
        channels.step wf elsewhere effect) along reached
    have position := channels.asleep p q sleeping on
    have own := (waits p position sleeping).1
    rw [on] at own
    exact ⟨position, Chan.proc.inj own⟩
  · have fresh := reached_freshPids along reached
    exact fresh.unique p q same (fresh.nonzero p used)
  · obtain ⟨ready', free', effect, -⟩ := wf.explained taken
    exact wf.zombie_step effect zombie reaped
  · obtain ⟨ready', free', effect, -⟩ := wf.explained taken
    refine (wf.waitReturns_step effect returns).imp ?_ id
    rintro ⟨p, isParent, zombie, isPid, -, state, -⟩
    exact ⟨p, isParent, zombie, isPid, state⟩
  · intro before a m' later m₂ b m₃ q q' r first ran second after returns again
    exact reaped_once reached before first ran second after returns again

/-- The first process forks and goes to sleep in `wait`; the child exits, and the first process has
scanned its children again. -/
def waitsForChild : List (Action Unit) :=
  startInit () ++ forks () ++ .call () .wait :: List.replicate 6 (.advance ()) ++
    .call () .exit :: List.replicate 5 (.advance ())

/-- After the first process slept in `wait` for the child it forked, and the child exited, `wait`
returns the process ID of the child and frees its slot. -/
theorem exit_wait_protocol_reaping : ∃ m m' : Machine Unit,
    Transition.run step booted waitsForChild = .ok m ∧ m.step (.advance ()) = .ok m' ∧
      m.table.state 62 = .zombie ∧ m'.table.state 62 = .unused ∧
      (∃ q, WaitReturns m (.advance ()) m' q 2 ∧ m.table.parent 62 = some q) ∧
      ∀ p q, m.table.state p ≠ .unused → m.table.state q ≠ .unused →
        m.table.pid p = m.table.pid q → p = q := by
  have checked : Transition.ends (fun m => decide (m.table.state 62 = .zombie ∧
      m.table.pid 62 = 2)) (Transition.run step booted waitsForChild) = true := by
    decide +kernel
  have reaps : Transition.ends (fun m => decide (m.table.state 62 ≠ .zombie))
      (Transition.run step (booted : Machine Unit) (waitsForChild ++ [.advance ()])) = true := by
    decide +kernel
  have noWrap : Transition.Along step (fun m _ => m.table.nextpid.toNat + 1 < 2 ^ 32) booted
      waitsForChild := by
    decide +kernel
  obtain ⟨m', ran, left⟩ := Transition.exists_of_ends reaps
  obtain ⟨m, reached, taken⟩ := Transition.run_concat.mp ran
  rw [reached] at checked
  obtain ⟨zombie, pid⟩ := of_decide_eq_true checked
  obtain ⟨-, -, -, distinct, reaped, -⟩ := exit_wait_protocol reached
  obtain ⟨q, returns, isParent, unused⟩ := reaped _ m' 62 taken zombie (of_decide_eq_true left)
  rw [pid] at returns
  exact ⟨m, m', reached, taken, zombie, unused, ⟨q, returns, isParent⟩, distinct noWrap⟩

end Machine

end Xv6
