import Xv6.Proc.ExitWait
import Xv6.Proc.Kill

/-!
# Setting a priority

`setPriority` takes a `RUNNABLE` process off its ready list and appends it to the list of the new
priority. The search of `removeFromReadyList` goes on after it has unlinked the process, from the
element that now follows; behind the last element there is none, so taking the last process off a
list of two or more follows a null pointer. From every other place the move is right.
-/

namespace Xv6

namespace Ptable

variable {t : Ptable} {ready : Fin size → List Slot} {free : List Slot} {p : Slot} {priority : Int}

/-- What `setPriority` should do for a process: set its priority, and if the process is `RUNNABLE`
and the priority changes, move it from its ready list to the end of the list of the new one. No
other list, priority or state changes. -/
def SetPrioritySpec (t : Ptable) (p : Slot) (priority : Int) : Prop :=
  ∃ t' ready ready' free, t.setPriority (t.pid p) priority = .ok (t', 0) ∧
    (∀ k, Chain.Linked t.next (t.readyList k) (ready k)) ∧
    (∀ k, Chain.Linked t'.next (t'.readyList k) (ready' k)) ∧
    Chain.Linked t.next t.freeList free ∧ Chain.Linked t'.next t'.freeList free ∧
    t'.priority = Function.update t.priority p priority ∧ t'.state = t.state ∧
    (∀ k j : Fin size, t.state p = .runnable → t.priority p = k.val → priority = j.val → k ≠ j →
      ready' = Function.update (Function.update ready k ((ready k).erase p)) j
        (ready j ++ [p])) ∧
    (t.state p ≠ .runnable ∨ t.priority p = priority → ready' = ready)

theorem Listed.setPrioritySpec_iff (listed : t.Listed ready free)
    (found : t.findPid (t.pid p) = some p) (bounded : 0 ≤ priority ∧ priority < size) :
    t.SetPrioritySpec p priority ↔
      (t.state p = .runnable → t.priority p ≠ priority → t.Movable p) := by
  by_cases stays : t.priority p = priority ∨ t.state p ≠ .runnable
  · obtain ⟨done, kept⟩ := listed.setPriority_stays found bounded stays
    refine iff_of_true ?_ fun runnable changed => ?_
    · refine ⟨_, ready, ready, free, done, listed.queues.linked, kept.queues.linked,
        listed.queues.freeLinked, kept.queues.freeLinked, rfl, rfl, ?_, fun _ => rfl⟩
      intro k j runnable old new changes
      rcases stays with same | waiting
      · exact absurd (level_injective (old.symm.trans (same.trans new))) changes
      · exact absurd runnable waiting
    · rcases stays with same | waiting
      · exact absurd same changed
      · exact absurd runnable waiting
  · obtain ⟨changed, runnable⟩ := not_or.mp stays
    have runnable := not_not.mp runnable
    obtain ⟨k, old⟩ := listed.queues.exists_level p
    obtain ⟨j, rfl⟩ := exists_level_of_bounded bounded
    have changes : k ≠ j := by
      rintro rfl
      exact changed old
    constructor
    · rintro ⟨t', _, _, _, returned, -⟩ - -
      by_contra stuck
      rw [listed.setPriority_faults found runnable old changes stuck] at returned
      cases returned
    · intro condition
      obtain ⟨next, readyList, done, moved⟩ :=
        listed.setPriority_moves found runnable old changes (condition runnable changed)
      refine ⟨_, ready, movedSequences ready k j p, free, done, listed.queues.linked,
        moved.queues.linked, listed.queues.freeLinked, moved.queues.freeLinked, rfl, rfl, ?_, ?_⟩
      · intro k' j' _ old' new' _
        obtain rfl := level_injective (old'.symm.trans old)
        obtain rfl := level_injective new'
        rfl
      · rintro (waiting | same)
        · exact absurd runnable waiting
        · exact absurd same changed

end Ptable

namespace Machine

variable {Cpu : Type} [DecidableEq Cpu] {m : Machine Cpu}

omit [DecidableEq Cpu] in
theorem FreshPids.findPid (fresh : m.FreshPids) {p : Slot} (live : m.table.state p ≠ .unused) :
    m.table.findPid (m.table.pid p) = some p := by
  cases found : m.table.findPid (m.table.pid p) with
  | none => exact absurd rfl (Ptable.findPid_none found p)
  | some q => rw [fresh.unique q p (Ptable.findPid_some found) (by
      rw [Ptable.findPid_some found]
      exact fresh.nonzero p live)]

/-- Setting the priority of a process, in every state that a run from boot reaches. While `nextpid`
has not wrapped, the process ID of a process finds it; and then `setPriority` does what it should
exactly when the process is not the last of two or more on the list that it has to leave. -/
theorem setPriority_moves_iff {actions : List (Action Cpu)}
    (reached : Transition.run step booted actions = .ok m) :
    (Transition.Along step (fun m _ => m.table.nextpid.toNat + 1 < 2 ^ 32) booted actions →
      ∀ p, m.table.state p ≠ .unused → m.table.findPid (m.table.pid p) = some p) ∧
    ∀ p (priority : Int), m.table.findPid (m.table.pid p) = some p →
      0 ≤ priority ∧ priority < size → (m.table.SetPrioritySpec p priority ↔
        (m.table.state p = .runnable → m.table.priority p ≠ priority → m.table.Movable p)) := by
  obtain ⟨ready, free, wf⟩ := reached_wellFormed reached
  refine ⟨fun noWrap p live => ?_, fun p priority found bounded => ?_⟩
  · exact (reached_freshPids noWrap reached).findPid live
  · exact wf.listed.setPrioritySpec_iff found bounded

def forksTwice : List (Action Unit) := startInit () ++ forks () ++ forks ()

/-- The elder of two `RUNNABLE` children is moved to the high list. -/
theorem setPriority_moves_elder : ∃ m : Machine Unit,
    Transition.run step booted forksTwice = .ok m ∧
      (m.table.state 62 = .runnable ∧ m.table.priority 62 ≠ 0) ∧
      m.table.SetPrioritySpec 62 0 := by
  have checked : Transition.ends (fun m => decide (m.table.findPid (m.table.pid 62) = some 62 ∧
      (m.table.state 62 = .runnable ∧ m.table.priority 62 ≠ 0) ∧ m.table.Movable 62))
      (Transition.run step booted forksTwice) = true := by
    decide +kernel
  obtain ⟨m, reached, facts⟩ := Transition.exists_of_ends checked
  obtain ⟨found, ready, movable⟩ := of_decide_eq_true facts
  refine ⟨m, reached, ready, ?_⟩
  exact ((setPriority_moves_iff reached).2 62 0 found (by decide)).mpr fun _ _ => movable

/-- The younger of two `RUNNABLE` children is the last on their list: setting its priority follows
a null pointer. -/
theorem setPriority_faults_younger : ∃ m : Machine Unit,
    Transition.run step booted forksTwice = .ok m ∧ m.table.state 61 = .runnable ∧
      m.table.pid 61 = 3 ∧ m.table.setPriority 3 0 = .error .nullDeref := by
  have checked : Transition.ends (fun m => decide (m.table.state 61 = .runnable ∧
      m.table.pid 61 = 3 ∧ m.table.findPid 3 = some 61 ∧ m.table.priority 61 = 1 ∧
      ¬ m.table.Movable 61)) (Transition.run step booted forksTwice) = true := by
    decide +kernel
  obtain ⟨m, reached, facts⟩ := Transition.exists_of_ends checked
  obtain ⟨runnable, named, found, level, stuck⟩ := of_decide_eq_true facts
  obtain ⟨ready, free, wf⟩ := reached_wellFormed reached
  have old : m.table.priority 61 = ((1 : Fin size).val : Int) := level
  have fault : m.table.setPriority 3 ((0 : Fin size).val : Int) = .error .nullDeref :=
    wf.listed.setPriority_faults found runnable old (by decide) stuck
  exact ⟨m, reached, runnable, named, fault⟩

end Machine

end Xv6
