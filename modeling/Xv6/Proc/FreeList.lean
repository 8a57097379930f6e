import Xv6.Proc.ReadyLists

/-!
# The free list over whole runs

A slot that becomes `UNUSED` should go back to the free list. Of the three places that free a
slot only the failed `copyuvm` of `fork` does it in this build: `wait` and the failed `kalloc` of
`allocproc` guard the insertion by names that no build defines. A slot that they free is lost for
the rest of the run, and nothing else loses one.
-/

namespace Xv6

theorem Ptable.Listed.allocproc_none_iff {t : Ptable} {ready : Fin size → List Slot}
    {free : List Slot} (listed : t.Listed ready free)
    (holds : ∀ p, p ∈ free ↔ t.state p = .unused) :
    t.allocproc = none ↔ t.allocprocScan = none := by
  have scan : t.allocprocScan = none ↔ free = [] := by
    simp [Ptable.allocprocScan, Ptable.slots, List.eq_nil_iff_forall_not_mem, holds]
  rcases listed.allocproc with ⟨empty, full⟩ | ⟨p, rest, head, found, -⟩
  · simp [scan, empty, full]
  · simp [scan, head, found]

namespace Machine

variable {Cpu : Type}

def reaps (m : Machine Cpu) : Action Cpu → Bool
  | .advance c =>
    match m.sched c, m.proc c with
    | .running _, some p =>
      m.pc p = .inside .wait && (m.table.waitScan p Ptable.slots false).1.isSome
    | _, _ => false
  | _ => false

def failsKalloc (m : Machine Cpu) : Action Cpu → Bool
  | .fork c false =>
    match m.readyProc c with
    | some p => match m.fork p with
      | .kalloc _ => true
      | _ => false
    | none => false
  | _ => false

def loses (m : Machine Cpu) (a : Action Cpu) : Bool := m.reaps a || m.failsKalloc a

/-- The free list is a null-terminated chain without repetition of exactly the `UNUSED` slots, and
shares none with a ready list. -/
def FreeListExact (m : Machine Cpu) : Prop :=
  ∃ free, Chain.Linked m.table.next m.table.freeList free ∧ free.Nodup ∧
    (∀ k nodes, Chain.Linked m.table.next (m.table.readyList k) nodes → ∀ p ∈ free, p ∉ nodes) ∧
    ∀ p, p ∈ free ↔ m.table.state p = .unused

/-- Every `UNUSED` slot is on the free list or about to be put there by a failed `fork`. -/
def Recovered (m : Machine Cpu) (free : List Slot) : Prop :=
  ∀ p, m.table.state p = .unused → p ∈ free ∨ ∃ q, m.fork q = .failed p

def Lost (m : Machine Cpu) (p : Slot) : Prop :=
  m.table.state p = .unused ∧
    (∀ nodes, Chain.Linked m.table.next m.table.freeList nodes → p ∉ nodes) ∧
    ∀ q, (m.fork q).child ≠ some p

variable [DecidableEq Cpu] {m m' : Machine Cpu} {ready ready' : Fin size → List Slot}
  {free free' : List Slot} {a : Action Cpu} {actions : List (Action Cpu)}

omit [DecidableEq Cpu] in
theorem booted_recovered : (booted : Machine Cpu).Recovered Ptable.bootedFree := by
  have listed : ∀ p, Ptable.booted.state p = .unused → p ∈ Ptable.bootedFree := by decide +kernel
  intro p unused
  simp only [booted] at unused
  exact .inl (listed p unused)

theorem WellFormed.recovered_step (wf : m.WellFormed ready free) (recovered : m.Recovered free)
    (keeps : ¬ m.loses a)
    (effect : m.Effect ready free a m' ready' free') : m'.Recovered free' := by
  intro p unused
  have fits := wf.fits
  by_cases before : m.table.state p = .unused
  · rcases recovered p before with member | ⟨q, stage⟩
    · left
      cases effect <;> grind -ring -linarith -lia
    · cases effect with
      | @forkFailed c r np _ _ _ _ filling =>
        by_cases same : r = q
        · left
          grind -ring -linarith -lia
        · exact .inr ⟨q, by grind -ring -linarith -lia⟩
      | _ => exact .inr ⟨q, by grind -ring -linarith -lia⟩
  · cases effect with
    | reap current position scanned =>
      obtain ⟨⟨i, index⟩, proc⟩ := current
      simp [loses, reaps, index, proc, position, scanned] at keeps
    | kallocFailed current position stage =>
      obtain ⟨⟨i, index⟩, proc⟩ := current
      simp [loses, failsKalloc, readyProc, index, proc, position, stage] at keeps
    | @copyuvmFailed c q np current position stage =>
      exact .inr ⟨q, by grind -ring -linarith -lia⟩
    | _ => grind -ring -linarith -lia

omit [DecidableEq Cpu] in
theorem WellFormed.off_freeList {p : Slot} (wf : m.WellFormed ready free) :
    (∀ nodes, Chain.Linked m.table.next m.table.freeList nodes → p ∉ nodes) ↔ p ∉ free := by
  have linked := wf.listed.queues.freeLinked
  exact ⟨fun off => off free linked, fun absent nodes other => other.unique linked ▸ absent⟩

section

variable (wf : m.WellFormed ready free)
include wf

theorem WellFormed.lost_step {p : Slot} (lost : m.Lost p)
    (effect : m.Effect ready free a m' ready' free') (wf' : m'.WellFormed ready' free') :
    m'.Lost p := by
  obtain ⟨unused, off, nobody⟩ := lost
  have absent := wf.off_freeList.mp off
  have after : m'.table.state p = .unused ∧ p ∉ free' ∧ ∀ q, (m'.fork q).child ≠ some p := by
    cases effect <;> grind -ring -linarith -lia
  exact ⟨after.1, wf'.off_freeList.mpr after.2.1, after.2.2⟩

theorem lost_run {p : Slot} {later : List (Action Cpu)} (lost : m.Lost p)
    (ran : Transition.run step m later = .ok m') : m'.Lost p := by
  refine (Transition.run_invariant
    (fun m => (∃ ready free, m.WellFormed ready free) ∧ m.Lost p) ?_ ⟨⟨ready, free, wf⟩, lost⟩
    ran).2
  rintro m a m' ⟨⟨ready, free, wf⟩, lost⟩ taken
  obtain ⟨ready', free', effect, listed⟩ := wf.explained taken
  have wf' := wf.effect_step effect listed
  exact ⟨⟨ready', free', wf'⟩, wf.lost_step lost effect wf'⟩

theorem WellFormed.lost_of_reaps (reaped : m.reaps a) (taken : m.step a = .ok m') :
    ∃ p, m'.Lost p := by
  unfold reaps at reaped
  split at reaped <;> try cases reaped
  split at reaped <;> try cases reaped
  rename_i c _ _ i p index proc
  obtain ⟨position, found⟩ : m.pc p = .inside .wait ∧
      (m.table.waitScan p Ptable.slots false).1.isSome := by simpa using reaped
  obtain ⟨q, found⟩ := Option.isSome_iff_exists.mp found
  obtain ⟨havekids, scanned⟩ :
      ∃ havekids, m.table.waitScan p Ptable.slots false = (some q, havekids) :=
    ⟨_, Prod.ext found rfl⟩
  simp only [step, advance, index, proc, advanceProc, position, work, waitLoop, scanned] at taken
  cases taken
  have zombie := (Ptable.waitScan_found scanned).2
  have absent : q ∉ free := wf.listed.not_free (by rw [zombie]; decide)
  refine ⟨q, by simp [setPc, Ptable.reap], wf.off_freeList.mpr absent, fun r filling => ?_⟩
  have state := (wf.child r q filling).1
  rw [zombie] at state
  cases stage : m.fork r <;> simp [stage, Forking.childState] at state

theorem WellFormed.lost_of_failsKalloc (fails : m.failsKalloc a) (taken : m.step a = .ok m') :
    ∃ p, m'.Lost p := by
  unfold failsKalloc at fails
  split at fails <;> try cases fails
  split at fails <;> try cases fails
  split at fails <;> try cases fails
  rename_i c _ p found _ np stage
  simp only [step, found, forkStep, stage, Bool.false_eq_true, if_false] at taken
  cases taken
  have filling : (m.fork p).child = some np := by rw [stage]; rfl
  obtain ⟨-, absent, -⟩ := wf.child p np filling
  refine ⟨np, by simp [Ptable.allocprocFailed], wf.off_freeList.mpr absent, fun q other => ?_⟩
  by_cases same : q = p
  · simp [same, Forking.child] at other
  · simp only [Function.update_of_ne same] at other
    exact same (wf.childUnique q p np other filling)

end

/-- In a machine in which no process is inside `fork`, the free list holds exactly the `UNUSED`
slots, and `allocproc` fails exactly when a scan of the table would, precisely after the runs in
which no `wait` reaped a zombie and no `kalloc` of `allocproc` failed. -/
theorem freeList_exact_iff (reached : Transition.run step booted actions = .ok m)
    (noFork : ∀ p, (m.fork p).child = none) :
    (m.FreeListExact ∧ (m.table.allocproc = none ↔ m.table.allocprocScan = none)) ↔
      Transition.Along step (fun m a => ¬ m.loses a) booted actions := by
  constructor
  · rintro ⟨⟨nodes, linked, -, -, holds⟩, -⟩
    rw [Transition.along_iff_not_occurs reached]
    rintro ⟨before, action, after, m₁, m₂, rfl, ran, taken, loses⟩
    obtain ⟨_, ran', tail⟩ := Transition.run_append.mp reached
    rw [ran] at ran'
    cases ran'
    obtain ⟨_, taken', rest⟩ := Transition.run_cons.mp tail
    rw [taken] at taken'
    cases taken'
    obtain ⟨ready, free, wf⟩ := reached_wellFormed ran
    obtain ⟨ready', free', effect, listed⟩ := wf.explained taken
    have wf' := wf.effect_step effect listed
    obtain ⟨p, lost⟩ : ∃ p, m₂.Lost p := by
      simp only [Machine.loses, Bool.or_eq_true, not_not] at loses
      rcases loses with reaped | fails
      · exact wf.lost_of_reaps reaped taken
      · exact wf.lost_of_failsKalloc fails taken
    obtain ⟨unused, off, -⟩ := lost_run wf' lost rest
    exact off nodes linked ((holds p).mpr unused)
  · intro along
    obtain ⟨ready, free, wf, recovered⟩ := reached_along
      (fun m a => ¬ m.loses a) (fun m _ free => m.Recovered free)
      booted_recovered
      (fun m m' ready free ready' free' a wf recovered keeps effect _ =>
        wf.recovered_step recovered keeps effect) along reached
    have holds : ∀ p, p ∈ free ↔ m.table.state p = .unused := by
      intro p
      refine ⟨wf.listed.unused p, fun unused => ?_⟩
      rcases recovered p unused with member | ⟨q, stage⟩
      · exact member
      · have filling := noFork q
        rw [stage] at filling
        cases filling
    refine ⟨⟨free, wf.listed.queues.freeLinked, wf.listed.queues.freeDistinct,
      fun k nodes linked p member => ?_, holds⟩, ?_⟩
    · rw [linked.unique (wf.listed.queues.linked k), wf.listed.mem_ready]
      intro waits
      rw [wf.listed.unused p member] at waits
      cases waits.1
    · exact wf.listed.allocproc_none_iff holds

def forksInVain (c : Cpu) : List (Action Cpu) :=
  .call c .fork :: List.replicate 3 (.advance c) ++ [.fork c true, .fork c false, .fork c true] ++
    List.replicate 3 (.advance c)

/-- After a successful `fork` and one whose `copyuvm` failed the free list is exact. -/
theorem freeList_exact_forked : ∃ m : Machine Unit,
    Transition.run step booted (startInit () ++ forks () ++ forksInVain ()) = .ok m ∧
      (∀ p, (m.fork p).child = none) ∧ m.FreeListExact := by
  have checked : Transition.ends (fun m => decide (∀ p, (m.fork p).child = none))
      (Transition.run step (booted : Machine Unit)
        (startInit () ++ forks () ++ forksInVain ())) = true := by
    decide +kernel
  have along : Transition.Along step (fun m a => ¬ m.loses a) (booted : Machine Unit)
      (startInit () ++ forks () ++ forksInVain ()) := by
    decide +kernel
  obtain ⟨m, reached, noFork⟩ := Transition.exists_of_ends checked
  have noFork := of_decide_eq_true noFork
  exact ⟨m, reached, noFork, ((freeList_exact_iff reached noFork).mpr along).1⟩

/-- The first process forks and waits; the only CPU runs the child, which exits; the first process
reaps it. -/
def reapsChild : List (Action Unit) :=
  startInit () ++ forks () ++ .call () .wait :: List.replicate 6 (.advance ()) ++
    .call () .exit :: List.replicate 7 (.advance ())

/-- After a `fork`, an `exit` and the `wait` for it the slot of the child is `UNUSED` and not on
the free list. -/
theorem freeList_loses_reaped : ∃ m : Machine Unit,
    Transition.run step booted reapsChild = .ok m ∧ m.locks .ptable = none ∧
      (∀ p, (m.fork p).child = none) ∧ m.table.state 62 = .unused ∧ ¬ m.FreeListExact := by
  have checked : Transition.ends (fun m => decide (m.locks .ptable = none ∧
      (∀ p, (m.fork p).child = none) ∧ m.table.state 62 = .unused ∧
      Chain.Linked m.table.next m.table.freeList (Ptable.slots.reverse.drop 2)))
      (Transition.run step (booted : Machine Unit) reapsChild) = true := by
    decide +kernel
  obtain ⟨m, reached, facts⟩ := Transition.exists_of_ends checked
  obtain ⟨isFree, noFork, unused, linked⟩ := of_decide_eq_true facts
  refine ⟨m, reached, isFree, noFork, unused, ?_⟩
  rintro ⟨nodes, others, -, -, holds⟩
  have member := (holds 62).mpr unused
  rw [others.unique linked] at member
  revert member
  decide +kernel

end Machine

end Xv6
