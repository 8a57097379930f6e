import Xv6.Proc.Invariant

/-!
# The ready lists over whole runs

What the three ready lists hold at every point of a run, and in which order processes leave
them.
-/

namespace Xv6.Machine

variable {Cpu : Type} [DecidableEq Cpu] {m : Machine Cpu} {actions : List (Action Cpu)}

/-- CPU `c` enters its scheduler, dispatches the first process and lets it return to user
space. -/
def startInit (c : Cpu) : List (Action Cpu) := List.replicate 5 (.advance c)

def forks (c : Cpu) : List (Action Cpu) :=
  .call c .fork :: List.replicate 3 (.advance c) ++ List.replicate 5 (.fork c true) ++
    List.replicate 3 (.advance c)

/-- Each ready list is a null-terminated chain without repetition of exactly the `RUNNABLE`
processes of its level, every priority is a level, and every `RUNNING` process is current on
exactly one CPU. -/
theorem readyLists_hold_runnable (reached : Transition.run step booted actions = .ok m) :
    (∀ k : Fin size, ∃ nodes, Chain.Linked m.table.next (m.table.readyList k) nodes ∧
      nodes.Nodup ∧ ∀ p, p ∈ nodes ↔ m.table.state p = .runnable ∧ m.table.priority p = k.val) ∧
    (∀ p, m.table.priority p = high ∨ m.table.priority p = defaultPrio ∨
      m.table.priority p = low) ∧
    (∀ p, m.table.state p = .running → ∃! c, m.proc c = some p) ∧
    ∀ c d p, m.proc c = some p → m.proc d = some p → c = d := by
  obtain ⟨ready, free, wf⟩ := reached_wellFormed reached
  refine ⟨fun k => ?_, fun p => ?_, fun p running => ?_, wf.unique⟩
  · exact ⟨ready k, wf.listed.queues.linked k, wf.listed.queues.distinct k,
      fun p => wf.listed.mem_ready k⟩
  · have bounded := wf.listed.queues.bounded p
    simp only [high, defaultPrio, low, size] at bounded ⊢
    omega
  · obtain ⟨c, current⟩ := (wf.running p).mp running
    exact ⟨c, current, fun d other => wf.unique d c p other current⟩

/-- Two CPUs run the first process and the child it forked. -/
theorem readyLists_hold_runnable_forked : ∃ m : Machine (Fin 2),
    Transition.run step booted (startInit 0 ++ forks 0 ++ List.replicate 3 (.advance 1)) = .ok m ∧
      (m.proc 0 = some 63 ∧ m.proc 1 = some 62) ∧ ∀ p, m.table.state p = .running →
        ∃! c, m.proc c = some p := by
  have checked : Transition.ends (fun m => decide (m.proc 0 = some 63 ∧ m.proc 1 = some 62))
      (Transition.run step (booted : Machine (Fin 2))
        (startInit 0 ++ forks 0 ++ List.replicate 3 (.advance 1))) = true := by
    decide +kernel
  obtain ⟨m, reached, current⟩ := Transition.exists_of_ends checked
  exact ⟨m, reached, of_decide_eq_true current, (readyLists_hold_runnable reached).2.2.1⟩

theorem Effect.dispatched {m' : Machine Cpu} {ready ready' : Fin size → List Slot}
    {free free' : List Slot} {a : Action Cpu} {c : Cpu} {p : Slot}
    (effect : m.Effect ready free a m' ready' free') (before : m.proc c ≠ some p)
    (after : m'.proc c = some p) :
    ∃ (k : Fin size) (back : List Slot), a = .advance c ∧ m.sched c = .scan k ∧
      ready k = p :: back ∧ m'.table.state = Function.update m.table.state p .running ∧
      m'.table.priority p = m.table.priority p ∧
      ((m.table.timeToReset - 1 ≠ 0 ∧ m'.table.timeToReset = m.table.timeToReset - 1 ∧
          m'.table.priority = m.table.priority ∧ ready' = Function.update ready k back) ∨
        (m.table.timeToReset - 1 = 0 ∧ m'.table.timeToReset = count ∧
          ready' = Ptable.resetSequences (Function.update ready k back) ∧
          ∀ q, q ≠ p → m.table.state q = .running ∨ m.table.state q = .sleeping ∨
            m.table.state q = .runnable → m'.table.priority q = defaultPrio)) := by
  cases effect with
  | @dispatch d q back _ _ _ _ _ k position head _ kept turn =>
    have here : c = d := by grind -ring -linarith -lia
    subst here
    have same : q = p := by simpa using after
    subst same
    refine ⟨k, back, rfl, position, head, rfl, kept, ?_⟩
    rcases turn with counts | ⟨due, time, sequences, reset, -⟩
    · exact .inl counts
    · exact .inr ⟨due, time, sequences, reset⟩
  | exit | sleep | yield => grind -ring -linarith -lia
  | _ => exact absurd after before

section Order

variable {m' : Machine Cpu} {ready ready' : Fin size → List Slot} {free free' : List Slot}
  {a : Action Cpu}

theorem WellFormed.ready_critical (wf : m.WellFormed ready free)
    (effect : m.Effect ready free a m' ready' free') :
    ready' = ready ∨ m.locks .ptable = some a.cpu := by
  have exclusive := wf.exclusive
  cases effect with
  | thread | scheduler | allocproc | kallocOk | kallocFailed | copyuvmOk | copyuvmFailed
  | forkParent | forkInherit | forkFailed | reap | sleep | wakesUp | leaveSleep | relock | trap =>
    exact .inl rfl
  | _ => exact .inr (by grind -ring -linarith -lia [Action.cpu])

/-- Where the loops of the schedulers are: the lists before the one that is tested next are
empty, and a loop that is left to run a process goes on at the first list or ends. -/
def Scanned (m : Machine Cpu) (ready : Fin size → List Slot) : Prop :=
  ∀ c, (∀ k : Fin size, m.sched c = .scan k → ∀ j < k, ready j = []) ∧
    ∀ i, m.sched c = .running i → i = 0 ∨ size ≤ i

theorem WellFormed.scanned_step (wf : m.WellFormed ready free) (scanned : m.Scanned ready)
    (effect : m.Effect ready free a m' ready' free') : m'.Scanned ready' := by
  intro d
  have here := scanned d
  by_cases same : d = a.cpu
  · subst same
    cases effect with
    | scheduler move =>
      cases move with
      | @skip i position empty =>
        refine ⟨fun k next j before => ?_, by grind -ring -linarith -lia [Action.cpu]⟩
        have after : k.val = i.val + 1 := by simpa [Action.cpu, eq_comm] using next
        by_cases last : j = i
        · rw [last]
          exact (wf.listed.queues.linked i).head_none.mp empty
        · exact here.1 i position j (by grind -ring -linarith)
      | _ => grind -ring -linarith [Action.cpu]
    | exit _ index | yield _ index =>
      have loop := here.2 _ index
      grind -ring -linarith [Action.cpu]
    | sleep _ index sleeps =>
      cases sleeps
      all_goals
        have loop := here.2 _ index
        grind -ring -linarith [Action.cpu]
    | @dispatch c _ _ _ _ _ _ _ k =>
      have bound := k.isLt
      grind -ring -linarith [Action.cpu, size]
    | _ => grind -ring -linarith -lia [Action.cpu]
  · obtain ⟨sched, -, -⟩ := wf.others_stay effect same
    refine ⟨fun k position j before => ?_, fun i position => ?_⟩
    · rw [sched] at position
      have held := wf.exclusive d (by simp [critical, position])
      rcases wf.ready_critical effect with unchanged | other
      · rw [unchanged]
        exact (scanned d).1 k position j before
      · rw [held] at other
        exact absurd (Option.some.inj other) same
    · exact (scanned d).2 i (sched ▸ position)

def Dispatches (m m' : Machine Cpu) (p : Slot) : Prop :=
  ∃ c, m.proc c ≠ some p ∧ m'.proc c = some p

def SetsPriority (m : Machine Cpu) (a : Action Cpu) (p : Slot) : Prop :=
  ∃ c q pid priority, a = .advance c ∧ m.Current c q ∧
    m.pc q = .inside (.setPriority pid priority) ∧ m.table.findPid pid = some p

def Before (ready : Fin size → List Slot) (q r : Slot) : Prop :=
  ∃ k, [q, r].Sublist (ready k)

variable {q r : Slot}

omit [DecidableEq Cpu] in
theorem WellFormed.before_head (wf : m.WellFormed ready free) (before : Before ready q r)
    {k : Fin size} {back : List Slot} : ready k ≠ r :: back := by
  intro head
  obtain ⟨j, order⟩ := before
  have member : r ∈ ready j := order.subset (by simp)
  have same : j = k := by
    by_contra apart
    exact wf.listed.queues.ready_disjoint apart member (by simp [head])
  subst same
  have distinct := wf.listed.queues.distinct j
  rw [head] at order distinct
  have absent := (List.nodup_cons.mp distinct).1
  cases order with
  | cons _ order => exact absent (order.subset (by simp))
  | cons_cons _ order => exact absent (order.subset (by simp))

theorem Before.update {q r p : Slot} (before : Before ready q r) {k : Fin size}
    {back : List Slot} (head : ready k = p :: back) (other : p ≠ q) :
    Before (Function.update ready k back) q r := by
  obtain ⟨j, order⟩ := before
  refine ⟨j, ?_⟩
  by_cases same : j = k
  · subst same
    rw [head] at order
    cases order with
    | cons _ order => simpa using order
    | cons_cons => exact absurd rfl other
  · simpa [Function.update_of_ne same] using order

theorem Before.reset (before : Before ready q r) : Before (Ptable.resetSequences ready) q r := by
  obtain ⟨j, order⟩ := before
  refine ⟨1, order.trans ?_⟩
  simp only [Ptable.resetSequences, if_true]
  rcases Ptable.level_cases j with rfl | rfl | rfl
  · exact (List.sublist_append_right ..).trans (List.sublist_append_left ..)
  · exact (List.sublist_append_left ..).trans (List.sublist_append_left ..)
  · exact List.sublist_append_right ..

theorem WellFormed.before_step (wf : m.WellFormed ready free) (before : Before ready q r)
    (effect : m.Effect ready free a m' ready' free') :
    Before ready' q r ∨ m.Dispatches m' q ∨ m.SetsPriority a q ∨ m.SetsPriority a r := by
  have appends : (∀ k, ready k <+: ready' k) → Before ready' q r := by
    intro appended
    obtain ⟨k, order⟩ := before
    exact ⟨k, order.trans (appended k).sublist⟩
  cases effect with
  | exit _ _ _ appended | forkDone _ _ _ appended | yield _ _ _ appended | wakeup _ _ appended
  | handlerWakeup _ appended | kill _ _ _ appended => exact .inl (appends appended)
  | @setPriority c p pid s priority _ _ _ current position found kept =>
    have sets : m.SetsPriority (.advance c) s :=
      ⟨c, p, pid, priority, rfl, current, position, found⟩
    by_cases first : s = q
    · exact .inr (.inr (.inl (first ▸ sets)))
    · by_cases second : s = r
      · exact .inr (.inr (.inr (second ▸ sets)))
      · obtain ⟨k, order⟩ := before
        have filtered := order.filter (· ≠ s)
        rw [List.filter_eq_self.mpr (by simp [Ne.symm first, Ne.symm second])] at filtered
        exact .inl ⟨k, filtered.trans (kept k)⟩
  | @dispatch c p back _ _ _ _ _ k position head _ _ turn =>
    by_cases first : p = q
    · refine .inr (.inl ⟨c, fun current => ?_, by simp [first]⟩)
      obtain ⟨i, switched⟩ := wf.switchedTo c q current
      rw [position] at switched
      cases switched
    · have order := before.update head first
      rcases turn with ⟨-, -, -, rfl⟩ | ⟨-, -, rfl, -⟩
      · exact .inl order
      · exact .inl order.reset
  | _ => exact .inl before

end Order

/-- A dispatched process is the head of its list while all lists before it are empty. Of two
processes on one list the second is not dispatched before the first, unless `setPriority` is run
on one of them in between. -/
theorem dispatch_order (reached : Transition.run step booted actions = .ok m) :
    (∀ a m' p, m.step a = .ok m' → m.Dispatches m' p →
      ∃ c, ∃ i : Fin size, a = .advance c ∧ m.sched c = .scan i ∧ m'.proc c = some p ∧
        m.table.readyList i = some p ∧ ∀ j < i, m.table.readyList j = none) ∧
    ∀ k nodes q r, Chain.Linked m.table.next (m.table.readyList k) nodes →
      [q, r].Sublist nodes → ∀ later m₁ a m₂, Transition.run step m later = .ok m₁ →
        m₁.step a = .ok m₂ → m₁.Dispatches m₂ r →
        Transition.Occurs step (fun before b after => before.Dispatches after q ∨
          before.SetsPriority b q ∨ before.SetsPriority b r) m later := by
  obtain ⟨ready, free, wf, scanned⟩ := reached_always (fun m ready _ => m.Scanned ready)
    (by simp [Scanned, booted])
    (fun m m' ready free ready' free' a wf scanned effect _ => wf.scanned_step scanned effect)
    reached
  constructor
  · rintro a m' p taken ⟨c, before, after⟩
    obtain ⟨ready', free', effect, -⟩ := wf.explained taken
    obtain ⟨k, back, action, position, head, -⟩ := effect.dispatched before after
    have linked := wf.listed.queues.linked k
    rw [head] at linked
    refine ⟨c, k, action, position, after, linked.1, fun j earlier => ?_⟩
    exact (wf.listed.queues.linked j).head_none.mpr ((scanned c).1 k position j earlier)
  · intro k nodes q r linked order later m₁ a m₂ ran taken dispatched
    rw [linked.unique (wf.listed.queues.linked k)] at order
    have stays := wf.stage_run (fun _ ready _ => Before ready q r)
      (fun before b after => before.Dispatches after q ∨ before.SetsPriority b q ∨
        before.SetsPriority b r)
      (fun m m' ready free ready' free' a wf before effect => wf.before_step before effect)
      ⟨k, order⟩ ran
    rcases stays with ⟨ready₁, free₁, wf₁, before⟩ | happens
    · obtain ⟨c, notYet, current⟩ := dispatched
      obtain ⟨ready₂, free₂, effect, -⟩ := wf₁.explained taken
      obtain ⟨j, back, -, -, head, -⟩ := effect.dispatched notYet current
      exact absurd head (wf₁.before_head before)
    · exact happens

/-- The children that the first process forked leave their list in the order they came. -/
theorem dispatch_order_children : ∃ m m₁ m₂ : Machine (Fin 3),
    Transition.run step booted (startInit 0 ++ (forks 0 ++ forks 0)) = .ok m ∧
      Chain.Linked m.table.next (m.table.readyList 1) [62, 61] ∧
      Transition.run step m (List.replicate 5 (.advance 1) ++ List.replicate 2 (.advance 2)) =
        .ok m₁ ∧ m₁.step (.advance 2) = .ok m₂ ∧ m₁.Dispatches m₂ 61 ∧
      Transition.Occurs step (fun before b after => before.Dispatches after 62 ∨
        before.SetsPriority b 62 ∨ before.SetsPriority b 61) m
        (List.replicate 5 (.advance 1) ++ List.replicate 2 (.advance 2)) := by
  have first : Transition.ends
      (fun m => decide (Chain.Linked m.table.next (m.table.readyList 1) [62, 61]))
      (Transition.run step (booted : Machine (Fin 3))
        (startInit 0 ++ (forks 0 ++ forks 0))) = true := by
    decide +kernel
  have second : Transition.ends (fun m => decide (m.proc 2 = none))
      (Transition.run step (booted : Machine (Fin 3)) (startInit 0 ++ (forks 0 ++ forks 0) ++
        (List.replicate 5 (.advance 1) ++ List.replicate 2 (.advance 2)))) = true := by
    decide +kernel
  have third : Transition.ends (fun m => decide (m.proc 2 = some 61))
      (Transition.run step (booted : Machine (Fin 3)) (startInit 0 ++ (forks 0 ++ forks 0) ++
        (List.replicate 5 (.advance 1) ++ List.replicate 2 (.advance 2)) ++ [.advance 2])) =
          true := by
    decide +kernel
  obtain ⟨m₂, ran, after⟩ := Transition.exists_of_ends third
  obtain ⟨m₁, ran₁, taken⟩ := Transition.run_concat.mp ran
  obtain ⟨m, reached, later⟩ := Transition.run_append.mp ran₁
  rw [ran₁] at second
  rw [reached] at first
  have linked := of_decide_eq_true first
  have before := of_decide_eq_true second
  have dispatched : m₁.Dispatches m₂ 61 :=
    ⟨2, by rw [before]; simp, of_decide_eq_true after⟩
  exact ⟨m, m₁, m₂, reached, linked, later, taken, dispatched,
    (dispatch_order reached).2 1 [62, 61] 62 61 linked (List.Sublist.refl _) _ m₁ _ m₂ later taken
      dispatched⟩

end Xv6.Machine
