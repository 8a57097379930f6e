import Xv6.Proc.Queues

/-!
# The process calls on listed tables

A table is listed when its ready lists hold exactly the `RUNNABLE` processes, each on the list
of its priority, and its free list holds `UNUSED` slots only. Every call keeps the table listed
and its result is given in full: the fields it sets, and the sequences its lists stand for
afterwards. Insertions append, so an old ready sequence is a prefix of the new one.
-/

namespace Xv6.Ptable

open Function (update update_eq_self update_of_ne update_self)

/-- The ready lists hold exactly the `RUNNABLE` slots and the free list holds `UNUSED` slots. -/
structure Listed (t : Ptable) (ready : Fin size → List Slot) (free : List Slot) : Prop where
  queues : Queues t (fun p => t.state p = .runnable) ready free
  unused : ∀ p ∈ free, t.state p = .unused

variable {t : Ptable} {ready : Fin size → List Slot} {free : List Slot} {p : Slot}

namespace Listed

section

variable (listed : Listed t ready free)
include listed

theorem congr {t' : Ptable} (next : t'.next = t.next) (readyList : t'.readyList = t.readyList)
    (freeList : t'.freeList = t.freeList) (priority : t'.priority = t.priority)
    (state : t'.state = t.state) : Listed t' ready free where
  queues := listed.queues.congr next readyList freeList priority (fun p => by rw [state])
  unused p member := by rw [state]; exact listed.unused p member

theorem setState (p : Slot) (state : Procstate) (old : t.state p ≠ .runnable)
    (new : state ≠ .runnable) (notFree : p ∉ free) :
    Listed { t with state := update t.state p state } ready free where
  queues := by
    refine listed.queues.congr rfl rfl rfl rfl (fun q => ?_)
    by_cases same : q = p
    · subst same
      simp [old, new]
    · simp [update_of_ne same]
  unused q member := by
    have different : q ≠ p := fun equal => notFree (equal ▸ member)
    simpa [update_of_ne different] using listed.unused q member

theorem mem_ready (k : Fin size) :
    p ∈ ready k ↔ t.state p = .runnable ∧ t.priority p = k.val := listed.queues.mem k p

theorem setPriority_off (p : Slot) (off : t.state p ≠ .runnable) (priority : Int)
    (bounded : 0 ≤ priority ∧ priority < size) :
    Listed { t with priority := update t.priority p priority } ready free :=
  ⟨listed.queues.setOff off priority bounded, listed.unused⟩

theorem not_free (used : t.state p ≠ .unused) : p ∉ free :=
  fun member => used (listed.unused p member)

theorem makeRunnable (p : Slot) (old : t.state p ≠ .runnable) (notFree : p ∉ free) :
    ∃ next readyList ready',
      { t with state := update t.state p .runnable }.putOnReadyList p (t.priority p) =
        .ok { t with
          state := update t.state p .runnable
          next := next
          readyList := readyList } ∧
      Listed { t with
          state := update t.state p .runnable
          next := next
          readyList := readyList } ready' free ∧
      ∀ k, ready k <+: ready' k := by
  obtain ⟨k, priority⟩ := listed.queues.exists_level p
  have lifted : Queues { t with state := update t.state p .runnable }
      (fun q => t.state q = .runnable) ready free :=
    listed.queues.congr rfl rfl rfl rfl (fun _ => Iff.rfl)
  obtain ⟨next, head, inserted, queues⟩ := lifted.put old notFree priority
  refine ⟨next, update t.readyList k head, update ready k (ready k ++ [p]),
    inserted, ⟨?_, ?_⟩, fun j => ?_⟩
  · refine queues.congr rfl rfl rfl rfl (fun q => ?_)
    by_cases same : q = p
    · simp [same]
    · simp [same]
  · intro q member
    have different : q ≠ p := fun equal => notFree (equal ▸ member)
    simpa [update_of_ne different] using listed.unused q member
  · by_cases same : j = k
    · subst same
      simp
    · simp [update_of_ne same]

end

end Listed

@[grind]
def wokenState (t : Ptable) (chan : Chan) (p : Slot) : Procstate :=
  if t.state p = .sleeping ∧ t.chan p = chan then .runnable else t.state p

theorem Listed.wakeupLoop (chan : Chan) (entries : List Slot) (listed : Listed t ready free) :
    ∃ next readyList ready',
      entries.foldlM (wakeupEntry chan) t =
        .ok { t with
          state := fun p => if p ∈ entries then t.wokenState chan p else t.state p
          next := next
          readyList := readyList } ∧
      Listed { t with
          state := fun p => if p ∈ entries then t.wokenState chan p else t.state p
          next := next
          readyList := readyList } ready' free ∧
      ∀ k, ready k <+: ready' k := by
  induction entries generalizing t ready with
  | nil =>
    refine ⟨t.next, t.readyList, ready, by simp [pure, Except.pure], ?_, fun _ => List.prefix_rfl⟩
    exact listed.congr rfl rfl rfl rfl (by simp)
  | cons first rest ih =>
    by_cases sleeper : t.state first = .sleeping ∧ t.chan first = chan
    · have old : t.state first ≠ .runnable := by simp [sleeper.1]
      have notFree : first ∉ free := listed.not_free (by simp [sleeper.1])
      obtain ⟨next, readyList, ready₁, inserted, listed₁, appended⟩ :=
        listed.makeRunnable first old notFree
      obtain ⟨next', readyList', ready', looped, listed₂, grown⟩ := ih listed₁
      have states : (fun p => if p ∈ rest then
            wokenState { t with
              state := update t.state first .runnable
              next := next
              readyList := readyList } chan p
          else update t.state first .runnable p) =
          fun p => if p ∈ first :: rest then t.wokenState chan p else t.state p := by
        funext p
        by_cases same : p = first
        · subst same
          simp [wokenState, sleeper]
        · simp [wokenState, same]
      refine ⟨next', readyList', ready', ?_, ?_, fun k => (appended k).trans (grown k)⟩
      · simp only [List.foldlM_cons, wakeupEntry, sleeper, and_self, if_true, inserted, bind,
          Except.bind]
        rw [looped, ← states]
      · rw [← states]
        exact listed₂
    · obtain ⟨next', readyList', ready', looped, listed₁, grown⟩ := ih listed
      have states : (fun p => if p ∈ rest then t.wokenState chan p else t.state p) =
          fun p => if p ∈ first :: rest then t.wokenState chan p else t.state p := by
        funext p
        by_cases same : p = first
        · subst same
          simp [wokenState, sleeper]
        · simp [same]
      refine ⟨next', readyList', ready', ?_, ?_, grown⟩
      · simp only [List.foldlM_cons, wakeupEntry, sleeper, if_false, bind, Except.bind]
        rw [looped, ← states]
      · rw [← states]
        exact listed₁

theorem Listed.wakeup1 (chan : Chan) (listed : Listed t ready free) :
    ∃ next readyList ready',
      t.wakeup1 chan =
        .ok { t with state := t.wokenState chan, next := next, readyList := readyList } ∧
      Listed { t with state := t.wokenState chan, next := next, readyList := readyList }
        ready' free ∧
      ∀ k, ready k <+: ready' k := by
  obtain ⟨next, readyList, ready', looped, listed', grown⟩ := listed.wakeupLoop chan slots
  have states : (fun p => if p ∈ slots then t.wokenState chan p else t.state p) =
      t.wokenState chan := by
    funext p
    simp [slots]
  rw [states] at looped listed'
  exact ⟨next, readyList, ready', looped, listed', grown⟩

/-- The states after `exit` of a process passed its abandoned children among the given slots to
init: init's sleep is ended when one of them is a zombie. -/
def abandonedState (t : Ptable) (proc : Slot) (entries : List Slot) : Slot → Procstate :=
  if ∃ p ∈ entries, t.parent p = some proc ∧ t.state p = .zombie then
    t.wokenState (Chan.ofPointer t.initproc)
  else t.state

def abandonedParent (t : Ptable) (proc : Slot) (entries : List Slot) (p : Slot) : Option Slot :=
  if p ∈ entries ∧ t.parent p = some proc then t.initproc else t.parent p

@[grind =]
theorem abandonedParent_slots (proc p : Slot) : t.abandonedParent proc slots p =
    if t.parent p = some proc then t.initproc else t.parent p := by
  simp [abandonedParent, slots]

theorem abandonedParent_nil (proc : Slot) : t.abandonedParent proc [] = t.parent := by
  funext p
  simp [abandonedParent]

variable {t' : Ptable} {pid : Word} {priority : Int} {entries : List Slot} {seen havekids : Bool}

theorem abandonedParent_cons {proc first : Slot} {rest : List Slot} (fresh : first ∉ rest)
    (child : t.parent first = some proc)
    (passed : t'.parent = update t.parent first t.initproc)
    (init : t'.initproc = t.initproc) :
    t'.abandonedParent proc rest = t.abandonedParent proc (first :: rest) := by
  funext p
  by_cases same : p = first
  · subst same
    simp [abandonedParent, fresh, child, passed]
  · simp [abandonedParent, same, passed, init]

theorem abandonedState_cons {proc first : Slot} {rest : List Slot} (fresh : first ∉ rest)
    (passed : t'.parent = update t.parent first t.initproc)
    (init : t'.initproc = t.initproc) (chan : t'.chan = t.chan)
    (state : t'.state = if t.state first = .zombie then t.wokenState (Chan.ofPointer t.initproc)
      else t.state) (child : t.parent first = some proc) :
    t'.abandonedState proc rest = t.abandonedState proc (first :: rest) := by
  have others : ∀ p ∈ rest, t'.parent p = t.parent p := by
    intro p member
    rw [passed, update_of_ne]
    rintro rfl
    exact fresh member
  have zombies : ∀ p, t'.state p = .zombie ↔ t.state p = .zombie := by
    intro p
    rw [state]
    split
    · unfold wokenState
      split <;> simp_all
    · rfl
  have same : (∃ p ∈ rest, t'.parent p = some proc ∧ t'.state p = .zombie) ↔
      ∃ p ∈ rest, t.parent p = some proc ∧ t.state p = .zombie := by
    refine exists_congr (fun p => and_congr_right (fun member => ?_))
    rw [others p member, zombies]
  by_cases dead : t.state first = .zombie
  · -- Init is awake already, and waking it again changes nothing.
    have again : t'.wokenState (Chan.ofPointer t'.initproc) =
        t.wokenState (Chan.ofPointer t.initproc) := by
      funext p
      simp only [dead, if_true] at state
      unfold wokenState
      rw [init, chan, state]
      unfold wokenState
      split <;> simp_all
    simp only [dead, if_true] at state
    simp [abandonedState, child, dead, again, state]
  · simp only [dead, if_false] at state
    simp only [abandonedState, same, List.mem_cons, exists_eq_or_imp, child, dead, and_false,
      false_or]
    split
    · funext p
      simp [wokenState, state, init, chan]
    · exact state

theorem Listed.abandonLoop (proc : Slot) (entries : List Slot) (distinct : entries.Nodup)
    (listed : Listed t ready free) :
    ∃ next readyList ready',
      entries.foldlM (abandonEntry proc) t =
        .ok { t with
          state := t.abandonedState proc entries
          parent := t.abandonedParent proc entries
          next := next
          readyList := readyList } ∧
      Listed { t with
          state := t.abandonedState proc entries
          parent := t.abandonedParent proc entries
          next := next
          readyList := readyList } ready' free ∧
      ∀ k, ready k <+: ready' k := by
  induction entries generalizing t ready with
  | nil =>
    refine ⟨t.next, t.readyList, ready, ?_, ?_, fun _ => List.prefix_rfl⟩
    · simp [abandonedState, abandonedParent_nil, pure, Except.pure]
    · exact listed.congr rfl rfl rfl rfl (by simp [abandonedState])
  | cons first rest ih =>
    obtain ⟨fresh, distinct⟩ := List.nodup_cons.mp distinct
    by_cases child : t.parent first = some proc
    · have passed : Listed { t with parent := update t.parent first t.initproc }
          ready free := listed.congr rfl rfl rfl rfl rfl
      -- The table after this entry: the parent is set, and init may have been woken.
      obtain ⟨t₁, ready₁, entry, next, readyList, fields, listed₁, grown₁⟩ :
          ∃ t₁ ready₁, abandonEntry proc t first = .ok t₁ ∧ ∃ next readyList,
            t₁ = { t with
              parent := update t.parent first t.initproc
              state := if t.state first = .zombie then t.wokenState (Chan.ofPointer t.initproc)
                else t.state
              next := next
              readyList := readyList } ∧
            Listed t₁ ready₁ free ∧ ∀ k, ready k <+: ready₁ k := by
        by_cases dead : t.state first = .zombie
        · obtain ⟨next, readyList, ready₁, woken, listed₁, grown₁⟩ :=
            passed.wakeup1 (Chan.ofPointer t.initproc)
          refine ⟨_, ready₁, ?_, next, readyList, rfl, ?_, grown₁⟩
          · simp only [abandonEntry, child, dead, if_true, woken]
            rfl
          · simp only [dead, if_true]
            exact listed₁
        · refine ⟨_, ready, ?_, t.next, t.readyList, rfl, ?_, fun _ => List.prefix_rfl⟩
          · simp only [abandonEntry, child, dead, if_true, if_false]
          · simp only [dead, if_false]
            exact passed
      obtain ⟨next', readyList', ready', looped, listed₂, grown₂⟩ := ih distinct listed₁
      have parents : t₁.abandonedParent proc rest = t.abandonedParent proc (first :: rest) :=
        abandonedParent_cons fresh child (by rw [fields]) (by rw [fields])
      have states : t₁.abandonedState proc rest = t.abandonedState proc (first :: rest) :=
        abandonedState_cons fresh (by rw [fields]) (by rw [fields]) (by rw [fields])
          (by rw [fields]) child
      rw [parents, states] at looped listed₂
      refine ⟨next', readyList', ready', ?_, ?_, fun k => (grown₁ k).trans (grown₂ k)⟩
      · simp only [List.foldlM_cons, entry, bind, Except.bind]
        rw [looped, fields]
      · rw [fields] at listed₂
        exact listed₂
    · obtain ⟨next', readyList', ready', looped, listed₁, grown⟩ := ih distinct listed
      have parents : t.abandonedParent proc rest = t.abandonedParent proc (first :: rest) := by
        funext p
        by_cases same : p = first
        · subst same
          simp [abandonedParent, child]
        · simp [abandonedParent, same]
      have states : t.abandonedState proc rest = t.abandonedState proc (first :: rest) := by
        simp [abandonedState, child]
      rw [parents, states] at looped listed₁
      refine ⟨next', readyList', ready', ?_, listed₁, grown⟩
      simp only [List.foldlM_cons, abandonEntry, child, if_false, bind, Except.bind]
      exact looped

/-- The states after `exit` woke the parent and, for a zombie child, init; the exiting process is
not yet a zombie. -/
@[grind]
def exitState (t : Ptable) (proc p : Slot) : Procstate :=
  if t.state p = .sleeping ∧ (t.chan p = Chan.ofPointer (t.parent proc) ∨
      t.chan p = Chan.ofPointer t.initproc ∧
        ∃ q, t.parent q = some proc ∧ t.state q = .zombie) then .runnable
  else t.state p

theorem abandonedState_woken (t : Ptable) (proc : Slot) (parent : t'.parent = t.parent)
    (init : t'.initproc = t.initproc) (chan : t'.chan = t.chan)
    (state : t'.state = t.wokenState (Chan.ofPointer (t.parent proc))) :
    t'.abandonedState proc slots = t.exitState proc := by
  have zombies : ∀ q, t.wokenState (Chan.ofPointer (t.parent proc)) q = .zombie ↔
      t.state q = .zombie := by
    intro q
    unfold wokenState
    split <;> simp_all
  have every : ∀ q, q ∈ slots := fun q => List.mem_finRange q
  funext p
  unfold abandonedState exitState
  simp only [every, true_and, parent, state, zombies]
  by_cases dead : ∃ q, t.parent q = some proc ∧ t.state q = .zombie
  · rw [if_pos dead]
    simp only [dead, and_true, wokenState, init, chan, state]
    by_cases sleeping : t.state p = .sleeping <;>
      by_cases first : t.chan p = Chan.ofPointer (t.parent proc) <;> simp [sleeping, first]
  · rw [if_neg dead]
    simp [dead, wokenState]

section

variable (listed : Listed t ready free)
include listed

theorem Listed.exit {proc : Slot} (running : t.state proc = .running) : ∃ next readyList ready',
      t.exit proc =
        .ok { t with
          state := update (t.exitState proc) proc .zombie
          parent := t.abandonedParent proc slots
          next := next
          readyList := readyList } ∧
      Listed { t with
          state := update (t.exitState proc) proc .zombie
          parent := t.abandonedParent proc slots
          next := next
          readyList := readyList } ready' free ∧
      ∀ k, ready k <+: ready' k := by
  obtain ⟨next₁, readyList₁, ready₁, woken, listed₁, grown₁⟩ :=
    listed.wakeup1 (Chan.ofPointer (t.parent proc))
  obtain ⟨t₁, fields⟩ : ∃ t₁ : Ptable, t₁ = { t with
      state := t.wokenState (Chan.ofPointer (t.parent proc))
      next := next₁
      readyList := readyList₁ } := ⟨_, rfl⟩
  rw [← fields] at woken listed₁
  obtain ⟨next₂, readyList₂, ready₂, passed, listed₂, grown₂⟩ :=
    listed₁.abandonLoop proc slots (List.nodup_finRange nproc)
  have states : t₁.abandonedState proc slots = t.exitState proc :=
    abandonedState_woken t proc (by rw [fields]) (by rw [fields]) (by rw [fields]) (by rw [fields])
  have parents : t₁.abandonedParent proc slots = t.abandonedParent proc slots := by
    funext p
    simp [abandonedParent, fields]
  rw [states, parents] at passed listed₂
  have alive : t.exitState proc proc ≠ .runnable := by simp [exitState, running]
  have used : proc ∉ free := listed.not_free (by simp [running])
  refine ⟨next₂, readyList₂, ready₂, ?_, ?_, fun k => (grown₁ k).trans (grown₂ k)⟩
  · simp only [Ptable.exit, woken, passed, bind, Except.bind]
    rw [fields]
  · have settled := listed₂.setState proc .zombie alive (by decide) used
    rw [fields] at settled
    exact settled

theorem Listed.allocproc : (free = [] ∧ t.allocproc = none) ∨
      ∃ p rest, free = p :: rest ∧
        t.allocproc = some ({ t with
          freeList := t.next p
          next := update t.next p none
          state := update t.state p .embryo
          pid := update t.pid p t.nextpid
          nextpid := t.nextpid + 1 }, p) ∧
        Listed { t with
          freeList := t.next p
          next := update t.next p none
          state := update t.state p .embryo
          pid := update t.pid p t.nextpid
          nextpid := t.nextpid + 1 } ready rest := by
  cases free with
  | nil =>
    have empty : t.freeList = none := listed.queues.freeLinked
    exact Or.inl ⟨rfl, by simp [Ptable.allocproc, empty]⟩
  | cons p rest =>
    obtain ⟨here, queues⟩ := listed.queues.takeFree
    have old : t.state p = .unused := listed.unused p List.mem_cons_self
    have shorter : Listed { t with freeList := t.next p, next := update t.next p none }
        ready rest :=
      ⟨queues, fun q member => listed.unused q (List.mem_cons_of_mem p member)⟩
    have absent : p ∉ rest := (List.nodup_cons.mp listed.queues.freeDistinct).1
    refine Or.inr ⟨p, rest, rfl, by simp [Ptable.allocproc, here], ?_⟩
    have marked := shorter.setState p .embryo (by simp [old]) (by decide) absent
    exact marked.congr rfl rfl rfl rfl rfl

theorem Listed.putOnFreeList (unused : t.state p = .unused) (notFree : p ∉ free) : ∃ next head,
      t.putOnFreeList p = .ok { t with next := next, freeList := head } ∧
      Listed { t with next := next, freeList := head } ready (free ++ [p]) := by
  obtain ⟨next, head, put, queues⟩ := listed.queues.putFree (by simp [unused]) notFree
  refine ⟨next, head, put, queues, fun q member => ?_⟩
  rcases List.mem_append.mp member with old | new
  · exact listed.unused q old
  · rw [List.mem_singleton.mp new]
    exact unused

theorem Listed.kill {pid : Word} (found : t.findPid pid = some p) : ∃ next readyList ready',
      t.kill pid =
        .ok ({ t with
          killed := update t.killed p true
          state := if t.state p = .sleeping then update t.state p .runnable else t.state
          next := next
          readyList := readyList }, 0) ∧
      Listed { t with
          killed := update t.killed p true
          state := if t.state p = .sleeping then update t.state p .runnable else t.state
          next := next
          readyList := readyList } ready' free ∧
      ∀ k, ready k <+: ready' k := by
  by_cases sleeping : t.state p = .sleeping
  · have marked : Listed { t with killed := update t.killed p true } ready free :=
      listed.congr rfl rfl rfl rfl rfl
    obtain ⟨next, readyList, ready', inserted, listed', appended⟩ := marked.makeRunnable p
      (by simp [sleeping]) (listed.not_free (by simp [sleeping]))
    refine ⟨next, readyList, ready', ?_, ?_, appended⟩
    · simp only [Ptable.kill, found, sleeping, if_true, inserted, bind, Except.bind]
    · simp only [sleeping, if_true]
      exact listed'
  · refine ⟨t.next, t.readyList, ready, ?_, ?_, fun _ => List.prefix_rfl⟩
    · simp only [Ptable.kill, found, sleeping, if_false]
    · simp only [sleeping, if_false]
      exact listed.congr rfl rfl rfl rfl rfl

theorem Listed.dispatch {k : Fin size} {back : List Slot} (position : ready k = p :: back) :
    ∃ next readyList priority time ready',
      t.dispatch p =
        .ok { t with
          state := update t.state p .running
          next := next
          readyList := readyList
          priority := priority
          timeToReset := time } ∧
      Listed { t with
          state := update t.state p .running
          next := next
          readyList := readyList
          priority := priority
          timeToReset := time } ready' free ∧
      priority p = t.priority p ∧
      ((t.timeToReset - 1 ≠ 0 ∧ time = t.timeToReset - 1 ∧ priority = t.priority ∧
          ready' = update ready k back) ∨
        (t.timeToReset - 1 = 0 ∧ time = count ∧
          ready' = resetSequences (update ready k back) ∧
          (∀ q, q ≠ p → t.state q = .running ∨ t.state q = .sleeping ∨ t.state q = .runnable →
            priority q = defaultPrio) ∧
          ∀ q, t.state q ≠ .running → t.state q ≠ .sleeping → t.state q ≠ .runnable →
            priority q = t.priority q)) := by
  have runnable : t.state p = .runnable := ((listed.mem_ready k).mp (by simp [position])).1
  have notFree : p ∉ free := listed.not_free (by simp [runnable])
  obtain ⟨here, level, removed⟩ := listed.queues.remove_head position
  -- Once the process is `RUNNING`, the lists are those of the processes that stay `RUNNABLE`.
  have settled : ∀ {t' : Ptable} {ready' : Fin size → List Slot},
      Queues t' (fun q => t.state q = .runnable ∧ q ≠ p) ready' free →
      t'.state = update t.state p .running → Listed t' ready' free := by
    intro t' ready' queues state
    refine ⟨queues.congr rfl rfl rfl rfl (fun q => ?_), fun q member => ?_⟩
    · rw [state]
      by_cases same : q = p
      · simp [same]
      · simp [same]
    · have different : q ≠ p := fun equal => notFree (equal ▸ member)
      rw [state, update_of_ne different]
      exact listed.unused q member
  have taken : t.removeFromReadyList p (t.priority p) = .ok { t with
      readyList := update t.readyList k (t.next p)
      next := update t.next p none } := by
    rw [level]
    exact removeFromReadyList_head here
  by_cases due : t.timeToReset - 1 = 0
  · have counted : Queues { t with
        readyList := update t.readyList k (t.next p)
        next := update t.next p none
        timeToReset := t.timeToReset - 1 } (fun q => t.state q = .runnable ∧ q ≠ p)
        (update ready k back) free :=
      removed.congr rfl rfl rfl rfl (fun _ => Iff.rfl)
    obtain ⟨next, readyList, priority, reset, lowered, kept, queues⟩ :=
      counted.resetReadyList (fun q isOn => isOn.1)
    refine ⟨next, readyList, priority, count, resetSequences (update ready k back),
      ?_, ?_, ?_, Or.inr ⟨due, rfl, rfl, ?_, ?_⟩⟩
    · simp only [Ptable.dispatch, taken, due, if_true, bind, Except.bind]
      simp only [due] at reset
      rw [reset]
    · exact settled (queues.congr rfl rfl rfl rfl (fun _ => Iff.rfl)) rfl
    · exact kept p (by simp [runnable]) (by simp [runnable]) (fun isOn => isOn.2 rfl)
    · rintro q different (running | sleeping | waiting)
      · exact lowered q (Or.inl running)
      · exact lowered q (Or.inr (Or.inl sleeping))
      · exact lowered q (Or.inr (Or.inr ⟨waiting, different⟩))
    · exact fun q notRunning notSleeping notRunnable =>
        kept q notRunning notSleeping (fun isOn => notRunnable isOn.1)
  · refine ⟨update t.next p none, update t.readyList k (t.next p), t.priority,
      t.timeToReset - 1, update ready k back, ?_, ?_, rfl, Or.inl ⟨due, rfl, rfl, rfl⟩⟩
    · simp only [Ptable.dispatch, taken, due, if_false, bind, Except.bind]
    · exact settled (removed.congr rfl rfl rfl rfl (fun _ => Iff.rfl)) rfl

theorem Listed.removeFromReadyList (t' : Ptable) {k : Fin size} (member : p ∈ ready k)
    (next : t'.next = t.next) (readyList : t'.readyList = t.readyList) :
    (∃ front previous, ready k = front ++ [previous, p] ∧
        t'.removeFromReadyList p k.val = .error .nullDeref) ∨
      ∃ front back next' readyList', ready k = front ++ p :: back ∧
        t'.removeFromReadyList p k.val =
          .ok { t' with next := next', readyList := readyList' } ∧
        Queues { t with next := next', readyList := readyList' }
          (fun q => t.state q = .runnable ∧ q ≠ p)
          (update ready k (front ++ back)) free := by
  have linked : Chain.Linked t'.next (t'.readyList k) (ready k) := by
    rw [next, readyList]
    exact listed.queues.linked k
  have distinct := listed.queues.distinct k
  have short := listed.queues.length_le k
  obtain ⟨front, back, position⟩ := List.append_of_mem member
  rcases List.eq_nil_or_concat front with rfl | ⟨front, previous, rfl⟩
  · obtain ⟨here, -, queues⟩ := listed.queues.remove_head position
    have taken : t'.removeFromReadyList p k.val = .ok { t' with
        readyList := update t'.readyList k (t'.next p)
        next := update t'.next p none } :=
      removeFromReadyList_head (by rw [readyList, here])
    rw [next, readyList] at taken
    exact Or.inr ⟨[], back, _, _, position, taken, queues⟩
  · cases back with
    | nil =>
      have shape : ready k = front ++ [previous, p] := by simp [position]
      exact Or.inl ⟨front, previous, shape, removeFromReadyList_last linked distinct short shape⟩
    | cons after back =>
      have shape : ready k = front ++ previous :: p :: after :: back := by simp [position]
      have taken := removeFromReadyList_middle linked distinct short shape
      rw [next] at taken
      have queues := listed.queues.remove_middle shape
      refine Or.inr ⟨front ++ [previous], after :: back, _, t'.readyList, ?_, taken, ?_⟩
      · simp [position]
      · rw [readyList]
        simpa using queues

end

/-- `removeFromReadyList` can take the process off its list: it is the first, or another follows. -/
def Movable (t : Ptable) (p : Slot) : Prop := t.next p ≠ none ∨ ∃ k, t.readyList k = some p

instance (t : Ptable) (p : Slot) : Decidable (t.Movable p) := inferInstanceAs (Decidable (_ ∨ _))

theorem Listed.movable_iff (listed : Listed t ready free) {k : Fin size} (member : p ∈ ready k) :
    t.Movable p ↔ ∀ front previous, ready k ≠ front ++ [previous, p] := by
  have linked := listed.queues.linked k
  have distinct := listed.queues.distinct k
  constructor
  · rintro movable front previous shape
    rw [shape] at linked distinct
    have last : t.next p = none := (Chain.segment_append.mp linked).choose_spec.2.2.2
    rcases movable with follows | ⟨j, head⟩
    · exact follows last
    · have other := listed.queues.linked j
      rw [head] at other
      obtain ⟨rest, first, -⟩ := other.head_some
      have same : j = k := by
        by_contra apart
        refine listed.queues.ready_disjoint apart (p := p) ?_ member
        rw [first]
        exact List.mem_cons_self
      rw [same, shape] at first
      cases front with
      | nil =>
        obtain ⟨rfl, -⟩ := List.cons.inj first
        simp at distinct
      | cons before front =>
        obtain ⟨rfl, -⟩ := List.cons.inj first
        simp at distinct
  · intro shorter
    obtain ⟨front, back, position⟩ := List.append_of_mem member
    rw [position] at linked
    cases back with
    | nil =>
      rcases List.eq_nil_or_concat front with rfl | ⟨front, previous, rfl⟩
      · exact .inr ⟨k, linked.1⟩
      · exact absurd (by simp [position]) (shorter front previous)
    | cons after back =>
      have follows : t.next p = some after := (Chain.segment_append.mp linked).choose_spec.2.2.1
      exact .inl (by rw [follows]; simp)

def movedSequences (ready : Fin size → List Slot) (k j : Fin size) (p : Slot) :
    Fin size → List Slot :=
  Function.update (Function.update ready k ((ready k).erase p)) j (ready j ++ [p])

theorem Listed.setPriority_moves {k j : Fin size} (listed : Listed t ready free)
    (found : t.findPid pid = some p) (runnable : t.state p = .runnable) (old : t.priority p = k.val)
    (changes : k ≠ j) (movable : t.Movable p) :
    ∃ next readyList, t.setPriority pid j.val =
        .ok ({ t with
          priority := update t.priority p j.val
          next := next
          readyList := readyList }, 0) ∧
      Listed { t with
          priority := update t.priority p j.val
          next := next
          readyList := readyList } (movedSequences ready k j p) free := by
  have member : p ∈ ready k := (listed.mem_ready k).mpr ⟨runnable, old⟩
  have notFree : p ∉ free := listed.not_free (by simp [runnable])
  have different : (k.val : Int) ≠ j.val := fun same => changes (level_injective same)
  have bounded : (0 : Int) ≤ j.val ∧ (j.val : Int) < size :=
    ⟨Int.natCast_nonneg _, Int.ofNat_lt.mpr j.isLt⟩
  rcases listed.removeFromReadyList
      { t with priority := update t.priority p j.val } member rfl rfl with
    ⟨front, previous, shape, -⟩ | ⟨front, back, next₁, readyList₁, position, taken, queues⟩
  · exact absurd shape ((listed.movable_iff member).mp movable front previous)
  · have erased : (ready k).erase p = front ++ back := by
      have distinct := listed.queues.distinct k
      have absent : p ∉ front := by
        rw [position] at distinct
        exact fun inside => (List.disjoint_of_nodup_append distinct) inside List.mem_cons_self
      rw [position, List.erase_append_right _ absent, List.erase_cons_head]
    have lowered := queues.setOff (fun stays => stays.2 rfl) (j.val : Int) bounded
    have level : update t.priority p (j.val : Int) p = j.val := update_self ..
    obtain ⟨next₂, head, inserted, queued⟩ :=
      lowered.put (fun stays => stays.2 rfl) notFree level
    simp only [level] at inserted
    have sequences : update (update ready k (front ++ back)) j
        (update ready k (front ++ back) j ++ [p]) = movedSequences ready k j p := by
      rw [movedSequences, erased, update_of_ne (Ne.symm changes)]
    refine ⟨next₂, update readyList₁ j head, ?_, ?_, listed.unused⟩
    · simp only [Ptable.setPriority, found, old, different, if_false, runnable, if_true, taken,
        bind, Except.bind, inserted]
    · rw [sequences] at queued
      refine queued.congr rfl rfl rfl rfl (fun q => ?_)
      by_cases same : q = p
      · simp [same, runnable]
      · simp [same]

theorem Listed.setPriority_faults {k j : Fin size} (listed : Listed t ready free)
    (found : t.findPid pid = some p) (runnable : t.state p = .runnable) (old : t.priority p = k.val)
    (changes : k ≠ j) (stuck : ¬ t.Movable p) : t.setPriority pid j.val = .error .nullDeref := by
  have member : p ∈ ready k := (listed.mem_ready k).mpr ⟨runnable, old⟩
  have different : (k.val : Int) ≠ j.val := fun same => changes (level_injective same)
  have last : ∃ front previous, ready k = front ++ [previous, p] := by
    by_contra shorter
    exact stuck ((listed.movable_iff member).mpr fun front previous shape =>
      shorter ⟨front, previous, shape⟩)
  obtain ⟨front, previous, shape⟩ := last
  have faulted := removeFromReadyList_last
    (t := { t with priority := update t.priority p (j.val : Int) })
    (listed.queues.linked k) (listed.queues.distinct k) (listed.queues.length_le k) shape
  simp only [Ptable.setPriority, found, old, different, if_false, runnable, if_true, faulted,
    bind, Except.bind]

theorem Listed.setPriority_stays (listed : Listed t ready free) (found : t.findPid pid = some p)
    (bounded : 0 ≤ priority ∧ priority < size)
    (stays : t.priority p = priority ∨ t.state p ≠ .runnable) :
    t.setPriority pid priority =
        .ok ({ t with priority := update t.priority p priority }, 0) ∧
      Listed { t with priority := update t.priority p priority } ready free := by
  by_cases same : t.priority p = priority
  · rw [← same, update_eq_self]
    refine ⟨?_, listed⟩
    simp only [Ptable.setPriority, found, if_true]
  · have waiting := stays.resolve_left same
    refine ⟨?_, ⟨listed.queues.setOff waiting priority bounded, listed.unused⟩⟩
    simp only [Ptable.setPriority, found, same, if_false, waiting]

theorem exists_level_of_bounded (bounded : 0 ≤ priority ∧ priority < size) :
    ∃ j : Fin size, priority = j.val :=
  ⟨⟨priority.toNat, (Int.toNat_lt bounded.1).mpr bounded.2⟩, (Int.toNat_of_nonneg bounded.1).symm⟩

theorem sublist_movedSequences (ready : Fin size → List Slot) (k j i : Fin size) (p : Slot)
    (distinct : (ready k).Nodup) :
    ((ready i).filter (· ≠ p)).Sublist (movedSequences ready k j p i) := by
  unfold movedSequences
  by_cases new : i = j
  · rw [new, update_self]
    exact List.filter_sublist.trans (List.sublist_append_left _ _)
  · rw [update_of_ne new]
    by_cases left : i = k
    · have filters : (ready k).filter (fun q => decide (q ≠ p)) = (ready k).filter (· != p) :=
        List.filter_congr fun q _ => by rw [bne, beq_eq_decide, decide_not]
      rw [left, update_self, distinct.erase_eq_filter, filters]
    · rw [update_of_ne left]
      exact List.filter_sublist

theorem Listed.setPriority {result : Word} (listed : Listed t ready free)
    (found : t.findPid pid = some p) (bounded : 0 ≤ priority ∧ priority < size)
    (returned : t.setPriority pid priority = .ok (t', result)) :
    ∃ next readyList ready',
      t' = { t with
        priority := update t.priority p priority
        next := next
        readyList := readyList } ∧ result = 0 ∧
      Listed t' ready' free ∧ ∀ k, ((ready k).filter (· ≠ p)).Sublist (ready' k) := by
  by_cases stays : t.priority p = priority ∨ t.state p ≠ .runnable
  · obtain ⟨done, kept⟩ := listed.setPriority_stays found bounded stays
    rw [done] at returned
    cases returned
    exact ⟨t.next, t.readyList, ready, rfl, rfl, kept, fun k => List.filter_sublist⟩
  · obtain ⟨changed, runnable⟩ := not_or.mp stays
    have runnable := not_not.mp runnable
    obtain ⟨k, old⟩ := listed.queues.exists_level p
    obtain ⟨j, rfl⟩ := exists_level_of_bounded bounded
    have changes : k ≠ j := by
      rintro rfl
      exact changed old
    by_cases movable : t.Movable p
    · obtain ⟨next, readyList, done, moved⟩ :=
        listed.setPriority_moves found runnable old changes movable
      rw [done] at returned
      cases returned
      exact ⟨next, readyList, movedSequences ready k j p, rfl, rfl, moved,
        fun i => sublist_movedSequences ready k j i p (listed.queues.distinct k)⟩
    · rw [listed.setPriority_faults found runnable old changes movable] at returned
      cases returned

@[grind →]
theorem waitScan_found {proc q : Slot}
    (scanned : t.waitScan proc entries seen = (some q, havekids)) :
    t.parent q = some proc ∧ t.state q = .zombie := by
  induction entries generalizing seen with
  | nil => cases scanned
  | cons first rest ih =>
    unfold waitScan at scanned
    split at scanned
    · exact ih scanned
    · rename_i child
      split at scanned
      · rename_i zombie
        cases scanned
        exact ⟨not_not.mp child, zombie⟩
      · exact ih scanned

theorem waitScan_none {proc : Slot} (scanned : t.waitScan proc entries seen = (none, havekids)) :
    (∀ q ∈ entries, t.parent q = some proc → t.state q ≠ .zombie) ∧
      (havekids = true ↔ seen = true ∨ ∃ q ∈ entries, t.parent q = some proc) := by
  induction entries generalizing seen with
  | nil =>
    cases scanned
    simp
  | cons first rest ih =>
    unfold waitScan at scanned
    split at scanned
    · rename_i stranger
      obtain ⟨alive, kids⟩ := ih scanned
      simpa [stranger, kids] using alive
    · rename_i child
      split at scanned
      · cases scanned
      · rename_i notZombie
        obtain ⟨alive, kids⟩ := ih scanned
        simp only [ne_eq, not_not] at child
        simpa [child, kids, notZombie] using alive

end Xv6.Ptable
