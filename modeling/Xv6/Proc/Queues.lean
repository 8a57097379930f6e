import Xv6.Proc.Calls

/-!
# The lists as sequences

`Queues` relates a table to the sequences its lists stand for: one sequence for each ready list
and one for the free list, each a null-terminated chain without repetition. Which slots belong
on a ready list is a parameter, because `scheduler` and `setPriority` run with one process off
the lists whose state or priority says otherwise. The functions of the source are then
operations on sequences: insertion appends, removal erases, the reset concatenates.
-/

namespace Xv6.Ptable

open Function (update update_eq_self update_of_ne update_self)
open Chain

/-- The table's lists are chains that stand for these sequences: the ready sequence of a level
holds exactly the slots that are `on` with that priority, and no free slot is `on`. -/
structure Queues (t : Ptable) (on : Slot → Prop) (ready : Fin size → List Slot)
    (free : List Slot) : Prop where
  linked : ∀ k, Linked t.next (t.readyList k) (ready k)
  distinct : ∀ k, (ready k).Nodup
  mem : ∀ k p, p ∈ ready k ↔ on p ∧ t.priority p = k.val
  freeLinked : Linked t.next t.freeList free
  freeDistinct : free.Nodup
  freeOff : ∀ p ∈ free, ¬ on p
  bounded : ∀ p, 0 ≤ t.priority p ∧ t.priority p < size

variable {t : Ptable} {on : Slot → Prop} {ready : Fin size → List Slot} {free : List Slot}
  {p : Slot}

theorem defaultPrio_val : defaultPrio = ((1 : Fin size).val : Int) := rfl

theorem level_val (k : Fin size) : level (k.val : Int) = .ok k := by
  have inside : 0 ≤ (k.val : Int) ∧ (k.val : Int) < size := ⟨by omega, by omega⟩
  simp [level, inside]

theorem level_injective {j k : Fin size} (same : (j.val : Int) = k.val) : j = k :=
  Fin.ext (by omega)

theorem level_cases : ∀ k : Fin size, k = 0 ∨ k = 1 ∨ k = 2 := by decide

namespace Queues

section

variable (queues : Queues t on ready free)
include queues

theorem exists_level (p : Slot) : ∃ k : Fin size, t.priority p = k.val := by
  obtain ⟨nonnegative, below⟩ := queues.bounded p
  exact ⟨⟨(t.priority p).toNat, by omega⟩, by simp; omega⟩

theorem congr {t' : Ptable} {on' : Slot → Prop} (next : t'.next = t.next)
    (readyList : t'.readyList = t.readyList) (freeList : t'.freeList = t.freeList)
    (priority : t'.priority = t.priority) (same : ∀ p, on' p ↔ on p) :
    Queues t' on' ready free where
  linked k := by rw [next, readyList]; exact queues.linked k
  distinct := queues.distinct
  mem k p := by rw [same, priority]; exact queues.mem k p
  freeLinked := by rw [next, freeList]; exact queues.freeLinked
  freeDistinct := queues.freeDistinct
  freeOff p member := by rw [same]; exact queues.freeOff p member
  bounded p := by rw [priority]; exact queues.bounded p

theorem setOff (off : ¬ on p) (priority : Int) (bounded : 0 ≤ priority ∧ priority < size) :
    Queues { t with priority := update t.priority p priority } on ready free where
  linked := queues.linked
  distinct := queues.distinct
  mem k q := by
    by_cases same : q = p
    · subst same
      have absent : q ∉ ready k := fun member => off ((queues.mem k q).mp member).1
      simp [absent, off]
    · simpa [update_of_ne same] using queues.mem k q
  freeLinked := queues.freeLinked
  freeDistinct := queues.freeDistinct
  freeOff := queues.freeOff
  bounded q := by
    by_cases same : q = p
    · subst same
      simpa using bounded
    · simpa [update_of_ne same] using queues.bounded q

theorem ready_disjoint {j k : Fin size} (apart : j ≠ k) (member : p ∈ ready j) : p ∉ ready k := by
  intro other
  have first := ((queues.mem j p).mp member).2
  have second := ((queues.mem k p).mp other).2
  exact apart (level_injective (first.symm.trans second))

variable {k : Fin size}

theorem free_disjoint (member : p ∈ ready k) :
    p ∉ free := fun isFree => queues.freeOff p isFree ((queues.mem k p).mp member).1

theorem put (off : ¬ on p) (notFree : p ∉ free) (priority : t.priority p = k.val) :
    ∃ next head,
      t.putOnReadyList p (t.priority p) =
        .ok { t with next := next, readyList := update t.readyList k head } ∧
      Queues { t with next := next, readyList := update t.readyList k head }
        (fun q => on q ∨ q = p) (update ready k (ready k ++ [p])) free := by
  have absent : ∀ j, p ∉ ready j := fun j member => off ((queues.mem j p).mp member).1
  have room : (ready k).length ≤ nproc := by
    simpa using (queues.distinct k).length_le_card
  obtain ⟨next, head, pushed, chain, frame⟩ :=
    pushBack_linked (queues.linked k) (queues.distinct k) (absent k) room
  refine ⟨next, head, ?_, ?_⟩
  · simp [putOnReadyList, priority, level_val, pushed, bind, Except.bind]
  · refine ⟨fun j => ?_, fun j => ?_, fun j q => ?_, ?_, queues.freeDistinct, ?_, queues.bounded⟩
    · by_cases same : j = k
      · subst same
        simpa using chain
      · simp only [update_of_ne same]
        refine (queues.linked j).congr (fun q member => frame q ?_ ?_)
        · exact fun equal => absent j (equal ▸ member)
        · exact queues.ready_disjoint same member
    · by_cases same : j = k
      · subst same
        rw [update_self]
        exact List.nodup_append.mpr ⟨queues.distinct j, List.nodup_singleton p,
          fun q member r isP =>
          fun equal => absent j (List.mem_singleton.mp isP ▸ equal ▸ member)⟩
      · simpa [update_of_ne same] using queues.distinct j
    · by_cases same : j = k
      · subst same
        simp only [update_self, List.mem_append, List.mem_singleton, queues.mem j q]
        constructor
        · rintro (⟨isOn, level⟩ | rfl)
          · exact ⟨Or.inl isOn, level⟩
          · exact ⟨Or.inr rfl, priority⟩
        · rintro ⟨isOn | rfl, level⟩
          · exact Or.inl ⟨isOn, level⟩
          · exact Or.inr rfl
      · simp only [update_of_ne same, queues.mem j q]
        constructor
        · exact fun member => ⟨Or.inl member.1, member.2⟩
        · rintro ⟨isOn | rfl, level⟩
          · exact ⟨isOn, level⟩
          · exact absurd (level_injective (level.symm.trans priority)) same
    · refine queues.freeLinked.congr (fun q member => frame q ?_ ?_)
      · exact fun equal => notFree (equal ▸ member)
      · exact fun inReady => queues.free_disjoint inReady member
    · rintro q member (isOn | rfl)
      · exact queues.freeOff q member isOn
      · exact notFree member

theorem erase {front back : List Slot} (position : ready k = front ++ p :: back)
    {next : Slot → Option Slot} {head : Option Slot} (chain : Linked next head (front ++ back))
    (frame : ∀ q, q ∉ ready k → next q = t.next q) :
    Queues { t with next := next, readyList := update t.readyList k head }
      (fun q => on q ∧ q ≠ p) (update ready k (front ++ back)) free := by
  have sub : List.Sublist (front ++ back) (ready k) := by
    rw [position]
    exact List.Sublist.append_left (List.sublist_cons_self p back) front
  have gone : p ∉ front ++ back := by
    have split := queues.distinct k
    rw [position, List.nodup_middle] at split
    exact (List.nodup_cons.mp split).1
  refine ⟨fun j => ?_, fun j => ?_, fun j q => ?_, ?_, queues.freeDistinct, ?_, queues.bounded⟩
  · by_cases same : j = k
    · subst same
      simpa using chain
    · simp only [update_of_ne same]
      exact (queues.linked j).congr
        (fun q member => frame q (queues.ready_disjoint same member))
  · by_cases same : j = k
    · subst same
      simpa using (queues.distinct j).sublist sub
    · simpa [update_of_ne same] using queues.distinct j
  · by_cases same : j = k
    · subst same
      have whole : q ∈ ready j ↔ q = p ∨ q ∈ front ++ back := by
        rw [position]
        simp only [List.mem_append, List.mem_cons]
        tauto
      rw [update_self, and_right_comm, ← queues.mem j q, whole]
      constructor
      · exact fun member => ⟨Or.inr member, fun equal => gone (equal ▸ member)⟩
      · rintro ⟨equal | member, different⟩
        · exact absurd equal different
        · exact member
    · rw [update_of_ne same, queues.mem j q]
      constructor
      · intro member
        refine ⟨⟨member.1, ?_⟩, member.2⟩
        rintro rfl
        have inFirst : q ∈ ready k := by simp [position]
        exact queues.ready_disjoint same ((queues.mem j q).mpr member) inFirst
      · exact fun member => ⟨member.1.1, member.2⟩
  · exact queues.freeLinked.congr
      (fun q member => frame q (fun inReady => queues.free_disjoint inReady member))
  · exact fun q member isOn => queues.freeOff q member isOn.1

end

end Queues

theorem removeFromReadyList_head {k : Fin size} (here : t.readyList k = some p) :
    t.removeFromReadyList p k.val =
      .ok { t with
        readyList := update t.readyList k (t.next p)
        next := update t.next p none } := by
  simp [removeFromReadyList, level_val, here, bind, Except.bind]

theorem Queues.remove_head (queues : Queues t on ready free) {k : Fin size} {back : List Slot}
    (position : ready k = p :: back) :
    t.readyList k = some p ∧ t.priority p = k.val ∧
      Queues { t with
          readyList := update t.readyList k (t.next p)
          next := update t.next p none }
        (fun q => on q ∧ q ≠ p) (update ready k back) free := by
  have linked := queues.linked k
  have distinct := queues.distinct k
  rw [position] at linked distinct
  have here : t.readyList k = some p := linked.1
  refine ⟨here, ((queues.mem k p).mp (by simp [position])).2, ?_⟩
  have chain : Linked (update t.next p none) (t.next p) ([] ++ back) :=
    Linked.drop_head (here ▸ linked) distinct
  refine queues.erase position chain (fun q absent => ?_)
  exact update_of_ne (fun equal => absent (by simp [position, equal])) _ _

variable {next : Slot → Option Slot} {fuel : Nat}

theorem unlinkLoop_absent {current : Slot} {nodes : List Slot}
    (linked : Linked next (some current) nodes) (absent : p ∉ nodes)
    (enough : nodes.length ≤ fuel) :
    unlinkLoop p fuel next (some current) = .ok next := by
  induction nodes generalizing current fuel with
  | nil => cases linked
  | cons first nodes ih =>
    obtain ⟨here, rest⟩ := linked
    cases here
    obtain ⟨fuel, rfl⟩ : ∃ less, fuel = less + 1 := ⟨fuel - 1, by simp at enough; omega⟩
    have others : p ∉ nodes := fun member => absent (List.mem_cons_of_mem first member)
    have more : nodes.length ≤ fuel := by simpa using enough
    cases following : next first with
    | none => simp [unlinkLoop, following]
    | some other =>
      have different : other ≠ p := by
        obtain ⟨_, same, _⟩ := Linked.head_some (following ▸ rest)
        rintro rfl
        exact others (by simp [same])
      simp only [unlinkLoop, following, different, if_false]
      exact ih (following ▸ rest) others more

theorem unlinkLoop_reach {current previous : Slot} {front back : List Slot} (fuel : Nat)
    (linked : Linked next (some current) (front ++ previous :: p :: back))
    (distinct : (front ++ previous :: p :: back).Nodup) :
    unlinkLoop p (fuel + front.length) next (some current) =
      unlinkLoop p fuel next (some previous) := by
  induction front generalizing current with
  | nil =>
    obtain ⟨here, -⟩ := linked
    cases here
    rfl
  | cons first front ih =>
    obtain ⟨here, rest⟩ := linked
    cases here
    cases following : next first with
    | none =>
      have empty := (Linked.head_none rest).mp following
      simp at empty
    | some other =>
      have different : other ≠ p := by
        obtain ⟨tail, same, _⟩ := Linked.head_some (following ▸ rest)
        have before : other ∈ front ++ [previous] := by
          cases front <;> injection same with first <;> simp [← first]
        have split : (front ++ [previous] ++ p :: back).Nodup := by
          simpa using (List.nodup_cons.mp distinct).2
        exact (List.nodup_append.mp split).2.2 other before p (by simp)
      simp only [List.length_cons, ← Nat.add_assoc, unlinkLoop, following, different, if_false]
      exact ih (following ▸ rest) (List.nodup_cons.mp distinct).2

theorem unlinkLoop_middle {current previous after : Slot} {front back : List Slot}
    (linked : Linked next (some current) (front ++ previous :: p :: after :: back))
    (distinct : (front ++ previous :: p :: after :: back).Nodup)
    (enough : (front ++ previous :: p :: after :: back).length ≤ fuel) :
    unlinkLoop p fuel next (some current) =
      .ok (update (update next previous (next p)) p none) := by
  obtain ⟨less, rfl⟩ : ∃ less, fuel = less + 1 + front.length :=
    ⟨fuel - 1 - front.length, by simp at enough; omega⟩
  rw [unlinkLoop_reach _ linked distinct]
  obtain ⟨middle, -, rfl, following, target, afterwards⟩ := segment_append.mp linked
  obtain ⟨-, -, rfl, rest⟩ := segment_append.mp (Linked.unlink linked distinct)
  have inner := (List.nodup_append.mp distinct).2.1
  simp only [List.nodup_cons, List.mem_cons, not_or] at inner
  have apart : previous ≠ p := inner.1.1
  have absent : p ∉ after :: back := by simp [inner.2.1.1, inner.2.1.2]
  -- The loop goes on from the slot after the unlinked one and meets nothing more.
  rw [update_of_ne apart, update_self, target] at rest
  simp only [unlinkLoop, following, ↓reduceIte, update_of_ne apart,
    update_self, target]
  exact unlinkLoop_absent rest absent (by simp at enough ⊢; omega)

theorem unlinkLoop_last {current previous : Slot} {front : List Slot}
    (linked : Linked next (some current) (front ++ [previous, p]))
    (distinct : (front ++ [previous, p]).Nodup) (enough : (front ++ [previous, p]).length ≤ fuel) :
    unlinkLoop p fuel next (some current) = .error .nullDeref := by
  obtain ⟨less, rfl⟩ : ∃ less, fuel = less + 2 + front.length :=
    ⟨fuel - 2 - front.length, by simp at enough; omega⟩
  rw [unlinkLoop_reach _ linked distinct]
  obtain ⟨middle, -, rfl, following, ended⟩ := segment_append.mp linked
  have apart : previous ≠ p := by
    have inner := (List.nodup_append.mp distinct).2.1
    simpa using inner
  have target : next p = none := ended
  simp [unlinkLoop, following, update_of_ne apart, target]

section Remove

variable {k : Fin size} {previous after : Slot} {front back : List Slot}

theorem Queues.length_le (queues : Queues t on ready free) (k : Fin size) :
    (ready k).length ≤ nproc := by
  simpa using (queues.distinct k).length_le_card

variable {nodes : List Slot}

theorem removeFromReadyList_search (linked : Linked t.next (t.readyList k) nodes)
    (distinct : nodes.Nodup) (position : nodes = front ++ previous :: p :: back) :
    ∃ current, Linked t.next (some current) nodes ∧
      t.removeFromReadyList p k.val =
        (unlinkLoop p nproc t.next (some current)).map fun next => { t with next := next } := by
  cases here : t.readyList k with
  | none =>
    have empty := linked.head_none.mp here
    simp [position] at empty
  | some current =>
    have different : current ≠ p := by
      obtain ⟨rest, same, _⟩ := Linked.head_some (here ▸ linked)
      rw [position] at same distinct
      have split : (front ++ [previous] ++ p :: back).Nodup := by simpa using distinct
      have before : current ∈ front ++ [previous] := by
        cases front <;> injection same with first <;> simp [← first]
      exact (List.nodup_append.mp split).2.2 current before p (by simp)
    refine ⟨current, here ▸ linked, ?_⟩
    simp only [removeFromReadyList, level_val, here, different, bind, Except.bind, if_false]
    cases unlinkLoop p nproc t.next (some current) <;> rfl

theorem removeFromReadyList_middle (linked : Linked t.next (t.readyList k) nodes)
    (distinct : nodes.Nodup) (short : nodes.length ≤ nproc)
    (position : nodes = front ++ previous :: p :: after :: back) :
    t.removeFromReadyList p k.val =
      .ok { t with
        next := update (update t.next previous (t.next p)) p none } := by
  obtain ⟨current, whole, search⟩ := removeFromReadyList_search linked distinct position
  subst position
  rw [search, unlinkLoop_middle whole distinct short]
  rfl

theorem removeFromReadyList_last (linked : Linked t.next (t.readyList k) nodes)
    (distinct : nodes.Nodup) (short : nodes.length ≤ nproc)
    (position : nodes = front ++ [previous, p]) :
    t.removeFromReadyList p k.val = .error .nullDeref := by
  obtain ⟨current, whole, search⟩ := removeFromReadyList_search linked distinct position
  subst position
  rw [search, unlinkLoop_last whole distinct short]
  rfl

theorem Queues.remove_middle (queues : Queues t on ready free)
    (position : ready k = front ++ previous :: p :: after :: back) :
    Queues { t with
        next := update (update t.next previous (t.next p)) p none }
      (fun q => on q ∧ q ≠ p)
      (update ready k (front ++ previous :: after :: back)) free := by
  have linked := queues.linked k
  have distinct := queues.distinct k
  rw [position] at linked distinct
  have chain := Linked.unlink linked distinct
  have shape : ready k = (front ++ [previous]) ++ p :: after :: back := by simp [position]
  have split : front ++ previous :: after :: back = (front ++ [previous]) ++ after :: back := by
    simp
  rw [split] at chain ⊢
  have erased := queues.erase shape chain (fun q absent => by
    rw [update_of_ne (fun equal => absent (by simp [position, equal])),
      update_of_ne (fun equal => absent (by simp [position, equal]))])
  simpa using erased

end Remove

theorem Queues.putFree (queues : Queues t on ready free) (off : ¬ on p) (notFree : p ∉ free) :
    ∃ next head,
      t.putOnFreeList p = .ok { t with next := next, freeList := head } ∧
      Queues { t with next := next, freeList := head } on ready (free ++ [p]) := by
  have room : free.length ≤ nproc := by simpa using queues.freeDistinct.length_le_card
  obtain ⟨next, head, pushed, chain, frame⟩ :=
    pushBack_linked queues.freeLinked queues.freeDistinct notFree room
  refine ⟨next, head, by simp [putOnFreeList, pushed], ?_, queues.distinct, queues.mem, chain, ?_,
    ?_, queues.bounded⟩
  · refine fun k => (queues.linked k).congr (fun q member => frame q ?_ ?_)
    · exact fun equal => off (equal ▸ ((queues.mem k q).mp member).1)
    · exact queues.free_disjoint member
  · exact List.nodup_append.mpr ⟨queues.freeDistinct, List.nodup_singleton p,
      fun q member r isP equal => notFree (List.mem_singleton.mp isP ▸ equal ▸ member)⟩
  · intro q member
    rcases List.mem_append.mp member with old | new
    · exact queues.freeOff q old
    · exact List.mem_singleton.mp new ▸ off

theorem Queues.takeFree {rest : List Slot} (queues : Queues t on ready (p :: rest)) :
    t.freeList = some p ∧
      Queues { t with freeList := t.next p, next := update t.next p none }
        on ready rest := by
  have here : t.freeList = some p := queues.freeLinked.1
  refine ⟨here, fun k => ?_, queues.distinct, queues.mem, ?_, ?_, ?_, queues.bounded⟩
  · refine (queues.linked k).congr (fun q member => update_of_ne ?_ _ _)
    rintro rfl
    exact queues.free_disjoint member List.mem_cons_self
  · exact Linked.drop_head (here ▸ queues.freeLinked) queues.freeDistinct
  · exact (List.nodup_cons.mp queues.freeDistinct).2
  · exact fun q member => queues.freeOff q (List.mem_cons_of_mem p member)

theorem Queues.resetLoop {j : Fin size} (other : j ≠ 1) {nodes : List Slot}
    (queues : Queues t on ready free) (position : ready j = nodes) (enough : nodes.length ≤ fuel) :
    ∃ next readyList,
      Ptable.resetLoop fuel t (t.readyList j) =
        .ok { t with
          next := next
          readyList := readyList
          priority := fun p => if p ∈ nodes then defaultPrio else t.priority p } ∧
      Queues { t with
          next := next
          readyList := readyList
          priority := fun p => if p ∈ nodes then defaultPrio else t.priority p }
        on (update (update ready j []) 1 (ready 1 ++ nodes)) free := by
  induction nodes generalizing t ready fuel with
  | nil =>
    have empty : t.readyList j = none := (queues.linked j).head_none.mpr position
    refine ⟨t.next, t.readyList, ?_, ?_⟩
    · rw [empty]
      cases fuel <;> simp [Ptable.resetLoop]
    · have same : update (update ready j []) 1 (ready 1 ++ []) = ready := by
        rw [List.append_nil, ← position, update_eq_self, update_eq_self]
      rw [same]
      exact queues.congr rfl rfl rfl (by simp) (fun _ => Iff.rfl)
  | cons x rest ih =>
    obtain ⟨fuel, rfl⟩ : ∃ less, fuel = less + 1 := ⟨fuel - 1, by simp at enough; omega⟩
    have isOn : on x := ((queues.mem j x).mp (by simp [position])).1
    have notFree : x ∉ free := fun member => queues.freeOff x member isOn
    obtain ⟨here, priority, removed⟩ := queues.remove_head position
    -- While it is off the lists, the process gets the default priority.
    have lowered := removed.setOff (fun stays => stays.2 rfl) defaultPrio (by decide)
    obtain ⟨next, head, inserted, queued⟩ := lowered.put (fun stays => stays.2 rfl) notFree
      (show _ = ((1 : Fin size).val : Int) from update_self x defaultPrio t.priority)
    have apart : (1 : Fin size) ≠ j := other.symm
    have queued := queued.congr rfl rfl rfl rfl (fun q => (by
      by_cases same : q = x
      · simp [same, isOn]
      · simp [same] : on q ↔ (on q ∧ q ≠ x) ∨ q = x))
    obtain ⟨next', readyList', looped, result⟩ := ih queued
      (by simp [update_of_ne other]) (by simpa using enough)
    refine ⟨next', readyList', ?_, ?_⟩
    · simp only [here, Ptable.resetLoop, priority, removeFromReadyList_head here, bind, Except.bind,
        inserted]
      simp only [update_of_ne other, update_self] at looped
      rw [looped]
      congr 2
      funext q
      by_cases same : q = x <;> simp [same]
    · have sequences : update (update
            (update (update ready j rest) 1
              (update ready j rest 1 ++ [x])) j []) 1
            (update (update ready j rest) 1
              (update ready j rest 1 ++ [x]) 1 ++ rest) =
          update (update ready j []) 1 (ready 1 ++ x :: rest) := by
        funext k
        by_cases middle : k = 1
        · subst middle
          simp [update_of_ne apart]
        · by_cases same : k = j
          · subst same
            simp [update_of_ne middle]
          · simp [update_of_ne middle, update_of_ne same]
      rw [sequences] at result
      refine result.congr rfl rfl rfl ?_ (fun _ => Iff.rfl)
      funext q
      by_cases same : q = x <;> simp [same]

/-- The sequences after a reset: the default list, then the high one, then the low one. -/
def resetSequences (ready : Fin size → List Slot) : Fin size → List Slot :=
  fun k => if k = 1 then ready 1 ++ ready 0 ++ ready 2 else []

theorem Queues.resetReadyList (queues : Queues t on ready free)
    (waiting : ∀ p, on p → t.state p = .runnable) :
    ∃ next readyList priority,
      t.resetReadyList =
        .ok { t with next := next, readyList := readyList, priority := priority } ∧
      (∀ p, t.state p = .running ∨ t.state p = .sleeping ∨ on p → priority p = defaultPrio) ∧
      (∀ p, t.state p ≠ .running → t.state p ≠ .sleeping → ¬ on p →
        priority p = t.priority p) ∧
      Queues { t with next := next, readyList := readyList, priority := priority }
        on (resetSequences ready) free := by
  obtain ⟨next₁, ready₁, moved₁, queues₁⟩ :=
    queues.resetLoop (show (0 : Fin size) ≠ 1 by decide) rfl (queues.length_le 0)
  obtain ⟨next₂, ready₂, moved₂, queues₂⟩ :=
    queues₁.resetLoop (show (2 : Fin size) ≠ 1 by decide) rfl (queues₁.length_le 2)
  have lowest : update (update ready 0 []) 1 (ready 1 ++ ready 0) 2 =
      ready 2 := rfl
  rw [lowest] at moved₂ queues₂
  have sequences : update (update (update (update ready 0 [])
        1 (ready 1 ++ ready 0)) 2 []) 1 (update (update ready 0 [])
        1 (ready 1 ++ ready 0) 1 ++ ready 2) = resetSequences ready := by
    funext k
    rcases level_cases k with rfl | rfl | rfl <;> rfl
  rw [sequences] at queues₂
  have highLevel : level high = .ok 0 := rfl
  have lowLevel : level low = .ok 2 := rfl
  refine ⟨next₂, ready₂, fun p =>
    if t.state p = .running ∨ t.state p = .sleeping then defaultPrio
    else if p ∈ ready 2 then defaultPrio
    else if p ∈ ready 0 then defaultPrio
    else t.priority p, ?_, ?_, ?_, ?_⟩
  · simp only [Ptable.resetReadyList, highLevel, lowLevel, bind, Except.bind, moved₁, moved₂]
  · rintro p (running | sleeping | isOn)
    · simp [running]
    · simp [sleeping]
    · -- A listed process was on one of the three lists; the middle one has the default priority.
      obtain ⟨k, priority⟩ := queues.exists_level p
      have member := (queues.mem k p).mpr ⟨isOn, priority⟩
      rcases level_cases k with rfl | rfl | rfl
      · simp [member]
      · simp [priority, defaultPrio_val]
      · simp [member]
  · intro p notRunning notSleeping off
    have notHigh : p ∉ ready 0 := fun member => off ((queues.mem 0 p).mp member).1
    have notLow : p ∉ ready 2 := fun member => off ((queues.mem 2 p).mp member).1
    simp [notRunning, notSleeping, notHigh, notLow]
  · -- The last loop touches running and sleeping processes only, and none of them is listed.
    refine ⟨queues₂.linked, queues₂.distinct, fun k p => ?_, queues₂.freeLinked,
      queues₂.freeDistinct, queues₂.freeOff, fun p => ?_⟩
    · rw [queues₂.mem k p]
      refine and_congr_right (fun isOn => ?_)
      simp [waiting p isOn]
    · by_cases busy : t.state p = .running ∨ t.state p = .sleeping
      · simp only [busy, if_true]
        decide
      · simp only [busy, if_false]
        exact queues₂.bounded p

end Xv6.Ptable
