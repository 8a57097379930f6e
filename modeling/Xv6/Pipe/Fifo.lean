import Xv6.Library.Run
import Xv6.Pipe.Machine

/-!
# A pipe is a queue

Every step of the processes on a pipe is one of a few kinds, listed in `Moves`. The lock is held
by exactly the process that is in a loop of its call. The ring of the pipe then holds what was
stored and not yet copied out, and the bytes that the holder of the lock has copied so far stand
between the bytes returned and the bytes in the ring.
-/

namespace Xv6

namespace PipePc

def locked : PipePc → Bool
  | .writeLoop _ | .readWait _ | .readCopy _ _ => true
  | _ => false

def copied : PipePc → List UInt8
  | .readCopy _ got => got
  | _ => []

@[simp]
theorem locked_wakeReader (pc : PipePc) : pc.wakeReader.locked = pc.locked := by
  cases pc <;> rfl

@[simp]
theorem locked_wakeWriter (pc : PipePc) : pc.wakeWriter.locked = pc.locked := by
  cases pc <;> rfl

@[simp]
theorem copied_wakeReader (pc : PipePc) : pc.wakeReader.copied = pc.copied := by
  cases pc <;> rfl

@[simp]
theorem copied_wakeWriter (pc : PipePc) : pc.wakeWriter.copied = pc.copied := by
  cases pc <;> rfl

end PipePc

namespace Pipe

def ring (p : Pipe) : RingBuffer.Ring UInt8 32 pipeSize where
  cells := p.data
  taken := p.nread
  put := p.nwrite

theorem empty_iff (p : Pipe) : p.empty ↔ p.ring.count = 0 := by
  rw [RingBuffer.count_eq_zero_iff, empty, beq_iff_eq]
  rfl

theorem full_iff (p : Pipe) : p.full ↔ p.ring.count = pipeSize := by
  rw [RingBuffer.count_eq_capacity_iff p.ring (by decide), full, beq_iff_eq]
  rfl

theorem not_empty_of_full {p : Pipe} (full : p.full) : p.empty = false := by
  rw [Bool.eq_false_iff]
  intro empty
  have all := p.full_iff.mp full
  rw [p.empty_iff.mp empty] at all
  cases all

end Pipe

namespace PipeSystem

variable {P : Type} [DecidableEq P] {m m' : PipeSystem P} {a : PipeAction P}

/-- What a step does: one constructor for each way through the calls. -/
inductive Moves (m : PipeSystem P) : PipeAction P → PipeSystem P → Prop where
  | kill (p : P) : Moves m (.kill p) (m.kill p)
  | callWrite (p : P) (bytes : List UInt8) (outside : m.pc p = .outside) :
    Moves m (.write p bytes) (m.setPc p (.writeEnter bytes))
  | callRead (p : P) (n : Int) (outside : m.pc p = .outside) :
    Moves m (.read p n) (m.setPc p (.readEnter n))
  | close (p : P) (writable : Bool) (free : m.lock = none) :
    Moves m (.close p writable) (m.close writable)
  | lockWrite (p : P) (rest : List UInt8) (free : m.lock = none) :
    Moves m (.advance p) ({ m with lock := some p }.setPc p (.writeLoop rest))
  | lockRead (p : P) (n : Int) (free : m.lock = none) :
    Moves m (.advance p) ({ m with lock := some p }.setPc p (.readWait n))
  | writeDone (p : P) (now : m.pc p = .writeLoop []) :
    Moves m (.advance p) (m.wakeReaders.release.setPc p .outside)
  | writeQuit (p : P) (b : UInt8) (rest : List UInt8) (now : m.pc p = .writeLoop (b :: rest))
    (full : m.pipe.full) (quits : m.pipe.readopen = false ∨ m.killed p) :
    Moves m (.advance p) (m.release.setPc p .outside)
  | writeSleep (p : P) (b : UInt8) (rest : List UInt8) (now : m.pc p = .writeLoop (b :: rest))
    (full : m.pipe.full) (opened : m.pipe.readopen) :
    Moves m (.advance p) (m.wakeReaders.release.setPc p (.writeAsleep (b :: rest)))
  | writeStore (p : P) (b : UInt8) (rest : List UInt8) (now : m.pc p = .writeLoop (b :: rest))
    (space : m.pipe.full = false) :
    Moves m (.advance p)
      ({ m with pipe := m.pipe.store b, stored := m.stored ++ [b] }.setPc p (.writeLoop rest))
  | waitQuit (p : P) (n : Int) (now : m.pc p = .readWait n) :
    Moves m (.advance p) (m.release.setPc p .outside)
  | waitSleep (p : P) (n : Int) (now : m.pc p = .readWait n) (empty : m.pipe.empty)
    (opened : m.pipe.writeopen) : Moves m (.advance p) (m.release.setPc p (.readAsleep n))
  | waitDone (p : P) (n : Int) (now : m.pc p = .readWait n) :
    Moves m (.advance p) (m.setPc p (.readCopy n []))
  | copyTake (p : P) (n : Int) (got : List UInt8) (now : m.pc p = .readCopy n got)
    (filled : m.pipe.empty = false) :
    Moves m (.advance p)
      ({ m with pipe := m.pipe.drop }.setPc p (.readCopy n (got ++ [m.pipe.next])))
  | copyDone (p : P) (n : Int) (got : List UInt8) (now : m.pc p = .readCopy n got) :
    Moves m (.advance p)
      ({ m with returned := m.returned ++ got }.wakeWriters.release.setPc p .outside)

variable {p : P} {pc : PipePc}

theorem writeTurn_moves {rest : List UInt8} (now : m.pc p = .writeLoop rest) :
    Moves m (.advance p) (m.writeTurn p rest) := by
  cases rest with
  | nil => exact .writeDone p now
  | cons b rest =>
    rw [writeTurn]
    split
    · rename_i full
      split
      · rename_i quits
        exact .writeQuit p b rest now full quits
      · rename_i stays
        rw [not_or, Bool.not_eq_false] at stays
        exact .writeSleep p b rest now full stays.1
    · rename_i space
      exact .writeStore p b rest now (Bool.not_eq_true _ ▸ space)

variable {n : Int} {got : List UInt8}

theorem waitTurn_moves (now : m.pc p = .readWait n) : Moves m (.advance p) (m.waitTurn p n) := by
  rw [waitTurn]
  split
  · rename_i waits
    split
    · exact .waitQuit p n now
    · exact .waitSleep p n now waits.1 waits.2
  · exact .waitDone p n now

theorem copyTurn_moves (now : m.pc p = .readCopy n got) :
    Moves m (.advance p) (m.copyTurn p n got) := by
  rw [copyTurn]
  split
  · rename_i more
    exact .copyTake p n got now more.2
  · exact .copyDone p n got now

theorem moves_of_step (taken : m.step a = .ok m') : Moves m a m' := by
  have locking : ∀ (p : P) (pc : PipePc), m.acquire p pc = .ok m' →
      m.lock = none ∧ m' = { m with lock := some p }.setPc p pc := by
    intro p pc taken
    rw [acquire] at taken
    split at taken
    · rename_i free
      exact ⟨free, (Except.ok.inj taken).symm⟩
    · cases taken
  cases a with
  | kill p =>
    cases taken
    exact .kill p
  | write p bytes =>
    rw [step] at taken
    split at taken
    · rename_i guard
      cases taken
      exact .callWrite p bytes guard.2
    · cases taken
  | read p n =>
    rw [step] at taken
    split at taken
    · rename_i guard
      cases taken
      exact .callRead p n guard.2
    · cases taken
  | close p writable =>
    rw [step] at taken
    split at taken
    · rename_i guard
      cases taken
      exact .close p writable guard.2.2
    · cases taken
  | advance p =>
    rw [step] at taken
    split at taken
    · cases taken
    · split at taken
      · obtain ⟨free, rfl⟩ := locking p _ taken
        exact .lockWrite p _ free
      · obtain ⟨free, rfl⟩ := locking p _ taken
        exact .lockWrite p _ free
      · obtain ⟨free, rfl⟩ := locking p _ taken
        exact .lockRead p _ free
      · obtain ⟨free, rfl⟩ := locking p _ taken
        exact .lockRead p _ free
      · rename_i now
        cases taken
        exact writeTurn_moves now
      · rename_i now
        cases taken
        exact waitTurn_moves now
      · rename_i now
        cases taken
        exact copyTurn_moves now
      all_goals cases taken

def Guarded (m : PipeSystem P) : Prop := ∀ p, (m.pc p).locked ↔ m.lock = some p

def inFlight (m : PipeSystem P) : List UInt8 :=
  match m.lock with
  | some p => (m.pc p).copied
  | none => []

omit [DecidableEq P] in
theorem Guarded.lock_eq (guarded : m.Guarded) (now : m.pc p = pc) (locked : pc.locked) :
    m.lock = some p := by
  rw [← guarded p, now]
  exact locked

section

variable (guarded : m.Guarded)
include guarded

theorem Guarded.leave (holds : m.lock = some p) (unlocked : pc.locked = false) {pcs : P → PipePc}
    (same : ∀ q, (pcs q).locked = (m.pc q).locked) :
    ({ m with lock := none, pc := pcs }.setPc p pc).Guarded := by
  intro q
  by_cases self : q = p
  · subst self
    simp [setPc, unlocked]
  · simp only [setPc, Function.update_of_ne self, same, guarded q, holds]
    simpa using fun h => self h.symm

theorem Guarded.stay (same : pc.locked = (m.pc p).locked) : (m.setPc p pc).Guarded := by
  intro q
  by_cases self : q = p
  · subst self
    simpa [setPc, same] using guarded q
  · simpa [setPc, Function.update_of_ne self] using guarded q

theorem Guarded.enter (free : m.lock = none) (locked : pc.locked) :
    ({ m with lock := some p }.setPc p pc).Guarded := by
  intro q
  by_cases self : q = p
  · subst self
    simp [setPc, locked]
  · have out := guarded q
    rw [free] at out
    simpa [setPc, Function.update_of_ne self, Ne.symm self] using out

theorem Guarded.step (moves : Moves m a m') : m'.Guarded := by
  cases moves with
  | kill p =>
    have same : (m.pc p).wakeReader.wakeWriter.locked = (m.pc p).locked := by simp
    exact guarded.stay same
  | callWrite p bytes outside => exact guarded.stay (by rw [outside]; rfl)
  | callRead p n outside => exact guarded.stay (by rw [outside]; rfl)
  | close p writable free =>
    intro q
    cases writable <;> simpa [PipeSystem.close, wakeReaders, wakeWriters] using guarded q
  | lockWrite p rest free => exact guarded.enter free rfl
  | lockRead p n free => exact guarded.enter free rfl
  | writeDone p now =>
    exact guarded.leave (guarded.lock_eq now rfl) rfl fun q => (m.pc q).locked_wakeReader
  | writeQuit p b rest now => exact guarded.leave (guarded.lock_eq now rfl) rfl (fun _ => rfl)
  | writeSleep p b rest now =>
    exact guarded.leave (guarded.lock_eq now rfl) rfl fun q => (m.pc q).locked_wakeReader
  | writeStore p b rest now => exact guarded.stay (by rw [now]; rfl)
  | waitQuit p n now => exact guarded.leave (guarded.lock_eq now rfl) rfl (fun _ => rfl)
  | waitSleep p n now => exact guarded.leave (guarded.lock_eq now rfl) rfl (fun _ => rfl)
  | waitDone p n now => exact guarded.stay (by rw [now]; rfl)
  | copyTake p n got now => exact guarded.stay (by rw [now]; rfl)
  | copyDone p n got now =>
    exact guarded.leave (guarded.lock_eq now rfl) rfl fun q => (m.pc q).locked_wakeWriter

end

omit [DecidableEq P] in
theorem inFlight_eq (holds : m.lock = some p) : m.inFlight = (m.pc p).copied := by
  rw [inFlight, holds]

omit [DecidableEq P] in
theorem inFlight_of_free (free : m.lock = none) : m.inFlight = [] := by
  rw [inFlight, free]

omit [DecidableEq P] in
theorem inFlight_congr (lock : m'.lock = m.lock)
    (same : ∀ q, (m'.pc q).copied = (m.pc q).copied) : m'.inFlight = m.inFlight := by
  rw [inFlight, inFlight, lock]
  cases m.lock with
  | none => rfl
  | some q => exact same q

theorem inFlight_setPc (same : pc.copied = (m.pc p).copied) :
    (m.setPc p pc).inFlight = m.inFlight := by
  refine inFlight_congr rfl fun q => ?_
  by_cases self : q = p
  · subst self
    simp [setPc, same]
  · simp [setPc, Function.update_of_ne self]

/-- The ring, the bytes in flight and the bytes returned make up the bytes stored. -/
structure Fifo (m : PipeSystem P) : Prop where
  guarded : m.Guarded
  bounded : m.pipe.ring.count ≤ pipeSize
  accounted : m.stored = m.returned ++ m.inFlight ++ m.pipe.ring.contents

omit [DecidableEq P] in
theorem Fifo.idle (fifo : m.Fifo) (guarded : m'.Guarded) (ring : m'.pipe.ring = m.pipe.ring)
    (stored : m'.stored = m.stored) (returned : m'.returned = m.returned)
    (inFlight : m'.inFlight = m.inFlight) : m'.Fifo where
  guarded := guarded
  bounded := ring ▸ fifo.bounded
  accounted := by rw [stored, returned, inFlight, ring, fifo.accounted]

theorem Fifo.store (fifo : m.Fifo) {b : UInt8} {rest : List UInt8}
    (now : m.pc p = .writeLoop (b :: rest)) (space : m.pipe.full = false) :
    ({ m with pipe := m.pipe.store b, stored := m.stored ++ [b] }.setPc p
      (.writeLoop rest)).Fifo := by
  have room : m.pipe.ring.count < pipeSize := by
    have notFull : m.pipe.ring.count ≠ pipeSize := by
      intro all
      rw [m.pipe.full_iff.mpr all] at space
      cases space
    have bounded := fifo.bounded
    omega
  refine ⟨fifo.guarded.stay (by rw [now]; rfl), ?_, ?_⟩
  · change (m.pipe.ring.push b).count ≤ pipeSize
    rw [RingBuffer.count_push _ (by decide) room]
    exact room
  · have flight : ({ m with pipe := m.pipe.store b, stored := m.stored ++ [b] }.setPc p
        (.writeLoop rest)).inFlight = m.inFlight := inFlight_setPc (by rw [now]; rfl)
    rw [flight]
    change m.stored ++ [b] = m.returned ++ m.inFlight ++ (m.pipe.ring.push b).contents
    rw [RingBuffer.contents_push (by decide) _ (by decide) room, fifo.accounted,
      List.append_assoc _ _ [b]]

theorem Fifo.take (fifo : m.Fifo) (now : m.pc p = .readCopy n got) (filled : m.pipe.empty = false) :
    ({ m with pipe := m.pipe.drop }.setPc p (.readCopy n (got ++ [m.pipe.next]))).Fifo := by
  have holds := fifo.guarded.lock_eq now rfl
  have some : 0 < m.pipe.ring.count := by
    rw [Nat.pos_iff_ne_zero]
    intro none
    rw [m.pipe.empty_iff.mpr none] at filled
    cases filled
  have fewer := RingBuffer.count_pop m.pipe.ring some
  refine ⟨fifo.guarded.stay (by rw [now]; rfl), ?_, ?_⟩
  · change m.pipe.ring.pop.count ≤ pipeSize
    have bounded := fifo.bounded
    omega
  · have before : m.inFlight = got := by rw [inFlight_eq holds, now]; rfl
    have after : ({ m with pipe := m.pipe.drop }.setPc p
        (.readCopy n (got ++ [m.pipe.next]))).inFlight = got ++ [m.pipe.next] := by
      simp [inFlight, setPc, holds, PipePc.copied]
    rw [after]
    change m.stored = m.returned ++ (got ++ [m.pipe.ring.front]) ++ m.pipe.ring.pop.contents
    rw [fifo.accounted, before, RingBuffer.contents_pop (by decide) _ some]
    simp

theorem Fifo.finish (fifo : m.Fifo) (now : m.pc p = .readCopy n got) :
    ({ m with returned := m.returned ++ got }.wakeWriters.release.setPc p .outside).Fifo := by
  have holds := fifo.guarded.lock_eq now rfl
  refine ⟨fifo.guarded.leave holds rfl fun q => (m.pc q).locked_wakeWriter, fifo.bounded, ?_⟩
  have before : m.inFlight = got := by rw [inFlight_eq holds, now]; rfl
  rw [inFlight_of_free rfl, List.append_nil]
  change m.stored = m.returned ++ got ++ m.pipe.ring.contents
  rw [fifo.accounted, before]

theorem Fifo.step (fifo : m.Fifo) (moves : Moves m a m') : m'.Fifo := by
  have guarded := fifo.guarded.step moves
  -- a holder that has copied nothing has nothing in flight, before and after it leaves
  have leaves : ∀ {p : P} {pc : PipePc}, m.pc p = pc → pc.locked → pc.copied = [] →
      m'.lock = none → m'.inFlight = m.inFlight := by
    intro p pc now locked nothing free
    rw [inFlight_of_free free, inFlight_eq (fifo.guarded.lock_eq now locked), now, nothing]
  cases moves with
  | kill p =>
    have same : (m.pc p).wakeReader.wakeWriter.copied = (m.pc p).copied := by simp
    exact fifo.idle guarded rfl rfl rfl (inFlight_setPc same)
  | callWrite p bytes outside =>
    exact fifo.idle guarded rfl rfl rfl (inFlight_setPc (by rw [outside]; rfl))
  | callRead p n outside =>
    exact fifo.idle guarded rfl rfl rfl (inFlight_setPc (by rw [outside]; rfl))
  | close p writable free =>
    have freed : (m.close writable).lock = none := by cases writable <;> exact free
    refine fifo.idle guarded ?_ ?_ ?_ ?_
    · cases writable <;> rfl
    · cases writable <;> rfl
    · cases writable <;> rfl
    · rw [inFlight_of_free freed, inFlight_of_free free]
  | lockWrite p rest free =>
    refine fifo.idle guarded rfl rfl rfl ?_
    rw [inFlight_of_free free, inFlight_eq rfl]
    simp [setPc, PipePc.copied]
  | lockRead p n free =>
    refine fifo.idle guarded rfl rfl rfl ?_
    rw [inFlight_of_free free, inFlight_eq rfl]
    simp [setPc, PipePc.copied]
  | writeDone p now => exact fifo.idle guarded rfl rfl rfl (leaves now rfl rfl rfl)
  | writeQuit p b rest now => exact fifo.idle guarded rfl rfl rfl (leaves now rfl rfl rfl)
  | writeSleep p b rest now => exact fifo.idle guarded rfl rfl rfl (leaves now rfl rfl rfl)
  | writeStore p b rest now space => exact fifo.store now space
  | waitQuit p n now => exact fifo.idle guarded rfl rfl rfl (leaves now rfl rfl rfl)
  | waitSleep p n now => exact fifo.idle guarded rfl rfl rfl (leaves now rfl rfl rfl)
  | waitDone p n now =>
    exact fifo.idle guarded rfl rfl rfl (inFlight_setPc (by rw [now]; rfl))
  | copyTake p n got now filled => exact fifo.take now filled
  | copyDone p n got now => exact fifo.finish now

omit [DecidableEq P] in
theorem opened_fifo (data : Fin pipeSize → UInt8) (killed : P → Bool) :
    (opened data killed).Fifo := by
  have none : (opened data killed).pipe.ring.count = 0 :=
    (RingBuffer.count_eq_zero_iff _).mpr rfl
  refine ⟨fun _ => by simp [opened, PipePc.locked], ?_, ?_⟩
  · rw [none]
    exact Nat.zero_le pipeSize
  · rw [inFlight_of_free rfl, RingBuffer.Ring.contents, none]
    rfl

theorem reached_fifo {data : Fin pipeSize → UInt8} {killed : P → Bool}
    {actions : List (PipeAction P)}
    (reached : Transition.run step (opened data killed) actions = .ok m) : m.Fifo :=
  Transition.run_invariant Fifo (fun _ _ _ fifo taken => fifo.step (moves_of_step taken))
    (opened_fifo data killed) reached

/-- However the calls on a pipe interleave, at most `PIPESIZE` bytes are between the counters, and
the bytes returned, then the bytes a read is copying, then the bytes in the pipe, are the bytes
stored. So the bytes returned are a prefix of the bytes stored. -/
theorem pipe_loss_free {data : Fin pipeSize → UInt8} {killed : P → Bool}
    {actions : List (PipeAction P)}
    (reached : Transition.run step (opened data killed) actions = .ok m) :
    (m.pipe.nwrite - m.pipe.nread).toNat ≤ pipeSize ∧ m.returned <+: m.stored ∧
      m.stored = m.returned ++ m.inFlight ++ m.pipe.ring.contents := by
  have fifo := reached_fifo reached
  refine ⟨fifo.bounded, ⟨m.inFlight ++ m.pipe.ring.contents, ?_⟩, fifo.accounted⟩
  rw [fifo.accounted, List.append_assoc]

def readsTwo : List (PipeAction Bool) :=
  [.write true [7, 8, 9], .advance true, .advance true, .advance true, .advance true,
    .advance true, .read false 2, .advance false, .advance false, .advance false, .advance false,
    .advance false]

/-- Two of three bytes written are returned and the third stays in the pipe. -/
theorem pipe_loss_free_two : ∃ m : PipeSystem Bool,
    Transition.run step (opened (fun _ => 0) (fun _ => false)) readsTwo = .ok m ∧
      m.stored = [7, 8, 9] ∧ m.returned = [7, 8] ∧ m.pipe.ring.contents = [9] ∧
        m.returned <+: m.stored := by
  have checked : Transition.ends (fun m : PipeSystem Bool => decide (m.stored = [7, 8, 9] ∧
      m.returned = [7, 8] ∧ m.pipe.ring.contents = [9]))
      (Transition.run step (opened (fun _ => 0) (fun _ => false)) readsTwo) = true := by
    decide +kernel
  obtain ⟨m, ran, results⟩ := Transition.exists_of_ends checked
  obtain ⟨stored, returned, left⟩ := of_decide_eq_true results
  exact ⟨m, ran, stored, returned, left, (pipe_loss_free ran).2.1⟩

end PipeSystem

end Xv6
