import Xv6.Pipe.Fifo

/-!
# Wakeups of a pipe

A process that sleeps on `&p->nread` waits for a byte or for the last writer to close, one that
sleeps on `&p->nwrite` waits for space or for the last reader to close. While the lock is free
there is nothing a sleeper waits for, with one exception: a `pipewrite` that has filled the pipe and
then finds the read end closed or itself killed returns without the wakeup that all its other
exits make. A reader that was asleep when the pipe was empty then sleeps on beside a full pipe.
-/

namespace Xv6

namespace PipePc

def readerAsleep : PipePc → Bool
  | .readAsleep _ => true
  | _ => false

def writerAsleep : PipePc → Bool
  | .writeAsleep _ => true
  | _ => false

def writing : PipePc → Bool
  | .writeLoop _ => true
  | _ => false

def copying : PipePc → Bool
  | .readCopy _ _ => true
  | _ => false

section

variable (pc : PipePc)
include pc

@[simp]
theorem readerAsleep_wakeReader : pc.wakeReader.readerAsleep = false := by
  cases pc <;> rfl

@[simp]
theorem writerAsleep_wakeWriter : pc.wakeWriter.writerAsleep = false := by
  cases pc <;> rfl

@[simp]
theorem readerAsleep_wakeWriter : pc.wakeWriter.readerAsleep = pc.readerAsleep := by
  cases pc <;> rfl

@[simp]
theorem writerAsleep_wakeReader : pc.wakeReader.writerAsleep = pc.writerAsleep := by
  cases pc <;> rfl

@[simp]
theorem writing_wake : pc.wakeReader.wakeWriter.writing = pc.writing := by
  cases pc <;> rfl

@[simp]
theorem copying_wake : pc.wakeReader.wakeWriter.copying = pc.copying := by
  cases pc <;> rfl

end

theorem locked_of_writing {pc : PipePc} (writing : pc.writing) : pc.locked := by
  cases pc <;> first | rfl | cases writing

theorem locked_of_copying {pc : PipePc} (copying : pc.copying) : pc.locked := by
  cases pc <;> first | rfl | cases copying

end PipePc

open PipePc (readerAsleep writerAsleep locked_of_writing locked_of_copying)

namespace PipeSystem

variable {P : Type} [DecidableEq P] {m m' : PipeSystem P} {a : PipeAction P}

def Somewhere (m : PipeSystem P) (test : PipePc → Bool) : Prop := ∃ p, test (m.pc p)

/-- The property at issue: while the lock is free, a sleeping reader waits on an empty pipe with an
open write end, and a sleeping writer on a full pipe with an open read end. -/
def NoWorkForSleepers (m : PipeSystem P) : Prop :=
  m.lock = none →
    (m.Somewhere PipePc.readerAsleep → m.pipe.nread = m.pipe.nwrite ∧ m.pipe.writeopen) ∧
    (m.Somewhere PipePc.writerAsleep →
      m.pipe.nwrite = m.pipe.nread + BitVec.ofNat 32 pipeSize ∧ m.pipe.readopen)

/-- The step is a `pipewrite` that gives up on a full pipe, killed or with the read end closed,
while a reader is asleep. -/
def strands (m : PipeSystem P) : PipeAction P → Prop
  | .advance p => (∃ b rest, m.pc p = .writeLoop (b :: rest)) ∧ m.pipe.full ∧
      (m.pipe.readopen = false ∨ m.killed p) ∧ m.Somewhere PipePc.readerAsleep
  | _ => False

variable {test : PipePc → Bool} {pc : PipePc}

theorem Somewhere.of_setPc {p : P} (fails : test pc = false)
    (found : (m.setPc p pc).Somewhere test) :
    m.Somewhere test := by
  obtain ⟨q, holds⟩ := found
  refine ⟨q, ?_⟩
  by_cases self : q = p
  · subst self
    simp [setPc, fails] at holds
  · simpa [setPc, Function.update_of_ne self] using holds

theorem Somewhere.setPc {p : P} (same : test pc = test (m.pc p)) (found : m.Somewhere test) :
    (m.setPc p pc).Somewhere test := by
  obtain ⟨q, holds⟩ := found
  refine ⟨q, ?_⟩
  by_cases self : q = p
  · subst self
    simpa [PipeSystem.setPc, same] using holds
  · simpa [PipeSystem.setPc, Function.update_of_ne self] using holds

theorem somewhere_setPc (m : PipeSystem P) (p : P) (holds : test pc) :
    (m.setPc p pc).Somewhere test :=
  ⟨p, by simpa [setPc] using holds⟩

omit [DecidableEq P] in
theorem not_readerAsleep_wakeReaders (m : PipeSystem P) :
    ¬ m.wakeReaders.Somewhere readerAsleep := by
  rintro ⟨p, asleep⟩
  simp [wakeReaders] at asleep

omit [DecidableEq P] in
theorem not_writerAsleep_wakeWriters (m : PipeSystem P) :
    ¬ m.wakeWriters.Somewhere writerAsleep := by
  rintro ⟨p, asleep⟩
  simp [wakeWriters] at asleep

omit [DecidableEq P] in
theorem readerAsleep_of_wakeWriters (asleep : m.wakeWriters.Somewhere readerAsleep) :
    m.Somewhere readerAsleep := by
  obtain ⟨p, asleep⟩ := asleep
  exact ⟨p, by simpa [wakeWriters] using asleep⟩

omit [DecidableEq P] in
theorem writerAsleep_of_wakeReaders (asleep : m.wakeReaders.Somewhere writerAsleep) :
    m.Somewhere writerAsleep := by
  obtain ⟨p, asleep⟩ := asleep
  exact ⟨p, by simpa [wakeReaders] using asleep⟩

omit [DecidableEq P] in
theorem Guarded.nowhere_of_free (guarded : m.Guarded) (locks : ∀ {pc : PipePc}, test pc → pc.locked)
    (free : m.lock = none) : ¬ m.Somewhere test := by
  rintro ⟨q, holds⟩
  have held := (guarded q).mp (locks holds)
  rw [free] at held
  cases held

omit [DecidableEq P] in
theorem Guarded.nowhere_of_held (guarded : m.Guarded) (locks : ∀ {pc : PipePc}, test pc → pc.locked)
    {p : P} (now : m.pc p = pc) (locked : pc.locked) (fails : test pc = false) :
    ¬ m.Somewhere test := by
  rintro ⟨q, holds⟩
  have held := (guarded q).mp (locks holds)
  rw [guarded.lock_eq now locked] at held
  cases held
  rw [now, fails] at holds
  cases holds

/-- A sleeping reader waits on an empty pipe with an open write end, or a writer is in its loop
and will wake it. -/
def ReadersWait (m : PipeSystem P) : Prop :=
  m.Somewhere PipePc.readerAsleep →
    (m.pipe.empty ∧ m.pipe.writeopen) ∨ m.Somewhere PipePc.writing

/-- A sleeping writer waits on a full pipe with an open read end, or a reader is copying and will
wake it. -/
def WritersWait (m : PipeSystem P) : Prop :=
  m.Somewhere PipePc.writerAsleep → (m.pipe.full ∧ m.pipe.readopen) ∨ m.Somewhere PipePc.copying

theorem ReadersWait.step (waits : m.ReadersWait) (guarded : m.Guarded) (keeps : ¬ m.strands a)
    (moves : Moves m a m') : m'.ReadersWait := by
  intro asleep
  have lockedElsewhere : ∀ {p : P} {pc : PipePc}, m.pc p = pc → pc.locked → pc.writing = false →
      m.Somewhere readerAsleep → m.pipe.empty ∧ m.pipe.writeopen :=
    fun now locked elsewhere asleep => (waits asleep).resolve_right
      (guarded.nowhere_of_held locked_of_writing now locked elsewhere)
  have unlocked : m.lock = none → m.Somewhere readerAsleep →
      m.pipe.empty ∧ m.pipe.writeopen :=
    fun free asleep => (waits asleep).resolve_right
      (guarded.nowhere_of_free locked_of_writing free)
  cases moves with
  | kill p =>
    have before : m.Somewhere readerAsleep := asleep.of_setPc (by simp)
    exact (waits before).imp_right fun writing => writing.setPc (by simp)
  | callWrite p bytes outside =>
    exact (waits (asleep.of_setPc rfl)).imp_right fun writing =>
      writing.setPc (by rw [outside]; rfl)
  | callRead p n outside =>
    exact (waits (asleep.of_setPc rfl)).imp_right fun writing =>
      writing.setPc (by rw [outside]; rfl)
  | close p writable free =>
    cases writable with
    | true => exact absurd asleep (not_readerAsleep_wakeReaders _)
    | false => exact .inl (unlocked free (readerAsleep_of_wakeWriters asleep))
  | lockWrite p rest free => exact .inr (somewhere_setPc _ p rfl)
  | lockRead p n free => exact .inl (unlocked free (asleep.of_setPc rfl))
  | writeDone p now =>
    exact absurd (asleep.of_setPc rfl) (not_readerAsleep_wakeReaders m)
  | writeQuit p b rest now full quits =>
    have stranded : m.Somewhere readerAsleep := asleep.of_setPc rfl
    exact absurd ⟨⟨b, rest, now⟩, full, quits, stranded⟩ keeps
  | writeSleep p b rest now full opened =>
    exact absurd (asleep.of_setPc rfl) (not_readerAsleep_wakeReaders m)
  | writeStore p b rest now space => exact .inr (somewhere_setPc _ p rfl)
  | waitQuit p n now => exact .inl (lockedElsewhere now rfl rfl (asleep.of_setPc rfl))
  | waitSleep p n now empty opened => exact .inl ⟨empty, opened⟩
  | waitDone p n now => exact .inl (lockedElsewhere now rfl rfl (asleep.of_setPc rfl))
  | copyTake p n got now filled =>
    have empty := (lockedElsewhere now rfl rfl (asleep.of_setPc rfl)).1
    rw [filled] at empty
    cases empty
  | copyDone p n got now =>
    have before : m.Somewhere readerAsleep :=
      readerAsleep_of_wakeWriters (asleep.of_setPc rfl)
    exact .inl (lockedElsewhere now rfl rfl before)

theorem WritersWait.step (waits : m.WritersWait) (guarded : m.Guarded)
    (moves : Moves m a m') : m'.WritersWait := by
  intro asleep
  have lockedElsewhere : ∀ {p : P} {pc : PipePc}, m.pc p = pc → pc.locked → pc.copying = false →
      m.Somewhere writerAsleep → m.pipe.full ∧ m.pipe.readopen :=
    fun now locked elsewhere asleep => (waits asleep).resolve_right
      (guarded.nowhere_of_held locked_of_copying now locked elsewhere)
  have unlocked : m.lock = none → m.Somewhere writerAsleep →
      m.pipe.full ∧ m.pipe.readopen :=
    fun free asleep => (waits asleep).resolve_right
      (guarded.nowhere_of_free locked_of_copying free)
  cases moves with
  | kill p =>
    have before : m.Somewhere writerAsleep := asleep.of_setPc (by simp)
    exact (waits before).imp_right fun copying => copying.setPc (by simp)
  | callWrite p bytes outside =>
    exact (waits (asleep.of_setPc rfl)).imp_right fun copying =>
      copying.setPc (by rw [outside]; rfl)
  | callRead p n outside =>
    exact (waits (asleep.of_setPc rfl)).imp_right fun copying =>
      copying.setPc (by rw [outside]; rfl)
  | close p writable free =>
    cases writable with
    | true => exact .inl (unlocked free (writerAsleep_of_wakeReaders asleep))
    | false => exact absurd asleep (not_writerAsleep_wakeWriters _)
  | lockWrite p rest free => exact .inl (unlocked free (asleep.of_setPc rfl))
  | lockRead p n free => exact .inl (unlocked free (asleep.of_setPc rfl))
  | writeDone p now =>
    have before : m.Somewhere writerAsleep :=
      writerAsleep_of_wakeReaders (asleep.of_setPc rfl)
    exact .inl (lockedElsewhere now rfl rfl before)
  | writeQuit p b rest now full quits =>
    exact .inl (lockedElsewhere now rfl rfl (asleep.of_setPc rfl))
  | writeSleep p b rest now full opened => exact .inl ⟨full, opened⟩
  | writeStore p b rest now space =>
    have full := (lockedElsewhere now rfl rfl (asleep.of_setPc rfl)).1
    rw [space] at full
    cases full
  | waitQuit p n now => exact .inl (lockedElsewhere now rfl rfl (asleep.of_setPc rfl))
  | waitSleep p n now empty opened =>
    exact .inl (lockedElsewhere now rfl rfl (asleep.of_setPc rfl))
  | waitDone p n now => exact .inr (somewhere_setPc _ p rfl)
  | copyTake p n got now filled => exact .inr (somewhere_setPc _ p rfl)
  | copyDone p n got now =>
    exact absurd (asleep.of_setPc rfl) (not_writerAsleep_wakeWriters _)

structure Attended (m : PipeSystem P) : Prop where
  guarded : m.Guarded
  readers : m.ReadersWait
  writers : m.WritersWait

omit [DecidableEq P] in
theorem Attended.noWork (attended : m.Attended) : m.NoWorkForSleepers := by
  intro free
  have noWriter := attended.guarded.nowhere_of_free locked_of_writing free
  have noReader := attended.guarded.nowhere_of_free locked_of_copying free
  constructor
  · intro asleep
    obtain ⟨empty, opened⟩ := (attended.readers asleep).resolve_right noWriter
    exact ⟨beq_iff_eq.mp empty, opened⟩
  · intro asleep
    obtain ⟨full, opened⟩ := (attended.writers asleep).resolve_right noReader
    exact ⟨beq_iff_eq.mp full, opened⟩

theorem reached_attended {data : Fin pipeSize → UInt8} {killed : P → Bool}
    {actions : List (PipeAction P)}
    (along : Transition.Along step (fun m a => ¬ m.strands a) (opened data killed) actions)
    (reached : Transition.run step (opened data killed) actions = .ok m) : m.Attended := by
  refine Transition.run_invariant_along Attended (fun m a m' attended keeps taken => ?_)
    ⟨(opened_fifo data killed).guarded, ?_, ?_⟩ along reached
  · have moves := moves_of_step taken
    exact ⟨attended.guarded.step moves, attended.readers.step attended.guarded keeps moves,
      attended.writers.step attended.guarded moves⟩
  · rintro ⟨p, asleep⟩
    cases asleep
  · rintro ⟨p, asleep⟩
    cases asleep

theorem work_of_strands (strands : m.strands a) (taken : m.step a = .ok m') :
    ¬ m'.NoWorkForSleepers := by
  cases a with
  | advance p =>
    obtain ⟨⟨b, rest, now⟩, full, quits, asleep⟩ := strands
    have gaveUp : m' = m.release.setPc p .outside := by
      rw [step] at taken
      split at taken
      · cases taken
      · rw [now] at taken
        simp only [writeTurn, full, quits, ↓reduceIte] at taken
        exact (Except.ok.inj taken).symm
    subst gaveUp
    intro attended
    have still : (m.release.setPc p .outside).Somewhere readerAsleep :=
      Somewhere.setPc (by rw [show m.release.pc p = _ from now]; rfl) asleep
    have empty : m.pipe.empty := beq_iff_eq.mpr ((attended rfl).1 still).1
    rw [Pipe.not_empty_of_full full] at empty
    cases empty
  | write => cases strands
  | read => cases strands
  | close => cases strands
  | kill => cases strands

/-- In all states that a run passes through no sleeper has work while the lock is free, precisely
when no `pipewrite` of the run gives up on a full pipe while a reader is asleep. -/
theorem sleepers_have_no_work_iff {data : Fin pipeSize → UInt8} {killed : P → Bool}
    {actions : List (PipeAction P)}
    (reached : Transition.run step (opened data killed) actions = .ok m) :
    (∀ before after middle, actions = before ++ after →
      Transition.run step (opened data killed) before = .ok middle → middle.NoWorkForSleepers) ↔
      Transition.Along step (fun m a => ¬ m.strands a) (opened data killed) actions := by
  constructor
  · intro always
    rw [Transition.along_iff_not_occurs reached]
    rintro ⟨before, action, after, middle, next, rfl, ran, taken, strands⟩
    have passed : Transition.run step (opened data killed) (before ++ [action]) = .ok next :=
      Transition.run_concat.mpr ⟨middle, ran, taken⟩
    have holds := always (before ++ [action]) after next (by simp) passed
    exact work_of_strands (not_not.mp strands) taken holds
  · rintro along before after middle rfl ran
    exact (reached_attended along.front ran).noWork

def wakesReader : List (PipeAction Bool) :=
  [.read false 1, .advance false, .advance false, .write true [7], .advance true, .advance true,
    .advance true]

/-- A reader is asleep on the empty pipe and is woken by a write that ends. -/
theorem sleepers_have_no_work_woken : ∃ m : PipeSystem Bool,
    Transition.run step (opened (fun _ => 0) (fun _ => false)) wakesReader = .ok m ∧
      m.pc false = .readWoken 1 ∧
      ((∀ before after middle, wakesReader = before ++ after →
        Transition.run step (opened (fun _ => 0) (fun _ => false)) before = .ok middle →
          middle.NoWorkForSleepers) ↔
        Transition.Along step (fun m a => ¬ m.strands a)
          (opened (fun _ => 0) (fun _ => false)) wakesReader) := by
  have checked : Transition.ends (fun m : PipeSystem Bool => decide (m.pc false = .readWoken 1))
      (Transition.run step (opened (fun _ => 0) (fun _ => false)) wakesReader) = true := by
    decide +kernel
  obtain ⟨m, ran, results⟩ := Transition.exists_of_ends checked
  exact ⟨m, ran, of_decide_eq_true results, sleepers_have_no_work_iff ran⟩

/-- A reader falls asleep on the empty pipe; a process that writes one byte more than fits is
killed, fills the pipe and gives up. -/
def strandsReader : List (PipeAction Bool) :=
  [.read false 1, .advance false, .advance false, .write true (List.replicate (pipeSize + 1) 7),
    .advance true, .kill true] ++ List.replicate (pipeSize + 1) (.advance true)

/-- The reader is still asleep beside a full pipe whose lock is free. -/
theorem sleepers_have_work_stranded : ∃ m : PipeSystem Bool,
    Transition.run step (opened (fun _ => 0) (fun _ => false)) strandsReader = .ok m ∧
      m.lock = none ∧ m.pc false = .readAsleep 1 ∧ m.pc true = .outside ∧
        m.pipe.nread ≠ m.pipe.nwrite ∧ ¬ m.NoWorkForSleepers := by
  have checked : Transition.ends (fun m : PipeSystem Bool => decide (m.lock = none ∧
      m.pc false = .readAsleep 1 ∧ m.pc true = .outside ∧ m.pipe.nread ≠ m.pipe.nwrite))
      (Transition.run step (opened (fun _ => 0) (fun _ => false)) strandsReader) = true := by
    decide +kernel
  obtain ⟨m, ran, results⟩ := Transition.exists_of_ends checked
  obtain ⟨free, asleep, outside, filled⟩ := of_decide_eq_true results
  refine ⟨m, ran, free, asleep, outside, filled, fun attended => ?_⟩
  exact filled ((attended free).1 ⟨false, by rw [asleep]; rfl⟩).1

end PipeSystem

end Xv6
