import Mathlib.Data.Finset.Card
import Xv6.Library.Run
import Xv6.Log.System

/-!
# Group commit

The commit of the last outstanding operation commits the operations of all processes since the
commit before. The invariant ties the two counters of the log and the in-memory header to the
phases of the processes and to the recorded events; every step is one of eight changes of phase.
Only the stages of `commit` write to the disk, and they write what the header listed when it began.
-/

namespace Xv6

/-- How far a process is through its operation, as the others can tell. -/
inductive LogPhase where
  | outside
  | operating
  | pending
  | installing
  | cleared
  deriving DecidableEq, Repr

@[grind]
def LogPhase.inCommit : LogPhase → Bool
  | .pending | .installing | .cleared => true
  | _ => false

@[simp, grind]
def LogPc.phase : LogPc → LogPhase
  | .idle | .asleep | .woken => .outside
  | .inOp | .logging _ => .operating
  | .commit .test | .commit .writeLog | .commit .writeHead => .pending
  | .commit .installTrans | .commit .clear => .installing
  | .commit .erase | .commit .finish => .cleared

namespace LogEvent

variable {P : Type} [DecidableEq P]

def epoch (events : List (LogEvent P)) : List (LogEvent P) :=
  events.foldl (fun since event => match event with
    | .committed _ => []
    | event => since ++ [event]) []

/-- Whether the process is in an operation after the event, if the event is in order. -/
def follow (p : P) (inside : Bool) : LogEvent P → Option Bool
  | .began q => if q = p then if inside then none else some true else some inside
  | .logged q _ => if q = p then if inside then some true else none else some inside
  | .ended q => if q = p then if inside then some false else none else some inside
  | .committed _ => some inside

/-- Whether the process is in an operation after the events, if its events are operations in
order: admitted, then any number of logged blocks, then ended. -/
def operation (p : P) (events : List (LogEvent P)) : Option Bool :=
  events.foldlM (follow p) false

omit [DecidableEq P] in
@[simp]
theorem epoch_concat (events : List (LogEvent P)) (event : LogEvent P) :
    epoch (events ++ [event]) = match event with
      | .committed _ => []
      | event => epoch events ++ [event] := by
  simp only [epoch, List.foldl_append, List.foldl_cons, List.foldl_nil]

@[simp]
theorem operation_concat (p : P) (events : List (LogEvent P)) (event : LogEvent P) :
    operation p (events ++ [event]) = (operation p events).bind fun inside =>
      follow p inside event := by
  simp only [operation, List.foldlM_append, List.foldlM_cons, List.foldlM_nil]
  cases events.foldlM (follow p) false <;> simp

/-- A commit of the blocks after the events is whole: it writes, once each, exactly the blocks
logged since the last commit, and every operation since then has ended. -/
structure Whole (events : List (LogEvent P)) (blocks : List BlockNo) : Prop where
  distinct : blocks.Nodup
  logged : ∀ b, b ∈ blocks ↔ ∃ p, .logged p b ∈ epoch events
  ended : ∀ p, operation p (epoch events) = some false

omit [DecidableEq P] in
theorem epoch_append {events more : List (LogEvent P)}
    (none : ∀ blocks, .committed blocks ∉ more) :
    epoch (events ++ more) = epoch events ++ more := by
  induction more using List.reverseRecOn with
  | nil => simp
  | append_singleton rest last ih =>
    rw [← List.append_assoc, epoch_concat]
    have front := ih fun blocks member => none blocks (List.mem_append_left _ member)
    cases last with
    | committed blocks => exact absurd (List.mem_append_right _ List.mem_cons_self) (none blocks)
    | _ => simp [front]

variable {events : List (LogEvent P)}

theorem follow_inside {p : P} {inside : Bool}
    (followed : events.foldlM (follow p) true = some inside) (endless : .ended p ∉ events) :
    inside = true := by
  induction events with
  | nil =>
    simp only [List.foldlM_nil, pure, Option.some.injEq] at followed
    exact followed.symm
  | cons event rest ih =>
    simp only [List.mem_cons, not_or] at endless
    obtain ⟨next, first, later⟩ := Option.bind_eq_some_iff.mp followed
    have stays : next = true := by
      cases event with
      | ended q =>
        have other : q ≠ p := fun same => endless.1 (same ▸ rfl)
        simpa [follow, other] using first.symm
      | began q =>
        rw [follow] at first
        split at first
        · cases first
        · exact (Option.some.inj first).symm
      | logged q b =>
        rw [follow] at first
        split at first
        · exact (Option.some.inj first).symm
        · exact (Option.some.inj first).symm
      | committed blocks => exact (Option.some.inj first).symm
    exact ih (stays ▸ later) endless.2

theorem ended_before_commit
    (whole : ∀ before blocks after, events = before ++ .committed blocks :: after →
      Whole before blocks) (before middle after : List (LogEvent P)) (p : P) (blocks : List BlockNo)
    (split : events = before ++ .began p :: (middle ++ .committed blocks :: after)) :
    .ended p ∈ middle := by
  by_cases commits : ∃ earlier, .committed earlier ∈ middle
  case pos =>
    -- the first commit of the middle comes before the end as well
    obtain ⟨earlier, member⟩ := commits
    obtain ⟨front, back, parts⟩ := List.append_of_mem member
    have shorter : front.length < middle.length := by simp [parts]
    have inFront := ended_before_commit whole before front (back ++ .committed blocks :: after) p
      earlier (by simp [split, parts])
    rw [parts]
    exact List.mem_append_left _ inFront
  case neg =>
    have none : ∀ earlier, .committed earlier ∉ .began p :: middle := by
      intro earlier member
      simp only [List.mem_cons, reduceCtorEq, false_or] at member
      exact commits ⟨earlier, member⟩
    have ended := (whole (before ++ .began p :: middle) blocks after (by simp [split])).ended p
    rw [epoch_append none, operation, List.foldlM_append] at ended
    obtain ⟨inside, _, later⟩ := Option.bind_eq_some_iff.mp ended
    obtain ⟨next, first, later⟩ := Option.bind_eq_some_iff.mp later
    have begun : next = true := by
      rw [follow, if_pos rfl] at first
      split at first
      · cases first
      · exact (Option.some.inj first).symm
    by_contra endless
    have stays := follow_inside (begun ▸ later) endless
    cases stays
termination_by middle.length

end LogEvent

open LogEvent (epoch_concat operation_concat follow epoch)

@[simp, grind =]
theorem mem_absorb {b c : BlockNo} {lh : List BlockNo} : c ∈ absorb b lh ↔ c = b ∨ c ∈ lh := by
  induction lh with
  | nil => simp [absorb]
  | cons first rest ih =>
    simp only [absorb]
    split
    case isTrue same => simp [same]
    case isFalse other => simp [ih, or_left_comm]

theorem absorb_nodup (b : BlockNo) {lh : List BlockNo} (distinct : lh.Nodup) :
    (absorb b lh).Nodup := by
  induction lh with
  | nil => simp [absorb]
  | cons first rest ih =>
    obtain ⟨fresh, distinct⟩ := List.nodup_cons.mp distinct
    simp only [absorb]
    split
    case isTrue same => exact List.nodup_cons.mpr ⟨same ▸ fresh, distinct⟩
    case isFalse other =>
      refine List.nodup_cons.mpr ⟨?_, ih distinct⟩
      rw [mem_absorb]
      rintro (same | member)
      · exact other same
      · exact fresh member

namespace LogSystem

variable {P : Type} [DecidableEq P]

abbrev phase (m : LogSystem P) (p : P) : LogPhase := (m.pc p).phase

theorem phase_setPc (m : LogSystem P) (p : P) (pc : LogPc) (q : P) :
    (m.setPc p pc).phase q = if q = p then pc.phase else m.phase q := by
  simp only [phase, setPc, Function.update_apply]
  split <;> rfl

theorem phase_setPc_same {m : LogSystem P} {p : P} {pc : LogPc} (same : pc.phase = m.phase p)
    (q : P) : (m.setPc p pc).phase q = m.phase q := by
  rw [phase_setPc]
  split
  case isTrue equal => rw [equal, same]
  case isFalse => rfl

omit [DecidableEq P] in
theorem phase_wakeup (m : LogSystem P) (q : P) : m.wakeup.phase q = m.phase q := by
  simp only [phase, wakeup]
  split
  case isTrue asleep => rw [asleep]; rfl
  case isFalse => rfl

/-- What a step does: one constructor for each way through the calls. -/
inductive Moves (m : LogSystem P) : LogAction P → LogSystem P → Prop where
  | sleeps {p : P} (control : m.pc p = .idle ∨ m.pc p = .woken) (busy : m.committing ∨
      (m.lh.length : Int) + (m.outstanding + 1) * maxOpBlocks > logSize) :
    Moves m (.beginOp p) (m.setPc p .asleep)
  | begins {p : P} (control : m.pc p = .idle ∨ m.pc p = .woken) (idle : m.committing = false)
    (room : (m.lh.length : Int) + (m.outstanding + 1) * maxOpBlocks ≤ logSize) :
    Moves m (.beginOp p)
      (({ m with outstanding := m.outstanding + 1 }.setPc p .inOp).record (.began p))
  | logs {p : P} {b : BlockNo} {data : Block} (control : m.pc p = .inOp) :
    Moves m (.logWrite p b data) ({ m with store := { m.store with
      cache := Function.update m.store.cache b (some data) } }.setPc p (.logging b))
  | lists {p : P} {b : BlockNo} (control : m.pc p = .logging b) :
    Moves m (.append p) (({ m with lh := absorb b m.lh }.setPc p .inOp).record (.logged p b))
  | last {p : P} (control : m.pc p = .inOp) (none : m.outstanding - 1 = 0) :
    Moves m (.endOp p) (({ m with
      outstanding := m.outstanding - 1
      committing := true }.setPc p (.commit .test)).record (.ended p))
  | ends {p : P} (control : m.pc p = .inOp) (more : m.outstanding - 1 ≠ 0) :
    Moves m (.endOp p)
      (({ m with outstanding := m.outstanding - 1 }.wakeup.setPc p .idle).record (.ended p))
  | commits {p : P} {stage : CommitStage} (control : m.pc p = .commit stage) :
    Moves m (.commit p) (m.commitStep p stage)

theorem moves_of_beginOp {m : LogSystem P} {p : P} (control : m.pc p = .idle ∨ m.pc p = .woken) :
    Moves m (.beginOp p) (m.beginOp p) := by
  unfold beginOp
  split
  case isTrue busy => exact .sleeps control (.inl busy)
  case isFalse idle =>
    split
    case isTrue full => exact .sleeps control (.inr full)
    case isFalse room =>
      rw [Bool.not_eq_true] at idle
      exact .begins control idle (Int.not_lt.mp room)

theorem moves_of_step {m m' : LogSystem P} {action : LogAction P}
    (taken : m.step action = .ok m') : Moves m action m' := by
  cases action with
  | beginOp p =>
    simp only [step] at taken
    split at taken
    case h_1 control => cases taken; exact moves_of_beginOp (.inl control)
    case h_2 control => cases taken; exact moves_of_beginOp (.inr control)
    case h_3 => cases taken
  | logWrite p b data =>
    simp only [step, logWrite] at taken
    split at taken
    case h_1 control =>
      split at taken
      · cases taken
      · split at taken
        · cases taken
        · cases taken
          exact .logs control
    case h_2 => cases taken
  | append p =>
    simp only [step, append] at taken
    split at taken
    case h_1 b control =>
      split at taken
      · cases taken
      · cases taken
        exact .lists control
    case h_2 => cases taken
  | endOp p =>
    simp only [step, endOp] at taken
    split at taken
    case h_1 control =>
      split at taken
      · cases taken
      · split at taken
        case isTrue none => cases taken; exact .last control none
        case isFalse more => cases taken; exact .ends control more
    case h_2 => cases taken
  | commit p =>
    simp only [step] at taken
    split at taken
    case h_1 stage control => cases taken; exact .commits control
    case h_2 => cases taken

section Phases

variable {m : LogSystem P} {p : P}

omit [DecidableEq P]

theorem phase_outside (control : m.pc p = .idle ∨ m.pc p = .woken) : m.phase p = .outside := by
  rcases control with control | control
  · rw [phase, control]
    rfl
  · rw [phase, control]
    rfl

theorem phase_inOp (control : m.pc p = .inOp) : m.phase p = .operating := by
  rw [phase, control]
  rfl

theorem phase_logging {b : BlockNo} (control : m.pc p = .logging b) : m.phase p = .operating := by
  rw [phase, control]
  rfl

end Phases

theorem commitStep_lh (m : LogSystem P) (p : P) (stage : CommitStage) :
    (m.commitStep p stage).lh = m.lh ∨ (m.commitStep p stage).lh = [] := by
  cases stage with
  | test =>
    rw [commitStep]
    split <;> exact .inl rfl
  | clear => exact .inr rfl
  | _ => exact .inl rfl

structure Grouped (m : LogSystem P) : Prop where
  counted : ∃ ops : Finset P, (∀ p, p ∈ ops ↔ m.phase p = .operating) ∧ m.outstanding = ops.card
  alone : ∀ p q, (m.phase p).inCommit → (m.phase q).inCommit → p = q
  marked : ∀ p, (m.phase p).inCommit → m.committing
  quiet : m.committing → m.outstanding = 0
  distinct : m.lh.Nodup
  logged : (∀ p, m.phase p ≠ .installing) →
    ∀ b, b ∈ m.lh ↔ ∃ p, .logged p b ∈ LogEvent.epoch m.events
  settled : ∀ p, m.phase p = .installing ∨ m.phase p = .cleared → LogEvent.epoch m.events = []
  followed : ∀ p, LogEvent.operation p (LogEvent.epoch m.events) =
    some (decide (m.phase p = .operating))
  whole : ∀ before blocks after, m.events = before ++ .committed blocks :: after →
    LogEvent.Whole before blocks

namespace Grouped

variable {m : LogSystem P}

section

variable (grouped : m.Grouped)
include grouped

variable {p : P} {m' : LogSystem P}

theorem outstanding_pos (operating : m.phase p = .operating) : 0 < m.outstanding := by
  obtain ⟨ops, member, count⟩ := grouped.counted
  have positive := Finset.card_pos.mpr ⟨p, (member p).mpr operating⟩
  omega

theorem not_committing (operating : m.phase p = .operating) : m.committing = false := by
  have positive := grouped.outstanding_pos operating
  cases committing : m.committing with
  | false => rfl
  | true =>
    have zero := grouped.quiet committing
    omega

theorem whole_record {event : LogEvent P}
    (committed : ∀ blocks, event = .committed blocks → LogEvent.Whole m.events blocks) :
    ∀ before blocks after, m.events ++ [event] = before ++ .committed blocks :: after →
      LogEvent.Whole before blocks := by
  intro before blocks after split
  rcases List.eq_nil_or_concat after with rfl | ⟨after, last, rfl⟩
  · obtain ⟨rfl, same⟩ := List.append_inj' split rfl
    exact committed blocks (List.singleton_inj.mp same)
  · rw [List.concat_eq_append, ← List.cons_append, ← List.append_assoc] at split
    obtain ⟨same, _⟩ := List.append_inj' split rfl
    exact grouped.whole before blocks after same

theorem move (phase : ∀ q, m'.phase q = m.phase q) (outstanding : m'.outstanding = m.outstanding)
    (committing : m'.committing = m.committing) (lh : m'.lh = m.lh)
    (events : m'.events = m.events) :
    m'.Grouped := by
  obtain ⟨counted, alone, marked, quiet, distinct, logged, settled, followed, whole⟩ := grouped
  constructor <;> simpa only [phase, outstanding, committing, lh, events]

theorem nobody (idle : m.committing = false) (q : P) : (m.phase q).inCommit = false := by
  by_contra inCommit
  rw [grouped.marked q (Bool.eq_true_of_not_eq_false inCommit)] at idle
  cases idle

theorem not_operating (inCommit : (m.phase p).inCommit) (q : P) : m.phase q ≠ .operating := by
  intro operating
  have idle := grouped.not_committing operating
  rw [grouped.marked p inCommit] at idle
  cases idle

theorem logged_of_idle (idle : m.committing = false) (b : BlockNo) :
    b ∈ m.lh ↔ ∃ q, .logged q b ∈ LogEvent.epoch m.events := by
  refine grouped.logged (fun q installing => ?_) b
  have none := grouped.nobody idle q
  rw [installing] at none
  cases none

section Moved

variable {next : LogPhase} (phase : ∀ q, m'.phase q = if q = p then next else m.phase q)
include phase

omit grouped in
theorem forall_phase (holds : P → LogPhase → Prop) (this : holds p next)
    (others : ∀ q, q ≠ p → holds q (m.phase q)) (q : P) : holds q (m'.phase q) := by
  rw [phase]
  split
  case isTrue same => rwa [same]
  case isFalse other => exact others q other

theorem alone_of_inCommit (inCommit : (m.phase p).inCommit) (q : P) :
    (m'.phase q).inCommit → q = p :=
  forall_phase phase (fun q phase => phase.inCommit → q = p) (fun _ => rfl)
    (fun q _ now => grouped.alone q p now inCommit) q

theorem counted_of_inCommit (inCommit : (m.phase p).inCommit) (still : next ≠ .operating)
    (outstanding : m'.outstanding = m.outstanding) :
    ∃ ops : Finset P, (∀ q, q ∈ ops ↔ m'.phase q = .operating) ∧ m'.outstanding = ops.card := by
  obtain ⟨ops, member, count⟩ := grouped.counted
  refine ⟨ops, forall_phase phase (fun q phase => q ∈ ops ↔ phase = .operating) ?_
    fun q _ => member q, outstanding.trans count⟩
  exact iff_of_false (fun inOps => grouped.not_operating inCommit p ((member p).mp inOps)) still

end Moved

theorem admission (outside : m.phase p = .outside) (idle : m.committing = false)
    (phase : ∀ q, m'.phase q = if q = p then .operating else m.phase q)
    (outstanding : m'.outstanding = m.outstanding + 1) (committing : m'.committing = m.committing)
    (lh : m'.lh = m.lh) (events : m'.events = m.events ++ [.began p]) : m'.Grouped := by
  obtain ⟨ops, member, count⟩ := grouped.counted
  have fresh : p ∉ ops := by
    rw [member, outside]
    nofun
  have none : ∀ q, (m'.phase q).inCommit = false :=
    forall_phase phase (fun _ phase => phase.inCommit = false) rfl fun q _ => grouped.nobody idle q
  have not_inCommit : ∀ q, ¬ (m'.phase q).inCommit := fun q => by
    rw [none q]
    nofun
  refine {
    counted := ⟨insert p ops, ?_, ?_⟩
    alone := fun a b first => absurd first (not_inCommit a)
    marked := fun q inCommit => absurd inCommit (not_inCommit q)
    quiet := fun now => by
      rw [committing, idle] at now
      cases now
    distinct := lh ▸ grouped.distinct
    logged := fun _ b => ?_
    settled := fun q settled => absurd (show (m'.phase q).inCommit by
      rcases settled with now | now <;> rw [now] <;> rfl) (not_inCommit q)
    followed := ?_
    whole := ?_ }
  · refine forall_phase phase (fun q phase => q ∈ insert p ops ↔ phase = .operating) ?_ ?_
    · exact iff_of_true (Finset.mem_insert_self p ops) rfl
    · intro q other
      rw [Finset.mem_insert, or_iff_right other, member]
  · rw [outstanding, count, Finset.card_insert_of_notMem fresh]
    omega
  · rw [lh, events, epoch_concat, grouped.logged_of_idle idle]
    simp only [List.mem_append, List.mem_singleton, reduceCtorEq, or_false]
  · intro q
    simp only [events, epoch_concat, operation_concat, grouped.followed q, phase]
    by_cases same : q = p
    · simp [same, follow, outside]
    · simp [same, follow, Ne.symm same]
  · rw [events]
    exact grouped.whole_record (by simp)

theorem log {b : BlockNo} (operating : m.phase p = .operating) (phase : ∀ q, m'.phase q = m.phase q)
    (outstanding : m'.outstanding = m.outstanding) (committing : m'.committing = m.committing)
    (lh : m'.lh = absorb b m.lh) (events : m'.events = m.events ++ [.logged p b]) : m'.Grouped := by
  have idle := grouped.not_committing operating
  refine {
    counted := by simpa only [phase, outstanding] using grouped.counted
    alone := by simpa only [phase] using grouped.alone
    marked := by simpa only [phase, committing] using grouped.marked
    quiet := by simpa only [committing, outstanding] using grouped.quiet
    distinct := lh ▸ absorb_nodup b grouped.distinct
    logged := fun _ c => ?_
    settled := fun q settled => ?_
    followed := ?_
    whole := ?_ }
  · rw [lh, events, epoch_concat, mem_absorb, grouped.logged_of_idle idle]
    simp only [List.mem_append, List.mem_singleton, LogEvent.logged.injEq, exists_or]
    constructor
    · rintro (rfl | before)
      · exact .inr ⟨p, rfl, rfl⟩
      · exact .inl before
    · rintro (before | ⟨q, rfl, rfl⟩)
      · exact .inr before
      · exact .inl rfl
  · have none := grouped.nobody idle q
    rw [phase] at settled
    rcases settled with now | now <;> rw [now] at none <;> cases none
  · intro q
    simp only [events, epoch_concat, operation_concat, grouped.followed q, phase]
    by_cases same : q = p
    · simp [same, follow, operating]
    · simp [follow, Ne.symm same]
  · rw [events]
    exact grouped.whole_record (by simp)

theorem finishOp (operating : m.phase p = .operating) (phase : ∀ q, m'.phase q =
      if q = p then if m.outstanding = 1 then .pending else .outside else m.phase q)
    (outstanding : m'.outstanding = m.outstanding - 1)
    (committing : m'.committing = decide (m.outstanding = 1)) (lh : m'.lh = m.lh)
    (events : m'.events = m.events ++ [.ended p]) : m'.Grouped := by
  have idle := grouped.not_committing operating
  obtain ⟨ops, member, count⟩ := grouped.counted
  have inOps : p ∈ ops := (member p).mpr operating
  have positive := Finset.card_pos.mpr ⟨p, inOps⟩
  -- only the process that ends the last operation comes into a commit
  have only : ∀ q, (m'.phase q).inCommit → q = p ∧ m.outstanding = 1 := by
    refine forall_phase phase (fun q phase => phase.inCommit → q = p ∧ m.outstanding = 1) ?_ ?_
    · intro now
      split at now
      case isTrue one => exact ⟨rfl, one⟩
      case isFalse => cases now
    · intro q _ now
      rw [grouped.nobody idle q] at now
      cases now
  have notSettled : ∀ q, m'.phase q ≠ .installing ∧ m'.phase q ≠ .cleared := by
    refine forall_phase phase (fun _ phase => phase ≠ .installing ∧ phase ≠ .cleared) ?_ ?_
    · split <;> exact ⟨nofun, nofun⟩
    · intro q _
      have none := grouped.nobody idle q
      constructor <;> intro now <;> rw [now] at none <;> cases none
  refine {
    counted := ⟨ops.erase p, ?_, ?_⟩
    alone := fun a b first second => (only a first).1.trans (only b second).1.symm
    marked := fun q inCommit => committing.trans (decide_eq_true (only q inCommit).2)
    quiet := fun now => by
      rw [committing, decide_eq_true_eq] at now
      rw [outstanding, now]
      rfl
    distinct := lh ▸ grouped.distinct
    logged := fun _ b => ?_
    settled := fun q settled => absurd settled (not_or.mpr (notSettled q))
    followed := ?_
    whole := ?_ }
  · refine forall_phase phase (fun q phase => q ∈ ops.erase p ↔ phase = .operating) ?_ ?_
    · refine iff_of_false (Finset.notMem_erase p ops) ?_
      split <;> nofun
    · intro q other
      rw [Finset.mem_erase, and_iff_right other, member]
  · rw [outstanding, count, Finset.card_erase_of_mem inOps]
    omega
  · rw [lh, events, epoch_concat, grouped.logged_of_idle idle]
    simp only [List.mem_append, List.mem_singleton, reduceCtorEq, or_false]
  · intro q
    simp only [events, epoch_concat, operation_concat, grouped.followed q, phase]
    by_cases same : q = p
    · simp only [same, operating, follow, decide_true, Option.bind_some, if_true]
      split <;> rfl
    · simp [same, follow, Ne.symm same]
  · rw [events]
    exact grouped.whole_record (by simp)

theorem whole_of_pending (pending : m.phase p = .pending) : LogEvent.Whole m.events m.lh := by
  have inCommit : (m.phase p).inCommit := by rw [pending]; rfl
  refine ⟨grouped.distinct, grouped.logged fun q installing => ?_, fun q => ?_⟩
  · obtain rfl := grouped.alone q p (by rw [installing]; rfl) inCommit
    rw [pending] at installing
    cases installing
  · rw [grouped.followed q, decide_eq_false (grouped.not_operating inCommit q)]

theorem commitPoint {next : LogPhase} (pending : m.phase p = .pending)
    (goesOn : next = .installing ∨ next = .cleared ∧ m.lh = [])
    (phase : ∀ q, m'.phase q = if q = p then next else m.phase q)
    (outstanding : m'.outstanding = m.outstanding) (committing : m'.committing = m.committing)
    (lh : m'.lh = m.lh) (events : m'.events = m.events ++ [.committed m.lh]) : m'.Grouped := by
  have inCommit : (m.phase p).inCommit := by rw [pending]; rfl
  have still : next ≠ .operating := by
    rcases goesOn with rfl | ⟨rfl, -⟩ <;> nofun
  have only := grouped.alone_of_inCommit phase inCommit
  have empty : LogEvent.epoch m'.events = [] := by rw [events, epoch_concat]
  refine {
    counted := grouped.counted_of_inCommit phase inCommit still outstanding
    alone := fun a b first second => (only a first).trans (only b second).symm
    marked := fun _ _ => committing.trans (grouped.marked p inCommit)
    quiet := by simpa only [committing, outstanding] using grouped.quiet
    distinct := lh ▸ grouped.distinct
    logged := fun none b => ?_
    settled := fun _ _ => empty
    followed := fun q => ?_
    whole := ?_ }
  · -- nobody installs, so the header was empty
    have here : m'.phase p = next := (phase p).trans (if_pos rfl)
    obtain ⟨-, nothing⟩ := goesOn.resolve_left fun installing => none p (here.trans installing)
    rw [lh, nothing, empty]
    simp only [List.not_mem_nil, exists_false]
  · have outside : m'.phase q ≠ .operating :=
      forall_phase phase (fun _ phase => phase ≠ .operating) still
        (fun q _ => grouped.not_operating inCommit q) q
    rw [empty, decide_eq_false outside]
    rfl
  · rw [events]
    refine grouped.whole_record fun blocks same => ?_
    cases same
    exact grouped.whole_of_pending pending

theorem clear (installing : m.phase p = .installing)
    (phase : ∀ q, m'.phase q = if q = p then .cleared else m.phase q)
    (outstanding : m'.outstanding = m.outstanding) (committing : m'.committing = m.committing)
    (lh : m'.lh = []) (events : m'.events = m.events) : m'.Grouped := by
  have inCommit : (m.phase p).inCommit := by rw [installing]; rfl
  have only := grouped.alone_of_inCommit phase inCommit
  have empty : LogEvent.epoch m'.events = [] := by rw [events, grouped.settled p (.inl installing)]
  refine {
    counted := grouped.counted_of_inCommit phase inCommit nofun outstanding
    alone := fun a b first second => (only a first).trans (only b second).symm
    marked := fun _ _ => committing.trans (grouped.marked p inCommit)
    quiet := by simpa only [committing, outstanding] using grouped.quiet
    distinct := lh ▸ List.nodup_nil
    logged := fun _ b => by
      rw [lh, empty]
      simp only [List.not_mem_nil, exists_false]
    settled := fun _ _ => empty
    followed := fun q => ?_
    whole := events ▸ grouped.whole }
  have outside : m'.phase q ≠ .operating :=
    forall_phase phase (fun _ phase => phase ≠ .operating) nofun
      (fun q _ => grouped.not_operating inCommit q) q
  rw [empty, decide_eq_false outside]
  rfl

theorem done (cleared : m.phase p = .cleared)
    (phase : ∀ q, m'.phase q = if q = p then .outside else m.phase q)
    (outstanding : m'.outstanding = m.outstanding) (committing : m'.committing = false)
    (lh : m'.lh = m.lh) (events : m'.events = m.events) : m'.Grouped := by
  have inCommit : (m.phase p).inCommit := by rw [cleared]; rfl
  have not_inCommit : ∀ q, ¬ (m'.phase q).inCommit :=
    forall_phase phase (fun _ phase => ¬ phase.inCommit) nofun
      fun q other now => other (grouped.alone q p now inCommit)
  have installs : ∀ q, m.phase q ≠ .installing := by
    intro q installing
    obtain rfl := grouped.alone q p (by rw [installing]; rfl) inCommit
    rw [cleared] at installing
    cases installing
  refine {
    counted := grouped.counted_of_inCommit phase inCommit nofun outstanding
    alone := fun a b first => absurd first (not_inCommit a)
    marked := fun q now => absurd now (not_inCommit q)
    quiet := fun now => by
      rw [committing] at now
      cases now
    distinct := lh ▸ grouped.distinct
    logged := fun _ => lh ▸ events ▸ grouped.logged installs
    settled := fun _ _ => events ▸ grouped.settled p (.inr cleared)
    followed := fun q => ?_
    whole := events ▸ grouped.whole }
  rw [events, grouped.followed q]
  have before := grouped.not_operating inCommit q
  have after : m'.phase q ≠ .operating :=
    forall_phase phase (fun _ phase => phase ≠ .operating) nofun
      (fun q _ => grouped.not_operating inCommit q) q
  rw [decide_eq_false before, decide_eq_false after]

theorem commitStep {stage : CommitStage} (control : m.pc p = .commit stage) :
    (m.commitStep p stage).Grouped := by
  have phase : m.phase p = (LogPc.commit stage).phase := by rw [LogSystem.phase, control]
  cases stage with
  | test =>
    simp only [LogSystem.commitStep]
    split
    case isTrue => exact grouped.move (phase_setPc_same phase.symm) rfl rfl rfl rfl
    case isFalse empty =>
      have none : m.lh = [] := List.length_eq_zero_iff.mp (by omega)
      exact grouped.commitPoint phase (.inr ⟨rfl, none⟩) (phase_setPc m p _) rfl rfl rfl rfl
  | writeLog => exact grouped.move (phase_setPc_same phase.symm) rfl rfl rfl rfl
  | writeHead => exact grouped.commitPoint phase (.inl rfl) (phase_setPc _ p _) rfl rfl rfl rfl
  | installTrans => exact grouped.move (phase_setPc_same phase.symm) rfl rfl rfl rfl
  | clear => exact grouped.clear phase (phase_setPc _ p _) rfl rfl rfl rfl
  | erase => exact grouped.move (phase_setPc_same phase.symm) rfl rfl rfl rfl
  | finish =>
    refine grouped.done phase (fun q => ?_) rfl rfl rfl rfl
    simp only [LogSystem.commitStep, phase_setPc, phase_wakeup]
    rfl

variable {action : LogAction P}

theorem step (moves : Moves m action m') : m'.Grouped := by
  cases moves with
  | sleeps control =>
    exact grouped.move (phase_setPc_same (phase_outside control).symm) rfl rfl rfl rfl
  | begins control idle =>
    exact grouped.admission (phase_outside control) idle (phase_setPc _ _ _) rfl rfl rfl rfl
  | logs control => exact grouped.move (phase_setPc_same (phase_inOp control).symm) rfl rfl rfl rfl
  | lists control =>
    have operating := phase_logging control
    exact grouped.log operating (phase_setPc_same operating.symm) rfl rfl rfl rfl
  | last control none =>
    have one : m.outstanding = 1 := by omega
    refine grouped.finishOp (phase_inOp control) (fun q => ?_) rfl ?_ rfl rfl
    · rw [if_pos one]
      exact phase_setPc _ _ _ q
    · exact (decide_eq_true one).symm
  | @ends p control more =>
    have notOne : m.outstanding ≠ 1 := by omega
    refine grouped.finishOp (phase_inOp control) (fun q => ?_) rfl ?_ rfl rfl
    · rw [if_neg notOne]
      refine (phase_setPc _ p _ q).trans ?_
      rw [phase_wakeup]
      rfl
    · rw [decide_eq_false notOne]
      exact grouped.not_committing (phase_inOp control)
  | commits control => exact grouped.commitStep control

theorem committing_step (committing : m.committing) (moves : Moves m action m') :
    (m'.lh = m.lh ∨ m'.lh = []) ∧
      ((∀ p, action ≠ .commit p) → m'.lh = m.lh ∧ m'.store = m.store) := by
  have none : ∀ {p}, m.phase p ≠ .operating := by
    intro p operating
    rw [grouped.not_committing operating] at committing
    cases committing
  cases moves with
  | sleeps => exact ⟨.inl rfl, fun _ => ⟨rfl, rfl⟩⟩
  | begins => exact ⟨.inl rfl, fun _ => ⟨rfl, rfl⟩⟩
  | logs control => exact absurd (phase_inOp control) none
  | lists control => exact absurd (phase_logging control) none
  | last control => exact absurd (phase_inOp control) none
  | ends control => exact absurd (phase_inOp control) none
  | @commits p stage => exact ⟨m.commitStep_lh p stage, fun other => absurd rfl (other p)⟩

end

end Grouped

theorem booted_grouped (start : BlockNo) (size : Int) (store : Store) :
    (booted start size store : LogSystem P).Grouped where
  counted := ⟨∅, by simp [phase, booted], rfl⟩
  alone := fun _ _ inCommit => by cases inCommit
  marked := fun _ inCommit => by cases inCommit
  quiet := fun _ => rfl
  distinct := List.nodup_nil
  logged := by simp [booted, epoch]
  settled := fun _ _ => rfl
  followed := fun _ => rfl
  whole := by simp [booted]

theorem reached_grouped {start : BlockNo} {size : Int} {store : Store}
    {actions : List (LogAction P)} {m : LogSystem P}
    (reached : Transition.run step (booted start size store) actions = .ok m) : m.Grouped :=
  Transition.run_invariant Grouped (fun _ _ _ grouped taken => grouped.step (moves_of_step taken))
    (booted_grouped start size store) reached

omit [DecidableEq P] in
theorem inCommit_of_commit {m : LogSystem P} {p : P} {stage : CommitStage}
    (control : m.pc p = .commit stage) : (m.phase p).inCommit := by
  rw [phase, control]
  cases stage <;> rfl

theorem setPc_other {m : LogSystem P} {p q : P} (other : q ≠ p) (pc : LogPc) :
    (m.setPc q pc).pc p = m.pc p := by
  simp only [setPc, Function.update_of_ne other.symm]

def stageStore (start : BlockNo) (lh : List BlockNo) (s : Store) : CommitStage → Store
  | .test | .writeLog => s
  | .writeHead => writeLog start 0 lh s
  | .installTrans => writeHead start lh (writeLog start 0 lh s)
  | .clear | .erase => installTrans start 0 lh (writeHead start lh (writeLog start 0 lh s))
  | .finish => Xv6.commit start lh s

/-- A commit has come to a stage since it began in the first of two states: it has written the
header of that state, and recorded it when it passed the commit point. -/
structure CommitOf (m₁ m : LogSystem P) (stage : CommitStage) : Prop where
  start : m.start = m₁.start
  store : m.store = stageStore m₁.start m₁.lh m₁.store stage
  lh : m.lh = if stage = .erase ∨ stage = .finish then [] else m₁.lh
  events : m.events = m₁.events ++
    if (LogPc.commit stage).phase = .pending then [] else [.committed m₁.lh]
  nonempty : stage ≠ .test → stage ≠ .finish → 0 < m₁.lh.length

namespace CommitOf

variable {m₁ m m' : LogSystem P} {stage : CommitStage}

omit [DecidableEq P] in
theorem refl (m : LogSystem P) : CommitOf m m .test :=
  ⟨rfl, rfl, rfl, (List.append_nil _).symm, fun first => absurd rfl first⟩

omit [DecidableEq P] in
theorem congr (commit : CommitOf m₁ m stage) (start : m'.start = m.start)
    (store : m'.store = m.store) (lh : m'.lh = m.lh) (events : m'.events = m.events) :
    CommitOf m₁ m' stage :=
  ⟨start.trans commit.start, store.trans commit.store, lh.trans commit.lh,
    events.trans commit.events, commit.nonempty⟩

theorem step (commit : CommitOf m₁ m stage) {p : P} {next : CommitStage}
    (after : (m.commitStep p stage).pc p = .commit next) :
    CommitOf m₁ (m.commitStep p stage) next := by
  obtain ⟨start, store, lh, events, nonempty⟩ := commit
  cases stage with
  | test =>
    rw [commitStep] at after ⊢
    split at after
    case isTrue some =>
      rw [if_pos some]
      cases (Function.update_self ..).symm.trans after
      have same : m.lh = m₁.lh := lh
      exact ⟨start, store, lh, events, fun _ _ => same ▸ some⟩
    case isFalse none =>
      rw [if_neg none]
      cases (Function.update_self ..).symm.trans after
      have empty : m.lh = [] := List.length_eq_zero_iff.mp (Nat.eq_zero_of_not_pos none)
      have empty₁ : m₁.lh = [] := lh.symm.trans empty
      refine ⟨start, ?_, empty, ?_, fun _ finish => absurd rfl finish⟩
      · refine store.trans ?_
        rw [empty₁]
        rfl
      · show m.events ++ [.committed m.lh] = _
        rw [events, empty, empty₁]
        exact congrArg (· ++ _) (List.append_nil _)
  | writeLog =>
    cases (Function.update_self ..).symm.trans after
    refine ⟨start, ?_, lh, events, fun _ _ => nonempty (by decide) (by decide)⟩
    show Xv6.writeLog m.start 0 m.lh m.store = _
    rw [start, lh, store]
    rfl
  | writeHead =>
    cases (Function.update_self ..).symm.trans after
    refine ⟨start, ?_, lh, ?_, fun _ _ => nonempty (by decide) (by decide)⟩
    · show Xv6.writeHead m.start m.lh m.store = _
      rw [start, lh, store]
      rfl
    · show m.events ++ [.committed m.lh] = _
      rw [events, lh]
      exact congrArg (· ++ _) (List.append_nil _)
  | installTrans =>
    cases (Function.update_self ..).symm.trans after
    refine ⟨start, ?_, lh, events, fun _ _ => nonempty (by decide) (by decide)⟩
    show Xv6.installTrans m.start 0 m.lh m.store = _
    rw [start, lh, store]
    rfl
  | clear =>
    cases (Function.update_self ..).symm.trans after
    exact ⟨start, store, rfl, events, fun _ _ => nonempty (by decide) (by decide)⟩
  | erase =>
    cases (Function.update_self ..).symm.trans after
    refine ⟨start, ?_, lh, events, fun _ finish => absurd rfl finish⟩
    show Xv6.writeHead m.start m.lh m.store = Xv6.commit m₁.start m₁.lh m₁.store
    rw [start, lh, store, Xv6.commit, if_pos (nonempty (by decide) (by decide))]
    rfl
  | finish => cases (Function.update_self ..).symm.trans after

end CommitOf

theorem reached_commit {start : BlockNo} {size : Int} {store : Store} {actions : List (LogAction P)}
    {m : LogSystem P} {p : P} {stage : CommitStage}
    (reached : Transition.run step (booted start size store) actions = .ok m)
    (control : m.pc p = .commit stage) :
    ∃ first later m₁, actions = first ++ later ∧
      Transition.run step (booted start size store) first = .ok m₁ ∧ m₁.pc p = .commit .test ∧
      CommitOf m₁ m stage := by
  induction actions using List.reverseRecOn generalizing m stage with
  | nil =>
    cases reached
    cases control
  | append_singleton rest action ih =>
    obtain ⟨m₀, ran, taken⟩ := Transition.run_concat.mp reached
    have grouped := reached_grouped ran
    have goesOn : ∀ {stage₀}, m₀.pc p = .commit stage₀ →
        (∀ {m₁}, CommitOf m₁ m₀ stage₀ → CommitOf m₁ m stage) →
        ∃ first later m₁, rest ++ [action] = first ++ later ∧
          Transition.run step (booted start size store) first = .ok m₁ ∧
          m₁.pc p = .commit .test ∧ CommitOf m₁ m stage := by
      intro stage₀ before next
      obtain ⟨first, later, m₁, rfl, begun, test, commit⟩ := ih ran before
      exact ⟨first, later ++ [action], m₁, List.append_assoc .., begun, test, next commit⟩
    -- a process that was moved out of `commit`, or in an operation, is another one, which a
    -- process in `commit` excludes
    have excluded : ∀ {q : P} {pc : LogPc} {m₂ : LogSystem P}, m₀.phase q = .operating →
        m.pc p = (setPc m₂ q pc).pc p → (∀ stage, pc ≠ .commit stage) → m₂.pc p = m₀.pc p →
        False := by
      intro q pc m₂ operating moved elsewhere same
      have other : q ≠ p := by
        rintro rfl
        refine elsewhere stage ?_
        rw [← control, moved]
        exact (Function.update_self q pc m₂.pc).symm
      rw [setPc_other other, same] at moved
      exact grouped.not_operating (inCommit_of_commit (moved.symm.trans control)) q operating
    cases moves_of_step taken with
    | @sleeps q busy =>
      have other : q ≠ p := by
        rintro rfl
        cases (Function.update_self ..).symm.trans control
      exact goesOn ((setPc_other other _).symm.trans control) fun commit =>
        commit.congr rfl rfl rfl rfl
    | @begins q outside idle =>
      have other : q ≠ p := by
        rintro rfl
        cases (Function.update_self ..).symm.trans control
      have before : m₀.pc p = .commit stage := (setPc_other other _).symm.trans control
      have committing := grouped.marked p (inCommit_of_commit before)
      rw [idle] at committing
      cases committing
    | logs inOp => exact (excluded (phase_inOp inOp) rfl nofun rfl).elim
    | lists logging => exact (excluded (phase_logging logging) rfl nofun rfl).elim
    | @last q inOp =>
      by_cases same : q = p
      · subst same
        cases (Function.update_self ..).symm.trans control
        exact ⟨_, [], _, (List.append_nil _).symm, reached, control, .refl _⟩
      · have before : m₀.pc p = .commit stage := (setPc_other same _).symm.trans control
        exact (grouped.not_operating (inCommit_of_commit before) q (phase_inOp inOp)).elim
    | @ends q inOp =>
      have other : q ≠ p := by
        rintro rfl
        cases (Function.update_self ..).symm.trans control
      have before : (m₀.wakeup.phase p).inCommit :=
        inCommit_of_commit ((setPc_other other _).symm.trans control)
      rw [phase_wakeup] at before
      exact (grouped.not_operating before q (phase_inOp inOp)).elim
    | @commits q stage₀ atStage =>
      by_cases same : q = p
      · subst same
        exact goesOn atStage fun commit => commit.step control
      · refine absurd (grouped.alone q p (inCommit_of_commit atStage) ?_) same
        have kept : (m₀.commitStep q stage₀).phase p = m₀.phase p := by
          have move : ∀ (m₂ : LogSystem P) pc, (m₂.setPc q pc).phase p = m₂.phase p := by
            intro m₂ pc
            rw [phase_setPc, if_neg (Ne.symm same)]
          cases stage₀ with
          | test =>
            rw [commitStep]
            split <;> exact move m₀ _
          | finish => exact (move _ _).trans (phase_wakeup _ p)
          | _ => exact move _ _
        rw [← kept]
        exact inCommit_of_commit control

theorem writes_of_moves {m m' : LogSystem P} {action : LogAction P} (moves : Moves m action m')
    (other : ∀ p, action ≠ .commit p) :
    m'.store.writes = m.store.writes ∧ m'.store.disk = m.store.disk := by
  cases moves with
  | @commits p => exact absurd rfl (other p)
  | _ => exact ⟨rfl, rfl⟩

/-- **Group commit.** In every interleaving of operations one process at most is in `commit`;
while `committing` is set nothing is outstanding and no step extends the header. A commit writes
what the header listed when it began: its blocks to the log, the header, the blocks to their places
and an empty header, and nothing else is written to the disk in between or by any other step. What
it listed were, once each, the blocks logged by operations that began and ended since the commit
before, so that no commit falls inside an operation. -/
theorem group_commit_whole (start : BlockNo) (size : Int) (store : Store)
    (actions : List (LogAction P)) (m : LogSystem P)
    (reached : Transition.run step (booted start size store) actions = .ok m) :
    (∀ p q stage stage', m.pc p = .commit stage → m.pc q = .commit stage' → p = q) ∧
    (∀ p stage, m.pc p = .commit stage → m.committing) ∧
    (m.committing → m.outstanding = 0 ∧ ∀ action m', m.step action = .ok m' →
      (m'.lh = m.lh ∨ m'.lh = []) ∧
      ((∀ p, action ≠ .commit p) → m'.lh = m.lh ∧ m'.store = m.store)) ∧
    (∀ p stage, m.pc p = .commit stage → ∃ first later m₁, actions = first ++ later ∧
      Transition.run step (booted start size store) first = .ok m₁ ∧ m₁.pc p = .commit .test ∧
      LogEvent.Whole m₁.events m₁.lh ∧ CommitOf m₁ m stage ∧
      (stage = .finish → m.store.writes.map Prod.fst =
        m₁.store.writes.map Prod.fst ++ commitBlocks m₁.start m₁.lh)) ∧
    (∀ action m', m.step action = .ok m' → (∀ p, action ≠ .commit p) →
      m'.store.writes = m.store.writes ∧ m'.store.disk = m.store.disk) ∧
    (∀ before blocks after, m.events = before ++ .committed blocks :: after →
      LogEvent.Whole before blocks) ∧
    (∀ before middle after p blocks,
      m.events = before ++ .began p :: (middle ++ .committed blocks :: after) →
        .ended p ∈ middle) := by
  have grouped := reached_grouped reached
  refine ⟨?_, ?_, ?_, ?_, ?_, grouped.whole, LogEvent.ended_before_commit grouped.whole⟩
  · intro p q stage stage' first second
    exact grouped.alone p q (inCommit_of_commit first) (inCommit_of_commit second)
  · intro p stage control
    exact grouped.marked p (inCommit_of_commit control)
  · intro committing
    exact ⟨grouped.quiet committing,
      fun action m' taken => grouped.committing_step committing (moves_of_step taken)⟩
  · intro p stage control
    obtain ⟨first, later, m₁, split, begun, test, commit⟩ := reached_commit reached control
    have whole := (reached_grouped begun).whole_of_pending (p := p) (by rw [phase, test]; rfl)
    refine ⟨first, later, m₁, split, begun, test, whole, commit, ?_⟩
    rintro rfl
    rw [commit.store]
    exact commit_blocks ..
  · exact fun action m' taken other => writes_of_moves (moves_of_step taken) other

/-- Two processes: the first begins, the second begins and logs block 40 and ends, the first logs
blocks 40 and 41 and ends, which commits both operations. -/
def groupsTwo : List (LogAction Bool) :=
  [.beginOp false, .beginOp true, .logWrite true 40 (fun _ => 1), .append true, .endOp true,
    .logWrite false 40 (fun _ => 2), .append false, .logWrite false 41 (fun _ => 3), .append false,
    .endOp false] ++ List.replicate 6 (.commit false)

/-- The commit of the two operations is whole and writes their two blocks. -/
theorem group_commit_whole_two :
    ∃ m m₁ : LogSystem Bool,
      Transition.run step (booted 2 30 (Store.boot fun _ _ => 0)) groupsTwo = .ok m ∧
      m.events = m₁.events ++ [.committed [40, 41]] ∧ LogEvent.Whole m₁.events [40, 41] ∧
      m.store.writes.map Prod.fst = m₁.store.writes.map Prod.fst ++ [3, 4, 2, 40, 41, 2] := by
  have checked : Transition.ends (fun m : LogSystem Bool =>
      decide (m.pc false = .commit .finish ∧ m.events = [.began false, .began true,
        .logged true 40, .ended true, .logged false 40, .logged false 41, .ended false] ++
          [.committed [40, 41]] ∧ m.start = 2))
      (Transition.run step (booted 2 30 (Store.boot fun _ _ => 0)) groupsTwo) = true := by
    decide +kernel
  obtain ⟨m, reached, facts⟩ := Transition.exists_of_ends checked
  obtain ⟨control, events, start⟩ := of_decide_eq_true facts
  obtain ⟨_, _, m₁, -, -, -, whole, commit, writes⟩ :=
    (group_commit_whole 2 30 _ groupsTwo m reached).2.2.2.1 false .finish control
  have recorded : m.events = m₁.events ++ [.committed m₁.lh] := commit.events
  obtain ⟨-, last⟩ := List.append_inj' (events.symm.trans recorded) rfl
  obtain ⟨blocks, -⟩ := List.cons.inj last
  have lh : m₁.lh = [40, 41] := (LogEvent.committed.inj blocks).symm
  have start₁ : m₁.start = 2 := commit.start.symm.trans start
  rw [lh] at recorded whole
  refine ⟨m, m₁, reached, recorded, whole, ?_⟩
  rw [writes rfl, lh, start₁]
  rfl

end LogSystem

end Xv6
