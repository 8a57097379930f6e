import Xv6.Log.Group

/-!
# Waiting for the log

A process sleeps in `begin_op` while a commit is under way or while the log has no room for its
operation. With nothing outstanding and no commit under way the in-memory header is empty and
there is room, so whoever sleeps has an operation or a commit to wait for. Each of them wakes
all sleepers when it leaves: the last `end_op` through its commit, every other one directly.
-/

namespace Xv6

namespace LogSystem

variable {P : Type} [DecidableEq P]

def Active (m : LogSystem P) (p : P) : Prop := m.phase p ≠ .outside

def Wakes (p : P) (m : LogSystem P) (action : LogAction P) (m' : LogSystem P) : Prop :=
  (∃ q, action = .endOp q ∨ action = .commit q) ∧ m.pc p = .asleep ∧ m'.pc p = .woken

structure Attended (m : LogSystem P) : Prop where
  grouped : m.Grouped
  asleep : ∀ p, m.pc p = .asleep → m.committing = true ∨ 0 < m.outstanding
  empty : m.outstanding = 0 → m.committing = false → m.lh = []
  driven : m.committing = true → ∃ p, (m.phase p).inCommit = true

omit [DecidableEq P] in
theorem pc_wakeup (m : LogSystem P) (p : P) : m.wakeup.pc p ≠ .asleep := by
  show (if m.pc p = .asleep then LogPc.woken else m.pc p) ≠ .asleep
  split
  case isTrue => nofun
  case isFalse awake => exact awake

theorem pc_wakeup_setPc (m : LogSystem P) (p q : P) {pc : LogPc} (awake : pc ≠ .asleep) :
    (m.wakeup.setPc p pc).pc q ≠ .asleep := by
  show Function.update m.wakeup.pc p pc q ≠ .asleep
  rw [Function.update_apply]
  split
  case isTrue => exact awake
  case isFalse => exact pc_wakeup m q

namespace Attended

variable {m m' : LogSystem P}

theorem outstanding_nonneg (attended : m.Attended) : 0 ≤ m.outstanding := by
  obtain ⟨ops, _, count⟩ := attended.grouped.counted
  omega

variable {p : P}

theorem cleared (attended : m.Attended) (cleared : m.phase p = .cleared) : m.lh = [] := by
  have others : ∀ q, m.phase q ≠ .installing := by
    intro q installing
    have same := attended.grouped.alone q p (by rw [installing]; rfl) (by rw [cleared]; rfl)
    rw [same, cleared] at installing
    cases installing
  apply List.eq_nil_iff_forall_not_mem.mpr
  intro b member
  obtain ⟨q, logged⟩ := (attended.grouped.logged others b).mp member
  rw [attended.grouped.settled p (.inr cleared)] at logged
  cases logged

theorem operate (attended : m.Attended) (grouped : m'.Grouped) (operating : m.phase p = .operating)
    (outstanding : m'.outstanding = m.outstanding) (committing : m'.committing = m.committing) :
    m'.Attended := by
  have positive := attended.grouped.outstanding_pos operating
  have idle := attended.grouped.not_committing operating
  rw [← outstanding] at positive
  refine ⟨grouped, fun _ _ => .inr positive, fun none => ?_, fun under => ?_⟩
  · omega
  · rw [committing, idle] at under
    cases under

theorem commitStep (attended : m.Attended) {stage : CommitStage}
    (control : m.pc p = .commit stage) :
    (m.commitStep p stage).Attended := by
  have grouped := attended.grouped.commitStep control
  have inCommit := inCommit_of_commit control
  have committing := attended.grouped.marked p inCommit
  -- all stages but the last leave the commit under way, at another stage of it
  have within : ∀ (m' : LogSystem P) (next : CommitStage), m'.Grouped →
      m'.pc p = .commit next → m'.committing = m.committing → m'.Attended := by
    intro m' next grouped control' same
    rw [committing] at same
    refine ⟨grouped, fun _ _ => .inl same, fun _ idle => ?_, fun _ => ⟨p, ?_⟩⟩
    · rw [same] at idle
      cases idle
    · exact inCommit_of_commit control'
  have here : ∀ (m' : LogSystem P) (pc : LogPc), (m'.setPc p pc).pc p = pc := by
    intro m' pc
    simp [setPc]
  cases stage with
  | test =>
    by_cases some : 0 < m.lh.length
    · have unfolded : m.commitStep p .test = m.setPc p (.commit .writeLog) := if_pos some
      rw [unfolded] at grouped ⊢
      exact within _ .writeLog grouped (here m _) rfl
    · have unfolded : m.commitStep p .test =
          (m.setPc p (.commit .finish)).record (.committed m.lh) := if_neg some
      rw [unfolded] at grouped ⊢
      exact within _ .finish grouped (here m _) rfl
  | writeLog => exact within _ .writeHead grouped (here _ _) rfl
  | writeHead => exact within _ .installTrans grouped (here _ _) rfl
  | installTrans => exact within _ .clear grouped (here _ _) rfl
  | clear => exact within _ .erase grouped (here _ _) rfl
  | erase => exact within _ .finish grouped (here _ _) rfl
  | finish =>
    have empty : m.lh = [] := attended.cleared (p := p) (by rw [LogSystem.phase, control]; rfl)
    refine ⟨grouped, fun q asleep => ?_, fun _ _ => empty, fun under => by cases under⟩
    exact absurd asleep (pc_wakeup_setPc { m with committing := false } p q (by rintro ⟨⟩))

theorem busy (attended : m.Attended) (busy : m.committing ∨
    (m.lh.length : Int) + (m.outstanding + 1) * maxOpBlocks > logSize) :
    m.committing = true ∨ 0 < m.outstanding := by
  by_contra idle
  rw [not_or, Bool.not_eq_true] at idle
  rcases busy with committing | full
  · rw [idle.1] at committing
    cases committing
  · -- an empty log has room for an operation
    have nonneg := attended.outstanding_nonneg
    have zero : m.outstanding = 0 := by omega
    rw [zero, attended.empty zero idle.1] at full
    exact absurd full (by decide)

theorem step (attended : m.Attended) {action : LogAction P} (moves : Moves m action m') :
    m'.Attended := by
  have grouped := attended.grouped.step moves
  cases moves with
  | @sleeps p control full =>
    refine ⟨grouped, fun _ _ => attended.busy full, attended.empty, fun committing => ?_⟩
    obtain ⟨q, inCommit⟩ := attended.driven committing
    have same : LogPc.asleep.phase = m.phase p := (phase_outside control).symm
    exact ⟨q, by rw [phase_setPc_same same]; exact inCommit⟩
  | begins control idle =>
    have nonneg := attended.outstanding_nonneg
    refine ⟨grouped, fun _ _ => .inr ?_, fun none => ?_, fun committing => ?_⟩
    · show 0 < m.outstanding + 1
      omega
    · have sum : m.outstanding + 1 = 0 := none
      omega
    · exact absurd idle (by rw [show m.committing = true from committing]; rintro ⟨⟩)
  | logs control => exact attended.operate grouped (phase_inOp control) rfl rfl
  | lists control => exact attended.operate grouped (phase_logging control) rfl rfl
  | @last p control =>
    refine ⟨grouped, fun _ _ => .inl rfl, fun _ under => (by cases under), fun _ => ⟨p, ?_⟩⟩
    show ((Function.update m.pc p (.commit .test)) p).phase.inCommit = true
    rw [Function.update_self]
    rfl
  | @ends p control more =>
    have idle := attended.grouped.not_committing (phase_inOp control)
    refine ⟨grouped, fun q asleep => ?_, fun none => absurd none more, fun under => ?_⟩
    · exact absurd asleep (pc_wakeup_setPc { m with outstanding := m.outstanding - 1 } p q
        (by rintro ⟨⟩))
    · cases idle.symm.trans under
  | commits control => exact attended.commitStep control

theorem exists_active (attended : m.Attended) (asleep : m.pc p = .asleep) : ∃ q, m.Active q := by
  rcases attended.asleep p asleep with committing | outstanding
  · obtain ⟨q, inCommit⟩ := attended.driven committing
    refine ⟨q, fun outside => ?_⟩
    rw [outside] at inCommit
    cases inCommit
  · obtain ⟨ops, member, count⟩ := attended.grouped.counted
    obtain ⟨q, inside⟩ := Finset.card_pos.mp (show 0 < ops.card by omega)
    refine ⟨q, fun outside => ?_⟩
    rw [(member q).mp inside] at outside
    cases outside

end Attended

theorem booted_attended (start : BlockNo) (size : Int) (store : Store) :
    (booted start size store : LogSystem P).Attended where
  grouped := booted_grouped start size store
  asleep := fun _ asleep => by cases asleep
  empty := fun _ _ => rfl
  driven := fun committing => by cases committing

theorem sleeper_step {m m' : LogSystem P} {p q : P} {action : LogAction P}
    (asleep : m.pc p = .asleep) (active : m.Active q) (moves : Moves m action m') :
    (m'.pc p = .asleep ∧ m'.Active q) ∨ Wakes p m action m' := by
  -- a process that moves from outside to wherever, or inside its operation, leaves the rest alone
  have apart : ∀ {r : P} (pc : LogPc), m.pc r ≠ .asleep → (m.phase r ≠ .outside →
      pc.phase ≠ .outside) → (m.setPc r pc).pc p = .asleep ∧ (m.setPc r pc).Active q := by
    intro r pc awake stays
    have other : p ≠ r := fun same => awake (same ▸ asleep)
    refine ⟨(setPc_other other.symm pc).trans asleep, ?_⟩
    unfold Active
    rw [phase_setPc]
    split
    case isTrue same => exact stays (same ▸ active)
    case isFalse => exact active
  -- after a wakeup the sleeper is about to test again
  have woken : ∀ {n : LogSystem P} {r : P} (pc : LogPc), n.pc p = .asleep → m.pc r ≠ .asleep →
      (n.wakeup.setPc r pc).pc p = .woken := by
    intro n r pc sleeps awake
    have other : p ≠ r := fun same => awake (same ▸ asleep)
    exact (setPc_other other.symm pc).trans (if_pos sleeps)
  have begins : ∀ {r : P}, m.pc r = .idle ∨ m.pc r = .woken → m.pc r ≠ .asleep := by
    rintro r (control | control) <;> rw [control] <;> rintro ⟨⟩
  cases moves with
  | sleeps control =>
    exact .inl (apart .asleep (begins control) fun inside => absurd (phase_outside control) inside)
  | begins control =>
    exact .inl (apart .inOp (begins control) fun inside => absurd (phase_outside control) inside)
  | logs control =>
    exact .inl (apart (.logging _) (by rw [control]; rintro ⟨⟩) fun _ => by rintro ⟨⟩)
  | lists control => exact .inl (apart .inOp (by rw [control]; rintro ⟨⟩) fun _ => by rintro ⟨⟩)
  | last control =>
    exact .inl (apart (.commit .test) (by rw [control]; rintro ⟨⟩) fun _ => by rintro ⟨⟩)
  | @ends r control =>
    exact .inr ⟨⟨r, .inl rfl⟩, asleep, woken .idle asleep (by rw [control]; rintro ⟨⟩)⟩
  | @commits r stage control =>
    have awake : m.pc r ≠ .asleep := by rw [control]; rintro ⟨⟩
    cases stage with
    | test =>
      simp only [commitStep]
      split
      · exact .inl (apart (.commit .writeLog) awake (fun _ => by rintro ⟨⟩))
      · exact .inl (apart (.commit .finish) awake (fun _ => by rintro ⟨⟩))
    | writeLog => exact .inl (apart (.commit .writeHead) awake (fun _ => by rintro ⟨⟩))
    | writeHead => exact .inl (apart (.commit .installTrans) awake (fun _ => by rintro ⟨⟩))
    | installTrans => exact .inl (apart (.commit .clear) awake (fun _ => by rintro ⟨⟩))
    | clear => exact .inl (apart (.commit .erase) awake (fun _ => by rintro ⟨⟩))
    | erase => exact .inl (apart (.commit .finish) awake (fun _ => by rintro ⟨⟩))
    | finish => exact .inr ⟨⟨r, .inr rfl⟩, asleep, woken .idle asleep awake⟩

/-- `begin_op` strands nobody. In every state that a run reaches, a process asleep in it has a
commit or an operation to wait for, and with neither the header is empty. Some process is active
while another sleeps, and before any active process has left, the sleeper has been woken by an
`end_op` or a commit. -/
theorem begin_op_strands_nobody (start : BlockNo) (size : Int) (store : Store)
    (actions : List (LogAction P)) (m : LogSystem P)
    (reached : Transition.run step (booted start size store) actions = .ok m) :
    (∀ p, m.pc p = .asleep → m.committing = true ∨ 0 < m.outstanding) ∧
    (m.outstanding = 0 → m.committing = false → m.lh = []) ∧
    ∀ p, m.pc p = .asleep → (∃ q, m.Active q) ∧
      ∀ more m', Transition.run step m more = .ok m' →
        (∃ q, m.Active q ∧ ¬ m'.Active q) → Transition.Occurs step (Wakes p) m more := by
  have attended : m.Attended :=
    Transition.run_invariant Attended
      (fun _ _ _ attended taken => attended.step (moves_of_step taken))
      (booted_attended start size store) reached
  refine ⟨attended.asleep, attended.empty, fun p asleep => ⟨attended.exists_active asleep, ?_⟩⟩
  rintro more m' ran ⟨q, active, left⟩
  have stage := Transition.run_stage (fun m : LogSystem P => m.pc p = .asleep ∧ m.Active q)
    (Wakes p) (fun _ _ _ holds taken => sleeper_step holds.1 holds.2 (moves_of_step taken))
    ⟨asleep, active⟩ ran
  rcases stage with stays | occurs
  · exact absurd stays.2 left
  · exact occurs

/-- Three processes are admitted and a fourth sleeps, with operations to wait for. -/
theorem begin_op_strands_nobody_fourth :
    ∃ m : LogSystem (Fin 4), Transition.run step (booted 2 logSize (Store.boot fun _ _ => 0))
        [.beginOp 0, .beginOp 1, .beginOp 2, .beginOp 3] = .ok m ∧
      m.pc 3 = .asleep ∧ (m.committing = true ∨ 0 < m.outstanding) := by
  have checked : Transition.ends (fun m : LogSystem (Fin 4) => decide (m.pc 3 = .asleep))
      (Transition.run step (booted 2 logSize (Store.boot fun _ _ => 0))
        [.beginOp 0, .beginOp 1, .beginOp 2, .beginOp 3]) = true := by
    decide +kernel
  obtain ⟨m, reached, facts⟩ := Transition.exists_of_ends checked
  have asleep := of_decide_eq_true facts
  exact ⟨m, reached, asleep, (begin_op_strands_nobody 2 _ _ _ m reached).1 3 asleep⟩

end LogSystem

end Xv6
