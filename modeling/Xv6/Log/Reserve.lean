import Xv6.Library.Shares
import Xv6.Log.Group

/-!
# Log space

The admission test of `begin_op` reserves `MAXOPBLOCKS` blocks for every operation. What is
listed and what the admitted operations may still list never exceeds `LOGSIZE`, so the header
never overflows. The log region that `mkfs` makes has `LOGSIZE` blocks, one of them the header;
the test of `log_write` is against the blocks behind it, and it comes before the search for a
block that is already listed, so that an admission has to leave two blocks over.
-/

namespace Xv6

namespace LogEvent

variable {P : Type} [DecidableEq P]

def written (p : P) (events : List (LogEvent P)) : Finset BlockNo :=
  events.foldl (fun blocks event => match event with
    | .began q => if q = p then ∅ else blocks
    | .logged q b => if q = p then insert b blocks else blocks
    | _ => blocks) ∅

def operating (events : List (LogEvent P)) : Finset P :=
  events.foldl (fun ops event => match event with
    | .began p => insert p ops
    | .ended p => ops.erase p
    | _ => ops) ∅

@[simp]
theorem written_concat (p : P) (events : List (LogEvent P)) (event : LogEvent P) :
    written p (events ++ [event]) = match event with
      | .began q => if q = p then ∅ else written p events
      | .logged q b => if q = p then insert b (written p events) else written p events
      | _ => written p events := by
  simp only [written, List.foldl_append, List.foldl_cons, List.foldl_nil]

@[simp]
theorem operating_concat (events : List (LogEvent P)) (event : LogEvent P) :
    operating (events ++ [event]) = match event with
      | .began p => insert p (operating events)
      | .ended p => (operating events).erase p
      | _ => operating events := by
  simp only [operating, List.foldl_append, List.foldl_cons, List.foldl_nil]

end LogEvent

open LogEvent (written operating written_concat operating_concat)

theorem absorb_toFinset (b : BlockNo) (lh : List BlockNo) :
    (absorb b lh).toFinset = insert b lh.toFinset := by
  ext c
  rw [List.mem_toFinset, mem_absorb, Finset.mem_insert, List.mem_toFinset]

namespace LogSystem

variable {P : Type} [DecidableEq P]

theorem setPc_self (m : LogSystem P) (p : P) (pc : LogPc) : (m.setPc p pc).pc p = pc := by
  simp only [setPc, Function.update_self]

def WithinOp (m : LogSystem P) : LogAction P → Prop
  | .logWrite p b _ => (insert b (written p m.events)).card ≤ maxOpBlocks
  | _ => True

instance (m : LogSystem P) : (action : LogAction P) → Decidable (m.WithinOp action)
  | .logWrite p b _ =>
    inferInstanceAs (Decidable ((insert b (written p m.events)).card ≤ maxOpBlocks))
  | .beginOp _ | .append _ | .endOp _ | .commit _ => inferInstanceAs (Decidable True)

/-- The blocks that a process has taken of its share: those it logged in its operation and the one
it is logging. -/
def claimed (m : LogSystem P) (p : P) : Finset BlockNo :=
  match m.pc p with
  | .logging b => insert b (written p m.events)
  | _ => written p m.events

def demand (m : LogSystem P) : Nat :=
  Shares.demand maxOpBlocks m.lh.toFinset (operating m.events) m.claimed

/-- An operation that `begin_op` lets through leaves two blocks of `LOGSIZE` over, should it and
the others use up their shares. -/
def Admits (m : LogSystem P) : LogAction P → Prop
  | .beginOp _ => m.committing = false →
    (m.lh.length : Int) + (m.outstanding + 1) * maxOpBlocks ≤ logSize →
      m.demand + maxOpBlocks ≤ logSize - 2
  | _ => True

instance (m : LogSystem P) : (action : LogAction P) → Decidable (m.Admits action)
  | .beginOp _ => inferInstanceAs (Decidable (m.committing = false →
      (m.lh.length : Int) + (m.outstanding + 1) * maxOpBlocks ≤ logSize →
        m.demand + maxOpBlocks ≤ logSize - 2))
  | .logWrite .. | .append _ | .endOp _ | .commit _ => inferInstanceAs (Decidable True)

def Continues (m : LogSystem P) (action : LogAction P) : Prop :=
  m.WithinOp action ∧ ∀ p, action ≠ .beginOp p

/-- Whatever the operations in progress log within their shares, there is room for it. -/
def Safe (m : LogSystem P) : Prop :=
  ∀ later m', Transition.Along step Continues m later → Transition.run step m later = .ok m' →
    ∀ p b data, m'.WithinOp (.logWrite p b data) →
      m'.step (.logWrite p b data) ≠ .error (.panic "too big a transaction")

section Claimed

variable {m m' : LogSystem P} {p : P} {b : BlockNo}

theorem claimed_logging (control : m.pc p = .logging b) :
    m.claimed p = insert b (written p m.events) := by
  rw [claimed, control]

theorem claimed_eq (elsewhere : ∀ b, m.pc p ≠ .logging b) : m.claimed p = written p m.events := by
  rw [claimed]
  split
  case h_1 b control => exact absurd control (elsewhere b)
  case h_2 => rfl

theorem claimed_congr (pc : m'.pc p = m.pc p)
    (same : written p m'.events = written p m.events) : m'.claimed p = m.claimed p := by
  rw [claimed, claimed, pc, same]

theorem claimed_setPc {pc : LogPc} (before : ∀ b, m.pc p ≠ .logging b)
    (after : ∀ b, pc ≠ .logging b) (q : P) : (m.setPc p pc).claimed q = m.claimed q := by
  by_cases same : q = p
  · subst same
    rw [claimed_eq before, claimed_eq]
    · rfl
    · intro b control
      exact after b ((setPc_self m q pc).symm.trans control)
  · exact claimed_congr (setPc_other (Ne.symm same) pc) rfl

end Claimed

/-- What is claimed is within the shares, what is logged is listed, and what may come to be listed
stays within a limit. -/
structure Reserved (limit : Nat) (m : LogSystem P) : Prop where
  grouped : m.Grouped
  tracked : ∀ p, p ∈ operating m.events ↔ m.phase p = .operating
  share : ∀ p, m.phase p = .operating → (m.claimed p).card ≤ maxOpBlocks
  listed : ∀ p, m.phase p = .operating → written p m.events ⊆ m.lh.toFinset
  room : m.demand ≤ limit

namespace Reserved

variable {limit : Nat} {m m' : LogSystem P} {p : P} {b : BlockNo}

theorem fits (reserved : m.Reserved limit) : m.lh.length ≤ limit := by
  rw [← List.toFinset_card_of_nodup reserved.grouped.distinct]
  exact Shares.card_le_demand.trans reserved.room

theorem count (reserved : m.Reserved limit) : m.outstanding = (operating m.events).card := by
  obtain ⟨ops, member, count⟩ := reserved.grouped.counted
  have same : ops = operating m.events := by
    ext p
    rw [member, reserved.tracked]
  rw [count, same]

theorem demand_le (reserved : m.Reserved limit)
    (test : (m.lh.length : Int) + (m.outstanding + 1) * maxOpBlocks ≤ logSize) :
    m.demand + maxOpBlocks ≤ logSize := by
  have bound : m.demand ≤ m.lh.toFinset.card + (operating m.events).card * maxOpBlocks :=
    Shares.demand_le fun p member => reserved.share p ((reserved.tracked p).mp member)
  rw [List.toFinset_card_of_nodup reserved.grouped.distinct] at bound
  rw [reserved.count] at test
  simp only [maxOpBlocks, logSize] at bound test ⊢
  omega

theorem of_none (grouped : m.Grouped) (none : ∀ q, m.phase q ≠ .operating)
    (operations : operating m.events = ∅) (fits : m.lh.length ≤ limit) : m.Reserved limit where
  grouped := grouped
  tracked := fun p => by
    rw [operations]
    exact iff_of_false (Finset.notMem_empty p) (none p)
  share := fun p operating => absurd operating (none p)
  listed := fun p operating => absurd operating (none p)
  room := by
    rw [demand, operations, Shares.demand_empty, List.toFinset_card_of_nodup grouped.distinct]
    exact fits

section

variable (reserved : m.Reserved limit) (grouped : m'.Grouped)
include reserved grouped

theorem move (phase : ∀ q, m'.phase q = m.phase q) (lh : m'.lh = m.lh)
    (events : m'.events = m.events) (claimed : ∀ q, m'.claimed q = m.claimed q) :
    m'.Reserved limit := by
  refine ⟨grouped, ?_, ?_, ?_, ?_⟩
  · intro q
    rw [events, phase]
    exact reserved.tracked q
  · intro q operating
    rw [phase] at operating
    rw [claimed]
    exact reserved.share q operating
  · intro q operating
    rw [phase] at operating
    rw [events, lh]
    exact reserved.listed q operating
  · rw [demand, lh, events, Shares.demand_congr fun q _ => claimed q]
    exact reserved.room

theorem admission (outside : m.phase p ≠ .operating) (room : m.demand + maxOpBlocks ≤ limit)
    (phase : ∀ q, m'.phase q = if q = p then .operating else m.phase q) (lh : m'.lh = m.lh)
    (events : m'.events = m.events ++ [.began p]) (control : m'.pc p = .inOp)
    (others : ∀ q, q ≠ p → m'.pc q = m.pc q) :
    m'.Reserved limit ∧ m'.demand = m.demand + maxOpBlocks := by
  have operations : operating m'.events = insert p (operating m.events) := by
    rw [events, operating_concat]
  have nothing : written p m'.events = ∅ := by
    rw [events, written_concat]
    exact if_pos rfl
  have same : ∀ q, q ≠ p → written q m'.events = written q m.events := by
    intro q other
    rw [events, written_concat]
    exact if_neg (Ne.symm other)
  have mine : m'.claimed p = ∅ := by
    rw [claimed_eq (fun b logging => by cases control.symm.trans logging), nothing]
  have theirs : ∀ q, q ≠ p → m'.claimed q = m.claimed q := fun q other =>
    claimed_congr (others q other) (same q other)
  have new : p ∉ operating m.events := fun member => outside ((reserved.tracked p).mp member)
  have raised : m'.demand = m.demand + maxOpBlocks := by
    rw [demand, lh, operations, Shares.demand_insert new mine]
    refine congrArg (· + maxOpBlocks) (Shares.demand_congr fun q member => theirs q ?_)
    rintro rfl
    exact new member
  refine ⟨⟨grouped, ?_, ?_, ?_, raised ▸ room⟩, raised⟩
  · intro q
    rw [operations, phase, Finset.mem_insert, reserved.tracked]
    by_cases same : q = p
    · rw [if_pos same]
      exact iff_of_true (.inl same) rfl
    · rw [if_neg same]
      exact or_iff_right same
  · intro q inside
    by_cases same : q = p
    · rw [same, mine]
      exact Nat.zero_le _
    · rw [phase, if_neg same] at inside
      rw [theirs q same]
      exact reserved.share q inside
  · intro q inside
    by_cases equal : q = p
    · rw [equal, nothing]
      exact Finset.empty_subset _
    · rw [phase, if_neg equal] at inside
      rw [same q equal, lh]
      exact reserved.listed q inside

theorem claim (control : m.pc p = .inOp)
    (share : (insert b (written p m.events)).card ≤ maxOpBlocks)
    (phase : ∀ q, m'.phase q = m.phase q) (lh : m'.lh = m.lh) (events : m'.events = m.events)
    (logging : m'.pc p = .logging b) (others : ∀ q, q ≠ p → m'.pc q = m.pc q) :
    m'.Reserved limit ∧ (b ∉ m.lh.toFinset ∪ (operating m.events).biUnion m.claimed →
      (m.claimed p).card < maxOpBlocks → m'.demand = m.demand) := by
  have mine : m.claimed p = written p m.events :=
    claimed_eq fun b logging => by cases control.symm.trans logging
  have now : m'.claimed = Function.update m.claimed p (insert b (m.claimed p)) := by
    funext q
    by_cases same : q = p
    · subst same
      rw [Function.update_self, claimed_logging logging, events, mine]
    · rw [Function.update_of_ne same]
      exact claimed_congr (others q same) (by rw [events])
  have member : p ∈ operating m.events := (reserved.tracked p).mpr (phase_inOp control)
  have demanded : m'.demand = Shares.demand maxOpBlocks m.lh.toFinset (operating m.events)
      (Function.update m.claimed p (insert b (m.claimed p))) := by
    rw [demand, lh, events, now]
  refine ⟨⟨grouped, ?_, ?_, ?_, ?_⟩, ?_⟩
  · intro q
    rw [events, phase]
    exact reserved.tracked q
  · intro q inside
    rw [phase] at inside
    by_cases same : q = p
    · rw [same, claimed_logging logging, events]
      exact share
    · rw [now, Function.update_of_ne same]
      exact reserved.share q inside
  · intro q inside
    rw [phase] at inside
    rw [events, lh]
    exact reserved.listed q inside
  · rw [demanded]
    exact (Shares.demand_claim_le member (mine ▸ share)).trans reserved.room
  · intro fresh left
    rw [demanded]
    exact Shares.demand_claim_fresh member left fresh

theorem list (control : m.pc p = .logging b) (phase : ∀ q, m'.phase q = m.phase q)
    (lh : m'.lh = absorb b m.lh) (events : m'.events = m.events ++ [.logged p b])
    (inOp : m'.pc p = .inOp) (others : ∀ q, q ≠ p → m'.pc q = m.pc q) :
    m'.Reserved limit ∧ (∀ q, m'.claimed q = m.claimed q) ∧ m'.demand = m.demand := by
  have operations : operating m'.events = operating m.events := by
    rw [events, operating_concat]
  have more : written p m'.events = insert b (written p m.events) := by
    rw [events, written_concat]
    exact if_pos rfl
  have same : ∀ q, q ≠ p → written q m'.events = written q m.events := by
    intro q other
    rw [events, written_concat]
    exact if_neg (Ne.symm other)
  have claims : ∀ q, m'.claimed q = m.claimed q := by
    intro q
    by_cases equal : q = p
    · subst equal
      rw [claimed_logging control, claimed_eq (fun b logging => by cases inOp.symm.trans logging),
        more]
    · exact claimed_congr (others q equal) (same q equal)
  have member : p ∈ operating m.events := (reserved.tracked p).mpr (phase_logging control)
  have mine : b ∈ m.claimed p := by
    rw [claimed_logging control]
    exact Finset.mem_insert_self _ _
  have demanded : m'.demand = m.demand := by
    rw [demand, lh, operations, absorb_toFinset, Shares.demand_congr fun q _ => claims q,
      Shares.demand_list member mine, demand]
  refine ⟨⟨grouped, ?_, ?_, ?_, demanded ▸ reserved.room⟩, claims, demanded⟩
  · intro q
    rw [operations, phase]
    exact reserved.tracked q
  · intro q inside
    rw [phase] at inside
    rw [claims]
    exact reserved.share q inside
  · intro q inside
    rw [phase] at inside
    rw [lh, absorb_toFinset]
    by_cases equal : q = p
    · subst equal
      rw [more]
      exact Finset.insert_subset_insert b (reserved.listed q inside)
    · rw [same q equal]
      exact (reserved.listed q inside).trans (Finset.subset_insert b _)

theorem leave (control : m.pc p = .inOp) {next : LogPhase} (left : next ≠ .operating)
    (phase : ∀ q, m'.phase q = if q = p then next else m.phase q) (lh : m'.lh = m.lh)
    (events : m'.events = m.events ++ [.ended p])
    (claimed : ∀ q, m'.claimed q = m.claimed q) : m'.Reserved limit := by
  have operations : operating m'.events = (operating m.events).erase p := by
    rw [events, operating_concat]
  have same : ∀ q, written q m'.events = written q m.events := by
    intro q
    rw [events, written_concat]
  have stays : ∀ q, m'.phase q = .operating ↔ q ≠ p ∧ m.phase q = .operating := by
    intro q
    rw [phase]
    split
    case isTrue equal => exact iff_of_false left fun both => both.1 equal
    case isFalse other => exact (and_iff_right other).symm
  refine ⟨grouped, ?_, ?_, ?_, ?_⟩
  · intro q
    rw [operations, Finset.mem_erase, reserved.tracked, stays]
  · intro q inside
    rw [claimed]
    exact reserved.share q ((stays q).mp inside).2
  · intro q inside
    rw [same, lh]
    exact reserved.listed q ((stays q).mp inside).2
  · have member : p ∈ operating m.events := (reserved.tracked p).mpr (phase_inOp control)
    rw [demand, lh, operations, Shares.demand_congr fun q _ => claimed q]
    exact (Shares.demand_erase_le member).trans reserved.room

end

theorem commitStep (reserved : m.Reserved limit) {stage : CommitStage}
    (control : m.pc p = .commit stage) : (m.commitStep p stage).Reserved limit := by
  have none := reserved.grouped.not_operating (inCommit_of_commit control)
  have empty : operating m.events = ∅ := Finset.eq_empty_of_forall_notMem fun q member =>
    none q ((reserved.tracked q).mp member)
  refine of_none (reserved.grouped.commitStep control) (fun q => ?_) ?_ ?_
  · have move : ∀ (m' : LogSystem P) (pc : LogPc), m'.phase q ≠ .operating →
        pc.phase ≠ .operating → (m'.setPc p pc).phase q ≠ .operating := by
      intro m' pc before after
      rw [phase_setPc]
      split <;> assumption
    cases stage with
    | test =>
      simp only [LogSystem.commitStep]
      split <;> exact move m _ (none q) (by rintro ⟨⟩)
    | finish => exact move _ _ (by rw [phase_wakeup]; exact none q) (by rintro ⟨⟩)
    | _ => exact move _ _ (none q) (by rintro ⟨⟩)
  · have recorded : ∀ blocks, operating (m.events ++ [.committed blocks]) = ∅ := by
      intro blocks
      rw [operating_concat]
      exact empty
    cases stage with
    | test =>
      rw [LogSystem.commitStep]
      split
      · exact empty
      · exact recorded _
    | writeHead => exact recorded _
    | _ => exact empty
  · rcases m.commitStep_lh p stage with same | cleared
    · rw [same]
      exact reserved.fits
    · rw [cleared]
      exact Nat.zero_le _

theorem claimed_wakeup (m : LogSystem P) (q : P) : m.wakeup.claimed q = m.claimed q := by
  by_cases asleep : m.pc q = .asleep
  · have woken : m.wakeup.pc q = .woken := if_pos asleep
    rw [claimed_eq (m := m) (fun b logging => by cases asleep.symm.trans logging),
      claimed_eq (m := m.wakeup) (fun b logging => by cases woken.symm.trans logging)]
    rfl
  · exact claimed_congr (if_neg asleep) rfl

theorem claimed_ended (m : LogSystem P) (p q : P) :
    (m.record (.ended p)).claimed q = m.claimed q := by
  refine claimed_congr rfl ?_
  show written q (m.events ++ [.ended p]) = _
  rw [written_concat]

theorem step (reserved : m.Reserved limit) {action : LogAction P} (within : m.WithinOp action)
    (admits : ∀ p, action = .beginOp p → m.committing = false →
      (m.lh.length : Int) + (m.outstanding + 1) * maxOpBlocks ≤ logSize →
        m.demand + maxOpBlocks ≤ limit)
    (moves : Moves m action m') : m'.Reserved limit := by
  have grouped := reserved.grouped.step moves
  cases moves with
  | @sleeps p outside =>
    refine reserved.move grouped (phase_setPc_same (phase_outside outside).symm) rfl rfl
      (claimed_setPc (fun b logging => ?_) nofun)
    rw [logging] at outside
    rcases outside with now | now <;> cases now
  | @begins p outside idle room =>
    refine (reserved.admission grouped ?_ (admits p rfl idle room) (phase_setPc _ _ _) rfl rfl
      (Function.update_self ..) fun q other => setPc_other (Ne.symm other) _).1
    rw [phase_outside outside]
    nofun
  | @logs p b data control =>
    exact (reserved.claim grouped control within (phase_setPc_same (phase_inOp control).symm) rfl
      rfl (Function.update_self ..) fun q other => setPc_other (Ne.symm other) _).1
  | @lists p b control =>
    exact (reserved.list grouped control (phase_setPc_same (phase_logging control).symm) rfl rfl
      (Function.update_self ..) fun q other => setPc_other (Ne.symm other) _).1
  | @last p control =>
    refine reserved.leave grouped control (show LogPhase.pending ≠ .operating by nofun)
      (phase_setPc _ _ _) rfl rfl fun q =>
        (claimed_ended _ p q).trans (claimed_setPc (fun b logging => ?_) (by nofun) q)
    cases control.symm.trans logging
  | @ends p control =>
    refine reserved.leave grouped control (show LogPhase.outside ≠ .operating by nofun)
      (fun q => ?_) rfl rfl fun q => ?_
    · exact (phase_setPc _ p _ q).trans (by rw [phase_wakeup]; rfl)
    · refine (claimed_ended _ p q).trans
        ((claimed_setPc (fun b logging => ?_) (by nofun) q).trans (claimed_wakeup _ q))
      have awake : m.pc p ≠ .asleep := by
        rw [control]
        nofun
      cases control.symm.trans ((if_neg awake).symm.trans logging)
  | commits control => exact reserved.commitStep control

end Reserved

variable {actions : List (LogAction P)} {start : BlockNo} {size : Int} {store : Store}
  {m m' : LogSystem P}

theorem booted_reserved (limit : Nat) :
    (booted start size store : LogSystem P).Reserved limit :=
  .of_none (booted_grouped start size store) nofun rfl (Nat.zero_le _)

theorem reached_reserved
    (reached : Transition.run step (booted start size store) actions = .ok m)
    (within : Transition.Along step WithinOp (booted start size store) actions) :
    m.Reserved logSize :=
  Transition.run_invariant_along (Reserved logSize)
    (fun _ _ _ reserved within taken => reserved.step within
      (fun _ _ _ test => reserved.demand_le test) (moves_of_step taken))
    (booted_reserved logSize) within reached

theorem reached_admitted
    (reached : Transition.run step (booted start size store) actions = .ok m)
    (within : Transition.Along step WithinOp (booted start size store) actions)
    (admitted : Transition.Along step Admits (booted start size store) actions) :
    m.Reserved (logSize - 2) := by
  refine Transition.run_invariant_along (Reserved (logSize - 2)) ?_ (booted_reserved _)
    (within.and admitted) reached
  rintro m action m' reserved ⟨within, admits⟩ taken
  refine reserved.step within ?_ (moves_of_step taken)
  rintro p rfl
  exact admits

theorem Reserved.continue {limit : Nat} {later : List (LogAction P)} (reserved : m.Reserved limit)
    (along : Transition.Along LogSystem.step Continues m later)
    (reached : Transition.run LogSystem.step m later = .ok m') : m'.Reserved limit :=
  Transition.run_invariant_along (Reserved limit)
    (fun _ _ _ reserved continues taken => reserved.step continues.1
      (fun p begins => absurd begins (continues.2 p)) (moves_of_step taken)) reserved along reached

theorem step_size {action : LogAction P} (moves : Moves m action m') : m'.size = m.size := by
  cases moves with
  | @commits p stage =>
    cases stage with
    | test =>
      simp only [commitStep]
      split <;> rfl
    | _ => rfl
  | _ => rfl

theorem run_size (reached : Transition.run step m actions = .ok m') : m'.size = m.size :=
  Transition.run_invariant (fun m' => m'.size = m.size)
    (fun _ _ _ same taken => (step_size (moves_of_step taken)).trans same) rfl reached

theorem step_logWrite {p : P} (control : m.pc p = .inOp) (b : BlockNo) (data : Block) :
    m.step (.logWrite p b data) = m.logWrite p b data := by
  rw [step, control]

theorem Reserved.not_tooBig (reserved : m.Reserved (logSize - 2)) (size : m.size = logSize)
    (p : P) (b : BlockNo) (data : Block) :
    m.step (.logWrite p b data) ≠ .error (.panic "too big a transaction") := by
  have fits := reserved.fits
  have room : ¬ (logSize ≤ m.lh.length ∨ m.size - 1 ≤ m.lh.length) := by
    simp only [size, logSize, maxOpBlocks] at fits ⊢
    omega
  rw [LogSystem.step]
  split
  · rw [logWrite, if_neg room]
    split <;> simp
  · rintro ⟨⟩

theorem Safe.step {action : LogAction P} (safe : m.Safe) (continues : m.Continues action)
    (taken : m.step action = .ok m') : m'.Safe := by
  intro later last along reached
  refine safe (action :: later) last ⟨continues, fun next taken' => ?_⟩
    (Transition.run_cons.mpr ⟨m', taken, reached⟩)
  rw [taken] at taken'
  cases taken'
  exact along

def LogPc.isLogging : LogPc → Bool
  | .logging _ => true
  | _ => false

def stepsLeft (m : LogSystem P) : Nat :=
  ∑ p ∈ operating m.events,
    (2 * (maxOpBlocks - (m.claimed p).card) + if LogPc.isLogging (m.pc p) then 1 else 0)

theorem exists_fresh (lh : Finset BlockNo) (fits : lh.card ≤ logSize) : ∃ b, b ∉ lh := by
  have card : (((List.range (logSize + 1)).map (BitVec.ofNat 32)).toFinset).card = logSize + 1 := by
    decide +kernel
  obtain ⟨b, -, fresh⟩ := Finset.exists_mem_notMem_of_card_lt_card
    (s := lh) (t := ((List.range (logSize + 1)).map (BitVec.ofNat 32)).toFinset) (by omega)
  exact ⟨b, fresh⟩

theorem exists_within {blocks : Finset BlockNo} (share : blocks.card ≤ maxOpBlocks) :
    ∃ b, (insert b blocks).card ≤ maxOpBlocks := by
  rcases blocks.eq_empty_or_nonempty with rfl | ⟨b, member⟩
  · exact ⟨0, by decide⟩
  · exact ⟨b, by rwa [Finset.insert_eq_of_mem member]⟩

/-- A step of an operation in progress that leaves the demand as it is and brings the operation
nearer to the end of its share. -/
structure Onwards (m m' : LogSystem P) : Prop where
  reserved : m'.Reserved logSize
  size : m'.size = m.size
  phase : ∀ p, m'.phase p = m.phase p
  demand : m'.demand = m.demand
  fewer : m'.stepsLeft < m.stepsLeft

theorem stepsLeft_lt {p : P} (operations : operating m'.events = operating m.events)
    (member : p ∈ operating m.events)
    (others : ∀ q, q ≠ p → m'.pc q = m.pc q ∧ m'.claimed q = m.claimed q)
    (mine : 2 * (maxOpBlocks - (m'.claimed p).card) + (if LogPc.isLogging (m'.pc p) then 1 else 0) <
      2 * (maxOpBlocks - (m.claimed p).card) + if LogPc.isLogging (m.pc p) then 1 else 0) :
    m'.stepsLeft < m.stepsLeft := by
  rw [stepsLeft, stepsLeft, operations]
  refine Finset.sum_lt_sum (fun q _ => ?_) ⟨p, member, mine⟩
  by_cases same : q = p
  · rw [same]
    exact mine.le
  · rw [(others q same).1, (others q same).2]

theorem Reserved.append_onwards (reserved : m.Reserved logSize) {p : P} {b : BlockNo}
    (control : m.pc p = .logging b) :
    ∃ m', m.step (.append p) = .ok m' ∧ m.Onwards m' := by
  have moves : Moves m (.append p) _ := .lists control
  have inOp := setPc_self { m with lh := absorb b m.lh } p .inOp
  have others : ∀ q, q ≠ p → ({ m with lh := absorb b m.lh }.setPc p .inOp).pc q = m.pc q :=
    fun q other => setPc_other (Ne.symm other) _
  have phase : ∀ q, ({ m with lh := absorb b m.lh }.setPc p .inOp).phase q = m.phase q :=
    phase_setPc_same (phase_logging control).symm
  obtain ⟨reserved', claims, same⟩ :=
    reserved.list (reserved.grouped.step moves) control phase rfl rfl inOp others
  refine ⟨_, ?_, reserved', rfl, phase, same, ?_⟩
  · rw [LogSystem.step, control]
    exact if_neg (Nat.not_lt.mpr reserved'.fits)
  · refine stepsLeft_lt (p := p) (operating_concat _ _)
      ((reserved.tracked p).mpr (phase_logging control))
      (fun q other => ⟨others q other, claims q⟩) ?_
    rw [claims, control]
    have left : LogPc.isLogging ((({ m with lh := absorb b m.lh }.setPc p .inOp).record
        (.logged p b)).pc p) = false := congrArg LogPc.isLogging inOp
    rw [left]
    exact Nat.lt_succ_self _

theorem Reserved.write_onwards (reserved : m.Reserved logSize) (size : m.size = logSize) {p : P}
    {b : BlockNo} (control : m.pc p = .inOp) (room : m.lh.length < logSize - 1)
    (left : (m.claimed p).card < maxOpBlocks)
    (fresh : b ∉ m.lh.toFinset ∪ (operating m.events).biUnion m.claimed) (data : Block) :
    ∃ m', m.Continues (.logWrite p b data) ∧ m.step (.logWrite p b data) = .ok m' ∧
      m.Onwards m' := by
  have mine : m.claimed p = written p m.events :=
    claimed_eq fun b logging => by cases control.symm.trans logging
  have within : (insert b (written p m.events)).card ≤ maxOpBlocks := by
    rw [← mine]
    exact (Finset.card_insert_le _ _).trans left
  have moves : Moves m (.logWrite p b data) _ := .logs control
  have operating := phase_inOp control
  have positive := reserved.grouped.outstanding_pos operating
  have notFull : ¬ (logSize ≤ m.lh.length ∨ m.size - 1 ≤ m.lh.length) := by
    rw [size]
    omega
  let stored : LogSystem P := { m with store := { m.store with
    cache := Function.update m.store.cache b (some data) } }
  have logging := setPc_self stored p (.logging b)
  have others : ∀ q, q ≠ p → (stored.setPc p (.logging b)).pc q = m.pc q :=
    fun q other => setPc_other (Ne.symm other) _
  have phase : ∀ q, (stored.setPc p (.logging b)).phase q = m.phase q :=
    phase_setPc_same operating.symm
  obtain ⟨reserved', same⟩ := reserved.claim (reserved.grouped.step moves) control within phase rfl
    rfl logging others
  refine ⟨_, ⟨within, nofun⟩, ?_, reserved', rfl, phase, same fresh left, ?_⟩
  · rw [step_logWrite control, logWrite, if_neg notFull, if_neg (by omega)]
  · have new : b ∉ m.claimed p := fun inside => fresh (Finset.mem_union_right _
      (Finset.mem_biUnion.mpr ⟨p, (reserved.tracked p).mpr operating, inside⟩))
    refine stepsLeft_lt (p := p) rfl ((reserved.tracked p).mpr operating)
      (fun q other => ⟨others q other, claimed_congr (others q other) rfl⟩) ?_
    have claims : (stored.setPc p (.logging b)).claimed p = insert b (m.claimed p) := by
      rw [claimed_logging logging, mine]
      rfl
    rw [claims, control, Finset.card_insert_of_notMem new, logging]
    simp only [LogPc.isLogging, if_true, Bool.false_eq_true, if_false]
    omega

theorem Reserved.demand_of_safe {m : LogSystem P} (reserved : m.Reserved logSize)
    (size : m.size = logSize) {p : P} (inside : m.phase p = .operating) (safe : m.Safe) :
    m.demand ≤ logSize - 2 := by
  by_cases logging : ∃ q b, m.pc q = .logging b
  case pos =>
    obtain ⟨q, b, control⟩ := logging
    obtain ⟨m', taken, onwards⟩ := reserved.append_onwards control
    have fewer := onwards.fewer
    have continues : m.Continues (.append q) := ⟨trivial, by nofun⟩
    rw [← onwards.demand]
    exact onwards.reserved.demand_of_safe (onwards.size.trans size)
      ((onwards.phase p).trans inside) (safe.step continues taken)
  case neg =>
    have inOp : ∀ q, m.phase q = .operating → m.pc q = .inOp := by
      intro q operating
      cases control : m.pc q with
      | inOp => rfl
      | logging b => exact absurd ⟨q, b, control⟩ logging
      | commit stage =>
        rw [phase, control] at operating
        cases stage <;> cases operating
      | _ =>
        rw [phase, control] at operating
        cases operating
    have mine : ∀ q, m.claimed q = written q m.events := fun q =>
      claimed_eq fun b control => logging ⟨q, b, control⟩
    by_cases full : logSize - 1 ≤ m.lh.length
    case pos =>
      -- the next `log_write` of the operation fails its test
      have share := reserved.share p inside
      rw [mine] at share
      obtain ⟨b, within⟩ := exists_within share
      refine absurd ?_ (safe [] m trivial rfl p b (fun _ => 0) within)
      have tooBig : logSize ≤ m.lh.length ∨ m.size - 1 ≤ m.lh.length := by
        refine .inr ?_
        rw [size]
        omega
      rw [step_logWrite (inOp p inside), logWrite, if_pos tooBig]
    case neg =>
      by_contra exceeds
      have card := List.toFinset_card_of_nodup reserved.grouped.distinct
      have all : ∀ q ∈ operating m.events, m.claimed q ⊆ m.lh.toFinset := by
        intro q member
        rw [mine]
        exact reserved.listed q ((reserved.tracked q).mp member)
      obtain ⟨q, member, left⟩ := Shares.exists_left all
        (show m.lh.toFinset.card < m.demand by omega)
      obtain ⟨b, fresh⟩ := exists_fresh m.lh.toFinset (card ▸ reserved.fits)
      have union : m.lh.toFinset ∪ (operating m.events).biUnion m.claimed = m.lh.toFinset :=
        Finset.union_eq_left.mpr (Finset.biUnion_subset.mpr all)
      obtain ⟨m', continues, taken, onwards⟩ := reserved.write_onwards size
        (inOp q ((reserved.tracked q).mp member)) (by omega) left (union ▸ fresh) fun _ => 0
      have fewer := onwards.fewer
      refine exceeds ?_
      rw [← onwards.demand]
      exact onwards.reserved.demand_of_safe (onwards.size.trans size)
        ((onwards.phase p).trans inside) (safe.step continues taken)
termination_by m.stepsLeft

theorem Reserved.admits_of_safe (reserved : m.Reserved logSize) (size : m.size = logSize)
    {action : LogAction P} (taken : m.step action = .ok m') (safe : m'.Safe) :
    m.Admits action := by
  cases action with
  | beginOp p =>
    intro idle test
    cases moves_of_step taken with
    | sleeps _ busy =>
      rcases busy with committing | full
      · rw [idle] at committing
        cases committing
      · omega
    | @begins _ outside =>
      have away : m.phase p ≠ .operating := by
        rw [phase_outside outside]
        nofun
      let admitted : LogSystem P := { m with outstanding := m.outstanding + 1 }
      have inOp := setPc_self admitted p .inOp
      obtain ⟨reserved', raised⟩ := reserved.admission
        (reserved.grouped.step (.begins outside idle test)) away (reserved.demand_le test)
        (phase_setPc admitted p .inOp) rfl rfl inOp fun q other => setPc_other (Ne.symm other) _
      rw [← raised]
      exact reserved'.demand_of_safe size (phase_inOp inOp) safe
  | _ => trivial

/-- **Log space.** On the log that `mkfs` makes, while every operation keeps within `MAXOPBLOCKS`
distinct blocks: the operations in progress find room for whatever they log within their shares,
at every point of the run, exactly when every operation that `begin_op` let through left two
blocks of `LOGSIZE` over, counting what is listed and what is left of the shares. The header then
stays within `LOGSIZE - 2`. The reservation alone bounds it by `LOGSIZE`, so the header itself
never overflows, and no `log_write` is taken for one outside an operation. -/
theorem log_write_too_big_iff (start : BlockNo) (store : Store) (actions : List (LogAction P))
    (m : LogSystem P)
    (reached : Transition.run step (booted start logSize store) actions = .ok m)
    (within : Transition.Along step WithinOp (booted start logSize store) actions) :
    (Transition.Along step Admits (booted start logSize store) actions ↔
      ∀ first later m₁, actions = first ++ later →
        Transition.run step (booted start logSize store) first = .ok m₁ → m₁.Safe) ∧
    (Transition.Along step Admits (booted start logSize store) actions →
      m.lh.length ≤ logSize - 2) ∧
    m.lh.length ≤ logSize ∧
    (∀ p b data, m.step (.logWrite p b data) ≠ .error (.panic "log_write outside of trans")) ∧
    ∀ p, m.step (.append p) ≠ .error .outOfBounds := by
  have reserved := reached_reserved reached within
  refine ⟨⟨?_, ?_⟩, ?_, reserved.fits, ?_, ?_⟩
  · rintro admitted first later m₁ rfl begun more m₂ along reached₂ p b data _
    have reserved₁ := reached_admitted begun within.front admitted.front
    exact (reserved₁.continue along reached₂).not_tooBig
      ((run_size reached₂).trans (run_size begun)) p b data
  · intro safe
    refine (Transition.along_iff_not_occurs reached).mpr ?_
    rintro ⟨before, action, after, middle, next, rfl, front, taken, fails⟩
    refine fails ((reached_reserved front within.front).admits_of_safe (run_size front) taken ?_)
    exact safe (before ++ [action]) after next (List.append_cons ..)
      (Transition.run_concat.mpr ⟨middle, front, taken⟩)
  · exact fun admitted => (reached_admitted reached within admitted).fits
  · intro p b data
    rw [step]
    split
    case h_1 control =>
      have positive := reserved.grouped.outstanding_pos (phase_inOp control)
      rw [logWrite, if_neg (show ¬ m.outstanding < 1 by omega)]
      split <;> simp
    case h_2 => rintro ⟨⟩
  · intro p
    cases control : m.pc p with
    | logging b =>
      obtain ⟨m', taken, -⟩ := reserved.append_onwards control
      rw [taken]
      rintro ⟨⟩
    | _ =>
      rw [step, control]
      rintro ⟨⟩

def logsOwn (p : Fin 3) (n : Nat) : List (LogAction (Fin 3)) :=
  (List.range n).flatMap fun i =>
    [.logWrite p (BitVec.ofNat 32 (100 + 10 * p + i)) fun _ => 0, .append p]

def fillsShares : List (LogAction (Fin 3)) :=
  [.beginOp 0, .beginOp 1] ++ logsOwn 0 10 ++ logsOwn 1 10 ++ [.endOp 1]

/-- Two operations at once find room for their shares: the first may log any of its blocks again,
with twenty blocks listed. -/
theorem log_write_too_big_iff_two :
    ∃ m : LogSystem (Fin 3),
      Transition.run step (booted 2 logSize (Store.boot fun _ _ => 0)) fillsShares = .ok m ∧
      m.lh.length = 20 ∧ m.lh.length ≤ logSize - 2 ∧ m.Safe ∧
      m.step (.logWrite 0 109 fun _ => 1) ≠ .error (.panic "too big a transaction") := by
  have within : Transition.Along step WithinOp (booted 2 logSize (Store.boot fun _ _ => 0))
      fillsShares := by decide +kernel
  have admitted : Transition.Along step Admits (booted 2 logSize (Store.boot fun _ _ => 0))
      fillsShares := by decide +kernel
  have checked : Transition.ends (fun m : LogSystem (Fin 3) => decide (m.lh.length = 20 ∧
      m.WithinOp (.logWrite 0 109 fun _ => 1)))
      (Transition.run step (booted 2 logSize (Store.boot fun _ _ => 0)) fillsShares) = true := by
    decide +kernel
  obtain ⟨m, reached, facts⟩ := Transition.exists_of_ends checked
  obtain ⟨length, inShare⟩ := of_decide_eq_true facts
  obtain ⟨exact, fits, -⟩ := log_write_too_big_iff 2 _ fillsShares m reached within
  have safe := exact.mp admitted fillsShares [] m (List.append_nil _).symm reached
  exact ⟨m, reached, length, fits admitted, safe, safe [] m trivial rfl 0 109 _ inShare⟩

def fillsLog : List (LogAction (Fin 3)) :=
  [.beginOp 0, .beginOp 1, .beginOp 2] ++ logsOwn 0 10 ++ logsOwn 1 10 ++ logsOwn 2 9

/-- Three admitted operations of ten blocks each: the thirtieth `log_write` panics. -/
theorem log_write_too_big_thirtieth :
    Transition.Along step WithinOp (booted 2 logSize (Store.boot fun _ _ => 0)) fillsLog ∧
    ∃ m : LogSystem (Fin 3),
      Transition.run step (booted 2 logSize (Store.boot fun _ _ => 0)) fillsLog = .ok m ∧
      m.WithinOp (.logWrite 2 129 fun _ => 0) ∧
      m.step (.logWrite 2 129 fun _ => 0) = .error (.panic "too big a transaction") := by
  have within : Transition.Along step WithinOp (booted 2 logSize (Store.boot fun _ _ => 0))
      fillsLog := by decide +kernel
  have checked : Transition.ends (fun m : LogSystem (Fin 3) =>
      decide (m.pc 2 = .inOp ∧ m.lh.length = 29 ∧ m.size = 30 ∧
        m.WithinOp (.logWrite 2 129 fun _ => 0)))
      (Transition.run step (booted 2 logSize (Store.boot fun _ _ => 0)) fillsLog) = true := by
    decide +kernel
  obtain ⟨m, reached, facts⟩ := Transition.exists_of_ends checked
  obtain ⟨control, length, size, within'⟩ := of_decide_eq_true facts
  refine ⟨within, m, reached, within', ?_⟩
  rw [step_logWrite control, logWrite, if_pos (.inr (by rw [size, length]; decide))]

end LogSystem

end Xv6
