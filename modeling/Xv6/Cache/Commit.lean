import Xv6.Cache.Invariant

/-!
# One commit at a time

While a process commits or recovers no operation is under way and no other process does either, so
the in-memory header is its own. The buffers that it works on are then those of the blocks that
its place in the code names: the header, the log block and the home block of the current entry.
-/

namespace Xv6

open Function (update update_apply update_of_ne update_self)

namespace Job

def syncing : Job → Option Bool
  | .sync s => some s.recovery
  | _ => none

@[simp]
theorem syncing_receive (job : Job) (b : BufNo) : (job.receive b).syncing = job.syncing := by
  cases job <;> rfl

@[simp]
theorem receive_eq_inOp {job : Job} {b : BufNo} : job.receive b = .inOp ↔ job = .inOp := by
  cases job <;> simp [receive]

end Job

def BufPc.pending : BufPc → Option (Word × BlockNo)
  | .bget dev blockno => some (dev, blockno)
  | .asleep _ dev blockno => some (dev, blockno)
  | _ => none

@[simp]
theorem BufPc.pending_wake (b : BufNo) (pc : BufPc) : (pc.wake b).pending = pc.pending := by
  cases pc with
  | asleep c dev blockno =>
    rw [wake]
    split <;> rfl
  | _ => rfl

@[simp]
theorem BufPc.wake_eq_logging {b c : BufNo} {pc : BufPc} {data : Block} :
    pc.wake b = .logging c data ↔ pc = .logging c data := by
  cases pc with
  | asleep d dev blockno =>
    rw [wake]
    split <;> simp
  | _ => rfl

namespace Sync

def blocks (start : BlockNo) (lh : List BlockNo) (s : Sync) : List BlockNo :=
  let slot := logBlock start s.tail
  let home := lh.getD s.tail 0
  match s.phase, s.line with
  | _, .top => []
  | .writeLog, .one _ | .install, .one _ => [slot]
  | _, .one _ => [start]
  | _, .two _ _ => [slot, home]
  | .writeLog, .written _ _ => [home, slot]
  | _, .written _ _ => [slot, home]
  | .writeLog, .last _ => [slot]
  | .install, .last _ => [home]
  | _, .last _ => [start]

def inTurn (s : Sync) : Prop := (s.phase = .writeLog ∨ s.phase = .install) ∧ s.line ≠ .top

variable {start : BlockNo} {lh : List BlockNo} {s next : Sync} {b : BufNo} {blockno : BlockNo}
  {At : BufNo → BlockNo → Prop}

section

variable (wants : s.Wants start lh blockno)
include wants

theorem Wants.receive (b : BufNo) : (s.line.receive b).regs = s.line.regs ++ [b] ∧
      ({ s with line := s.line.receive b } : Sync).blocks start lh =
        s.blocks start lh ++ [blockno] := by
  cases wants with
  | header head => rcases head with rfl | rfl | rfl <;> exact ⟨rfl, rfl⟩
  | slot loop bound => rcases loop with rfl | rfl <;> exact ⟨rfl, rfl⟩
  | home loop => rcases loop with rfl | rfl <;> exact ⟨rfl, rfl⟩

theorem Wants.bound (before : s.inTurn → s.tail < lh.length)
    (loop : s.phase = .writeLog ∨ s.phase = .install) : s.tail < lh.length := by
  cases wants with
  | header head => rcases head with rfl | rfl | rfl <;> rcases loop with loop | loop <;> cases loop
  | slot _ bound => exact bound
  | home _ => exact before ⟨loop, nofun⟩

theorem Wants.paired (b : BufNo) (two : (s.line.receive b).regs.length = 2) :
    s.phase = .writeLog ∨ s.phase = .install := by
  cases wants with
  | header => cases two
  | slot => cases two
  | home loop => exact loop

end

variable {buf : BufNo → Buf} {data : Block}

section

variable (fills : s.Fills buf lh b data next)
include fills

theorem Fills.located (located : List.Forall₂ At s.line.regs (s.blocks start lh)) :
    List.Forall₂ At next.line.regs (next.blocks start lh) := by
  cases fills with
  | log =>
    cases located with
    | cons first rest =>
      cases rest with
      | cons second rest => exact .cons second (.cons first rest)
  | home => exact located
  | header head => rcases head with rfl | rfl <;> exact located

theorem Fills.inTurn (turn : next.inTurn) : s.inTurn ∧ next.tail = s.tail := by
  cases fills with
  | log => exact ⟨⟨.inl rfl, nofun⟩, rfl⟩
  | home => exact ⟨⟨.inr rfl, nofun⟩, rfl⟩
  | header head => rcases head with rfl | rfl <;> rcases turn.1 with loop | loop <;> cases loop

theorem Fills.paired (two : next.line.regs.length = 2) :
    next.phase = .writeLog ∨ next.phase = .install := by
  cases fills with
  | log => exact .inl rfl
  | home => exact .inr rfl
  | header => cases two

end

theorem Drops.located (drops : s.Drops b next)
    (located : List.Forall₂ At s.line.regs (s.blocks start lh)) :
    List.Forall₂ At next.line.regs (next.blocks start lh) := by
  cases drops with
  | first loop => rcases loop with rfl | rfl <;> exact (List.forall₂_cons.mp located).2
  | second loop => rcases loop with rfl | rfl <;> exact .nil
  | header head => exact .nil
  | erased => exact .nil

theorem Drops.paired (drops : s.Drops b next) : next.line.regs.length ≠ 2 := by
  cases drops <;> nofun

theorem Drops.inTurn (drops : s.Drops b next) (turn : next.inTurn) :
    s.inTurn ∧ next.tail = s.tail := by
  cases drops with
  | first loop => exact ⟨⟨loop, nofun⟩, rfl⟩
  | _ => exact absurd rfl turn.2

structure Located (At : BufNo → BlockNo → Prop) (start : BlockNo) (lh : List BlockNo) (pc : BufPc)
    (s : Sync) : Prop where
  regs : List.Forall₂ At s.line.regs (s.blocks start lh)
  bound : s.inTurn → s.tail < lh.length
  wants : ∀ dev blockno, pc.pending = some (dev, blockno) →
    dev = rootDev ∧ s.Wants start lh blockno
  paired : s.line.regs.length = 2 → s.phase = .writeLog ∨ s.phase = .install

theorem Located.regs_mono {At At' : BufNo → BlockNo → Prop} {pc : BufPc}
    (located : s.Located At start lh pc)
    (kept : ∀ c ∈ s.line.regs, ∀ block, At c block → At' c block) :
    List.Forall₂ At' s.line.regs (s.blocks start lh) := by
  have regs := located.regs
  rw [List.forall₂_iff_zip] at regs ⊢
  refine ⟨regs.1, fun {c block} member => ?_⟩
  exact kept c (List.of_mem_zip member).1 block (regs.2 member)

theorem Fills.recovery (fills : s.Fills buf lh b data next) : next.recovery = s.recovery := by
  cases fills <;> rfl

theorem Drops.recovery (drops : s.Drops b next) : next.recovery = s.recovery := by
  cases drops <;> rfl

end Sync

namespace CacheSystem

variable {P : Type} [DecidableEq P] {m m' : CacheSystem P} {a : CacheAction P} {p : P}

/-- Operations are counted, and while a process commits or recovers there are none. -/
structure Exclusive (m : CacheSystem P) : Prop where
  counted : ∃ ops : List P, ops.Nodup ∧ (∀ p, p ∈ ops ↔ m.job p = .inOp) ∧
    m.outstanding = ops.length
  single : ∀ p q, (m.job p).syncing ≠ none → (m.job q).syncing ≠ none → p = q
  stopped : ∀ p recovery, (m.job p).syncing = some recovery → m.outstanding = 0 ∧
    (recovery = true → m.recovered = false) ∧
    (recovery = false → m.committing = true ∧ m.recovered = true)
  begun : ∀ p, m.job p = .inOp → m.recovered
  logging : ∀ p b data, m.pc p = .logging b data → m.job p = .inOp

omit [DecidableEq P] in
theorem Exclusive.not_syncing (exclusive : m.Exclusive) (inOp : m.job p = .inOp) (q : P) :
    (m.job q).syncing = none := by
  obtain ⟨ops, nodup, mem_iff, count⟩ := exclusive.counted
  cases syncing : (m.job q).syncing with
  | none => rfl
  | some recovery =>
    have none := (exclusive.stopped q recovery syncing).1
    have member := (mem_iff p).mpr inOp
    rw [count] at none
    have empty : ops.length = 0 := by omega
    rw [List.length_eq_zero_iff.mp empty] at member
    cases member

omit [DecidableEq P] in
theorem Exclusive.congr (exclusive : m.Exclusive)
    (inOp : ∀ q, m'.job q = .inOp ↔ m.job q = .inOp)
    (syncing : ∀ q, (m'.job q).syncing = (m.job q).syncing)
    (outstanding : m'.outstanding = m.outstanding) (committing : m'.committing = m.committing)
    (recovered : m'.recovered = m.recovered)
    (logging : ∀ q b data, m'.pc q = .logging b data → m.job q = .inOp) : m'.Exclusive where
  counted := by
    obtain ⟨ops, nodup, mem_iff, count⟩ := exclusive.counted
    exact ⟨ops, nodup, fun q => (mem_iff q).trans (inOp q).symm, by rw [outstanding, count]⟩
  single q r := by
    rw [syncing, syncing]
    exact exclusive.single q r
  stopped q recovery now := by
    rw [syncing] at now
    rw [outstanding, committing, recovered]
    exact exclusive.stopped q recovery now
  begun q now := by
    rw [recovered]
    exact exclusive.begun q ((inOp q).mp now)
  logging q b data now := (inOp q).mpr (logging q b data now)

omit [DecidableEq P] in
theorem Exclusive.of_quiet (counted : ∃ ops : List P, ops.Nodup ∧
      (∀ p, p ∈ ops ↔ m.job p = .inOp) ∧ m.outstanding = ops.length)
    (nobody : ∀ q, (m.job q).syncing = none) (begun : ∀ p, m.job p = .inOp → m.recovered)
    (logging : ∀ p b data, m.pc p = .logging b data → m.job p = .inOp) : m.Exclusive :=
  ⟨counted, fun q _ first => absurd (nobody q) first,
    fun q _ now => absurd (now.symm.trans (nobody q)) nofun, begun, logging⟩

theorem job_setJob (m : CacheSystem P) (p : P) (job : Job) (q : P) :
    (m.setJob p job).job q = if q = p then job else m.job q :=
  update_apply _ _ _ _

theorem pc_setPc (m : CacheSystem P) (p : P) (pc : BufPc) (q : P) :
    (m.setPc p pc).pc q = if q = p then pc else m.pc q :=
  update_apply _ _ _ _

section

variable (exclusive : m.Exclusive)
include exclusive

theorem Exclusive.stay {s next : Sync} (syncs : m.job p = .sync s)
    (same : next.recovery = s.recovery) {n : CacheSystem P} (jobs : n.job = m.job)
    (outstanding : n.outstanding = m.outstanding) (committing : n.committing = m.committing)
    (recovered : n.recovered = m.recovered)
    (logging : ∀ q b data, n.pc q = .logging b data → m.pc q = .logging b data) :
    (n.setJob p (.sync next)).Exclusive := by
  refine exclusive.congr (fun q => ?_) (fun q => ?_) outstanding committing recovered ?_
  · rw [job_setJob]
    split
    · rename_i self
      rw [self, syncs]
      simp
    · rw [jobs]
  · rw [job_setJob]
    split
    · rename_i self
      rw [self, syncs]
      exact congrArg some same
    · rw [jobs]
  · intro q b data now
    exact exclusive.logging q b data (logging q b data now)

theorem Exclusive.leave (inOp : m.job p = .inOp) {job : Job} (out : job ≠ .inOp) :
    ∃ ops : List P, ops.Nodup ∧
      (∀ q, q ∈ ops ↔ (m.setJob p job).job q = .inOp) ∧ m.outstanding - 1 = ops.length := by
  obtain ⟨ops, nodup, mem_iff, count⟩ := exclusive.counted
  have member := (mem_iff p).mpr inOp
  refine ⟨ops.erase p, nodup.erase p, fun q => ?_, ?_⟩
  · rw [nodup.mem_erase_iff, job_setJob, mem_iff]
    split
    · rename_i self
      simp [self, out]
    · rename_i other
      simp [other]
  · have positive := List.length_pos_of_mem member
    rw [List.length_erase_of_mem member, count]
    omega

theorem Exclusive.sync {s : Sync} (syncs : m.job p = .sync s) (moves : SyncMoves m p s m') :
    m'.Exclusive := by
  -- the process that ends leaves nobody behind that commits or recovers
  have ended : ∀ q, ((m.setJob p .outside).job q).syncing = none := by
    intro q
    rw [job_setJob]
    split
    · rfl
    · rename_i other
      by_contra found
      exact other (exclusive.single q p found (by rw [syncs]; nofun))
  have noneInOp : ∀ q, (m.setJob p .outside).job q = .inOp ↔ m.job q = .inOp := by
    intro q
    rw [job_setJob]
    split
    · rename_i self
      simp [self, syncs]
    · rfl
  have leaves : ∀ recovered committing : Bool, (m.recovered → recovered) →
      ({ m with recovered := recovered, committing := committing }.setJob p
        .outside).Exclusive := by
    intro recovered committing stays
    obtain ⟨ops, nodup, mem_iff, count⟩ := exclusive.counted
    exact .of_quiet ⟨ops, nodup, fun q => (mem_iff q).trans (noneInOp q).symm, count⟩ ended
      (fun q inOp => stays (exclusive.begun q ((noneInOp q).mp inOp)))
      fun q b data now => (noneInOp q).mpr (exclusive.logging q b data now)
  cases moves with
  | bread blockno wants =>
    refine exclusive.congr (fun _ => .rfl) (fun _ => rfl) rfl rfl rfl fun q b data now => ?_
    rw [pc_setPc] at now
    split at now
    · cases now
    · exact exclusive.logging q b data now
  | bwrite b data next fills =>
    refine exclusive.stay syncs fills.recovery rfl rfl rfl rfl fun q c data' now => ?_
    rw [show (m.filled p b data).pc q = _ from pc_setPc _ p _ q] at now
    split at now
    · cases now
    · exact now
  | brelse b next drops =>
    refine exclusive.stay syncs drops.recovery rfl rfl rfl rfl fun q c data' now => ?_
    exact BufPc.wake_eq_logging.mp now
  | readHead b lh read =>
    exact exclusive.stay syncs (by rfl) (by rfl) rfl rfl rfl fun _ _ _ now => now
  | logWritten past => exact exclusive.stay syncs (by rfl) (by rfl) rfl rfl rfl fun _ _ _ now => now
  | installed past => exact exclusive.stay syncs (by rfl) (by rfl) rfl rfl rfl fun _ _ _ now => now
  | recovered => exact leaves true m.committing fun _ => rfl
  | committed => exact leaves m.recovered false id

theorem Exclusive.logging_leave (ready : m.pc p = .ready) (job : Job) {q : P} {b : BufNo}
    {data : Block} (now : m.pc q = .logging b data) : (m.setJob p job).job q = .inOp := by
  rw [job_setJob, if_neg]
  · exact exclusive.logging q b data now
  · rintro rfl
    exact absurd (ready.symm.trans now) nofun

theorem Exclusive.step (moves : Moves m a m') : m'.Exclusive := by
  have moved : ∀ {p : P} {pc : BufPc} (n : CacheSystem P), n.job = m.job →
      n.outstanding = m.outstanding → n.committing = m.committing → n.recovered = m.recovered →
      (∀ q b data, n.pc q = .logging b data → m.pc q = .logging b data) →
      (∀ b data, pc = .logging b data → m.job p = .inOp) → (n.setPc p pc).Exclusive := by
    intro p pc n jobs outstanding committing recovered pcs logging
    refine exclusive.congr (fun q => ?_) (fun q => ?_) outstanding committing recovered ?_
    · exact iff_of_eq (congrArg (· = Job.inOp) (congrFun jobs q))
    · exact congrArg Job.syncing (congrFun jobs q)
    · intro q b data now
      rw [pc_setPc] at now
      split at now
      · rename_i self
        rw [self]
        exact logging b data now
      · exact exclusive.logging q b data (pcs q b data now)
  have received : ∀ {p : P} {b : BufNo} {cache : Bcache},
      (m.received p b cache).Exclusive := by
    intro p b cache
    have jobs : ∀ q, (m.received p b cache).job q =
        if q = p then (m.job p).receive b else m.job q := fun q => job_setJob _ p _ q
    refine exclusive.congr (fun q => ?_) (fun q => ?_) rfl rfl rfl fun q c data now => ?_
    · rw [jobs]
      split
      · rename_i self
        simp [self]
      · rfl
    · rw [jobs]
      split
      · rename_i self
        simp [self]
      · rfl
    · rw [show (m.received p b cache).pc q = _ from pc_setPc _ p _ q] at now
      split at now
      · split at now <;> cases now
      · exact exclusive.logging q c data now
  cases moves with
  | beginOp p ready outside recovered idle =>
    obtain ⟨ops, nodup, mem_iff, count⟩ := exclusive.counted
    have absent : p ∉ ops := by
      rw [mem_iff, outside]
      nofun
    -- a process that commits or recovers would have kept the operation from beginning
    have nobody : ∀ q, (m.job q).syncing = none := by
      intro q
      cases syncing : (m.job q).syncing with
      | none => rfl
      | some recovery =>
        obtain ⟨-, recovering, committing⟩ := exclusive.stopped q recovery syncing
        cases recovery with
        | true => exact absurd recovered (by rw [recovering rfl]; nofun)
        | false => exact absurd idle (by rw [(committing rfl).1]; nofun)
    have still : ∀ q,
        (({ m with outstanding := m.outstanding + 1 }.setJob p .inOp).job q).syncing = none := by
      intro q
      rw [job_setJob]
      split
      · rfl
      · exact nobody q
    refine .of_quiet ⟨p :: ops, List.nodup_cons.mpr ⟨absent, nodup⟩, fun q => ?_, ?_⟩ still
      (fun _ _ => recovered) ?_
    · rw [List.mem_cons, mem_iff, job_setJob]
      split
      · rename_i self
        simp [self]
      · rename_i other
        simp [other]
    · change m.outstanding + 1 = _
      rw [count, List.length_cons]
      omega
    · intro q b data now
      rw [job_setJob]
      split
      · rfl
      · exact exclusive.logging q b data now
  | endOp p ready inOp more =>
    obtain ⟨ops, nodup, mem_iff, count⟩ := exclusive.leave inOp (show Job.outside ≠ .inOp by nofun)
    have nobody : ∀ q,
        (({ m with outstanding := m.outstanding - 1 }.setJob p .outside).job q).syncing = none := by
      intro q
      rw [job_setJob]
      split
      · rfl
      · exact exclusive.not_syncing inOp q
    exact .of_quiet ⟨ops, nodup, mem_iff, count⟩ nobody (fun _ _ => exclusive.begun p inOp)
      fun _ _ _ now => exclusive.logging_leave ready .outside now
  | commit p ready inOp last =>
    obtain ⟨ops, nodup, mem_iff, count⟩ := exclusive.leave inOp
      (show Job.sync ⟨false, if 0 < m.lh.length then .writeLog else .finish, 0, .top⟩ ≠ .inOp
        by nofun)
    have only : ∀ q, q ≠ p → (m.job q).syncing = none := fun q _ => exclusive.not_syncing inOp q
    refine ⟨⟨ops, nodup, mem_iff, count⟩, ?_, ?_, fun _ _ => exclusive.begun p inOp,
      fun _ _ _ now => exclusive.logging_leave ready _ now⟩
    · have isP : ∀ q, ((update m.job p (Job.sync
          ⟨false, if 0 < m.lh.length then .writeLog else .finish, 0, .top⟩)) q).syncing ≠ none →
            q = p := by
        intro q found
        by_contra other
        rw [update_of_ne other] at found
        exact found (only q other)
      intro q r first second
      rw [isP q first, isP r second]
    · intro q recovery now
      rw [job_setJob] at now
      split at now
      · cases now
        exact ⟨last, nofun, fun _ => ⟨rfl, exclusive.begun p inOp⟩⟩
      · rename_i other
        exact absurd (now.symm.trans (only q other)) nofun
  | bread p dev blockno => exact moved m rfl rfl rfl rfl (fun _ _ _ now => now) nofun
  | logWrite p b data ready inOp =>
    exact moved m rfl rfl rfl rfl (fun _ _ _ now => now) fun _ _ _ => inOp
  | brelse p b =>
    exact exclusive.congr (fun _ => .rfl) (fun _ => rfl) rfl rfl rfl fun q c data now =>
      exclusive.logging q c data (BufPc.wake_eq_logging.mp now)
  | sleeps p => exact moved m rfl rfl rfl rfl (fun _ _ _ now => now) nofun
  | hits p => exact received
  | recycles p => exact received
  | reads p b => exact moved _ rfl rfl rfl rfl (fun _ _ _ now => BufPc.wake_eq_logging.mp now) nofun
  | writes p b =>
    exact moved _ rfl rfl rfl rfl (fun _ _ _ now => BufPc.wake_eq_logging.mp now) nofun
  | append p b data => exact moved _ rfl rfl rfl rfl (fun _ _ _ now => now) nofun
  | sync p s m' ready syncs moves => exact exclusive.sync syncs moves

end

def At (m : CacheSystem P) (b : BufNo) (blockno : BlockNo) : Prop :=
  (m.buf b).dev = rootDev ∧ (m.buf b).blockno = blockno

/-- `commit` and the recovery work on the buffers that their place in the code names. -/
def Located (m : CacheSystem P) : Prop :=
  ∀ p s, m.job p = .sync s → s.Located m.At m.start m.lh (m.pc p)

variable {b : BufNo} {s : Sync}

theorem at_of_moves (moves : Moves m a m') (busy : (m.buf b).busy) {blockno : BlockNo}
    (before : m.At b blockno) : m'.At b blockno := by
  -- replacing a buffer by one for the same block
  have replaced : ∀ {c : BufNo} {buffer : Buf} {cache : Bcache}, buffer.dev = (m.buf c).dev →
      buffer.blockno = (m.buf c).blockno → cache.buf = update m.cache.buf c buffer →
      (cache.buf b).dev = rootDev ∧ (cache.buf b).blockno = blockno := by
    intro c buffer cache dev block bufs
    rw [bufs, update_apply]
    split
    · rename_i same
      rw [dev, block, ← same]
      exact before
    · exact before
  cases moves with
  | brelse => exact replaced (by rfl) (by rfl) rfl
  | hits => exact replaced (by rfl) (by rfl) rfl
  | recycles p dev blockno c now missing free clean =>
    have other : b ≠ c := by
      rintro rfl
      rw [free] at busy
      cases busy
    have same : (m.cache.recycled c dev blockno).buf b = m.buf b := Bcache.setBuf_of_ne other _ _
    change ((m.cache.recycled c dev blockno).buf b).dev = _ ∧
      ((m.cache.recycled c dev blockno).buf b).blockno = _
    rw [same]
    exact before
  | reads => exact replaced (by rfl) (by rfl) rfl
  | writes => exact replaced (by rfl) (by rfl) rfl
  | append => exact replaced (by rfl) (by rfl) rfl
  | sync p s m' ready syncs moves =>
    cases moves with
    | bwrite => exact replaced (by rfl) (by rfl) rfl
    | brelse => exact replaced (by rfl) (by rfl) rfl
    | _ => exact before
  | _ => exact before

theorem SyncMoves.job (moves : SyncMoves m p s m') {q : P} (other : q ≠ p) :
    m'.job q = m.job q := by
  cases moves with
  | bread => rfl
  | _ => exact update_of_ne other _ _

theorem job_received {cache : Bcache} {q : P} (syncs : (m.received p b cache).job q = .sync s) :
    (q = p ∧ ∃ s₀, m.job p = .sync s₀ ∧ s = { s₀ with line := s₀.line.receive b }) ∨
      m.job q = .sync s ∧ (m.received p b cache).pc q = m.pc q := by
  rw [show (m.received p b cache).job q = _ from job_setJob _ p _ q] at syncs
  split at syncs
  · rename_i self
    cases before : m.job p with
    | sync s₀ =>
      rw [before] at syncs
      cases syncs
      exact .inl ⟨self, s₀, rfl, rfl⟩
    | _ =>
      rw [before] at syncs
      cases syncs
  · rename_i other
    exact .inr ⟨syncs, update_of_ne other _ _⟩

theorem Located.received (located : m.Located) {dev : Word} {blockno : BlockNo} {cache : Bcache}
    (now : m.pc p = .bget dev blockno)
    (kept : ∀ c block, m.At c block → c ∈ m.held p → (m.received p b cache).At c block)
    (mine : ∀ s, m.job p = .sync s → ∀ c ∈ s.line.regs, c ∈ m.held p)
    (found : (cache.buf b).dev = dev ∧ (cache.buf b).blockno = blockno)
    (before : m.job p = .sync s) :
    ({ s with line := s.line.receive b } : Sync).Located (m.received p b cache).At m.start m.lh
      ((m.received p b cache).pc p) := by
  have at₀ := located p s before
  obtain ⟨rfl, wants⟩ := at₀.wants dev blockno (by rw [now]; rfl)
  obtain ⟨regs, blocks⟩ := wants.receive b
  refine ⟨?_, fun turn => wants.bound at₀.bound turn.1, fun dev' blockno' pending => ?_,
    wants.paired b⟩
  · rw [regs, blocks]
    refine List.rel_append ?_ (.cons found .nil)
    exact at₀.regs_mono fun c member block here => kept c block here (mine s before c member)
  · rw [show (m.received p b cache).pc p = _ from update_self _ _ _] at pending
    split at pending <;> cases pending

theorem Located.sync (located : m.Located) (ready : m.pc p = .ready) (syncs : m.job p = .sync s)
    (kept : ∀ c ∈ s.line.regs, ∀ block, m.At c block → m'.At c block) (moves : SyncMoves m p s m')
    {s' : Sync} (after : m'.job p = .sync s') : s'.Located m'.At m'.start m'.lh (m'.pc p) := by
  have now := located p s syncs
  have regs := now.regs_mono kept
  have set : ∀ {n : CacheSystem P} {job : Job}, (n.setJob p job).job p = .sync s' →
      job = .sync s' := by
    intro n job after
    rwa [job_setJob, if_pos rfl] at after
  have idle : ∀ {pc : BufPc} (dev : Word) (blockno : BlockNo) {claim : Prop}, pc.pending = none →
      pc.pending = some (dev, blockno) → claim := by
    intro pc dev blockno claim none pending
    cases none.symm.trans pending
  have still : (m.pc p).pending = none := by rw [ready]; rfl
  cases moves with
  | bread blockno wants =>
    cases syncs.symm.trans after
    refine ⟨regs, now.bound, fun dev' blockno' pending => ?_, now.paired⟩
    rw [show (m.setPc p (.bget rootDev blockno)).pc p = _ from update_self _ _ _]
      at pending
    cases pending
    exact ⟨rfl, wants⟩
  | bwrite b data next fills =>
    cases set after
    refine ⟨fills.located regs, fun turn => ?_,
      fun dev blockno => idle dev blockno (congrArg _ (update_self ..)), fills.paired⟩
    obtain ⟨turn, tail⟩ := fills.inTurn turn
    rw [tail]
    exact now.bound turn
  | brelse b next drops =>
    cases set after
    refine ⟨drops.located regs, fun turn => ?_,
      fun dev blockno => idle dev blockno ((BufPc.pending_wake b (m.pc p)).trans still),
      fun two => absurd two drops.paired⟩
    obtain ⟨turn, tail⟩ := drops.inTurn turn
    rw [tail]
    exact now.bound turn
  | readHead b lh read =>
    cases set after
    refine ⟨regs, fun turn => ?_, fun dev blockno => idle dev blockno still, nofun⟩
    rcases turn.1 with loop | loop <;> cases loop
  | logWritten past =>
    cases set after
    exact ⟨.nil, fun turn => absurd rfl turn.2, fun dev blockno => idle dev blockno still, nofun⟩
  | installed past =>
    cases set after
    exact ⟨.nil, fun turn => absurd rfl turn.2, fun dev blockno => idle dev blockno still, nofun⟩
  | recovered => cases set after
  | committed => cases set after

theorem Located.step (located : m.Located) (wf : m.Wf) (exclusive : m.Exclusive)
    (moves : Moves m a m') : m'.Located := by
  have kept : ∀ q, ∀ c ∈ m.held q, ∀ block, m.At c block → m'.At c block := by
    intro q c member block before
    exact at_of_moves moves ((wf.owned.busy_iff c).mpr ⟨q, member⟩) before
  have mine : ∀ q s, m.job q = .sync s → ∀ c ∈ s.line.regs, c ∈ m.held q := by
    intro q s syncs c member
    refine wf.works.regs q c ?_
    rw [syncs]
    exact member
  -- a process that stays where it is, in a commit whose header does not change
  have stays : ∀ q s, m.job q = .sync s → m'.start = m.start → m'.lh = m.lh →
      ((m'.pc q).pending = (m.pc q).pending ∨ (m'.pc q).pending = none) →
      s.Located m'.At m'.start m'.lh (m'.pc q) := by
    intro q s syncs start lh pending
    have now := located q s syncs
    rw [start, lh]
    refine ⟨now.regs_mono fun c member => kept q c (mine q s syncs c member), now.bound,
      fun dev blockno call => ?_, now.paired⟩
    rcases pending with same | none
    · rw [same] at call
      exact now.wants dev blockno call
    · rw [none] at call
      cases call
  have moved : ∀ {p : P} {pc : BufPc} {pcs : P → BufPc} {q : P}, pc.pending = none →
      (∀ q, (pcs q).pending = (m.pc q).pending) →
      (update pcs p pc q).pending = (m.pc q).pending ∨
        (update pcs p pc q).pending = none := by
    intro p pc pcs q none same
    rw [update_apply]
    split
    · exact .inr none
    · exact .inl (same q)
  intro q s syncs
  cases moves with
  | beginOp p ready =>
    rw [job_setJob] at syncs
    split at syncs
    · cases syncs
    · exact stays q s syncs rfl rfl (.inl rfl)
  | endOp p ready =>
    rw [job_setJob] at syncs
    split at syncs
    · cases syncs
    · exact stays q s syncs rfl rfl (.inl rfl)
  | commit p ready inOp last =>
    rw [job_setJob] at syncs
    split at syncs
    · rename_i self
      cases syncs
      subst self
      refine ⟨.nil, fun turn => absurd rfl turn.2, fun dev blockno pending => ?_, nofun⟩
      exact absurd (show (m.pc q).pending = some (dev, blockno) from pending) (by rw [ready]; nofun)
    · exact stays q s syncs rfl rfl (.inl rfl)
  | bread p dev blockno ready calls =>
    have other : q ≠ p := by
      rintro rfl
      rcases calls with calls | calls
      · exact absurd (calls.symm.trans syncs) nofun
      · exact absurd (calls.symm.trans syncs) nofun
    exact stays q s syncs rfl rfl (.inl (congrArg _ (update_of_ne other _ _)))
  | logWrite p b data => exact stays q s syncs rfl rfl (moved rfl fun _ => rfl)
  | brelse p b =>
    exact stays q s syncs rfl rfl (.inl (BufPc.pending_wake b (m.pc q)))
  | sleeps p dev blockno b now =>
    refine stays q s syncs rfl rfl (.inl ?_)
    rw [pc_setPc]
    split
    · rename_i self
      rw [self, now]
      rfl
    · rfl
  | hits p dev blockno b now found free =>
    rcases job_received syncs with ⟨rfl, s₀, before, rfl⟩ | ⟨before, pc⟩
    · refine located.received now (fun c block before member => kept q c member block before)
        (mine q) ?_ before
      have same : (m.cache.marked b).buf b = _ := Bcache.setBuf_self _ _ _
      rw [same]
      exact Bcache.caches_iff.mp found
    · exact stays q s before rfl rfl (.inl (congrArg _ pc))
  | recycles p dev blockno b now missing free clean =>
    rcases job_received syncs with ⟨rfl, s₀, before, rfl⟩ | ⟨before, pc⟩
    · refine located.received now (fun c block before member => kept q c member block before)
        (mine q) ?_ before
      have same : (m.cache.recycled b dev blockno).buf b = _ := Bcache.setBuf_self _ _ _
      rw [same]
      exact ⟨rfl, rfl⟩
    · exact stays q s before rfl rfl (.inl (congrArg _ pc))
  | reads p b => exact stays q s syncs rfl rfl (moved rfl fun q => BufPc.pending_wake b (m.pc q))
  | writes p b => exact stays q s syncs rfl rfl (moved rfl fun q => BufPc.pending_wake b (m.pc q))
  | append p b data now =>
    -- a block is logged in an operation, and nobody commits then
    have none := exclusive.not_syncing (exclusive.logging p b data now) q
    rw [show m.job q = .sync s from syncs] at none
    cases none
  | sync p s₀ m' ready syncs₀ moves =>
    by_cases self : q = p
    · subst self
      exact located.sync ready syncs₀ (fun c member => kept q c (mine q s₀ syncs₀ c member)) moves
        syncs
    · -- only one process commits or recovers
      have alone : m.job q ≠ .sync s := by
        intro second
        exact self (exclusive.single q p (by rw [second]; nofun) (by rw [syncs₀]; nofun))
      exact absurd ((moves.job self).symm.trans syncs) alone

end CacheSystem

end Xv6
