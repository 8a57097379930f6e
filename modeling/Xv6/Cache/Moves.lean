import Xv6.Cache.System
import Xv6.Library.Run

/-!
# What the steps of the cache do

Every step that succeeds is one of the moves listed here. The moves of `commit` and of the recovery
are calls of the cache on the blocks and buffers that the three relations `Wants`, `Fills` and
`Drops` read off the place in the code, or changes of the place alone.
-/

namespace Xv6

/-- The places at which `commit` or the recovery calls `bread`, and for which block. -/
inductive Sync.Wants (start : BlockNo) (lh : List BlockNo) : Sync → BlockNo → Prop where
  | header {recovery : Bool} {tail : Nat} {phase : SyncPhase}
    (head : phase = .readHead ∨ phase = .commitHead ∨ phase = .eraseHead) :
    Wants start lh ⟨recovery, phase, tail, .top⟩ start
  | slot {recovery : Bool} {tail : Nat} {phase : SyncPhase}
    (loop : phase = .writeLog ∨ phase = .install) (bound : tail < lh.length) :
    Wants start lh ⟨recovery, phase, tail, .top⟩ (logBlock start tail)
  | home {recovery : Bool} {tail : Nat} {phase : SyncPhase} {b : BufNo}
    (loop : phase = .writeLog ∨ phase = .install) :
    Wants start lh ⟨recovery, phase, tail, .one b⟩ (lh.getD tail 0)

/-- The places at which `commit` or the recovery calls `bwrite`, the buffer, what it was filled
with, and the place behind the call. -/
inductive Sync.Fills (buf : BufNo → Buf) (lh : List BlockNo) :
    Sync → BufNo → Block → Sync → Prop where
  | log {recovery : Bool} {tail : Nat} {target source : BufNo} :
    Fills buf lh ⟨recovery, .writeLog, tail, .two target source⟩ target (buf source).data
      ⟨recovery, .writeLog, tail, .written source target⟩
  | home {recovery : Bool} {tail : Nat} {lbuf dbuf : BufNo} :
    Fills buf lh ⟨recovery, .install, tail, .two lbuf dbuf⟩ dbuf (buf lbuf).data
      ⟨recovery, .install, tail, .written lbuf dbuf⟩
  | header {recovery : Bool} {tail : Nat} {b : BufNo} {phase : SyncPhase}
    (head : phase = .commitHead ∨ phase = .eraseHead) :
    Fills buf lh ⟨recovery, phase, tail, .one b⟩ b (fillHead (buf b).data lh)
      ⟨recovery, phase, 0, .last b⟩

/-- The places at which `commit` or the recovery calls `brelse`, the buffer, and the place behind
the call. -/
inductive Sync.Drops : Sync → BufNo → Sync → Prop where
  | first {recovery : Bool} {tail : Nat} {b c : BufNo} {phase : SyncPhase}
    (loop : phase = .writeLog ∨ phase = .install) :
    Drops ⟨recovery, phase, tail, .written b c⟩ b ⟨recovery, phase, tail, .last c⟩
  | second {recovery : Bool} {tail : Nat} {b : BufNo} {phase : SyncPhase}
    (loop : phase = .writeLog ∨ phase = .install) :
    Drops ⟨recovery, phase, tail, .last b⟩ b ⟨recovery, phase, tail + 1, .top⟩
  | header {recovery : Bool} {tail : Nat} {b : BufNo} {phase : SyncPhase}
    (head : phase = .readHead ∨ phase = .commitHead) :
    Drops ⟨recovery, phase, tail, .last b⟩ b ⟨recovery, .install, 0, .top⟩
  | erased {recovery : Bool} {tail : Nat} {b : BufNo} :
    Drops ⟨recovery, .eraseHead, tail, .last b⟩ b ⟨recovery, .finish, 0, .top⟩

namespace CacheSystem

variable {P : Type} [DecidableEq P] {m m' : CacheSystem P} {a : CacheAction P} {p : P} {s : Sync}

def received (m : CacheSystem P) (p : P) (b : BufNo) (cache : Bcache) : CacheSystem P :=
  (({ m with cache := cache }.setHeld p (b :: m.held p)).setJob p ((m.job p).receive b)).setPc p
    (if (cache.buf b).valid then .ready else .transfer b)

def readIn (m : CacheSystem P) (p : P) (b : BufNo) : CacheSystem P :=
  ((m.setBuf b
    { m.buf b with
      data := m.disk (drive (m.buf b).dev) (m.buf b).blockno
      valid := true }).wakeup b).setPc p .ready

def written (m : CacheSystem P) (b : BufNo) : Bool → BlockNo → Block :=
  Function.update m.disk (drive (m.buf b).dev)
    (Function.update (m.disk (drive (m.buf b).dev)) (m.buf b).blockno (m.buf b).data)

def writtenOut (m : CacheSystem P) (p : P) (b : BufNo) : CacheSystem P :=
  (({ m with disk := m.written b }.setBuf b
    { m.buf b with valid := true, dirty := false }).wakeup b).setPc p .ready

def logged (m : CacheSystem P) (p : P) (b : BufNo) (data : Block) : CacheSystem P :=
  ({ m with lh := absorb (m.buf b).blockno m.lh }.setBuf b
    { m.buf b with data := data, dirty := true }).setPc p .ready

def filled (m : CacheSystem P) (p : P) (b : BufNo) (data : Block) : CacheSystem P :=
  (m.setBuf b { m.buf b with data := data, dirty := true }).setPc p (.transfer b)

def dropped (m : CacheSystem P) (p : P) (b : BufNo) : CacheSystem P :=
  ({ m with cache := m.cache.released b }.setHeld p ((m.held p).erase b)).wakeup b

/-- What a step of `commit` or of the recovery does outside of the calls of the cache. -/
inductive SyncMoves (m : CacheSystem P) (p : P) : Sync → CacheSystem P → Prop where
  | bread {s : Sync} (blockno : BlockNo) (wants : s.Wants m.start m.lh blockno) :
    SyncMoves m p s (m.setPc p (.bget rootDev blockno))
  | bwrite {s : Sync} (b : BufNo) (data : Block) (next : Sync)
    (fills : s.Fills m.buf m.lh b data next) :
    SyncMoves m p s ((m.filled p b data).setJob p (.sync next))
  | brelse {s : Sync} (b : BufNo) (next : Sync) (drops : s.Drops b next) :
    SyncMoves m p s ((m.dropped p b).setJob p (.sync next))
  | readHead {recovery : Bool} {tail : Nat} (b : BufNo) (lh : List BlockNo)
    (read : Xv6.readHead (m.buf b).data = .ok lh) :
    SyncMoves m p ⟨recovery, .readHead, tail, .one b⟩
      ({ m with lh := lh }.setJob p (.sync ⟨recovery, .readHead, 0, .last b⟩))
  | logWritten {recovery : Bool} {tail : Nat} (past : m.lh.length ≤ tail) :
    SyncMoves m p ⟨recovery, .writeLog, tail, .top⟩
      (m.setJob p (.sync ⟨recovery, .commitHead, 0, .top⟩))
  | installed {recovery : Bool} {tail : Nat} (past : m.lh.length ≤ tail) :
    SyncMoves m p ⟨recovery, .install, tail, .top⟩
      ({ m with lh := [] }.setJob p (.sync ⟨recovery, .eraseHead, 0, .top⟩))
  | recovered {tail : Nat} :
    SyncMoves m p ⟨true, .finish, tail, .top⟩ ({ m with recovered := true }.setJob p .outside)
  | committed {tail : Nat} :
    SyncMoves m p ⟨false, .finish, tail, .top⟩ ({ m with committing := false }.setJob p .outside)

/-- What a step does: one constructor for each way through the calls. -/
inductive Moves (m : CacheSystem P) : CacheAction P → CacheSystem P → Prop where
  | beginOp (p : P) (ready : m.pc p = .ready) (outside : m.job p = .outside)
    (recovered : m.recovered) (idle : m.committing = false) :
    Moves m (.beginOp p) ({ m with outstanding := m.outstanding + 1 }.setJob p .inOp)
  | endOp (p : P) (ready : m.pc p = .ready) (inOp : m.job p = .inOp)
    (more : m.outstanding - 1 ≠ 0) :
    Moves m (.endOp p) ({ m with outstanding := m.outstanding - 1 }.setJob p .outside)
  | commit (p : P) (ready : m.pc p = .ready) (inOp : m.job p = .inOp)
    (last : m.outstanding - 1 = 0) :
    Moves m (.endOp p) ({ m with
      outstanding := m.outstanding - 1
      committing := true }.setJob p
        (.sync ⟨false, if 0 < m.lh.length then .writeLog else .finish, 0, .top⟩))
  | bread (p : P) (dev : Word) (blockno : BlockNo) (ready : m.pc p = .ready)
    (calls : m.job p = .outside ∨ m.job p = .inOp) :
    Moves m (.bread p dev blockno) (m.setPc p (.bget dev blockno))
  | logWrite (p : P) (b : BufNo) (data : Block) (ready : m.pc p = .ready) (inOp : m.job p = .inOp)
    (holds : b ∈ m.held p) : Moves m (.logWrite p b data) (m.setPc p (.logging b data))
  | brelse (p : P) (b : BufNo) (ready : m.pc p = .ready)
    (calls : m.job p = .outside ∨ m.job p = .inOp) (holds : b ∈ m.held p) :
    Moves m (.brelse p b) (m.dropped p b)
  | sleeps (p : P) (dev : Word) (blockno : BlockNo) (b : BufNo) (now : m.pc p = .bget dev blockno) :
    Moves m (.advance p) (m.setPc p (.asleep b dev blockno))
  | hits (p : P) (dev : Word) (blockno : BlockNo) (b : BufNo) (now : m.pc p = .bget dev blockno)
    (found : m.cache.caches dev blockno b) (free : (m.buf b).busy = false) :
    Moves m (.advance p) (m.received p b (m.cache.marked b))
  | recycles (p : P) (dev : Word) (blockno : BlockNo) (b : BufNo)
    (now : m.pc p = .bget dev blockno) (missing : ∀ c, m.cache.caches dev blockno c = false)
    (free : (m.buf b).busy = false) (clean : (m.buf b).dirty = false) :
    Moves m (.advance p) (m.received p b (m.cache.recycled b dev blockno))
  | reads (p : P) (b : BufNo) (now : m.pc p = .transfer b) (clean : (m.buf b).dirty = false)
    (empty : (m.buf b).valid = false) : Moves m (.advance p) (m.readIn p b)
  | writes (p : P) (b : BufNo) (now : m.pc p = .transfer b) (dirty : (m.buf b).dirty) :
    Moves m (.advance p) (m.writtenOut p b)
  | append (p : P) (b : BufNo) (data : Block) (now : m.pc p = .logging b data)
    (bounded : (absorb (m.buf b).blockno m.lh).length ≤ logSize) :
    Moves m (.advance p) (m.logged p b data)
  | sync (p : P) (s : Sync) (m' : CacheSystem P) (ready : m.pc p = .ready)
    (syncs : m.job p = .sync s) (moves : SyncMoves m p s m') : Moves m (.advance p) m'

variable {b : BufNo}

theorem brelse_eq (taken : m.brelse p b = .ok m') : m' = m.dropped p b := by
  rw [brelse, Bcache.brelse] at taken
  split at taken
  case h_1 => cases taken
  case h_2 cache released =>
    split at released
    · cases released
      exact (Except.ok.inj taken).symm
    · cases released

theorem bwrite_eq {data : Block} (taken : m.bwrite p b data = .ok m') : m' = m.filled p b data := by
  rw [bwrite] at taken
  split at taken
  · exact (Except.ok.inj taken).symm
  · cases taken

theorem syncMoves_brelse {next : Sync} (drops : s.Drops b next)
    (taken : (·.setJob p (.sync next)) <$> m.brelse p b = .ok m') : SyncMoves m p s m' := by
  obtain ⟨_, released, rfl⟩ := Transition.map_ok.mp taken
  cases brelse_eq released
  exact .brelse b _ drops

theorem syncMoves_bwrite {data : Block} {next : Sync} (fills : s.Fills m.buf m.lh b data next)
    (taken : (·.setJob p (.sync next)) <$> m.bwrite p b data = .ok m') : SyncMoves m p s m' := by
  obtain ⟨_, marked, rfl⟩ := Transition.map_ok.mp taken
  cases bwrite_eq marked
  exact .bwrite b data _ fills

theorem syncMoves_of_step (taken : m.syncStep p s = .ok m') : SyncMoves m p s m' := by
  obtain ⟨recovery, phase, tail, line⟩ := s
  cases phase with
  | readHead =>
    cases line with
    | top =>
      cases taken
      exact .bread _ (.header (.inl rfl))
    | one b =>
      obtain ⟨lh, read, rest⟩ := Transition.bind_ok.mp taken
      cases rest
      exact .readHead b lh read
    | last b => exact syncMoves_brelse (.header (.inl rfl)) taken
    | _ => cases taken
  | writeLog =>
    cases line with
    | top =>
      simp only [syncStep] at taken
      split at taken
      case isTrue bound =>
        cases taken
        exact .bread _ (.slot (.inl rfl) bound)
      case isFalse past =>
        cases taken
        exact .logWritten (Nat.le_of_not_lt past)
    | one b =>
      cases taken
      exact .bread _ (.home (.inl rfl))
    | two target source => exact syncMoves_bwrite .log taken
    | written source target => exact syncMoves_brelse (.first (.inl rfl)) taken
    | last target => exact syncMoves_brelse (.second (.inl rfl)) taken
  | install =>
    cases line with
    | top =>
      simp only [syncStep] at taken
      split at taken
      case isTrue bound =>
        cases taken
        exact .bread _ (.slot (.inr rfl) bound)
      case isFalse past =>
        cases taken
        exact .installed (Nat.le_of_not_lt past)
    | one b =>
      cases taken
      exact .bread _ (.home (.inr rfl))
    | two lbuf dbuf => exact syncMoves_bwrite .home taken
    | written lbuf dbuf => exact syncMoves_brelse (.first (.inr rfl)) taken
    | last dbuf => exact syncMoves_brelse (.second (.inr rfl)) taken
  | commitHead =>
    cases line with
    | top =>
      cases taken
      exact .bread _ (.header (.inr (.inl rfl)))
    | one b => exact syncMoves_bwrite (.header (.inl rfl)) taken
    | last b => exact syncMoves_brelse (.header (.inr rfl)) taken
    | _ => cases taken
  | eraseHead =>
    cases line with
    | top =>
      cases taken
      exact .bread _ (.header (.inr (.inr rfl)))
    | one b => exact syncMoves_bwrite (.header (.inr rfl)) taken
    | last b => exact syncMoves_brelse .erased taken
    | _ => cases taken
  | finish =>
    cases line with
    | top =>
      simp only [syncStep] at taken
      cases recovery with
      | true =>
        cases taken
        exact .recovered
      | false =>
        cases taken
        exact .committed
    | _ => cases taken

theorem iderw_moves (now : m.pc p = .transfer b) (taken : m.iderw p b = .ok m') :
    Moves m (.advance p) m' := by
  simp only [iderw] at taken
  split at taken
  · cases taken
  · split at taken
    · cases taken
    · rename_i notIdle
      split at taken
      · cases taken
      · split at taken
        · cases taken
        · split at taken
          · rename_i dirty
            cases taken
            exact .writes p b now dirty
          · rename_i clean
            cases taken
            rw [Bool.not_eq_true] at clean
            refine .reads p b now clean ?_
            rw [← Bool.not_eq_true]
            exact fun valid => notIdle ⟨valid, clean⟩

theorem bget_moves (ring : m.cache.RingOfAll) {dev : Word} {blockno : BlockNo}
    (now : m.pc p = .bget dev blockno) (taken : m.bget p dev blockno = .ok m') :
    Moves m (.advance p) m' := by
  rw [bget] at taken
  split at taken
  case h_1 => cases taken
  case h_2 cache b ran =>
    cases taken
    cases Bcache.gets_of_bget ring ran with
    | sleeps b found busy => exact .sleeps p dev blockno b now
  case h_3 cache b ran =>
    cases taken
    cases Bcache.gets_of_bget ring ran with
    | hits b found free => exact .hits p dev blockno b now found free
    | recycles b missing free clean => exact .recycles p dev blockno b now missing free clean

theorem moves_of_step (ring : m.cache.RingOfAll) (taken : m.step a = .ok m') : Moves m a m' := by
  cases a with
  | beginOp p =>
    rw [step] at taken
    split at taken
    case h_1 ready outside =>
      rw [beginOp] at taken
      split at taken
      · cases taken
      · rename_i admitted
        rw [not_or, not_or, Bool.not_eq_false, Bool.not_eq_true] at admitted
        cases taken
        exact .beginOp p ready outside admitted.1 admitted.2.1
    case h_2 => cases taken
  | endOp p =>
    rw [step] at taken
    split at taken
    case h_1 ready inOp =>
      simp only [endOp] at taken
      split at taken
      · cases taken
      · split at taken
        · rename_i last
          cases taken
          exact .commit p ready inOp last
        · rename_i more
          cases taken
          exact .endOp p ready inOp more
    case h_2 => cases taken
  | bread p dev blockno =>
    rw [step] at taken
    split at taken
    case h_1 ready outside =>
      cases taken
      exact .bread p dev blockno ready (.inl outside)
    case h_2 ready inOp =>
      cases taken
      exact .bread p dev blockno ready (.inr inOp)
    case h_3 => cases taken
  | logWrite p b data =>
    rw [step] at taken
    split at taken
    case h_1 ready inOp =>
      split at taken
      · rename_i holds
        rw [logWrite] at taken
        split at taken
        · cases taken
        · split at taken
          · cases taken
          · cases taken
            exact .logWrite p b data ready inOp holds
      · cases taken
    case h_2 => cases taken
  | brelse p b =>
    rw [step] at taken
    split at taken
    case h_1 ready outside =>
      split at taken
      · rename_i holds
        cases brelse_eq taken
        exact .brelse p b ready (.inl outside) holds
      · cases taken
    case h_2 ready inOp =>
      split at taken
      · rename_i holds
        cases brelse_eq taken
        exact .brelse p b ready (.inr inOp) holds
      · cases taken
    case h_3 => cases taken
  | advance p =>
    rw [step] at taken
    split at taken
    case h_1 dev blockno now => exact bget_moves ring now taken
    case h_2 b now => exact iderw_moves now taken
    case h_3 b data now =>
      simp only [append] at taken
      split at taken
      · cases taken
      · rename_i bounded
        cases taken
        exact .append p b data now (Nat.le_of_not_lt bounded)
    case h_4 s ready syncs => exact .sync p s m' ready syncs (syncMoves_of_step taken)
    case h_5 => cases taken

end CacheSystem

end Xv6
