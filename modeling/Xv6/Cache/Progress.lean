import Xv6.Cache.Content

/-!
# The progress of a commit

What holds at each place of `commit`. Its copies to the log leave home blocks alone, because the log
has a block for each entry of the header, and its copies back change nothing, because the log holds
what the buffers hold. The first fact rests on the number of buffers when the header is full: then
every buffer is dirty, and `commit` panics in its first search instead of writing behind the end of
the log.
-/

namespace Xv6

open Function (update update_apply update_eq_self update_of_ne update_self)

namespace Sync

def done (s : Sync) : Nat :=
  match s.line with
  | .written _ _ | .last _ => s.tail + 1
  | _ => s.tail

def begun (s : Sync) : Prop := s.phase ≠ .writeLog ∨ s.tail ≠ 0 ∨ s.line ≠ .top

/-- The log holds the contents of the home blocks: of those copied so far, later of all. -/
def Copied (start : BlockNo) (lh : List BlockNo) (content : BlockNo → Block) (s : Sync) : Prop :=
  match s.phase with
  | .writeLog => ∀ i, i < s.done → i < lh.length →
      content (logBlock start i) = content (lh.getD i 0)
  | .commitHead | .install => ∀ i, i < lh.length →
      content (logBlock start i) = content (lh.getD i 0)
  | _ => True

def Headed (start : BlockNo) (lh : List BlockNo) (disk : BlockNo → Block) (buf : BufNo → Buf)
    (pc : BufPc) (s : Sync) : Prop :=
  match s.phase, s.line with
  | .commitHead, .last b =>
    (pc = .transfer b ∧ (buf b).dirty ∧ ∃ old, (buf b).data = fillHead old lh) ∨
      ((∀ c, pc = .transfer c → c ≠ b) ∧ readHead (disk start) = .ok lh)
  | .install, _ => readHead (disk start) = .ok lh
  | _, _ => True

structure Progress (start : BlockNo) (size : Int) (lh : List BlockNo)
    (content disk : BlockNo → Block)
    (buf : BufNo → Buf) (pc : BufPc) (s : Sync) : Prop where
  phase : s.phase ≠ .readHead
  fits : s.begun → (lh.length : Int) ≤ size - 1
  copied : s.Copied start lh content
  headed : s.Headed start lh disk buf pc

end Sync

namespace CacheSystem

variable {P : Type} [DecidableEq P] {m m' : CacheSystem P} {a : CacheAction P} {p : P}

structure Listed (m : CacheSystem P) : Prop where
  bounded : m.recovered → m.lh.length ≤ logSize
  nodup : m.recovered → m.lh.Nodup
  home : m.recovered → ∀ blockno ∈ m.lh, ¬ InLog m.start m.size blockno
  pinned : m.recovered →
    (∀ p s, m.job p = .sync s → s.phase = .writeLog ∨ s.phase = .commitHead) →
    ∀ blockno ∈ m.lh, ∃ b, m.At b blockno ∧ (m.buf b).dirty
  cleared : ∀ p s, m.job p = .sync s → s.phase = .eraseHead ∨ s.phase = .finish → m.lh = []

def Committing (m : CacheSystem P) : Prop :=
  ∀ p s, m.job p = .sync s → s.recovery = false →
    s.Progress m.start m.size m.lh m.content m.rootDisk m.buf (m.pc p)

structure Sound (m : CacheSystem P) : Prop where
  wf : m.Wf
  exclusive : m.Exclusive
  located : m.Located
  settled : m.Settled
  listed : m.Listed
  committing : m.Committing
  room : (logSize : Int) ≤ m.size

theorem rootDisk_of_moves (settled : m.Settled) (moves : Moves m a m') :
    m'.rootDisk = m.rootDisk ∨ ∃ p b, m.pc p = .transfer b ∧ (m.buf b).dirty ∧
      m' = m.writtenOut p b ∧
      m'.rootDisk = update m.rootDisk (m.buf b).blockno (m.buf b).data := by
  cases moves with
  | writes p b now dirty =>
    exact .inr ⟨p, b, now, dirty, rfl, rootDisk_writtenOut (settled.dirty b dirty).1⟩
  | sync p s m' ready syncs moves => cases moves <;> exact .inl rfl
  | _ => exact .inl rfl

/-- How a process gets to where it is in `commit`. -/
inductive SyncStep (m : CacheSystem P) (p : P) : CacheSystem P → Sync → Prop where
  | began {m' : CacheSystem P} (inOp : m.job p = .inOp) (lh : m'.lh = m.lh) :
    SyncStep m p m' ⟨false, if 0 < m.lh.length then .writeLog else .finish, 0, .top⟩
  | stayed {m' : CacheSystem P} {s : Sync} (before : m.job p = .sync s) (lh : m'.lh = m.lh)
    (content : m'.content = m.content)
    (pc : ∀ b, m'.pc p = .transfer b → m.pc p = .transfer b) : SyncStep m p m' s
  | received {m' : CacheSystem P} {s : Sync} (blockno : BlockNo) (b : BufNo)
    (before : m.job p = .sync s) (lh : m'.lh = m.lh) (content : m'.content = m.content)
    (disk : m'.rootDisk = m.rootDisk) (wants : s.Wants m.start m.lh blockno)
    (here : m'.At b blockno)
    (free : (m.buf b).busy = false)
    (old : m.At b blockno ∨ (m.buf b).dirty = false) :
    SyncStep m p m' { s with line := s.line.receive b }
  | moved {m' : CacheSystem P} {s s' : Sync} (ready : m.pc p = .ready) (before : m.job p = .sync s)
    (moves : SyncMoves m p s m') (after : m'.job p = .sync s') : SyncStep m p m' s'

theorem syncStep_of_moves (wf : m.Wf) (exclusive : m.Exclusive) (located : m.Located)
    (settled : m.Settled) (moves : Moves m a m') {q : P} {s : Sync}
    (after : m'.job q = .sync s) : SyncStep m q m' s := by
  have wf' := wf.step moves
  -- what is not a step of `log_write` or `commit` keeps the contents
  have stays : m.job q = .sync s → m'.lh = m.lh →
      (∀ b, m'.pc q = .transfer b → m.pc q = .transfer b) →
      m'.content = m.content → SyncStep m q m' s :=
    fun before lh pc content => .stayed before lh content pc
  have set : ∀ {p : P} {pc : BufPc} {pcs : P → BufPc}, (∀ c, pc ≠ .transfer c) →
      (∀ q b, pcs q = .transfer b → m.pc q = .transfer b) →
      ∀ b, update pcs p pc q = .transfer b → m.pc q = .transfer b := by
    intro p pc pcs other same b now
    rw [update_apply] at now
    split at now
    · exact absurd now (other b)
    · exact same q b now
  cases moves with
  | beginOp p =>
    rw [job_setJob] at after
    split at after
    · cases after
    · exact stays after rfl (fun _ now => now) (content_quiet rfl rfl)
  | endOp p =>
    rw [job_setJob] at after
    split at after
    · cases after
    · exact stays after rfl (fun _ now => now) (content_quiet rfl rfl)
  | commit p ready inOp last =>
    rw [job_setJob] at after
    split at after
    · rename_i self
      cases after
      rw [← self] at inOp
      exact .began inOp rfl
    · exact stays after rfl (fun _ now => now) (content_quiet rfl rfl)
  | bread p =>
    exact stays after rfl (set (by rintro _ ⟨⟩) fun _ _ now => now) (content_quiet rfl rfl)
  | logWrite p =>
    exact stays after rfl (set (by rintro _ ⟨⟩) fun _ _ now => now) (content_quiet rfl rfl)
  | brelse p b =>
    exact stays after rfl (fun _ now => BufPc.wake_eq_transfer.mp now)
      (content_marked wf wf' rfl rfl)
  | sleeps p =>
    exact stays after rfl (set (by rintro _ ⟨⟩) fun _ _ now => now) (content_quiet rfl rfl)
  | hits p dev blockno b now found free =>
    have content := content_marked wf wf' rfl rfl
    rcases job_received after with ⟨rfl, s₀, before, rfl⟩ | ⟨before, pc⟩
    · obtain ⟨rfl, wants⟩ := (located q s₀ before).wants dev blockno (by rw [now]; rfl)
      have here := Bcache.caches_iff.mp found
      refine .received blockno b before rfl content rfl wants ?_ free (.inl here)
      have same : (m.received q b (m.cache.marked b)).buf b = _ := Bcache.setBuf_self _ _ _
      rw [At, same]
      exact here
    · exact stays before rfl (fun c transfer => pc.symm.trans transfer) content
  | recycles p dev blockno b now missing free clean =>
    have content := content_recycled wf settled wf' clean
    rcases job_received after with ⟨rfl, s₀, before, rfl⟩ | ⟨before, pc⟩
    · obtain ⟨rfl, wants⟩ := (located q s₀ before).wants dev blockno (by rw [now]; rfl)
      refine .received blockno b before rfl content rfl wants ?_ free (.inr clean)
      have same : (m.received q b (m.cache.recycled b rootDev blockno)).buf b = _ :=
        Bcache.setBuf_self _ _ _
      rw [At, same]
      exact ⟨rfl, rfl⟩
    · exact stays before rfl (fun c transfer => pc.symm.trans transfer) content
  | reads p b now clean empty =>
    exact stays after rfl (set (by rintro _ ⟨⟩) fun _ _ now => BufPc.wake_eq_transfer.mp now)
      (content_readIn wf wf' empty)
  | writes p b now dirty =>
    exact stays after rfl (set (by rintro _ ⟨⟩) fun _ _ now => BufPc.wake_eq_transfer.mp now)
      (content_writtenOut wf wf' (settled.dirty b dirty).1 (wf.works.dirty b dirty))
  | append p b data now =>
    -- a block is logged in an operation, and nobody commits then
    have none := exclusive.not_syncing (exclusive.logging p b data now) q
    rw [show m.job q = .sync s from after] at none
    cases none
  | sync p s₀ m' ready syncs moves =>
    by_cases self : q = p
    · subst self
      exact .moved ready syncs moves after
    · have alone : m.job q ≠ .sync s := by
        intro second
        exact self (exclusive.single q p (by rw [second]; rintro ⟨⟩) (by rw [syncs]; rintro ⟨⟩))
      exact absurd ((moves.job self).symm.trans after) alone

omit [DecidableEq P] in
theorem inLog_slot {i : Nat} (fits : (m.lh.length : Int) ≤ m.size - 1) (bound : i < m.lh.length) :
    InLog m.start m.size (logBlock m.start i) :=
  ⟨i + 1, by omega, logBlock_eq m.start i⟩

omit [DecidableEq P] in
theorem inLog_header (room : (logSize : Int) ≤ m.size) : InLog m.start m.size m.start := by
  refine ⟨0, ?_, by simp⟩
  have positive : (0 : Int) < logSize := by decide
  omega

theorem slot_injective {start : BlockNo} {i j : Nat} (boundI : i < logSize) (boundJ : j < logSize)
    (same : logBlock start i = logBlock start j) : i = j := by
  rw [logBlock_eq, logBlock_eq] at same
  have small : logSize = 30 := rfl
  have offsets := offset_injective start (by omega) (by omega) same
  omega

theorem slot_ne_header {start : BlockNo} {i : Nat} (bound : i < logSize) :
    logBlock start i ≠ start := by
  intro same
  rw [logBlock_eq] at same
  have small : logSize = 30 := rfl
  have zero : start = start + BitVec.ofNat 32 0 := by simp
  have offsets := offset_injective start (by omega) (by omega) (same.trans zero)
  omega

omit [DecidableEq P] in
theorem mem_entry {i : Nat} (bound : i < m.lh.length) : m.lh.getD i 0 ∈ m.lh := by
  rw [List.getD_eq_getElem?_getD, List.getElem?_eq_getElem bound]
  exact List.getElem_mem bound

namespace Sound

variable (sound : m.Sound)

include sound

variable {s : Sync} {b : BufNo} {recovery : Bool} {buf : BufNo → Buf} {content : BlockNo → Block}

omit [DecidableEq P] in
theorem recovered (syncs : m.job p = .sync s) (commits : s.recovery = false) : m.recovered := by
  have stopped := sound.exclusive.stopped p false (by rw [syncs, ← commits]; rfl)
  exact (stopped.2.2 rfl).2

omit [DecidableEq P] in
theorem commits (recovered : m.recovered) (syncs : m.job p = .sync s) : s.recovery = false := by
  by_contra recovery
  rw [Bool.not_eq_false] at recovery
  have stopped := sound.exclusive.stopped p true (by rw [syncs, ← recovery]; rfl)
  rw [stopped.2.1 rfl] at recovered
  cases recovered

omit [DecidableEq P] in
theorem writer_eq {q : P} (syncs : m.job p = .sync s) (now : m.pc q = .transfer b)
    (dirty : (m.buf b).dirty) : q = p ∧ s.line.target = some b := by
  obtain ⟨t, writes, target⟩ := sound.settled.writer q b now dirty
  have same := sound.exclusive.single q p (by rw [writes]; nofun) (by rw [syncs]; nofun)
  subst same
  cases syncs.symm.trans writes
  exact ⟨rfl, target⟩

omit [DecidableEq P] in
theorem home_of_dirty (dirty : (m.buf b).dirty) (still : ∀ p, m.pc p ≠ .transfer b) :
    ¬ InLog m.start m.size (m.buf b).blockno := by
  rcases (sound.settled.dirty b dirty).2 with ⟨p, now⟩ | ⟨-, outside⟩
  · exact absurd now (still p)
  · exact outside

omit [DecidableEq P] in
theorem all_dirty (recovered : m.recovered)
    (pinned : ∀ blockno ∈ m.lh, ∃ b, m.At b blockno ∧ (m.buf b).dirty)
    (full : logSize ≤ m.lh.length) (b : BufNo) : (m.buf b).dirty := by
  by_contra clean
  let dirty := (List.finRange nbuf).filter fun c => (m.buf c).dirty
  have subset : m.lh ⊆ dirty.map fun c => (m.buf c).blockno := by
    intro blockno member
    obtain ⟨c, here, isDirty⟩ := pinned blockno member
    exact List.mem_map.mpr ⟨c, List.mem_filter.mpr ⟨List.mem_finRange c, isDirty⟩, here.2⟩
  have fewer : dirty.length < nbuf := by
    have some : ∃ c ∈ List.finRange nbuf, ¬ (m.buf c).dirty = true :=
      ⟨b, List.mem_finRange b, clean⟩
    have fewer := List.length_filter_lt_length_iff_exists.mpr some
    rwa [List.length_finRange] at fewer
  have bound := (List.subperm_of_subset (sound.listed.nodup recovered) subset).length_le
  rw [List.length_map] at bound
  have same : nbuf = logSize := rfl
  omega

omit [DecidableEq P] in
theorem progress_began (lh : m'.lh = m.lh) (size : m'.size = m.size) :
    (⟨false, if 0 < m.lh.length then .writeLog else .finish, 0, .top⟩ : Sync).Progress m'.start
      m'.size m'.lh m'.content m'.rootDisk m'.buf (m'.pc p) := by
  have room := sound.room
  have positive : (30 : Int) = logSize := rfl
  rw [lh, size]
  by_cases some : 0 < m.lh.length
  · rw [if_pos some]
    refine ⟨nofun, fun begun => ?_, fun i early => ?_, trivial⟩
    · rcases begun with other | other | other
      · exact absurd rfl other
      · exact absurd rfl other
      · exact absurd rfl other
    · exact absurd early (Nat.not_lt_zero i)
  · rw [if_neg some]
    refine ⟨nofun, fun _ => ?_, trivial, trivial⟩
    omega

section

variable (moves : Moves m a m') (syncs : m.job p = .sync s) (commits : s.recovery = false)
  (lh : m'.lh = m.lh)
include moves syncs commits lh

theorem headed_stayed (pc : ∀ b, m'.pc p = .transfer b → m.pc p = .transfer b)
    (headed : s.Headed m.start m.lh m.rootDisk m.buf (m.pc p)) :
    s.Headed m'.start m'.lh m'.rootDisk m'.buf (m'.pc p) := by
  have recovered := sound.recovered syncs commits
  obtain ⟨start, -⟩ := log_of_moves moves
  rw [start, lh]
  obtain ⟨recovery, phase, tail, line⟩ := s
  have located := sound.located p _ syncs
  -- a disk write while the header stands is of a home block
  have kept : (∀ b, line.target = some b → m.pc p = .transfer b →
      (m.buf b).blockno ≠ m.start) → m'.rootDisk m.start = m.rootDisk m.start := by
    intro apart
    rcases rootDisk_of_moves sound.settled moves with same | ⟨q, b, now, dirty, -, written⟩
    · rw [same]
    · obtain ⟨rfl, target⟩ := sound.writer_eq syncs now dirty
      rw [written, update_of_ne (apart b target now).symm]
  cases phase with
  | readHead => trivial
  | writeLog => trivial
  | eraseHead => trivial
  | finish => trivial
  | install =>
    change readHead (m'.rootDisk m.start) = .ok m.lh
    rw [kept]
    · exact headed
    · -- the target of an installing commit is at the entry of the turn
      intro b target _ same
      obtain ⟨phase, -⟩ | ⟨-, turn, here⟩ | ⟨phases, -⟩ := located.target target
      · cases phase
      rotate_left
      · exact absurd rfl phases.2
      have home := sound.listed.home recovered _ (mem_entry (located.bound turn))
      rw [← here.2, same] at home
      exact home (inLog_header sound.room)
  | commitHead =>
    cases line with
    | top => trivial
    | one => trivial
    | two => trivial
    | written => trivial
    | last b =>
      have here : m.At b m.start := by
        have regs := located.regs
        cases regs with
        | cons first rest => exact first
      rcases headed with ⟨now, dirty, old, filled⟩ | ⟨elsewhere, listed⟩
      · have mine : b ∈ m.held p := sound.wf.works.uses p b (by rw [now]; rfl)
        cases dirtyStep_of_moves sound.wf moves b with
        | logged q data logging =>
          have holds := sound.wf.works.uses q b (by rw [logging]; rfl)
          have same := sound.wf.owned.holder q p b holds mine
          subst same
          exact absurd (logging.symm.trans now) nofun
        | filled q t next data ready syncs' fills =>
          have same := sound.exclusive.single q p (by rw [syncs']; nofun) (by rw [syncs]; nofun)
          subst same
          exact absurd (ready.symm.trans now) nofun
        | written q now' _ =>
          obtain ⟨rfl, -⟩ := sound.writer_eq syncs now' dirty
          have bounded := sound.listed.bounded recovered
          refine .inr ⟨fun c transfer => ?_, ?_⟩
          · rw [show (m.writtenOut q b).pc q = .ready from update_self _ _ _] at transfer
            cases transfer
          · rw [rootDisk_writtenOut here.1, here.2, update_self, filled,
              readHead_fillHead old bounded]
        | kept stays same transfer =>
          refine .inl ⟨(transfer p dirty).mpr now, ?_, old, ?_⟩
          · rw [stays]
            exact dirty
          · rw [(same dirty).2.2.2, filled]
      · refine .inr ⟨fun c transfer => elsewhere c (pc c transfer), ?_⟩
        rw [kept]
        · exact listed
        · intro c target transfer
          cases target
          exact absurd rfl (elsewhere b transfer)

theorem progress_stayed (content : m'.content = m.content)
    (pc : ∀ b, m'.pc p = .transfer b → m.pc p = .transfer b) :
    s.Progress m'.start m'.size m'.lh m'.content m'.rootDisk m'.buf (m'.pc p) := by
  obtain ⟨start, size⟩ := log_of_moves moves
  have before := sound.committing p s syncs commits
  refine ⟨before.phase, ?_, ?_, sound.headed_stayed moves syncs commits lh pc before.headed⟩
  · rw [lh, size]
    exact before.fits
  · rw [start, lh, content]
    exact before.copied

end

omit [DecidableEq P] in
theorem fits_received {blockno : BlockNo} (syncs : m.job p = .sync s) (commits : s.recovery = false)
    (wants : s.Wants m.start m.lh blockno) (free : (m.buf b).busy = false)
    (old : m.At b blockno ∨ (m.buf b).dirty = false) : (m.lh.length : Int) ≤ m.size - 1 := by
  by_cases begun : s.begun
  · exact (sound.committing p s syncs commits).fits begun
  · have recovered := sound.recovered syncs commits
    have first : s.phase = .writeLog ∧ s.line = .top := by
      simp only [Sync.begun, not_or, not_not] at begun
      exact ⟨begun.1, begun.2.2⟩
    by_contra tight
    have room := sound.room
    have full : logSize ≤ m.lh.length := by omega
    have pinned := sound.listed.pinned recovered fun q t syncs' => by
      have same := sound.exclusive.single q p (by rw [syncs']; nofun) (by rw [syncs]; nofun)
      subst same
      cases syncs.symm.trans syncs'
      exact .inl first.1
    have dirty := sound.all_dirty recovered pinned full b
    rcases old with here | clean
    · -- a hit would be a dirty buffer of a log block
      have still : ∀ q, m.pc q ≠ .transfer b := by
        intro q now
        exact sound.wf.owned.not_held free q (sound.wf.works.uses q b (by rw [now]; rfl))
      have outside := sound.home_of_dirty dirty still
      rw [here.2] at outside
      cases wants with
      | header head =>
        rcases head with rfl | rfl | rfl
        · cases first.1
        · cases first.1
        · cases first.1
      | slot loop bound =>
        have entries : m.lh.length ≤ 30 := sound.listed.bounded recovered
        rename_i recovery tailN phase
        have zero : tailN = 0 := by
          by_contra other
          exact begun (.inr (.inl other))
        subst zero
        refine outside ⟨1, ?_, logBlock_eq _ _⟩
        have constant : (logSize : Int) = 30 := rfl
        omega
      | home loop => cases first.2
    · rw [clean] at dirty
      cases dirty

theorem progress_received (moves : Moves m a m') {blockno : BlockNo} (syncs : m.job p = .sync s)
    (commits : s.recovery = false) (lh : m'.lh = m.lh) (content : m'.content = m.content)
    (disk : m'.rootDisk = m.rootDisk) (wants : s.Wants m.start m.lh blockno)
    (free : (m.buf b).busy = false) (old : m.At b blockno ∨ (m.buf b).dirty = false) :
    ({ s with line := s.line.receive b } : Sync).Progress m'.start m'.size m'.lh m'.content
      m'.rootDisk m'.buf (m'.pc p) := by
  obtain ⟨start, size⟩ := log_of_moves moves
  have before := sound.committing p s syncs commits
  have fits := sound.fits_received syncs commits wants free old
  rw [start, size, lh, content, disk]
  obtain ⟨recovery, phase, tail, line⟩ := s
  have counted : (⟨recovery, phase, tail, line.receive b⟩ : Sync).done =
      (⟨recovery, phase, tail, line⟩ : Sync).done := by
    cases line <;> rfl
  have open_ : ∀ c, line.receive b ≠ .last c := by
    intro c
    cases wants with
    | header => nofun
    | slot => nofun
    | home => nofun
  refine ⟨before.phase, fun _ => fits, ?_, ?_⟩
  · have copied := before.copied
    cases phase with
    | writeLog =>
      intro i early bound
      rw [counted] at early
      exact copied i early bound
    | commitHead => exact copied
    | install => exact copied
    | readHead => trivial
    | eraseHead => trivial
    | finish => trivial
  · have headed := before.headed
    cases phase with
    | writeLog => trivial
    | commitHead =>
      cases line' : line.receive b with
      | last c => exact absurd line' (open_ c)
      | top => trivial
      | one => trivial
      | two => trivial
      | written => trivial
    | install => exact headed
    | readHead => trivial
    | eraseHead => trivial
    | finish => trivial

variable {tail : Nat} {disk : BlockNo → Block}

omit [DecidableEq P] in
theorem both_read {phase : SyncPhase} {b c : BufNo} (ready : m.pc p = .ready)
    (syncs : m.job p = .sync ⟨recovery, phase, tail, .two b c⟩) :
    m.content (logBlock m.start tail) = (m.buf b).data ∧
      m.content (m.lh.getD tail 0) = (m.buf c).data ∧
      m.At b (logBlock m.start tail) ∧ m.At c (m.lh.getD tail 0) := by
  have valid : ∀ d ∈ [b, c], (m.buf d).valid := by
    intro d member
    have holds : d ∈ m.held p := by
      refine sound.wf.works.regs p d ?_
      rw [syncs]
      exact member
    exact (sound.wf.works.valid p d holds).resolve_right (by rw [ready]; nofun)
  have regs := (sound.located p _ syncs).regs
  have blocks : (⟨recovery, phase, tail, .two b c⟩ : Sync).blocks m.start m.lh =
      [logBlock m.start tail, m.lh.getD tail 0] := by
    cases phase <;> rfl
  rw [blocks] at regs
  cases regs with
  | cons first rest =>
    cases rest with
    | cons second rest =>
      exact ⟨content_of_valid sound.wf (valid b (by simp)) first,
        content_of_valid sound.wf (valid c (by simp)) second, first, second⟩

theorem content_bwrite {s next : Sync} {data : Block} (ready : m.pc p = .ready)
    (syncs : m.job p = .sync s) (fills : s.Fills m.buf m.lh b data next) :
    ((m.filled p b data).setJob p (.sync next)).content =
      update m.content (m.buf b).blockno data := by
  have holds : b ∈ m.held p := by
    refine sound.wf.works.regs p b ?_
    rw [syncs]
    exact fills.regs.1
  have valid : (m.buf b).valid :=
    (sound.wf.works.valid p b holds).resolve_right (by rw [ready]; nofun)
  have moves : Moves m (.advance p) ((m.filled p b data).setJob p (.sync next)) :=
    .sync p s _ ready syncs (.bwrite b data next fills)
  exact content_filled sound.wf (sound.wf.step moves) rfl rfl
    (sound.located.root syncs fills.regs.1) valid

omit [DecidableEq P] in
theorem progress_log {target source : BufNo} (ready : m.pc p = .ready)
    (syncs : m.job p = .sync ⟨recovery, .writeLog, tail, .two target source⟩)
    (commits : recovery = false)
    (copies : content = update m.content (m.buf target).blockno (m.buf source).data)
    {pc : BufPc} :
    (⟨recovery, .writeLog, tail, .written source target⟩ : Sync).Progress m.start m.size m.lh
      content disk buf pc := by
  have recovered := sound.recovered syncs commits
  have before := sound.committing p _ syncs commits
  have fits := before.fits (.inr (.inr nofun))
  have bounded := sound.listed.bounded recovered
  have bound : tail < m.lh.length :=
    (sound.located p _ syncs).bound ⟨.inl rfl, nofun⟩
  obtain ⟨-, fromSource, atTarget, -⟩ := sound.both_read ready syncs
  rw [atTarget.2] at copies
  -- a home block is not the log block that is filled
  have homes : ∀ i, i < m.lh.length → m.lh.getD i 0 ≠ logBlock m.start tail := by
    intro i inside same
    refine sound.listed.home recovered _ (mem_entry inside) ?_
    rw [same]
    exact inLog_slot fits bound
  refine ⟨nofun, fun _ => fits, fun i early inside => ?_, trivial⟩
  rw [copies, update_of_ne (homes i inside)]
  by_cases last : i = tail
  · subst last
    rw [update_self, fromSource]
  · have other : logBlock m.start i ≠ logBlock m.start tail := by
      intro same
      exact last (slot_injective (by omega) (by omega) same)
    rw [update_of_ne other]
    have earlier : i < tail + 1 := early
    exact before.copied i (show i < tail by omega) inside

omit [DecidableEq P] in
theorem progress_home {lbuf dbuf : BufNo} (ready : m.pc p = .ready)
    (syncs : m.job p = .sync ⟨recovery, .install, tail, .two lbuf dbuf⟩)
    (commits : recovery = false)
    (copies : content = update m.content (m.buf dbuf).blockno (m.buf lbuf).data)
    {pc : BufPc} :
    (⟨recovery, .install, tail, .written lbuf dbuf⟩ : Sync).Progress m.start m.size m.lh
      content m.rootDisk buf pc := by
  have before := sound.committing p _ syncs commits
  have bound : tail < m.lh.length := (sound.located p _ syncs).bound ⟨.inr rfl, nofun⟩
  obtain ⟨fromLog, fromHome, -, atHome⟩ := sound.both_read ready syncs
  have copied := before.copied
  have same : content = m.content := by
    rw [copies, atHome.2, ← fromLog, copied tail bound, update_eq_self]
  refine ⟨nofun, fun _ => before.fits (.inl nofun), ?_, before.headed⟩
  rw [same]
  exact copied

omit [DecidableEq P] in
theorem progress_header (syncs : m.job p = .sync ⟨recovery, .commitHead, tail, .one b⟩)
    (commits : recovery = false) {data : Block}
    (copies : content = update m.content (m.buf b).blockno data) (dirty : (buf b).dirty)
    (filled : ∃ old, (buf b).data = fillHead old m.lh) :
    (⟨recovery, .commitHead, 0, .last b⟩ : Sync).Progress m.start m.size m.lh content disk buf
      (.transfer b) := by
  have recovered := sound.recovered syncs commits
  have before := sound.committing p _ syncs commits
  have bounded := sound.listed.bounded recovered
  have here : m.At b m.start := by
    have regs := (sound.located p _ syncs).regs
    cases regs with
    | cons first rest => exact first
  rw [here.2] at copies
  refine ⟨nofun, fun _ => before.fits (.inl nofun), fun i bound => ?_,
    .inl ⟨rfl, dirty, filled⟩⟩
  have homeApart : m.lh.getD i 0 ≠ m.start := by
    intro same
    refine sound.listed.home recovered _ (mem_entry bound) ?_
    rw [same]
    exact inLog_header sound.room
  have slotApart : logBlock m.start i ≠ m.start := slot_ne_header (by omega)
  rw [copies, update_of_ne slotApart, update_of_ne homeApart]
  exact before.copied i bound

theorem progress_moved {s s' : Sync} (ready : m.pc p = .ready) (syncs : m.job p = .sync s)
    (commits : s'.recovery = false) (moves : SyncMoves m p s m') (after : m'.job p = .sync s') :
    s'.Progress m'.start m'.size m'.lh m'.content m'.rootDisk m'.buf (m'.pc p) := by
  have wholeMoves : Moves m (.advance p) m' := .sync p s m' ready syncs moves
  have wf' := sound.wf.step wholeMoves
  have set : ∀ {n : CacheSystem P} {job : Job}, (n.setJob p job).job p = .sync s' →
      job = .sync s' := by
    intro n job after
    rwa [job_setJob, if_pos rfl] at after
  have small : (logSize : Int) = 30 := rfl
  have room := sound.room
  cases moves with
  | bread blockno wants =>
    cases syncs.symm.trans after
    refine sound.progress_stayed wholeMoves syncs commits rfl
      (content_quiet rfl rfl) fun b now => ?_
    rw [show (m.setPc p (.bget rootDev blockno)).pc p = _ from update_self _ _ _] at now
    cases now
  | bwrite b data next fills =>
    cases set after
    have content := sound.content_bwrite ready syncs fills
    cases fills with
    | log => exact sound.progress_log ready syncs commits content
    | home => exact sound.progress_home ready syncs commits content
    | header head =>
      rcases head with rfl | rfl
      · have self : ∀ job, ((m.filled p b (fillHead (m.buf b).data m.lh)).setJob p job).buf b = _ :=
          fun _ => Bcache.setBuf_self _ _ _
        have now : ∀ job, ((m.filled p b (fillHead (m.buf b).data m.lh)).setJob p job).pc p =
          .transfer b := fun _ => update_self _ _ _
        rw [now]
        exact sound.progress_header syncs commits content (by rw [self]) ⟨_, by rw [self]⟩
      · have before := sound.committing p _ syncs commits
        exact ⟨nofun, fun _ => before.fits (.inl nofun), trivial, trivial⟩
  | brelse b next drops =>
    cases set after
    have content : ((m.dropped p b).setJob p (.sync s')).content = m.content :=
      content_marked sound.wf wf' rfl rfl
    rw [content]
    have before := sound.committing p s syncs (drops.recovery.symm.trans commits)
    cases drops with
    | first loop | second loop =>
      rcases loop with rfl | rfl
      · exact ⟨nofun, fun _ => before.fits (.inr (.inr nofun)), before.copied, trivial⟩
      · exact ⟨nofun, fun _ => before.fits (.inl nofun), before.copied, before.headed⟩
    | header head =>
      rcases head with rfl | rfl
      · exact absurd rfl before.phase
      · refine ⟨nofun, fun _ => before.fits (.inl nofun), before.copied, ?_⟩
        rcases before.headed with ⟨now, -⟩ | ⟨-, listed⟩
        · exact absurd (ready.symm.trans now) nofun
        · exact listed
    | erased => exact ⟨nofun, fun _ => before.fits (.inl nofun), trivial, trivial⟩
  | readHead b lh read =>
    cases set after
    exact absurd rfl (sound.committing p _ syncs commits).phase
  | logWritten past =>
    cases set after
    have before := sound.committing p _ syncs commits
    rw [show (m.setJob p _).content = m.content from content_quiet rfl rfl]
    refine ⟨nofun, fun _ => ?_, fun i bound => ?_, trivial⟩
    · change (m.lh.length : Int) ≤ m.size - 1
      by_cases none : m.lh.length = 0
      · omega
      · refine before.fits (.inr (.inl fun zero => none ?_))
        exact Nat.le_zero.mp (past.trans (Nat.le_of_eq zero))
    · exact before.copied i (lt_of_lt_of_le bound past) bound
  | installed past =>
    cases set after
    refine ⟨nofun, fun _ => ?_, trivial, trivial⟩
    change ((0 : Nat) : Int) ≤ m.size - 1
    omega
  | recovered => cases set after
  | committed => cases set after

theorem committing_step (moves : Moves m a m') : m'.Committing := by
  intro q s after commits
  cases syncStep_of_moves sound.wf sound.exclusive sound.located sound.settled moves after with
  | began inOp lh => exact sound.progress_began lh (log_of_moves moves).2
  | stayed before lh content pc => exact sound.progress_stayed moves before commits lh content pc
  | received blockno b before lh content disk wants here free old =>
    exact sound.progress_received moves before commits lh content disk wants free old
  | moved ready before moves after => exact sound.progress_moved ready before commits moves after

end Sound

end CacheSystem

end Xv6
