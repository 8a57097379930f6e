import Xv6.Cache.Progress
import Xv6.Log.Group

/-!
# Logged blocks stay in the cache

From its `log_write` until `commit` writes it home, a logged block is in a dirty buffer, and the
header on disk lists it before it is written home.
-/

namespace Xv6

namespace CacheSystem

variable {P : Type} [DecidableEq P] {m m' : CacheSystem P} {a : CacheAction P} {p : P}

namespace Sound

variable (sound : m.Sound)

include sound

theorem listed_logged {b : BufNo} {data : Block} (now : m.pc p = .logging b data)
    (bounded : (absorb (m.buf b).blockno m.lh).length ≤ logSize) :
    (m.logged p b data).Listed := by
  have inOp := sound.exclusive.logging p b data now
  have recovered := sound.exclusive.begun p inOp
  have nobody : ∀ q s, m.job q ≠ .sync s := by
    intro q s syncs
    have none := sound.exclusive.not_syncing inOp q
    rw [syncs] at none
    cases none
  obtain ⟨root, outside⟩ := sound.settled.logging p b data now
  have self : (m.logged p b data).buf b = _ := Bcache.setBuf_self _ _ _
  have others : ∀ c, c ≠ b → (m.logged p b data).buf c = m.buf c :=
    fun c other => Bcache.setBuf_of_ne other _ _
  refine ⟨fun _ => bounded, fun _ => absorb_nodup _ (sound.listed.nodup recovered),
    fun _ blockno member => ?_, fun _ _ blockno member => ?_,
    fun q s syncs => absurd syncs (nobody q s)⟩
  · rcases mem_absorb.mp member with rfl | member
    · exact outside
    · exact sound.listed.home recovered blockno member
  · rcases mem_absorb.mp member with rfl | member
    · refine ⟨b, ?_, ?_⟩
      · rw [At, self]
        exact ⟨root, rfl⟩
      · rw [self]
    · obtain ⟨c, here, dirty⟩ := sound.listed.pinned recovered
        (fun q s syncs => absurd syncs (nobody q s)) blockno member
      refine ⟨c, ?_, ?_⟩
      · by_cases same : c = b
        · subst same
          rw [At, self]
          exact here
        · rw [At, others c same]
          exact here
      · by_cases same : c = b
        · rw [same, self]
        · rw [others c same]
          exact dirty

theorem listed_kept (moves : Moves m a m') (lh : m'.lh = m.lh)
    (recovered : m'.recovered = m.recovered)
    (phases : ∀ q s, m'.job q = .sync s → (∃ t, m.job q = .sync t ∧
        ((s.phase = .writeLog ∨ s.phase = .commitHead) →
          (t.phase = .writeLog ∨ t.phase = .commitHead)) ∧
        (s.phase = .eraseHead ∨ s.phase = .finish → t.phase = .eraseHead ∨ t.phase = .finish)) ∨
      (m.job q = .inOp ∧ (s.phase = .eraseHead ∨ s.phase = .finish → m.lh = [])))
    (syncing : ∀ q s, m.job q = .sync s → ∃ t, m'.job q = .sync t) : m'.Listed := by
  obtain ⟨start, size⟩ := log_of_moves moves
  refine ⟨?_, ?_, ?_, fun isRecovered early blockno member => ?_, fun q s syncs erased => ?_⟩
  · rw [recovered, lh]
    exact sound.listed.bounded
  · rw [recovered, lh]
    exact sound.listed.nodup
  · rw [recovered, lh, start, size]
    exact sound.listed.home
  · rw [recovered] at isRecovered
    rw [lh] at member
    have before : ∀ q s, m.job q = .sync s → s.phase = .writeLog ∨ s.phase = .commitHead := by
      intro q s syncs
      obtain ⟨t, after⟩ := syncing q s syncs
      rcases phases q t after with ⟨u, same, back, -⟩ | ⟨inOp, -⟩
      · cases syncs.symm.trans same
        exact back (early q t after)
      · exact absurd (syncs.symm.trans inOp) (by rintro ⟨⟩)
    obtain ⟨b, here, dirty⟩ := sound.listed.pinned isRecovered before blockno member
    have home := sound.listed.home isRecovered blockno member
    refine ⟨b, ?_⟩
    cases dirtyStep_of_moves sound.wf moves b with
    | logged p data now =>
      have self : (m.logged p b data).buf b = _ := Bcache.setBuf_self _ _ _
      rw [At, self]
      exact ⟨here, rfl⟩
    | filled p s next data ready syncs fills =>
      have self : ((m.filled p b data).setJob p (.sync next)).buf b = _ := Bcache.setBuf_self _ _ _
      rw [At, self]
      exact ⟨here, rfl⟩
    | written p now _ =>
      -- before the installation a commit writes the log region only
      obtain ⟨s, syncs, target⟩ := sound.settled.writer p b now dirty
      refine absurd ?_ home
      have located := sound.located p s syncs
      have progress := sound.committing p s syncs (sound.commits isRecovered syncs)
      rw [← here.2]
      obtain ⟨-, turn, there⟩ | ⟨phase, -⟩ | ⟨-, there⟩ := located.target target
      · rw [there.2]
        exact inLog_slot (progress.fits (.inr (.inr turn.2))) (located.bound turn)
      · rcases before p s syncs with stage | stage
        · exact absurd (phase.symm.trans stage) (by rintro ⟨⟩)
        · exact absurd (phase.symm.trans stage) (by rintro ⟨⟩)
      · rw [there.2]
        exact inLog_header sound.room
    | kept stays same transfer =>
      obtain ⟨dev, block, -, -⟩ := same dirty
      rw [At, dev, block, stays]
      exact ⟨here, dirty⟩
  · rw [lh]
    rcases phases q s syncs with ⟨t, before, -, forth⟩ | ⟨-, empty⟩
    · exact sound.listed.cleared q t before (forth erased)
    · exact empty erased

omit [DecidableEq P] sound in
theorem listed_empty (empty : m.lh = []) : m.Listed where
  bounded _ := by
    rw [empty]
    exact Nat.zero_le logSize
  nodup _ := by
    rw [empty]
    exact List.nodup_nil
  home _ blockno member := by
    rw [empty] at member
    cases member
  pinned _ _ blockno member := by
    rw [empty] at member
    cases member
  cleared _ _ _ _ := empty

theorem listed_sync {s : Sync} (ready : m.pc p = .ready) (syncs : m.job p = .sync s)
    (moves : SyncMoves m p s m') : m'.Listed := by
  have wholeMoves : Moves m (.advance p) m' := .sync p s m' ready syncs moves
  -- a step to another place of the same process
  have changes : ∀ {n : CacheSystem P} {next : Sync}, n.job = m.job → n.lh = m.lh →
      n.recovered = m.recovered → Moves m (.advance p) (n.setJob p (.sync next)) →
      ((next.phase = .writeLog ∨ next.phase = .commitHead) →
        (s.phase = .writeLog ∨ s.phase = .commitHead)) →
      (next.phase = .eraseHead ∨ next.phase = .finish →
        s.phase = .eraseHead ∨ s.phase = .finish) → (n.setJob p (.sync next)).Listed := by
    intro n next jobs lh recovered moves back forth
    refine sound.listed_kept moves lh recovered (fun q t after => .inl ?_) fun q t before => ?_
    · rw [job_setJob] at after
      split at after
      · rename_i self
        cases after
        rw [self]
        exact ⟨s, syncs, back, forth⟩
      · rw [jobs] at after
        exact ⟨t, after, id, id⟩
    · rw [job_setJob]
      split
      · exact ⟨next, rfl⟩
      · rw [jobs]
        exact ⟨t, before⟩
  cases moves with
  | bread blockno wants =>
    exact sound.listed_kept wholeMoves rfl rfl (fun q t after => .inl ⟨t, after, id, id⟩)
      fun q t before => ⟨t, before⟩
  | bwrite b data next fills =>
    have phase : next.phase = s.phase := by cases fills <;> rfl
    exact changes rfl rfl rfl wholeMoves (by rw [phase]; exact id) (by rw [phase]; exact id)
  | brelse b next drops =>
    refine changes rfl rfl rfl wholeMoves ?_ ?_
    · cases drops with
      | first => exact id
      | second => exact id
      | header => nofun
      | erased => nofun
    · cases drops with
      | first => exact id
      | second => exact id
      | header => nofun
      | erased => exact fun _ => .inl rfl
  | readHead b lh read =>
    -- a header is read in the recovery only
    have recovering : m.recovered = false := by
      rename_i recovery tail
      cases recovery with
      | true => exact (sound.exclusive.stopped p true (by rw [syncs]; rfl)).2.1 rfl
      | false => exact absurd rfl (sound.committing p _ syncs rfl).phase
    have notYet : ¬ m.recovered := by rw [recovering]; nofun
    refine ⟨fun after => absurd after notYet, fun after => absurd after notYet,
      fun after => absurd after notYet, fun after => absurd after notYet,
      fun q t after erased => ?_⟩
    rw [job_setJob] at after
    split at after
    · cases after
      rcases erased with erased | erased <;> cases erased
    · rename_i other
      have second : m.job q = .sync t := after
      exact absurd (sound.exclusive.single q p (by rw [second]; nofun) (by rw [syncs]; nofun)) other
  | logWritten past => exact changes rfl rfl rfl wholeMoves (fun _ => .inl rfl) nofun
  | installed past => exact listed_empty rfl
  | recovered => exact listed_empty (sound.listed.cleared p _ syncs (.inr rfl))
  | committed => exact listed_empty (sound.listed.cleared p _ syncs (.inr rfl))

theorem listed_step (moves : Moves m a m') : m'.Listed := by
  -- steps after which every process is where it was in its commit
  have same : m'.lh = m.lh → m'.recovered = m.recovered →
      (∀ q s, m'.job q = .sync s ↔ m.job q = .sync s) → m'.Listed := by
    intro lh recovered jobs
    exact sound.listed_kept moves lh recovered
      (fun q t after => .inl ⟨t, (jobs q t).mp after, id, id⟩)
      fun q t before => ⟨t, (jobs q t).mpr before⟩
  have set : ∀ {p : P} {job : Job} {q : P} {s : Sync}, (∀ t, job ≠ .sync t) →
      (∀ t, m.job p ≠ .sync t) →
      (Function.update m.job p job q = .sync s ↔ m.job q = .sync s) := by
    intro p job q s after before
    rw [Function.update_apply]
    split
    · rename_i self
      rw [self]
      exact iff_of_false (after s) (before s)
    · exact .rfl
  have received : ∀ {p : P} {b : BufNo} {cache : Bcache}, m' = m.received p b cache →
      m'.Listed := by
    rintro p b cache rfl
    have jobs : ∀ q, (m.received p b cache).job q =
        if q = p then (m.job p).receive b else m.job q := fun q => job_setJob _ p _ q
    refine sound.listed_kept moves rfl rfl (fun q t after => .inl ?_) fun q t before => ?_
    · rw [jobs] at after
      split at after
      · rename_i self
        rw [self]
        cases before : m.job p with
        | outside =>
          rw [before] at after
          cases after
        | inOp =>
          rw [before] at after
          cases after
        | sync s =>
          rw [before] at after
          cases after
          exact ⟨s, rfl, id, id⟩
      · exact ⟨t, after, id, id⟩
    · rw [jobs]
      split
      · rename_i self
        rw [← self, before]
        exact ⟨_, rfl⟩
      · exact ⟨t, before⟩
  cases moves with
  | beginOp p ready outside =>
    exact same rfl rfl fun q s => set (by nofun) (by rw [outside]; nofun)
  | endOp p ready inOp => exact same rfl rfl fun q s => set (by nofun) (by rw [inOp]; nofun)
  | commit p ready inOp last =>
    refine sound.listed_kept (.commit p ready inOp last) rfl rfl (fun q t after => ?_)
      fun q t before => ?_
    · rw [job_setJob] at after
      split at after
      · rename_i self
        cases after
        rw [self]
        refine .inr ⟨inOp, fun erased => ?_⟩
        by_cases some : 0 < m.lh.length
        · simp only [if_pos some] at erased
          rcases erased with erased | erased <;> cases erased
        · exact List.length_eq_zero_iff.mp (by omega)
      · exact .inl ⟨t, after, id, id⟩
    · have none := sound.exclusive.not_syncing inOp q
      rw [before] at none
      cases none
  | bread => exact same rfl rfl fun _ _ => .rfl
  | logWrite => exact same rfl rfl fun _ _ => .rfl
  | brelse => exact same rfl rfl fun _ _ => .rfl
  | sleeps => exact same rfl rfl fun _ _ => .rfl
  | hits => exact received rfl
  | recycles => exact received rfl
  | reads => exact same rfl rfl fun _ _ => .rfl
  | writes => exact same rfl rfl fun _ _ => .rfl
  | append p b data now bounded => exact sound.listed_logged now bounded
  | sync p s m' ready syncs moves => exact sound.listed_sync ready syncs moves

theorem step (home : m.LogsHome a) (moves : Moves m a m') : m'.Sound where
  wf := sound.wf.step moves
  exclusive := sound.exclusive.step moves
  located := sound.located.step sound.wf sound.exclusive moves
  settled := sound.settled.step sound.wf sound.exclusive sound.located home moves
  listed := sound.listed_step moves
  committing := sound.committing_step moves
  room := by
    rw [(log_of_moves moves).2]
    exact sound.room

end Sound

theorem booted_sound {size : Int} (room : (logSize : Int) ≤ size) (start : BlockNo)
    (havedisk1 : Bool) (disk : Bool → BlockNo → Block) (first : P) :
    (booted start size havedisk1 disk first).Sound := by
  have jobs : ∀ q, (booted start size havedisk1 disk first).job q =
      if q = first then .sync ⟨true, .readHead, 0, .top⟩ else .outside :=
    fun q => by simp only [booted, Function.update_apply]
  have job : ∀ q s, (booted start size havedisk1 disk first).job q = .sync s →
      q = first ∧ s = ⟨true, .readHead, 0, .top⟩ := by
    intro q s syncs
    rw [jobs] at syncs
    split at syncs
    · rename_i self
      cases syncs
      exact ⟨self, rfl⟩
    · cases syncs
  have syncing : ∀ q recovery,
      ((booted start size havedisk1 disk first).job q).syncing = some recovery →
      q = first ∧ recovery = true := by
    intro q recovery syncs
    cases now : (booted start size havedisk1 disk first).job q with
    | sync s =>
      obtain ⟨isFirst, rfl⟩ := job q s now
      rw [now] at syncs
      cases syncs
      exact ⟨isFirst, rfl⟩
    | outside =>
      rw [now] at syncs
      cases syncs
    | inOp =>
      rw [now] at syncs
      cases syncs
  have noOp : ∀ q, (booted start size havedisk1 disk first).job q ≠ .inOp := by
    intro q
    rw [jobs]
    split <;> rintro ⟨⟩
  refine ⟨booted_wf start size havedisk1 disk first, ⟨⟨[], List.nodup_nil, fun q => ?_, rfl⟩,
    fun q r first second => ?_, fun q recovery syncs => ?_, fun q now => absurd now (noOp q),
    by rintro _ _ _ ⟨⟩⟩, fun q s syncs => ?_, ⟨by rintro _ _ _ ⟨⟩, by rintro _ ⟨⟩,
      by rintro _ _ ⟨⟩, by rintro _ ⟨⟩⟩, Sound.listed_empty rfl,
    fun q s syncs commits => ?_, room⟩
  · exact iff_of_false (by rintro ⟨⟩) (noOp q)
  · obtain ⟨_, isFirst⟩ := Option.ne_none_iff_exists'.mp first
    obtain ⟨_, isSecond⟩ := Option.ne_none_iff_exists'.mp second
    rw [(syncing q _ isFirst).1, (syncing r _ isSecond).1]
  · obtain ⟨-, rfl⟩ := syncing q recovery syncs
    exact ⟨rfl, fun _ => rfl, by rintro ⟨⟩⟩
  · obtain ⟨-, rfl⟩ := job q s syncs
    exact ⟨.nil, fun turn => absurd rfl turn.2, by rintro _ _ ⟨⟩, by rintro ⟨⟩⟩
  · obtain ⟨-, rfl⟩ := job q s syncs
    cases commits

/-- The buffer was marked by `log_write`, and `commit` has not passed it to `bwrite` since. -/
def Pinned (m : CacheSystem P) (b : BufNo) : Prop :=
  (m.buf b).dirty ∧ ∀ p, m.pc p ≠ .transfer b

def PinnedAs (m : CacheSystem P) (b : BufNo) (dev : Word) (blockno : BlockNo) (data : Block) :
    Prop :=
  m.Pinned b ∧ (m.buf b).dev = dev ∧ (m.buf b).blockno = blockno ∧ (m.buf b).data = data

def CommittedOnDisk (m : CacheSystem P) (blockno : BlockNo) : Prop :=
  readHead (m.rootDisk m.start) = .ok m.lh ∧ blockno ∈ m.lh

/-- The step marks the buffer again by `log_write`, or it is the `bwrite` of `install_trans` that
writes the buffer home, after the commit point and with the contents that it has. -/
def Unpins (b : BufNo) (m : CacheSystem P) (a : CacheAction P) (_ : CacheSystem P) : Prop :=
  (∃ p data, a = .advance p ∧ m.pc p = .logging b data) ∨
    (∃ p tail lbuf, a = .advance p ∧ m.pc p = .ready ∧
      m.job p = .sync ⟨false, .install, tail, .two lbuf b⟩ ∧
      m.CommittedOnDisk (m.buf b).blockno ∧ (m.buf lbuf).data = (m.buf b).data)

theorem Sound.pinned_step (sound : m.Sound) (moves : Moves m a m') {b : BufNo} {dev : Word}
    {blockno : BlockNo} {data : Block} (pinned : m.PinnedAs b dev blockno data) :
    m'.PinnedAs b dev blockno data ∨ Unpins b m a m' := by
  obtain ⟨⟨dirty, still⟩, isDev, isBlock, isData⟩ := pinned
  have home := sound.home_of_dirty dirty still
  cases dirtyStep_of_moves sound.wf moves b with
  | logged p data now => exact .inr (.inl ⟨p, data, rfl, now⟩)
  | written p now _ => exact absurd now (still p)
  | kept stays same transfer =>
    obtain ⟨dev', block', -, data'⟩ := same dirty
    refine .inl ⟨⟨stays.trans dirty, fun p now => still p ((transfer p dirty).mp now)⟩, ?_, ?_, ?_⟩
    · exact dev'.trans isDev
    · exact block'.trans isBlock
    · exact data'.trans isData
  | filled p s next data ready syncs fills =>
    have recovered : m.recovered := by
      rcases (sound.settled.dirty b dirty).2 with ⟨q, now⟩ | ⟨recovered, -⟩
      · exact absurd now (still q)
      · exact recovered
    have commits := sound.commits recovered syncs
    have progress := sound.committing p s syncs commits
    have located := sound.located p s syncs
    cases fills with
    | log =>
      -- the target of a copy to the log is in the log region
      have here := (sound.both_read ready syncs).2.2.1
      refine absurd ?_ home
      rw [here.2]
      exact inLog_slot (progress.fits (.inr (.inr nofun))) (located.bound ⟨.inl rfl, nofun⟩)
    | header head =>
      have here : m.At b m.start := by
        have regs := located.regs
        rcases head with rfl | rfl
        · cases regs with
          | cons first rest => exact first
        · cases regs with
          | cons first rest => exact first
      refine absurd ?_ home
      rw [here.2]
      exact inLog_header sound.room
    | home =>
      rename_i recovery tail lbuf
      cases commits
      have bound : tail < m.lh.length := located.bound ⟨.inr rfl, nofun⟩
      obtain ⟨fromLog, fromHome, -, here⟩ := sound.both_read ready syncs
      refine .inr (.inr ⟨p, tail, lbuf, rfl, ready, syncs, ⟨progress.headed, ?_⟩, ?_⟩)
      · rw [here.2]
        exact mem_entry bound
      · rw [← fromLog, ← fromHome]
        exact progress.copied tail bound

theorem Sound.home_step (sound : m.Sound) (moves : Moves m a m') (recovered : m.recovered)
    {blockno : BlockNo} (home : ¬ InLog m.start m.size blockno)
    (changes : m'.rootDisk blockno ≠ m.rootDisk blockno) : m.CommittedOnDisk blockno := by
  rcases rootDisk_of_moves sound.settled moves with same | ⟨p, b, now, dirty, -, written⟩
  · exact absurd (congrFun same blockno) changes
  · have here : (m.buf b).blockno = blockno := by
      by_contra other
      rw [written, Function.update_of_ne (Ne.symm other)] at changes
      exact changes rfl
    obtain ⟨s, syncs, target⟩ := sound.settled.writer p b now dirty
    have progress := sound.committing p s syncs (sound.commits recovered syncs)
    have located := sound.located p s syncs
    rw [← here] at home ⊢
    obtain ⟨-, turn, there⟩ | ⟨phase, turn, there⟩ | ⟨-, there⟩ := located.target target
    · rw [there.2] at home
      exact absurd (inLog_slot (progress.fits (.inr (.inr turn.2))) (located.bound turn)) home
    · rw [there.2]
      obtain ⟨recovery, _, tail, line⟩ := s
      cases phase
      exact ⟨progress.headed, mem_entry (located.bound turn)⟩
    · rw [there.2] at home
      exact absurd (inLog_header sound.room) home

theorem reached_sound {start : BlockNo} {size : Int} (room : (logSize : Int) ≤ size)
    {havedisk1 : Bool} {disk : Bool → BlockNo → Block} {first : P}
    {actions : List (CacheAction P)}
    (home : Transition.Along step LogsHome (booted start size havedisk1 disk first) actions)
    (reached : Transition.run step (booted start size havedisk1 disk first) actions = .ok m) :
    m.Sound :=
  Transition.run_invariant_along Sound
    (fun _ _ _ sound home taken => sound.step home (moves_of_step sound.wf.ring taken))
    (booted_sound room start havedisk1 disk first) home reached

/-- Whatever the processes do, the ring goes through all buffers, no block is in two buffers, and a
busy buffer belongs to exactly one process. If they log home blocks, a buffer that `log_write` has
marked keeps its block and its contents until it is marked again or `install_trans` writes it home,
and after the recovery home blocks change on disk only when the header on disk lists them. -/
theorem buffer_cache_invariant {start : BlockNo} {size : Int} {havedisk1 : Bool}
    {disk : Bool → BlockNo → Block} {first : P} {actions : List (CacheAction P)}
    (reached : Transition.run step (booted start size havedisk1 disk first) actions = .ok m) :
    m.cache.RingOfAll ∧ m.Unique ∧ (∀ b, (m.buf b).busy → ∃! p, b ∈ m.held p) ∧
      ((logSize : Int) ≤ size →
        Transition.Along step LogsHome (booted start size havedisk1 disk first) actions →
        (∀ b, m.Pinned b → ∀ more final, Transition.Along step LogsHome m more →
          Transition.run step m more = .ok final →
          final.PinnedAs b (m.buf b).dev (m.buf b).blockno (m.buf b).data ∨
            Transition.Occurs step (Unpins b) m more) ∧
        (∀ a next blockno, m.recovered → m.step a = .ok next →
          ¬ InLog m.start m.size blockno → next.rootDisk blockno ≠ m.rootDisk blockno →
          m.CommittedOnDisk blockno)) := by
  have wf := reached_wf reached
  refine ⟨wf.ring, wf.unique, fun b busy => ?_, fun room home => ⟨?_, ?_⟩⟩
  · obtain ⟨p, member⟩ := (wf.owned.busy_iff b).mp busy
    exact ⟨p, member, fun q other => wf.owned.holder q p b other member⟩
  · intro b pinned more final homeMore ran
    have kept := Transition.run_stage_along
      (fun n => n.Sound ∧ n.PinnedAs b (m.buf b).dev (m.buf b).blockno (m.buf b).data) (Unpins b)
      (fun n a next both home taken => ?_)
      ⟨reached_sound room home reached, pinned, rfl, rfl, rfl⟩ homeMore ran
    · exact kept.imp_left And.right
    · have moves := moves_of_step both.1.wf.ring taken
      exact (both.1.pinned_step moves both.2).imp_left fun stays => ⟨both.1.step home moves, stays⟩
  · intro a next blockno recovered taken outside changes
    have sound := reached_sound room home reached
    exact sound.home_step (moves_of_step wf.ring taken) recovered outside changes

/-- The first process recovers from an empty log, begins an operation, and reads and logs
block 40. -/
def logsBlock : List (CacheAction Bool) :=
  [.advance true, .advance true, .advance true, .advance true, .advance true, .advance true,
    .advance true, .advance true, .advance true, .advance true, .advance true, .advance true,
    .beginOp true, .bread true 1 40, .advance true, .advance true, .logWrite true 1 (fun _ => 7),
    .advance true]

/-- A logged block is in a buffer that stays pinned. -/
theorem buffer_cache_invariant_logged : ∃ m : CacheSystem Bool,
    Transition.run step (booted 2 30 true (fun _ _ _ => 0) true) logsBlock = .ok m ∧
      m.Pinned 1 ∧ (m.buf 1).blockno = 40 ∧ (∃! p, 1 ∈ m.held p) ∧
      ∀ more final, Transition.Along step LogsHome m more →
        Transition.run step m more = .ok final →
        final.PinnedAs 1 (m.buf 1).dev (m.buf 1).blockno (m.buf 1).data ∨
          Transition.Occurs step (Unpins 1) m more := by
  have checked : Transition.ends (fun m : CacheSystem Bool => decide ((m.buf 1).dirty ∧
      (m.buf 1).busy ∧ (m.buf 1).blockno = 40 ∧ (m.pc false).uses = none ∧
      (m.pc true).uses = none))
      (Transition.run step (booted 2 30 true (fun _ _ _ => 0) true) logsBlock) = true := by
    decide +kernel
  have home : Transition.Along step LogsHome
      (booted 2 30 true (fun _ _ _ => 0) true) logsBlock := by
    decide +kernel
  obtain ⟨m, ran, results⟩ := Transition.exists_of_ends checked
  obtain ⟨dirty, busy, block, other, self⟩ := of_decide_eq_true results
  have pinned : m.Pinned 1 := by
    refine ⟨dirty, fun p now => ?_⟩
    cases p with
    | false =>
      rw [now] at other
      cases other
    | true =>
      rw [now] at self
      cases self
  have whole := buffer_cache_invariant ran
  exact ⟨m, ran, pinned, block, whole.2.2.1 1 busy,
    (whole.2.2.2 (by decide) home).1 1 pinned⟩

end CacheSystem

end Xv6
