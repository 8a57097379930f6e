import Xv6.Cache.Moves

/-!
# The invariant of the buffer cache

The ring goes through all buffers, no block is in two buffers, and a buffer is busy exactly while
one process has it. A process that transfers or logs a buffer has it, and so does `commit` with
the buffers it works on. A buffer that a process has holds data, unless it is being read.
-/

namespace Xv6

open Function (update_apply update_eq_self update_of_ne update_self)

def BufPc.uses : BufPc → Option BufNo
  | .transfer b => some b
  | .logging b _ => some b
  | _ => none

def SyncLine.regs : SyncLine → List BufNo
  | .top => []
  | .one b => [b]
  | .two b c => [b, c]
  | .written b c => [b, c]
  | .last b => [b]

def Job.regs : Job → List BufNo
  | .sync s => s.line.regs
  | _ => []

@[simp]
theorem BufPc.uses_wake (b : BufNo) (pc : BufPc) : (pc.wake b).uses = pc.uses := by
  cases pc with
  | asleep c dev blockno =>
    rw [wake]
    split <;> rfl
  | ready => rfl
  | bget => rfl
  | transfer => rfl
  | logging => rfl

@[simp]
theorem BufPc.wake_eq_transfer {b c : BufNo} {pc : BufPc} :
    pc.wake b = .transfer c ↔ pc = .transfer c := by
  cases pc with
  | asleep d dev blockno =>
    rw [wake]
    split <;> simp
  | ready => rfl
  | bget => rfl
  | transfer => rfl
  | logging => rfl

theorem Job.regs_receive (job : Job) (b : BufNo) :
    (job.receive b).regs = job.regs ∨ (job.receive b).regs = job.regs ++ [b] := by
  cases job with
  | outside => exact .inl rfl
  | inOp => exact .inl rfl
  | sync s =>
    obtain ⟨recovery, phase, tail, line⟩ := s
    cases line with
    | top => exact .inr rfl
    | one => exact .inr rfl
    | two => exact .inl rfl
    | written => exact .inl rfl
    | last => exact .inl rfl

theorem Sync.Fills.regs {buf : BufNo → Buf} {lh : List BlockNo} {s next : Sync} {b : BufNo}
    {data : Block} (fills : s.Fills buf lh b data next) :
    b ∈ s.line.regs ∧ next.line.regs.Perm s.line.regs := by
  cases fills with
  | log => exact ⟨by simp [SyncLine.regs], .swap _ _ []⟩
  | home => exact ⟨by simp [SyncLine.regs], .refl _⟩
  | header => exact ⟨by simp [SyncLine.regs], .refl _⟩

theorem Sync.Drops.regs {s next : Sync} {b : BufNo} (drops : s.Drops b next) :
    s.line.regs = b :: next.line.regs := by
  cases drops <;> rfl

namespace CacheSystem

variable {P : Type} [DecidableEq P] {m m' : CacheSystem P} {a : CacheAction P} {p : P}

def Unique (m : CacheSystem P) : Prop :=
  ∀ b c, (m.buf b).dev ≠ -1 → (m.buf b).dev = (m.buf c).dev →
    (m.buf b).blockno = (m.buf c).blockno → b = c

structure Owned (m : CacheSystem P) : Prop where
  busy_iff : ∀ b, (m.buf b).busy ↔ ∃ p, b ∈ m.held p
  holder : ∀ p q b, b ∈ m.held p → b ∈ m.held q → p = q
  nodup : ∀ p, (m.held p).Nodup

structure Works (m : CacheSystem P) : Prop where
  uses : ∀ p b, (m.pc p).uses = some b → b ∈ m.held p
  regs : ∀ p, ∀ b ∈ (m.job p).regs, b ∈ m.held p
  regsNodup : ∀ p, (m.job p).regs.Nodup
  valid : ∀ p, ∀ b ∈ m.held p, (m.buf b).valid ∨ m.pc p = .transfer b
  dirty : ∀ b, (m.buf b).dirty → (m.buf b).valid

structure Wf (m : CacheSystem P) : Prop where
  ring : m.cache.RingOfAll
  unique : m.Unique
  owned : m.Owned
  works : m.Works

omit [DecidableEq P] in
theorem Unique.congr (unique : m.Unique) (dev : ∀ b, (m'.buf b).dev = (m.buf b).dev)
    (blockno : ∀ b, (m'.buf b).blockno = (m.buf b).blockno) : m'.Unique := by
  intro b c named sameDev sameBlock
  rw [dev] at named
  rw [dev, dev] at sameDev
  rw [blockno, blockno] at sameBlock
  exact unique b c named sameDev sameBlock

omit [DecidableEq P] in
theorem Owned.congr (owned : m.Owned) (busy : ∀ b, (m'.buf b).busy = (m.buf b).busy)
    (held : m'.held = m.held) : m'.Owned where
  busy_iff b := by rw [busy, held]; exact owned.busy_iff b
  holder p q b := by rw [held]; exact owned.holder p q b
  nodup p := by rw [held]; exact owned.nodup p

variable {b : BufNo}

omit [DecidableEq P] in
theorem Owned.not_held (owned : m.Owned) (free : (m.buf b).busy = false) (p : P) :
    b ∉ m.held p := by
  intro member
  have busy := (owned.busy_iff b).mpr ⟨p, member⟩
  rw [free] at busy
  cases busy

theorem Owned.received (owned : m.Owned) {cache : Bcache} (free : (m.buf b).busy = false)
    (busy : (cache.buf b).busy) (others : ∀ c, c ≠ b → (cache.buf c).busy = (m.buf c).busy) :
    (m.received p b cache).Owned := by
  have held : ∀ q, (m.received p b cache).held q = if q = p then b :: m.held p else m.held q := by
    intro q
    by_cases self : q = p
    · subst self
      simp [CacheSystem.received, setHeld, setJob, setPc]
    · simp [CacheSystem.received, setHeld, setJob, setPc, self]
  have member : ∀ q c, c ∈ (m.received p b cache).held q ↔ (c = b ∧ q = p) ∨ c ∈ m.held q := by
    intro q c
    rw [held]
    by_cases self : q = p
    · simp [self]
    · simp [self]
  refine ⟨fun c => ?_, fun q r c inQ inR => ?_, fun q => ?_⟩
  · by_cases same : c = b
    · subst same
      refine iff_of_true busy ⟨p, ?_⟩
      rw [member]
      exact .inl ⟨rfl, rfl⟩
    · have unchanged : ((m.received p b cache).buf c).busy = (m.buf c).busy := others c same
      rw [unchanged, owned.busy_iff]
      simp [member, same]
  · rw [member] at inQ inR
    rcases inQ with ⟨rfl, rfl⟩ | inQ
    · rcases inR with ⟨-, rfl⟩ | inR
      · rfl
      · exact absurd inR (owned.not_held free r)
    · rcases inR with ⟨rfl, rfl⟩ | inR
      · exact absurd inQ (owned.not_held free q)
      · exact owned.holder q r c inQ inR
  · rw [held]
    split
    · exact List.nodup_cons.mpr ⟨owned.not_held free p, owned.nodup p⟩
    · exact owned.nodup q

omit [DecidableEq P] in
theorem mem_dropped [DecidableEq P] (owned : m.Owned) (q : P) (c : BufNo) :
    c ∈ (m.dropped p b).held q ↔ c ∈ m.held q ∧ ¬ (c = b ∧ q = p) := by
  by_cases self : q = p
  · subst self
    have erased : (m.dropped q b).held q = (m.held q).erase b := by
      simp [dropped, setHeld, wakeup]
    rw [erased, (owned.nodup q).mem_erase_iff]
    simp [and_comm]
  · have kept : (m.dropped p b).held q = m.held q := by
      simp [dropped, setHeld, wakeup, self]
    simp [kept, self]

theorem dropped_buf (m : CacheSystem P) (p : P) (b c : BufNo) :
    (m.dropped p b).buf c = if c = b then { m.buf b with busy := false } else m.buf c :=
  update_apply _ _ _ _

theorem Owned.dropped (owned : m.Owned) (holds : b ∈ m.held p) : (m.dropped p b).Owned := by
  refine ⟨fun c => ?_, fun q r c inQ inR => ?_, fun q => ?_⟩
  · rw [dropped_buf]
    by_cases same : c = b
    · subst same
      simp only [if_true]
      refine iff_of_false (by simp) ?_
      rintro ⟨q, member⟩
      rw [mem_dropped owned] at member
      have one := owned.holder q p c member.1 holds
      exact member.2 ⟨rfl, one⟩
    · rw [if_neg same, owned.busy_iff]
      simp [mem_dropped owned, same]
  · rw [mem_dropped owned] at inQ inR
    exact owned.holder q r c inQ.1 inR.1
  · by_cases self : q = p
    · subst self
      have erased : (m.dropped q b).held q = (m.held q).erase b := by
        simp [CacheSystem.dropped, setHeld, wakeup]
      rw [erased]
      exact (owned.nodup q).erase b
    · have kept : (m.dropped p b).held q = m.held q := by
        simp [CacheSystem.dropped, setHeld, wakeup, self]
      rw [kept]
      exact owned.nodup q

omit [DecidableEq P] in
theorem Wf.quiet (wf : m.Wf) (cache : m'.cache = m.cache) (held : m'.held = m.held)
    (others : ∀ q, q ≠ p → m'.pc q = m.pc q ∧ m'.job q = m.job q)
    (idle : ∀ b, m.pc p ≠ .transfer b) (uses : ∀ b, (m'.pc p).uses = some b → b ∈ m.held p)
    (regs : (m'.job p).regs = (m.job p).regs ∨ (m'.job p).regs = []) : m'.Wf := by
  have bufs : ∀ b, m'.buf b = m.buf b := fun b => congrArg (fun cache => cache.buf b) cache
  have split : ∀ q, (m'.job q).regs = (m.job q).regs ∨ (m'.job q).regs = [] := by
    intro q
    by_cases self : q = p
    · rw [self]
      exact regs
    · rw [(others q self).2]
      exact .inl rfl
  refine ⟨cache ▸ wf.ring, wf.unique.congr (fun b => by rw [bufs]) (fun b => by rw [bufs]),
    wf.owned.congr (fun b => by rw [bufs]) held, ?_⟩
  refine ⟨fun q b used => ?_, fun q b member => ?_, fun q => ?_, fun q b member => ?_,
    fun b dirty => ?_⟩
  · rw [held]
    by_cases self : q = p
    · subst self
      exact uses b used
    · rw [(others q self).1] at used
      exact wf.works.uses q b used
  · rw [held]
    rcases split q with same | none
    · rw [same] at member
      exact wf.works.regs q b member
    · rw [none] at member
      cases member
  · rcases split q with same | none
    · rw [same]
      exact wf.works.regsNodup q
    · rw [none]
      exact List.nodup_nil
  · rw [held] at member
    rw [bufs]
    refine (wf.works.valid q b member).imp_right fun transfer => ?_
    by_cases self : q = p
    · subst self
      exact absurd transfer (idle b)
    · rw [(others q self).1]
      exact transfer
  · rw [bufs] at dirty ⊢
    exact wf.works.dirty b dirty

theorem Wf.touch (wf : m.Wf) (holds : b ∈ m.held p) {buffer : Buf}
    (cache : m'.cache = m.cache.setBuf b buffer) (held : m'.held = m.held)
    (busy : buffer.busy = (m.buf b).busy) (dev : buffer.dev = (m.buf b).dev)
    (blockno : buffer.blockno = (m.buf b).blockno) (valid : buffer.valid)
    (others : ∀ q, q ≠ p → ((m'.pc q).uses = (m.pc q).uses ∧
      ∀ c, m.pc q = .transfer c → m'.pc q = .transfer c) ∧ m'.job q = m.job q)
    (transfer : ∀ c, m.pc p = .transfer c → c = b)
    (uses : ∀ c, (m'.pc p).uses = some c → c ∈ m.held p)
    (regs : (m'.job p).regs.Perm (m.job p).regs) : m'.Wf := by
  have bufs : ∀ c, m'.buf c = if c = b then buffer else m.buf c := by
    intro c
    rw [show m'.buf c = (m.cache.setBuf b buffer).buf c from
      congrArg (fun cache => cache.buf c) cache]
    exact update_apply _ _ _ _
  have split : ∀ q, (m'.job q).regs.Perm (m.job q).regs := by
    intro q
    by_cases self : q = p
    · rw [self]
      exact regs
    · rw [(others q self).2]
  refine ⟨cache ▸ wf.ring, wf.unique.congr (fun c => ?_) (fun c => ?_),
    wf.owned.congr (fun c => ?_) held, ?_⟩
  · rw [bufs]
    split
    · rename_i same
      rw [same, dev]
    · rfl
  · rw [bufs]
    split
    · rename_i same
      rw [same, blockno]
    · rfl
  · rw [bufs]
    split
    · rename_i same
      rw [same, busy]
    · rfl
  refine ⟨fun q c used => ?_, fun q c member => ?_, fun q => ?_, fun q c member => ?_,
    fun c dirty => ?_⟩
  · rw [held]
    by_cases self : q = p
    · subst self
      exact uses c used
    · rw [(others q self).1.1] at used
      exact wf.works.uses q c used
  · rw [held]
    exact wf.works.regs q c ((split q).mem_iff.mp member)
  · exact (split q).nodup_iff.mpr (wf.works.regsNodup q)
  · rw [held] at member
    rw [bufs]
    split
    · exact .inl valid
    · rename_i different
      refine (wf.works.valid q c member).imp_right fun now => ?_
      by_cases self : q = p
      · subst self
        exact absurd (transfer c now) different
      · exact (others q self).1.2 c now
  · rw [bufs] at dirty ⊢
    split
    · exact valid
    · rename_i different
      rw [if_neg different] at dirty
      exact wf.works.dirty c dirty

theorem Wf.received (wf : m.Wf) {cache : Bcache} (idle : ∀ c, m.pc p ≠ .transfer c)
    (free : (m.buf b).busy = false) (links : cache.links = m.cache.links)
    (busy : (cache.buf b).busy) (dirty : (cache.buf b).dirty → (cache.buf b).valid)
    (unique : (m.received p b cache).Unique) (others : ∀ c, c ≠ b → cache.buf c = m.buf c) :
    (m.received p b cache).Wf := by
  have member : ∀ q c, c ∈ (m.received p b cache).held q ↔ (c = b ∧ q = p) ∨ c ∈ m.held q := by
    intro q c
    by_cases self : q = p
    · subst self
      simp [CacheSystem.received, setHeld, setJob, setPc]
    · simp [CacheSystem.received, setHeld, setJob, setPc, self]
  have ring : cache.RingOfAll := by
    rw [Bcache.RingOfAll, links]
    exact wf.ring
  refine ⟨ring, unique, wf.owned.received free busy fun c other => by rw [others c other], ?_⟩
  refine ⟨fun q c used => ?_, fun q c reg => ?_, fun q => ?_, fun q c inHeld => ?_,
    fun c isDirty => ?_⟩
  · rw [member]
    by_cases self : q = p
    · subst self
      have now : (m.received q b cache).pc q =
          if (cache.buf b).valid then .ready else .transfer b := by
        simp [CacheSystem.received, setPc]
      rw [now] at used
      split at used
      · cases used
      · cases used
        exact .inl ⟨rfl, rfl⟩
    · have same : (m.received p b cache).pc q = m.pc q := by
        simp [CacheSystem.received, setHeld, setJob, setPc, self]
      rw [same] at used
      exact .inr (wf.works.uses q c used)
  · rw [member]
    by_cases self : q = p
    · subst self
      have now : (m.received q b cache).job q = (m.job q).receive b := by
        simp [CacheSystem.received, setJob, setPc]
      rw [now] at reg
      rcases (m.job q).regs_receive b with same | more
      · rw [same] at reg
        exact .inr (wf.works.regs q c reg)
      · rw [more, List.mem_append, List.mem_singleton] at reg
        rcases reg with reg | rfl
        · exact .inr (wf.works.regs q c reg)
        · exact .inl ⟨rfl, rfl⟩
    · have same : (m.received p b cache).job q = m.job q := by
        simp [CacheSystem.received, setHeld, setJob, setPc, self]
      rw [same] at reg
      exact .inr (wf.works.regs q c reg)
  · by_cases self : q = p
    · subst self
      have now : (m.received q b cache).job q = (m.job q).receive b := by
        simp [CacheSystem.received, setJob, setPc]
      have fresh : b ∉ (m.job q).regs := fun reg =>
        wf.owned.not_held free q (wf.works.regs q b reg)
      rw [now]
      rcases (m.job q).regs_receive b with same | more
      · rw [same]
        exact wf.works.regsNodup q
      · rw [more, List.nodup_append_comm]
        exact List.nodup_cons.mpr ⟨fresh, wf.works.regsNodup q⟩
    · have same : (m.received p b cache).job q = m.job q := by
        simp [CacheSystem.received, setHeld, setJob, setPc, self]
      rw [same]
      exact wf.works.regsNodup q
  · change (cache.buf c).valid ∨ _
    rw [member] at inHeld
    rcases inHeld with ⟨rfl, rfl⟩ | inHeld
    · cases valid : (cache.buf c).valid with
      | true => exact .inl rfl
      | false => exact .inr (by simp [CacheSystem.received, setPc, valid])
    · have other : c ≠ b := by
        rintro rfl
        exact wf.owned.not_held free q inHeld
      rw [others c other]
      refine (wf.works.valid q c inHeld).imp_right fun transfer => ?_
      have different : q ≠ p := by
        rintro rfl
        exact idle c transfer
      have same : (m.received p b cache).pc q = m.pc q := by
        simp [CacheSystem.received, setHeld, setJob, setPc, different]
      rw [same]
      exact transfer
  · change (cache.buf c).dirty at isDirty
    change (cache.buf c).valid
    by_cases same : c = b
    · subst same
      exact dirty isDirty
    · rw [others c same] at isDirty ⊢
      exact wf.works.dirty c isDirty

theorem Wf.dropped (wf : m.Wf) {job : Job} (ready : m.pc p = .ready) (holds : b ∈ m.held p)
    (jobs : job.regs = [] ∨ (m.job p).regs = b :: job.regs) :
    ((m.dropped p b).setJob p job).Wf := by
  have member := fun q c => mem_dropped (p := p) (b := b) wf.owned q c
  have bufs := dropped_buf m p b
  have pcs : ∀ q, ((m.dropped p b).setJob p job).pc q = (m.pc q).wake b := fun _ => rfl
  have regsOf : ∀ q, ∀ c ∈ (((m.dropped p b).setJob p job).job q).regs,
      c ∈ (m.job q).regs ∧ ¬ (c = b ∧ q = p) := by
    intro q c reg
    by_cases self : q = p
    · subst self
      have now : ((m.dropped q b).setJob q job).job q = job := by simp [setJob]
      rw [now] at reg
      rcases jobs with none | rest
      · rw [none] at reg
        cases reg
      · have nodup := wf.works.regsNodup q
        rw [rest, List.nodup_cons] at nodup
        refine ⟨by rw [rest]; exact List.mem_cons_of_mem _ reg, ?_⟩
        rintro ⟨rfl, -⟩
        exact nodup.1 reg
    · have same : ((m.dropped p b).setJob p job).job q = m.job q := by
        simp [setJob, CacheSystem.dropped, wakeup, setHeld, self]
      rw [same] at reg
      exact ⟨reg, fun both => self both.2⟩
  have unique : ((m.dropped p b).setJob p job).Unique := by
    refine wf.unique.congr (fun c => ?_) (fun c => ?_)
    · rw [show ((m.dropped p b).setJob p job).buf c = _ from bufs c]
      split
      · rename_i same
        rw [same]
      · rfl
    · rw [show ((m.dropped p b).setJob p job).buf c = _ from bufs c]
      split
      · rename_i same
        rw [same]
      · rfl
  refine ⟨wf.ring.released b, unique, (wf.owned.dropped holds).congr (fun _ => rfl) rfl, ?_⟩
  refine ⟨fun q c used => ?_, fun q c reg => ?_, fun q => ?_, fun q c inHeld => ?_,
    fun c dirty => ?_⟩
  · rw [pcs, BufPc.uses_wake] at used
    refine (member q c).mpr ⟨wf.works.uses q c used, ?_⟩
    rintro ⟨-, rfl⟩
    rw [ready] at used
    cases used
  · obtain ⟨reg, different⟩ := regsOf q c reg
    exact (member q c).mpr ⟨wf.works.regs q c reg, different⟩
  · by_cases self : q = p
    · subst self
      have now : ((m.dropped q b).setJob q job).job q = job := by simp [setJob]
      rw [now]
      rcases jobs with none | rest
      · rw [none]
        exact List.nodup_nil
      · have nodup := wf.works.regsNodup q
        rw [rest] at nodup
        exact (List.nodup_cons.mp nodup).2
    · have same : ((m.dropped p b).setJob p job).job q = m.job q := by
        simp [setJob, CacheSystem.dropped, wakeup, setHeld, self]
      rw [same]
      exact wf.works.regsNodup q
  · rw [pcs, BufPc.wake_eq_transfer, show ((m.dropped p b).setJob p job).buf c = _ from bufs c]
    obtain ⟨inHeld, -⟩ := (member q c).mp inHeld
    have before := wf.works.valid q c inHeld
    split
    · rename_i same
      rw [← same]
      exact before
    · exact before
  · rw [show ((m.dropped p b).setJob p job).buf c = _ from bufs c] at dirty ⊢
    split
    · rename_i same
      rw [if_pos same] at dirty
      exact wf.works.dirty b dirty
    · rename_i different
      rw [if_neg different] at dirty
      exact wf.works.dirty c dirty

theorem Wf.hits (wf : m.Wf) {dev : Word} {blockno : BlockNo} (now : m.pc p = .bget dev blockno)
    (free : (m.buf b).busy = false) : (m.received p b (m.cache.marked b)).Wf := by
  have bufs : ∀ c, (m.cache.marked b).buf c =
      if c = b then { m.buf b with busy := true } else m.buf c :=
    fun c => update_apply _ _ _ _
  refine wf.received (by rw [now]; nofun) free rfl (by rw [bufs, if_pos rfl]) ?_ ?_
    fun c other => by rw [bufs, if_neg other]
  · rw [bufs, if_pos rfl]
    exact wf.works.dirty b
  · refine wf.unique.congr (fun c => ?_) (fun c => ?_)
    · change ((m.cache.marked b).buf c).dev = _
      rw [bufs]
      split
      · rename_i same
        rw [same]
      · rfl
    · change ((m.cache.marked b).buf c).blockno = _
      rw [bufs]
      split
      · rename_i same
        rw [same]
      · rfl

theorem Wf.recycles (wf : m.Wf) {dev : Word} {blockno : BlockNo} (now : m.pc p = .bget dev blockno)
    (missing : ∀ c, m.cache.caches dev blockno c = false) (free : (m.buf b).busy = false) :
    (m.received p b (m.cache.recycled b dev blockno)).Wf := by
  have self : (m.cache.recycled b dev blockno).buf b = _ := Bcache.setBuf_self _ _ _
  have others : ∀ c, c ≠ b → (m.cache.recycled b dev blockno).buf c = m.buf c :=
    fun c other => Bcache.setBuf_of_ne other _ _
  have absent : ∀ c, ¬ ((m.buf c).dev = dev ∧ (m.buf c).blockno = blockno) := by
    intro c found
    rw [← Bcache.caches_iff, missing c] at found
    cases found
  refine wf.received (by rw [now]; nofun) free rfl (by rw [self]) ?_ ?_ others
  · rw [self]
    nofun
  · intro c d named sameDev sameBlock
    change ((m.cache.recycled b dev blockno).buf c).dev ≠ -1 at named
    change ((m.cache.recycled b dev blockno).buf c).dev =
      ((m.cache.recycled b dev blockno).buf d).dev at sameDev
    change ((m.cache.recycled b dev blockno).buf c).blockno =
      ((m.cache.recycled b dev blockno).buf d).blockno at sameBlock
    by_cases isC : c = b
    · by_cases isD : d = b
      · rw [isC, isD]
      · rw [isC, self, others d isD] at sameDev sameBlock
        exact absurd ⟨sameDev.symm, sameBlock.symm⟩ (absent d)
    · rw [others c isC] at named sameDev sameBlock
      by_cases isD : d = b
      · rw [isD, self] at sameDev sameBlock
        exact absurd ⟨sameDev, sameBlock⟩ (absent c)
      · rw [others d isD] at sameDev sameBlock
        exact wf.unique c d named sameDev sameBlock

variable {disk : Bool → BlockNo → Block}

theorem others_wake {pc : BufPc} {buffer : Buf} :
    ∀ q, q ≠ p →
      (((({ m with disk := disk }.setBuf b buffer).wakeup b).setPc p pc).pc q).uses =
        (m.pc q).uses ∧
      (∀ c, m.pc q = .transfer c →
        ((({ m with disk := disk }.setBuf b buffer).wakeup b).setPc p pc).pc q = .transfer c) := by
  intro q other
  have same : ((({ m with disk := disk }.setBuf b buffer).wakeup b).setPc p pc).pc q =
      (m.pc q).wake b := by
    simp [setPc, wakeup, setBuf, other]
  rw [same]
  exact ⟨BufPc.uses_wake _ _, fun c now => BufPc.wake_eq_transfer.mpr now⟩

theorem Wf.sync (wf : m.Wf) {s : Sync} (ready : m.pc p = .ready) (syncs : m.job p = .sync s)
    (moves : SyncMoves m p s m') : m'.Wf := by
  have idle : ∀ b, m.pc p ≠ .transfer b := by rw [ready]; nofun
  have unused : ∀ b, (m.pc p).uses = some b → b ∈ m.held p := by rw [ready]; nofun
  have others : ∀ (next : CacheSystem P) (job : Job), next.pc = m.pc → next.job = m.job →
      ∀ q, q ≠ p → (next.setJob p job).pc q = m.pc q ∧ (next.setJob p job).job q = m.job q := by
    intro next job pcs jobs q other
    rw [← pcs, ← jobs]
    exact ⟨rfl, update_of_ne other _ _⟩
  have regs : ∀ (next : CacheSystem P) (job : Job),
      ((next.setJob p job).job p).regs = job.regs := by
    intro next job
    simp [setJob]
  cases moves with
  | bread blockno wants =>
    refine wf.quiet rfl rfl (fun q other => ⟨update_of_ne other _ _, rfl⟩) idle ?_
      (.inl rfl)
    intro b used
    simp [setPc, BufPc.uses] at used
  | bwrite b data next fills =>
    obtain ⟨mine, rest⟩ := fills.regs
    have holds : b ∈ m.held p := by
      refine wf.works.regs p b ?_
      rw [syncs]
      exact mine
    have valid : (m.buf b).valid := (wf.works.valid p b holds).resolve_right (idle b)
    refine wf.touch (b := b) holds rfl rfl rfl rfl rfl valid ?_ ?_ ?_ ?_
    · intro q other
      have pcs : ((m.filled p b data).setJob p (.sync next)).pc q = m.pc q :=
        update_of_ne other _ _
      rw [pcs]
      exact ⟨⟨rfl, fun _ now => now⟩, update_of_ne other _ _⟩
    · intro c now
      exact absurd now (idle c)
    · intro c used
      have now : ((m.filled p b data).setJob p (.sync next)).pc p = .transfer b :=
        update_self _ _ _
      rw [now] at used
      cases used
      exact holds
    · rw [regs, syncs]
      exact rest
  | brelse b next drops =>
    have first := drops.regs
    refine wf.dropped ready (wf.works.regs p b ?_) (.inr ?_)
    · rw [syncs]
      change b ∈ s.line.regs
      rw [first]
      exact List.mem_cons_self
    · rw [syncs]
      exact first
  | readHead b lh read =>
    refine wf.quiet rfl rfl (others _ _ rfl rfl) idle unused (.inl ?_)
    rw [regs, syncs]
    rfl
  | logWritten past => exact wf.quiet rfl rfl (others _ _ rfl rfl) idle unused (.inr (regs _ _))
  | installed past => exact wf.quiet rfl rfl (others _ _ rfl rfl) idle unused (.inr (regs _ _))
  | recovered => exact wf.quiet rfl rfl (others _ _ rfl rfl) idle unused (.inr (regs _ _))
  | committed => exact wf.quiet rfl rfl (others _ _ rfl rfl) idle unused (.inr (regs _ _))

theorem Wf.step (wf : m.Wf) (moves : Moves m a m') : m'.Wf := by
  have quietPc : ∀ {p : P} {pc : BufPc}, (∀ b, m.pc p ≠ .transfer b) →
      (∀ b, pc.uses = some b → b ∈ m.held p) → (m.setPc p pc).Wf := by
    intro p pc idle uses
    refine wf.quiet rfl rfl (fun q other => ⟨update_of_ne other _ _, rfl⟩) idle ?_
      (.inl rfl)
    intro b used
    rw [show (m.setPc p pc).pc p = pc from update_self _ _ _] at used
    exact uses b used
  have quietJob : ∀ {p : P} {job : Job} (next : CacheSystem P), next.cache = m.cache →
      next.held = m.held → next.pc = m.pc → next.job = m.job → m.pc p = .ready →
      job.regs = [] → (next.setJob p job).Wf := by
    intro p job next cache held pcs jobs ready none
    refine wf.quiet cache held (fun q other => ⟨congrFun pcs q, ?_⟩) (by rw [ready]; nofun) ?_
      (.inr ?_)
    · rw [← jobs]
      exact update_of_ne other _ _
    · intro b used
      rw [show (next.setJob p job).pc p = m.pc p from congrFun pcs p, ready] at used
      cases used
    · rw [show (next.setJob p job).job p = job from update_self _ _ _]
      exact none
  cases moves with
  | beginOp p ready => exact quietJob _ rfl rfl rfl rfl ready rfl
  | endOp p ready => exact quietJob _ rfl rfl rfl rfl ready rfl
  | commit p ready => exact quietJob _ rfl rfl rfl rfl ready rfl
  | bread p dev blockno ready => exact quietPc (by rw [ready]; nofun) nofun
  | logWrite p b data ready inOp holds =>
    refine quietPc (by rw [ready]; nofun) fun c used => ?_
    cases used
    exact holds
  | brelse p b ready calls holds =>
    have none : (m.job p).regs = [] := by
      rcases calls with outside | inOp
      · rw [outside]
        rfl
      · rw [inOp]
        rfl
    have dropped : ((m.dropped p b).setJob p (m.job p)).Wf :=
      wf.dropped ready holds (.inl none)
    have same : (m.dropped p b).setJob p (m.job p) = m.dropped p b := by
      simp only [setJob, CacheSystem.dropped, wakeup, setHeld, update_eq_self]
    rwa [same] at dropped
  | sleeps p dev blockno b now => exact quietPc (by rw [now]; nofun) nofun
  | hits p dev blockno b now found free => exact wf.hits now free
  | recycles p dev blockno b now missing free clean => exact wf.recycles now missing free
  | reads p b now clean empty =>
    have holds : b ∈ m.held p := wf.works.uses p b (by rw [now]; rfl)
    refine wf.touch (b := b) holds rfl rfl rfl rfl rfl rfl ?_ ?_ ?_ (.refl _)
    · exact fun q other => ⟨others_wake q other, rfl⟩
    · intro c transfer
      rw [now] at transfer
      cases transfer
      rfl
    · intro c used
      rw [show (m.readIn p b).pc p = .ready from update_self _ _ _] at used
      cases used
  | writes p b now dirty =>
    have holds : b ∈ m.held p := wf.works.uses p b (by rw [now]; rfl)
    refine wf.touch (b := b) holds rfl rfl rfl rfl rfl rfl ?_ ?_ ?_ (.refl _)
    · exact fun q other => ⟨others_wake q other, rfl⟩
    · intro c transfer
      rw [now] at transfer
      cases transfer
      rfl
    · intro c used
      rw [show (m.writtenOut p b).pc p = .ready from update_self _ _ _] at used
      cases used
  | append p b data now bounded =>
    have holds : b ∈ m.held p := wf.works.uses p b (by rw [now]; rfl)
    have valid : (m.buf b).valid := (wf.works.valid p b holds).resolve_right (by rw [now]; nofun)
    refine wf.touch (b := b) holds rfl rfl rfl rfl rfl valid ?_ ?_ ?_ (.refl _)
    · intro q other
      have pcs : (m.logged p b data).pc q = m.pc q := update_of_ne other _ _
      rw [pcs]
      exact ⟨⟨rfl, fun _ now => now⟩, rfl⟩
    · intro c transfer
      rw [now] at transfer
      cases transfer
    · intro c used
      rw [show (m.logged p b data).pc p = .ready from update_self _ _ _] at used
      cases used
  | sync p s m' ready syncs moves => exact wf.sync ready syncs moves

theorem booted_wf (start : BlockNo) (size : Int) (havedisk1 : Bool)
    (disk : Bool → BlockNo → Block) (first : P) :
    (booted start size havedisk1 disk first).Wf := by
  have none : ∀ p, ((booted start size havedisk1 disk first).job p).regs = [] := by
    intro p
    by_cases self : p = first
    · subst self
      simp [booted, Job.regs, SyncLine.regs]
    · simp [booted, self, Job.regs]
  refine ⟨Bcache.binit_ringOfAll, fun b c named => absurd rfl named, ?_, ?_⟩
  · exact ⟨fun b => iff_of_false nofun nofun, nofun, fun p => List.nodup_nil⟩
  · refine ⟨nofun, fun p b reg => ?_, fun p => ?_, nofun, nofun⟩
    · rw [none] at reg
      cases reg
    · rw [none]
      exact List.nodup_nil

theorem reached_wf {start : BlockNo} {size : Int} {havedisk1 : Bool} {first : P}
    {actions : List (CacheAction P)}
    (reached : Transition.run step (booted start size havedisk1 disk first) actions = .ok m) :
    m.Wf :=
  Transition.run_invariant Wf (fun _ _ _ wf taken => wf.step (moves_of_step wf.ring taken))
    (booted_wf start size havedisk1 disk first) reached

end CacheSystem

end Xv6
