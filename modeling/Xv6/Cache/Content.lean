import Xv6.Cache.Commit
import Xv6.Log.Recovery

/-!
# What the cache holds

The content of a block is the data of its buffer, or what is on disk when no buffer has its data. A
buffer with data that is not dirty agrees with the disk, so searching, evicting, reading and writing
back leave every content as it was: only `log_write` and the copies of `commit` change one. The
runs considered log blocks of the root device that are outside the log region, as the file
system does.
-/

namespace Xv6

open Function (update update_apply update_of_ne update_self)

def SyncLine.target : SyncLine → Option BufNo
  | .written _ b => some b
  | .last b => some b
  | _ => none

theorem Sync.Fills.target {buf : BufNo → Buf} {lh : List BlockNo} {s next : Sync} {b : BufNo}
    {data : Block} (fills : s.Fills buf lh b data next) : next.line.target = some b := by
  cases fills <;> rfl

theorem Sync.Located.target {At : BufNo → BlockNo → Prop} {start : BlockNo} {lh : List BlockNo}
    {pc : BufPc} {s : Sync} (located : s.Located At start lh pc) {b : BufNo}
    (target : s.line.target = some b) :
    (s.phase = .writeLog ∧ s.inTurn ∧ At b (logBlock start s.tail)) ∨
      (s.phase = .install ∧ s.inTurn ∧ At b (lh.getD s.tail 0)) ∨
      ((s.phase ≠ .writeLog ∧ s.phase ≠ .install) ∧ At b start) := by
  obtain ⟨recovery, phase, tail, line⟩ := s
  have regs := located.regs
  cases line with
  | written c d =>
    cases target
    rcases located.paired rfl with rfl | rfl
    · have second := (List.forall₂_cons.mp (List.forall₂_cons.mp regs).2).1
      exact .inl ⟨rfl, ⟨.inl rfl, nofun⟩, second⟩
    · have second := (List.forall₂_cons.mp (List.forall₂_cons.mp regs).2).1
      exact .inr (.inl ⟨rfl, ⟨.inr rfl, nofun⟩, second⟩)
  | last c =>
    cases target
    cases phase with
    | writeLog => exact .inl ⟨rfl, ⟨.inl rfl, nofun⟩, (List.forall₂_cons.mp regs).1⟩
    | install => exact .inr (.inl ⟨rfl, ⟨.inr rfl, nofun⟩, (List.forall₂_cons.mp regs).1⟩)
    | _ => exact .inr (.inr ⟨⟨nofun, nofun⟩, (List.forall₂_cons.mp regs).1⟩)
  | _ => cases target

namespace CacheSystem

variable {P : Type} [DecidableEq P] {m m' : CacheSystem P} {a : CacheAction P} {p : P}

def rootDisk (m : CacheSystem P) : BlockNo → Block := m.disk (drive rootDev)

def hasData (m : CacheSystem P) (blockno : BlockNo) (b : BufNo) : Bool :=
  (m.buf b).valid && m.cache.caches rootDev blockno b

def content (m : CacheSystem P) (blockno : BlockNo) : Block :=
  match (List.finRange nbuf).find? (m.hasData blockno) with
  | some b => (m.buf b).data
  | none => m.rootDisk blockno

/-- The step logs, if anything, a block of the root device outside the log region. -/
def LogsHome (m : CacheSystem P) : CacheAction P → Prop
  | .logWrite _ b _ =>
    (m.buf b).dev = rootDev ∧ ¬ InLog m.start m.size (m.buf b).blockno
  | _ => True

instance LogsHome.decidable (m : CacheSystem P) : (a : CacheAction P) → Decidable (m.LogsHome a)
  | .logWrite _ b _ => inferInstanceAs (Decidable ((m.buf b).dev = rootDev ∧
      ¬ InLog m.start m.size (m.buf b).blockno))
  | .beginOp _ | .endOp _ | .bread _ _ _ | .brelse _ _ | .advance _ =>
    inferInstanceAs (Decidable True)

structure Settled (m : CacheSystem P) : Prop where
  logging : ∀ p b data, m.pc p = .logging b data →
    (m.buf b).dev = rootDev ∧ ¬ InLog m.start m.size (m.buf b).blockno
  dirty : ∀ b, (m.buf b).dirty → (m.buf b).dev = rootDev ∧
    ((∃ p, m.pc p = .transfer b) ∨
      m.recovered ∧ ¬ InLog m.start m.size (m.buf b).blockno)
  writer : ∀ p b, m.pc p = .transfer b → (m.buf b).dirty →
    ∃ s, m.job p = .sync s ∧ s.line.target = some b
  clean : ∀ b, (m.buf b).valid → (m.buf b).dirty = false → (m.buf b).dev = rootDev →
    (m.buf b).data = m.rootDisk (m.buf b).blockno

variable {b : BufNo} {blockno : BlockNo}

omit [DecidableEq P] in
theorem hasData_iff : m.hasData blockno b ↔ (m.buf b).valid ∧ m.At b blockno := by
  rw [hasData, Bool.and_eq_true, Bcache.caches_iff]
  rfl

omit [DecidableEq P] in
theorem content_of_valid (wf : m.Wf) (valid : (m.buf b).valid) (here : m.At b blockno) :
    m.content blockno = (m.buf b).data := by
  rw [content]
  split
  · rename_i c found
    obtain ⟨-, other⟩ := hasData_iff.mp (List.find?_some found)
    have same : c = b := by
      refine wf.unique c b ?_ (other.1.trans here.1.symm) (other.2.trans here.2.symm)
      rw [other.1]
      decide
    rw [same]
  · rename_i missing
    have fails := List.find?_eq_none.mp missing b (List.mem_finRange b)
    exact absurd (hasData_iff.mpr ⟨valid, here⟩) fails

omit [DecidableEq P] in
theorem content_of_absent (absent : ∀ b, m.At b blockno → (m.buf b).valid = false) :
    m.content blockno = m.rootDisk blockno := by
  rw [content]
  split
  · rename_i c found
    obtain ⟨valid, here⟩ := hasData_iff.mp (List.find?_some found)
    rw [absent c here] at valid
    cases valid
  · rfl

omit [DecidableEq P] in
theorem content_quiet (cache : m'.cache = m.cache) (disk : m'.disk = m.disk) :
    m'.content = m.content := by
  have has : m'.hasData = m.hasData := by
    funext blockno b
    simp only [hasData, buf, cache]
  funext blockno
  simp only [content, has, rootDisk, buf, cache, disk]

def own (m : CacheSystem P) (b : BufNo) (blockno : BlockNo) : Block :=
  if m.hasData blockno b then (m.buf b).data else m.rootDisk blockno

omit [DecidableEq P] in
theorem content_own (wf : m.Wf) (alone : ∀ c, c ≠ b → ¬ m.hasData blockno c) :
    m.content blockno = m.own b blockno := by
  rw [own]
  split
  · rename_i has
    obtain ⟨valid, here⟩ := hasData_iff.mp has
    exact content_of_valid wf valid here
  · rename_i hasNot
    refine content_of_absent fun c here => ?_
    rw [← Bool.not_eq_true]
    intro valid
    by_cases same : c = b
    · exact hasNot (same ▸ hasData_iff.mpr ⟨valid, here⟩)
    · exact alone c same (hasData_iff.mpr ⟨valid, here⟩)

omit [DecidableEq P] in
theorem content_replaced (wf : m.Wf) (wf' : m'.Wf) {buffer : Buf}
    (bufs : m'.cache.buf = update m.cache.buf b buffer)
    (same : m'.own b blockno = m.own b blockno) : m'.content blockno = m.content blockno := by
  have others : ∀ c, c ≠ b → m'.buf c = m.buf c := fun c other => by
    rw [buf, bufs, update_of_ne other, buf]
  by_cases elsewhere : ∃ c, c ≠ b ∧ m.hasData blockno c
  · obtain ⟨c, other, has⟩ := elsewhere
    obtain ⟨valid, here⟩ := hasData_iff.mp has
    rw [content_of_valid wf valid here, ← others c other]
    refine content_of_valid wf' ?_ ?_
    · rw [others c other]
      exact valid
    · rw [At, others c other]
      exact here
  · have alone : ∀ c, c ≠ b → ¬ m.hasData blockno c := fun c other has =>
      elsewhere ⟨c, other, has⟩
    rw [content_own wf alone, ← same]
    refine content_own wf' fun c other has => alone c other ?_
    rw [hasData_iff, At, others c other] at has
    exact hasData_iff.mpr has

omit [DecidableEq P] in
theorem own_replaced {buffer : Buf} (bufs : m'.cache.buf = update m.cache.buf b buffer)
    (blockno : BlockNo) :
    m'.own b blockno = if buffer.valid ∧ buffer.dev = rootDev ∧ buffer.blockno = blockno
      then buffer.data else m'.rootDisk blockno := by
  have self : m'.buf b = buffer := by rw [buf, bufs, update_self]
  simp only [own, hasData_iff, At, self]

omit [DecidableEq P] in
theorem content_marked (wf : m.Wf) (wf' : m'.Wf) {c : BufNo} {busy : Bool}
    (bufs : m'.cache.buf = update m.cache.buf c { m.buf c with busy := busy })
    (disk : m'.disk = m.disk) : m'.content = m.content := by
  funext blockno
  refine content_replaced wf wf' bufs ?_
  rw [own_replaced bufs]
  simp only [own, hasData_iff, At, rootDisk, disk]

theorem content_recycled (wf : m.Wf) (settled : m.Settled) {dev : Word} {block : BlockNo}
    (wf' : (m.received p b (m.cache.recycled b dev block)).Wf) (clean : (m.buf b).dirty = false) :
    (m.received p b (m.cache.recycled b dev block)).content = m.content := by
  funext blockno
  refine content_replaced wf wf' rfl ?_
  rw [own_replaced rfl, if_neg nofun, own]
  split
  · -- the data of the evicted buffer is on disk
    rename_i has
    obtain ⟨valid, here⟩ := hasData_iff.mp has
    rw [settled.clean b valid clean here.1, here.2]
    rfl
  · rfl

theorem content_readIn (wf : m.Wf) (wf' : (m.readIn p b).Wf) (empty : (m.buf b).valid = false) :
    (m.readIn p b).content = m.content := by
  funext blockno
  refine content_replaced wf wf' rfl ?_
  have hasNot : ¬ m.hasData blockno b := fun has => by
    rw [(hasData_iff.mp has).1] at empty
    cases empty
  rw [own_replaced rfl, own, if_neg hasNot]
  split
  · rename_i has
    obtain ⟨-, root, rfl⟩ := has
    exact congrArg (fun dev => m.disk (drive dev) (m.buf b).blockno) root
  · rfl

theorem rootDisk_writtenOut (root : (m.buf b).dev = rootDev) :
    (m.writtenOut p b).rootDisk =
      update m.rootDisk (m.buf b).blockno (m.buf b).data := by
  change m.written b (drive rootDev) = _
  rw [written, root, update_self]
  rfl

theorem content_writtenOut (wf : m.Wf) (wf' : (m.writtenOut p b).Wf)
    (root : (m.buf b).dev = rootDev) (valid : (m.buf b).valid) :
    (m.writtenOut p b).content = m.content := by
  funext blockno
  refine content_replaced wf wf' rfl ?_
  rw [own_replaced rfl, own]
  simp only [hasData_iff, At, valid, true_and]
  split
  · rfl
  · rename_i elsewhere
    rw [rootDisk_writtenOut root, update_of_ne]
    rintro rfl
    exact elsewhere ⟨root, rfl⟩

omit [DecidableEq P] in
theorem content_filled (wf : m.Wf) (wf' : m'.Wf) {data : Block} (disk : m'.rootDisk = m.rootDisk)
    (bufs : m'.cache.buf = update m.cache.buf b
      { m.buf b with data := data, dirty := true }) (root : (m.buf b).dev = rootDev)
    (valid : (m.buf b).valid) : m'.content = update m.content (m.buf b).blockno data := by
  have self : m'.buf b = { m.buf b with data := data, dirty := true } := by
    rw [buf, bufs, update_self]
  funext blockno
  by_cases mine : blockno = (m.buf b).blockno
  · subst mine
    have here : m'.At b (m.buf b).blockno := by
      rw [At, self]
      exact ⟨root, rfl⟩
    rw [update_self, content_of_valid wf' (by rw [self]; exact valid) here, self]
  · rw [update_of_ne mine]
    have apart : (m.buf b).blockno ≠ blockno := Ne.symm mine
    refine content_replaced wf wf' bufs ?_
    rw [own_replaced bufs]
    simp [own, hasData_iff, At, apart, disk]

theorem log_of_moves (moves : Moves m a m') : m'.start = m.start ∧ m'.size = m.size := by
  cases moves with
  | sync p s m' ready syncs moves => cases moves <;> exact ⟨rfl, rfl⟩
  | _ => exact ⟨rfl, rfl⟩

theorem logging_of_moves (moves : Moves m a m') {q : P} {data : Block}
    (now : m'.pc q = .logging b data) :
    m.pc q = .logging b data ∨ (a = .logWrite q b data ∧ b ∈ m.held q) := by
  have set : ∀ {p : P} {pc : BufPc} {pcs : P → BufPc}, (∀ c d, pc ≠ .logging c d) →
      (∀ q c d, pcs q = .logging c d → m.pc q = .logging c d) →
      update pcs p pc q = .logging b data → m.pc q = .logging b data := by
    intro p pc pcs other before now
    rw [update_apply] at now
    split at now
    · exact absurd now (other b data)
    · exact before q b data now
  have woken : ∀ {c : BufNo} (q : P) (d : BufNo) (e : Block), (m.pc q).wake c = .logging d e →
      m.pc q = .logging d e := fun _ _ _ now => BufPc.wake_eq_logging.mp now
  have loaded : ∀ {cache : Bcache} {c d : BufNo} {e : Block},
      (if (cache.buf c).valid then BufPc.ready else .transfer c) ≠ .logging d e := by
    intro cache c d e
    split <;> nofun
  cases moves with
  | bread => exact .inl (set (fun _ _ => by nofun) (fun _ _ _ now => now) now)
  | logWrite p c d ready inOp holds =>
    rw [pc_setPc] at now
    split at now
    · rename_i self
      cases now
      rw [self]
      exact .inr ⟨rfl, holds⟩
    · exact .inl now
  | brelse => exact .inl (woken _ _ _ now)
  | sleeps => exact .inl (set (fun _ _ => by nofun) (fun _ _ _ now => now) now)
  | hits => exact .inl (set (fun _ _ => loaded) (fun _ _ _ now => now) now)
  | recycles => exact .inl (set (fun _ _ => loaded) (fun _ _ _ now => now) now)
  | reads => exact .inl (set (fun _ _ => by nofun) woken now)
  | writes => exact .inl (set (fun _ _ => by nofun) woken now)
  | append => exact .inl (set (fun _ _ => by nofun) (fun _ _ _ now => now) now)
  | sync p s m' ready syncs moves =>
    cases moves with
    | bread => exact .inl (set (fun _ _ => by nofun) (fun _ _ _ now => now) now)
    | bwrite => exact .inl (set (fun _ _ => by nofun) (fun _ _ _ now => now) now)
    | brelse => exact .inl (woken _ _ _ now)
    | _ => exact .inl now
  | _ => exact .inl now

/-- How dirty buffers come about: a buffer that is dirty after a step and was not before is logged,
or passed to `bwrite` by `commit`; one that was dirty stays as it is unless it is logged, passed to
`bwrite` or written out. -/
inductive DirtyStep (m : CacheSystem P) (b : BufNo) : CacheAction P → CacheSystem P → Prop where
  | logged (p : P) (data : Block) (now : m.pc p = .logging b data) :
    DirtyStep m b (.advance p) (m.logged p b data)
  | filled (p : P) (s next : Sync) (data : Block) (ready : m.pc p = .ready)
    (syncs : m.job p = .sync s) (fills : s.Fills m.buf m.lh b data next) :
    DirtyStep m b (.advance p) ((m.filled p b data).setJob p (.sync next))
  | written (p : P) (now : m.pc p = .transfer b) (dirty : (m.buf b).dirty) :
    DirtyStep m b (.advance p) (m.writtenOut p b)
  | kept {a : CacheAction P} {m' : CacheSystem P}
    (dirty : (m'.buf b).dirty = (m.buf b).dirty)
    (same : (m.buf b).dirty → (m'.buf b).dev = (m.buf b).dev ∧
      (m'.buf b).blockno = (m.buf b).blockno ∧ (m'.buf b).valid = (m.buf b).valid ∧
      (m'.buf b).data = (m.buf b).data)
    (transfer : ∀ p, (m.buf b).dirty → (m'.pc p = .transfer b ↔ m.pc p = .transfer b)) :
    DirtyStep m b a m'

theorem dirtyStep_of_moves (wf : m.Wf) (moves : Moves m a m') (b : BufNo) :
    DirtyStep m b a m' := by
  -- a step that changes neither buffers nor transfers
  have quiet : ∀ {a : CacheAction P} {m' : CacheSystem P}, m'.cache = m.cache →
      (∀ p, m'.pc p = .transfer b ↔ m.pc p = .transfer b) → DirtyStep m b a m' := by
    intro a m' cache transfer
    have bufs : m'.buf b = m.buf b := congrArg (fun cache => cache.buf b) cache
    refine .kept (by rw [bufs]) (fun _ => ?_) fun p _ => transfer p
    rw [bufs]
    exact ⟨rfl, rfl, rfl, rfl⟩
  -- a step that replaces one buffer and changes no transfer of dirty ones
  have replaced : ∀ {a : CacheAction P} {m' : CacheSystem P} {c : BufNo} {buffer : Buf},
      m'.cache.buf = update m.cache.buf c buffer →
      (c = b → buffer.dirty = (m.buf c).dirty ∧ ((m.buf c).dirty → buffer.dev = (m.buf c).dev ∧
        buffer.blockno = (m.buf c).blockno ∧ buffer.valid = (m.buf c).valid ∧
        buffer.data = (m.buf c).data)) →
      (∀ p, (m.buf b).dirty → (m'.pc p = .transfer b ↔ m.pc p = .transfer b)) →
      DirtyStep m b a m' := by
    intro a m' c buffer cache same transfer
    have bufs : m'.buf b = if b = c then buffer else m.buf b := by
      rw [show m'.buf b = m'.cache.buf b from rfl, cache]
      exact update_apply _ _ _ _
    by_cases mine : b = c
    · subst mine
      rw [if_pos rfl] at bufs
      obtain ⟨dirty, same⟩ := same rfl
      exact .kept (by rw [bufs, dirty]) (fun isDirty => by rw [bufs]; exact same isDirty) transfer
    · rw [if_neg mine] at bufs
      exact .kept (by rw [bufs]) (fun _ => by rw [bufs]; exact ⟨rfl, rfl, rfl, rfl⟩) transfer
  have moved : ∀ {p : P} {pc : BufPc} {pcs : P → BufPc}, (pc = .transfer b ↔ m.pc p = .transfer b) →
      (∀ q, pcs q = .transfer b ↔ m.pc q = .transfer b) →
      ∀ q, update pcs p pc q = .transfer b ↔ m.pc q = .transfer b := by
    intro p pc pcs one others q
    rw [update_apply]
    split
    · rename_i self
      rw [self]
      exact one
    · exact others q
  have never : ∀ {pc pc' : BufPc}, (∀ c, pc ≠ .transfer c) → (∀ c, pc' ≠ .transfer c) →
      (pc = .transfer b ↔ pc' = .transfer b) := fun first second =>
    iff_of_false (first b) (second b)
  -- a buffer without data that is read next is not dirty
  have loads : ∀ {cache : Bcache} {c : BufNo} {pc : BufPc}, (∀ d, pc ≠ .transfer d) →
      ((cache.buf c).dirty → (cache.buf c).valid) →
      ((m.buf b).dirty → c = b → (cache.buf c).dirty) → (m.buf b).dirty →
      ((if (cache.buf c).valid then BufPc.ready else .transfer c) = .transfer b ↔
        pc = .transfer b) := by
    intro cache c pc idle valid same dirty
    refine iff_of_false ?_ (idle b)
    split
    · nofun
    · rename_i empty
      intro loading
      cases loading
      exact empty (valid (same dirty rfl))
  cases moves with
  | bread p dev blockno ready =>
    exact quiet rfl (moved (never (by nofun) (by rw [ready]; nofun)) fun _ => .rfl)
  | logWrite p c data ready =>
    exact quiet rfl (moved (never (by nofun) (by rw [ready]; nofun)) fun _ => .rfl)
  | brelse p c =>
    exact replaced rfl (fun _ => ⟨rfl, fun _ => ⟨rfl, rfl, rfl, rfl⟩⟩) fun _ _ =>
      BufPc.wake_eq_transfer
  | sleeps p dev blockno c now =>
    exact quiet rfl (moved (never (by nofun) (by rw [now]; nofun)) fun _ => .rfl)
  | hits p dev blockno c now found free =>
    have self : (m.cache.marked c).buf c = _ := Bcache.setBuf_self _ _ _
    refine replaced rfl (fun _ => ⟨rfl, fun _ => ⟨rfl, rfl, rfl, rfl⟩⟩) fun q dirty => ?_
    refine moved (loads (by rw [now]; nofun) ?_ ?_ dirty) (fun _ => .rfl) q
    · rw [self]
      exact wf.works.dirty c
    · intro isDirty same
      rw [self, same]
      exact isDirty
  | recycles p dev blockno c now missing free clean =>
    have self : (m.cache.recycled c dev blockno).buf c = _ := Bcache.setBuf_self _ _ _
    refine replaced rfl (fun _ => ⟨clean.symm, fun dirty => ?_⟩) fun q dirty => ?_
    · rw [clean] at dirty
      cases dirty
    · refine moved (loads (by rw [now]; nofun) ?_ ?_ dirty) (fun _ => .rfl) q
      · rw [self]
        nofun
      · intro isDirty same
        rw [← same, clean] at isDirty
        cases isDirty
  | reads p c now clean empty =>
    refine replaced rfl (fun _ => ⟨rfl, fun dirty => ?_⟩) fun q dirty => ?_
    · rw [clean] at dirty
      cases dirty
    · refine moved (iff_of_false (by nofun) ?_) (fun _ => BufPc.wake_eq_transfer) q
      rw [now]
      rintro ⟨rfl⟩
      rw [clean] at dirty
      cases dirty
  | writes p c now dirty =>
    by_cases mine : b = c
    · subst mine
      exact .written p now dirty
    · refine replaced rfl (fun same => absurd same.symm mine) fun q _ => ?_
      refine moved (iff_of_false (by nofun) ?_) (fun _ => BufPc.wake_eq_transfer) q
      rw [now]
      rintro ⟨rfl⟩
      exact mine rfl
  | append p c data now =>
    by_cases mine : b = c
    · subst mine
      exact .logged p data now
    · refine replaced rfl (fun same => absurd same.symm mine) fun q _ => ?_
      exact moved (never (by nofun) (by rw [now]; nofun)) (fun _ => .rfl) q
  | sync p s m' ready syncs moves =>
    cases moves with
    | bread => exact quiet rfl (moved (never (by nofun) (by rw [ready]; nofun)) fun _ => .rfl)
    | bwrite c data next fills =>
      by_cases mine : b = c
      · subst mine
        exact .filled p s next data ready syncs fills
      · refine replaced rfl (fun same => absurd same.symm mine) fun q _ => ?_
        refine moved (iff_of_false ?_ (by rw [ready]; nofun)) (fun _ => .rfl) q
        rintro ⟨rfl⟩
        exact mine rfl
    | brelse c =>
      exact replaced rfl (fun _ => ⟨rfl, fun _ => ⟨rfl, rfl, rfl, rfl⟩⟩) fun _ _ =>
        BufPc.wake_eq_transfer
    | _ => exact quiet rfl fun _ => .rfl
  | _ => exact quiet rfl fun _ => .rfl

theorem recovered_of_moves (moves : Moves m a m') (before : m.recovered) : m'.recovered := by
  cases moves with
  | sync p s m' ready syncs moves =>
    cases moves with
    | recovered => rfl
    | _ => exact before
  | _ => exact before

theorem job_of_transfer (moves : Moves m a m') {q : P} (now : m.pc q = .transfer b) :
    m'.job q = m.job q := by
  have set : ∀ {p : P} {job : Job} {jobs : P → Job}, (∀ c, m.pc p ≠ .transfer c) →
      update jobs p job q = jobs q := by
    intro p job jobs idle
    refine update_of_ne ?_ _ _
    rintro rfl
    exact idle b now
  cases moves with
  | beginOp p ready => exact set (by rw [ready]; nofun)
  | endOp p ready => exact set (by rw [ready]; nofun)
  | commit p ready => exact set (by rw [ready]; nofun)
  | hits p dev blockno c bgets => exact set (by rw [bgets]; nofun)
  | recycles p dev blockno c bgets => exact set (by rw [bgets]; nofun)
  | sync p s m' ready syncs moves =>
    refine moves.job ?_
    rintro rfl
    exact absurd (ready.symm.trans now) nofun
  | _ => rfl

omit [DecidableEq P] in
theorem Located.root (located : m.Located) {s : Sync} (syncs : m.job p = .sync s)
    (member : b ∈ s.line.regs) : (m.buf b).dev = rootDev := by
  obtain ⟨length, here⟩ := List.forall₂_iff_get.mp (located p s syncs).regs
  obtain ⟨i, bound, rfl⟩ := List.mem_iff_getElem.mp member
  exact (here i bound (length ▸ bound)).1

theorem Settled.clean_step (settled : m.Settled) (wf : m.Wf) (moves : Moves m a m')
    (valid : (m'.buf b).valid) (clean : (m'.buf b).dirty = false)
    (root : (m'.buf b).dev = rootDev) :
    (m'.buf b).data = m'.rootDisk (m'.buf b).blockno := by
  have same : ∀ {n : CacheSystem P}, n.buf b = m.buf b → n.rootDisk = m.rootDisk →
      (n.buf b).valid → (n.buf b).dirty = false → (n.buf b).dev = rootDev →
      (n.buf b).data = n.rootDisk (n.buf b).blockno := by
    intro n bufs disk valid clean root
    rw [bufs] at valid clean root ⊢
    rw [disk]
    exact settled.clean b valid clean root
  -- a step that replaces one buffer, when the new one agrees with the disk if it is clean
  have replaced : ∀ {n : CacheSystem P} {c : BufNo} {buffer : Buf},
      n.cache.buf = update m.cache.buf c buffer → n.rootDisk = m.rootDisk →
      (buffer.valid → buffer.dirty = false → buffer.dev = rootDev →
        buffer.data = m.rootDisk buffer.blockno) →
      (n.buf b).valid → (n.buf b).dirty = false → (n.buf b).dev = rootDev →
      (n.buf b).data = n.rootDisk (n.buf b).blockno := by
    intro n c buffer cache disk agrees valid clean root
    have bufs : n.buf b = if b = c then buffer else m.buf b := by
      rw [show n.buf b = n.cache.buf b from rfl, cache]
      exact update_apply _ _ _ _
    by_cases mine : b = c
    · rw [if_pos mine] at bufs
      rw [bufs] at valid clean root ⊢
      rw [disk]
      exact agrees valid clean root
    · rw [if_neg mine] at bufs
      exact same bufs disk valid clean root
  cases moves with
  | brelse p c => exact replaced rfl rfl (settled.clean c) valid clean root
  | hits p dev blockno c => exact replaced rfl rfl (settled.clean c) valid clean root
  | recycles => exact replaced rfl rfl nofun valid clean root
  | reads p c now =>
    refine replaced rfl rfl (fun _ _ onRoot => ?_) valid clean root
    change m.disk (drive (m.buf c).dev) (m.buf c).blockno = m.rootDisk (m.buf c).blockno
    rw [rootDisk, show (m.buf c).dev = rootDev from onRoot]
  | writes p c now dirty =>
    have rootC := (settled.dirty c dirty).1
    have disk := rootDisk_writtenOut (p := p) rootC
    have bufs : (m.writtenOut p c).buf b =
        if b = c then { m.buf c with valid := true, dirty := false } else m.buf b :=
      update_apply _ _ _ _
    rw [disk]
    by_cases mine : b = c
    · rw [if_pos mine] at bufs
      rw [bufs, update_self]
    · rw [if_neg mine] at bufs
      rw [bufs] at valid clean root ⊢
      have apart : (m.buf b).blockno ≠ (m.buf c).blockno := by
        intro block
        refine mine (wf.unique b c ?_ (root.trans rootC.symm) block)
        rw [root]
        decide
      rw [update_of_ne apart]
      exact settled.clean b valid clean root
  | append => exact replaced rfl rfl nofun valid clean root
  | sync p s m' ready syncs moves =>
    cases moves with
    | bwrite => exact replaced rfl rfl nofun valid clean root
    | brelse c => exact replaced rfl rfl (settled.clean c) valid clean root
    | _ => exact same rfl rfl valid clean root
  | _ => exact same rfl rfl valid clean root

theorem Settled.step (settled : m.Settled) (wf : m.Wf) (exclusive : m.Exclusive)
    (located : m.Located) (home : m.LogsHome a) (moves : Moves m a m') : m'.Settled := by
  obtain ⟨start, size⟩ := log_of_moves moves
  have holder : ∀ {p q : P} {b : BufNo}, (m.pc p).uses = some b ∨ b ∈ m.held p →
      m.pc q = .transfer b → p = q := by
    intro p q b mine now
    have inQ := wf.works.uses q b (by rw [now]; rfl)
    rcases mine with used | member
    · exact wf.owned.holder p q b (wf.works.uses p b used) inQ
    · exact wf.owned.holder p q b member inQ
  refine ⟨fun p b data now => ?_, fun b dirty => ?_, fun p b now dirty => ?_,
    fun b => settled.clean_step wf moves⟩
  · -- a block that is being logged keeps its buffer, which the process has
    have before : b ∈ m.held p ∧ (m.buf b).dev = rootDev ∧
        ¬ InLog m.start m.size (m.buf b).blockno := by
      rcases logging_of_moves moves now with still | ⟨rfl, holds⟩
      · exact ⟨wf.works.uses p b (by rw [still]; rfl), settled.logging p b data still⟩
      · exact ⟨holds, home⟩
    have busy := (wf.owned.busy_iff b).mpr ⟨p, before.1⟩
    have after := at_of_moves moves busy ⟨before.2.1, rfl⟩
    rw [start, size, after.2]
    exact ⟨after.1, before.2.2⟩
  · cases dirtyStep_of_moves wf moves b with
    | logged p data now =>
      have self : (m.logged p b data).buf b = _ := Bcache.setBuf_self _ _ _
      obtain ⟨root, outside⟩ := settled.logging p b data now
      have recovered := exclusive.begun p (exclusive.logging p b data now)
      rw [self]
      exact ⟨root, .inr ⟨recovered, outside⟩⟩
    | filled p s next data ready syncs fills =>
      have self : ((m.filled p b data).setJob p (.sync next)).buf b = _ := Bcache.setBuf_self _ _ _
      rw [self]
      exact ⟨located.root syncs fills.regs.1, .inl ⟨p, update_self _ _ _⟩⟩
    | written p now before =>
      have self : (m.writtenOut p b).buf b = _ := Bcache.setBuf_self _ _ _
      rw [self] at dirty
      cases dirty
    | kept stays same transfer =>
      rw [stays] at dirty
      obtain ⟨dev, blockno, -, -⟩ := same dirty
      obtain ⟨root, either⟩ := settled.dirty b dirty
      rw [dev, blockno, start, size]
      refine ⟨root, either.imp ?_ fun logged => ⟨recovered_of_moves moves logged.1, logged.2⟩⟩
      rintro ⟨p, now⟩
      exact ⟨p, (transfer p dirty).mpr now⟩
  · cases dirtyStep_of_moves wf moves b with
    | logged q data loggingNow =>
      rw [show (m.logged q b data).pc p = _ from pc_setPc _ q _ p] at now
      split at now
      · cases now
      · rename_i other
        exact absurd (holder (.inl (by rw [loggingNow]; rfl)) now).symm other
    | filled q s next data ready syncs fills =>
      rw [show ((m.filled q b data).setJob q (.sync next)).pc p = _ from pc_setPc _ q _ p] at now
      rw [job_setJob]
      split at now
      · rename_i self
        rw [if_pos self]
        exact ⟨next, rfl, fills.target⟩
      · rename_i other
        have mine : b ∈ m.held q := by
          refine wf.works.regs q b ?_
          rw [syncs]
          exact fills.regs.1
        exact absurd (holder (.inr mine) now).symm other
    | written q _ before =>
      have self : (m.writtenOut q b).buf b = _ := Bcache.setBuf_self _ _ _
      rw [self] at dirty
      cases dirty
    | kept stays same transfer =>
      rw [stays] at dirty
      have before := (transfer p dirty).mp now
      rw [job_of_transfer moves before]
      exact settled.writer p b before dirty

end CacheSystem

end Xv6
