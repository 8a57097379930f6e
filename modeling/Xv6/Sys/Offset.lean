import Xv6.Fs.Frame
import Xv6.Sys.ReadWrite

/-!
# The offset of a shared file

Processes that share one `struct file` on a regular inode, by `fork` or `dup`, and call `fileread`
and `filewrite` on it. `begin_op`, taking the lock of the inode, the transfer, the change of
`f->off`, releasing the lock and `end_op` are separate steps, and steps of different processes come
in any order. Other processes may change the file system between any two steps, but not the inode
in the cache while it is locked, and they do not end the operations of these.

Every transfer is recorded with its bytes and the offset they are for; no step reads the record.
-/

namespace Xv6

open BitVec (toNat_ofNat toNat_add)
open Function (update update_of_ne update_self)
open Bytes (Byte)
open Program

/-- Where a process is in a call on the shared file. -/
inductive SharePc where
  | idle
  | read (n : Word)
  | readLocked (n : Word)
  | readDone (r : Int)
  | readUnlock
  | write (src : List Byte) (i : Nat)
  | writeBegun (src : List Byte) (i : Nat)
  | writeLocked (src : List Byte) (i : Nat)
  | writeDone (src : List Byte) (i : Nat) (r : Int)
  | writeUnlock (src : List Byte) (i : Nat) (r : Int)
  | writeEnd (src : List Byte) (i : Nat) (r : Int)

namespace SharePc

def locked : SharePc → Bool
  | idle | read _ | write _ _ | writeBegun _ _ | writeEnd _ _ _ => false
  | _ => true

def operating : SharePc → Bool
  | writeBegun _ _ | writeLocked _ _ | writeDone _ _ _ | writeUnlock _ _ _ | writeEnd _ _ _ => true
  | _ => false

def pending : SharePc → Nat
  | readDone r => r.toNat
  | writeDone _ _ r => r.toNat
  | _ => 0

end SharePc

/-- What a call was asked for. -/
inductive Request where
  | read (n : Word)
  | write (src : List Byte)

structure Transfer (P : Type) where
  process : P
  call : Nat
  request : Request
  start : Word
  bytes : List Byte

def Transfer.count {P : Type} (t : Transfer P) : Nat := t.bytes.length

structure Shared (P : Type) where
  fs : Fs
  file : File
  pc : P → SharePc
  calls : P → Nat
  holder : Option P
  operations : List P
  transfers : List (Transfer P)

/-- What processes do. -/
inductive ShareAction (P : Type) where
  | read (p : P) (n : Word)
  | write (p : P) (src : List Byte)
  | advance (p : P)
  | others (fs : Fs)

def Inode.Regular (inode : Inode) : Prop :=
  1 ≤ inode.ref ∧ inode.valid = true ∧ inode.din.type = tFile ∧
    inode.din.size.toNat ≤ maxfile * bsize

instance (inode : Inode) : Decidable inode.Regular := inferInstanceAs (Decidable (_ ∧ _))

namespace Shared

variable {P : Type} [DecidableEq P]

def setPc (s : Shared P) (p : P) (pc : SharePc) : Shared P :=
  { s with pc := Function.update s.pc p pc }

def begin (s : Shared P) (p : P) (pc : SharePc) : Shared P :=
  { s.setPc p pc with calls := Function.update s.calls p (s.calls p + 1) }

def beginOp (s : Shared P) (p : P) (pc : SharePc) : Except Fault (Shared P) := do
  let (_, fs) ← Fs.beginOp s.fs
  return { s.setPc p pc with fs := fs, operations := p :: s.operations }

def endOp (s : Shared P) (p : P) (pc : SharePc) : Except Fault (Shared P) := do
  let (_, fs) ← Fs.endOp s.fs
  return { s.setPc p pc with fs := fs, operations := s.operations.erase p }

def lock (s : Shared P) (p : P) (pc : SharePc) : Except Fault (Shared P) := do
  let (_, fs) ← Fs.ilock s.file.ip s.fs
  return { s.setPc p pc with fs := fs, holder := some p }

def unlock (s : Shared P) (p : P) (pc : SharePc) : Except Fault (Shared P) := do
  let (_, fs) ← Fs.iunlock s.file.ip s.fs
  return { s.setPc p pc with fs := fs, holder := none }

def transfer (s : Shared P) (p : P) (request : Request) (bytes : List Byte) : Transfer P where
  process := p
  call := s.calls p
  request := request
  start := s.file.off
  bytes := bytes

def record (s : Shared P) (p : P) (pc : SharePc) (fs : Fs) (t : Transfer P) : Shared P :=
  { s.setPc p pc with fs := fs, transfers := s.transfers ++ [t] }

def readInode (s : Shared P) (p : P) (n : Word) : Except Fault (Shared P) := do
  let (r, fs) ← Fs.readi s.file.ip s.file.off n s.fs
  match r with
  | .error _ => return { s.setPc p (.readDone (-1)) with fs := fs }
  | .ok bytes =>
    return s.record p (.readDone (BitVec.ofNat 32 bytes.length).toInt) fs
      (s.transfer p (.read n) bytes)

def chunk (src : List Byte) (i : Nat) : Nat := min (src.length - i) IoSystem.maxChunk.toNat

def writeInode (s : Shared P) (p : P) (src : List Byte) (i : Nat) : Except Fault (Shared P) := do
  let n₁ := chunk src i
  let addr := src.drop i
  let (r, fs) ← Fs.writei s.file.ip (addr.take n₁) s.file.off (BitVec.ofNat 32 n₁) s.fs
  if r < 0 then return { s.setPc p (.writeDone src i r) with fs := fs }
  else
    return s.record p (.writeDone src i r) fs (s.transfer p (.write src) (addr.take r.toNat))

def count (s : Shared P) (p : P) (r : Int) (pc : SharePc) : Shared P :=
  { s.setPc p pc with file := s.file.advance r }

def turn (s : Shared P) (p : P) (src : List Byte) (i : Nat) (r : Int) : Except Fault (Shared P) :=
  if r < 0 then s.endOp p .idle
  else if r ≠ chunk src i then .error (.panic "short filewrite")
  else s.endOp p (.write src (i + r.toNat))

def advance (s : Shared P) (p : P) : Except Fault (Shared P) :=
  match s.pc p with
  | .idle => .error .disabled
  | .read n => s.lock p (.readLocked n)
  | .readLocked n => s.readInode p n
  | .readDone r => .ok (s.count p r .readUnlock)
  | .readUnlock => s.unlock p .idle
  | .write src i =>
    if src.length ≤ i then .ok (s.setPc p .idle) else s.beginOp p (.writeBegun src i)
  | .writeBegun src i => s.lock p (.writeLocked src i)
  | .writeLocked src i => s.writeInode p src i
  | .writeDone src i r => .ok (s.count p r (.writeUnlock src i r))
  | .writeUnlock src i r => s.unlock p (.writeEnd src i r)
  | .writeEnd src i r => s.turn p src i r

/-- Other processes have run: the file stays regular, what is locked stays as it is, and the
operations of these processes go on. -/
def others (s : Shared P) (fs : Fs) : Except Fault (Shared P) :=
  if fs.outstanding < s.operations.length then .error .disabled
  else
    match s.holder with
    | some _ =>
      .ok { s with
        fs := { fs with inode := Function.update fs.inode s.file.ip (s.fs.inode s.file.ip) } }
    | none =>
      if (fs.inode s.file.ip).Regular then .ok { s with fs := fs } else .error .disabled

def step (s : Shared P) : ShareAction P → Except Fault (Shared P)
  | .read p n =>
    match s.pc p with
    | .idle => .ok (if s.file.readable then s.begin p (.read n) else s)
    | _ => .error .disabled
  | .write p src =>
    match s.pc p with
    | .idle => .ok (if s.file.writable then s.begin p (.write src 0) else s)
    | _ => .error .disabled
  | .advance p => s.advance p
  | .others fs => s.others fs

structure Opened (s : Shared P) : Prop where
  regular : (s.fs.inode s.file.ip).Regular
  off : s.file.off = 0
  idle : ∀ p, s.pc p = .idle
  free : s.holder = none
  quiet : s.operations = []
  fresh : s.transfers = []

variable {s s' : Shared P} {p q : P}

def total (transfers : List (Transfer P)) : Nat := (transfers.map Transfer.count).sum

/-- Each transfer starts where the one before it ended, the first one at the beginning. -/
def Consecutive (transfers : List (Transfer P)) : Prop :=
  ∀ before t after, transfers = before ++ t :: after → t.start.toNat = total before

def pending (s : Shared P) : Nat :=
  match s.holder with
  | some p => (s.pc p).pending
  | none => 0

def ofCall (transfers : List (Transfer P)) (p : P) (call : Nat) : List (Transfer P) :=
  transfers.filter fun t => t.process = p ∧ t.call = call

def mine (s : Shared P) (p : P) : List (Transfer P) := ofCall s.transfers p (s.calls p)

def maxBytes : Nat := IoSystem.maxChunk.toNat

structure Written (mine : List (Transfer P)) (src : List Byte) (i : Nat) : Prop where
  request : ∀ t ∈ mine, t.request = .write src
  bytes : mine.flatMap Transfer.bytes = src.take i

/-- What a process in a call has transferred so far. A call of at most one chunk transfers once. -/
def Phase (mine : List (Transfer P)) : SharePc → Prop
  | .read _ | .readLocked _ => mine = []
  | .write src i =>
    Written mine src i ∧ (mine = [] ∧ i = 0 ∨ min maxBytes src.length ≤ i)
  | .writeBegun src i | .writeLocked src i =>
    Written mine src i ∧ i < src.length ∧ (mine = [] ∧ i = 0 ∨ maxBytes ≤ i)
  | .writeDone src i r | .writeUnlock src i r | .writeEnd src i r =>
    Written mine src (i + r.toNat) ∧ (r < 0 ∨ min maxBytes src.length ≤ i + r.toNat)
  | _ => True

/-- The transfers of a write are its first bytes, and one of at most one chunk is one transfer. -/
structure Whole (transfers : List (Transfer P)) (t : Transfer P) (src : List Byte) : Prop where
  bytes : (ofCall transfers t.process t.call).flatMap Transfer.bytes <+: src
  once : src.length ≤ maxBytes → t.bytes = src ∧ ofCall transfers t.process t.call = [t]

structure Inv (s : Shared P) : Prop where
  regular : (s.fs.inode s.file.ip).Regular
  busy : s.holder ≠ none → (s.fs.inode s.file.ip).busy = true
  held : ∀ p, (s.pc p).locked = true ↔ s.holder = some p
  consecutive : Consecutive s.transfers
  counted : s.file.off.toNat + s.pending = total s.transfers
  within : s.file.off.toNat + s.pending ≤ maxfile * bsize
  begun : ∀ t ∈ s.transfers, t.call ≤ s.calls t.process
  phase : ∀ p, Phase (s.mine p) (s.pc p)
  whole : ∀ t ∈ s.transfers, ∀ src, t.request = .write src → Whole s.transfers t src
  operating : ∀ p, (s.pc p).operating = true → p ∈ s.operations
  running : s.operations.length ≤ s.fs.outstanding

theorem Opened.inv (opened : s.Opened) : s.Inv where
  regular := opened.regular
  busy held := absurd opened.free held
  held p := by
    rw [opened.idle, opened.free]
    exact iff_of_false nofun nofun
  consecutive before t after split := by
    rw [opened.fresh] at split
    exact absurd split.symm (List.append_ne_nil_of_right_ne_nil _ (List.cons_ne_nil _ _))
  counted := by
    rw [opened.off, opened.fresh, pending, opened.free]
    rfl
  within := by
    rw [opened.off, pending, opened.free]
    exact Nat.zero_le _
  begun := by
    rw [opened.fresh]
    nofun
  phase p := by
    rw [opened.idle]
    trivial
  whole := by
    rw [opened.fresh]
    nofun
  operating p := by
    rw [opened.idle]
    nofun
  running := by
    rw [opened.quiet]
    exact Nat.zero_le _

variable {pc : SharePc}

theorem forall_update {places : P → SharePc} (holds : P → SharePc → Prop) (this : holds p pc)
    (others : ∀ q, q ≠ p → holds q (places q)) (q : P) :
    holds q (update places p pc q) := by
  by_cases same : q = p
  · rw [same, update_self]
    exact this
  · rw [update_of_ne same]
    exact others q same

theorem Inv.not_holder (inv : s.Inv) (outside : (s.pc p).locked = false) : s.holder ≠ some p := by
  intro holds
  rw [(inv.held p).mpr holds] at outside
  cases outside

omit [DecidableEq P] in
theorem pending_held (s : Shared P) (holds : s.holder = some p) (place : s.pc p = pc) :
    s.pending = pc.pending := by
  rw [pending, holds, ← place]

theorem pending_setPc (other : s.holder ≠ some p) : (s.setPc p pc).pending = s.pending := by
  unfold pending
  show (match s.holder with
    | some q => (update s.pc p pc q).pending
    | none => 0) = _
  cases held : s.holder with
  | none => rfl
  | some q =>
    have differ : q ≠ p := fun isP => other (held.trans (congrArg some isP))
    show (update s.pc p pc q).pending = (s.pc q).pending
    rw [update_of_ne differ]

section

variable (inv : s.Inv)
include inv

theorem Inv.mine_begin (p : P) (pc : SharePc) : (s.begin p pc).mine p = [] := by
  rw [mine, ofCall, List.filter_eq_nil_iff]
  intro t member
  simp only [Shared.begin, update_self, decide_eq_true_eq, not_and]
  intro isP call
  have begun := inv.begun t member
  rw [isP] at begun
  omega

theorem Inv.begin (idle : s.pc p = .idle) (unlocked : pc.locked = false)
    (before : pc.operating = false) (phase : Phase ([] : List (Transfer P)) pc) :
    (s.begin p pc).Inv := by
  have other : s.holder ≠ some p := inv.not_holder (by rw [idle]; rfl)
  have same : (s.begin p pc).pending = s.pending := pending_setPc other
  refine {
    regular := inv.regular
    busy := inv.busy
    held := ?_
    consecutive := inv.consecutive
    counted := same ▸ inv.counted
    within := same ▸ inv.within
    begun := ?_
    phase := ?_
    whole := inv.whole
    operating := ?_
    running := inv.running }
  · refine forall_update (fun q pc => pc.locked = true ↔ s.holder = some q)
      (iff_of_false ?_ other) fun q _ => inv.held q
    rw [unlocked]
    nofun
  · intro t member
    refine (inv.begun t member).trans ?_
    show s.calls t.process ≤ update s.calls p (s.calls p + 1) t.process
    by_cases isP : t.process = p
    · rw [isP, update_self]
      exact Nat.le_succ _
    · rw [update_of_ne isP]
  · refine forall_update (fun q pc' => Phase ((s.begin p pc).mine q) pc') ?_ fun q differ => ?_
    · rw [inv.mine_begin]
      exact phase
    · have same : (s.begin p pc).mine q = s.mine q := by
        rw [mine, mine]
        simp only [Shared.begin, update_of_ne differ]
        rfl
      rw [same]
      exact inv.phase q
  · refine forall_update (fun q pc => pc.operating = true → q ∈ s.operations) ?_
      fun q _ => inv.operating q
    rw [before]
    nofun

theorem Inv.move (p : P) (pc : SharePc) (places : s'.pc = update s.pc p pc)
    (calls : s'.calls = s.calls) (transfers : s'.transfers = s.transfers)
    (regular : (s'.fs.inode s'.file.ip).Regular)
    (busy : s'.holder ≠ none → (s'.fs.inode s'.file.ip).busy = true)
    (held : ∀ q, (s'.pc q).locked = true ↔ s'.holder = some q)
    (counted : s'.file.off.toNat + s'.pending = s.file.off.toNat + s.pending)
    (phase : Phase (s.mine p) pc) (operating : ∀ q, (s'.pc q).operating = true → q ∈ s'.operations)
    (running : s'.operations.length ≤ s'.fs.outstanding) : s'.Inv := by
  have same : ∀ q, s'.mine q = s.mine q := by
    intro q
    rw [mine, mine, transfers, calls]
  refine {
    regular := regular
    busy := busy
    held := held
    consecutive := transfers ▸ inv.consecutive
    counted := counted.trans (inv.counted.trans (by rw [transfers]))
    within := counted ▸ inv.within
    begun := by
      rw [transfers, calls]
      exact inv.begun
    phase := fun q => ?_
    whole := transfers ▸ inv.whole
    operating := operating
    running := running }
  rw [places, same q]
  exact forall_update (fun q pc => Phase (s.mine q) pc) phase (fun q _ => inv.phase q) q

theorem Inv.operating_update (still : pc.operating = true → (s.pc p).operating = true) (q : P) :
    (update s.pc p pc q).operating = true → q ∈ s.operations :=
  forall_update (fun q pc => pc.operating = true → q ∈ s.operations)
    (fun now => inv.operating p (still now)) (fun q _ => inv.operating q) q

theorem Inv.beginOp (taken : s.beginOp p pc = .ok s') (before : (s.pc p).locked = false)
    (outside : pc.locked = false) (phase : Phase (s.mine p) pc) : s'.Inv := by
  obtain ⟨⟨_, fs⟩, begun, rest⟩ := Transition.bind_ok.mp taken
  cases rest
  obtain rfl := Fs.wp_beginOp.ok begun
  have other := inv.not_holder before
  refine inv.move p pc rfl rfl rfl inv.regular inv.busy ?_ ?_ phase ?_ ?_
  · refine forall_update (fun q pc => pc.locked = true ↔ s.holder = some q) ?_ fun q _ => inv.held q
    rw [outside]
    exact iff_of_false nofun other
  · exact congrArg (s.file.off.toNat + ·) (pending_setPc other)
  · exact forall_update (fun q pc => pc.operating = true → q ∈ p :: s.operations)
      (fun _ => List.mem_cons_self) fun q _ now => List.mem_cons_of_mem _ (inv.operating q now)
  · show (p :: s.operations).length ≤ s.fs.outstanding + 1
    rw [List.length_cons]
    exact Nat.succ_le_succ inv.running

theorem Inv.endOp (taken : s.endOp p pc = .ok s') (before : (s.pc p).locked = false)
    (inside : (s.pc p).operating = true) (outside : pc.locked = false)
    (finished : pc.operating = false) (phase : Phase (s.mine p) pc) : s'.Inv := by
  obtain ⟨⟨_, fs⟩, ended, rest⟩ := Transition.bind_ok.mp taken
  cases rest
  cases ended
  have other := inv.not_holder before
  refine inv.move p pc rfl rfl rfl inv.regular inv.busy ?_ ?_ phase ?_ ?_
  · refine forall_update (fun q pc => pc.locked = true ↔ s.holder = some q) ?_ fun q _ => inv.held q
    rw [outside]
    exact iff_of_false nofun other
  · exact congrArg (s.file.off.toNat + ·) (pending_setPc other)
  · refine forall_update (fun q pc => pc.operating = true → q ∈ s.operations.erase p) ?_
      fun q differ now => (List.mem_erase_of_ne differ).mpr (inv.operating q now)
    rw [finished]
    nofun
  · show (s.operations.erase p).length ≤ s.fs.outstanding - 1
    rw [List.length_erase_of_mem (inv.operating p inside)]
    exact Nat.sub_le_sub_right inv.running 1

theorem Inv.lock (taken : s.lock p pc = .ok s') (inside : pc.locked = true) (quiet : pc.pending = 0)
    (still : pc.operating = true → (s.pc p).operating = true) (phase : Phase (s.mine p) pc) :
    s'.Inv := by
  obtain ⟨⟨_, fs⟩, locked, rest⟩ := Transition.bind_ok.mp taken
  cases rest
  obtain ⟨ref, valid, type, size⟩ := inv.regular
  obtain ⟨idle, rfl⟩ := (Fs.wp_ilock_valid valid).ok locked
  have free : s.holder = none := by
    by_contra holds
    rw [inv.busy holds] at idle
    cases idle
  have entry := Fs.put_self s.fs s.file.ip { s.fs.inode s.file.ip with busy := true }
  refine inv.move p pc rfl rfl rfl ?_ (fun _ => ?_) ?_ ?_ phase (inv.operating_update still)
    inv.running
  · show (Inode.Regular ((s.fs.put s.file.ip _).inode s.file.ip))
    rw [entry]
    exact ⟨ref, valid, type, size⟩
  · show ((s.fs.put s.file.ip _).inode s.file.ip).busy = true
    rw [entry]
  · refine forall_update (fun q pc => pc.locked = true ↔ some p = some q) ?_ fun q differ => ?_
    · exact iff_of_true inside rfl
    · rw [inv.held q, free]
      exact iff_of_false nofun fun same => differ (Option.some.inj same).symm
  · rw [pending_held _ rfl (update_self ..), quiet, pending, free]
    rfl

theorem Inv.unlock (taken : s.unlock p pc = .ok s') (inside : (s.pc p).locked = true)
    (quiet : (s.pc p).pending = 0) (outside : pc.locked = false)
    (still : pc.operating = true → (s.pc p).operating = true) (phase : Phase (s.mine p) pc) :
    s'.Inv := by
  obtain ⟨⟨_, fs⟩, unlocked, rest⟩ := Transition.bind_ok.mp taken
  cases rest
  obtain rfl := Fs.wp_iunlock_free.ok unlocked
  have holds := (inv.held p).mp inside
  have entry := Fs.put_self s.fs s.file.ip
    { s.fs.inode s.file.ip with busy := false }
  refine inv.move p pc rfl rfl rfl ?_ (fun none => absurd rfl none) ?_ ?_ phase
    (inv.operating_update still) inv.running
  · show Inode.Regular ((s.fs.put s.file.ip _).inode s.file.ip)
    rw [entry]
    exact inv.regular
  · refine forall_update (fun q pc => pc.locked = true ↔ none = some q) ?_ fun q differ => ?_
    · rw [outside]
      exact iff_of_false nofun nofun
    · rw [inv.held q, holds]
      exact iff_of_false (fun same => differ (Option.some.inj same).symm) nofun
  · show s.file.off.toNat + 0 = _
    rw [pending_held s holds rfl, quiet]

theorem Inv.leave (outside : (s.pc p).locked = false) : (s.setPc p .idle).Inv := by
  have other := inv.not_holder outside
  refine inv.move p .idle rfl rfl rfl inv.regular inv.busy ?_ ?_ trivial
    (inv.operating_update nofun) inv.running
  · exact forall_update (fun q pc => pc.locked = true ↔ s.holder = some q)
      (iff_of_false nofun other) fun q _ => inv.held q
  · rw [pending_setPc other]
    rfl

theorem Inv.count {r : Int} (inside : (s.pc p).locked = true) (waits : (s.pc p).pending = r.toNat)
    (still : pc.locked = true) (quiet : pc.pending = 0)
    (goes : pc.operating = true → (s.pc p).operating = true) (phase : Phase (s.mine p) pc) :
    (s.count p r pc).Inv := by
  have holds := (inv.held p).mp inside
  have isPending : s.pending = r.toNat := (pending_held s holds rfl).trans waits
  have within := inv.within
  rw [isPending] at within
  refine inv.move p pc rfl rfl rfl inv.regular inv.busy ?_ ?_ phase (inv.operating_update goes)
    inv.running
  · refine forall_update (fun q pc => pc.locked = true ↔ s.holder = some q) ?_ fun q _ => inv.held q
    exact iff_of_true still holds
  · have after : (s.count p r pc).pending = 0 :=
      (pending_held (s.count p r pc) holds (update_self ..)).trans quiet
    rw [after, isPending]
    show (s.file.advance r).off.toNat + 0 = _
    rw [File.advance]
    have limit : maxfile * bsize = 71680 := rfl
    split
    · rename_i some
      have number : (BitVec.ofInt 32 r).toNat = r.toNat := by
        obtain ⟨n, rfl⟩ := Int.eq_ofNat_of_zero_le some.le
        rw [Int.toNat_natCast] at within
        rw [BitVec.ofInt_natCast, toNat_ofNat, Int.toNat_natCast]
        exact Nat.mod_eq_of_lt (by omega)
      rw [toNat_add, number, Nat.mod_eq_of_lt (by omega)]
      rfl
    · rename_i none
      rw [Int.toNat_of_nonpos (by omega)]

end

omit [DecidableEq P] in
theorem total_concat (transfers : List (Transfer P)) (t : Transfer P) :
    total (transfers ++ [t]) = total transfers + t.count := by
  simp [total]

variable {transfers : List (Transfer P)}

omit [DecidableEq P] in
theorem Consecutive.concat {t : Transfer P} (before : Consecutive transfers)
    (start : t.start.toNat = total transfers) : Consecutive (transfers ++ [t]) := by
  intro front t' back split
  rcases List.eq_nil_or_concat back with rfl | ⟨back, last, rfl⟩
  · obtain ⟨rfl, same⟩ := List.append_inj' split rfl
    cases same
    exact start
  · rw [List.concat_eq_append, ← List.cons_append, ← List.append_assoc] at split
    exact before front t' back (List.append_inj' split rfl).1

theorem ofCall_concat (transfers : List (Transfer P)) {t : Transfer P} {p : P} {call : Nat}
    (this : t.process = p) (present : t.call = call) :
    ofCall (transfers ++ [t]) p call = ofCall transfers p call ++ [t] := by
  rw [ofCall, List.filter_append, List.filter_cons_of_pos]
  · rfl
  · exact decide_eq_true ⟨this, present⟩

theorem ofCall_other (transfers : List (Transfer P)) {t : Transfer P} {p : P} {call : Nat}
    (other : ¬ (t.process = p ∧ t.call = call)) :
    ofCall (transfers ++ [t]) p call = ofCall transfers p call := by
  rw [ofCall, List.filter_append, List.filter_cons_of_neg, List.filter_nil, List.append_nil]
  · rfl
  · rwa [decide_eq_true_eq]

section

variable (inv : s.Inv) (inside : (s.pc p).locked = true) (quiet : (s.pc p).pending = 0)
  (still : pc.locked = true) (goes : pc.operating = true → (s.pc p).operating = true)
include inv inside quiet still goes

theorem Inv.record {fs : Fs} {request : Request} {bytes : List Byte}
    (waits : pc.pending = bytes.length) (regular : (fs.inode s.file.ip).Regular)
    (busy : (fs.inode s.file.ip).busy = (s.fs.inode s.file.ip).busy)
    (running : fs.outstanding = s.fs.outstanding)
    (fits : s.file.off.toNat + bytes.length ≤ maxfile * bsize)
    (phase : Phase (s.mine p ++ [s.transfer p request bytes]) pc)
    (whole : ∀ t ∈ s.mine p ++ [s.transfer p request bytes], ∀ src, t.request = .write src →
      (s.mine p ++ [s.transfer p request bytes]).flatMap Transfer.bytes <+: src ∧
      (src.length ≤ maxBytes → t.bytes = src ∧
        s.mine p ++ [s.transfer p request bytes] = [t])) :
    (s.record p pc fs (s.transfer p request bytes)).Inv := by
  have holds := (inv.held p).mp inside
  have nothing : s.pending = 0 := (pending_held s holds rfl).trans quiet
  have counted := inv.counted
  rw [nothing] at counted
  have after : (s.record p pc fs (s.transfer p request bytes)).pending = bytes.length :=
    (pending_held (s.record p pc fs _) holds (update_self ..)).trans waits
  have ours : ofCall (s.transfers ++ [s.transfer p request bytes]) p (s.calls p) =
      s.mine p ++ [s.transfer p request bytes] := ofCall_concat _ rfl rfl
  refine {
    regular := regular
    busy := fun held => busy.trans (inv.busy held)
    held := ?_
    consecutive := inv.consecutive.concat counted
    counted := ?_
    within := ?_
    begun := ?_
    phase := ?_
    whole := ?_
    operating := inv.operating_update goes
    running := ?_ }
  · exact forall_update (fun q pc => pc.locked = true ↔ s.holder = some q)
      (iff_of_true still holds) fun q _ => inv.held q
  · rw [after]
    show s.file.off.toNat + bytes.length = total (s.transfers ++ [_])
    rw [total_concat, ← counted]
    rfl
  · rw [after]
    exact fits
  · intro t member
    rcases List.mem_append.mp member with old | new
    · exact inv.begun t old
    · rw [List.mem_singleton.mp new]
      exact Nat.le_refl _
  · refine forall_update (fun q pc' =>
      Phase (ofCall (s.transfers ++ [s.transfer p request bytes]) q (s.calls q)) pc') ?_ ?_
    · rw [ours]
      exact phase
    · intro q differ
      rw [ofCall_other _ fun same => differ same.1.symm]
      exact inv.phase q
  · intro t member src isWrite
    by_cases same : t.process = p ∧ t.call = s.calls p
    · -- a transfer of the present call
      have mine' : t ∈ s.mine p ++ [s.transfer p request bytes] := by
        rw [← ours]
        exact List.mem_filter.mpr ⟨member, decide_eq_true same⟩
      have kept : ofCall (s.transfers ++ [s.transfer p request bytes]) t.process t.call =
          s.mine p ++ [s.transfer p request bytes] := by
        rw [same.1, same.2]
        exact ours
      obtain ⟨leading, once⟩ := whole t mine' src isWrite
      exact ⟨kept.symm ▸ leading, kept.symm ▸ once⟩
    · have old : t ∈ s.transfers := by
        rcases List.mem_append.mp member with old | new
        · exact old
        · rw [List.mem_singleton.mp new] at same
          exact absurd ⟨rfl, rfl⟩ same
      obtain ⟨before, once⟩ := inv.whole t old src isWrite
      have kept : ofCall (s.transfers ++ [s.transfer p request bytes]) t.process t.call =
          ofCall s.transfers t.process t.call :=
        ofCall_other _ fun here => same ⟨here.1.symm, here.2.symm⟩
      exact ⟨kept.symm ▸ before, kept.symm ▸ once⟩
  · show s.operations.length ≤ fs.outstanding
    rw [running]
    exact inv.running

theorem Inv.fail {fs : Fs} (waits : pc.pending = 0) (regular : (fs.inode s.file.ip).Regular)
    (busy : (fs.inode s.file.ip).busy = (s.fs.inode s.file.ip).busy)
    (running : fs.outstanding = s.fs.outstanding) (phase : Phase (s.mine p) pc) :
    Inv { s.setPc p pc with fs := fs } := by
  have holds := (inv.held p).mp inside
  refine inv.move p pc rfl rfl rfl regular (fun held => busy.trans (inv.busy held))
    ?_ ?_ phase (inv.operating_update goes) (running ▸ inv.running)
  · exact forall_update (fun q pc => pc.locked = true ↔ s.holder = some q)
      (iff_of_true still holds) fun q _ => inv.held q
  · have after : pending { s.setPc p pc with fs := fs } = 0 :=
      (pending_held { s.setPc p pc with fs := fs } holds (update_self ..)).trans waits
    rw [after, pending_held s holds rfl, quiet]
    rfl

end

theorem regular_readdressed {fs fs' : Fs} {ip : InodePtr} (regular : (fs.inode ip).Regular)
    (changed : fs.Readdressed fs' ip) :
    (fs'.inode ip).Regular ∧ (fs'.inode ip).busy = (fs.inode ip).busy := by
  obtain ⟨addrs, entry⟩ := changed.entry
  rw [entry]
  exact ⟨regular, rfl⟩

theorem not_device {inode : Inode} (regular : inode.Regular) : inode.din.type ≠ tDev := by
  rw [regular.2.2.1]
  decide

section

variable (inv : s.Inv)
include inv

theorem Inv.readInode {n : Word} (here : s.pc p = .readLocked n)
    (taken : s.readInode p n = .ok s') : s'.Inv := by
  obtain ⟨⟨r, fs⟩, read, rest⟩ := Transition.bind_ok.mp taken
  obtain ⟨changed, short⟩ := (Fs.wp_readi_file (not_device inv.regular)).ok read
  obtain ⟨regular, busy⟩ := regular_readdressed inv.regular changed
  have inside : (s.pc p).locked = true := by rw [here]; rfl
  have quiet : (s.pc p).pending = 0 := by rw [here]; rfl
  have first : s.mine p = [] := by
    have phase := inv.phase p
    rw [here] at phase
    exact phase
  cases r with
  | error bytes =>
    cases rest
    exact inv.fail inside quiet rfl (fun now => by cases now) rfl regular busy changed.2 trivial
  | ok bytes =>
    cases rest
    have within := (short bytes rfl).trans inv.regular.2.2.2
    have limit : maxfile * bsize = 71680 := rfl
    have number : (BitVec.ofNat 32 bytes.length).toInt = bytes.length := by
      rw [BitVec.toInt_eq_toNat_of_lt]
      · rw [toNat_ofNat, Nat.mod_eq_of_lt (by omega)]
      · rw [toNat_ofNat, Nat.mod_eq_of_lt (by omega)]
        omega
    refine inv.record inside quiet rfl (fun now => by cases now) ?_ regular busy changed.2 within
      trivial ?_
    · show (BitVec.ofNat 32 bytes.length).toInt.toNat = _
      rw [number, Int.toNat_natCast]
    · -- the transfer is no write
      rw [first]
      intro t member src isWrite
      rw [List.mem_singleton.mp member] at isWrite
      cases isWrite

omit inv [DecidableEq P] in
theorem Written.concat {mine : List (Transfer P)} {src : List Byte} {i n : Nat}
    (written : Written mine src i) {t : Transfer P} (request : t.request = .write src)
    (bytes : t.bytes = (src.drop i).take n) : Written (mine ++ [t]) src (i + n) where
  request t' member := by
    rcases List.mem_append.mp member with old | new
    · exact written.request t' old
    · rw [List.mem_singleton.mp new, request]
  bytes := by
    rw [List.flatMap_append, written.bytes, List.flatMap_singleton, bytes, List.take_add]

theorem Inv.recordWrite {fs : Fs} {src : List Byte} {i : Nat} (here : s.pc p = .writeLocked src i)
    (regular : (fs.inode s.file.ip).Regular)
    (busy : (fs.inode s.file.ip).busy = (s.fs.inode s.file.ip).busy)
    (running : fs.outstanding = s.fs.outstanding)
    (fits : s.file.off.toNat + chunk src i ≤ maxfile * bsize) :
    (s.record p (.writeDone src i (chunk src i)) fs
      (s.transfer p (.write src) ((src.drop i).take (chunk src i)))).Inv := by
  have inside : (s.pc p).locked = true := by rw [here]; rfl
  have quiet : (s.pc p).pending = 0 := by rw [here]; rfl
  have goes : (s.pc p).operating = true := by rw [here]; rfl
  have phase := inv.phase p
  rw [here] at phase
  obtain ⟨written, more, sofar⟩ := phase
  have piece : chunk src i = min (src.length - i) maxBytes := rfl
  have length : ((src.drop i).take (chunk src i)).length = chunk src i := by
    rw [List.length_take, List.length_drop]
    omega
  have written' := written.concat (t := s.transfer p (.write src) ((src.drop i).take (chunk src i)))
    rfl rfl
  refine inv.record inside quiet rfl (fun _ => goes) ?_ regular busy running ?_
    ⟨written', .inr ?_⟩ ?_
  · rw [length]
    exact Int.toNat_natCast _
  · rw [length]
    exact fits
  · rw [Int.toNat_natCast]
    omega
  · intro t member src' isWrite
    obtain rfl : src = src' := by
      rw [written'.request t member] at isWrite
      exact Request.write.inj isWrite
    refine ⟨?_, fun small => ?_⟩
    · rw [written'.bytes]
      exact List.take_prefix ..
    · rcases sofar with ⟨first, rfl⟩ | passed
      · rw [first, List.nil_append] at member ⊢
        rw [List.mem_singleton.mp member]
        refine ⟨?_, rfl⟩
        show (src.drop 0).take (chunk src 0) = src
        rw [List.drop_zero, List.take_of_length_le (by omega)]
      · omega

theorem Inv.writeInode {src : List Byte} {i : Nat} (here : s.pc p = .writeLocked src i)
    (taken : s.writeInode p src i = .ok s') : s'.Inv := by
  obtain ⟨⟨r, fs⟩, wrote, rest⟩ := Transition.bind_ok.mp taken
  have inside : (s.pc p).locked = true := by rw [here]; rfl
  have quiet : (s.pc p).pending = 0 := by rw [here]; rfl
  have goes : (s.pc p).operating = true := by rw [here]; rfl
  have size : maxBytes = 6656 := rfl
  have piece : chunk src i = min (src.length - i) maxBytes := rfl
  rcases (Fs.wp_writei_file (not_device inv.regular)).ok wrote with
    ⟨rfl, rfl⟩ | ⟨rfl, extended⟩
  · cases rest
    have phase := inv.phase p
    rw [here] at phase
    exact inv.fail inside quiet rfl (fun _ => goes) rfl inv.regular rfl rfl
      ⟨phase.1, .inl (by decide)⟩
  · have number : (BitVec.ofNat 32 (chunk src i)).toInt = chunk src i := by
      rw [BitVec.toInt_eq_toNat_of_lt]
      · rw [toNat_ofNat, Nat.mod_eq_of_lt (by omega)]
      · rw [toNat_ofNat, Nat.mod_eq_of_lt (by omega)]
        omega
    have nonneg : ¬ (chunk src i : Int) < 0 := by omega
    rw [number] at rest
    dsimp only at rest
    rw [if_neg nonneg, Int.toNat_natCast] at rest
    cases rest
    obtain ⟨resized, grown, fits⟩ := extended
    rw [toNat_ofNat, Nat.mod_eq_of_lt (by omega)] at fits
    have limit : maxfile * bsize = 71680 := rfl
    have regular : (fs.inode s.file.ip).Regular ∧
        (fs.inode s.file.ip).busy = (s.fs.inode s.file.ip).busy := by
      obtain ⟨⟨size', addrs, entries⟩, -⟩ := resized
      obtain ⟨ref, valid, type, old⟩ := inv.regular
      rw [entries, update_self] at grown ⊢
      refine ⟨⟨ref, valid, type, ?_⟩, rfl⟩
      rcases grown with kept | moved
      · rw [kept]
        exact old
      · rw [moved, toNat_add, toNat_ofNat, Nat.mod_eq_of_lt (by omega),
          Nat.mod_eq_of_lt (by omega)]
        exact fits
    exact inv.recordWrite here regular.1 regular.2 resized.2 fits

theorem Inv.turn {src : List Byte} {i : Nat} {r : Int} (here : s.pc p = .writeEnd src i r)
    (taken : s.turn p src i r = .ok s') : s'.Inv := by
  have before : (s.pc p).locked = false := by rw [here]; rfl
  have inside : (s.pc p).operating = true := by rw [here]; rfl
  have phase := inv.phase p
  rw [here] at phase
  obtain ⟨written, sofar⟩ := phase
  unfold Shared.turn at taken
  split at taken
  · exact inv.endOp taken before inside rfl rfl trivial
  · split at taken
    · cases taken
    · exact inv.endOp taken before inside rfl rfl ⟨written, .inr (sofar.resolve_left ‹_›)⟩

theorem Inv.advance (taken : s.advance p = .ok s') : s'.Inv := by
  have phase := inv.phase p
  unfold Shared.advance at taken
  cases here : s.pc p with
  | idle =>
    rw [here] at taken
    cases taken
  | read n =>
    rw [here] at taken phase
    exact inv.lock taken rfl rfl nofun phase
  | readLocked n =>
    rw [here] at taken
    exact inv.readInode here taken
  | readDone r =>
    rw [here] at taken
    cases taken
    exact inv.count (by rw [here]; rfl) (by rw [here]; rfl) rfl rfl nofun trivial
  | readUnlock =>
    rw [here] at taken
    exact inv.unlock taken (by rw [here]; rfl) (by rw [here]; rfl) rfl nofun trivial
  | write src i =>
    rw [here] at taken phase
    dsimp only at taken
    obtain ⟨written, sofar⟩ := phase
    split at taken
    · cases taken
      exact inv.leave (by rw [here]; rfl)
    · rename_i more
      refine inv.beginOp taken (by rw [here]; rfl) rfl
        ⟨written, Nat.lt_of_not_le more, sofar.imp id fun passed => ?_⟩
      omega
  | writeBegun src i =>
    rw [here] at taken phase
    exact inv.lock taken rfl rfl (fun _ => by rw [here]; rfl) phase
  | writeLocked src i =>
    rw [here] at taken
    exact inv.writeInode here taken
  | writeDone src i r =>
    rw [here] at taken phase
    cases taken
    exact inv.count (by rw [here]; rfl) (by rw [here]; rfl) rfl rfl (fun _ => by rw [here]; rfl)
      phase
  | writeUnlock src i r =>
    rw [here] at taken phase
    exact inv.unlock taken (by rw [here]; rfl) (by rw [here]; rfl) rfl
      (fun _ => by rw [here]; rfl) phase
  | writeEnd src i r =>
    rw [here] at taken
    exact inv.turn here taken

theorem Inv.others {fs : Fs} (taken : s.others fs = .ok s') : s'.Inv := by
  have same : ∀ fs', (fs'.inode s.file.ip).Regular →
      (s.holder ≠ none → (fs'.inode s.file.ip).busy = true) →
      s.operations.length ≤ fs'.outstanding → Inv { s with fs := fs' } :=
    fun fs' regular busy running =>
      { regular := regular
        busy := busy
        held := inv.held
        consecutive := inv.consecutive
        counted := inv.counted
        within := inv.within
        begun := inv.begun
        phase := inv.phase
        whole := inv.whole
        operating := inv.operating
        running := running }
  unfold Shared.others at taken
  split at taken
  · cases taken
  rename_i enough
  have running : s.operations.length ≤ fs.outstanding := Nat.le_of_not_lt enough
  split at taken
  · cases taken
    have entry := Fs.put_self fs s.file.ip (s.fs.inode s.file.ip)
    refine same (fs.put s.file.ip (s.fs.inode s.file.ip)) ?_ (fun held => ?_) running
    · rw [entry]
      exact inv.regular
    · rw [entry]
      exact inv.busy held
  · rename_i free
    split at taken
    · cases taken
      exact same fs ‹_› (fun held => absurd free held) running
    · cases taken

theorem Inv.step {action : ShareAction P} (taken : s.step action = .ok s') : s'.Inv := by
  cases action with
  | read p n =>
    unfold Shared.step at taken
    cases here : s.pc p with
    | idle =>
      simp only [here, Except.ok.injEq] at taken
      subst taken
      split
      · exact inv.begin here rfl rfl rfl
      · exact inv
    | _ =>
      simp only [here] at taken
      cases taken
  | write p src =>
    unfold Shared.step at taken
    cases here : s.pc p with
    | idle =>
      simp only [here, Except.ok.injEq] at taken
      subst taken
      split
      · exact inv.begin here rfl rfl ⟨⟨nofun, rfl⟩, .inl ⟨rfl, rfl⟩⟩
      · exact inv
    | _ =>
      simp only [here] at taken
      cases taken
  | advance p => exact inv.advance taken
  | others fs => exact inv.others taken

end

omit [DecidableEq P] in
theorem Consecutive.disjoint (consecutive : Consecutive transfers) :
    transfers.Pairwise fun a b => a.start.toNat + a.count ≤ b.start.toNat := by
  induction transfers using List.reverseRecOn with
  | nil => exact .nil
  | append_singleton front last ih =>
    have start := consecutive front last [] rfl
    have before : Consecutive front := fun first t rest split =>
      consecutive first t (rest ++ [last]) (by rw [split, List.append_assoc, List.cons_append])
    refine List.pairwise_append.mpr
      ⟨ih before, List.pairwise_singleton _ _, fun t member t' isLast => ?_⟩
    obtain ⟨first, rest, split⟩ := List.append_of_mem member
    rw [List.mem_singleton.mp isLast, start, before first t rest split, split]
    simp only [total, List.map_append, List.map_cons, List.sum_append, List.sum_cons]
    omega

end Shared

end Xv6
